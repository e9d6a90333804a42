import IcecastCommon.Lib.Bytes
import Mathlib.Tactic.SplitIfs

/-!
# Blocks that are filled

A block as `malloc` hands it out. A store outside of it is a fault, and so is reading a byte that
nothing was stored to.
-/

namespace Lib

/-- `none` is a byte that nothing was stored to. -/
abbrev Block := List (Option Byte)

namespace Block

/-- `block[i] = b` -/
def put (block : Block) (i : Nat) (b : Byte) : C Block :=
  if i < block.length then return block.set i (some b) else throw .bounds

/-- `memcpy(block + i, data, data.length)` -/
def copy (block : Block) (i : Nat) : Bytes → C Block
  | [] => return block
  | b :: data => do copy (← block.put i b) (i + 1) data

/-- `snprintf(block, size, "%s", text)` -/
def print (block : Block) (size : Nat) (text : Bytes) : C Block :=
  if size = 0 then return block else block.copy 0 (text.take (size - 1) ++ [0])

/-- The string at the front. -/
def string : Block → C Bytes
  | [] => throw .bounds
  | none :: _ => throw .bounds
  | some b :: block => if b = 0 then return [] else do return b :: (← string block)

/-- `text` is stored at the front, and `n` bytes are to go. -/
def filled (text : Bytes) (n : Nat) : Block := text.map some ++ List.replicate n none

/-- All bytes are stored. -/
def Full (block : Block) : Prop := ∀ i < block.length, ∃ b, block[i]? = some (some b)

@[simp] theorem length_filled (text : Bytes) (n : Nat) :
    (filled text n).length = text.length + n := by
  simp [filled]

theorem full_filled (text : Bytes) : Full (filled text 0) := by
  intro i hi
  rw [length_filled, Nat.add_zero] at hi
  exact ⟨text[i], by simp [filled, hi]⟩

/-! ## Stores -/

theorem put_eq {block : Block} {i : Nat} (h : i < block.length) (b : Byte) :
    block.put i b = .ok (block.set i (some b)) :=
  if_pos h

/-- What is stored in order replaces what was there. -/
theorem copy_eq (data : Bytes) : ∀ (block : Block) (i : Nat), i + data.length ≤ block.length →
    block.copy i data = .ok (block.take i ++ data.map some ++ block.drop (i + data.length)) := by
  induction data with
  | nil =>
    intro block i _
    rw [List.map_nil, List.append_nil, List.length_nil, Nat.add_zero, List.take_append_drop]
    rfl
  | cons b data ih =>
    intro block i h
    rw [List.length_cons] at h
    have hi : i < block.length := by omega
    have hfront : (block.set i (some b)).take (i + 1) = block.take i ++ [some b] := by
      rw [List.take_add_one, List.take_set_of_le (Nat.le_refl i), List.getElem?_set_self hi]
      rfl
    rw [copy, put_eq hi, ok_bind, ih _ _ (by rw [List.length_set]; omega), hfront,
      List.drop_set_of_lt (by omega), List.length_cons, List.map_cons]
    simp [Nat.add_right_comm, Nat.add_assoc]

theorem copy_append (data data' : Bytes) : ∀ (block : Block) (i : Nat),
    block.copy i (data ++ data') = block.copy i data >>= fun block =>
      copy block (i + data.length) data' := by
  induction data with
  | nil => exact fun _ _ => rfl
  | cons b data ih =>
    intro block i
    rw [List.cons_append, copy, copy, bind_assoc]
    congr 1
    funext block'
    rw [ih, List.length_cons, Nat.add_right_comm, Nat.add_assoc]

/-- Bytes that are stored again, and more behind them. -/
theorem copy_over (text old data : Bytes) {k n : Nat} (hlen : old.length + k = data.length + n)
    (hle : n ≤ k) :
    copy (filled (text ++ old) k) text.length data = .ok (filled (text ++ data) n) := by
  have hold : old.map some ++ List.replicate k none =
      (old.map some ++ List.replicate (k - n) none) ++ List.replicate n (none : Option Byte) := by
    rw [List.append_assoc, List.replicate_append_replicate, Nat.sub_add_cancel hle]
  have hdata : (old.map some ++ List.replicate (k - n) (none : Option Byte)).length =
      data.length := by
    simp
    omega
  rw [copy_eq _ _ _ (by simp; omega)]
  simp only [filled, List.map_append, List.append_assoc]
  rw [hold, ← List.drop_drop, ← List.length_map some, List.take_left, List.drop_left, ← hdata,
    List.drop_left]

theorem copy_filled (text data : Bytes) (n : Nat) :
    copy (filled text (data.length + n)) text.length data = .ok (filled (text ++ data) n) := by
  have h := copy_over text [] data (Nat.zero_add (data.length + n)) (Nat.le_add_left n data.length)
  rwa [List.append_nil] at h

theorem put_filled (text : Bytes) (b : Byte) (n : Nat) :
    put (filled text (n + 1)) text.length b = .ok (filled (text ++ [b]) n) := by
  have h := copy_filled text [b] n
  rw [List.length_singleton, Nat.add_comm 1 n] at h
  rw [← h, copy, put_eq (by simp)]
  rfl

theorem print_filled (text : Bytes) (n : Nat) :
    print (filled [] (text.length + 1 + n)) (text.length + 1 + n) text =
      .ok (filled (text ++ [0]) n) := by
  have htake : text.take (text.length + 1 + n - 1) = text := List.take_of_length_le (by omega)
  have hcopy := copy_filled [] (text ++ [0]) n
  rw [List.length_append, List.length_singleton] at hcopy
  rw [print, if_neg (by omega), htake]
  exact hcopy

theorem string_filled (text : Bytes) (n : Nat) :
    string (filled (text ++ [0]) n) = cstring (text ++ [0]) := by
  rw [cstring_cut]
  induction text with
  | nil => rfl
  | cons b text ih =>
    show (if b = 0 then (.ok [] : C Bytes) else _) = _
    by_cases hb : b = 0
    · rw [if_pos hb, List.takeWhile_cons_of_neg (by simp [hb])]
    · rw [if_neg hb, List.takeWhile_cons_of_pos (by simpa using hb)]
      show (string (filled (text ++ [0]) n) >>= _) = _
      rw [ih]
      rfl

/-- A string without a NUL comes back as it was printed. -/
theorem print_string {text : Bytes} (htext : 0 ∉ text) (n : Nat) :
    (print (filled [] (text.length + 1 + n)) (text.length + 1 + n) text >>= string) = .ok text := by
  rw [print_filled, ok_bind, string_filled, cstring_append htext]

/-- The bytes of a block that is full. -/
theorem mapM_filled (text : Bytes) : (filled text 0).mapM id = some text := by
  induction text with
  | nil => rfl
  | cons b text ih =>
    show (filled (b :: text) 0).mapM id = _
    have hcons : filled (b :: text) 0 = some b :: filled text 0 := rfl
    rw [hcons, List.mapM_cons, ih]
    rfl

end Block

end Lib
