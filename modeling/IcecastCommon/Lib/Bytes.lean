import IcecastCommon.Lib.Memory
import Mathlib.Algebra.Group.Int.Defs
import Mathlib.Algebra.Group.Nat.Defs
import Mathlib.Data.List.TakeWhile

/-!
# Bytes and C strings

A block of memory is the list of the bytes that have been stored in it. Reading any other byte
of it is a fault.
-/

namespace Lib

abbrev Byte := UInt8

abbrev Bytes := List UInt8

def ch (c : Char) : Byte := UInt8.ofNat c.toNat

def ascii (s : String) : Bytes := s.toList.map ch

def CR : Byte := 13
def LF : Byte := 10
def QUOTE : Byte := 34
def BACKSLASH : Byte := 92

/-- `"\r\n"` -/
def crlf : Bytes := [CR, LF]

/-! ## Blocks -/

def read (block : Bytes) (i : Nat) : C Byte :=
  match block[i]? with
  | some b => return b
  | none => throw .bounds

/-- The `n` bytes from `offset` on. -/
def slice (block : Bytes) (offset n : Nat) : C Bytes :=
  if offset + n ≤ block.length then return (block.drop offset).take n else throw .bounds

/-- Overwrites one byte. -/
def store (block : Bytes) (i : Int) (b : Byte) : C Bytes :=
  if 0 ≤ i ∧ i < block.length then return block.set i.toNat b else throw .bounds

/-- Of two ways to cut a text, the earlier cut is in front of the later one. -/
theorem append_split {α : Type} {w rest x y : List α} (h : w ++ rest = x ++ y)
    (hle : x.length ≤ w.length) :
    ∃ v, w = x ++ v ∧ v ++ rest = y := by
  obtain ⟨v, rfl⟩ := List.prefix_of_prefix_length_le ⟨y, h.symm⟩ (List.prefix_append w rest) hle
  rw [List.append_assoc] at h
  exact ⟨v, rfl, List.append_cancel_left h⟩

theorem slice_eq {block : Bytes} {offset n : Nat} (h : offset + n ≤ block.length) :
    slice block offset n = .ok ((block.drop offset).take n) := if_pos h

theorem slice_eq_ok {block data : Bytes} {offset n : Nat} (h : slice block offset n = .ok data) :
    offset + n ≤ block.length ∧ data = (block.drop offset).take n := by
  unfold slice at h
  split_ifs at h with hn
  exact ⟨hn, (Except.ok.inj h).symm⟩

theorem slice_front {block : Bytes} {n : Nat} (h : n ≤ block.length) :
    slice block 0 n = .ok (block.take n) := by
  rw [slice_eq (by omega), List.drop_zero]

/-- The rest of a block. -/
theorem slice_rest {block : Bytes} {offset : Nat} (h : offset ≤ block.length) :
    slice block offset (block.length - offset) = .ok (block.drop offset) := by
  rw [slice_eq (by omega), List.take_of_length_le (by simp)]

/-! What stands at an index and behind it. -/

theorem read_drop {block rest : Bytes} {i : Nat} {c : Byte} (h : block.drop i = c :: rest) :
    read block i = .ok c := by
  have hc : block[i]? = some c := by rw [← List.head?_drop, h, List.head?_cons]
  unfold read
  rw [hc]
  rfl

theorem drop_next {block rest : Bytes} {i : Nat} {c : Byte} (h : block.drop i = c :: rest) :
    block.drop (i + 1) = rest := by
  rw [← List.drop_drop, h]
  rfl

theorem drop_behind {block data rest : Bytes} {i : Nat} (h : block.drop i = data ++ rest) :
    block.drop (i + data.length) = rest := by
  rw [← List.drop_drop, h, List.drop_left]

theorem take_of_drop {block data : Bytes} {i : Nat} (h : block.drop i = data) (hne : data ≠ []) :
    block = block.take i ++ data ∧ (block.take i).length = i := by
  constructor
  · rw [← h, List.take_append_drop]
  · have hlen := congrArg List.length h
    have hpos := List.length_pos_iff.mpr hne
    rw [List.length_drop] at hlen
    rw [List.length_take]
    omega

theorem slice_drop {block data rest : Bytes} {i : Nat} (hi : i ≤ block.length)
    (h : block.drop i = data ++ rest) :
    slice block i data.length = .ok data := by
  have hlen := congrArg List.length h
  rw [List.length_drop, List.length_append] at hlen
  rw [slice_eq (by omega), h, List.take_left]

theorem store_eq {block : Bytes} {i : Nat} (h : i < block.length) (b : Byte) :
    store block i b = .ok (block.set i b) := by
  unfold store
  rw [if_pos ⟨by omega, by omega⟩]
  rfl

theorem store_eq_ok {block block' : Bytes} {i : Int} {b : Byte} (h : store block i b = .ok block') :
    0 ≤ i ∧ i < block.length ∧ block' = block.set i.toNat b := by
  unfold store at h
  split_ifs at h with hi
  exact ⟨hi.1, hi.2, (Except.ok.inj h).symm⟩

/-! ## Strings -/

/-- A string as its bytes, without the NUL that ends it. -/
structure CString where
  bytes : Bytes
  nulFree : 0 ∉ bytes
deriving DecidableEq

namespace CString

/-- The memory that holds the string. -/
def block (s : CString) : Bytes := s.bytes ++ [0]

theorem ext {s t : CString} (h : s.bytes = t.bytes) : s = t := by
  cases s
  cases t
  simp_all

end CString

/-- The string that starts at the front of a block. -/
def cstring (block : Bytes) : C Bytes :=
  if 0 ∈ block then return block.takeWhile (· != 0) else throw .bounds

theorem takeWhile_nul (u rest : Bytes) :
    (u ++ 0 :: rest).takeWhile (· != 0) = u.takeWhile (· != 0) := by
  induction u with
  | nil => rfl
  | cons b u ih => rw [List.cons_append, List.takeWhile_cons, List.takeWhile_cons, ih]

/-- A string ends at its first NUL. -/
theorem cstring_cut (u rest : Bytes) : cstring (u ++ 0 :: rest) = .ok (u.takeWhile (· != 0)) := by
  unfold cstring
  rw [if_pos (by simp), takeWhile_nul]
  rfl

theorem cstring_append {s : Bytes} (hs : 0 ∉ s) (rest : Bytes) :
    cstring (s ++ 0 :: rest) = .ok s := by
  have hall : ∀ b ∈ s, (b != 0) = true := by
    intro b hb
    simp only [bne_iff_ne, ne_eq]
    rintro rfl
    exact hs hb
  rw [cstring_cut, List.takeWhile_eq_self_iff.mpr hall]

def strlen (block : Bytes) : C Nat := return (← cstring block).length

def tolower (b : Byte) : Byte := if 65 ≤ b ∧ b ≤ 90 then b + 32 else b

/-- The difference of the first bytes that differ. -/
def compare_by (f : Byte → Byte) : Bytes → Bytes → Int
  | [], [] => 0
  | [], b :: _ => -((f b).toNat : Int)
  | a :: _, [] => ((f a).toNat : Int)
  | a :: s, b :: t => if f a = f b then compare_by f s t else ((f a).toNat : Int) - (f b).toNat

def strcmp : Bytes → Bytes → Int := compare_by id

def strcasecmp : Bytes → Bytes → Int := compare_by tolower

/-! ## Sizes -/

/-- Subtraction of two `size_t`. -/
def size_sub (a b : Nat) : Nat := if b ≤ a then a - b else a + 2 ^ 64 - b

/-- A `size_t` as a `ssize_t`. -/
def ssize (n : Nat) : Int := (n : Int).bmod (2 ^ 64)

@[simp] theorem size_sub_of_le {a b : Nat} (h : b ≤ a) : size_sub a b = a - b := if_pos h

theorem ssize_of_lt {n : Nat} (h : n < 2 ^ 63) : ssize n = n :=
  Int.bmod_eq_of_le (by omega) (by omega)

/-- An `int` keeps what fits into it. -/
theorem wrap_of_fits {n : Int} (h : -2 ^ 31 ≤ n) (h' : n < 2 ^ 31) : n.bmod (2 ^ 32) = n :=
  Int.bmod_eq_of_le (by omega) (by omega)

theorem wrap_range (n : Int) : -2 ^ 31 ≤ n.bmod (2 ^ 32) ∧ n.bmod (2 ^ 32) < 2 ^ 31 :=
  ⟨Int.le_bmod (by decide), Int.bmod_lt (by decide)⟩

end Lib
