import IcecastCommon.Httpp.Code
import IcecastCommon.Lib.Run

/-!
# Lines

How `split_headers` takes a request apart. The lines stand one after the other in the text, each
with a NUL behind it.
-/

namespace Httpp

open Lib

/-- The lines that end with LF, at most `n` of them, up to an LF in front of a CR or another LF. -/
def lf_lines : Nat → Bytes → List Bytes
  | 0, _ => []
  | n + 1, d =>
    if LF ∈ d then
      let rest := (d.dropWhile (· != LF)).tail
      d.takeWhile (· != LF) ::
        if rest.head? = some LF ∨ rest.head? = some CR then [] else lf_lines n rest
    else []

theorem lf_lines_of_not_mem {d : Bytes} (h : LF ∉ d) (n : Nat) : lf_lines n d = [] := by
  cases n with
  | zero => rfl
  | succ n => exact if_neg h

theorem first_append {l : Bytes} (h : LF ∉ l) (rest : Bytes) :
    (l ++ LF :: rest).takeWhile (· != LF) = l := by
  rw [List.takeWhile_append_of_pos (all_ne h)]
  simp

theorem first_of_not_mem {l : Bytes} (h : LF ∉ l) : l.takeWhile (· != LF) = l :=
  List.takeWhile_eq_self_iff.mpr (all_ne h)

theorem lf_lines_append {l : Bytes} (h : LF ∉ l) (n : Nat) (rest : Bytes) :
    lf_lines (n + 1) (l ++ LF :: rest) =
      l :: if rest.head? = some LF ∨ rest.head? = some CR then [] else lf_lines n rest := by
  have hrest : ((l ++ LF :: rest).dropWhile (· != LF)).tail = rest := by
    rw [List.dropWhile_append_of_pos (all_ne h)]
    simp
  rw [lf_lines, if_pos (by simp), first_append h, hrest]

theorem lf_lines_head (n : Nat) (d : Bytes) :
    lf_lines n d = [] ∨ lf_lines n d = d.takeWhile (· != LF) :: (lf_lines n d).tail := by
  cases n with
  | zero => exact .inl rfl
  | succ n =>
    by_cases h : LF ∈ d
    · rw [lf_lines, if_pos h]
      exact .inr rfl
    · exact .inl (if_neg h)

/-! ## The text in place -/

/-- A line whose CRs were overwritten. -/
def clear (l : Bytes) : Bytes := l.map fun c => if c = CR then 0 else c

@[simp] theorem clear_length (l : Bytes) : (clear l).length = l.length := List.length_map _

/-- The text in front of the first CR, LF or NUL. -/
def cut_line (l : Bytes) : CString where
  bytes := l.takeWhile fun c => c != CR && c != LF && c != 0
  nulFree h := absurd (List.mem_takeWhile_imp h) (by simp)

theorem clear_string {l : Bytes} (h : LF ∉ l) (rest : Bytes) :
    ∃ rest', clear l ++ 0 :: rest = (cut_line l).bytes ++ 0 :: rest' := by
  unfold cut_line clear
  induction l with
  | nil => exact ⟨rest, rfl⟩
  | cons c l ih =>
    rw [List.mem_cons, not_or] at h
    have hc : c ≠ LF := fun heq => h.1 heq.symm
    obtain ⟨rest', hrest⟩ := ih h.2
    by_cases hcut : c = CR ∨ c = 0
    · refine ⟨l.map (fun c => if c = CR then 0 else c) ++ 0 :: rest, ?_⟩
      rcases hcut with rfl | rfl
      · rfl
      · rfl
    · rw [not_or] at hcut
      refine ⟨rest', ?_⟩
      simp only at hrest ⊢
      rw [List.takeWhile_cons_of_pos (by simp [hcut.1, hcut.2, hc]), List.map_cons, if_neg hcut.1,
        List.cons_append, List.cons_append, hrest]

theorem cut_line_le (l : Bytes) : (cut_line l).bytes.length ≤ l.length :=
  (List.takeWhile_sublist _).length_le

/-- The strings `ts` stand behind each other, from `o` on, and `line[k]` and the following point to
them. -/
def Lined (data : Bytes) (line : Nat → Option Nat) : Nat → Nat → List CString → Prop
  | _, _, [] => True
  | k, o, t :: ts =>
    ∃ p rest, line k = some p ∧ o ≤ p ∧ data.drop p = t.bytes ++ 0 :: rest ∧
      Lined data line (k + 1) (p + t.bytes.length + 1) ts

theorem Lined.mono {data : Bytes} {line : Nat → Option Nat} {k o o' : Nat} {ts : List CString}
    (h : Lined data line k o ts) (ho : o' ≤ o) : Lined data line k o' ts := by
  cases ts with
  | nil => trivial
  | cons t ts =>
    obtain ⟨p, rest, hline, hp, hdata, hrest⟩ := h
    exact ⟨p, rest, hline, ho.trans hp, hdata, hrest⟩

/-! ## One byte -/

section Step

variable {len n k : Nat} {line : Nat → Option Nat} (A B : Bytes)

theorem split_loop_char (hk : k < MAX_HEADERS) {c : Byte} (hc : c ≠ LF) :
    split_loop len (n + 1) A.length (A ++ c :: B) line k =
      split_loop len n (A.length + 1) (A ++ (if c = CR then 0 else c) :: B) line k := by
  rw [split_loop, if_pos hk, read_middle, ok_bind]
  by_cases hcr : c = CR
  · have hzero : (0 : Byte) ≠ LF := by decide
    simp only [hcr, if_true, store_middle, ok_bind, read_middle, hzero, if_false]
  · simp only [hcr, if_false, pure_eq_ok, ok_bind, read_middle, hc]

theorem split_loop_LF (hk : k < MAX_HEADERS) :
    split_loop len (n + 1) A.length (A ++ LF :: B) line k =
      if k + 1 ≥ MAX_HEADERS then .ok (A ++ 0 :: B, line, MAX_HEADERS)
      else if A.length + 1 < len then do
        let next ← read (A ++ 0 :: B) (A.length + 1)
        if next = LF ∨ next = CR then return (A ++ 0 :: B, line, k + 1)
        split_loop len n (A.length + 1) (A ++ 0 :: B)
          (← set_line line (k + 1) (A.length + 1)) (k + 1)
      else split_loop len n (A.length + 1) (A ++ 0 :: B) line (k + 1) := by
  have hcr : LF ≠ CR := by decide
  rw [split_loop, if_pos hk]
  simp only [read_middle, ok_bind, hcr, if_false, pure_eq_ok, if_true, store_middle]

theorem read_behind (b c : Byte) : read (A ++ c :: b :: B) (A.length + 1) = .ok b := by
  have hsplit : A ++ c :: b :: B = (A ++ [c]) ++ b :: B := by simp
  have hlen : A.length + 1 = (A ++ [c]).length := by simp
  rw [hsplit, hlen]
  exact read_middle _ _ _

theorem split_loop_blank (hk : k + 1 < MAX_HEADERS) (hlen : A.length + 1 < len) {b : Byte}
    (hb : b = LF ∨ b = CR) :
    split_loop len (n + 1) A.length (A ++ LF :: b :: B) line k =
      .ok (A ++ 0 :: b :: B, line, k + 1) := by
  rw [split_loop_LF _ _ (by omega), if_neg (by omega), if_pos hlen, read_behind, ok_bind, if_pos hb]
  rfl

theorem split_loop_next (hk : k + 1 < MAX_HEADERS) (hlen : A.length + 1 < len) {b : Byte}
    (hb : ¬ (b = LF ∨ b = CR)) :
    split_loop len (n + 1) A.length (A ++ LF :: b :: B) line k =
      split_loop len n (A.length + 1) (A ++ 0 :: b :: B)
        (Function.update line (k + 1) (some (A.length + 1))) (k + 1) := by
  have hset :
      set_line line (k + 1) (A.length + 1) =
      .ok (Function.update line (k + 1) (some (A.length + 1))) := if_pos hk
  rw [split_loop_LF _ _ (by omega), if_neg (by omega), if_pos hlen, read_behind, ok_bind, if_neg hb,
    hset, ok_bind]

end Step

/-! ## The loop -/

/-- What the loop makes of the lines in `text`, where it has counted `k` lines before. -/
structure Splits (pre text : Bytes) (line : Nat → Option Nat) (k : Nat) (data' : Bytes)
    (line' : Nat → Option Nat) : Prop where
  first : ∃ rest, data' = pre ++ (clear (text.takeWhile (· != LF)) ++ 0 :: rest)
  same : ∀ j ≤ k, line' j = line j
  lined : Lined data' line' (k + 1) (pre.length + (text.takeWhile (· != LF)).length + 1)
    ((lf_lines (MAX_HEADERS - k) text).tail.map cut_line)

section Splits

variable {pre cur text : Bytes} {line : Nat → Option Nat} {k : Nat}

theorem splits_alone (hfirst : text.takeWhile (· != LF) = cur)
    (htail : (lf_lines (MAX_HEADERS - k) text).tail = []) (rest : Bytes) :
    Splits pre text line k (pre ++ (clear cur ++ 0 :: rest)) line := by
  refine ⟨⟨rest, ?_⟩, fun _ _ => rfl, ?_⟩
  · rw [hfirst]
  · rw [htail]
    trivial

theorem Splits.cons {data' : Bytes} {line' : Nat → Option Nat} (hcur : LF ∉ cur)
    (hk : k + 1 < MAX_HEADERS) (hhead : ¬ (text.head? = some LF ∨ text.head? = some CR))
    (h : Splits (pre ++ clear cur ++ [0]) text
      (Function.update line (k + 1) (some ((pre ++ clear cur).length + 1)))
      (k + 1) data' line') : Splits pre (cur ++ LF :: text) line k data' line' := by
  obtain ⟨⟨rest, hfirst⟩, hsame, hlined⟩ := h
  obtain ⟨m, hm⟩ : ∃ m, MAX_HEADERS - k = m + 1 := ⟨MAX_HEADERS - k - 1, by omega⟩
  have hmax : MAX_HEADERS - (k + 1) = m := by omega
  have hpre : (pre ++ clear cur ++ [0]).length = (pre ++ clear cur).length + 1 := by
    simp [Nat.add_assoc]
  have hstart : pre.length + cur.length = (pre ++ clear cur).length := by simp
  refine ⟨⟨clear (text.takeWhile (· != LF)) ++ 0 :: rest, ?_⟩, fun j hj => ?_, ?_⟩
  · rw [hfirst, first_append hcur]
    simp
  · rw [hsame j (by omega)]
    exact Function.update_of_ne (by omega) _ _
  · rw [hm, lf_lines_append hcur, first_append hcur, List.tail_cons, if_neg hhead, hstart]
    rw [hmax, hpre] at hlined
    rcases lf_lines_head m text with hnil | hcons
    · rw [hnil]
      trivial
    · have hclean : LF ∉ text.takeWhile (· != LF) :=
        fun hmem => absurd (List.mem_takeWhile_imp hmem) (by simp)
      obtain ⟨rest', hstring⟩ := clear_string hclean rest
      have hle := cut_line_le (text.takeWhile (· != LF))
      rw [hcons]
      refine ⟨(pre ++ clear cur).length + 1, rest', ?_, Nat.le_refl _, ?_,
        hlined.mono (Nat.succ_le_succ (Nat.add_le_add_left hle _))⟩
      · rw [hsame (k + 1) (Nat.le_refl _)]
        exact Function.update_self ..
      · rw [hfirst, ← hpre, List.drop_left, hstring]

end Splits

/-- Behind `pre` stands the part `cur` of a line, then the text to go. The loop cuts it
into lines. -/
def Cuts (todo pre cur : Bytes) (line : Nat → Option Nat) (k : Nat) : Prop :=
  ∃ data' line', split_loop (pre.length + cur.length + todo.length) todo.length
      (pre.length + cur.length) (pre ++ (clear cur ++ (todo ++ [0]))) line k =
        .ok (data', line', k + (lf_lines (MAX_HEADERS - k) (cur ++ todo)).length) ∧
    Splits pre (cur ++ todo) line k data' line'

section Cuts

variable {pre cur todo : Bytes} {line : Nat → Option Nat} {k : Nat}

theorem cuts_nil (hcur : LF ∉ cur) : Cuts [] pre cur line k := by
  have hnone := lf_lines_of_not_mem hcur (MAX_HEADERS - k)
  unfold Cuts
  rw [List.append_nil, hnone]
  exact ⟨_, line, rfl, splits_alone (first_of_not_mem hcur) (by rw [hnone]; rfl) []⟩

theorem cuts_char {c : Byte} (hk : k < MAX_HEADERS) (hc : c ≠ LF)
    (h : Cuts todo pre (cur ++ [c]) line k) :
    Cuts (c :: todo) pre cur line k := by
  have hlen :
      pre.length + (cur ++ [c]).length + todo.length =
      pre.length + cur.length + (c :: todo).length := by
    simp
    omega
  have hnext : pre.length + (cur ++ [c]).length = (pre ++ clear cur).length + 1 := by
    simp [Nat.add_assoc]
  have hdata :
    pre ++ (clear cur ++ (c :: todo ++ [0])) = (pre ++ clear cur) ++ c :: (todo ++ [0]) := by simp
  have htext : pre ++ (clear (cur ++ [c]) ++ (todo ++ [0])) =
      (pre ++ clear cur) ++ (if c = CR then 0 else c) :: (todo ++ [0]) := by simp [clear]
  have hi : pre.length + cur.length = (pre ++ clear cur).length := by simp
  unfold Cuts at h ⊢
  rw [hlen, hnext, htext, List.append_assoc cur [c] todo, List.singleton_append] at h
  rw [hdata, List.length_cons]
  rw [hi, List.length_cons] at h
  rw [hi, split_loop_char _ _ hk hc]
  exact h

theorem splits_last {m : Nat} (hcur : LF ∉ cur) (hm : MAX_HEADERS - k = m + 1)
    (hnone : (if todo.head? = some LF ∨ todo.head? = some CR then [] else lf_lines m todo) = []) :
    lf_lines (MAX_HEADERS - k) (cur ++ LF :: todo) = [cur] ∧
      Splits pre (cur ++ LF :: todo) line k (pre ++ clear cur ++ 0 :: (todo ++ [0])) line := by
  have hlines := lf_lines_append hcur m todo
  rw [← hm, hnone] at hlines
  refine ⟨hlines, ?_⟩
  rw [List.append_assoc pre]
  exact splits_alone (first_append hcur todo) (by rw [hlines]; rfl) (todo ++ [0])

theorem cuts_next {b : Byte} (hk : k + 1 < MAX_HEADERS) (hcur : LF ∉ cur) (hb : ¬ (b = LF ∨ b = CR))
    (h : Cuts (b :: todo) (pre ++ clear cur ++ [0]) []
      (Function.update line (k + 1) (some ((pre ++ clear cur).length + 1))) (k + 1)) :
    Cuts (LF :: b :: todo) pre cur line k := by
  obtain ⟨m, hm⟩ : ∃ m, MAX_HEADERS - k = m + 1 := ⟨MAX_HEADERS - k - 1, by omega⟩
  have hmax : MAX_HEADERS - (k + 1) = m := by omega
  have hhead : ¬ ((b :: todo).head? = some LF ∨ (b :: todo).head? = some CR) := by simpa using hb
  have hpre : (pre ++ clear cur ++ [0]).length = (pre ++ clear cur).length + 1 := by
    simp [Nat.add_assoc]
  have hlen :
      (pre ++ clear cur).length + 1 + (b :: todo).length =
      (pre ++ clear cur).length + ((b :: todo).length + 1) := by
    omega
  have htext : pre ++ clear cur ++ [0] ++ (clear [] ++ (b :: todo ++ [0])) =
      pre ++ clear cur ++ 0 :: (b :: (todo ++ [0])) := by simp [clear]
  have hdata :
      pre ++ (clear cur ++ (LF :: b :: todo ++ [0])) = (pre ++ clear cur) ++
      LF :: (b :: (todo ++ [0])) := by simp
  have hi : pre.length + cur.length = (pre ++ clear cur).length := by simp
  have hless :
    (pre ++ clear cur).length + 1 < (pre ++ clear cur).length + ((b :: todo).length + 1) := by simp
  have hlines := lf_lines_append hcur m (b :: todo)
  rw [← hm, if_neg hhead] at hlines
  obtain ⟨data', line', hrun, hsplits⟩ := h
  rw [htext, hpre, List.length_nil, Nat.add_zero, hlen, List.nil_append, hmax] at hrun
  refine ⟨data', line', ?_, hsplits.cons hcur hk hhead⟩
  rw [hdata, hi, List.length_cons, split_loop_next _ _ (by omega) hless hb, hrun, hlines,
    List.length_cons, Nat.add_assoc, Nat.add_comm 1]

theorem cuts_LF (hk : k < MAX_HEADERS) (hcur : LF ∉ cur)
    (h : ∀ line, k + 1 < MAX_HEADERS → Cuts todo (pre ++ clear cur ++ [0]) [] line (k + 1)) :
    Cuts (LF :: todo) pre cur line k := by
  have hdata :
      pre ++ (clear cur ++ (LF :: todo ++ [0])) = (pre ++ clear cur) ++ LF :: (todo ++ [0]) := by
    simp
  have hi : pre.length + cur.length = (pre ++ clear cur).length := by simp
  obtain ⟨m, hm⟩ : ∃ m, MAX_HEADERS - k = m + 1 := ⟨MAX_HEADERS - k - 1, by omega⟩
  by_cases hlast : k + 1 ≥ MAX_HEADERS
  · -- This was the last line that there is room for.
    obtain rfl : m = 0 := by omega
    obtain ⟨hone, hsplits⟩ := @splits_last pre cur todo line k 0 hcur hm (by split_ifs <;> rfl)
    refine ⟨_, line, ?_, hsplits⟩
    rw [hdata, hi, List.length_cons, split_loop_LF _ _ hk, if_pos hlast, hone,
      List.length_singleton]
    congr 3
    omega
  cases todo with
  | nil =>
    obtain ⟨hone, hsplits⟩ :=
      @splits_last pre cur [] line k m hcur hm (lf_lines_of_not_mem List.not_mem_nil m)
    refine ⟨_, line, ?_, hsplits⟩
    rw [hdata, hi, List.length_cons, split_loop_LF _ _ hk, if_neg hlast, if_neg (by simp), hone]
    rfl
  | cons b todo =>
    by_cases hblank : b = LF ∨ b = CR
    · obtain ⟨hone, hsplits⟩ := @splits_last pre cur (b :: todo) line k m hcur hm
        (if_pos (by simpa using hblank))
      have hless :
          (pre ++ clear cur).length + 1 < (pre ++ clear cur).length + ((b :: todo).length + 1) := by
        simp
      refine ⟨_, line, ?_, hsplits⟩
      rw [hdata, hi, List.length_cons, List.cons_append,
        split_loop_blank _ _ (by omega) hless hblank, hone]
      rfl
    · exact cuts_next (by omega) hcur hblank (h _ (by omega))

end Cuts

theorem split_loop_spec (todo pre cur : Bytes) (line : Nat → Option Nat) (k : Nat)
    (hk : k < MAX_HEADERS) (hcur : LF ∉ cur) : Cuts todo pre cur line k := by
  induction todo generalizing pre cur line k with
  | nil => exact cuts_nil hcur
  | cons c todo ih =>
    by_cases hc : c = LF
    · rw [hc]
      exact cuts_LF hk hcur fun line hnext => ih _ _ line (k + 1) hnext List.not_mem_nil
    · have hcur' : LF ∉ cur ++ [c] := by
        rw [List.mem_append, List.mem_singleton, not_or]
        exact ⟨hcur, fun heq => hc heq.symm⟩
      exact cuts_char hk hc (ih _ _ line k hk hcur')

/-! ## All lines -/

/-- The first line. -/
def first_line (d : Bytes) : CString := cut_line d

/-- The lines behind it that may be headers. -/
def header_lines (d : Bytes) : List CString := (lf_lines MAX_HEADERS d).tail.map cut_line

theorem cut_first (d : Bytes) : cut_line (d.takeWhile (· != LF)) = first_line d := by
  apply CString.ext
  show (d.takeWhile (· != LF)).takeWhile _ = d.takeWhile _
  rw [List.takeWhile_takeWhile]
  congr 1
  funext c
  rw [Bool.eq_iff_iff]
  simp only [Bool.decide_and, Bool.decide_eq_true, Bool.and_eq_true]
  tauto

section Clean

variable {t : CString} (h : CR ∉ t.bytes ∧ LF ∉ t.bytes)
include h

theorem clean_pos : ∀ b ∈ t.bytes, (b != CR && b != LF && b != 0) = true := by
  intro b hb
  have hne (c : Byte) (hc : c ∉ t.bytes) : b ≠ c := by
    rintro rfl
    exact hc hb
  simp [hne CR h.1, hne LF h.2, hne 0 t.nulFree]

theorem cut_clean : cut_line t.bytes = t :=
  CString.ext (List.takeWhile_eq_self_iff.mpr (clean_pos h))

theorem first_line_clean (rest : Bytes) : first_line (t.bytes ++ LF :: rest) = t := by
  apply CString.ext
  show (t.bytes ++ LF :: rest).takeWhile _ = t.bytes
  rw [List.takeWhile_append_of_pos (clean_pos h), List.takeWhile_cons_of_neg (by decide),
    List.append_nil]

end Clean

/-- **Lines.** The text starts with the first line, and the header lines stand behind it. -/
theorem split_headers_spec (d : Bytes) :
    ∃ data line rest, split_headers (d ++ [0]) d.length =
      .ok (data, line, (lf_lines MAX_HEADERS d).length) ∧
      data = (first_line d).bytes ++ 0 :: rest ∧ line 0 = some 0 ∧
      Lined data line 1 ((first_line d).bytes.length + 1) (header_lines d) := by
  have hset : set_line (fun _ => none) 0 0 = .ok (Function.update (fun _ => none) 0 (some 0)) := rfl
  obtain ⟨data, line, hrun, ⟨rest, hfirst⟩, hsame, hlined⟩ :=
    split_loop_spec d [] [] (Function.update (fun _ => none) 0 (some 0)) 0
      (by decide) List.not_mem_nil
  have hclean : LF ∉ d.takeWhile (· != LF) := fun h => absurd (List.mem_takeWhile_imp h) (by simp)
  obtain ⟨rest', hstring⟩ := clear_string hclean rest
  have hle := cut_line_le (d.takeWhile (· != LF))
  rw [cut_first] at hstring hle
  simp only [List.nil_append, List.length_nil, Nat.zero_add, clear, List.map_nil]
    at hrun hfirst hlined
  refine ⟨data, line, rest', ?_, ?_, ?_, ?_⟩
  · unfold split_headers
    rw [hset, ok_bind]
    exact hrun
  · rw [hfirst]
    exact hstring
  · rw [hsame 0 (Nat.le_refl 0)]
    exact Function.update_self ..
  · exact hlined.mono (Nat.succ_le_succ hle)

/-! ## The pointers that are set -/

theorem lf_lines_length_le (n : Nat) (d : Bytes) : (lf_lines n d).length ≤ n := by
  induction n generalizing d with
  | zero => simp [lf_lines]
  | succ n ih =>
    rw [lf_lines]
    by_cases h : LF ∈ d
    · rw [if_pos h, List.length_cons]
      refine Nat.succ_le_succ ?_
      by_cases hblank : ((d.dropWhile (· != LF)).tail).head? = some LF ∨
        ((d.dropWhile (· != LF)).tail).head? = some CR
      · rw [if_pos hblank]
        exact Nat.zero_le n
      · rw [if_neg hblank]
        exact ih _
    · rw [if_neg h]
      exact Nat.zero_le _

/-- No byte is added to the text, and no pointer is set behind the array. -/
structure Fits (size : Nat) (data : Bytes) (line : Nat → Option Nat) : Prop where
  length : data.length = size
  unset : ∀ k, MAX_HEADERS ≤ k → line k = none

theorem Fits.store {size : Nat} {data : Bytes} {line : Nat → Option Nat} (h : Fits size data line)
    (i : Int) (b : Byte) :
    Yields (store data i b) fun data' => Fits size data' line := by
  intro data' hstore
  obtain ⟨-, -, rfl⟩ := store_eq_ok hstore
  exact ⟨by rw [List.length_set, h.length], h.unset⟩

theorem Fits.set_line {size : Nat} {data : Bytes} {line : Nat → Option Nat}
    (h : Fits size data line) (k p : Nat) :
    Yields (set_line line k p) (Fits size data) := by
  refine yields_ite (fun hk => yields_ok ⟨h.length, fun j hj => ?_⟩) (fun _ => yields_error _)
  rw [Function.update_of_ne (by omega)]
  exact h.unset j hj

theorem split_loop_fits (len n : Nat) :
    ∀ {size : Nat} (i : Nat) {data : Bytes} {line : Nat → Option Nat} (k : Nat),
    Fits size data line → Yields (split_loop len n i data line k) fun r => Fits size r.1 r.2.1 := by
  induction n with
  | zero => exact fun _ _ _ _ h => yields_ok h
  | succ n ih =>
    intro size i data line k h
    rw [split_loop]
    refine yields_ite (fun _ => yields_bind fun c _ => ?_) (fun _ => yields_ok h)
    refine yields_join (P := fun data => Fits size data line) (fun _ => h.store _ _) (fun _ =>
      yields_ok h) fun data h => ?_
    refine yields_bind fun c _ => yields_ite (fun _ => ?_) (fun _ => ih _ _ h)
    refine Yields.bind (h.store _ _) fun data h => ?_
    refine yields_ite (fun _ => yields_ok h) (fun _ => ?_)
    refine yields_ite (fun _ => ?_) (fun _ => ih _ _ h)
    refine yields_bind fun next _ => yields_ite (fun _ => yields_ok h) (fun _ => ?_)
    exact Yields.bind (h.set_line _ _) fun line h => ih _ _ h

theorem cut_line_clean (l : Bytes) {b : Byte} (hb : b ∈ (cut_line l).bytes) :
    b ≠ CR ∧ b ≠ LF ∧ b ≠ 0 := by
  simpa [and_assoc] using List.mem_takeWhile_imp hb

/-- `line[k]` points into the text, to a line without CR and LF that a NUL ends. -/
def LineAt (data : Bytes) (len : Nat) (p : Option Nat) : Prop :=
  ∃ start stop, p = some start ∧ start ≤ stop ∧ stop ≤ len ∧ data[stop]? = some 0 ∧
    ∀ i, start ≤ i → i < stop → ∃ c, data[i]? = some c ∧ c ≠ CR ∧ c ≠ LF ∧ c ≠ 0

theorem lineAt_of_drop {data rest l : Bytes} {len p : Nat} (hlen : data.length = len + 1)
    (h : data.drop p = (cut_line l).bytes ++ 0 :: rest) : LineAt data len (some p) := by
  have hget (i : Nat) : data[p + i]? = ((cut_line l).bytes ++ 0 :: rest)[i]? := by
    rw [← h, List.getElem?_drop]
  have htotal := congrArg List.length h
  rw [List.length_drop, List.length_append, List.length_cons] at htotal
  refine ⟨p, p + (cut_line l).bytes.length, rfl, by omega, by omega, ?_, fun i hlo hhi => ?_⟩
  · rw [hget, List.getElem?_append_right (by omega), Nat.sub_self]
    rfl
  · obtain ⟨j, rfl⟩ := Nat.exists_eq_add_of_le hlo
    have hj : j < (cut_line l).bytes.length := by omega
    refine ⟨(cut_line l).bytes[j], ?_, cut_line_clean l (List.getElem_mem hj)⟩
    rw [hget, List.getElem?_append_left hj, List.getElem?_eq_getElem hj]

theorem Lined.lineAt {data : Bytes} {line : Nat → Option Nat} {len : Nat}
    (hlen : data.length = len + 1) {ls : List Bytes} :
    ∀ {k o : Nat}, Lined data line k o (ls.map cut_line) →
      ∀ j < ls.length, LineAt data len (line (k + j)) := by
  induction ls with
  | nil => intro _ _ _ j hj; exact absurd hj (by simp)
  | cons l ls ih =>
    rintro k o ⟨p, rest, hline, -, hdata, hrest⟩ j hj
    cases j with
    | zero =>
      rw [Nat.add_zero, hline]
      exact lineAt_of_drop hlen hdata
    | succ j =>
      rw [List.length_cons] at hj
      have := ih hrest j (by omega)
      rwa [Nat.add_right_comm, Nat.add_assoc] at this

/-- **Valid lines.** Every pointer that is counted was set, to a line inside the text, and no other
store is made to `line`. -/
theorem split_headers_lines (d : Bytes) :
    ∃ data line lines, split_headers (d ++ [0]) d.length = .ok (data, line, lines) ∧
      lines ≤ MAX_HEADERS ∧
      (∀ k, MAX_HEADERS ≤ k → line k = none) ∧ ∀ l, l = 0 ∨ 0 < l ∧ l < lines →
      LineAt data d.length (line l) := by
  obtain ⟨data, line, rest, hrun, hfirst, hzero, hlined⟩ := split_headers_spec d
  have hset : Fits (d.length + 1) (d ++ [0]) (Function.update (fun _ => none) 0 (some 0)) := by
    refine ⟨by simp, fun k hk => Function.update_of_ne (fun h => ?_) _ _⟩
    rw [h] at hk
    exact absurd hk (by decide)
  have hfits : Fits (d.length + 1) data line := split_loop_fits d.length d.length 0 0 hset _ hrun
  refine ⟨data, line, _, hrun, lf_lines_length_le _ _, hfits.unset, ?_⟩
  rintro l (rfl | ⟨hpos, hl⟩)
  · rw [hzero]
    exact lineAt_of_drop hfits.length (by rw [List.drop_zero, hfirst, first_line])
  · obtain ⟨l, rfl⟩ := Nat.exists_eq_add_of_lt hpos
    rw [Nat.zero_add, Nat.add_comm l 1]
    refine hlined.lineAt hfits.length l ?_
    rw [List.length_tail]
    omega

end Httpp
