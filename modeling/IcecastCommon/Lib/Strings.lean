import IcecastCommon.Lib.Bytes
import IcecastCommon.Lib.Order
import Mathlib.Data.List.TakeWhile

/-!
# Strings in memory

Strings behind pointers, loops that overwrite a string in place, and the order of `strcmp`. A
pointer into a block is its offset there.
-/

namespace Lib

/-- A `size_t` as an `int`. -/
def int_of_size (n : Nat) : Int := (n : Int).bmod (2 ^ 32)

theorem int_of_size_of_lt {n : Nat} (h : n < 2 ^ 31) : int_of_size n = n :=
  wrap_of_fits (by omega) (by omega)

theorem int_of_size_mod (n : Nat) :
    int_of_size n = if n % 2 ^ 32 < 2 ^ 31 then ((n % 2 ^ 32 : Nat) : Int)
      else (n % 2 ^ 32 : Nat) - 2 ^ 32 := by
  unfold int_of_size
  rw [Int.bmod_def]
  split_ifs <;> omega

theorem int_of_size_le (n : Nat) : int_of_size n ≤ n := by
  rw [int_of_size_mod]
  split_ifs
  · omega
  · omega

/-! ## Runs of one byte -/

theorem head_dropWhile {p : Byte → Bool} {l B : Bytes} {c : Byte} (h : l.dropWhile p = c :: B) :
    p c = false := by
  have hhead := List.head?_dropWhile_not p l
  rw [h] at hhead
  exact hhead

theorem all_ne {l : Bytes} {c : Byte} (h : c ∉ l) : ∀ b ∈ l, (b != c) = true := by
  intro b hb
  rw [bne_iff_ne]
  rintro rfl
  exact h hb

/-- There is one text in front of the first `c`. -/
theorem first_unique {u v u' v' : Bytes} {c : Byte} (hu : c ∉ u) (hu' : c ∉ u')
    (h : u ++ c :: v = u' ++ c :: v') :
    u = u' ∧ v = v' := by
  have hfront {u : Bytes} (hu : c ∉ u) (v : Bytes) : (u ++ c :: v).takeWhile (· != c) = u := by
    rw [List.takeWhile_append_of_pos (all_ne hu), List.takeWhile_cons_of_neg (by simp),
      List.append_nil]
  obtain rfl : u = u' := by rw [← hfront hu v, h, hfront hu' v']
  exact ⟨rfl, (List.cons.inj (List.append_cancel_left h)).2⟩

theorem dropWhile_nil_iff {l : Bytes} {c : Byte} : l.dropWhile (· != c) = [] ↔ c ∉ l := by
  rw [List.dropWhile_eq_nil_iff]
  constructor
  · intro h hmem
    exact absurd (h c hmem) (by simp)
  · exact all_ne

theorem front_run (c : Byte) (l : Bytes) :
    l = List.replicate (l.takeWhile (· == c)).length c ++ l.dropWhile (· == c) := by
  have hrun : l.takeWhile (· == c) = List.replicate (l.takeWhile (· == c)).length c :=
    List.eq_replicate_of_mem fun b hb => by simpa using List.mem_takeWhile_imp hb
  rw [← hrun, List.takeWhile_append_dropWhile]

/-- The text in front of the first `c`, that `c` with the same bytes right behind it,
and the rest. -/
theorem run_split (c : Byte) (l : Bytes) :
    ∃ n, l = l.takeWhile (· != c) ++
      (List.replicate n c ++ (l.dropWhile (· != c)).dropWhile (· == c)) ∧
      (c ∈ l ↔ 0 < n) := by
  refine ⟨((l.dropWhile (· != c)).takeWhile (· == c)).length, ?_, ?_⟩
  · rw [← front_run, List.takeWhile_append_dropWhile]
  · match hr : l.dropWhile (· != c) with
    | [] => simp [dropWhile_nil_iff.mp hr]
    | b :: B =>
      have hmem : c ∈ l := by
        by_contra hmem
        rw [dropWhile_nil_iff.mpr hmem] at hr
        cases hr
      have hb : b = c := by simpa using head_dropWhile hr
      rw [List.takeWhile_cons_of_pos (by simp [hb])]
      simp [hmem]

/-! ## Strings behind pointers -/

/-- The bytes before the first NUL. -/
def CString.cut (u : Bytes) : CString where
  bytes := u.takeWhile (· != 0)
  nulFree h := absurd (List.mem_takeWhile_imp h) (by simp)

theorem CString.bytes_cut {u : Bytes} (h : 0 ∉ u) : (CString.cut u).bytes = u :=
  List.takeWhile_eq_self_iff.mpr (all_ne h)

/-- The string at `p`. -/
def string_at (block : Bytes) (p : Nat) : C CString :=
  if 0 ∈ block.drop p then return CString.cut (block.drop p) else throw .bounds

/-- `strlen` stored in an `int`. -/
def int_strlen (block : Bytes) (p : Nat) : C Int :=
  return int_of_size (← string_at block p).bytes.length

/-- The first `c` in the string at `p`. -/
def strchr (block : Bytes) (p : Nat) (c : Byte) : C (Option Nat) := do
  let s ← string_at block p
  return if c ∈ s.bytes then some (p + s.bytes.idxOf c) else none

theorem CString.cut_append (s : CString) (rest : Bytes) :
    CString.cut (s.bytes ++ 0 :: rest) = s := by
  apply CString.ext
  show (s.bytes ++ 0 :: rest).takeWhile (· != 0) = s.bytes
  rw [List.takeWhile_append_of_pos (all_ne s.nulFree)]
  simp

theorem string_at_eq {block rest : Bytes} {p : Nat} (s : CString)
    (h : block.drop p = s.bytes ++ 0 :: rest) :
    string_at block p = .ok s := by
  unfold string_at
  rw [h, if_pos (by simp), s.cut_append]
  rfl

theorem CString.cut_nul (u : Bytes) : CString.cut (u ++ [0]) = CString.cut u :=
  CString.ext (takeWhile_nul u [])

theorem int_strlen_eq {block : Bytes} {p : Nat} {s : CString} (h : string_at block p = .ok s) :
    int_strlen block p = .ok (int_of_size s.bytes.length) := by
  unfold int_strlen
  rw [h]
  rfl

theorem string_at_nul (u rest : Bytes) : string_at (u ++ 0 :: rest) 0 = .ok (CString.cut u) := by
  unfold string_at
  rw [List.drop_zero, if_pos (by simp)]
  exact congrArg Except.ok (CString.ext (takeWhile_nul u rest))

theorem string_at_cut (u : Bytes) : string_at (u ++ [0]) 0 = .ok (CString.cut u) :=
  string_at_nul u []

theorem CString.cut_bytes (s : CString) : CString.cut s.bytes = s := by
  rw [← CString.cut_nul]
  exact s.cut_append []

/-! What stands behind `pre`, where it is overwritten in place. -/

theorem read_middle (pre rest : Bytes) (c : Byte) : read (pre ++ c :: rest) pre.length = .ok c :=
  read_drop List.drop_left

theorem store_middle (pre rest : Bytes) (b c : Byte) :
    store (pre ++ c :: rest) pre.length b = .ok (pre ++ b :: rest) := by
  rw [store_eq (by simp)]
  simp

theorem read_within (pre A B : Bytes) (c : Byte) :
    read (pre ++ (A ++ c :: B)) (pre.length + A.length) = .ok c := by
  rw [← List.append_assoc, ← List.length_append]
  exact read_middle _ _ _

theorem store_within (pre A B : Bytes) (b c : Byte) :
    store (pre ++ (A ++ c :: B)) (pre.length + A.length : Nat) b = .ok (pre ++ (A ++ b :: B)) := by
  rw [← List.append_assoc, ← List.length_append, store_middle, List.append_assoc]

/-! ## Strings in two parts -/

/-- The text in front of the first `c`. -/
def CString.before (s : CString) (c : Byte) : CString where
  bytes := s.bytes.takeWhile (· != c)
  nulFree h := s.nulFree ((List.takeWhile_sublist _).mem h)

/-- The text from the first `c` on. -/
def CString.onward (s : CString) (c : Byte) : CString where
  bytes := s.bytes.dropWhile (· != c)
  nulFree h := s.nulFree ((List.dropWhile_sublist _).mem h)

/-- The text behind the first `c`. -/
def CString.behind (s : CString) (c : Byte) : CString where
  bytes := (s.onward c).bytes.tail
  nulFree h := (s.onward c).nulFree (List.mem_of_mem_tail h)

theorem CString.onward_eq {s : CString} {c : Byte} (h : c ∈ s.bytes) :
    (s.onward c).bytes = c :: (s.behind c).bytes := by
  have hne : s.bytes.dropWhile (· != c) ≠ [] := fun hnil => dropWhile_nil_iff.mp hnil h
  obtain ⟨b, B, hB⟩ := List.exists_cons_of_ne_nil hne
  have hb : b = c := by simpa using head_dropWhile hB
  unfold behind onward
  simp only [hB, hb, List.tail_cons]

theorem CString.before_append (s : CString) (c : Byte) :
    (s.before c).bytes ++ (s.onward c).bytes = s.bytes :=
  List.takeWhile_append_dropWhile

theorem CString.before_length {s : CString} {c : Byte} (h : c ∈ s.bytes) :
    (s.before c).bytes.length < s.bytes.length := by
  have hlen := congrArg List.length (s.before_append c)
  rw [List.length_append, CString.onward_eq h, List.length_cons] at hlen
  omega

theorem CString.before_of_not_mem {s : CString} {c : Byte} (h : c ∉ s.bytes) : s.before c = s :=
  CString.ext (List.takeWhile_eq_self_iff.mpr (all_ne h))

theorem CString.behind_of_not_mem {s : CString} {c : Byte} (h : c ∉ s.bytes) :
    (s.behind c).bytes = [] := by
  unfold behind onward
  simp only [dropWhile_nil_iff.mpr h, List.tail_nil]

theorem CString.parts_of_append {s P V : CString} {c : Byte} (h : s.bytes = P.bytes ++ c :: V.bytes)
    (hc : c ∉ P.bytes) :
    s.before c = P ∧ s.behind c = V := by
  constructor
  · apply CString.ext
    show s.bytes.takeWhile (· != c) = P.bytes
    rw [h, List.takeWhile_append_of_pos (all_ne hc), List.takeWhile_cons_of_neg (by simp),
      List.append_nil]
  · apply CString.ext
    show (s.bytes.dropWhile (· != c)).tail = V.bytes
    rw [h, List.dropWhile_append_of_pos (all_ne hc), List.dropWhile_cons_of_neg (by simp),
      List.tail_cons]

theorem idxOf_eq (c : Byte) (l : Bytes) : l.idxOf c = (l.takeWhile (· != c)).length := by
  induction l with
  | nil => rfl
  | cons b l ih =>
    rw [List.idxOf_cons, List.takeWhile_cons]
    by_cases hb : b = c
    · simp [hb]
    · have hbeq : (b == c) = false := by simpa using hb
      simp [hb, hbeq, ih]

theorem strchr_eq {block rest : Bytes} {p : Nat} {s : CString}
    (h : block.drop p = s.bytes ++ 0 :: rest) (c : Byte) :
    strchr block p c = .ok (if c ∈ s.bytes then some (p + (s.before c).bytes.length)
      else none) := by
  unfold strchr
  rw [string_at_eq s h, ok_bind, idxOf_eq]
  rfl

/-- A NUL instead of the first `c` makes two strings of one. -/
theorem store_nul {block rest : Bytes} {p : Nat} {s : CString} {c : Byte}
    (h : block.drop p = s.bytes ++ 0 :: rest) (hc : c ∈ s.bytes) :
    ∃ block', store block (p + (s.before c).bytes.length : Nat) 0 = .ok block' ∧
      block'.drop p = (s.before c).bytes ++ 0 :: ((s.behind c).bytes ++ 0 :: rest) ∧
      block'.drop (p + (s.before c).bytes.length + 1) = (s.behind c).bytes ++ 0 :: rest ∧
      ∀ q, p + s.bytes.length ≤ q → block'.drop q = block.drop q := by
  have htext :
      s.bytes ++ 0 :: rest = (s.before c).bytes ++ c :: ((s.behind c).bytes ++ 0 :: rest) := by
    rw [← s.before_append c, CString.onward_eq hc]
    simp
  obtain ⟨hblock, hp⟩ := take_of_drop (h.trans htext) (by simp)
  have hdrop :
    (block.take p ++ ((s.before c).bytes ++ 0 :: ((s.behind c).bytes ++ 0 :: rest))).drop p =
      (s.before c).bytes ++ 0 :: ((s.behind c).bytes ++ 0 :: rest) := List.drop_left' hp
  refine ⟨_, ?_, hdrop, ?_, ?_⟩
  · have hstore :=
      store_within (block.take p) (s.before c).bytes ((s.behind c).bytes ++ 0 :: rest) 0 c
    rw [hp, ← hblock] at hstore
    exact hstore
  · exact drop_next (drop_behind hdrop)
  · intro q hq
    have hlt := CString.before_length hc
    have hsame := drop_next (drop_behind hdrop)
    have hold := drop_next (drop_behind (h.trans htext))
    obtain ⟨d, rfl⟩ : ∃ d, q = p + (s.before c).bytes.length + 1 + d :=
      ⟨q - (p + (s.before c).bytes.length + 1), by omega⟩
    rw [← List.drop_drop, hsame, ← List.drop_drop, hold]

/-! ## The order of `strcmp` -/

theorem nulFree_cons {b : Byte} {s : Bytes} (h : 0 ∉ b :: s) : 0 < b.toNat ∧ 0 ∉ s := by
  rw [List.mem_cons, not_or] at h
  refine ⟨?_, h.2⟩
  rw [Nat.pos_iff_ne_zero]
  intro hb
  exact h.1 (UInt8.toNat_inj.mp hb.symm)

theorem strcmp_cons (a b : Byte) (s t : Bytes) :
    strcmp (a :: s) (b :: t) = if a = b then strcmp s t else (a.toNat : Int) - b.toNat := rfl

theorem toNat_ne {a b : Byte} (h : a ≠ b) : a.toNat ≠ b.toNat := fun hn => h (UInt8.toNat_inj.mp hn)

theorem strcmp_eq_zero {s t : Bytes} (hs : 0 ∉ s) (ht : 0 ∉ t) : strcmp s t = 0 ↔ s = t := by
  induction s generalizing t with
  | nil =>
    cases t with
    | nil => simp [strcmp, compare_by]
    | cons b t =>
      have := (nulFree_cons ht).1
      simp [strcmp, compare_by]
      omega
  | cons a s ih =>
    have ha := nulFree_cons hs
    cases t with
    | nil =>
      simp [strcmp, compare_by]
      omega
    | cons b t =>
      rw [strcmp_cons]
      split_ifs with hab
      · rw [ih ha.2 (nulFree_cons ht).2, hab, List.cons_inj_right]
      · have := toNat_ne hab
        simp only [List.cons.injEq, hab, false_and, iff_false]
        omega

theorem strcmp_flip (s t : Bytes) : strcmp t s = -strcmp s t := by
  induction s generalizing t with
  | nil =>
    cases t with
    | nil => rfl
    | cons b t => simp [strcmp, compare_by]
  | cons a s ih =>
    cases t with
    | nil => simp [strcmp, compare_by]
    | cons b t =>
      rw [strcmp_cons, strcmp_cons]
      split_ifs with hba hab
      · exact ih t
      · exact absurd hba.symm hab
      · exact absurd (by assumption : a = b).symm hba
      · omega

theorem strcmp_trans {s t u : Bytes} (hs : 0 ∉ s) (ht : 0 ∉ t) (hst : strcmp s t ≤ 0)
    (htu : strcmp t u ≤ 0) :
    strcmp s u ≤ 0 := by
  induction s generalizing t u with
  | nil =>
    cases u with
    | nil => simp [strcmp, compare_by]
    | cons c u => simp [strcmp, compare_by]
  | cons a s ih =>
    have ha := nulFree_cons hs
    cases t with
    | nil =>
      have : a.toNat ≤ 0 := by simpa [strcmp, compare_by] using hst
      omega
    | cons b t =>
      have hb := nulFree_cons ht
      cases u with
      | nil =>
        have : b.toNat ≤ 0 := by simpa [strcmp, compare_by] using htu
        omega
      | cons c u =>
        rw [strcmp_cons] at *
        by_cases hab : a = b
        · subst hab
          rw [if_pos rfl] at hst
          split_ifs at htu ⊢ with hac
          · exact ih ha.2 hb.2 hst htu
          · exact htu
        · have hne := toNat_ne hab
          rw [if_neg hab] at hst
          split_ifs at htu with hbc
          · rw [← hbc, if_neg hab]
            exact hst
          · have hac : a ≠ c := by
              rintro rfl
              omega
            rw [if_neg hac]
            omega

end Lib
