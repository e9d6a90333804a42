import IcecastCommon.Lib.Zipper
import Mathlib.Tactic.ByContra
import Mathlib.Tactic.SplitIfs

/-!
# Three-way comparison

A comparison function with the sign convention of C, the sequences it sorts, and the
places a descent through a sorted tree can lead to.
-/

namespace Lib

variable {κ : Type}

/-- The comparison induces a total preorder: `a` comes before `b` when the result is not
positive. -/
structure TotalPreorder (cmp : κ → κ → Int) : Prop where
  flip : ∀ a b, cmp a b < 0 ↔ 0 < cmp b a
  trans : ∀ a b c, cmp a b ≤ 0 → cmp b c ≤ 0 → cmp a c ≤ 0

/-- The sequence is non-decreasing. -/
def Sorted (cmp : κ → κ → Int) (l : List κ) : Prop := l.Pairwise fun a b => cmp a b ≤ 0

/-- A sequence that falls into those that satisfy `P` and those that do not. -/
theorem filter_split (P Q : κ → Bool) {A B : List κ} (hA : ∀ a ∈ A, P a = true ∧ Q a = false)
    (hB : ∀ b ∈ B, P b = false ∧ Q b = true) : (A ++ B).filter P = A ∧ (A ++ B).filter Q = B := by
  rw [List.filter_append, List.filter_append, List.filter_eq_self.mpr fun a ha => (hA a ha).1,
    List.filter_eq_nil_iff.mpr fun b hb => by simp [(hB b hb).1],
    List.filter_eq_nil_iff.mpr fun a ha => by simp [(hA a ha).2],
    List.filter_eq_self.mpr fun b hb => (hB b hb).2]
  simp

/-- The first of those with `p` is the least one. -/
theorem find?_least {lt : κ → κ → Prop} {p : κ → Bool} {l : List κ} {a : κ}
    (h : l.Pairwise lt) (ha : a ∈ l) (hp : p a = true) (hleast : ∀ b ∈ l, p b = true → ¬ lt b a) :
    l.find? p = some a := by
  induction l with
  | nil => exact absurd ha (by simp)
  | cons b l ih =>
    obtain ⟨hb, hl⟩ := List.pairwise_cons.mp h
    rcases List.mem_cons.mp ha with rfl | hmem
    · rw [List.find?_cons_of_pos hp]
    · have hne : p b = false := by
        by_contra hpb
        exact hleast b (by simp) (by simpa using hpb) (hb a hmem)
      rw [List.find?_cons_of_neg (by simp [hne])]
      exact ih hl hmem fun c hc => hleast c (List.mem_cons_of_mem b hc)

namespace TotalPreorder

variable {cmp : κ → κ → Int} (h : TotalPreorder cmp)
include h

theorem refl (a : κ) : cmp a a = 0 := by
  have := h.flip a a
  omega

theorem le_flip (a b : κ) : cmp a b ≤ 0 ↔ 0 ≤ cmp b a := by
  have := h.flip b a
  omega

theorem lt_of_lt_of_le {a b c : κ} (hab : cmp a b < 0) (hbc : cmp b c ≤ 0) : cmp a c < 0 := by
  by_contra hac
  have hca : cmp c a ≤ 0 := (h.le_flip c a).mpr (by omega)
  have hba := h.trans b c a hbc hca
  have := (h.flip a b).mp hab
  omega

theorem lt_of_le_of_lt {a b c : κ} (hab : cmp a b ≤ 0) (hbc : cmp b c < 0) : cmp a c < 0 := by
  by_contra hac
  have hca : cmp c a ≤ 0 := (h.le_flip c a).mpr (by omega)
  have hcb := h.trans c a b hca hab
  have := (h.flip b c).mp hbc
  omega

end TotalPreorder

/-! ## Places in a sorted sequence -/

/-- What holds of all elements before one that has it holds as far as its count says. -/
theorem getElem_iff_lt_countP {α : Type} {p : α → Bool} {l : List α}
    (h : l.Pairwise fun a b => p b = true → p a = true) {n : Nat} (hn : n < l.length) :
    p l[n] = true ↔ n < l.countP p := by
  induction l generalizing n with
  | nil => exact absurd hn (by simp)
  | cons a l ih =>
    obtain ⟨ha, hl⟩ := List.pairwise_cons.mp h
    by_cases hpa : p a = true
    · rw [List.countP_cons_of_pos hpa]
      cases n with
      | zero => simpa using hpa
      | succ n =>
        rw [List.getElem_cons_succ, ih hl (by simpa using hn)]
        omega
    · have hnone : ∀ b ∈ a :: l, ¬ p b = true := by
        rw [List.forall_mem_cons]
        exact ⟨hpa, fun b hb hpb => hpa (ha b hb hpb)⟩
      rw [List.countP_eq_zero.mpr hnone]
      exact iff_of_false (hnone _ (List.getElem_mem hn)) (Nat.not_lt_zero n)

/-- The number of elements that compare less than `k`. -/
def countLess (cmp : κ → κ → Int) (k : κ) (S : List κ) : Nat := S.countP fun x => cmp x k < 0

/-- The number of elements that compare less than `k` or equal to it. -/
def countAtMost (cmp : κ → κ → Int) (k : κ) (S : List κ) : Nat := S.countP fun x => cmp x k ≤ 0

theorem countLess_le_countAtMost (cmp : κ → κ → Int) (k : κ) (S : List κ) :
    countLess cmp k S ≤ countAtMost cmp k S := by
  refine List.countP_mono_left fun x _ hx => ?_
  simp only [decide_eq_true_eq] at hx ⊢
  omega

theorem countAtMost_le_length (cmp : κ → κ → Int) (k : κ) (S : List κ) :
    countAtMost cmp k S ≤ S.length :=
  List.countP_le_length

theorem countLess_pos {cmp : κ → κ → Int} {k : κ} {S : List κ} :
    0 < countLess cmp k S ↔ ∃ x ∈ S, cmp x k < 0 := by
  simp [countLess, List.countP_pos_iff]

section Counts

variable {cmp : κ → κ → Int} (h : TotalPreorder cmp) {S : List κ} (hS : Sorted cmp S) (k : κ)
include h

/-- Without an equal element the two counts agree. -/
theorem countAtMost_eq_countLess (habsent : ∀ x ∈ S, cmp k x ≠ 0) :
    countAtMost cmp k S = countLess cmp k S := by
  refine List.countP_congr fun x hx => ?_
  have hne := habsent x hx
  have hflip := h.flip x k
  have hflip' := h.flip k x
  simp only [decide_eq_true_eq]
  omega

include hS

theorem lt_countLess_iff {n : Nat} (hn : n < S.length) :
    n < countLess cmp k S ↔ cmp S[n] k < 0 := by
  have hpair : S.Pairwise fun a b => decide (cmp b k < 0) = true → decide (cmp a k < 0) = true := by
    refine hS.imp fun hab hb => ?_
    simp only [decide_eq_true_eq] at hb ⊢
    exact h.lt_of_le_of_lt hab hb
  rw [countLess, ← getElem_iff_lt_countP hpair hn, decide_eq_true_eq]

theorem lt_countAtMost_iff {n : Nat} (hn : n < S.length) :
    n < countAtMost cmp k S ↔ cmp S[n] k ≤ 0 := by
  have hpair : S.Pairwise fun a b => decide (cmp b k ≤ 0) = true → decide (cmp a k ≤ 0) = true := by
    refine hS.imp fun hab hb => ?_
    simp only [decide_eq_true_eq] at hb ⊢
    exact h.trans _ _ _ hab hb
  rw [countAtMost, ← getElem_iff_lt_countP hpair hn, decide_eq_true_eq]

/-- The elements that compare equal lie between the two counts. -/
theorem equal_iff_between {n : Nat} (hn : n < S.length) :
    cmp k S[n] = 0 ↔ countLess cmp k S ≤ n ∧ n < countAtMost cmp k S := by
  rw [← Nat.not_lt, lt_countLess_iff h hS k hn, lt_countAtMost_iff h hS k hn]
  have hflip := h.flip S[n] k
  have hflip' := h.flip k S[n]
  omega

end Counts

/-! ## Where a probe sends the descent -/

variable {α : Type}

/-- The probe never turns back: once it answers at most `0`, it does so for all that follows. -/
def Probed (probe : α → Int) (l : List α) : Prop :=
  l.Pairwise fun a b => (0 < probe b → 0 < probe a) ∧ (probe a < 0 → probe b < 0)

/-- Looking for `k` in a sorted sequence is a probe. -/
theorem probed_of_sorted {cmp : κ → κ → Int} (h : TotalPreorder cmp) (k : κ) (key : α → κ)
    {l : List α} (hl : Sorted cmp (l.map key)) : Probed (fun a => cmp k (key a)) l := by
  rw [Sorted, List.pairwise_map] at hl
  refine hl.imp ?_
  intro a b hab
  constructor
  · intro hb
    have hbk := (h.flip (key b) k).mpr hb
    exact (h.flip (key a) k).mp (h.lt_of_le_of_lt hab hbk)
  · intro ha
    exact h.lt_of_lt_of_le ha hab

/-- The way down took the side that the probe shows at each node: left for `p`, right otherwise. -/
def Led (probe : α → Int) (p : Int → Prop) (c : List (Frame α)) : Prop :=
  ∀ f ∈ c, match f.side with
    | .left => p (probe f.value)
    | .right => 0 < probe f.value

theorem led_append (probe : α → Int) (p : Int → Prop) (b c : List (Frame α)) :
    Led probe p (b ++ c) ↔ Led probe p b ∧ Led probe p c := by
  simp only [Led, List.mem_append, or_imp, forall_and]

theorem led_cons (probe : α → Int) (p : Int → Prop) (f : Frame α) (c : List (Frame α)) :
    Led probe p (f :: c) ↔
      (match f.side with | .left => p (probe f.value) | .right => 0 < probe f.value) ∧
        Led probe p c := by
  simp only [Led, List.forall_mem_cons]

/-- The way down to the place of a new value. -/
def route (probe : α → Int) : BinaryTree α → List (Frame α) → List (Frame α)
  | .nil, c => c
  | .node a l r, c =>
    if probe a < 1 then route probe l (⟨a, .left, r⟩ :: c) else route probe r (⟨a, .right, l⟩ :: c)

theorem plug_route (probe : α → Int) (t : BinaryTree α) (c : List (Frame α)) :
    plug (route probe t c) .nil = plug c t := by
  induction t generalizing c with
  | nil => rfl
  | node a l r ihl ihr =>
    rw [route]
    split
    · rw [ihl]
      rfl
    · rw [ihr]
      rfl

theorem route_append (probe : α → Int) (t : BinaryTree α) (c : List (Frame α)) :
    route probe t c = route probe t [] ++ c := by
  induction t generalizing c with
  | nil => rfl
  | node a l r ihl ihr =>
    rw [route, route]
    split
    · rw [ihl, ihl [_], List.append_assoc]
      rfl
    · rw [ihr, ihr [_], List.append_assoc]
      rfl

theorem led_route (probe : α → Int) (t : BinaryTree α) (c : List (Frame α))
    (hc : Led probe (· < 1) c) : Led probe (· < 1) (route probe t c) := by
  induction t generalizing c with
  | nil => exact hc
  | node a l r ihl ihr =>
    rw [route]
    split
    · next h =>
      exact ihl _ ((led_cons _ _ _ _).mpr ⟨h, hc⟩)
    · next h =>
      exact ihr _ ((led_cons _ _ _ _).mpr ⟨by dsimp only; omega, hc⟩)

theorem route_length_le (probe : α → Int) (t : BinaryTree α) :
    (route probe t []).length ≤ t.height := by
  induction t with
  | nil => exact Nat.le_refl _
  | node a l r ihl ihr =>
    rw [route, BinaryTree.height]
    split
    · rw [route_append, List.length_append, List.length_singleton]
      omega
    · rw [route_append, List.length_append, List.length_singleton]
      omega

theorem led_map (probe : α → Int) (p : Int → Prop) (g : Side → α → α)
    (hg : ∀ d a, probe (g d a) = probe a) (c : List (Frame α)) :
    Led probe p (c.map (Frame.map g)) ↔ Led probe p c := by
  simp only [Led, List.forall_mem_map, Frame.map_side, Frame.map_value, hg]

/-- The way down to a value that the probe answers `0` for: the frames, and the subtree
it ends at. -/
def seek (probe : α → Int) : BinaryTree α → List (Frame α) → List (Frame α) × BinaryTree α
  | .nil, c => (c, .nil)
  | .node a l r, c =>
    if probe a < 0 then seek probe l (⟨a, .left, r⟩ :: c)
    else if 0 < probe a then seek probe r (⟨a, .right, l⟩ :: c)
    else (c, .node a l r)

theorem seek_spec (probe : α → Int) (t : BinaryTree α) (c : List (Frame α)) :
    plug (seek probe t c).1 (seek probe t c).2 = plug c t ∧
      (Led probe (· < 0) c → Led probe (· < 0) (seek probe t c).1) ∧
      (∀ a l r, (seek probe t c).2 = .node a l r → probe a = 0) ∧
      (seek probe t c).1.length ≤ t.height + c.length := by
  induction t generalizing c with
  | nil =>
    refine ⟨rfl, id, ?_, by simp [seek]⟩
    intro a l r h
    cases h
  | node a l r ihl ihr =>
    rw [seek, BinaryTree.height]
    split_ifs with h1 h2
    · obtain ⟨h3, h4, h5, h6⟩ := ihl (⟨a, .left, r⟩ :: c)
      refine ⟨h3, fun hc => h4 ((led_cons _ _ _ _).mpr ⟨h1, hc⟩), h5, ?_⟩
      rw [List.length_cons] at h6
      omega
    · obtain ⟨h3, h4, h5, h6⟩ := ihr (⟨a, .right, l⟩ :: c)
      refine ⟨h3, fun hc => h4 ((led_cons _ _ _ _).mpr ⟨h2, hc⟩), h5, ?_⟩
      rw [List.length_cons] at h6
      omega
    · refine ⟨rfl, id, ?_, Nat.le_add_left _ _⟩
      intro b x y h
      cases h
      omega

theorem seek_append (probe : α → Int) (t : BinaryTree α) (c : List (Frame α)) :
    seek probe t c = ((seek probe t []).1 ++ c, (seek probe t []).2) := by
  induction t generalizing c with
  | nil => rfl
  | node a l r ihl ihr =>
    rw [seek, seek]
    split_ifs
    · rw [ihl, ihl [_], List.append_assoc]
      rfl
    · rw [ihr, ihr [_], List.append_assoc]
      rfl
    · rfl

/-- In a tree with nodes the way down finds one, or takes at least one step. -/
theorem seek_node_ne (probe : α → Int) (a : α) (l r : BinaryTree α) :
    (seek probe (.node a l r) []).1 ≠ [] ∨ (seek probe (.node a l r) []).2 ≠ .nil := by
  rw [seek]
  split_ifs
  · rw [seek_append]
    simp
  · rw [seek_append]
    simp
  · simp

theorem led_before {probe : α → Int} {p : Int → Prop} (c : List (Frame α))
    (hp : Probed probe (before c)) (hc : Led probe p c) : ∀ a ∈ before c, 0 < probe a := by
  induction c with
  | nil => simp [before]
  | cons f c ih =>
    rw [led_cons] at hc
    cases hs : f.side
    · simp only [before, hs] at hp ⊢
      exact ih hp hc.2
    · simp only [before, hs] at hp hc ⊢
      obtain ⟨h1, h2, -⟩ := List.pairwise_append.mp hp
      intro a ha
      rw [List.mem_append, List.mem_append, List.mem_singleton] at ha
      rcases ha with ha | ha | rfl
      · exact ih h1 hc.2 a ha
      · exact ((List.pairwise_append.mp h2).2.2 a ha f.value (by simp)).1 hc.1
      · exact hc.1

theorem led_after {probe : α → Int} {p : Int → Prop} (c : List (Frame α))
    (hp : Probed probe (after c)) (hc : Led probe p c)
    (hstep : ∀ a b, p (probe a) → (0 < probe b → 0 < probe a) ∧ (probe a < 0 → probe b < 0) →
      p (probe b)) :
    ∀ a ∈ after c, p (probe a) := by
  induction c with
  | nil => simp [after]
  | cons f c ih =>
    rw [led_cons] at hc
    cases hs : f.side
    · simp only [after, hs] at hp hc ⊢
      obtain ⟨h1, h2, -⟩ := List.pairwise_append.mp hp
      intro a ha
      rw [List.mem_append, List.mem_cons] at ha
      rcases ha with (rfl | ha) | ha
      · exact hc.1
      · exact hstep _ _ hc.1 ((List.pairwise_cons.mp h1).1 a ha)
      · exact ih h2 hc.2 a ha
    · simp only [after, hs] at hp ⊢
      exact ih hp hc.2

end Lib
