import IcecastCommon.Lib.Memory
import Mathlib.Tactic.SplitIfs

/-!
# Runs

A run folds a step that may fail over a list of calls. An invariant that every call of the run
keeps holds at its end, and the run does not fail.
-/

namespace Lib

variable {σ α : Type} {step : σ → α → C σ} {Inv : σ → Prop}

/-- The step of each call may use that the run came that far. -/
theorem run_along {s : σ} {l : List α} (h0 : Inv s)
    (hstep : ∀ pre a post s', l = pre ++ a :: post → pre.foldlM step s = .ok s' → Inv s' →
      ∃ s'', step s' a = .ok s'' ∧ Inv s'') :
    ∃ s', l.foldlM step s = .ok s' ∧ Inv s' := by
  induction l generalizing s with
  | nil => exact ⟨s, rfl, h0⟩
  | cons a l ih =>
    obtain ⟨s1, hs1, h1⟩ := hstep [] a l s rfl rfl h0
    rw [List.foldlM_cons, hs1, ok_bind]
    refine ih h1 fun pre b post s' hl hpre hs' =>
      hstep (a :: pre) b post s' (by rw [hl]; rfl) ?_ hs'
    rw [List.foldlM_cons, hs1, ok_bind, hpre]

/-- **Invariants.** What every call keeps holds after every run, and no run fails. -/
theorem run_invariant (hstep : ∀ s a, Inv s → ∃ s', step s a = .ok s' ∧ Inv s') {s : σ} (h0 : Inv s)
    (l : List α) : ∃ s', l.foldlM step s = .ok s' ∧ Inv s' :=
  run_along h0 fun _ a _ s' _ _ h => hstep s' a h

/-! ## Results, where there is one -/

/-- What `x` returns satisfies `P`. It may fail instead. -/
def Yields {α : Type} (x : C α) (P : α → Prop) : Prop := ∀ a, x = .ok a → P a

section Yields

variable {α β : Type} {x : C α} {f : α → C β} {P : α → Prop} {Q : β → Prop}

theorem Yields.bind (hx : Yields x P) (hf : ∀ a, P a → Yields (f a) Q) : Yields (x >>= f) Q := by
  intro b hb
  obtain ⟨a, ha, hb⟩ := bind_eq_ok.mp hb
  exact hf a (hx a ha) b hb

/-- Steps of which nothing is asked. -/
theorem yields_bind (hf : ∀ a, x = .ok a → Yields (f a) Q) : Yields (x >>= f) Q :=
  Yields.bind (P := fun a => x = .ok a) (fun _ ha => ha) hf

theorem yields_ok {a : α} (h : P a) : Yields (.ok a) P := by
  intro b hb
  rwa [← Except.ok.inj hb]

theorem yields_error (e : Fault) : Yields (.error e) P := fun _ ha => nomatch ha

/-- The computation has no fault, and its result has the property. -/
def Succeeds {α : Type} (x : C α) (P : α → Prop) : Prop := ∃ a, x = .ok a ∧ P a

theorem succeeds_ok {a : α} (h : P a) : Succeeds (.ok a) P := ⟨a, rfl, h⟩

theorem Succeeds.yields (hx : Succeeds x P) : Yields x P := by
  obtain ⟨a, rfl, ha⟩ := hx
  exact yields_ok ha

/-- A run that is evaluated. -/
theorem succeeds_of_toBool (h : x.toBool = true) : ∃ a, x = .ok a := by
  cases x with
  | error e => exact absurd h (by simp [Except.toBool])
  | ok a => exact ⟨a, rfl⟩

theorem yields_of_all {P : α → Prop} [DecidablePred P] (h : x.toOption.all (decide <| P ·) = true) :
    Yields x P := by
  rintro a rfl
  exact of_decide_eq_true h

/-- A property of all states of a run and the calls that follow them, when the run is evaluated. -/
theorem along_of_all {σ α : Type} {step : σ → α → C σ} {s : σ} {l : List α} {P : σ → α → Prop}
    [∀ s' a, Decidable (P s' a)]
    (h : ∀ k < l.length,
      (((l.take k).foldlM step s).toOption.all fun s' => l[k]?.all (decide <| P s' ·)) = true)
    (pre : List α) (a : α) (post : List α) (s' : σ) (hl : l = pre ++ a :: post)
    (hpre : pre.foldlM step s = .ok s') : P s' a := by
  have hlen : pre.length < l.length := by
    rw [hl, List.length_append, List.length_cons]
    omega
  have htake : l.take pre.length = pre := by rw [hl, List.take_left]
  have hget : l[pre.length]? = some a := by
    rw [hl, List.getElem?_append_right (le_refl _), Nat.sub_self, List.getElem?_cons_zero]
  have hone := h pre.length hlen
  rw [htake, hpre, hget] at hone
  exact of_decide_eq_true hone

theorem Succeeds.bind (hx : Succeeds x P) (hf : ∀ a, P a → Succeeds (f a) Q) :
    Succeeds (x >>= f) Q := by
  obtain ⟨a, rfl, ha⟩ := hx
  exact hf a ha

theorem yields_ite {c : Prop} [Decidable c] {y : C α} (hx : c → Yields x P)
    (hy : ¬ c → Yields y P) :
    Yields (if c then x else y) P := by
  split_ifs with h
  · exact hx h
  · exact hy h

/-- Two ways to the same rest. -/
theorem yields_join {α β : Type} {c : Prop} [Decidable c] {x y : C α} {f : α → C β} {P : α → Prop}
    {Q : β → Prop} (hx : c → Yields x P) (hy : ¬ c → Yields y P) (hf : ∀ a, P a → Yields (f a) Q) :
    Yields (if c then x >>= f else y >>= f) Q :=
  yields_ite (fun h => (hx h).bind hf) (fun h => (hy h).bind hf)

/-- What each step returns, a step for every member of a list returns. -/
theorem yields_mapM {g : α → C β} (hg : ∀ a, Yields (g a) Q) (l : List α) :
    Yields (l.mapM g) fun bs => ∀ b ∈ bs, Q b := by
  induction l with
  | nil => exact yields_ok (by simp)
  | cons a l ih =>
    rw [List.mapM_cons]
    refine (hg a).bind fun b hb => ih.bind fun bs hbs => yields_ok ?_
    exact List.forall_mem_cons.mpr ⟨hb, hbs⟩

theorem run_yields_along {σ α : Type} {step : σ → α → C σ} (Inv : σ → Prop) {l : List α}
    {s : σ} (h0 : Inv s)
    (hstep : ∀ pre a post s', l = pre ++ a :: post → pre.foldlM step s = .ok s' → Inv s' →
      Yields (step s' a) Inv) :
    Yields (l.foldlM step s) Inv := by
  induction l generalizing s with
  | nil => exact yields_ok h0
  | cons a l ih =>
    rw [List.foldlM_cons]
    intro s' hs'
    obtain ⟨s1, hs1, hs'⟩ := bind_eq_ok.mp hs'
    refine ih (hstep [] a l s rfl rfl h0 s1 hs1) (fun pre b post s2 hl hpre h2 => ?_) s' hs'
    refine hstep (a :: pre) b post s2 (by rw [hl]; rfl) ?_ h2
    rw [List.foldlM_cons, hs1, ok_bind, hpre]

theorem run_yields {σ α : Type} {step : σ → α → C σ} (Inv : σ → Prop) {l : List α}
    (hstep : ∀ a ∈ l, ∀ s, Inv s → Yields (step s a) Inv) {s : σ} (h0 : Inv s) :
    Yields (l.foldlM step s) Inv :=
  run_yields_along Inv h0 fun pre a post s' hl _ h => hstep a (by rw [hl]; simp) s' h

end Yields

/-- **Exact conditions.** When a call is bad exactly if it ends in a state without `P`, every state
of a run has `P` if and only if no call of the run is bad. -/
theorem run_iff (Inv : σ → Prop) {P : σ → Prop} {Bad : σ → α → Prop} (hP : ∀ s, Inv s → P s)
    (hgood : ∀ s a, Inv s → ¬ Bad s a → Yields (step s a) Inv)
    (hbad : ∀ s a, Inv s → Bad s a → ∃ s', step s a = .ok s' ∧ ¬ P s') {s : σ} (h0 : Inv s)
    (l : List α) :
    (∀ pre post s', l = pre ++ post → pre.foldlM step s = .ok s' → P s') ↔
      ∀ pre a post s', l = pre ++ a :: post → pre.foldlM step s = .ok s' → ¬ Bad s' a := by
  induction l generalizing s with
  | nil =>
    constructor
    · intro _ pre a post s' hl
      exact absurd hl (by simp)
    · rintro - pre post s' hl hrun
      obtain ⟨rfl, -⟩ := List.append_eq_nil_iff.mp hl.symm
      cases hrun
      exact hP s h0
  | cons a l ih =>
    by_cases ha : Bad s a
    · obtain ⟨s1, hs1, hP1⟩ := hbad s a h0 ha
      constructor
      · intro h
        refine absurd (h [a] l s1 rfl ?_) hP1
        rw [List.foldlM_cons, hs1, ok_bind]
        rfl
      · intro h
        exact absurd ha (h [] a l s rfl rfl)
    · -- The runs that get past the first call.
      have hrest {s1 : σ} (hs1 : step s a = .ok s1) := ih (hgood s a h0 ha s1 hs1)
      constructor
      · rintro h (_ | ⟨b, pre⟩) c post s' hl hrun
        · cases hrun
          cases hl
          exact ha
        · cases hl
          rw [List.foldlM_cons] at hrun
          obtain ⟨s1, hs1, hrun⟩ := bind_eq_ok.mp hrun
          refine (hrest hs1).mp (fun pre' post' s'' hl' hrun' => ?_) pre c post s' rfl hrun
          refine h (a :: pre') post' s'' (by rw [hl']; rfl) ?_
          rw [List.foldlM_cons, hs1, ok_bind, hrun']
      · rintro h (_ | ⟨b, pre⟩) post s' hl hrun
        · cases hrun
          exact hP s h0
        · cases hl
          rw [List.foldlM_cons] at hrun
          obtain ⟨s1, hs1, hrun⟩ := bind_eq_ok.mp hrun
          refine (hrest hs1).mpr (fun pre' c post' s'' hl' hrun' => ?_) pre post s' rfl hrun
          refine h (a :: pre') c post' s'' (by rw [hl']; rfl) ?_
          rw [List.foldlM_cons, hs1, ok_bind, hrun']

/-- The same with the run itself, where a bad call may fail too: it gets everywhere, and every state
has `P`, if and only if no call is bad. -/
theorem run_total_iff (Inv : σ → Prop) {P : σ → Prop} {Bad : σ → α → Prop} (hP : ∀ s, Inv s → P s)
    (hgood : ∀ s a, Inv s → ¬ Bad s a → Succeeds (step s a) Inv)
    (hbad : ∀ s a, Inv s → Bad s a → Yields (step s a) (¬ P ·)) {s : σ} (h0 : Inv s) (l : List α) :
    (∀ pre post, l = pre ++ post → ∃ s', pre.foldlM step s = .ok s' ∧ P s') ↔
      ∀ pre a post s', l = pre ++ a :: post → pre.foldlM step s = .ok s' → ¬ Bad s' a := by
  induction l generalizing s with
  | nil =>
    refine iff_of_true (fun pre post hl => ?_) fun pre a post s' hl => absurd hl (by simp)
    obtain ⟨rfl, -⟩ := List.append_eq_nil_iff.mp hl.symm
    exact ⟨s, rfl, hP s h0⟩
  | cons a l ih =>
    by_cases ha : Bad s a
    · refine iff_of_false (fun h => ?_) fun h => h [] a l s rfl rfl ha
      obtain ⟨s1, hs1, hP1⟩ := h [a] l rfl
      rw [List.foldlM_cons] at hs1
      obtain ⟨s2, hs2, hs1⟩ := bind_eq_ok.mp hs1
      cases hs1
      exact hbad s a h0 ha s1 hs2 hP1
    · obtain ⟨s1, hs1, h1⟩ := hgood s a h0 ha
      have hrun (pre : List α) : (a :: pre).foldlM step s = pre.foldlM step s1 := by
        rw [List.foldlM_cons, hs1, ok_bind]
      constructor
      · rintro h (_ | ⟨b, pre⟩) c post s' hl hs'
        · cases hs'
          cases hl
          exact ha
        · cases hl
          refine (ih h1).mp (fun pre' post' hl' => ?_) pre c post s' rfl ((hrun pre).symm.trans hs')
          rw [← hrun]
          exact h (a :: pre') post' (by rw [hl']; rfl)
      · rintro h (_ | ⟨b, pre⟩) post hl
        · exact ⟨s, rfl, hP s h0⟩
        · cases hl
          rw [hrun]
          refine (ih h1).mpr (fun pre' c post' s' hl' hs' => ?_) pre post rfl
          exact h (a :: pre') c post' s' (by rw [hl']; rfl) ((hrun pre').trans hs')

/-! ## Calls of a function until one returns non-zero -/

section Visit

variable {σ α : Type} (f : α → σ → Int × σ)

/-- What the last call returned, or 0, and what the calls made of the state. -/
def visit : List α → σ → Int × σ
  | [], s => (0, s)
  | a :: l, s => if (f a s).1 ≠ 0 then f a s else visit l (f a s).2

theorem visit_append (l l' : List α) (s : σ) :
    visit f (l ++ l') s = if (visit f l s).1 ≠ 0 then visit f l s
      else visit f l' (visit f l s).2 := by
  induction l generalizing s with
  | nil => simp [visit]
  | cons a l ih =>
    rw [List.cons_append, visit, visit]
    split_ifs with h
    · rfl
    · rw [ih, if_pos ‹_›]
    · rw [ih, if_neg ‹_›]

end Visit

end Lib
