import IcecastCommon.Lib.Run

/-!
# A structure of its own

Code that builds a linked structure in a memory where others have cells too. No pointer of the
structure leads to a cell of theirs, so the code gets to none of them.
-/

namespace Lib

variable {α β : Type}

/-! ## The number of cells -/

namespace Memory

variable {m : Memory α} {a : Nat} {x y : α}

theorem size_eq_keys (m : Memory α) : m.size = m.cells.keys.length := by
  simp only [size, AList.keys, List.keys, List.length_map]

theorem mem_keys_of_get (h : m.get a = some x) : a ∈ m.cells.keys :=
  AList.mem_keys.mp (AList.lookup_isSome.mp (Option.isSome_of_eq_some h))

theorem size_set_of_some (h : m.get a = some x) : (m.set a y).size = m.size := by
  have hmem := mem_keys_of_get h
  have hpos := List.length_pos_of_mem hmem
  rw [size_eq_keys, size_eq_keys, set, AList.keys_insert, List.length_cons,
    List.length_erase_of_mem hmem]
  omega

theorem size_set_of_none (h : m.get a = none) : (m.set a y).size = m.size + 1 := by
  have hmem : a ∉ m.cells.keys := AList.mem_keys.not.mp (AList.lookup_eq_none.mp h)
  rw [size_eq_keys, size_eq_keys, set, AList.keys_insert, List.length_cons,
    List.erase_of_not_mem hmem]

theorem size_free {m' : Memory α} (h : m.get a = some x) (hfree : m.free (some a) = .ok m') :
    m'.size + 1 = m.size := by
  have hmem := mem_keys_of_get h
  have hpos := List.length_pos_of_mem hmem
  simp only [free, h, pure_eq_ok, Except.ok.injEq] at hfree
  rw [← hfree, size_eq_keys, size_eq_keys, AList.keys_erase, List.length_erase_of_mem hmem]
  omega

end Memory

/-! ## What the code may touch -/

/-- `p` leads to no cell of `old`. -/
def Apart (old : Memory α) (p : Ptr) : Prop := ∀ a, p = some a → old.get a = none

theorem apart_none (old : Memory α) : Apart old none := fun _ h => absurd h (by simp)

/-- The cells of `old` are as they were, and there are `n` others, whose pointers lead to no cell of
`old`. -/
structure Encloses (links : α → List Ptr) (old : Memory α) (n : Nat) (m : Memory α) : Prop where
  kept : ∀ a, (old.get a).isSome → m.get a = old.get a
  closed : ∀ a x, old.get a = none → m.get a = some x → ∀ p ∈ links x, Apart old p
  size : m.size = old.size + n

section Rules

variable {links : α → List Ptr} {old m : Memory α} {n : Nat} {p : Ptr}

theorem encloses_refl (links : α → List Ptr) (old : Memory α) : Encloses links old 0 old :=
  ⟨fun _ _ => rfl, fun a x hnone hsome => absurd (hnone.symm.trans hsome) (by simp), rfl⟩

theorem Encloses.grants (h : Encloses links old n m) (grants : Nat → Option Nat) :
    Encloses links old n { m with grants := grants } :=
  ⟨h.kept, h.closed, h.size⟩

/-- A pointer in the structure, and the cell there. -/
theorem Encloses.load {f : α → C β} {Q : β → Prop} (h : Encloses links old n m) (hp : Apart old p)
    (hf : ∀ x, (∀ q ∈ links x, Apart old q) → Yields (f x) Q) : Yields (m.load p >>= f) Q := by
  cases p with
  | none => exact yields_error _
  | some a =>
    cases hx : m.get a with
    | none =>
      simp only [Memory.load, hx]
      exact yields_error _
    | some x =>
      rw [Memory.load_eq hx]
      exact hf x (h.closed a x (hp a rfl) hx)

theorem Encloses.set (h : Encloses links old n m) {a : Nat} (ha : old.get a = none) {x y : α}
    (hx : m.get a = some x) (hy : ∀ q ∈ links y, Apart old q) :
    Encloses links old n (m.set a y) := by
  refine ⟨fun b hb => ?_, fun b z hb hz => ?_, (Memory.size_set_of_some hx).trans h.size⟩
  · rw [Memory.get_set_ne, h.kept b hb]
    rintro rfl
    simp [ha] at hb
  · by_cases hba : b = a
    · rw [hba, Memory.get_set_self, Option.some.injEq] at hz
      exact hz ▸ hy
    · rw [Memory.get_set_ne _ _ hba] at hz
      exact h.closed b z hb hz

theorem Encloses.update (h : Encloses links old n m) (hp : Apart old p) {f : α → α}
    (hf : ∀ x, (∀ q ∈ links x, Apart old q) → ∀ q ∈ links (f x), Apart old q) :
    Yields (m.update p f) (Encloses links old n) := by
  cases p with
  | none => exact yields_error _
  | some a =>
    cases hx : m.get a with
    | none =>
      simp only [Memory.update, hx]
      exact yields_error _
    | some x =>
      rw [Memory.update_eq hx]
      exact yields_ok (h.set (hp a rfl) hx (hf x (h.closed a x (hp a rfl) hx)))

/-- A new cell is one of the structure. -/
theorem Encloses.malloc (h : Encloses links old n m) {x : α} (hx : ∀ q ∈ links x, Apart old q) :
    (m.malloc x).1 = none ∧ Encloses links old n (m.malloc x).2 ∨
      ∃ a, (m.malloc x).1 = some a ∧ old.get a = none ∧
      Encloses links old (n + 1) (m.malloc x).2 := by
  unfold Memory.malloc
  cases m.grants 0 with
  | none => exact .inl ⟨rfl, h.grants _⟩
  | some wish =>
    have hfree := m.get_place wish
    have hnew : old.get (m.place wish) = none := by
      by_contra hold
      have hsome := Option.isSome_iff_ne_none.mpr hold
      exact hold (h.kept _ hsome ▸ hfree)
    refine .inr ⟨_, rfl, hnew, fun b hb => ?_, fun b z hb hz => ?_, ?_⟩
    · rw [Memory.get_set_ne]
      · exact h.kept b hb
      · rintro rfl
        simp [hnew] at hb
    · by_cases hba : b = m.place wish
      · rw [hba, Memory.get_set_self, Option.some.injEq] at hz
        exact hz ▸ hx
      · rw [Memory.get_set_ne _ _ hba] at hz
        exact h.closed b z hb hz
    · rw [Memory.size_set_of_none]
      · exact (congrArg (· + 1) h.size).trans (Nat.add_assoc ..)
      · exact hfree

/-- A cell of the structure is given back. -/
theorem Encloses.free (h : Encloses links old n m) {a : Nat} (ha : old.get a = none) :
    Yields (m.free (some a)) fun m' => ∃ k, n = k + 1 ∧ Encloses links old k m' := by
  intro m' hm'
  cases hx : m.get a with
  | none => simp [Memory.free, hx] at hm'
  | some x =>
    obtain ⟨m1, hm1, hgone, hothers, -⟩ := Memory.free_eq hx
    obtain rfl := Except.ok.inj (hm1.symm.trans hm')
    have hsize := Memory.size_free hx hm'
    have hkept : ∀ b, (old.get b).isSome → m1.get b = old.get b := by
      intro b hb
      rw [hothers, h.kept b hb]
      rintro rfl
      simp [ha] at hb
    have hle : old.cells.keys.length ≤ m1.size := by
      refine Memory.length_le_size m1 (AList.keys_nodup old.cells) fun b hb => ?_
      have hlive : (old.get b).isSome := AList.lookup_isSome.mpr (AList.mem_keys.mpr hb)
      rw [hkept b hlive]
      exact hlive
    have hold := Memory.size_eq_keys old
    have hm := h.size
    refine ⟨n - 1, by omega, hkept, fun b z hb hz => ?_, by omega⟩
    by_cases hba : b = a
    · rw [hba, hgone] at hz
      cases hz
    · exact h.closed b z hb (hothers b hba ▸ hz)

/-- Nothing has leaked when as many cells are known as there are. -/
theorem Encloses.live {l : List Nat} (h : Encloses links old l.length m) (hl : l.Nodup)
    (hlive : ∀ a ∈ l, (m.get a).isSome) (hapart : ∀ a ∈ l, old.get a = none) (a : Nat) :
    (m.get a).isSome ↔ (old.get a).isSome ∨ a ∈ l := by
  have hkeys (m : Memory α) (b : Nat) : b ∈ m.cells.keys ↔ (m.get b).isSome := by
    rw [← AList.mem_keys, Memory.get, AList.lookup_isSome]
  have hsub : old.cells.keys ++ l ⊆ m.cells.keys := by
    intro b hb
    rw [hkeys]
    rcases List.mem_append.mp hb with hb | hb
    · rw [hkeys] at hb
      rwa [h.kept b hb]
    · exact hlive b hb
  have hnodup : (old.cells.keys ++ l).Nodup := by
    refine List.nodup_append.mpr ⟨(AList.keys_nodup old.cells), hl, fun b hb c hc => ?_⟩
    rintro rfl
    rw [hkeys, hapart b hc] at hb
    simp at hb
  have hlen : m.cells.keys.length ≤ (old.cells.keys ++ l).length := by
    rw [List.length_append, ← Memory.size_eq_keys, ← Memory.size_eq_keys, h.size]
  have hperm := (List.subperm_of_subset hnodup hsub).perm_of_length_le hlen
  rw [← hkeys, ← hkeys, ← hperm.mem_iff, List.mem_append]

end Rules

end Lib
