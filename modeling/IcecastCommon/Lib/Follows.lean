import IcecastCommon.Lib.Memory
import Mathlib.Tactic.SplitIfs

/-!
# One run that follows another

Two runs of the same code over cells with different contents. Whatever the second run returns, the
first one returns too, up to a relation of the contents.
-/

namespace Lib

variable {α β γ δ σ τ : Type}

/-- What `y` returns, `x` returns too, up to `R`. -/
def Follows (R : α → β → Prop) (x : C α) (y : C β) : Prop := ∀ b, y = .ok b → ∃ a, x = .ok a ∧ R a b

section Rules

variable {R : α → β → Prop} {S : γ → δ → Prop} {x x' : C α} {y y' : C β} {f : α → C γ} {g : β → C δ}

theorem follows_ok {a : α} {b : β} (h : R a b) : Follows R (.ok a) (.ok b) := by
  rintro _ ⟨⟩
  exact ⟨a, rfl, h⟩

theorem follows_error (e : Fault) : Follows R x (.error e) := fun _ h => nomatch h

theorem Follows.bind (h : Follows R x y) (hf : ∀ a b, R a b → Follows S (f a) (g b)) :
    Follows S (x >>= f) (y >>= g) := by
  intro d hd
  obtain ⟨b, hb, hd⟩ := bind_eq_ok.mp hd
  obtain ⟨a, rfl, hab⟩ := h b hb
  exact hf a b hab d hd

theorem follows_ite {c : Prop} [Decidable c] (h : c → Follows R x y) (h' : ¬ c → Follows R x' y') :
    Follows R (if c then x else x') (if c then y else y') := by
  split_ifs with hc
  · exact h hc
  · exact h' hc

/-- Two ways to the same rest. -/
theorem follows_join {c : Prop} [Decidable c] (h : c → Follows R x y) (h' : ¬ c → Follows R x' y')
    (hf : ∀ a b, R a b → Follows S (f a) (g b)) :
    Follows S (if c then x >>= f else x' >>= f) (if c then y >>= g else y' >>= g) :=
  follows_ite (fun hc => (h hc).bind hf) (fun hc => (h' hc).bind hf)

theorem follows_foldlM {T : σ → τ → Prop} {step : σ → α → C σ} {step' : τ → α → C τ}
    (hstep : ∀ s t a, T s t → Follows T (step s a) (step' t a)) {s : σ} {t : τ} (h : T s t)
    (l : List α) :
    Follows T (l.foldlM step s) (l.foldlM step' t) := by
  induction l generalizing s t with
  | nil => exact follows_ok h
  | cons a l ih =>
    rw [List.foldlM_cons, List.foldlM_cons]
    exact (hstep s t a h).bind fun _ _ h1 => ih h1

end Rules

/-! ## Memories -/

namespace Memory

/-- The same memory with other contents. -/
def map (f : α → β) (m : Memory α) : Memory β where
  cells := ⟨m.cells.entries.map (.map id fun _ => f), List.NodupKeys.map₂ _ _ m.cells.nodupKeys⟩
  grants := m.grants

theorem get_map (f : α → β) (m : Memory α) (a : Nat) : (m.map f).get a = (m.get a).map f :=
  List.dlookup_map₂ a

theorem keys_map (f : α → β) (m : Memory α) : (m.map f).cells.keys = m.cells.keys :=
  List.map₂_keys _ _

end Memory

/-- The same cells are in use, and their contents are related. -/
structure Alike (R : α → β → Prop) (m : Memory α) (m' : Memory β) : Prop where
  keys : m.cells.keys = m'.cells.keys
  cells : ∀ a y, m'.get a = some y → ∃ x, m.get a = some x ∧ R x y
  grants : m.grants = m'.grants

section Accesses

variable {R : α → β → Prop} {S : γ → δ → Prop} {m : Memory α} {m' : Memory β}

theorem alike_map (g : α → β) (m : Memory α) (h : ∀ x, R x (g x)) : Alike R m (m.map g) := by
  refine ⟨(m.keys_map g).symm, fun a y hy => ?_, rfl⟩
  rw [m.get_map, Option.map_eq_some_iff] at hy
  obtain ⟨x, hx, rfl⟩ := hy
  exact ⟨x, hx, h x⟩

theorem Alike.map_left (h : Alike R m m') {T : γ → β → Prop} (f : α → γ)
    (hf : ∀ x y, R x y → T (f x) y) :
    Alike T (m.map f) m' := by
  refine ⟨(m.keys_map f).trans h.keys, fun a y hy => ?_, h.grants⟩
  obtain ⟨x, hx, hxy⟩ := h.cells a y hy
  exact ⟨f x, by rw [m.get_map, hx]; rfl, hf x y hxy⟩

theorem Alike.size (h : Alike R m m') : m.size = m'.size := by
  have hlen := congrArg List.length h.keys
  simpa [Memory.size, AList.keys, List.keys] using hlen

/-- A load, and the rest of the run. -/
theorem Alike.load (h : Alike R m m') (p : Ptr) {f : α → C γ} {g : β → C δ}
    (hf : ∀ a x y, p = some a → m.get a = some x → m'.get a = some y → R x y →
      Follows S (f x) (g y)) :
    Follows S (m.load p >>= f) (m'.load p >>= g) := by
  cases p with
  | none => exact follows_error _
  | some a =>
    cases hy : m'.get a with
    | none =>
      simp only [Memory.load, hy]
      exact follows_error _
    | some y =>
      obtain ⟨x, hx, hxy⟩ := h.cells a y hy
      rw [Memory.load_eq hx, Memory.load_eq hy]
      exact hf a x y rfl hx hy hxy

theorem Alike.set (h : Alike R m m') (a : Nat) {x : α} {y : β} (hxy : R x y) :
    Alike R (m.set a x) (m'.set a y) := by
  refine ⟨?_, fun b z hz => ?_, h.grants⟩
  · simp only [Memory.set, AList.keys_insert, h.keys]
  · by_cases hb : b = a
    · subst hb
      rw [Memory.get_set_self, Option.some.injEq] at hz
      exact ⟨x, Memory.get_set_self _ _ _, hz ▸ hxy⟩
    · rw [Memory.get_set_ne _ _ hb] at hz ⊢
      exact h.cells b z hz

theorem Alike.update (h : Alike R m m') (p : Ptr) {f : α → α} {g : β → β}
    (hf : ∀ a x y, p = some a → m.get a = some x → m'.get a = some y → R x y → R (f x) (g y)) :
    Follows (Alike R) (m.update p f) (m'.update p g) := by
  cases p with
  | none => exact follows_error _
  | some a =>
    cases hy : m'.get a with
    | none =>
      simp only [Memory.update, hy]
      exact follows_error _
    | some y =>
      obtain ⟨x, hx, hxy⟩ := h.cells a y hy
      rw [Memory.update_eq hx, Memory.update_eq hy]
      exact follows_ok (h.set a (hf a x y rfl hx hy hxy))

theorem Alike.free (h : Alike R m m') (p : Ptr) : Follows (Alike R) (m.free p) (m'.free p) := by
  cases p with
  | none => exact follows_ok h
  | some a =>
    cases hy : m'.get a with
    | none =>
      simp only [Memory.free, hy]
      exact follows_error _
    | some y =>
      obtain ⟨x, hx, -⟩ := h.cells a y hy
      simp only [Memory.free, hx, hy]
      refine follows_ok ⟨?_, fun b z hz => ?_, h.grants⟩
      · simp only [AList.keys_erase, h.keys]
      · have hb : b ≠ a := by
          rintro rfl
          rw [Memory.get, AList.lookup_erase] at hz
          cases hz
        rw [Memory.get, AList.lookup_erase_ne hb] at hz ⊢
        exact h.cells b z hz

theorem Alike.place (h : Alike R m m') (wish : Nat) : m.place wish = m'.place wish := by
  have hmem : wish ∈ m.cells ↔ wish ∈ m'.cells := by rw [AList.mem_keys, AList.mem_keys, h.keys]
  simp only [Memory.place, Memory.above, h.keys, hmem]

/-- Both calls of `malloc` fail, or both hand out the same address. -/
theorem Alike.malloc (h : Alike R m m') {x : α} {y : β} (hxy : R x y) :
    (m.malloc x).1 = (m'.malloc y).1 ∧ Alike R (m.malloc x).2 (m'.malloc y).2 := by
  have hrest : Alike R { m with grants := fun n => m'.grants (n + 1) }
      { m' with grants := fun n => m'.grants (n + 1) } := ⟨h.keys, h.cells, rfl⟩
  unfold Memory.malloc
  rw [h.grants]
  cases m'.grants 0 with
  | none => exact ⟨rfl, hrest⟩
  | some wish =>
    dsimp only
    rw [h.place wish]
    exact ⟨rfl, hrest.set _ hxy⟩

end Accesses

end Lib
