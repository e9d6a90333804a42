import Mathlib.Data.List.AList

/-!
# The memory a C program allocates from

A finite map from addresses to cells, with the answers that `malloc` will give.
Every access goes through `load`, `update` and `free`, which fail on a null pointer and
on a pointer to no live cell.
-/

namespace Lib

/-- The ways a run of C code fails to have a meaning. -/
inductive Fault where
  | null
  | dangling
  | endless
  | bounds
deriving DecidableEq, Repr

/-- The result of C code that may go wrong. -/
abbrev C := Except Fault

@[simp] theorem ok_bind {α β : Type} (x : α) (f : α → C β) : (Except.ok x >>= f) = f x := rfl

@[simp] theorem pure_eq_ok {α : Type} (x : α) : (pure x : C α) = Except.ok x := rfl

@[simp] theorem throw_eq_error {α : Type} (e : Fault) : (throw e : C α) = Except.error e := rfl

theorem run_bind {α β : Type} {x : C α} {f : α → C β} {a : α} {y : C β} (hx : x = .ok a)
    (hf : f a = y) : (x >>= f) = y := by
  rw [hx]
  exact hf

/-- A run that does not fail, taken apart. -/
theorem bind_eq_ok {α β : Type} {x : C α} {f : α → C β} {y : β} :
    (x >>= f) = .ok y ↔ ∃ a, x = .ok a ∧ f a = .ok y := by
  cases x with
  | error e => simp [bind, Except.bind]
  | ok a => simp

/-- A pointer. `none` is NULL. -/
abbrev Ptr := Option Nat

structure Memory (α : Type) where
  cells : AList fun _ : Nat => α
  /-- The answers of the next calls of `malloc`: a failure, or the address it would like. -/
  grants : Nat → Option Nat

namespace Memory

variable {α : Type} (m : Memory α)

def get (a : Nat) : Option α := m.cells.lookup a

def set (a : Nat) (x : α) : Memory α := { m with cells := m.cells.insert a x }

/-- The number of live cells. -/
def size : Nat := m.cells.entries.length

def load : Ptr → C α
  | none => throw .null
  | some a => match m.get a with
    | none => throw .dangling
    | some x => return x

def update (p : Ptr) (f : α → α) : C (Memory α) :=
  match p with
  | none => throw .null
  | some a => match m.get a with
    | none => throw .dangling
    | some x => return m.set a (f x)

def free : Ptr → C (Memory α)
  | none => return m
  | some a => match m.get a with
    | none => throw .dangling
    | some _ => return { m with cells := m.cells.erase a }

/-- An address above all live cells. -/
def above : Nat := m.cells.keys.foldr max 0 + 1

/-- The cell that `malloc` hands out when it would like `wish`: that one if it is not in use. -/
def place (wish : Nat) : Nat := if wish ∈ m.cells then m.above else wish

/-- `malloc`, with the contents that the caller stores first. The address may be one
that was freed. -/
def malloc (x : α) : Option Nat × Memory α :=
  let rest := { m with grants := fun n => m.grants (n + 1) }
  match m.grants 0 with
  | none => (none, rest)
  | some wish => (some (m.place wish), rest.set (m.place wish) x)

/-- No allocation fails. -/
def Generous : Prop := ∀ n, (m.grants n).isSome

/-! ## What an access sees -/

@[simp] theorem get_set_self (a : Nat) (x : α) : (m.set a x).get a = some x :=
  AList.lookup_insert m.cells

theorem get_set_ne (x : α) {a b : Nat} (h : b ≠ a) : (m.set a x).get b = m.get b :=
  AList.lookup_insert_ne h

theorem load_eq {m : Memory α} {a : Nat} {x : α} (h : m.get a = some x) :
    m.load (some a) = .ok x := by
  simp only [load, h]; rfl

theorem update_eq {m : Memory α} {a : Nat} {x : α} (h : m.get a = some x) (f : α → α) :
    m.update (some a) f = .ok (m.set a (f x)) := by
  simp only [update, h]; rfl

theorem free_eq {m : Memory α} {a : Nat} {x : α} (h : m.get a = some x) :
    ∃ m', m.free (some a) = .ok m' ∧ m'.get a = none ∧ (∀ b, b ≠ a → m'.get b = m.get b) ∧
      m'.grants = m.grants := by
  refine ⟨{ m with cells := m.cells.erase a }, ?_, ?_, ?_, rfl⟩
  · simp only [free, h]; rfl
  · exact AList.lookup_erase a m.cells
  · intro b hb
    exact AList.lookup_erase_ne hb

@[simp] theorem set_grants (a : Nat) (x : α) : (m.set a x).grants = m.grants := rfl

/-! ## Allocation -/

theorem keys_lt_above (a : Nat) (h : a ∈ m.cells.keys) : a < m.above := by
  have hmax : ∀ l : List Nat, a ∈ l → a ≤ l.foldr max 0 := by
    intro l hl
    induction l with
    | nil => simp at hl
    | cons b l ih =>
      rcases List.mem_cons.mp hl with rfl | hl
      · exact le_max_left _ _
      · exact le_trans (ih hl) (le_max_right _ _)
  exact Nat.lt_succ_of_le (hmax _ h)

theorem get_place (wish : Nat) : m.get (m.place wish) = none := by
  rw [get, place, AList.lookup_eq_none]
  by_cases hw : wish ∈ m.cells
  · rw [if_pos hw, AList.mem_keys]
    intro h
    exact lt_irrefl _ (m.keys_lt_above _ h)
  · rw [if_neg hw]
    exact hw

/-- What is handed out was not in use, and the other cells stay. -/
theorem malloc_some {m m' : Memory α} {x : α} {a : Nat} (h : m.malloc x = (some a, m')) :
    m.get a = none ∧ m'.get a = some x ∧ ∀ b, b ≠ a → m'.get b = m.get b := by
  cases hg : m.grants 0 with
  | none => simp [malloc, hg] at h
  | some wish =>
    simp only [malloc, hg, Prod.mk.injEq, Option.some.injEq] at h
    obtain ⟨rfl, rfl⟩ := h
    exact ⟨m.get_place wish, get_set_self _ _ x, fun b hb => get_set_ne _ x hb⟩

/-- A memory that never fails gives a cell that was not in use, and leaves the others. -/
theorem malloc_eq (hm : m.Generous) (x : α) :
    ∃ a m', m.malloc x = (some a, m') ∧ m.get a = none ∧ m'.get a = some x ∧
      (∀ b, b ≠ a → m'.get b = m.get b) ∧ m'.Generous := by
  obtain ⟨wish, hwish⟩ := Option.isSome_iff_exists.mp (hm 0)
  let rest : Memory α := { m with grants := fun n => m.grants (n + 1) }
  have hmalloc : m.malloc x = (some (m.place wish), rest.set (m.place wish) x) := by
    simp only [malloc, hwish, rest]
  obtain ⟨hfree, hnew, hrest⟩ := malloc_some hmalloc
  exact ⟨_, _, hmalloc, hfree, hnew, hrest, fun n => hm (n + 1)⟩

/-! ## A bound on what can be linked together -/

theorem length_le_size {l : List Nat} (hl : l.Nodup) (h : ∀ a ∈ l, (m.get a).isSome) :
    l.length ≤ m.size := by
  have hsub : l ⊆ m.cells.keys := fun a ha => AList.lookup_isSome.mp (h a ha)
  have hle := (List.subperm_of_subset hl hsub).length_le
  simpa [size, AList.keys, List.keys] using hle

end Memory

end Lib
