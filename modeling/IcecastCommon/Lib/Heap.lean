import IcecastCommon.Lib.Memory

/-!
# Blocks that are never handed out again

In this heap a pointer names an allocation and not a place, so a pointer to a block that was
freed is never good again. Linked lists of blocks are built on it.
-/

namespace Lib

/-- All blocks that were ever allocated. A block that was freed is `none`. -/
structure Heap (α : Type) where
  blocks : List (Option α)

namespace Heap

variable {α : Type}

/-- The address that the next block gets. -/
def size (m : Heap α) : Nat := m.blocks.length

def get (m : Heap α) (a : Nat) : Option α := (m.blocks[a]?).join

/-- The contents are what the caller stores first. -/
def alloc (m : Heap α) (x : α) : Nat × Heap α := (m.size, ⟨m.blocks ++ [some x]⟩)

def load (m : Heap α) : Ptr → C α
  | none => throw .null
  | some a => match m.get a with
    | none => throw .dangling
    | some x => return x

def update (m : Heap α) (p : Ptr) (f : α → α) : C (Heap α) :=
  match p with
  | none => throw .null
  | some a => match m.get a with
    | none => throw .dangling
    | some x => return ⟨m.blocks.set a (some (f x))⟩

def free (m : Heap α) : Ptr → C (Heap α)
  | none => return m
  | some a => match m.get a with
    | none => throw .dangling
    | some _ => return ⟨m.blocks.set a none⟩

/-- A block that was freed. -/
def Dead (m : Heap α) (a : Nat) : Prop := a < m.size ∧ m.get a = none

variable {m m' : Heap α} {a : Nat} {x : α}

theorem lt_of_get (h : m.get a = some x) : a < m.size := by
  unfold get at h
  by_contra hge
  rw [List.getElem?_eq_none (Nat.le_of_not_lt hge)] at h
  exact absurd h (by simp)

theorem get_alloc_self (m : Heap α) (x : α) : (m.alloc x).2.get m.size = some x := by
  simp [get, alloc, size]

theorem get_alloc (m : Heap α) (x : α) {b : Nat} (hb : b < m.size) :
    (m.alloc x).2.get b = m.get b := by
  unfold get alloc
  rw [List.getElem?_append_left hb]

theorem size_alloc (m : Heap α) (x : α) : (m.alloc x).2.size = m.size + 1 := by simp [size, alloc]

theorem load_eq (h : m.get a = some x) : m.load (some a) = .ok x := by
  simp only [load, h]
  rfl

/-- The blocks of a list were freed. -/
structure Freed (m m' : Heap α) (gone : List Nat) : Prop where
  size : m'.size = m.size
  dead : ∀ b ∈ gone, m'.get b = none
  live : ∀ b ∉ gone, m'.get b = m.get b

theorem Freed.refl (m : Heap α) : m.Freed m [] := ⟨rfl, by simp, fun _ _ => rfl⟩

theorem Freed.trans {m'' : Heap α} {l l' : List Nat} (h : m.Freed m' l) (h' : m'.Freed m'' l') :
    m.Freed m'' (l ++ l') := by
  refine ⟨h'.size.trans h.size, fun b hb => ?_, fun b hb => ?_⟩
  · by_cases hl' : b ∈ l'
    · exact h'.dead b hl'
    · rw [h'.live b hl']
      exact h.dead b ((List.mem_append.mp hb).resolve_right hl')
  · rw [List.mem_append, not_or] at hb
    rw [h'.live b hb.2, h.live b hb.1]

theorem get_set_self (ha : a < m.size) (y : Option α) : Heap.get ⟨m.blocks.set a y⟩ a = y := by
  unfold get
  rw [List.getElem?_set_self ha]
  rfl

theorem get_set_ne (m : Heap α) (y : Option α) {b : Nat} (hb : b ≠ a) :
    Heap.get ⟨m.blocks.set a y⟩ b = m.get b := by
  unfold get
  rw [List.getElem?_set_ne (Ne.symm hb)]

theorem free_eq (h : m.get a = some x) : ∃ m', m.free (some a) = .ok m' ∧ m.Freed m' [a] := by
  refine ⟨⟨m.blocks.set a none⟩, ?_, by simp [size], fun b hb => ?_, fun b hb => ?_⟩
  · simp only [free, h]
    rfl
  · rw [List.mem_singleton.mp hb]
    exact get_set_self (lt_of_get h) none
  · exact get_set_ne m none (by simpa using hb)

theorem update_eq (h : m.get a = some x) (f : α → α) :
    ∃ m', m.update (some a) f = .ok m' ∧ m'.size = m.size ∧ m'.get a = (m.get a).map f ∧
      ∀ b, b ≠ a → m'.get b = m.get b := by
  refine ⟨⟨m.blocks.set a (some (f x))⟩, ?_, by simp [size], ?_, fun b hb => get_set_ne m _ hb⟩
  · simp only [update, h]
    rfl
  · rw [get_set_self (lt_of_get h), h]
    rfl

theorem update_dead (h : m.get a = none) (f : α → α) : m.update (some a) f = .error .dangling := by
  simp only [update, h]
  rfl

end Heap

namespace Heap

/-! ## What holds of all blocks -/

variable {α : Type} {m m' : Heap α} {P : α → Prop}

def All (P : α → Prop) (m : Heap α) : Prop := ∀ a x, m.get a = some x → P x

theorem all_set (h : m.All P) {a : Nat} {y : Option α} (hy : ∀ x, y = some x → P x) :
    All P ⟨m.blocks.set a y⟩ := by
  intro b x hb
  by_cases hab : b = a
  · subst hab
    by_cases hlt : b < m.size
    · rw [get_set_self hlt] at hb
      exact hy x hb
    · have hge := lt_of_get hb
      rw [size, List.length_set] at hge
      exact absurd hge hlt
  · rw [get_set_ne m y hab] at hb
    exact h b x hb

theorem all_alloc (h : m.All P) {x : α} (hx : P x) : (m.alloc x).2.All P := by
  intro a y ha
  by_cases hlt : a < m.size
  · rw [get_alloc m x hlt] at ha
    exact h a y ha
  · have hsize := lt_of_get ha
    rw [size_alloc] at hsize
    obtain rfl : a = m.size := by omega
    rw [get_alloc_self] at ha
    exact Option.some.inj ha ▸ hx

theorem all_free (h : m.All P) {p : Ptr} (hfree : m.free p = .ok m') : m'.All P := by
  unfold free at hfree
  split at hfree
  · exact Except.ok.inj hfree ▸ h
  · split at hfree
    · exact nomatch hfree
    · exact Except.ok.inj hfree ▸ all_set h (by simp)

theorem all_update (h : m.All P) {p : Ptr} {f : α → α} (hf : ∀ x, P x → P (f x))
    (hupdate : m.update p f = .ok m') :
    m'.All P := by
  unfold update at hupdate
  split at hupdate
  · exact nomatch hupdate
  next a =>
    split at hupdate
    · exact nomatch hupdate
    next x hget =>
      refine Except.ok.inj hupdate ▸ all_set h ?_
      rintro y ⟨⟩
      exact hf x (h a x hget)

end Heap

/-! ## Linked lists -/

section Chain

variable {α β : Type} (next : α → Ptr) (holds : α → β → Prop)

/-- The blocks from `p` on: their addresses, and what they hold beside the pointer to
the next one. -/
def Chain (m : Heap α) : Ptr → List (Nat × β) → Prop
  | p, [] => p = none
  | p, e :: l => p = some e.1 ∧ ∃ x, m.get e.1 = some x ∧ holds x e.2 ∧ Chain m (next x) l

def addresses (l : List (Nat × β)) : List Nat := l.map Prod.fst

variable {next holds} {m m' : Heap α} {p : Ptr} {l : List (Nat × β)}

@[simp] theorem addresses_nil : addresses ([] : List (Nat × β)) = [] := rfl

@[simp] theorem addresses_cons (e : Nat × β) (l : List (Nat × β)) :
    addresses (e :: l) = e.1 :: addresses l := rfl

@[simp] theorem addresses_append (l l' : List (Nat × β)) :
    addresses (l ++ l') = addresses l ++ addresses l' :=
  List.map_append

theorem addresses_drop (n : Nat) (l : List (Nat × β)) :
    addresses (l.drop n) = (addresses l).drop n :=
  List.map_drop

/-- Changes elsewhere do not matter. -/
theorem Chain.frame (h : Chain next holds m p l) (hsame : ∀ a ∈ addresses l, m'.get a = m.get a) :
    Chain next holds m' p l := by
  induction l generalizing p with
  | nil => exact h
  | cons e l ih =>
    obtain ⟨hp, x, hget, hx, hrest⟩ := h
    refine ⟨hp, x, ?_, hx, ih hrest fun a ha => hsame a (List.mem_cons_of_mem _ ha)⟩
    rw [hsame e.1 (by simp)]
    exact hget

theorem Chain.live (h : Chain next holds m p l) {a : Nat} (ha : a ∈ addresses l) :
    ∃ x, m.get a = some x := by
  induction l generalizing p with
  | nil => exact absurd ha (by simp)
  | cons e l ih =>
    obtain ⟨-, x, hget, -, hrest⟩ := h
    rcases List.mem_cons.mp ha with rfl | ha
    · exact ⟨x, hget⟩
    · exact ih hrest ha

theorem Chain.lt (h : Chain next holds m p l) {a : Nat} (ha : a ∈ addresses l) : a < m.size := by
  obtain ⟨x, hx⟩ := h.live ha
  exact Heap.lt_of_get hx

/-- There is one list at a pointer. -/
theorem Chain.unique (hsame : ∀ x v w, holds x v → holds x w → v = w) {l' : List (Nat × β)}
    (h : Chain next holds m p l) (h' : Chain next holds m p l') : l = l' := by
  induction l generalizing p l' with
  | nil =>
    cases l' with
    | nil => rfl
    | cons e' l' => exact nomatch Eq.trans (Eq.symm h) h'.1
  | cons e l ih =>
    obtain ⟨hp, x, hget, hx, hrest⟩ := h
    cases l' with
    | nil => exact nomatch Eq.trans (Eq.symm hp) h'
    | cons e' l' =>
      obtain ⟨hp', x', hget', hx', hrest'⟩ := h'
      have hfirst : e.1 = e'.1 := Option.some.inj (hp.symm.trans hp')
      rw [← hfirst] at hget'
      obtain rfl := Option.some.inj (hget.symm.trans hget')
      rw [ih hrest hrest', Prod.ext hfirst (hsame x _ _ hx hx')]

/-- Storing into the `next` field of the last block appends to the list. -/
theorem Chain.snoc {last a : Nat} {v w : β} {link : α → α} {y : α}
    (h : Chain next holds m p (l ++ [(last, v)])) (hnodup : (addresses (l ++ [(last, v)])).Nodup)
    (hset : m'.get last = (m.get last).map link) (hlink : ∀ x, next (link x) = some a)
    (hkeep : ∀ x, holds x v → holds (link x) v) (hnew : m'.get a = some y) (hw : holds y w)
    (hend : next y = none) (hsame : ∀ b ∈ addresses l, m'.get b = m.get b) :
    Chain next holds m' p (l ++ [(last, v), (a, w)]) := by
  induction l generalizing p with
  | nil =>
    obtain ⟨hp, x, hx, hv, -⟩ := h
    refine ⟨hp, link x, ?_, hkeep x hv, hlink x, y, hnew, hw, hend⟩
    rw [hset, hx]
    rfl
  | cons e l ih =>
    obtain ⟨hp, x, hx, hv, hrest⟩ := h
    refine ⟨hp, x, ?_, hv, ih hrest (List.nodup_cons.mp hnodup).2 fun b hb =>
      hsame b (List.mem_cons_of_mem _ hb)⟩
    rw [hsame e.1 (by simp)]
    exact hx

end Chain

end Lib
