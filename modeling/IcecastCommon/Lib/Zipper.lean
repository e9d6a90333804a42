import Mathlib.Data.Tree.Basic
import Mathlib.Tactic.Tauto

/-!
# A position in a binary tree

A position is a subtree together with the frames above it, the innermost first. `plug`
puts the tree back together. Properties that hold node by node split in the same way.
-/

namespace Lib

variable {α : Type}

/-- The values from left to right. -/
def inorder : BinaryTree α → List α
  | .nil => []
  | .node a l r => inorder l ++ a :: inorder r

@[simp] theorem inorder_nil : inorder (.nil : BinaryTree α) = [] := rfl

@[simp] theorem inorder_node (a : α) (l r : BinaryTree α) :
    inorder (.node a l r) = inorder l ++ a :: inorder r := rfl

theorem inorder_length (t : BinaryTree α) : (inorder t).length = t.numNodes := by
  induction t with
  | nil => rfl
  | node a l r ihl ihr =>
    simp only [inorder_node, List.length_append, List.length_cons, ihl, ihr, BinaryTree.numNodes]
    omega

inductive Side where
  | left
  | right
deriving DecidableEq, Repr

namespace Side

def sign : Side → Int
  | .left => -1
  | .right => 1

def flip : Side → Side
  | .left => .right
  | .right => .left

@[simp] theorem flip_flip (d : Side) : d.flip.flip = d := by cases d <;> rfl

end Side

/-- The node with `x` on side `d` and `y` on the other. -/
def bin (d : Side) (a : α) (x y : BinaryTree α) : BinaryTree α :=
  match d with
  | .left => .node a x y
  | .right => .node a y x

theorem bin_flip (d : Side) (a : α) (x y : BinaryTree α) : bin d.flip a x y = bin d a y x := by
  cases d <;> rfl

theorem Side.eq_or_flip (d e : Side) : e = d ∨ e = d.flip := by
  cases d <;> cases e <;> simp [Side.flip]

theorem exists_bin (d : Side) (t : BinaryTree α) (h : t ≠ .nil) : ∃ a x y, t = bin d a x y := by
  cases t with
  | nil => exact absurd rfl h
  | node a l r =>
    cases d
    · exact ⟨a, l, r, rfl⟩
    · exact ⟨a, r, l, rfl⟩

@[simp] theorem bin_height (d : Side) (a : α) (x y : BinaryTree α) :
    (bin d a x y).height = max x.height y.height + 1 := by
  cases d <;> simp [bin, Nat.max_comm]

@[simp] theorem bin_numNodes (d : Side) (a : α) (x y : BinaryTree α) :
    (bin d a x y).numNodes = x.numNodes + y.numNodes + 1 := by
  cases d <;> simp [bin, Nat.add_comm]

/-- A node without one of its children: `side` says which one is missing. -/
structure Frame (α : Type) where
  value : α
  side : Side
  sibling : BinaryTree α

def Frame.fill (f : Frame α) (t : BinaryTree α) : BinaryTree α :=
  match f.side with
  | .left => .node f.value t f.sibling
  | .right => .node f.value f.sibling t

theorem fill_eq_bin (f : Frame α) (t : BinaryTree α) :
    f.fill t = bin f.side f.value t f.sibling := by
  cases hs : f.side <;> simp [Frame.fill, hs, bin]

/-- The same frame around another value. -/
def Frame.map (g : Side → α → α) (f : Frame α) : Frame α :=
  { f with value := g f.side f.value }

@[simp] theorem Frame.map_side (g : Side → α → α) (f : Frame α) : (f.map g).side = f.side := rfl
@[simp] theorem Frame.map_sibling (g : Side → α → α) (f : Frame α) :
    (f.map g).sibling = f.sibling := rfl
@[simp] theorem Frame.map_value (g : Side → α → α) (f : Frame α) :
    (f.map g).value = g f.side f.value := rfl

/-- The whole tree, from a subtree and the frames above it. -/
def plug : List (Frame α) → BinaryTree α → BinaryTree α
  | [], t => t
  | f :: c, t => plug c (f.fill t)

@[simp] theorem plug_nil (t : BinaryTree α) : plug [] t = t := rfl
@[simp] theorem plug_cons (f : Frame α) (c : List (Frame α)) (t : BinaryTree α) :
    plug (f :: c) t = plug c (f.fill t) := rfl

theorem plug_append (b c : List (Frame α)) (t : BinaryTree α) :
    plug (b ++ c) t = plug c (plug b t) := by
  induction b generalizing t with
  | nil => rfl
  | cons f b ih => exact ih (f.fill t)

/-! ## The sequence of the values -/

/-- The values to the left of the hole. -/
def before : List (Frame α) → List α
  | [] => []
  | f :: c => match f.side with
    | .left => before c
    | .right => before c ++ (inorder f.sibling ++ [f.value])

/-- The values to the right of the hole. -/
def after : List (Frame α) → List α
  | [] => []
  | f :: c => match f.side with
    | .left => (f.value :: inorder f.sibling) ++ after c
    | .right => after c

theorem inorder_plug (c : List (Frame α)) (t : BinaryTree α) :
    inorder (plug c t) = before c ++ inorder t ++ after c := by
  induction c generalizing t with
  | nil => simp [before, after]
  | cons f c ih =>
    rw [plug_cons, ih]
    cases hs : f.side <;> simp [before, after, Frame.fill, hs]

theorem before_append (b c : List (Frame α)) : before (b ++ c) = before c ++ before b := by
  induction b with
  | nil => simp [before]
  | cons f b ih => cases hs : f.side <;> simp [before, hs, ih]

theorem after_append (b c : List (Frame α)) : after (b ++ c) = after b ++ after c := by
  induction b with
  | nil => simp [after]
  | cons f b ih => cases hs : f.side <;> simp [after, hs, ih]

theorem frame_mem_inorder (c : List (Frame α)) (t : BinaryTree α) :
    ∀ f ∈ c, f.value ∈ inorder (plug c t) := by
  induction c generalizing t with
  | nil => simp
  | cons f c ih =>
    intro g hg
    rcases List.mem_cons.mp hg with rfl | hg
    · rw [plug_cons, inorder_plug]
      cases hs : g.side <;> simp [Frame.fill, hs]
    · exact ih (f.fill t) g hg

/-- Every value of the sequence stands at a position of the tree. -/
theorem exists_position {t : BinaryTree α} {A B : List α} {a : α} (h : inorder t = A ++ a :: B) :
    ∃ c l r, plug c (.node a l r) = t ∧ before c ++ inorder l = A ∧ inorder r ++ after c = B := by
  induction t generalizing A B with
  | nil => simp at h
  | node b x y ihx ihy =>
    rw [inorder_node] at h
    rcases List.append_eq_append_iff.mp h with ⟨A', rfl, hA'⟩ | ⟨B', hx, hB'⟩
    · cases A' with
      | nil =>
        obtain ⟨rfl, rfl⟩ := List.cons.inj hA'
        exact ⟨[], x, y, rfl, by simp [before], by simp [after]⟩
      | cons b' A' =>
        obtain ⟨rfl, hy⟩ := List.cons.inj hA'
        obtain ⟨c, l, r, rfl, rfl, rfl⟩ := ihy hy
        refine ⟨c ++ [⟨b, .right, x⟩], l, r, ?_, ?_, ?_⟩
        · rw [plug_append]
          rfl
        · simp [before_append, before]
        · simp [after_append, after]
    · cases B' with
      | nil =>
        obtain ⟨rfl, rfl⟩ := List.cons.inj hB'
        exact ⟨[], x, y, rfl, by simpa [before] using hx, by simp [after]⟩
      | cons b' B' =>
        obtain ⟨rfl, rfl⟩ := List.cons.inj hB'
        obtain ⟨c, l, r, rfl, rfl, rfl⟩ := ihx hx
        refine ⟨c ++ [⟨b, .left, y⟩], l, r, ?_, ?_, ?_⟩
        · rw [plug_append]
          rfl
        · simp [before_append, before]
        · simp [after_append, after]

/-- A change of the values that a function does not see. -/
theorem map_before {β : Type} (v : α → β) (g : Side → α → α) (hg : ∀ d a, v (g d a) = v a)
    (c : List (Frame α)) : (before (c.map (Frame.map g))).map v = (before c).map v := by
  induction c with
  | nil => rfl
  | cons f c ih => cases hs : f.side <;> simp [before, hs, ih, hg]

theorem map_after {β : Type} (v : α → β) (g : Side → α → α) (hg : ∀ d a, v (g d a) = v a)
    (c : List (Frame α)) : (after (c.map (Frame.map g))).map v = (after c).map v := by
  induction c with
  | nil => rfl
  | cons f c ih => cases hs : f.side <;> simp [after, hs, ih, hg]

/-! ## Properties of every node -/

/-- `P` holds at every node, of its value and its two subtrees. -/
def Everywhere (P : α → BinaryTree α → BinaryTree α → Prop) : BinaryTree α → Prop
  | .nil => True
  | .node a l r => P a l r ∧ Everywhere P l ∧ Everywhere P r

/-- `P` holds at every node of the frames, when `t` stands in the hole. -/
def Above (P : α → BinaryTree α → BinaryTree α → Prop) : List (Frame α) → BinaryTree α → Prop
  | [], _ => True
  | f :: c, t => (match f.side with
      | .left => P f.value t f.sibling
      | .right => P f.value f.sibling t) ∧ Everywhere P f.sibling ∧ Above P c (f.fill t)

variable {P : α → BinaryTree α → BinaryTree α → Prop}

@[simp] theorem everywhere_nil : Everywhere P .nil := trivial

@[simp] theorem everywhere_node (a : α) (l r : BinaryTree α) :
    Everywhere P (.node a l r) ↔ P a l r ∧ Everywhere P l ∧ Everywhere P r := Iff.rfl

theorem everywhere_plug (c : List (Frame α)) (t : BinaryTree α) :
    Everywhere P (plug c t) ↔ Everywhere P t ∧ Above P c t := by
  induction c generalizing t with
  | nil => simp [Above]
  | cons f c ih =>
    rw [plug_cons, ih]
    cases hs : f.side <;> simp only [Above, Frame.fill, hs, everywhere_node] <;> tauto

theorem above_append (b c : List (Frame α)) (t : BinaryTree α) :
    Above P (b ++ c) t ↔ Above P b t ∧ Above P c (plug b t) := by
  induction b generalizing t with
  | nil => simp [Above]
  | cons f b ih =>
    simp only [List.cons_append, Above, ih, plug_cons]
    tauto

/-- A property that sees its subtrees through a measure survives a change below that keeps the
measure, and a change of the values that it does not see. -/
theorem above_map {β : Type} {μ : BinaryTree α → β} (g : Side → α → α)
    (hP : ∀ d a l r l' r', μ l = μ l' → μ r = μ r' → P a l r → P (g d a) l' r')
    (hμ : ∀ (f : Frame α) t t', μ t = μ t' → μ (f.fill t) = μ ((f.map g).fill t'))
    (c : List (Frame α)) (t t' : BinaryTree α) (h : μ t = μ t') (hc : Above P c t) :
    Above P (c.map (Frame.map g)) t' := by
  induction c generalizing t t' with
  | nil => trivial
  | cons f c ih =>
    obtain ⟨h1, h2, h3⟩ := hc
    refine ⟨?_, h2, ih _ _ (hμ f t t' h) h3⟩
    cases hs : f.side
    · simp only [hs] at h1
      simp only [Frame.map_side, hs]
      exact hP _ _ _ _ _ _ h rfl h1
    · simp only [hs] at h1
      simp only [Frame.map_side, hs]
      exact hP _ _ _ _ _ _ rfl h h1

theorem map_id_frames (c : List (Frame α)) : c.map (Frame.map fun _ a => a) = c :=
  List.map_id c

/-- Changed values above the hole make another tree, unless no value changed. -/
theorem plug_map_inj (g : Side → α → α) (c : List (Frame α)) {t t' : BinaryTree α}
    (h : plug (c.map (Frame.map g)) t = plug c t') :
    t = t' ∧ ∀ f ∈ c, g f.side f.value = f.value := by
  induction c generalizing t t' with
  | nil => exact ⟨h, by simp⟩
  | cons f c ih =>
    obtain ⟨hfill, hc⟩ := ih h
    rw [List.forall_mem_cons]
    cases hs : f.side
    · simp only [Frame.fill, Frame.map_side, Frame.map_value, Frame.map_sibling, hs,
        BinaryTree.node.injEq] at hfill
      exact ⟨hfill.2.1, hfill.1, hc⟩
    · simp only [Frame.fill, Frame.map_side, Frame.map_value, Frame.map_sibling, hs,
        BinaryTree.node.injEq] at hfill
      exact ⟨hfill.2.2, hfill.1, hc⟩

theorem plug_inj (c : List (Frame α)) {t t' : BinaryTree α} (h : plug c t = plug c t') :
    t = t' := by
  refine (plug_map_inj (fun _ a => a) c ?_).1
  rw [map_id_frames]
  exact h

theorem height_fill (f : Frame α) (t : BinaryTree α) :
    (f.fill t).height = max t.height f.sibling.height + 1 := by
  rw [fill_eq_bin, bin_height]

theorem numNodes_fill (f : Frame α) (t : BinaryTree α) :
    (f.fill t).numNodes = t.numNodes + f.sibling.numNodes + 1 := by
  rw [fill_eq_bin, bin_numNodes]

theorem numNodes_le_plug (c : List (Frame α)) (t : BinaryTree α) :
    t.numNodes ≤ (plug c t).numNodes := by
  induction c generalizing t with
  | nil => exact Nat.le_refl _
  | cons f c ih =>
    have := ih (f.fill t)
    rw [numNodes_fill] at this
    rw [plug_cons]
    omega

/-- The frames contribute the same number of nodes to every hole. -/
theorem numNodes_plug (c : List (Frame α)) (t t' : BinaryTree α) :
    (plug c t).numNodes + t'.numNodes = (plug c t').numNodes + t.numNodes := by
  induction c generalizing t t' with
  | nil => exact Nat.add_comm _ _
  | cons f c ih =>
    have := ih (f.fill t) (f.fill t')
    rw [numNodes_fill, numNodes_fill] at this
    rw [plug_cons, plug_cons]
    omega

theorem length_le_numNodes (c : List (Frame α)) (t : BinaryTree α) :
    c.length ≤ (plug c t).numNodes := by
  induction c generalizing t with
  | nil => exact Nat.zero_le _
  | cons f c ih =>
    have h := ih .nil
    have hcount := numNodes_plug c (f.fill t) .nil
    rw [numNodes_fill] at hcount
    simp only [BinaryTree.numNodes, List.length_cons, plug_cons] at hcount ⊢
    omega

theorem after_eq_nil {c : List (Frame α)} (h : ∀ f ∈ c, f.side = .right) : after c = [] := by
  induction c with
  | nil => rfl
  | cons f c ih =>
    rw [List.forall_mem_cons] at h
    simp only [after, h.1]
    exact ih h.2

theorem height_plug (c : List (Frame α)) (t t' : BinaryTree α) (h : t.height = t'.height) :
    (plug c t).height = (plug c t').height := by
  induction c generalizing t t' with
  | nil => exact h
  | cons f c ih => exact ih _ _ (by rw [height_fill, height_fill, h])

/-- A measure that sees only the shape. -/
theorem plug_map_congr {μ : BinaryTree α → Nat} (g : Side → α → α)
    (hμ : ∀ (f : Frame α) t t', μ t = μ t' → μ ((f.map g).fill t) = μ (f.fill t'))
    (c : List (Frame α)) (t t' : BinaryTree α) (h : μ t = μ t') :
    μ (plug (c.map (Frame.map g)) t) = μ (plug c t') := by
  induction c generalizing t t' with
  | nil => exact h
  | cons f c ih => exact ih _ _ (hμ f t t' h)

theorem height_plug_map (g : Side → α → α) (c : List (Frame α)) (t t' : BinaryTree α)
    (h : t.height = t'.height) : (plug (c.map (Frame.map g)) t).height = (plug c t').height :=
  plug_map_congr g (fun f t t' ht => by rw [height_fill, height_fill, Frame.map_sibling, ht]) c t t'
    h

theorem numNodes_plug_map (g : Side → α → α) (c : List (Frame α)) (t t' : BinaryTree α)
    (h : t.numNodes = t'.numNodes) :
    (plug (c.map (Frame.map g)) t).numNodes = (plug c t').numNodes :=
  plug_map_congr g (fun f t t' ht => by rw [numNodes_fill, numNodes_fill, Frame.map_sibling, ht]) c
    t t' h

end Lib
