import IcecastCommon.Avl.Word
import IcecastCommon.Lib.Zipper
import Mathlib.Tactic.SplitIfs

/-!
# The trees that the memory holds

A node is seen here as its address, its key and its word. `single` and `double` are the
rotations on such trees, with the ranks and balance factors that the code leaves.
-/

namespace Avl

open Lib

variable {κ ω : Type}

structure Item (κ ω : Type) where
  addr : Nat
  key : κ
  word : ω

section Items

variable [RankBalance ω]

def Item.balance (i : Item κ ω) : Int := AVL_GET_BALANCE i.word
def Item.rank (i : Item κ ω) : Int := AVL_GET_RANK i.word
def Item.setBalance (i : Item κ ω) (b : Int) : Item κ ω :=
  { i with word := AVL_SET_BALANCE i.word b }
def Item.setRank (i : Item κ ω) (r : Int) : Item κ ω := { i with word := AVL_SET_RANK i.word r }

@[simp] theorem Item.setBalance_addr (i : Item κ ω) (b : Int) : (i.setBalance b).addr = i.addr :=
  rfl
@[simp] theorem Item.setBalance_key (i : Item κ ω) (b : Int) : (i.setBalance b).key = i.key := rfl
@[simp] theorem Item.setRank_addr (i : Item κ ω) (r : Int) : (i.setRank r).addr = i.addr := rfl
@[simp] theorem Item.setRank_key (i : Item κ ω) (r : Int) : (i.setRank r).key = i.key := rfl

variable [LawfulRankBalance ω]

@[simp] theorem Item.setRank_balance (i : Item κ ω) (r : Int) : (i.setRank r).balance = i.balance :=
  LawfulRankBalance.balance_set_rank i.word r

theorem Item.setBalance_balance (i : Item κ ω) {b : Int} (h : -1 ≤ b) (h' : b ≤ 1) :
    (i.setBalance b).balance = b :=
  LawfulRankBalance.balance_set_balance i.word b h h'

theorem Item.setBalance_rank (i : Item κ ω) {b : Int} (h : -1 ≤ b) (h' : b ≤ 1) :
    (i.setBalance b).rank = i.rank :=
  LawfulRankBalance.rank_set_balance i.word b h h'

theorem Item.setRank_rank (i : Item κ ω) {r : Int} (hi : 0 ≤ i.rank) (h : 0 ≤ r) (h' : r < 2 ^ 30) :
    (i.setRank r).rank = r :=
  LawfulRankBalance.rank_set_rank i.word r hi h h'

end Items

/-- The pointer to a tree. -/
def ptr : BinaryTree (Item κ ω) → Ptr
  | .nil => none
  | .node i _ _ => some i.addr

/-- What a tree says apart from its shape and words. -/
def labels (t : BinaryTree (Item κ ω)) : List (Nat × κ) := (inorder t).map fun i => (i.addr, i.key)

theorem ptr_node (i : Item κ ω) (l r : BinaryTree (Item κ ω)) : ptr (.node i l r) = some i.addr :=
  rfl

@[simp] theorem ptr_bin (d : Side) (i : Item κ ω) (x y : BinaryTree (Item κ ω)) :
    ptr (bin d i x y) = some i.addr := by
  cases d <;> rfl

theorem labels_bin (d : Side) (i : Item κ ω) (x y : BinaryTree (Item κ ω)) :
    labels (bin d i x y) = match d with
      | .left => labels x ++ (i.addr, i.key) :: labels y
      | .right => labels y ++ (i.addr, i.key) :: labels x := by
  cases d <;> simp [labels, bin]

theorem labels_plug (c : List (Frame (Item κ ω))) (t : BinaryTree (Item κ ω)) :
    labels (plug c t) = (before c).map (fun i => (i.addr, i.key)) ++ labels t ++
      (after c).map (fun i => (i.addr, i.key)) := by
  simp only [labels, inorder_plug, List.map_append]

theorem labels_plug_map (g : Side → Item κ ω → Item κ ω)
    (hg : ∀ d i, (g d i).addr = i.addr ∧ (g d i).key = i.key) (c : List (Frame (Item κ ω)))
    (t : BinaryTree (Item κ ω)) : labels (plug (c.map (Frame.map g)) t) = labels (plug c t) := by
  have hv : ∀ d (i : Item κ ω), ((g d i).addr, (g d i).key) = (i.addr, i.key) := by
    intro d i
    rw [(hg d i).1, (hg d i).2]
  rw [labels_plug, labels_plug, map_before (fun i : Item κ ω => (i.addr, i.key)) g hv,
    map_after (fun i : Item κ ω => (i.addr, i.key)) g hv]

theorem labels_plug_congr (c : List (Frame (Item κ ω))) (t t' : BinaryTree (Item κ ω))
    (h : labels t = labels t') : labels (plug c t) = labels (plug c t') := by
  rw [labels_plug, labels_plug, h]

theorem labels_length (t : BinaryTree (Item κ ω)) : (labels t).length = t.numNodes := by
  rw [labels, List.length_map, inorder_length]

theorem addrs_of_labels (t : BinaryTree (Item κ ω)) :
    (inorder t).map (·.addr) = (labels t).map Prod.fst := by
  simp [labels, Function.comp_def]

/-- The keys in order. -/
def keys (t : BinaryTree (Item κ ω)) : List κ := (inorder t).map (·.key)

@[simp] theorem keys_nil : keys (.nil : BinaryTree (Item κ ω)) = [] := rfl

@[simp] theorem keys_node (i : Item κ ω) (l r : BinaryTree (Item κ ω)) :
    keys (.node i l r) = keys l ++ i.key :: keys r := by
  simp [keys]

theorem keys_of_labels (t : BinaryTree (Item κ ω)) : keys t = (labels t).map Prod.snd := by
  simp [keys, labels, Function.comp_def]

theorem keys_length (t : BinaryTree (Item κ ω)) : (keys t).length = t.numNodes := by
  rw [keys, List.length_map, inorder_length]

theorem keys_plug (c : List (Frame (Item κ ω))) (t : BinaryTree (Item κ ω)) :
    keys (plug c t) = (before c).map (·.key) ++ keys t ++ (after c).map (·.key) := by
  simp only [keys, inorder_plug, List.map_append]

theorem keys_plug_map (g : Side → Item κ ω → Item κ ω) (hg : ∀ d i, (g d i).key = i.key)
    (c : List (Frame (Item κ ω))) (t : BinaryTree (Item κ ω)) :
    keys (plug (c.map (Frame.map g)) t) = keys (plug c t) := by
  rw [keys_plug, keys_plug, map_before (fun i : Item κ ω => i.key) g hg,
    map_after (fun i : Item κ ω => i.key) g hg]

/-! ## The invariants -/

section Invariants

variable [RankBalance ω]

/-- The stored balance factor is the difference of the heights, and at most one. -/
def BalancedAt (i : Item κ ω) (l r : BinaryTree (Item κ ω)) : Prop :=
  i.balance = (r.height : Int) - l.height ∧ -1 ≤ i.balance ∧ i.balance ≤ 1

def Balanced (t : BinaryTree (Item κ ω)) : Prop := Everywhere BalancedAt t

/-- The stored rank is the place of the node in its own subtree, from one. -/
def RankedAt (i : Item κ ω) (l _r : BinaryTree (Item κ ω)) : Prop :=
  i.rank = (l.numNodes : Int) + 1

def Ranked (t : BinaryTree (Item κ ω)) : Prop := Everywhere RankedAt t

/-- The ranks along the right edge, added up. When no rank is too high, this is the
number of nodes. -/
def weight : BinaryTree (Item κ ω) → Int
  | .nil => 0
  | .node i _ r => i.rank + weight r

/-- The stored rank is higher than what the ranks to the left account for. -/
def SpacedAt (i : Item κ ω) (l _r : BinaryTree (Item κ ω)) : Prop := weight l < i.rank

def Spaced (t : BinaryTree (Item κ ω)) : Prop := Everywhere SpacedAt t

theorem balanced_bin (d : Side) (i : Item κ ω) (x y : BinaryTree (Item κ ω)) :
    Balanced (bin d i x y) ↔
      (i.balance = d.sign * ((x.height : Int) - y.height) ∧ -1 ≤ i.balance ∧ i.balance ≤ 1) ∧
        Balanced x ∧ Balanced y := by
  cases d
  · simp only [Balanced, bin, everywhere_node, BalancedAt, Side.sign]
    rw [show ((-1 : Int) * ((x.height : Int) - y.height)) = (y.height : Int) - x.height by omega]
  · simp only [Balanced, bin, everywhere_node, BalancedAt, Side.sign, one_mul]
    tauto

theorem weight_bin (d : Side) (i : Item κ ω) (x y : BinaryTree (Item κ ω)) :
    weight (bin d i x y) = i.rank + weight (match d with | .left => y | .right => x) := by
  cases d <;> rfl

theorem spaced_bin (d : Side) (i : Item κ ω) (x y : BinaryTree (Item κ ω)) :
    Spaced (bin d i x y) ↔
      weight (match d with | .left => x | .right => y) < i.rank ∧ Spaced x ∧ Spaced y := by
  cases d
  · simp only [Spaced, bin, everywhere_node, SpacedAt]
  · simp only [Spaced, bin, everywhere_node, SpacedAt]
    tauto

theorem Spaced.numNodes_le {t : BinaryTree (Item κ ω)} (h : Spaced t) :
    (t.numNodes : Int) ≤ weight t := by
  induction t with
  | nil => simp [weight]
  | node i l r ihl ihr =>
    obtain ⟨hi, hl, hr⟩ := h
    have hle := ihl hl
    have hre := ihr hr
    unfold SpacedAt at hi
    rw [weight, BinaryTree.numNodes]
    omega

theorem Spaced.weight_nonneg {t : BinaryTree (Item κ ω)} (h : Spaced t) : 0 ≤ weight t :=
  le_trans (Int.natCast_nonneg _) h.numNodes_le

theorem ranked_iff (t : BinaryTree (Item κ ω)) : Ranked t ↔ Spaced t ∧ weight t = t.numNodes := by
  induction t with
  | nil => simp [Ranked, Spaced, weight]
  | node i l r ihl ihr =>
    simp only [Ranked, Spaced, everywhere_node, RankedAt, SpacedAt, weight,
      BinaryTree.numNodes] at ihl ihr ⊢
    rw [ihl, ihr]
    constructor
    · rintro ⟨hi, ⟨hl, hwl⟩, hr, hwr⟩
      exact ⟨⟨by omega, hl, hr⟩, by omega⟩
    · rintro ⟨⟨hi, hl, hr⟩, hw⟩
      have hle := Spaced.numNodes_le hl
      have hre := Spaced.numNodes_le hr
      exact ⟨by omega, ⟨hl, by omega⟩, hr, by omega⟩

theorem balanced_fill (f : Frame (Item κ ω)) (t : BinaryTree (Item κ ω)) :
    Balanced (f.fill t) ↔
      (f.value.balance = f.side.sign * ((t.height : Int) - f.sibling.height) ∧
        -1 ≤ f.value.balance ∧ f.value.balance ≤ 1) ∧ Balanced t ∧ Balanced f.sibling := by
  rw [fill_eq_bin, balanced_bin]

theorem labels_set_balance (d : Side) (p : Item κ ω) (x y : BinaryTree (Item κ ω)) (b : Int) :
    labels (bin d (p.setBalance b) x y) = labels (bin d p x y) := by
  rw [labels_bin, labels_bin, Item.setBalance_addr, Item.setBalance_key]

theorem spaced_set_balance [LawfulRankBalance ω] {d : Side} {p : Item κ ω}
    {x y : BinaryTree (Item κ ω)} {b : Int} (hb : -1 ≤ b) (hb' : b ≤ 1) (h : Spaced (bin d p x y)) :
    Spaced (bin d (p.setBalance b) x y) ∧
      weight (bin d (p.setBalance b) x y) = weight (bin d p x y) := by
  rw [spaced_bin] at h ⊢
  rw [weight_bin, weight_bin, Item.setBalance_rank p hb hb']
  exact ⟨h, rfl⟩

theorem above_balanced_map (g : Side → Item κ ω → Item κ ω)
    (hg : ∀ d i, (g d i).balance = i.balance) (c : List (Frame (Item κ ω)))
    (t t' : BinaryTree (Item κ ω)) (h : t.height = t'.height)
    (hc : Above BalancedAt c t) : Above BalancedAt (c.map (Frame.map g)) t' := by
  refine above_map (μ := BinaryTree.height) g ?_ ?_ c t t' h hc
  · intro d a l r l' r' hl hr hP
    unfold BalancedAt at hP ⊢
    rw [hg, ← hl, ← hr]
    exact hP
  · intro f t t' ht
    rw [height_fill, height_fill, ht, Frame.map_sibling]

theorem weight_fill (f : Frame (Item κ ω)) (t : BinaryTree (Item κ ω)) :
    weight (f.fill t) = f.value.rank +
      weight (match f.side with | .left => f.sibling | .right => t) := by
  rw [fill_eq_bin, weight_bin]

theorem spaced_fill (f : Frame (Item κ ω)) (t : BinaryTree (Item κ ω)) :
    Spaced (f.fill t) ↔
      weight (match f.side with | .left => t | .right => f.sibling) < f.value.rank ∧ Spaced t ∧
      Spaced f.sibling := by
  rw [fill_eq_bin, spaced_bin]

theorem weight_fill_map (g : Side → Item κ ω → Item κ ω) (hg : ∀ d i, (g d i).rank = i.rank)
    (f : Frame (Item κ ω)) (t t' : BinaryTree (Item κ ω)) (h : weight t = weight t') :
    weight (f.fill t) = weight ((f.map g).fill t') := by
  rw [weight_fill, weight_fill, Frame.map_value, Frame.map_sibling, Frame.map_side, hg]
  cases f.side <;> simp [h]

theorem above_spaced_map (g : Side → Item κ ω → Item κ ω) (hg : ∀ d i, (g d i).rank = i.rank)
    (c : List (Frame (Item κ ω))) (t t' : BinaryTree (Item κ ω)) (h : weight t = weight t')
    (hc : Above SpacedAt c t) : Above SpacedAt (c.map (Frame.map g)) t' := by
  refine above_map (μ := weight) g ?_ (weight_fill_map g hg) c t t' h hc
  intro d a l r l' r' hl _ hP
  unfold SpacedAt at hP ⊢
  rw [hg, ← hl]
  exact hP

theorem weight_plug_map (g : Side → Item κ ω → Item κ ω) (hg : ∀ d i, (g d i).rank = i.rank)
    (c : List (Frame (Item κ ω))) (t t' : BinaryTree (Item κ ω)) (h : weight t = weight t') :
    weight (plug (c.map (Frame.map g)) t') = weight (plug c t) := by
  induction c generalizing t t' with
  | nil => exact h.symm
  | cons f c ih => exact ih (f.fill t) ((f.map g).fill t') (weight_fill_map g hg f t t' h)

theorem above_balanced_congr (c : List (Frame (Item κ ω))) (t t' : BinaryTree (Item κ ω))
    (h : t.height = t'.height) (hc : Above BalancedAt c t) : Above BalancedAt c t' := by
  rw [← map_id_frames c]
  exact above_balanced_map _ (fun _ _ => rfl) c t t' h hc

theorem spaced_plug_congr (c : List (Frame (Item κ ω))) (t t' : BinaryTree (Item κ ω))
    (h : weight t = weight t') (ht' : Spaced t') (hc : Above SpacedAt c t) :
    Spaced (plug c t') ∧ weight (plug c t') = weight (plug c t) := by
  have hmap := map_id_frames c
  refine ⟨(everywhere_plug _ _).mpr ⟨ht', ?_⟩, ?_⟩
  · rw [← hmap]
    exact above_spaced_map _ (fun _ _ => rfl) c t t' h hc
  · have hw := weight_plug_map (fun _ i => i) (fun _ _ => rfl) c t t' h
    rwa [hmap] at hw

theorem spaced_plug_map (g : Side → Item κ ω → Item κ ω) (hg : ∀ d i, (g d i).rank = i.rank)
    (c : List (Frame (Item κ ω))) (t : BinaryTree (Item κ ω)) (h : Spaced (plug c t)) :
    Spaced (plug (c.map (Frame.map g)) t) ∧
      weight (plug (c.map (Frame.map g)) t) = weight (plug c t) := by
  obtain ⟨ht, hc⟩ := (everywhere_plug _ _).mp h
  exact ⟨(everywhere_plug _ _).mpr ⟨ht, above_spaced_map g hg c t t rfl hc⟩,
    weight_plug_map g hg c t t rfl⟩

theorem weight_le_plug (c : List (Frame (Item κ ω))) (t : BinaryTree (Item κ ω))
    (h : Spaced (plug c t)) :
    weight t ≤ weight (plug c t) := by
  induction c generalizing t with
  | nil => exact le_rfl
  | cons f c ih =>
    have hle := ih (f.fill t) h
    obtain ⟨ht, ⟨hf, hs, -⟩⟩ := (everywhere_plug (f :: c) t).mp h
    have hpos := Spaced.weight_nonneg hs
    rw [weight_fill] at hle
    rw [plug_cons]
    cases hside : f.side <;> rw [hside] at hf hle <;> unfold SpacedAt at hf <;>
      dsimp only at hf hle <;> omega

end Invariants

/-! ## Rotations -/

section Rotations

variable [RankBalance ω]

/-- The node that goes down in a single rotation. -/
def singleOuter (d : Side) (p q : Item κ ω) : Item κ ω :=
  match d with
  | .left => p.setRank (p.rank - q.rank)
  | .right => p

/-- The node that comes up in a single rotation. -/
def singleInner (d : Side) (p q : Item κ ω) : Item κ ω :=
  match d with
  | .left => q
  | .right => q.setRank (q.rank + p.rank)

/-- `bin d p (bin d q a b) c` with `q` on top. `bp` and `bq` are the new balance factors. -/
def single (d : Side) (p q : Item κ ω) (bp bq : Int) (a b c : BinaryTree (Item κ ω)) :
    BinaryTree (Item κ ω) :=
  bin d ((singleInner d p q).setBalance bq) a (bin d ((singleOuter d p q).setBalance bp) b c)

/-- The node that comes up in a double rotation. -/
def doubleTop (d : Side) (p q r : Item κ ω) : Item κ ω :=
  match d with
  | .left => r.setRank (r.rank + q.rank)
  | .right => r.setRank (r.rank + p.rank)

/-- The upper of the two nodes that go down in a double rotation. -/
def doubleOuter (d : Side) (p q r : Item κ ω) : Item κ ω :=
  match d with
  | .left => p.setRank (p.rank - (r.setRank (r.rank + q.rank)).rank)
  | .right => p

/-- The lower of the two nodes that go down in a double rotation. -/
def doubleInner (d : Side) (q r : Item κ ω) : Item κ ω :=
  match d with
  | .left => q
  | .right => q.setRank (q.rank - r.rank)

/-- The balance factor that `p` gets in a double rotation, from that of `r`. -/
def outerBalance (d : Side) (b : Int) : Int := if b = d.sign then -d.sign else 0

/-- The balance factor that `q` gets in a double rotation, from that of `r`. -/
def innerBalance (d : Side) (b : Int) : Int := if b = -d.sign then d.sign else 0

/-- `bin d p (bin d q a (bin d r b e)) c` with `r` on top. -/
def double (d : Side) (p q r : Item κ ω) (a b e c : BinaryTree (Item κ ω)) :
    BinaryTree (Item κ ω) :=
  bin d ((doubleTop d p q r).setBalance 0)
    (bin d ((doubleInner d q r).setBalance (innerBalance d r.balance)) a b)
    (bin d ((doubleOuter d p q r).setBalance (outerBalance d r.balance)) e c)

variable (d : Side) (p q r : Item κ ω) (bp bq : Int) (a b e c : BinaryTree (Item κ ω))

@[simp] theorem singleOuter_addr : (singleOuter d p q).addr = p.addr := by cases d <;> rfl
@[simp] theorem singleInner_addr : (singleInner d p q).addr = q.addr := by cases d <;> rfl
@[simp] theorem doubleTop_addr : (doubleTop d p q r).addr = r.addr := by cases d <;> rfl
@[simp] theorem doubleOuter_addr : (doubleOuter d p q r).addr = p.addr := by cases d <;> rfl
@[simp] theorem doubleInner_addr : (doubleInner d q r).addr = q.addr := by cases d <;> rfl

theorem single_labels :
    labels (single d p q bp bq a b c) = labels (bin d p (bin d q a b) c) := by
  cases d <;> simp [single, singleInner, singleOuter, labels_bin]

/-- In a double rotation the middle subtree hangs with its own side outwards. -/
theorem double_labels :
    labels (double d p q r a b e c) = labels (bin d p (bin d q a (bin d r b e)) c) := by
  cases d <;> simp [double, doubleTop, doubleInner, doubleOuter, labels_bin]

theorem single_height :
    (single d p q bp bq a b c).height = max a.height (max b.height c.height + 1) + 1 := by
  simp only [single, bin_height]

theorem double_height :
    (double d p q r a b e c).height =
      max (max a.height b.height + 1) (max e.height c.height + 1) + 1 := by
  simp only [double, bin_height]

variable [LawfulRankBalance ω]

theorem single_balanced (ha : Balanced a) (hb : Balanced b) (hc : Balanced c)
    (hp : bp = d.sign * ((b.height : Int) - c.height)) (hp1 : -1 ≤ bp) (hp2 : bp ≤ 1)
    (hq : bq = d.sign * ((a.height : Int) - (max b.height c.height + 1 : Nat)))
    (hq1 : -1 ≤ bq) (hq2 : bq ≤ 1) : Balanced (single d p q bp bq a b c) := by
  simp only [single, balanced_bin, bin_height, Item.setBalance_balance _ hp1 hp2,
    Item.setBalance_balance _ hq1 hq2]
  exact ⟨⟨hq, hq1, hq2⟩, ha, ⟨hp, hp1, hp2⟩, hb, hc⟩

theorem outerBalance_bounds (x : Int) : -1 ≤ outerBalance d x ∧ outerBalance d x ≤ 1 := by
  cases d <;> simp only [outerBalance, Side.sign] <;> split_ifs <;> omega

theorem innerBalance_bounds (x : Int) : -1 ≤ innerBalance d x ∧ innerBalance d x ≤ 1 := by
  cases d <;> simp only [innerBalance, Side.sign] <;> split_ifs <;> omega

theorem double_balanced (ha : Balanced a) (hr : Balanced (bin d r b e)) (hc : Balanced c)
    (h : a.height = c.height) (h' : (bin d r b e).height = c.height + 1) :
    Balanced (double d p q r a b e c) := by
  obtain ⟨⟨hr1, hr2, hr3⟩, hb, he⟩ := (balanced_bin d r b e).mp hr
  obtain ⟨hp1, hp2⟩ := outerBalance_bounds d r.balance
  obtain ⟨hq1, hq2⟩ := innerBalance_bounds d r.balance
  rw [bin_height] at h'
  have hp : outerBalance d r.balance = d.sign * ((e.height : Int) - c.height) := by
    cases d <;> simp only [outerBalance, Side.sign] at hr1 ⊢ <;> split_ifs <;> omega
  have hq : innerBalance d r.balance = d.sign * ((a.height : Int) - b.height) := by
    cases d <;> simp only [innerBalance, Side.sign] at hr1 ⊢ <;> split_ifs <;> omega
  have h0 : (0 : Int) =
      d.sign * ((max a.height b.height + 1 : Nat) - (max e.height c.height + 1 : Nat)) := by
    cases d <;> simp only [Side.sign] at hr1 ⊢ <;> omega
  simp only [double, balanced_bin, bin_height, Item.setBalance_balance _ hp1 hp2,
    Item.setBalance_balance _ hq1 hq2,
    Item.setBalance_balance _ (show (-1 : Int) ≤ 0 by decide) (show (0 : Int) ≤ 1 by decide)]
  exact ⟨⟨h0, by decide, by decide⟩, ⟨⟨hq, hq1, hq2⟩, ha, hb⟩, ⟨hp, hp1, hp2⟩, he, hc⟩

theorem single_spaced (h : Spaced (bin d p (bin d q a b) c))
    (hsize : weight (bin d p (bin d q a b) c) < 2 ^ 30) (hp1 : -1 ≤ bp) (hp2 : bp ≤ 1)
    (hq1 : -1 ≤ bq) (hq2 : bq ≤ 1) :
    Spaced (single d p q bp bq a b c) ∧
      weight (single d p q bp bq a b c) = weight (bin d p (bin d q a b) c) := by
  cases d <;>
    simp only [single, singleInner, singleOuter, spaced_bin, weight_bin,
      Item.setBalance_rank _ hp1 hp2, Item.setBalance_rank _ hq1 hq2] at h hsize ⊢ <;>
    obtain ⟨hp, ⟨hq, ha, hb⟩, hc⟩ := h <;>
    have hna := ha.weight_nonneg <;>
    have hnb := hb.weight_nonneg <;>
    have hnc := hc.weight_nonneg
  · rw [Item.setRank_rank _ (by omega) (by omega) (by omega)]
    exact ⟨⟨hq, ha, by omega, hb, hc⟩, by omega⟩
  · rw [Item.setRank_rank _ (by omega) (by omega) (by omega)]
    exact ⟨⟨by omega, ha, hp, hb, hc⟩, by omega⟩

theorem double_spaced (h : Spaced (bin d p (bin d q a (bin d r b e)) c))
    (hsize : weight (bin d p (bin d q a (bin d r b e)) c) < 2 ^ 30) :
    Spaced (double d p q r a b e c) ∧
      weight (double d p q r a b e c) = weight (bin d p (bin d q a (bin d r b e)) c) := by
  obtain ⟨hp1, hp2⟩ := outerBalance_bounds d r.balance
  obtain ⟨hq1, hq2⟩ := innerBalance_bounds d r.balance
  cases d <;>
    simp only [double, doubleTop, doubleInner, doubleOuter, spaced_bin, weight_bin,
      Item.setBalance_rank _ hp1 hp2, Item.setBalance_rank _ hq1 hq2,
      Item.setBalance_rank _ (show (-1 : Int) ≤ 0 by decide)
        (show (0 : Int) ≤ 1 by decide)] at h hsize ⊢ <;>
    obtain ⟨hp, ⟨hq, ha, hr, hb, he⟩, hc⟩ := h <;>
    have hna := ha.weight_nonneg <;>
    have hnb := hb.weight_nonneg <;>
    have hne := he.weight_nonneg <;>
    have hnc := hc.weight_nonneg
  · have hr' : (r.setRank (r.rank + q.rank)).rank = r.rank + q.rank :=
      Item.setRank_rank _ (by omega) (by omega) (by omega)
    rw [hr', Item.setRank_rank p (by omega) (by omega) (by omega)]
    exact ⟨⟨by omega, ⟨hq, ha, hb⟩, by omega, he, hc⟩, by omega⟩
  · rw [Item.setRank_rank r (by omega) (by omega) (by omega),
      Item.setRank_rank q (by omega) (by omega) (by omega)]
    exact ⟨⟨by omega, ⟨by omega, ha, hb⟩, hp, he, hc⟩, by omega⟩

end Rotations

end Avl
