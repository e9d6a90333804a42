import IcecastCommon.Lib.Enclosure
import IcecastCommon.Avl.Failure

/-!
# The cells of others

The memory of a tree is one that the whole process allocates from. `avl_insert` and `avl_delete`
reach the cells of the tree only, whatever the tree looks like: all they follow are its own
pointers.
-/

namespace Avl

open Lib

variable {κ ω : Type} [RankBalance ω]

/-- The pointers in a node. -/
def links (n : avl_node κ ω) : List Ptr := [n.left, n.right, n.parent]

/-- The tree has `k` cells in the memory, next to those of `old`. -/
abbrev Keeps (old : Memory (avl_node κ ω)) (k : Nat) : Memory (avl_node κ ω) → Prop :=
  Encloses links old k

section Access

variable {old m : Memory (avl_node κ ω)} {k : Nat} {p q : Ptr}

omit [RankBalance ω] in
theorem apart_links {n : avl_node κ ω} :
    (∀ q ∈ links n, Apart old q) ↔ Apart old n.left ∧ Apart old n.right ∧ Apart old n.parent := by
  simp [links]

omit [RankBalance ω] in
theorem Keeps.load {α : Type} {f : avl_node κ ω → C α} {Q : α → Prop} (h : Keeps old k m)
    (hp : Apart old p)
    (hf : ∀ n, Apart old n.left → Apart old n.right → Apart old n.parent → Yields (f n) Q) :
    Yields (m.load p >>= f) Q :=
  Encloses.load h hp fun n hn => by
    obtain ⟨hl, hr, hpar⟩ := apart_links.mp hn
    exact hf n hl hr hpar

omit [RankBalance ω] in
theorem Keeps.set_child (h : Keeps old k m) (hp : Apart old p) (hq : Apart old q) (d : Side) :
    Yields (set_child d m p q) (Keeps old k) := by
  cases d
  · exact h.update hp fun n hn => apart_links.mpr ⟨hq, (apart_links.mp hn).2⟩
  · exact h.update hp fun n hn =>
      apart_links.mpr ⟨(apart_links.mp hn).1, hq, (apart_links.mp hn).2.2⟩

omit [RankBalance ω] in
theorem Keeps.set_parent (h : Keeps old k m) (hp : Apart old p) (hq : Apart old q) :
    Yields (set_parent m p q) (Keeps old k) :=
  h.update hp fun _ hn => apart_links.mpr ⟨(apart_links.mp hn).1, (apart_links.mp hn).2.1, hq⟩

omit [RankBalance ω] in
theorem Keeps.set_parent_of (h : Keeps old k m) (hp : Apart old p) (hq : Apart old q) :
    Yields (set_parent_of m p q) (Keeps old k) := by
  cases q with
  | none => exact yields_ok h
  | some a => exact h.set_parent hq hp

omit [RankBalance ω] in
theorem Keeps.set_key (h : Keeps old k m) (hp : Apart old p) (key : κ) :
    Yields (set_key m p key) (Keeps old k) :=
  h.update hp fun _ hn => hn

theorem Keeps.set_rank (h : Keeps old k m) (hp : Apart old p) (r : Int) :
    Yields (set_rank m p r) (Keeps old k) :=
  h.update hp fun _ hn => hn

theorem Keeps.set_balance (h : Keeps old k m) (hp : Apart old p) (b : Int) :
    Yields (set_balance m p b) (Keeps old k) :=
  h.update hp fun _ hn => hn

omit [RankBalance ω] in
theorem Keeps.child {n : avl_node κ ω} (hl : Apart old n.left) (hr : Apart old n.right) (d : Side) :
    Apart old (Avl.child d n) := by
  cases d
  · exact hl
  · exact hr

theorem Keeps.avl_node_new (h : Keeps old k m) (key : κ) (hp : Apart old p) :
    (∃ m', avl_node_new m key p = (none, m') ∧ Keeps old k m') ∨
      ∃ a m', avl_node_new m key p = (some a, m') ∧ Apart old (some a) ∧ Keeps old (k + 1) m' := by
  have hlinks :
    ∀ q ∈ links (⟨key, none, none, p,
    AVL_SET_RANK (AVL_SET_BALANCE RankBalance.zero 0) 1⟩ : avl_node κ ω),
      Apart old q := apart_links.mpr ⟨apart_none old, apart_none old, hp⟩
  rcases h.malloc hlinks with ⟨hnone, h1⟩ | ⟨a, hsome, ha, h1⟩
  · exact .inl ⟨_, Prod.ext hnone rfl, h1⟩
  · refine .inr ⟨a, _, Prod.ext hsome rfl, ?_, h1⟩
    rintro b ⟨⟩
    exact ha

/-! ## Rotations -/

omit [RankBalance ω] in
theorem Keeps.pivot (h : Keeps old k m) (hp : Apart old p) (hq : Apart old q) (d : Side) :
    Yields (pivot d m p q) (Keeps old k) := by
  refine h.load hq fun n hl hr _ => ?_
  have hinner := Keeps.child hl hr d.flip
  refine (h.set_child hp hinner d).bind fun m1 h1 => ?_
  refine (h1.set_parent_of hp hinner).bind fun m2 h2 => ?_
  exact (h2.set_child hq hp d.flip).bind fun m3 h3 => h3.set_parent hp hq

theorem Keeps.single_rotate (h : Keeps old k m) (hp : Apart old p) (hq : Apart old q) (d : Side) :
    Yields (single_rotate d m p q) (Keeps old k) := by
  refine (h.pivot hp hq d).bind fun m1 h1 => ?_
  cases d
  · exact yields_bind fun x _ => yields_bind fun y _ => h1.set_rank hp _
  · exact yields_bind fun x _ => yields_bind fun y _ => h1.set_rank hq _

theorem Keeps.double_rotate {r : Ptr} (h : Keeps old k m) (hp : Apart old p) (hq : Apart old q)
    (hr : Apart old r) (d : Side) :
    Yields (double_rotate d m p q r) (Keeps old k) := by
  refine (h.pivot hq hr d.flip).bind fun m1 h1 => (h1.pivot hp hr d).bind fun m2 h2 => ?_
  cases d
  · refine yields_bind fun x _ => yields_bind fun y _ => (h2.set_rank hr _).bind fun m3 h3 => ?_
    exact yields_bind fun x _ => yields_bind fun y _ => h3.set_rank hp _
  · refine yields_bind fun x _ => yields_bind fun y _ => (h2.set_rank hq _).bind fun m3 h3 => ?_
    exact yields_bind fun x _ => yields_bind fun y _ => h3.set_rank hr _

theorem Keeps.single_rotate_right (h : Keeps old k m) (hp : Apart old p) (hq : Apart old q) :
    Yields (single_rotate_right m p q) (Keeps old k) := by
  rw [single_rotate_right_eq]
  exact h.single_rotate hp hq .left

theorem Keeps.single_rotate_left (h : Keeps old k m) (hp : Apart old p) (hq : Apart old q) :
    Yields (single_rotate_left m p q) (Keeps old k) := by
  rw [single_rotate_left_eq]
  exact h.single_rotate hp hq .right

theorem Keeps.double_rotate_right {r : Ptr} (h : Keeps old k m) (hp : Apart old p)
    (hq : Apart old q) (hr : Apart old r) :
    Yields (double_rotate_right m p q r) (Keeps old k) := by
  rw [double_rotate_right_eq]
  exact h.double_rotate hp hq hr .left

theorem Keeps.double_rotate_left {r : Ptr} (h : Keeps old k m) (hp : Apart old p) (hq : Apart old q)
    (hr : Apart old r) :
    Yields (double_rotate_left m p q r) (Keeps old k) := by
  rw [double_rotate_left_eq]
  exact h.double_rotate hp hq hr .right

end Access

/-! ## Insertion -/

section Insertion

variable {old m : Memory (avl_node κ ω)} {k : Nat}

/-- The nodes that the code works with. -/
def Apart3 (old : Memory (avl_node κ ω)) (t s p : Ptr) : Prop :=
  Apart old t ∧ Apart old s ∧ Apart old p

/-- A search that ends at a new node, or has got no memory. -/
def Placed (old : Memory (avl_node κ ω)) (k : Nat)
    (r : Memory (avl_node κ ω) × Option (Ptr × Ptr × Ptr)) : Prop :=
  match r.2 with
  | none => Keeps old k r.1
  | some (t, s, q) => Keeps old (k + 1) r.1 ∧ Apart3 old t s q

theorem Keeps.insert_next {compare_fun : κ → κ → Int} {key : κ} {fuel : Nat} {t s p x : Ptr}
    (ih : ∀ (m : Memory (avl_node κ ω)) (t s p : Ptr), Keeps old k m → Apart3 old t s p →
      Yields (insert_search compare_fun key fuel m t s p) (Placed old k))
    (h : Keeps old k m) (hp : Apart3 old t s p) (hx : Apart old x) (d : Side) :
    Yields (insert_next compare_fun key fuel d m t s p x) (Placed old k) := by
  cases x with
  | none =>
    rcases h.avl_node_new key hp.2.2 with ⟨m1, hnew, h1⟩ | ⟨a, m1, hnew, ha, h1⟩
    · simp only [Avl.insert_next, hnew]
      exact yields_ok h1
    · simp only [Avl.insert_next, hnew]
      exact (h1.set_child hp.2.2 ha d).bind fun m2 h2 => yields_ok ⟨h2, hp.1, hp.2.1, ha⟩
  | some q =>
    refine yields_bind fun b _ => yields_ite (fun _ => ?_) fun _ => ?_
    · exact ih m p (some q) (some q) h ⟨hp.2.2, hx, hx⟩
    · exact ih m t s (some q) h ⟨hp.1, hp.2.1, hx⟩

theorem Keeps.insert_search (compare_fun : κ → κ → Int) (key : κ) (fuel : Nat) :
    ∀ (m : Memory (avl_node κ ω)) (t s p : Ptr), Keeps old k m → Apart3 old t s p →
      Yields (insert_search compare_fun key fuel m t s p) (Placed old k) := by
  induction fuel with
  | zero => exact fun _ _ _ _ _ _ => yields_error _
  | succ fuel ih =>
    intro m t s p h hp
    rw [insert_search_succ]
    refine h.load hp.2.2 fun n hl hr _ => yields_ite (fun _ => ?_) fun _ =>
      h.insert_next ih hp hr .right
    exact (h.set_rank hp.2.2 _).bind fun m1 h1 => h1.insert_next ih hp hl .left

theorem Keeps.insert_adjust (compare_fun : κ → κ → Int) (key : κ) (q : Ptr) (fuel : Nat) :
    ∀ (m : Memory (avl_node κ ω)) (p : Ptr), Keeps old k m → Apart old p →
      Yields (insert_adjust compare_fun key q fuel m p) (Keeps old k) := by
  induction fuel with
  | zero => exact fun _ _ _ _ => yields_error _
  | succ fuel ih =>
    intro m p h hp
    refine yields_ite (fun _ => yields_ok h) fun _ => h.load hp fun n hl hr _ =>
      yields_ite (fun _ => ?_) fun _ => ?_
    · exact (h.set_balance hp _).bind fun m1 h1 => ih m1 n.left h1 hl
    · exact (h.set_balance hp _).bind fun m1 h1 => ih m1 n.right h1 hr

theorem Keeps.insert_rotate {s r p : Ptr} (h : Keeps old k m) (a : Int) (hs : Apart old s)
    (hr : Apart old r) (hp : Apart old p) :
    Yields (insert_rotate m a s r p) fun x => Keeps old k x.1 ∧ Apart old x.2 := by
  unfold Avl.insert_rotate
  refine yields_bind fun b _ => yields_ite (fun _ => ?_) fun _ => yields_bind fun b _ =>
    yields_ite (fun _ => ?_) fun _ => ?_
  · refine yields_join (P := Keeps old k) (fun _ => h.single_rotate_right hs hr) (fun _ =>
      h.single_rotate_left hs hr)
      fun m1 h1 => ?_
    exact (h1.set_balance hs _).bind fun m2 h2 => (h2.set_balance hr _).bind fun m3 h3 =>
      yields_ok ⟨h3, hr⟩
  · refine h.load hr fun n hnl hnr _ => ?_
    have hp : Apart old (if a = -1 then n.right else n.left) := by
      split_ifs
      · exact hnr
      · exact hnl
    refine yields_join (P := Keeps old k) (fun _ => h.double_rotate_right hs hr hp) (fun _ =>
      h.double_rotate_left hs hr hp)
      fun m1 h1 => yields_bind fun b _ => ?_
    refine (h1.set_balance hs _).bind fun m2 h2 => (h2.set_balance hr _).bind fun m3 h3 => ?_
    exact (h3.set_balance hp _).bind fun m4 h4 => yields_ok ⟨h4, hp⟩
  · exact yields_ok ⟨h, hp⟩

omit [RankBalance ω] in
theorem Keeps.insert_finish {t s p : Ptr} (h : Keeps old k m) (hp : Apart3 old t s p) :
    Yields (insert_finish m t s p) (Keeps old k) := by
  have hlink : Yields (relink_right m t s p) (Keeps old k) :=
    h.load hp.1 fun n _ _ _ => yields_ite (fun _ => h.set_child hp.1 hp.2.2 .right) fun _ =>
      h.set_child hp.1 hp.2.2 .left
  exact hlink.bind fun m1 h1 => h1.set_parent hp.2.2 hp.1

theorem Keeps.avl_insert {ob : avl_tree κ ω} (h : Keeps old k ob.mem)
    (hroot : Apart old ob.root) (key : κ) :
    Yields (avl_insert ob key) fun r => r.2.root = ob.root ∧
      (r.1 = 0 ∧ Keeps old (k + 1) r.2.mem ∨ r.1 = -1 ∧ Keeps old k r.2.mem) := by
  refine h.load hroot fun n _ hright _ => ?_
  generalize n.right = right at hright ⊢
  cases right with
  | none =>
    rcases h.avl_node_new key hroot with ⟨m1, hnew, h1⟩ | ⟨a, m1, hnew, ha, h1⟩
    · simp only [hnew]
      exact yields_ok ⟨rfl, .inr ⟨rfl, h1⟩⟩
    · simp only [hnew]
      exact (h1.set_child hroot ha .right).bind fun m2 h2 => yields_ok ⟨rfl, .inl ⟨rfl, h2⟩⟩
  | some top =>
    refine (Keeps.insert_search ob.compare_fun key _ ob.mem ob.root (some top) (some top) h
      ⟨hroot, hright, hright⟩).bind ?_
    rintro ⟨m1, place⟩ hplace
    obtain _ | ⟨t, s, q⟩ := place
    · exact yields_ok ⟨rfl, .inr ⟨rfl, hplace⟩⟩
    obtain ⟨h1, ht, hs, hq⟩ := hplace
    refine h1.load hs fun n hl hr _ => ?_
    have hchild : Apart old (if ob.compare_fun key n.key < 1 then n.left else n.right) := by
      split_ifs
      · exact hl
      · exact hr
    refine (Keeps.insert_adjust ob.compare_fun key q _ m1 _ h1 hchild).bind fun m2 h2 =>
      yields_bind fun b _ => ?_
    refine yields_ite (fun _ => ?_) fun _ => yields_ite (fun _ => ?_) fun _ =>
      yields_ite (fun _ => ?_) fun _ => ?_
    · exact (h2.set_balance hs _).bind fun m3 h3 => yields_ok ⟨rfl, .inl ⟨rfl, h3⟩⟩
    · exact (h2.set_balance hs _).bind fun m3 h3 => yields_ok ⟨rfl, .inl ⟨rfl, h3⟩⟩
    · refine (h2.insert_rotate _ hs hchild hq).bind ?_
      rintro ⟨m3, p⟩ ⟨h3, hp⟩
      exact (h3.insert_finish ⟨ht, hs, hp⟩).bind fun m4 h4 => yields_ok ⟨rfl, .inl ⟨rfl, h4⟩⟩
    · exact yields_ok ⟨rfl, .inl ⟨rfl, h2⟩⟩

end Insertion

/-! ## Deletion -/

section Deletion

variable {old m : Memory (avl_node κ ω)} {k : Nat}

omit [RankBalance ω] in
theorem Keeps.rightmost (fuel : Nat) (h : Keeps old k m) :
    ∀ y : Ptr, Apart old y → Yields (rightmost fuel m y) (Apart old) := by
  induction fuel with
  | zero => exact fun _ _ => yields_error _
  | succ fuel ih =>
    intro y hy
    refine h.load hy fun n _ hr _ => ?_
    generalize n.right = right at hr ⊢
    cases right with
    | none => exact yields_ok hy
    | some r => exact ih (some r) hr

theorem Keeps.delete_undo {root : Ptr} (hroot : Apart old root) (fuel : Nat) :
    ∀ (m : Memory (avl_node κ ω)) (x : Ptr), Keeps old k m → Apart old x →
      Yields (delete_undo root fuel m x) (Keeps old k) := by
  induction fuel with
  | zero => exact fun _ _ _ _ => yields_error _
  | succ fuel ih =>
    intro m x h hx
    refine h.load hroot fun _ _ _ _ => yields_ite (fun _ => yields_ok h) fun _ =>
      h.load hx fun n _ _ hp => ?_
    refine h.load hp fun _ _ _ _ => yields_ite (fun _ => yields_bind fun r _ => ?_) fun _ =>
      ih m n.parent h hp
    exact (h.set_rank hp _).bind fun m1 h1 => ih m1 n.parent h1 hp

/-- A node that is found, or none. -/
def Found (old : Memory (avl_node κ ω)) (k : Nat) (r : Memory (avl_node κ ω) × Ptr) : Prop :=
  Keeps old k r.1 ∧ Apart old r.2

theorem Keeps.delete_search (compare_fun : κ → κ → Int) (key : κ) {root : Ptr}
    (hroot : Apart old root) (bound fuel : Nat) :
    ∀ (m : Memory (avl_node κ ω)) (x : Ptr), Keeps old k m → Apart old x →
      Yields (delete_search compare_fun key root bound fuel m x) (Found old k) := by
  induction fuel with
  | zero => exact fun _ _ _ _ => yields_error _
  | succ fuel ih =>
    intro m x h hx
    rw [Avl.delete_search]
    refine h.load hx fun n hl hr _ => yields_ite (fun _ => ?_) fun _ =>
      yields_ite (fun _ => ?_) fun _ => yields_ok ⟨h, hx⟩
    · refine (h.set_rank hx _).bind fun m1 h1 => ?_
      generalize n.left = left at hl ⊢
      cases left with
      | some l => exact ih m1 (some l) h1 hl
      | none =>
        refine yields_bind fun r _ => (h1.set_rank hx _).bind fun m2 h2 => ?_
        exact (Keeps.delete_undo hroot bound m2 x h2 hx).bind fun m3 h3 =>
          yields_ok ⟨h3, apart_none old⟩
    · generalize n.right = right at hr ⊢
      cases right with
      | some r => exact ih m (some r) h hr
      | none =>
        refine (h.set_rank hx _).bind fun m1 h1 => ?_
        exact (Keeps.delete_undo hroot bound m1 x h1 hx).bind fun m2 h2 =>
          yields_ok ⟨h2, apart_none old⟩

theorem Keeps.delete_swap (h : Keeps old k m) (bound : Nat) {x : Ptr} (hx : Apart old x) :
    Yields (delete_swap bound m x) (Found old k) := by
  refine h.load hx fun n hl _ _ => ?_
  generalize n.left = left at hl ⊢
  rcases left with _ | l
  · exact yields_ok ⟨h, hx⟩
  rcases n.right with _ | r
  · exact yields_ok ⟨h, hx⟩
  refine (h.rightmost bound (some l) hl).bind fun y hy => h.load hy fun z _ _ _ => ?_
  refine (h.set_key hx _).bind fun m1 h1 => (h1.set_key hy _).bind fun m2 h2 => ?_
  exact yields_bind fun r _ => (h2.set_rank hx _).bind fun m3 h3 => yields_ok ⟨h3, hy⟩

omit [RankBalance ω] in
theorem Keeps.delete_unlink (h : Keeps old k m) {x : Ptr} (hx : Apart old x) :
    Yields (delete_unlink m x) fun r => Keeps old k r.1 ∧ Apart old r.2.1 := by
  refine h.load hx fun n hl hr hp => ?_
  have hchild :
      Apart old (if n.left ≠ none then n.left else if n.right ≠ none then n.right else none) := by
    split_ifs
    · exact hl
    · exact hr
    · exact apart_none old
  refine (h.set_parent_of hp hchild).bind fun m1 h1 => h1.load hp fun _ _ _ _ =>
    yields_ite (fun _ => ?_) fun _ => ?_
  · exact (h1.set_child hp hchild .left).bind fun m2 h2 => yields_ok ⟨h2, hp⟩
  · exact (h1.set_child hp hchild .right).bind fun m2 h2 => yields_ok ⟨h2, hp⟩

omit [RankBalance ω] in
theorem Keeps.relink_left {top p q : Ptr} (h : Keeps old k m) (htop : Apart old top)
    (hq : Apart old q) :
    Yields (relink_left m top p q) (Keeps old k) :=
  h.load htop fun _ _ _ _ => yields_ite (fun _ => h.set_child htop hq .left) fun _ =>
    h.set_child htop hq .right

theorem Keeps.delete_rebalance (h : Keeps old k m) {p : Ptr} (hp : Apart old p) (side : Int) :
    Yields (delete_rebalance m p side) fun r => Keeps old k r.1 ∧ Apart old r.2.1 := by
  unfold Avl.delete_rebalance
  refine h.load hp fun n hl hr htop => yields_ite (fun _ => ?_) fun _ =>
    yields_ite (fun _ => ?_) fun _ => ?_
  · exact (h.set_balance hp _).bind fun m1 h1 => yields_ok ⟨h1, hp⟩
  · exact (h.set_balance hp _).bind fun m1 h1 => yields_ok ⟨h1, hp⟩
  · have hq : Apart old (if side = 1 then n.left else n.right) := by
      split_ifs
      · exact hl
      · exact hr
    have hlink : ∀ (m1 : Memory (avl_node κ ω)) (q : Ptr) (shorter : Bool), Keeps old k m1 →
      Apart old q →
        Yields (Avl.relink_left m1 n.parent p q >>= fun m => pure (m, q, shorter))
          fun r => Keeps old k r.1 ∧ Apart old r.2.1 := fun _ _ _ h1 hq =>
      (h1.relink_left htop hq).bind fun m2 h2 => yields_ok ⟨h2, hq⟩
    refine yields_bind fun bq _ => yields_ite (fun _ => ?_) fun _ =>
      yields_ite (fun _ => ?_) fun _ => ?_
    · refine (h.set_parent hq htop).bind fun m1 h1 => ?_
      refine yields_join (P := Keeps old k) (fun _ => h1.single_rotate_left hp hq) (fun _ =>
        h1.single_rotate_right hp hq)
        fun m2 h2 => ?_
      exact (h2.set_balance hq _).bind fun m3 h3 => (h3.set_balance hp _).bind fun m4 h4 =>
        hlink m4 _ _ h4 hq
    · refine (h.set_parent hq htop).bind fun m1 h1 => ?_
      refine yields_join (P := Keeps old k) (fun _ => h1.single_rotate_left hp hq) (fun _ =>
        h1.single_rotate_right hp hq)
        fun m2 h2 => ?_
      exact (h2.set_balance hq _).bind fun m3 h3 => (h3.set_balance hp _).bind fun m4 h4 =>
        hlink m4 _ _ h4 hq
    · refine h.load hq fun z hzl hzr _ => ?_
      have hz : Apart old (if side = 1 then z.right else z.left) := by
        split_ifs
        · exact hzr
        · exact hzl
      refine (h.set_parent hz htop).bind fun m1 h1 => ?_
      refine yields_join (P := Keeps old k) (fun _ => h1.double_rotate_right hp hq hz)
        (fun _ => h1.double_rotate_left hp hq hz) fun m2 h2 => yields_bind fun br _ => ?_
      refine (h2.set_balance hq _).bind fun m3 h3 => (h3.set_balance hp _).bind fun m4 h4 => ?_
      exact (h4.set_balance hz _).bind fun m5 h5 => hlink m5 _ _ h5 hz

theorem Keeps.delete_climb (fuel : Nat) :
    ∀ (m : Memory (avl_node κ ω)) (p : Ptr) (side : Int), Keeps old k m → Apart old p →
      Yields (delete_climb fuel m p side) (Keeps old k) := by
  induction fuel with
  | zero => exact fun _ _ _ _ _ => yields_error _
  | succ fuel ih =>
    intro m p side h hp
    refine h.load hp fun n _ _ _ => ?_
    cases n.parent with
    | none => exact yields_ok h
    | some a =>
      refine (h.delete_rebalance hp side).bind ?_
      rintro ⟨m1, z, shorter⟩ ⟨h1, hz⟩
      refine h1.load hz fun u _ _ hu => h1.load hu fun v _ _ _ =>
        yields_ite (fun _ => ?_) fun _ => yields_ok h1
      exact ih m1 u.parent _ h1 hu

theorem Keeps.delete_front {tree : avl_tree κ ω} (h : Keeps old k tree.mem)
    (hroot : Apart old tree.root) (key : κ) :
    Yields (delete_front tree key) fun r =>
      Keeps old k r.1 ∧ ∀ x p side, r.2 = some (x, p, side) → Apart old x ∧ Apart old p := by
  refine h.load hroot fun n _ hright _ => ?_
  generalize n.right = right at hright ⊢
  cases right with
  | none => exact yields_ok ⟨h, by simp⟩
  | some top =>
    refine (Keeps.delete_search tree.compare_fun key hroot _ _ tree.mem (some top) h hright).bind ?_
    rintro ⟨m1, x⟩ ⟨h1, hx⟩
    cases x with
    | none => exact yields_ok ⟨h1, by simp⟩
    | some x =>
      refine (h1.delete_swap _ hx).bind ?_
      rintro ⟨m2, z⟩ ⟨h2, hz⟩
      refine (h2.delete_unlink hz).bind ?_
      rintro ⟨m3, p, side⟩ ⟨h3, hp⟩
      refine yields_ok ⟨h3, ?_⟩
      rintro _ _ _ ⟨⟩
      exact ⟨hz, hp⟩

theorem Keeps.avl_delete {tree : avl_tree κ ω} (h : Keeps old k tree.mem)
    (hroot : Apart old tree.root) (key : κ) (free_key_fun : Option (κ → Int)) :
    Yields (avl_delete tree key free_key_fun) fun r => r.2.1.root = tree.root ∧
      ((∃ j, k = j + 1 ∧ r.1 = 0 ∧ Keeps old j r.2.1.mem) ∨ r.1 = -1 ∧ Keeps old k r.2.1.mem) := by
  rw [avl_delete_eq]
  refine (h.delete_front hroot key).bind ?_
  rintro ⟨m1, found⟩ ⟨h1, hfound⟩
  obtain _ | ⟨x, p, side⟩ := found
  · exact yields_ok ⟨rfl, .inr ⟨rfl, h1⟩⟩
  obtain ⟨hx, hp⟩ := hfound x p side rfl
  cases x with
  | none => exact yields_error _
  | some a =>
    refine h1.load hx fun n _ _ _ => (h1.free (hx a rfl)).bind ?_
    rintro m2 ⟨j, hj, h2⟩
    exact (Keeps.delete_climb _ m2 p side h2 hp).bind fun m3 h3 =>
      yields_ok ⟨rfl, .inl ⟨j, hj, rfl, h3⟩⟩

end Deletion

end Avl
