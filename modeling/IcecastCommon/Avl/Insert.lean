import IcecastCommon.Avl.Rotate
import IcecastCommon.Lib.Order
import Mathlib.Data.List.Induction

/-!
# `avl_insert`

The way down raises the ranks and remembers the deepest node `s` that is not level. The nodes
below `s` are level and tilt towards the new node. At `s` the tree grows, levels out or is
rotated.
-/

namespace Avl

open Lib

variable {κ ω : Type}

/-! ## What an insertion does to the nodes on its way -/

section Pure

variable [RankBalance ω]

/-- The rank of a node that gains one on side `d`. -/
def bump (d : Side) (i : Item κ ω) : Item κ ω :=
  match d with
  | .left => i.setRank (i.rank + 1)
  | .right => i

/-- The balance factor of a level node that gains height on side `d`. -/
def tilt (d : Side) (i : Item κ ω) : Item κ ω := i.setBalance d.sign

@[simp] theorem bump_addr (d : Side) (i : Item κ ω) : (bump d i).addr = i.addr := by cases d <;> rfl
@[simp] theorem bump_key (d : Side) (i : Item κ ω) : (bump d i).key = i.key := by cases d <;> rfl
@[simp] theorem tilt_addr (d : Side) (i : Item κ ω) : (tilt d i).addr = i.addr := rfl
@[simp] theorem tilt_key (d : Side) (i : Item κ ω) : (tilt d i).key = i.key := rfl

theorem sign_bounds (d : Side) : -1 ≤ d.sign ∧ d.sign ≤ 1 := by cases d <;> decide

variable [LawfulRankBalance ω]

@[simp] theorem bump_balance (d : Side) (i : Item κ ω) : (bump d i).balance = i.balance := by
  cases d
  · exact Item.setRank_balance i _
  · rfl

@[simp] theorem tilt_balance (d : Side) (i : Item κ ω) : (tilt d i).balance = d.sign :=
  Item.setBalance_balance i (sign_bounds d).1 (sign_bounds d).2

@[simp] theorem tilt_rank (d : Side) (i : Item κ ω) : (tilt d i).rank = i.rank :=
  Item.setBalance_rank i (sign_bounds d).1 (sign_bounds d).2

theorem bump_spaced (c : List (Frame (Item κ ω))) (u u' : BinaryTree (Item κ ω))
    (h : Spaced (plug c u)) (hu' : Spaced u') (hw : weight u' ≤ weight u + 1)
    (hsize : weight (plug c u) + 1 < 2 ^ 30) :
    Spaced (plug (c.map (Frame.map bump)) u') ∧
      weight (plug (c.map (Frame.map bump)) u') ≤ weight (plug c u) + 1 := by
  induction c generalizing u u' with
  | nil => exact ⟨hu', hw⟩
  | cons f c ih =>
    obtain ⟨hu, hf, hsib, -⟩ := (everywhere_plug (f :: c) u).mp h
    have hpos := Spaced.weight_nonneg hu
    have hpos' := Spaced.weight_nonneg hsib
    have hle := weight_le_plug c (f.fill u) h
    rw [plug_cons] at hsize
    rw [weight_fill] at hle
    refine ih (f.fill u) ((f.map bump).fill u') h ?_ ?_ hsize
    · rw [spaced_fill, Frame.map_side, Frame.map_value, Frame.map_sibling]
      refine ⟨?_, hu', hsib⟩
      cases hs : f.side <;> rw [hs] at hf hle <;> unfold SpacedAt at hf <;> dsimp only at hf hle ⊢
      · rw [bump, Item.setRank_rank _ (by omega) (by omega) (by omega)]
        omega
      · exact hf
    · rw [weight_fill, weight_fill, Frame.map_side, Frame.map_value, Frame.map_sibling]
      cases hs : f.side <;> rw [hs] at hf hle <;> unfold SpacedAt at hf <;> dsimp only at hf hle ⊢
      · rw [bump, Item.setRank_rank _ (by omega) (by omega) (by omega)]
        omega
      · rw [bump]
        omega

theorem tilt_balanced (b : List (Frame (Item κ ω))) (u u' : BinaryTree (Item κ ω))
    (hlevel : ∀ f ∈ b, f.value.balance = 0) (hu : Above BalancedAt b u) (hu' : Balanced u')
    (h : u'.height = u.height + 1) :
    Balanced (plug (b.map (Frame.map tilt)) u') ∧
      (plug (b.map (Frame.map tilt)) u').height = (plug b u).height + 1 := by
  induction b generalizing u u' with
  | nil => exact ⟨hu', h⟩
  | cons f b ih =>
    obtain ⟨hf, hsib, hb⟩ := hu
    have h0 := hlevel f List.mem_cons_self
    have hsame : u.height = f.sibling.height := by
      cases hs : f.side <;> rw [hs] at hf <;> unfold BalancedAt at hf <;> dsimp only at hf <;> omega
    refine ih (f.fill u) ((f.map tilt).fill u') (fun g hg =>
      hlevel g (List.mem_cons_of_mem f hg)) hb ?_ ?_
    · rw [balanced_fill]
      simp only [Frame.map_side, Frame.map_value, Frame.map_sibling, tilt_balance]
      refine ⟨⟨?_, sign_bounds f.side⟩, hu', hsib⟩
      rw [h, hsame]
      simp
    · rw [height_fill, height_fill, Frame.map_sibling, h, hsame]
      omega

theorem single_settles {d : Side} {p q : Item κ ω} {a b e : BinaryTree (Item κ ω)}
    (hX : Balanced (bin d q a b)) (he : Balanced e) (hq : q.balance = d.sign)
    (h : (bin d q a b).height = e.height + 2) :
    Balanced (single d p q 0 0 a b e) ∧ (single d p q 0 0 a b e).height = e.height + 2 := by
  obtain ⟨⟨hbal, -, -⟩, ha, hb⟩ := (balanced_bin d q a b).mp hX
  rw [bin_height] at h
  have hab : a.height = b.height + 1 := by
    rw [hq] at hbal
    cases d <;> simp only [Side.sign] at hbal <;> omega
  have hbe : b.height = e.height := by omega
  constructor
  · apply single_balanced d p q 0 0 a b e ha hb he
    · rw [hbe]
      simp
    · decide
    · decide
    · rw [hab, hbe]
      simp
    · decide
    · decide
  · rw [single_height]
    omega

theorem double_settles {d : Side} {p q r : Item κ ω} {a b e z : BinaryTree (Item κ ω)}
    (hX : Balanced (bin d q a (bin d r b e))) (hz : Balanced z) (hq : q.balance = -d.sign)
    (h : (bin d q a (bin d r b e)).height = z.height + 2) :
    Balanced (double d p q r a b e z) ∧ (double d p q r a b e z).height = z.height + 2 := by
  obtain ⟨⟨hbal, -, -⟩, ha, hr⟩ := (balanced_bin d q a _).mp hX
  rw [bin_height] at h
  have har : (bin d r b e).height = a.height + 1 := by
    rw [hq] at hbal
    cases d <;> simp only [Side.sign] at hbal <;> omega
  have haz : a.height = z.height := by omega
  refine ⟨double_balanced d p q r a b e z ha hr hz haz (by omega), ?_⟩
  rw [bin_height] at har
  rw [double_height]
  omega

end Pure

/-! ## The pointer moves at `s` -/

section Moves

variable [RankBalance ω] [HasNull κ] {m : Memory (avl_node κ ω)} {root : Nat}
  {c : List (Frame (Item κ ω))}

theorem insert_rotate_single {d : Side} {p q : Item κ ω} {a b e : BinaryTree (Item κ ω)} (x : Ptr)
    (h : Holds m root c (bin d p (bin d q a b) e)) (hq : q.balance = d.sign) :
    ∃ m', insert_rotate m d.sign (some p.addr) (some q.addr) x = .ok (m', some q.addr) ∧
      Owns m' (some p.addr) (single d p q 0 0 a b e) ∧
      Touches (addrs (bin d p (bin d q a b) e)) m m' := by
  obtain ⟨howns, he⟩ := h.owns_below
  have hp := h.get_bin
  rw [ptr_bin] at hp
  have hqc := ((owns_bin _ _ _ _ _ _).mp howns).1
  obtain ⟨m1, hm1, ⟨m2, m3, hm2, hm3, hown, ht⟩, -⟩ := single_rotate_spec hp howns he h.nodup 0 0
  refine ⟨m3, ?_, hown, ht⟩
  cases d <;>
    simp only [Side.sign, insert_rotate, get_balance_cell hqc, ok_bind, hq, reduceIte,
      Int.reduceNeg, Int.reduceEq, single_rotate_right_eq, single_rotate_left_eq, hm1, hm2,
      hm3, pure_eq_ok]

theorem insert_rotate_double [LawfulRankBalance ω] {d : Side} {p q r : Item κ ω}
    {a b e z : BinaryTree (Item κ ω)} (x : Ptr)
    (h : Holds m root c (bin d p (bin d q a (bin d r b e)) z)) (hq : q.balance = -d.sign) :
    ∃ m', insert_rotate m d.sign (some p.addr) (some q.addr) x = .ok (m', some r.addr) ∧
      Owns m' (some q.addr) (double d p q r a b e z) ∧
      Touches (addrs (bin d p (bin d q a (bin d r b e)) z)) m m' := by
  obtain ⟨howns, hz⟩ := h.owns_below
  have hp := h.get_bin
  rw [ptr_bin] at hp
  obtain ⟨hqc, ha, hr⟩ := (owns_bin _ _ _ _ _ _).mp howns
  rw [ptr_bin] at hqc
  obtain ⟨m1, hm1, hbal, ⟨m2, m3, m4, hm2, hm3, hm4, hown, ht⟩, -⟩ :=
    double_rotate_spec hp hqc hr ha hz h.nodup
  refine ⟨m4, ?_, hown, ht⟩
  have hinner : (if r.balance = d.sign then 0 else if r.balance = -d.sign then d.sign else 0) =
      innerBalance d r.balance := by
    cases d <;> simp only [innerBalance, Side.sign] <;> split_ifs <;> omega
  rw [← hinner] at hm3
  cases d <;>
    simp only [outerBalance, Side.sign, cellOn, cell, insert_rotate, get_balance_cell hqc, ok_bind,
      hq, reduceIte, Int.reduceNeg, Int.reduceEq, Memory.load_eq hqc, double_rotate_right_eq,
      double_rotate_left_eq, hm1, hbal, pure_eq_ok] at hm2 hm3 ⊢ <;>
    rw [hm2, ok_bind, hm3, ok_bind, hm4, ok_bind]

end Moves

/-! ## The end of the rotations, and the new node -/

section Link

variable [HasNull κ] {m : Memory (avl_node κ ω)} {root : Nat} {c : List (Frame (Item κ ω))}

theorem relink_spec {m' : Memory (avl_node κ ω)} {t t' : BinaryTree (Item κ ω)} {s : Nat} {pq : Ptr}
    (h : Holds m root c t) (hs : ptr t = some s) (ht : Touches (addrs t) m m') (ht' : Owns m' pq t')
    (hlab : labels t' = labels t) :
    Around m' root c (some s) ∧ s ∉ outer c ∧
      ∃ m'', set_child (hangs c) m' (upper root c) (ptr t') = .ok m'' ∧ Around m'' root c (ptr t') ∧
        Owns m'' pq t' ∧ m''.grants = m.grants := by
  have haddrs : addrs t' = addrs t := by
    rw [addrs, addrs, addrs_of_labels, addrs_of_labels, hlab]
  obtain ⟨hc, -, hout⟩ := (distinct_iff root c t).mp h.distinct
  have haround : Around m' root c (some s) := hs ▸ h.around_of_outside h.around ht.get
  obtain ⟨m1, a, hm1, haround1, ha, t1⟩ := set_child_spec (ptr t') haround hc
  have hat : a ∉ addrs t := fun hmem =>
    (upper_mem ha).elim (hout a hmem).1 (hout a hmem).2
  refine ⟨haround, (hout s (ptr_mem hs)).2, m1, hm1, haround1, ?_, by rw [t1.grants, ht.grants]⟩
  refine t1.owns ht' fun x hx hmem => ?_
  rw [List.mem_singleton.mp hmem, haddrs] at hx
  exact hat hx

theorem insert_finish_spec {m' : Memory (avl_node κ ω)} {t t' : BinaryTree (Item κ ω)} {s p : Nat}
    {pq : Ptr} (h : Holds m root c t) (hs : ptr t = some s) (hp : ptr t' = some p)
    (ht : Touches (addrs t) m m') (ht' : Owns m' pq t') (hlab : labels t' = labels t) :
    ∃ m'', insert_finish m' (upper root c) (some s) (some p) = .ok m'' ∧ Holds m'' root c t' ∧
      m''.grants = m.grants := by
  have haddrs : addrs t' = addrs t := by
    rw [addrs, addrs, addrs_of_labels, addrs_of_labels, hlab]
  obtain ⟨haround, hsout, m1, hm1, haround1, ht1, hg1⟩ := relink_spec h hs ht ht' hlab
  obtain ⟨m2, hm2, ht2, t2⟩ := set_parent_of_spec (upper root c) ht1 (haddrs ▸ h.nodup)
  rw [hp] at hm1 hm2
  refine ⟨m2, ?_, h.replace ?_ ht2 (haddrs ▸ List.Sublist.refl _), by rw [t2.grants, hg1]⟩
  · rw [insert_finish, relink_right_eq (some p) haround hsout, hm1]
    exact hm2
  · exact h.around_of_outside haround1 fun x hx => t2.get x (haddrs ▸ hx)

/-- The node that `avl_node_new` makes. -/
def leaf [RankBalance ω] (a : Nat) (key : κ) : BinaryTree (Item κ ω) :=
  .node ⟨a, key, AVL_SET_RANK (AVL_SET_BALANCE RankBalance.zero 0) 1⟩ .nil .nil

theorem new_leaf_spec [RankBalance ω] (key : κ) (h : Holds m root c .nil) (hm : m.Generous) :
    ∃ a m1 m2, avl_node_new m key (upper root c) = (some a, m1) ∧
      set_child (hangs c) m1 (upper root c) (some a) = .ok m2 ∧ Holds m2 root c (leaf a key) ∧
      m2.Generous := by
  obtain ⟨a, m1, hm1, hfree, ha, hrest, hgen⟩ := m.malloc_eq hm
    ⟨key, none, none, upper root c, AVL_SET_RANK (AVL_SET_BALANCE RankBalance.zero 0) 1⟩
  have hlive : ∀ x, x = root ∨ x ∈ outer c → x ≠ a := by
    rintro x hx rfl
    have hsome := h.live x (by
      rw [List.mem_cons, mem_addrs_plug]
      tauto)
    rw [hfree] at hsome
    cases hsome
  obtain ⟨hc, -, -⟩ := (distinct_iff root c .nil).mp h.distinct
  have haround : Around m1 root c none := around_congr h.around fun x hx => hrest x (hlive x hx)
  obtain ⟨m2, u, hm2, haround2, hu, t2⟩ := set_child_spec (some a) haround hc
  have hau : a ≠ u := fun heq => hlive u (upper_mem hu) heq.symm
  have ha2 : m2.get a = m1.get a := t2.get a (by simpa using hau)
  refine ⟨a, m1, m2, hm1, hm2, ⟨haround2, ⟨?_, trivial, trivial⟩, ?_⟩, fun n => t2.grants ▸ hgen n⟩
  · rw [ha2, ha]
    rfl
  · refine (distinct_iff root c _).mpr ⟨hc, by simp [leaf], ?_⟩
    simp only [leaf, addrs_node, addrs_nil, List.nil_append, List.mem_singleton]
    rintro x rfl
    exact ⟨fun hx => hlive root (Or.inl rfl) hx.symm, fun hx => hlive x (Or.inr hx) rfl⟩

end Link

/-! ## The search -/

section Search

variable [RankBalance ω]

/-- `s` is the deepest node of the path that is not level, or the top one, and `t` is above it. -/
def Marks (root : Nat) (path : List (Frame (Item κ ω))) (t s : Ptr) : Prop :=
  ∃ below f above, path = below ++ f :: above ∧ (∀ g ∈ below, g.value.balance = 0) ∧
    (above = [] ∨ f.value.balance ≠ 0) ∧ t = upper root above ∧ s = some f.value.addr

/-- The same for the path to the node `i` and `i` itself. -/
def MarksAt (root : Nat) (c : List (Frame (Item κ ω))) (i : Item κ ω) (t s : Ptr) : Prop :=
  (t = upper root c ∧ s = some i.addr ∧ (c = [] ∨ i.balance ≠ 0)) ∨
  (Marks root c t s ∧ i.balance = 0)

theorem marks_cons {root : Nat} {c : List (Frame (Item κ ω))} {i : Item κ ω} {t s : Ptr}
    (h : MarksAt root c i t s) (f : Frame (Item κ ω)) (haddr : f.value.addr = i.addr)
    (hbal : f.value.balance = i.balance) : Marks root (f :: c) t s := by
  rcases h with ⟨ht, hs, hc⟩ | ⟨⟨below, g, above, rfl, hlevel, hg, ht, hs⟩, hi⟩
  · exact ⟨[], f, c, rfl, by simp, by rwa [hbal], ht, by rwa [haddr]⟩
  · refine ⟨f :: below, g, above, rfl, ?_, hg, ht, hs⟩
    rw [List.forall_mem_cons]
    exact ⟨by rw [hbal, hi], hlevel⟩

theorem marks_step {root : Nat} {f : Frame (Item κ ω)} {c : List (Frame (Item κ ω))} {q : Item κ ω}
    {t s : Ptr} (h : Marks root (f :: c) t s) :
    if q.balance ≠ 0 then MarksAt root (f :: c) q (some f.value.addr) (some q.addr)
    else MarksAt root (f :: c) q t s := by
  split_ifs with hq
  · exact Or.inl ⟨rfl, rfl, Or.inr hq⟩
  · exact Or.inr ⟨h, by simpa using hq⟩

/-- The part of the search that its two sides share: go on at the child `x` of `p`, or make it. -/
def insert_next (compare_fun : κ → κ → Int) (key : κ) (fuel : Nat) (d : Side)
    (m : Memory (avl_node κ ω)) (t s p x : Ptr) :
    C (Memory (avl_node κ ω) × Option (Ptr × Ptr × Ptr)) :=
  match x with
  | none =>
    match avl_node_new m key p with
    | (none, m) => return (m, none)
    | (some q, m) => do
      let m ← set_child d m p (some q)
      return (m, some (t, s, some q))
  | some q => do
    if (← get_balance m (some q)) ≠ 0 then insert_search compare_fun key fuel m p (some q) (some q)
    else insert_search compare_fun key fuel m t s (some q)

theorem insert_search_succ (compare_fun : κ → κ → Int) (key : κ) (fuel : Nat)
    (m : Memory (avl_node κ ω)) (t s p : Ptr) :
    insert_search compare_fun key (fuel + 1) m t s p = (do
      let n ← m.load p
      if compare_fun key n.key < 1 then
        let m ← set_rank m p (AVL_GET_RANK n.rank_and_balance + 1)
        insert_next compare_fun key fuel .left m t s p n.left
      else insert_next compare_fun key fuel .right m t s p n.right) := by
  rfl

variable [HasNull κ]

/-- The search through `x` below the path `c` ends at a new leaf, with the ranks on the
way raised. -/
def Arrives (compare_fun : κ → κ → Int) (key : κ) (root : Nat) (x : BinaryTree (Item κ ω))
    (c : List (Frame (Item κ ω))) (result : C (Memory (avl_node κ ω) × Option (Ptr × Ptr × Ptr))) :
    Prop :=
  let path := (route (fun i => compare_fun key i.key) x []).map (Frame.map bump) ++ c
  ∃ m t s a, result = .ok (m, some (t, s, some a)) ∧ Holds m root path (leaf a key) ∧
    Marks root path t s ∧ m.Generous

/-- The search goes through every tree with nodes, from every path to it. -/
def Passes (compare_fun : κ → κ → Int) (key : κ) (root : Nat) (x : BinaryTree (Item κ ω)) : Prop :=
  ∀ (c : List (Frame (Item κ ω))) (m : Memory (avl_node κ ω)) (t s : Ptr) (fuel : Nat)
    (i : Item κ ω)
    (l r : BinaryTree (Item κ ω)), x = .node i l r → Holds m root c x → m.Generous →
    MarksAt root c i t s → x.height ≤ fuel →
    Arrives compare_fun key root x c (insert_search compare_fun key fuel m t s (some i.addr))

theorem insert_next_spec (compare_fun : κ → κ → Int) (key : κ) (root : Nat)
    (x : BinaryTree (Item κ ω)) (f : Frame (Item κ ω)) (c : List (Frame (Item κ ω)))
    {m : Memory (avl_node κ ω)} {t s : Ptr} {fuel : Nat} (hfuel : x.height ≤ fuel)
    (ih : Passes compare_fun key root x) (h : Holds m root (f :: c) x) (hm : m.Generous)
    (hmark : Marks root (f :: c) t s) :
    Arrives compare_fun key root x (f :: c)
      (insert_next compare_fun key fuel f.side m t s (some f.value.addr) (ptr x)) := by
  cases x with
  | nil =>
    obtain ⟨a, m1, m2, hm1, hm2, h2, hg2⟩ := new_leaf_spec key h hm
    rw [upper] at hm1 hm2
    rw [hangs] at hm2
    refine ⟨m2, t, s, a, ?_, h2, hmark, hg2⟩
    simp only [insert_next, ptr, hm1, hm2, ok_bind, pure_eq_ok]
  | node j y z =>
    have hbal : get_balance m (some j.addr) = .ok j.balance :=
      get_balance_cell (d := .left) h.get_node
    have hstep := marks_step (q := j) hmark
    simp only [insert_next, ptr, hbal, ok_bind]
    by_cases hj : j.balance = 0
    · rw [if_neg (by simpa using hj)] at hstep ⊢
      exact ih _ m t s fuel j y z rfl h hm hstep hfuel
    · rw [if_pos hj] at hstep ⊢
      exact ih _ m _ _ fuel j y z rfl h hm hstep hfuel

theorem insert_search_spec [LawfulRankBalance ω] (compare_fun : κ → κ → Int) (key : κ) (root : Nat)
    (u : BinaryTree (Item κ ω)) : Passes compare_fun key root u := by
  induction u with
  | nil => intro _ _ _ _ _ _ _ _ h; cases h
  | node i l r ihl ihr =>
    rintro c m t s fuel _ _ _ ⟨⟩ h hm hmark hfuel
    rw [BinaryTree.height] at hfuel
    obtain ⟨fuel, rfl⟩ : ∃ n, fuel = n + 1 := ⟨fuel - 1, by omega⟩
    simp only [Arrives, insert_search_succ, Memory.load_eq h.get_node, ok_bind, cell]
    rw [route]
    split_ifs with hcmp
    · obtain ⟨m1, hm1, h1, hg1⟩ := h.set_rank (i.rank + 1)
      rw [Item.rank] at hm1
      rw [hm1, ok_bind, route_append, List.map_append, List.append_assoc]
      exact insert_next_spec compare_fun key root l ⟨i.setRank (i.rank + 1), .left, r⟩ c
        (by omega) ihl
        (holds_cons.mpr h1) (fun n => hg1 ▸ hm n)
          (marks_cons hmark _ rfl (Item.setRank_balance i _))
    · rw [route_append, List.map_append, List.append_assoc]
      exact insert_next_spec compare_fun key root r ⟨i, .right, l⟩ c (by omega) ihr
        (holds_cons.mpr h) hm
        (marks_cons hmark _ rfl rfl)

end Search

/-! ## The level nodes below `s` -/

section Adjust

theorem led_side {compare_fun : κ → κ → Int} {key : κ} {f : Frame (Item κ ω)}
    {b : List (Frame (Item κ ω))} (hled : Led (fun i => compare_fun key i.key) (· < 1) (f :: b)) :
    compare_fun key f.value.key < 1 ↔ f.side = .left := by
  have hf := ((led_cons _ _ f b).mp hled).1
  cases hs : f.side <;> rw [hs] at hf <;> dsimp only at hf <;> simp <;> omega

theorem insert_next_cell {compare_fun : κ → κ → Int} {key : κ} {f : Frame (Item κ ω)}
    (p parent : Ptr) (hside : compare_fun key f.value.key < 1 ↔ f.side = .left) :
    (if compare_fun key f.value.key < 1 then (cellOn f.side f.value p (ptr f.sibling) parent).left
      else (cellOn f.side f.value p (ptr f.sibling) parent).right) = p ∧
    (if compare_fun key f.value.key < 1 then (-1 : Int) else 1) = f.side.sign := by
  cases hs : f.side <;> simp [hside, hs, cellOn, cell, Side.sign]

variable [RankBalance ω] [HasNull κ]

theorem insert_adjust_spec (compare_fun : κ → κ → Int) (key : κ) (root a : Nat) (k : κ)
    (b : List (Frame (Item κ ω))) :
    ∀ (c : List (Frame (Item κ ω))) (m : Memory (avl_node κ ω)) (fuel : Nat),
      Holds m root (b ++ c) (leaf a k) → Led (fun i => compare_fun key i.key) (· < 1) b →
      b.length < fuel →
      ∃ m', insert_adjust compare_fun key (some a) fuel m (ptr (plug b (leaf a k))) = .ok m' ∧
        Holds m' root (b.map (Frame.map tilt) ++ c) (leaf a k) ∧ m'.grants = m.grants := by
  induction b using List.reverseRecOn with
  | nil =>
    intro c m fuel h _ hfuel
    obtain ⟨fuel, rfl⟩ : ∃ n, fuel = n + 1 := ⟨fuel - 1, by simp at hfuel; omega⟩
    exact ⟨m, if_pos rfl, h, rfl⟩
  | append_singleton b f ih =>
    intro c m fuel h hled hfuel
    rw [List.length_append, List.length_singleton] at hfuel
    obtain ⟨fuel, rfl⟩ : ∃ n, fuel = n + 1 := ⟨fuel - 1, by omega⟩
    rw [led_append] at hled
    rw [List.append_assoc, List.singleton_append] at h
    have hf := holds_append.mp h
    have hcell := hf.around.1
    have hside := led_side hled.2
    -- the node `f` is above the new one, so it is another one
    have hne : (some f.value.addr : Ptr) ≠ some a := by
      intro heq
      obtain ⟨-, -, hd⟩ := (distinct_iff _ _ _).mp h.distinct
      refine (hd a (by simp [leaf])).2 ?_
      rw [← Option.some.inj heq]
      simp [mem_outer_append, mem_outer_cons]
    obtain ⟨m1, hm1, h1, hg1⟩ := hf.set_balance_above f.side.sign
    obtain ⟨m2, hm2, h2, hg2⟩ :=
      ih (f.map tilt :: c) m1 fuel (holds_append.mpr h1) hled.1 (by omega)
    refine ⟨m2, ?_, ?_, by rw [hg2, hg1]⟩
    · rw [plug_append, plug_cons, plug_nil, fill_eq_bin, ptr_bin]
      simp only [insert_adjust, if_neg hne, Memory.load_eq hcell, ok_bind, cellOn_key]
      cases hs : f.side
      · rw [hs] at hside hm1
        rw [if_pos (hside.mpr rfl)]
        simp only [Side.sign] at hm1
        simp only [hm1, ok_bind, cellOn, cell]
        exact hm2
      · rw [hs] at hside hm1
        rw [if_neg (by simp [hside])]
        simp only [Side.sign] at hm1
        simp only [hm1, ok_bind, cellOn, cell]
        exact hm2
    · rw [List.map_append, List.append_assoc]
      exact h2

end Adjust

/-! ## The whole insertion -/

section Whole

variable [RankBalance ω]

/-- `t'` is `t` with a node for `key` at the end of the route. -/
structure Inserted (compare_fun : κ → κ → Int) (key : κ) (t t' : BinaryTree (Item κ ω)) : Prop where
  labels : ∃ a, labels t' =
    (before (route (fun i => compare_fun key i.key) t [])).map (fun i => (i.addr, i.key)) ++
      (a, key) :: (after (route (fun i => compare_fun key i.key) t [])).map
        (fun i => (i.addr, i.key))
  balanced : Balanced t'
  spaced : Spaced t → weight t + 1 < 2 ^ 30 → Spaced t' ∧ weight t' ≤ weight t + 1

theorem leaf_balanced [LawfulRankBalance ω] (a : Nat) (key : κ) :
    Balanced (leaf a key : BinaryTree (Item κ ω)) := by
  have h : AVL_GET_BALANCE (AVL_SET_RANK (AVL_SET_BALANCE (RankBalance.zero : ω) 0) 1) = 0 := by
    rw [LawfulRankBalance.balance_set_rank]
    exact LawfulRankBalance.balance_set_balance _ 0 (by decide) (by decide)
  simp [leaf, Balanced, BalancedAt, Item.balance, h]

theorem leaf_spaced [LawfulRankBalance ω] (a : Nat) (key : κ) :
    Spaced (leaf a key : BinaryTree (Item κ ω)) ∧
      weight (leaf a key : BinaryTree (Item κ ω)) = 1 := by
  have hzero : 0 ≤ AVL_GET_RANK (AVL_SET_BALANCE (RankBalance.zero : ω) 0) := by
    rw [LawfulRankBalance.rank_set_balance _ 0 (by decide) (by decide)]
    exact LawfulRankBalance.rank_zero
  have h : AVL_GET_RANK (AVL_SET_RANK (AVL_SET_BALANCE (RankBalance.zero : ω) 0) 1) = 1 :=
    LawfulRankBalance.rank_set_rank _ 1 hzero (by decide) (by decide)
  simp [leaf, Spaced, SpacedAt, weight, Item.rank, h]

variable {compare_fun : κ → κ → Int} {key : κ} {t : BinaryTree (Item κ ω)}

omit [RankBalance ω] in
theorem numNodes_of_labels {u : BinaryTree (Item κ ω)} {a : Nat}
    (h : labels u = (before (route (fun i => compare_fun key i.key) t [])).map
        (fun i => (i.addr, i.key)) ++
      (a, key) :: (after (route (fun i => compare_fun key i.key) t [])).map
        (fun i => (i.addr, i.key))) :
    u.numNodes = t.numNodes + 1 := by
  have hplug := plug_route (fun i => compare_fun key i.key) t []
  rw [plug_nil] at hplug
  have hlen := congrArg List.length h
  have ht := labels_length t
  rw [← hplug, labels_plug] at ht
  rw [hplug] at ht
  rw [labels_length] at hlen
  simp [labels] at hlen ht
  omega

theorem labels_bumped (a : Nat) :
    labels (plug ((route (fun i => compare_fun key i.key) t []).map (Frame.map bump))
      (leaf a key)) =
      (before (route (fun i => compare_fun key i.key) t [])).map (fun i => (i.addr, i.key)) ++
        (a, key) :: (after (route (fun i => compare_fun key i.key) t [])).map
          (fun i => (i.addr, i.key)) := by
  rw [labels_plug_map bump fun d i => ⟨bump_addr d i, bump_key d i⟩, labels_plug]
  simp [leaf, labels]

theorem height_bumped :
    (plug ((route (fun i => compare_fun key i.key) t []).map (Frame.map bump)) .nil).height =
      t.height := by
  rw [height_plug_map bump _ .nil .nil rfl, plug_route, plug_nil]

theorem Inserted.ranked {t' : BinaryTree (Item κ ω)} (h : Inserted compare_fun key t t')
    (hr : Ranked t) (hsize : t.numNodes + 1 < 2 ^ 30) : Ranked t' := by
  obtain ⟨hspaced, hweight⟩ := (ranked_iff t).mp hr
  obtain ⟨a, hlab⟩ := h.labels
  have hcount := numNodes_of_labels hlab
  obtain ⟨hspaced', hle⟩ := h.spaced hspaced (by omega)
  have hge := hspaced'.numNodes_le
  exact (ranked_iff t').mpr ⟨hspaced', by omega⟩

variable [LawfulRankBalance ω]

theorem spaced_bumped (compare_fun : κ → κ → Int) (key : κ) (ht : Spaced t)
    (hsize : weight t + 1 < 2 ^ 30) {u : BinaryTree (Item κ ω)} (hu : Spaced u)
    (hw : weight u ≤ 1) :
    Spaced (plug ((route (fun i => compare_fun key i.key) t []).map (Frame.map bump)) u) ∧
      weight (plug ((route (fun i => compare_fun key i.key) t []).map (Frame.map bump)) u) ≤
      weight t + 1 := by
  have hplug := plug_route (fun i => compare_fun key i.key) t []
  rw [plug_nil] at hplug
  have hb := bump_spaced (route (fun i => compare_fun key i.key) t []) .nil u (by rwa [hplug]) hu
    (by simpa [weight] using hw) (by rwa [hplug])
  rwa [hplug] at hb

theorem balanced_bumped (compare_fun : κ → κ → Int) (key : κ) (ht : Balanced t) :
    Above BalancedAt ((route (fun i => compare_fun key i.key) t []).map (Frame.map bump)) .nil := by
  have hplug := plug_route (fun i => compare_fun key i.key) t []
  rw [plug_nil] at hplug
  have habove := (everywhere_plug _ _).mp (hplug.symm ▸ ht : Balanced (plug _ .nil))
  exact above_balanced_map bump bump_balance _ .nil .nil rfl habove.2

variable {below above : List (Frame (Item κ ω))} {f : Frame (Item κ ω)} {a : Nat}

theorem inserted_settled
    (hpath : (route (fun i => compare_fun key i.key) t []).map (Frame.map bump) =
      below ++ f :: above)
    (ht : Balanced t) {u : BinaryTree (Item κ ω)}
    (hlab : labels u = labels (f.fill (plug (below.map (Frame.map tilt)) (leaf a key))))
    (hu : Balanced u) (hheight : u.height = (f.fill (plug below .nil)).height)
    (hspace : Spaced (f.fill (plug (below.map (Frame.map tilt)) (leaf a key))) →
      weight (f.fill (plug (below.map (Frame.map tilt)) (leaf a key))) < 2 ^ 30 →
      Spaced u ∧ weight u = weight (f.fill (plug (below.map (Frame.map tilt)) (leaf a key)))) :
    Inserted compare_fun key t (plug above u) ∧ (plug above u).height = t.height := by
  have habove := balanced_bumped compare_fun key ht
  rw [hpath, above_append, Above] at habove
  have hX : labels (plug above (f.fill (plug (below.map (Frame.map tilt)) (leaf a key)))) =
      labels (plug (below ++ f :: above) (leaf a key)) := by
    rw [← plug_cons, plug_append]
    exact labels_plug_congr _ _ _ (labels_plug_map tilt (fun _ _ => ⟨rfl, rfl⟩) below _)
  have hlabels : labels (plug above u) = _ := (labels_plug_congr above _ _ hlab).trans
    (hX.trans (hpath ▸ labels_bumped a))
  refine ⟨⟨⟨a, hlabels⟩, ?_, ?_⟩, ?_⟩
  · exact (everywhere_plug _ _).mpr ⟨hu, above_balanced_congr above _ _ hheight.symm habove.2.2.2⟩
  · intro hs hsize
    obtain ⟨hleaf, hone⟩ := leaf_spaced a key (ω := ω)
    obtain ⟨hbumped, hle⟩ := spaced_bumped compare_fun key hs hsize hleaf hone.le
    rw [hpath, plug_append] at hbumped hle
    obtain ⟨hbelow, hcons⟩ := (everywhere_plug _ _).mp hbumped
    obtain ⟨htilt, hwtilt⟩ := spaced_plug_map tilt tilt_rank below (leaf a key) hbelow
    obtain ⟨hall, hwall⟩ := spaced_plug_congr (f :: above) _ _ hwtilt.symm htilt hcons
    rw [plug_cons] at hall hwall
    obtain ⟨hfill, hup⟩ := (everywhere_plug _ _).mp hall
    have hlt := weight_le_plug above _ hall
    obtain ⟨hu', hw⟩ := hspace hfill (by omega)
    obtain ⟨hdone, hwdone⟩ := spaced_plug_congr above _ u hw.symm hu' hup
    exact ⟨hdone, by omega⟩
  · rw [height_plug above _ _ hheight, ← plug_cons, ← plug_append, ← hpath, height_bumped]

theorem taller_child
    (hpath : (route (fun i => compare_fun key i.key) t []).map (Frame.map bump) =
      below ++ f :: above)
    (hlevel : ∀ g ∈ below, g.value.balance = 0) (ht : Balanced t) :
    Balanced (plug (below.map (Frame.map tilt)) (leaf a key)) ∧
      (plug (below.map (Frame.map tilt)) (leaf a key)).height = (plug below .nil).height + 1 ∧
      Balanced (f.fill (plug below .nil)) := by
  have habove := balanced_bumped compare_fun key ht
  rw [hpath, above_append] at habove
  obtain ⟨hX, hXh⟩ :=
    tilt_balanced below .nil (leaf a key) hlevel habove.1 (leaf_balanced a key) rfl
  refine ⟨hX, hXh, ?_⟩
  have hbelow : Balanced (plug below .nil) := (everywhere_plug _ _).mpr ⟨trivial, habove.1⟩
  have hall : Balanced (plug (f :: above) (plug below .nil)) :=
    (everywhere_plug _ _).mpr ⟨hbelow, habove.2⟩
  rw [plug_cons] at hall
  exact ((everywhere_plug _ _).mp hall).1

theorem inserted_grown
    (hpath : (route (fun i => compare_fun key i.key) t []).map (Frame.map bump) = below)
    (hlevel : ∀ g ∈ below, g.value.balance = 0) (ht : Balanced t) :
    Inserted compare_fun key t (plug (below.map (Frame.map tilt)) (leaf a key)) ∧
      (plug (below.map (Frame.map tilt)) (leaf a key)).height = t.height + 1 := by
  have hwhole := balanced_bumped compare_fun key ht
  rw [hpath] at hwhole
  obtain ⟨hbal, hgrown⟩ :=
    tilt_balanced below .nil (leaf a key) hlevel hwhole (leaf_balanced a key) rfl
  refine ⟨⟨⟨a, ?_⟩, hbal, fun hr hsize => ?_⟩, ?_⟩
  · rw [labels_plug_map tilt fun _ _ => ⟨rfl, rfl⟩, ← hpath, labels_bumped]
  · obtain ⟨hleaf, hone⟩ := leaf_spaced a key (ω := ω)
    obtain ⟨hbumped, hle⟩ := spaced_bumped compare_fun key hr hsize hleaf hone.le
    rw [hpath] at hbumped hle
    obtain ⟨htilt, hwtilt⟩ := spaced_plug_map tilt tilt_rank below (leaf a key) hbumped
    exact ⟨htilt, by omega⟩
  · rw [hgrown, ← hpath, height_bumped]

theorem inserted_evened
    (hpath : (route (fun i => compare_fun key i.key) t []).map (Frame.map bump) =
      below ++ f :: above)
    (hlevel : ∀ g ∈ below, g.value.balance = 0) (ht : Balanced t)
    (hb : f.value.balance = -f.side.sign) :
    Inserted compare_fun key t
        (plug above
        ((f.map fun _ i => i.setBalance 0).fill (plug (below.map (Frame.map tilt)) (leaf a key)))) ∧
      (plug above
      ((f.map fun _ i => i.setBalance 0).fill
      (plug (below.map (Frame.map tilt)) (leaf a key)))).height =
        t.height := by
  obtain ⟨hX, hXh, hfill⟩ := taller_child (a := a) hpath hlevel ht
  obtain ⟨⟨hfb, -, -⟩, -, hsib⟩ := (balanced_fill _ _).mp hfill
  have hXs : (plug (below.map (Frame.map tilt)) (leaf a key)).height = f.sibling.height := by
    rw [hb] at hfb
    cases hs : f.side <;> simp only [hs, Side.sign] at hfb <;> omega
  refine inserted_settled (a := a) hpath ht ?_ ?_ ?_ ?_
  · exact labels_plug_map (fun _ i => Item.setBalance i 0) (fun _ _ => ⟨rfl, rfl⟩) [f] _
  · rw [balanced_fill]
    simp only [Frame.map_side, Frame.map_value, Frame.map_sibling, hXs,
      Item.setBalance_balance _ (show (-1 : Int) ≤ 0 by decide) (show (0 : Int) ≤ 1 by decide)]
    exact ⟨⟨by simp, by decide, by decide⟩, hX, hsib⟩
  · rw [height_fill, height_fill, Frame.map_sibling]
    omega
  · exact fun hs _ => spaced_plug_map (fun _ i => Item.setBalance i 0)
      (fun _ i => Item.setBalance_rank i (by decide) (by decide)) [f] _ hs

variable [HasNull κ] {m : Memory (avl_node κ ω)} {root : Nat}

theorem insert_rotate_spec {d g : Side} {p q : Item κ ω} {y z e : BinaryTree (Item κ ω)}
    {c : List (Frame (Item κ ω))} (x : Ptr) (h : Holds m root c (bin d p (bin g q y z) e))
    (hX : Balanced (bin g q y z)) (he : Balanced e) (hXh : (bin g q y z).height = e.height + 2)
    (hq : q.balance = g.sign) :
    ∃ m' u top pq, insert_rotate m d.sign (some p.addr) (some q.addr) x = .ok (m', some top) ∧
      ptr u = some top ∧ Owns m' pq u ∧ Touches (addrs (bin d p (bin g q y z) e)) m m' ∧
      labels u = labels (bin d p (bin g q y z) e) ∧ Balanced u ∧ u.height = e.height + 2 ∧
      (Spaced (bin d p (bin g q y z) e) → weight (bin d p (bin g q y z) e) < 2 ^ 30 →
        Spaced u ∧ weight u = weight (bin d p (bin g q y z) e)) := by
  rcases Side.eq_or_flip d g with rfl | rfl
  · obtain ⟨m', hrun, hown, ht⟩ := insert_rotate_single x h hq
    obtain ⟨hbal, hheight⟩ := single_settles (p := p) hX he hq hXh
    refine ⟨m', _, q.addr, _, hrun, ?_, hown, ht, single_labels g p q 0 0 y z e, hbal, hheight, ?_⟩
    · rw [single, ptr_bin, Item.setBalance_addr, singleInner_addr]
    · exact fun hs hsize =>
        single_spaced g p q 0 0 y z e hs hsize (by decide) (by decide) (by decide) (by decide)
  · rw [bin_flip] at h hX hXh ⊢
    have hq' : q.balance = -d.sign := by
      rw [hq]
      cases d <;> rfl
    -- the subtree on the path is the higher one, so it has a node to put on top
    have hy : y ≠ .nil := by
      rintro rfl
      obtain ⟨⟨hbal, -, -⟩, -⟩ := (balanced_bin d q z .nil).mp hX
      rw [hq'] at hbal
      cases d
      · simp [Side.sign] at hbal
        omega
      · simp [Side.sign] at hbal
    obtain ⟨r, b, e', rfl⟩ := exists_bin d y hy
    obtain ⟨m', hrun, hown, ht⟩ := insert_rotate_double x h hq'
    obtain ⟨hbal, hheight⟩ := double_settles (p := p) hX he hq' hXh
    refine ⟨m', _, r.addr, _, hrun, ?_, hown, ht, double_labels d p q r z b e' e, hbal, hheight, ?_⟩
    · rw [double, ptr_bin, Item.setBalance_addr, doubleTop_addr]
    · exact double_spaced d p q r z b e' e

/-- The longer side of `s` grew, and `s` is exchanged for what the rotations put there. -/
theorem insert_rotate_settles
    (hpath : (route (fun i => compare_fun key i.key) t []).map (Frame.map bump) =
      below ++ f :: above)
    (hlevel : ∀ g ∈ below, g.value.balance = 0) (ht : Balanced t)
    (hb : f.value.balance = f.side.sign)
    (h : Holds m root (f :: above) (plug (below.map (Frame.map tilt)) (leaf a key))) :
    ∃ m1 m2 top u,
      insert_rotate m f.side.sign (some f.value.addr) (ptr (plug below (leaf a key))) (some a) =
        .ok (m1, top) ∧
      insert_finish m1 (upper root above) (some f.value.addr) top = .ok m2 ∧ Holds m2 root above u ∧
      m2.grants = m.grants ∧ Inserted compare_fun key t (plug above u) ∧
      (plug above u).height = t.height := by
  obtain ⟨hX, hXh, hfill⟩ := taller_child (a := a) hpath hlevel ht
  obtain ⟨⟨hfb, -, -⟩, -, hsib⟩ := (balanced_fill _ _).mp hfill
  have hdiff : (plug below .nil).height = f.sibling.height + 1 := by
    rw [hb] at hfb
    cases hs : f.side <;> simp only [hs, Side.sign] at hfb <;> omega
  have hold : (f.fill (plug below .nil)).height = f.sibling.height + 2 := by
    rw [height_fill, hdiff]
    omega
  -- the child of `s` on the path
  rcases List.eq_nil_or_concat' below with rfl | ⟨b, g, rfl⟩
  · simp at hdiff
  have hchild : plug ((b ++ [g]).map (Frame.map tilt)) (leaf a key) =
      bin g.side (tilt g.side g.value) (plug (b.map (Frame.map tilt)) (leaf a key)) g.sibling := by
    rw [List.map_append, plug_append, List.map_singleton, plug_cons, plug_nil, fill_eq_bin]
    rfl
  have hptr : ptr (plug (b ++ [g]) (leaf a key)) = some (tilt g.side g.value).addr := by
    rw [plug_append, plug_cons, plug_nil, fill_eq_bin, ptr_bin, tilt_addr]
  rw [holds_cons, hchild, fill_eq_bin] at h
  rw [hdiff, hchild] at hXh
  rw [hchild] at hX
  obtain ⟨m1, u, top, pq, hm1, hu, hown, htouch, hlab, hbal, hh, hr⟩ :=
    insert_rotate_spec (some a) h hX hsib hXh (tilt_balance _ _)
  obtain ⟨m2, hm2, h2, hg2⟩ := insert_finish_spec h (ptr_bin _ _ _ _) hu htouch hown hlab
  refine ⟨m1, m2, some top, u, by rw [hptr, hm1], hm2, h2, hg2,
    inserted_settled (a := a) hpath ht ?_ hbal ?_ ?_⟩
  · rw [hchild, fill_eq_bin]
    exact hlab
  · rw [hh, hold]
  · rw [hchild, fill_eq_bin]
    exact hr

/-- What `avl_insert` returns and leaves behind. -/
structure InsertDone (ob ob' : avl_tree κ ω) (key : κ) (t t' : BinaryTree (Item κ ω)) : Prop where
  stores : Stores ob' t'
  inserted : Inserted ob.compare_fun key t t'
  compare_fun : ob'.compare_fun = ob.compare_fun
  root : ob'.root = ob.root
  height : ∃ grown, t'.height = t.height + grown ∧
    ob'.height = if t.height = 0 then ob.height else ob.height + BitVec.ofNat 32 grown

theorem avl_insert_nil {ob : avl_tree κ ω} (h : Stores ob .nil) :
    ∃ ob' t', avl_insert ob key = .ok (0, ob') ∧ InsertDone ob ob' key .nil t' := by
  obtain ⟨root, hroot, hheld⟩ := h.held
  obtain ⟨n, hn, hright, -, -⟩ := hheld.load_root
  obtain ⟨a, m1, m2, hm1, hm2, h2, hg2⟩ := new_leaf_spec key hheld h.generous
  refine ⟨{ ob with mem := m2, length := ob.length + 1 }, leaf a key, ?_, ?_⟩
  · simp only [upper, hangs, set_child] at hm1 hm2
    simp only [avl_insert, hroot, hn, ok_bind, hright, plug_nil, ptr, hm1, hm2, pure_eq_ok]
  · refine ⟨⟨⟨root, hroot, h2⟩, leaf_balanced a key, ?_, hg2⟩, ⟨⟨a, rfl⟩, leaf_balanced a key, ?_⟩,
      rfl, rfl, ?_⟩
    · rw [h.length]
      rfl
    · intro _ _
      obtain ⟨hleaf, hone⟩ := leaf_spaced a key (ω := ω)
      exact ⟨hleaf, by simp [hone, weight]⟩
    · exact ⟨1, rfl, (if_pos rfl).symm⟩

omit [LawfulRankBalance ω] in
theorem Inserted.length {ob : avl_tree κ ω} {u : BinaryTree (Item κ ω)}
    (hins : Inserted ob.compare_fun key t u) (h : Stores ob t) :
    ob.length + 1 = BitVec.ofNat 32 u.numNodes := by
  obtain ⟨⟨_, hu⟩, -, -⟩ := hins
  rw [numNodes_of_labels hu, h.length]
  simp [BitVec.ofNat_add]

omit [LawfulRankBalance ω] in
theorem Inserted.done {ob : avl_tree κ ω} {u : BinaryTree (Item κ ω)} {height : BitVec 32}
    {grown : Nat} (hins : Inserted ob.compare_fun key t u) (h : Stores ob t)
    (hroot : ob.root = some root) (hpos : t.height ≠ 0) (hu : Holds m root [] u) (hm : m.Generous)
    (hgrown : u.height = t.height + grown) (hheight : height = ob.height + BitVec.ofNat 32 grown) :
    InsertDone ob { ob with root := some root, mem := m, length := ob.length + 1, height := height }
      key t u :=
  ⟨⟨⟨root, rfl, hu⟩, hins.balanced, hins.length h, hm⟩, hins, rfl, hroot.symm, grown, hgrown,
    hheight.trans (if_neg hpos).symm⟩

theorem avl_insert_adjusted (key : κ) {ob : avl_tree κ ω} {i : Item κ ω}
    {l r : BinaryTree (Item κ ω)} (h : Stores ob (.node i l r)) (hroot : ob.root = some root)
    (hheld : Holds ob.mem root [] (.node i l r)) :
    ∃ m a below f above, (route (fun i => ob.compare_fun key i.key) (.node i l r) []).map
      (Frame.map bump) =
        below ++ f :: above ∧
      (∀ g ∈ below, g.value.balance = 0) ∧ (above = [] ∨ f.value.balance ≠ 0) ∧
      Holds m root (f :: above) (plug (below.map (Frame.map tilt)) (leaf a key)) ∧ m.Generous ∧
      avl_insert ob key =
        if f.value.balance = 0 then do
          let m ← set_balance m (some f.value.addr) f.side.sign
          return (0,
          { ob with root := some root, mem := m, length := ob.length + 1, height := ob.height + 1 })
        else if f.value.balance = -f.side.sign then do
          let m ← set_balance m (some f.value.addr) 0
          return (0, { ob with root := some root, mem := m, length := ob.length + 1 })
        else if f.value.balance = f.side.sign then do
          let (m, p) ← insert_rotate m f.side.sign (some f.value.addr)
            (ptr (plug below (leaf a key))) (some a)
          let m ← insert_finish m (upper root above) (some f.value.addr) p
          return (0, { ob with root := some root, mem := m, length := ob.length + 1 })
        else return (0, { ob with root := some root, mem := m, length := ob.length + 1 }) := by
  obtain ⟨n, hn, hright, -, -⟩ := hheld.load_root
  have hbound := hheld.numNodes_lt_size
  have hheight := BinaryTree.height_le_numNodes (.node i l r)
  rw [plug_nil] at hbound hright
  obtain ⟨m1, t, s, a, hm1, h1, hmark, hg1⟩ :=
    insert_search_spec ob.compare_fun key root (.node i l r) []
      ob.mem (some root) (some i.addr) (ob.mem.size + 1) i l r rfl hheld h.generous
      (Or.inl ⟨rfl, rfl, Or.inl rfl⟩) (by omega)
  rw [List.append_nil] at h1 hmark
  obtain ⟨below, f, above, hpath, hlevel, hcrit, rfl, rfl⟩ := hmark
  have hlen := route_length_le (fun i => ob.compare_fun key i.key) (.node i l r)
  rw [← List.length_map (Frame.map bump), hpath, List.length_append, List.length_cons] at hlen
  have hled : Led (fun i => ob.compare_fun key i.key) (· < 1) (below ++ f :: above) := by
    rw [← hpath, led_map _ _ bump fun d i => by rw [bump_key]]
    exact led_route _ _ [] (by simp [Led])
  rw [led_append] at hled
  rw [hpath] at h1
  obtain ⟨m2, hm2, h2, hg2⟩ :=
    insert_adjust_spec ob.compare_fun key root a key below (f :: above) m1
      (ob.mem.size + 1) h1 hled.1 (by omega)
  have hcell1 := (holds_append.mp h1).around.1
  have h2' := holds_append.mp h2
  obtain ⟨hnext, hsign⟩ :=
    insert_next_cell (ptr (plug below (leaf a key))) (upper root above) (led_side hled.2)
  have htop : n.right = some i.addr := hright
  refine ⟨m2, a, below, f, above, hpath, hlevel, hcrit, h2', fun n => hg2 ▸ hg1 n, ?_⟩
  simp only [avl_insert, hroot, hn, ok_bind, htop, hm1, Memory.load_eq hcell1, cellOn_key, hnext,
    hsign, hm2, get_balance_cell h2'.around.1]

theorem avl_insert_node {ob : avl_tree κ ω} {i : Item κ ω} {l r : BinaryTree (Item κ ω)}
    (h : Stores ob (.node i l r)) :
    ∃ ob' t', avl_insert ob key = .ok (0, ob') ∧ InsertDone ob ob' key (.node i l r) t' := by
  obtain ⟨root, hroot, hheld⟩ := h.held
  obtain ⟨m2, a, below, f, above, hpath, hlevel, hcrit, h2, hgen2, hrun⟩ :=
    avl_insert_adjusted key h hroot hheld
  have hpos : (BinaryTree.node i l r).height ≠ 0 := by simp
  rw [hrun]
  by_cases hb0 : f.value.balance = 0
  · -- `s` is the top of the tree, which grows
    obtain rfl : above = [] := hcrit.resolve_right (by simpa using hb0)
    obtain ⟨m3, hm3, h3, hg3⟩ := h2.set_balance_above f.side.sign
    have hlevels : ∀ g ∈ below ++ [f], g.value.balance = 0 := by
      simpa [hb0, or_imp, forall_and] using hlevel
    obtain ⟨hins, hgrown⟩ := inserted_grown (a := a) hpath hlevels h.balanced
    rw [if_pos hb0, hm3]
    refine ⟨_, _, rfl, hins.done h hroot hpos ?_ (fun n => hg3 ▸ hgen2 n) hgrown rfl⟩
    rw [List.map_append, plug_append]
    exact holds_cons.mp h3
  rw [if_neg hb0]
  -- otherwise the subtree at `s` keeps its height
  have hkeep {m' : Memory (avl_node κ ω)} {u : BinaryTree (Item κ ω)} (hu : Holds m' root above u)
    (hg' : m'.Generous)
      (hins : Inserted ob.compare_fun key (.node i l r) (plug above u) ∧
        (plug above u).height = (BinaryTree.node i l r).height) :=
    hins.1.done h hroot hpos (holds_plug.mp hu) hg' hins.2 (BitVec.add_zero ob.height).symm
  by_cases hb1 : f.value.balance = -f.side.sign
  · -- the shorter side of `s` caught up
    obtain ⟨m3, hm3, h3, hg3⟩ := h2.set_balance_above 0
    rw [if_pos hb1, hm3]
    exact ⟨_, _, rfl, hkeep (holds_cons.mp h3) (fun n => hg3 ▸ hgen2 n)
      (inserted_evened (a := a) hpath hlevel h.balanced hb1)⟩
  · have hb2 : f.value.balance = f.side.sign := by
      obtain ⟨-, -, hfill⟩ := taller_child (a := a) hpath hlevel h.balanced
      obtain ⟨⟨-, hfb1, hfb2⟩, -⟩ := (balanced_fill _ _).mp hfill
      cases hs : f.side <;> rw [hs] at hb1 <;> simp only [Side.sign] at hb1 ⊢ <;> omega
    obtain ⟨m3, m4, top, u, hm3, hm4, h4, hg4, hins⟩ :=
      insert_rotate_settles hpath hlevel h.balanced hb2 h2
    rw [if_neg hb1, if_pos hb2, hm3, ok_bind]
    dsimp only
    rw [hm4]
    exact ⟨_, _, rfl, hkeep h4 (fun n => hg4 ▸ hgen2 n) hins⟩

/-- **A successful insertion.** The new key stands at the end of its route, and the tree is
balanced. -/
theorem avl_insert_spec {ob : avl_tree κ ω} (key : κ) (h : Stores ob t) :
    ∃ ob' t', avl_insert ob key = .ok (0, ob') ∧ InsertDone ob ob' key t t' := by
  cases t with
  | nil => exact avl_insert_nil h
  | node i l r => exact avl_insert_node h

end Whole

end Avl
