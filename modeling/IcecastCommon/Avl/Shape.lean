import IcecastCommon.Avl.Tree

/-!
# The tree in the memory

`Holds m root c t` says that `m` holds the tree `plug c t` below the sentinel `root`, with
every parent pointer right. The focus `t` is where the code works, and the frames `c` are
the path to it.
-/

namespace Avl

open Lib

variable {κ ω : Type}

/-- The cell of a node. -/
def cell (i : Item κ ω) (left right parent : Ptr) : avl_node κ ω :=
  ⟨i.key, left, right, parent, i.word⟩

/-- The cell of a node with `x` on side `d` and `y` on the other. -/
def cellOn (d : Side) (i : Item κ ω) (x y parent : Ptr) : avl_node κ ω :=
  match d with
  | .left => cell i x y parent
  | .right => cell i y x parent

@[simp] theorem cellOn_key (d : Side) (i : Item κ ω) (x y p : Ptr) :
    (cellOn d i x y p).key = i.key := by
  cases d <;> rfl
@[simp] theorem cellOn_parent (d : Side) (i : Item κ ω) (x y p : Ptr) :
    (cellOn d i x y p).parent = p := by
  cases d <;> rfl
@[simp] theorem cellOn_word (d : Side) (i : Item κ ω) (x y p : Ptr) :
    (cellOn d i x y p).rank_and_balance = i.word := by
  cases d <;> rfl

theorem cellOn_flip (d : Side) (i : Item κ ω) (x y p : Ptr) :
    cellOn d.flip i x y p = cellOn d i y x p := by
  cases d <;> rfl

def addrs (t : BinaryTree (Item κ ω)) : List Nat := (inorder t).map (·.addr)

@[simp] theorem addrs_nil : addrs (.nil : BinaryTree (Item κ ω)) = [] := rfl

@[simp] theorem addrs_node (i : Item κ ω) (l r : BinaryTree (Item κ ω)) :
    addrs (.node i l r) = addrs l ++ i.addr :: addrs r := by
  simp [addrs]

theorem mem_addrs_bin (d : Side) (i : Item κ ω) (x y : BinaryTree (Item κ ω)) (a : Nat) :
    a ∈ addrs (bin d i x y) ↔ a = i.addr ∨ a ∈ addrs x ∨ a ∈ addrs y := by
  cases d <;> simp [bin] <;> tauto

theorem nodup_bin (d : Side) (i : Item κ ω) (x y : BinaryTree (Item κ ω)) :
    (addrs (bin d i x y)).Nodup ↔ (addrs x).Nodup ∧ (addrs y).Nodup ∧ i.addr ∉ addrs x ∧
      i.addr ∉ addrs y ∧ ∀ a ∈ addrs x, a ∉ addrs y := by
  cases d <;> simp [bin, List.nodup_append] <;> grind

theorem ptr_mem {t : BinaryTree (Item κ ω)} {a : Nat} (h : ptr t = some a) : a ∈ addrs t := by
  cases t with
  | nil => simp [ptr] at h
  | node i l r =>
    simp only [ptr, Option.some.injEq] at h
    simp [h]

/-- The memory holds `t` below the node `parent`. -/
def Owns (m : Memory (avl_node κ ω)) : Ptr → BinaryTree (Item κ ω) → Prop
  | _, .nil => True
  | parent, .node i l r => m.get i.addr = some (cell i (ptr l) (ptr r) parent) ∧
      Owns m (some i.addr) l ∧ Owns m (some i.addr) r

theorem owns_bin (m : Memory (avl_node κ ω)) (parent : Ptr) (d : Side) (i : Item κ ω)
    (x y : BinaryTree (Item κ ω)) :
    Owns m parent (bin d i x y) ↔ m.get i.addr = some (cellOn d i (ptr x) (ptr y) parent) ∧
      Owns m (some i.addr) x ∧ Owns m (some i.addr) y := by
  cases d
  · rfl
  · simp only [bin, Owns, cellOn]
    tauto

theorem owns_congr {m m' : Memory (avl_node κ ω)} {t : BinaryTree (Item κ ω)} {parent : Ptr}
    (ht : Owns m parent t) (h : ∀ a ∈ addrs t, m'.get a = m.get a) : Owns m' parent t := by
  induction t generalizing parent with
  | nil => trivial
  | node i l r ihl ihr =>
    obtain ⟨hi, hl, hr⟩ := ht
    simp only [addrs_node, List.mem_append, List.mem_cons] at h
    exact ⟨by rw [h i.addr (by simp), hi], ihl hl (fun a ha => h a (Or.inl ha)),
      ihr hr (fun a ha => h a (Or.inr (Or.inr ha)))⟩

theorem owns_live {m : Memory (avl_node κ ω)} {t : BinaryTree (Item κ ω)} {parent : Ptr}
    (ht : Owns m parent t) : ∀ a ∈ addrs t, (m.get a).isSome := by
  induction t generalizing parent with
  | nil => simp
  | node i l r ihl ihr =>
    obtain ⟨hi, hl, hr⟩ := ht
    simp only [addrs_node, List.mem_append, List.mem_cons]
    rintro a (ha | rfl | ha)
    · exact ihl hl a ha
    · rw [hi]
      rfl
    · exact ihr hr a ha

/-! ## The path to the focus -/

/-- The addresses in the frames. -/
def outer (c : List (Frame (Item κ ω))) : List Nat := (before c ++ after c).map (·.addr)

theorem mem_outer_cons (f : Frame (Item κ ω)) (c : List (Frame (Item κ ω))) (a : Nat) :
    a ∈ outer (f :: c) ↔ a = f.value.addr ∨ a ∈ addrs f.sibling ∨ a ∈ outer c := by
  cases hs : f.side <;> simp [outer, before, after, hs, addrs] <;> grind

theorem mem_addrs_plug (c : List (Frame (Item κ ω))) (t : BinaryTree (Item κ ω)) (a : Nat) :
    a ∈ addrs (plug c t) ↔ a ∈ outer c ∨ a ∈ addrs t := by
  simp only [addrs, outer, inorder_plug, List.map_append, List.mem_append]
  tauto

theorem mem_outer_append (b c : List (Frame (Item κ ω))) (a : Nat) :
    a ∈ outer (b ++ c) ↔ a ∈ outer b ∨ a ∈ outer c := by
  induction b with
  | nil => simp [outer, before, after]
  | cons f b ih =>
    rw [List.cons_append, mem_outer_cons, mem_outer_cons, ih]
    tauto

theorem ptr_plug (f : Frame (Item κ ω)) (c : List (Frame (Item κ ω))) (t : BinaryTree (Item κ ω)) :
    ∃ a ∈ outer (f :: c), ptr (plug (f :: c) t) = some a := by
  induction c generalizing f t with
  | nil =>
    refine ⟨f.value.addr, (mem_outer_cons f [] _).mpr (Or.inl rfl), ?_⟩
    rw [plug_cons, plug_nil, fill_eq_bin, ptr_bin]
  | cons g c ih =>
    obtain ⟨a, ha, hptr⟩ := ih g (f.fill t)
    exact ⟨a, (mem_outer_cons f _ a).mpr (Or.inr (Or.inr ha)), hptr⟩

/-- The node above the focus. -/
def upper (root : Nat) : List (Frame (Item κ ω)) → Ptr
  | [] => some root
  | f :: _ => some f.value.addr

theorem upper_mem {root a : Nat} {c : List (Frame (Item κ ω))} (h : upper root c = some a) :
    a = root ∨ a ∈ outer c := by
  cases c with
  | nil => exact Or.inl (Option.some.inj h).symm
  | cons f c => exact Or.inr ((mem_outer_cons f c a).mpr (Or.inl (Option.some.inj h).symm))

theorem distinct_iff (root : Nat) (c : List (Frame (Item κ ω))) (t : BinaryTree (Item κ ω)) :
    (root :: addrs (plug c t)).Nodup ↔
      (root :: outer c).Nodup ∧ (addrs t).Nodup ∧ ∀ a ∈ addrs t, a ≠ root ∧ a ∉ outer c := by
  simp only [addrs, outer, inorder_plug, List.map_append, List.nodup_cons, List.nodup_append,
    List.mem_append, not_or]
  constructor
  · rintro ⟨⟨⟨h1, h2⟩, h3⟩, ⟨h4, h5, h6⟩, h7, h8⟩
    refine ⟨⟨⟨h1, h3⟩, h4, h7, fun a ha b hb => h8 a (Or.inl ha) b hb⟩, h5, fun a ha =>
      ⟨?_, ?_, ?_⟩⟩
    · rintro rfl
      exact h2 ha
    · exact fun hb => h6 a hb a ha rfl
    · exact fun hb => h8 a (Or.inr ha) a hb rfl
  · rintro ⟨⟨⟨h1, h3⟩, h4, h7, h8⟩, h5, h9⟩
    refine ⟨⟨⟨h1, fun h2 => (h9 root h2).1 rfl⟩, h3⟩, ⟨h4, h5, ?_⟩, h7, ?_⟩
    · rintro a ha b hb rfl
      exact (h9 a hb).2.1 ha
    · rintro a (ha | ha) b hb
      · exact h8 a ha b hb
      · rintro rfl
        exact (h9 a ha).2.2 hb

theorem distinct_cons {root : Nat} {f : Frame (Item κ ω)} {c : List (Frame (Item κ ω))}
    (h : (root :: outer (f :: c)).Nodup) :
    (root :: outer c).Nodup ∧ f.value.addr ∉ addrs f.sibling ∧
      ∀ a, a = f.value.addr ∨ a ∈ addrs f.sibling → a ≠ root ∧ a ∉ outer c := by
  have h' := (distinct_iff root (f :: c) .nil).mpr ⟨h, by simp, by simp⟩
  rw [plug_cons, fill_eq_bin, distinct_iff] at h'
  obtain ⟨h1, h2, h3⟩ := h'
  refine ⟨h1, ((nodup_bin _ _ _ _).mp h2).2.2.2.1, fun a ha => h3 a ?_⟩
  rw [mem_addrs_bin]
  tauto

variable [HasNull κ]

/-- The memory holds the frames below the sentinel, with `hole` as the child that is left open. -/
def Around (m : Memory (avl_node κ ω)) (root : Nat) : List (Frame (Item κ ω)) → Ptr → Prop
  | [], hole => ∃ w, m.get root = some ⟨HasNull.NULL, none, hole, none, w⟩
  | f :: c, hole =>
    m.get f.value.addr = some (cellOn f.side f.value hole (ptr f.sibling) (upper root c)) ∧
      Owns m (some f.value.addr) f.sibling ∧ Around m root c (some f.value.addr)

theorem around_congr {m m' : Memory (avl_node κ ω)} {root : Nat} {c : List (Frame (Item κ ω))}
    {hole : Ptr} (hc : Around m root c hole)
    (h : ∀ a, a = root ∨ a ∈ outer c → m'.get a = m.get a) : Around m' root c hole := by
  induction c generalizing hole with
  | nil =>
    obtain ⟨w, hw⟩ := hc
    exact ⟨w, by rw [h root (Or.inl rfl), hw]⟩
  | cons f c ih =>
    obtain ⟨hf, hs, hc⟩ := hc
    simp only [mem_outer_cons] at h
    exact ⟨by rw [h f.value.addr (by simp), hf], owns_congr hs (fun a ha => h a (by simp [ha])),
      ih hc (fun a ha => h a (by tauto))⟩

/-- The memory holds `plug c t` below the sentinel. -/
structure Holds (m : Memory (avl_node κ ω)) (root : Nat) (c : List (Frame (Item κ ω)))
    (t : BinaryTree (Item κ ω)) : Prop where
  around : Around m root c (ptr t)
  owns : Owns m (upper root c) t
  distinct : (root :: addrs (plug c t)).Nodup

theorem holds_cons {m : Memory (avl_node κ ω)} {root : Nat} {f : Frame (Item κ ω)}
    {c : List (Frame (Item κ ω))} {t : BinaryTree (Item κ ω)} :
    Holds m root (f :: c) t ↔ Holds m root c (f.fill t) := by
  rw [fill_eq_bin]
  constructor
  · rintro ⟨⟨hf, hs, hc⟩, ht, hd⟩
    rw [plug_cons, fill_eq_bin] at hd
    exact ⟨by rw [ptr_bin]; exact hc, (owns_bin _ _ _ _ _ _).mpr ⟨hf, ht, hs⟩, hd⟩
  · rintro ⟨hc, ht, hd⟩
    obtain ⟨hf, ht, hs⟩ := (owns_bin _ _ _ _ _ _).mp ht
    rw [ptr_bin] at hc
    exact ⟨⟨hf, hs, hc⟩, ht, by rw [plug_cons, fill_eq_bin]; exact hd⟩

theorem holds_append {m : Memory (avl_node κ ω)} {root : Nat} {b c : List (Frame (Item κ ω))}
    {t : BinaryTree (Item κ ω)} : Holds m root (b ++ c) t ↔ Holds m root c (plug b t) := by
  induction b generalizing t with
  | nil => rfl
  | cons f b ih => rw [List.cons_append, holds_cons, ih, plug_cons]

theorem holds_plug {m : Memory (avl_node κ ω)} {root : Nat} {c : List (Frame (Item κ ω))}
    {t : BinaryTree (Item κ ω)} : Holds m root c t ↔ Holds m root [] (plug c t) := by
  rw [← holds_append, List.append_nil]

section Holding

variable {m : Memory (avl_node κ ω)} {root : Nat} {c : List (Frame (Item κ ω))}
  {t : BinaryTree (Item κ ω)}

theorem Holds.around_of_outside (h : Holds m root c t) {m1 m2 : Memory (avl_node κ ω)} {hole : Ptr}
    (hc : Around m1 root c hole) (hm : ∀ a, a ∉ addrs t → m2.get a = m1.get a) :
    Around m2 root c hole := by
  obtain ⟨-, -, hd⟩ := (distinct_iff root c t).mp h.distinct
  refine around_congr hc ?_
  rintro a (rfl | ha)
  · exact hm _ (fun hmem => (hd _ hmem).1 rfl)
  · exact hm _ (fun hmem => (hd _ hmem).2 ha)

theorem Holds.replace (h : Holds m root c t) {m' : Memory (avl_node κ ω)}
    {t' : BinaryTree (Item κ ω)} (hc : Around m' root c (ptr t')) (ht : Owns m' (upper root c) t')
    (hsub : (addrs t').Sublist (addrs t)) : Holds m' root c t' := by
  refine ⟨hc, ht, ?_⟩
  obtain ⟨h1, h2, h3⟩ := (distinct_iff root c t).mp h.distinct
  exact (distinct_iff root c t').mpr ⟨h1, h2.sublist hsub, fun a ha => h3 a (hsub.subset ha)⟩

theorem Holds.congr (h : Holds m root c t) {m' : Memory (avl_node κ ω)}
    (hm : ∀ a ∈ root :: addrs (plug c t), m'.get a = m.get a) : Holds m' root c t := by
  simp only [List.mem_cons, mem_addrs_plug] at hm
  exact ⟨around_congr h.around fun a ha => hm a (by tauto),
    owns_congr h.owns fun a ha => hm a (by tauto), h.distinct⟩

theorem Holds.live (h : Holds m root c t) :
    ∀ a ∈ root :: addrs (plug c t), (m.get a).isSome := by
  have h' := holds_plug.mp h
  obtain ⟨w, hw⟩ := h'.around
  intro a ha
  rcases List.mem_cons.mp ha with rfl | ha
  · rw [hw]
    rfl
  · exact owns_live h'.owns a ha

theorem Holds.numNodes_lt_size (h : Holds m root c t) : (plug c t).numNodes < m.size := by
  have hlen : (root :: addrs (plug c t)).length ≤ m.size := m.length_le_size h.distinct h.live
  rw [List.length_cons, addrs, List.length_map, inorder_length] at hlen
  omega

theorem Holds.load_root (h : Holds m root c t) :
    ∃ n, m.load (some root) = .ok n ∧ n.right = ptr (plug c t) ∧ n.left = none ∧
      n.parent = none := by
  obtain ⟨w, hw⟩ := (holds_plug.mp h).around
  exact ⟨_, Memory.load_eq hw, rfl, rfl, rfl⟩

theorem Holds.get_bin {d : Side} {i : Item κ ω} {x y : BinaryTree (Item κ ω)}
    (h : Holds m root c (bin d i x y)) :
    m.get i.addr = some (cellOn d i (ptr x) (ptr y) (upper root c)) :=
  ((owns_bin _ _ _ _ _ _).mp h.owns).1

theorem Holds.owns_below {d : Side} {i : Item κ ω} {x y : BinaryTree (Item κ ω)}
    (h : Holds m root c (bin d i x y)) : Owns m (some i.addr) x ∧ Owns m (some i.addr) y :=
  ((owns_bin _ _ _ _ _ _).mp h.owns).2

theorem Holds.nodup (h : Holds m root c t) : (addrs t).Nodup :=
  ((distinct_iff root c t).mp h.distinct).2.1

theorem Holds.get_node {i : Item κ ω} {l r : BinaryTree (Item κ ω)}
    (h : Holds m root c (.node i l r)) :
    m.get i.addr = some (cell i (ptr l) (ptr r) (upper root c)) :=
  h.owns.1

theorem Holds.update_item {i : Item κ ω} {l r : BinaryTree (Item κ ω)}
    (h : Holds m root c (.node i l r)) (i' : Item κ ω) (haddr : i'.addr = i.addr)
    (f : avl_node κ ω → avl_node κ ω)
    (hf : ∀ x y p, f (cell i x y p) = cell i' x y p) :
    ∃ m', m.update (some i.addr) f = .ok m' ∧ Holds m' root c (.node i' l r) ∧
      m'.grants = m.grants := by
  obtain ⟨hi, hl, hr⟩ := h.owns
  obtain ⟨-, hnd, -⟩ := (distinct_iff root c _).mp h.distinct
  rw [addrs_node] at hnd
  have hil : ∀ a ∈ addrs l, a ≠ i.addr := by
    rintro a ha rfl
    exact (List.nodup_append.mp hnd).2.2 _ ha _ List.mem_cons_self rfl
  have hir : ∀ a ∈ addrs r, a ≠ i.addr := by
    rintro a ha rfl
    exact (List.nodup_cons.mp (List.nodup_append.mp hnd).2.1).1 ha
  refine ⟨_, Memory.update_eq hi f, ?_, rfl⟩
  refine h.replace ?_ ⟨?_, ?_, ?_⟩ ?_
  · rw [ptr, haddr]
    refine h.around_of_outside h.around ?_
    intro a ha
    refine m.get_set_ne _ ?_
    rintro rfl
    exact ha (by simp)
  · rw [hf, haddr, m.get_set_self]
  · rw [haddr]
    exact owns_congr hl fun a ha => m.get_set_ne _ (hil a ha)
  · rw [haddr]
    exact owns_congr hr fun a ha => m.get_set_ne _ (hir a ha)
  · rw [addrs_node, addrs_node, haddr]

theorem Holds.update_above {f : Frame (Item κ ω)} (h : Holds m root (f :: c) t) (i' : Item κ ω)
    (haddr : i'.addr = f.value.addr) (g : avl_node κ ω → avl_node κ ω)
    (hg : ∀ x y p, g (cell f.value x y p) = cell i' x y p) :
    ∃ m', m.update (some f.value.addr) g = .ok m' ∧ Holds m' root ({ f with value := i' } :: c) t ∧
      m'.grants = m.grants := by
  obtain ⟨i, d, s⟩ := f
  have h' := holds_cons.mp h
  rw [fill_eq_bin] at h'
  cases d
  · obtain ⟨m', hm', h1, hgr⟩ := h'.update_item i' haddr g hg
    exact ⟨m', hm', holds_cons.mpr h1, hgr⟩
  · obtain ⟨m', hm', h1, hgr⟩ := h'.update_item i' haddr g hg
    exact ⟨m', hm', holds_cons.mpr h1, hgr⟩

theorem Holds.set_key {i : Item κ ω} {l r : BinaryTree (Item κ ω)}
    (h : Holds m root c (.node i l r)) (k : κ) :
    ∃ m', Avl.set_key m (some i.addr) k = .ok m' ∧ Holds m' root c (.node { i with key := k } l r) ∧
      m'.grants = m.grants :=
  h.update_item { i with key := k } rfl _ fun _ _ _ => rfl

variable [RankBalance ω]

theorem Holds.set_rank {i : Item κ ω} {l r : BinaryTree (Item κ ω)}
    (h : Holds m root c (.node i l r)) (x : Int) :
    ∃ m', Avl.set_rank m (some i.addr) x = .ok m' ∧ Holds m' root c (.node (i.setRank x) l r) ∧
      m'.grants = m.grants :=
  h.update_item (i.setRank x) rfl _ fun _ _ _ => rfl

theorem Holds.set_balance {i : Item κ ω} {l r : BinaryTree (Item κ ω)}
    (h : Holds m root c (.node i l r)) (x : Int) :
    ∃ m', Avl.set_balance m (some i.addr) x = .ok m' ∧
      Holds m' root c (.node (i.setBalance x) l r) ∧
      m'.grants = m.grants :=
  h.update_item (i.setBalance x) rfl _ fun _ _ _ => rfl

theorem Holds.set_balance_bin {d : Side} {p : Item κ ω} {x y : BinaryTree (Item κ ω)}
    (h : Holds m root c (bin d p x y)) (b : Int) :
    ∃ m', Avl.set_balance m (some p.addr) b = .ok m' ∧
      Holds m' root c (bin d (p.setBalance b) x y) ∧
      m'.grants = m.grants := by
  cases d <;> exact h.set_balance b

theorem Holds.set_rank_above {f : Frame (Item κ ω)} (h : Holds m root (f :: c) t) (x : Int) :
    ∃ m', Avl.set_rank m (some f.value.addr) x = .ok m' ∧
      Holds m' root (f.map (fun _ i => i.setRank x) :: c) t ∧ m'.grants = m.grants :=
  h.update_above (f.value.setRank x) rfl _ fun _ _ _ => rfl

theorem Holds.set_balance_above {f : Frame (Item κ ω)} (h : Holds m root (f :: c) t) (x : Int) :
    ∃ m', Avl.set_balance m (some f.value.addr) x = .ok m' ∧
      Holds m' root (f.map (fun _ i => i.setBalance x) :: c) t ∧ m'.grants = m.grants :=
  h.update_above (f.value.setBalance x) rfl _ fun _ _ _ => rfl

end Holding

/-- The tree record and its memory stand for `t`. -/
structure Stores [RankBalance ω] (tree : avl_tree κ ω) (t : BinaryTree (Item κ ω)) : Prop where
  held : ∃ root, tree.root = some root ∧ Holds tree.mem root [] t
  balanced : Balanced t
  length : tree.length = BitVec.ofNat 32 t.numNodes
  generous : tree.mem.Generous

/-- The same without a promise that allocations succeed. -/
structure Stands [RankBalance ω] (tree : avl_tree κ ω) (t : BinaryTree (Item κ ω)) : Prop where
  held : ∃ root, tree.root = some root ∧ Holds tree.mem root [] t
  balanced : Balanced t
  length : tree.length = BitVec.ofNat 32 t.numNodes

theorem Stores.stands [RankBalance ω] {tree : avl_tree κ ω} {t : BinaryTree (Item κ ω)}
    (h : Stores tree t) : Stands tree t :=
  ⟨h.held, h.balanced, h.length⟩

theorem Stands.stores [RankBalance ω] {tree : avl_tree κ ω} {t : BinaryTree (Item κ ω)}
    (h : Stands tree t) (hm : tree.mem.Generous) : Stores tree t :=
  ⟨h.held, h.balanced, h.length, hm⟩

end Avl
