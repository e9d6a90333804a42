import IcecastCommon.Avl.Failure

/-!
# Traversals

Two of them climb parent pointers and stop below the sentinel, whose key is NULL. The third goes
down only. All of them follow the sequence of the nodes.
-/

namespace Avl

open Lib

variable {κ ω : Type}

/-- The cell of the first node of a sequence. -/
def firstOf (l : List (Item κ ω)) : Ptr := l.head?.map (·.addr)

def lastOf (l : List (Item κ ω)) : Ptr := l.getLast?.map (·.addr)

/-! ## Down the tree -/

theorem leftmost_spec {m : Memory (avl_node κ ω)} (t : BinaryTree (Item κ ω)) :
    ∀ (parent : Ptr) (fuel : Nat), t ≠ .nil → Owns m parent t → t.height ≤ fuel →
      leftmost fuel m (ptr t) = .ok (firstOf (inorder t)) := by
  induction t with
  | nil => intro _ _ h; exact absurd rfl h
  | node i l r ihl _ =>
    rintro parent fuel - ⟨hi, hl, -⟩ hfuel
    rw [BinaryTree.height] at hfuel
    obtain ⟨fuel, rfl⟩ : ∃ n, fuel = n + 1 := ⟨fuel - 1, by omega⟩
    simp only [ptr, leftmost, Memory.load_eq hi, ok_bind, cell]
    cases hll : l with
    | nil => rfl
    | node j x y =>
      have hrun := ihl (some i.addr) fuel (by simp [hll]) hl (by omega)
      rw [hll] at hrun
      simp only [ptr] at hrun ⊢
      rw [hrun]
      simp [firstOf, List.head?_append]

theorem rightmost_last {m : Memory (avl_node κ ω)} {t : BinaryTree (Item κ ω)}
    {parent : Ptr} {fuel : Nat} (hne : t ≠ .nil) (h : Owns m parent t) (hfuel : t.height ≤ fuel) :
    rightmost fuel m (ptr t) = .ok (lastOf (inorder t)) := by
  obtain ⟨b, y, ly, rfl, hside, hrun⟩ := rightmost_spec t parent fuel hne h hfuel
  rw [hrun, inorder_plug, after_eq_nil hside]
  simp [lastOf]

theorem iterate_subtree {m : Memory (avl_node κ ω)} {σ : Type}
    {iter_fun : avl_iter_fun_type κ σ} {fuel : Nat} {u : BinaryTree (Item κ ω)} {arg : σ}
    (hu : u ≠ .nil → avl_iterate_inorder_helper m iter_fun fuel (ptr u) arg =
      .ok (visit iter_fun (keys u) arg)) :
    (match ptr u with
      | none => pure (0, arg)
      | some a => avl_iterate_inorder_helper m iter_fun fuel (some a) arg) =
      Except.ok (visit iter_fun (keys u) arg) := by
  cases u with
  | nil => rfl
  | node j x y => exact hu (by simp)

theorem iterate_helper_spec {m : Memory (avl_node κ ω)} {σ : Type}
    (iter_fun : avl_iter_fun_type κ σ) (t : BinaryTree (Item κ ω)) :
    ∀ (parent : Ptr) (fuel : Nat) (iter_arg : σ), t ≠ .nil → Owns m parent t → t.height ≤ fuel →
      avl_iterate_inorder_helper m iter_fun fuel (ptr t) iter_arg =
      .ok (visit iter_fun (keys t) iter_arg) := by
  induction t with
  | nil => intro _ _ _ h; exact absurd rfl h
  | node i l r ihl ihr =>
    rintro parent fuel iter_arg - ⟨hi, hl, hr⟩ hfuel
    rw [BinaryTree.height] at hfuel
    obtain ⟨fuel, rfl⟩ : ∃ n, fuel = n + 1 := ⟨fuel - 1, by omega⟩
    rw [keys_node, visit_append, visit]
    simp only [avl_iterate_inorder_helper, ptr_node, Memory.load_eq hi, ok_bind, cell]
    refine run_bind (iterate_subtree fun hne =>
      ihl (some i.addr) fuel iter_arg hne hl (by omega)) ?_
    split_ifs with h1 h2
    · rfl
    · rfl
    · refine run_bind (iterate_subtree fun hne => ihr (some i.addr) fuel _ hne hr (by omega)) ?_
      split_ifs with h3
      · rfl
      · rw [pure_eq_ok, ← not_not.mp h3]

/-! ## Up the tree -/

section Neighbours

variable [HasNull κ] [DecidableEq κ] {m : Memory (avl_node κ ω)} {root : Nat}
  {c : List (Frame (Item κ ω))}

/-- The neighbour beyond the hole: the last node before it or the first one after it. -/
def beyond (d : Side) (c : List (Frame (Item κ ω))) : Ptr :=
  match d with
  | .left => firstOf (after c)
  | .right => lastOf (before c)

omit [HasNull κ] [DecidableEq κ] in
theorem beyond_cons (d : Side) (f : Frame (Item κ ω)) (c : List (Frame (Item κ ω))) :
    beyond d (f :: c) = if f.side = d then some f.value.addr else beyond d c := by
  cases d <;> cases hs : f.side <;> simp [beyond, before, after, hs, firstOf, lastOf]

theorem climb_spec (d : Side) (c : List (Frame (Item κ ω))) :
    ∀ (u : BinaryTree (Item κ ω)) (x fuel : Nat), Holds m root c u → ptr u = some x →
      c.length < fuel →
      (∀ f ∈ c, f.value.key ≠ HasNull.NULL) →
      climb (child d) fuel m (some x) = .ok (beyond d c) := by
  induction c with
  | nil =>
    intro u x fuel h hx hfuel _
    obtain ⟨fuel, rfl⟩ : ∃ n, fuel = n + 1 := ⟨fuel - 1, by omega⟩
    obtain ⟨i, l, r, rfl⟩ := exists_bin .left u (by rintro rfl; cases hx)
    obtain rfl : i.addr = x := Option.some.inj hx
    obtain ⟨w, hw⟩ := h.around
    have hroot : beyond d ([] : List (Frame (Item κ ω))) = none := by cases d <;> rfl
    simp only [climb, Memory.load_eq h.get_bin, ok_bind, cellOn_parent, upper,
      Memory.load_eq hw, if_true, hroot, pure_eq_ok]
  | cons f c ih =>
    intro u x fuel h hx hfuel hkeys
    rw [List.length_cons] at hfuel
    obtain ⟨fuel, rfl⟩ : ∃ n, fuel = n + 1 := ⟨fuel - 1, by omega⟩
    obtain ⟨i, l, r, rfl⟩ := exists_bin .left u (by rintro rfl; cases hx)
    obtain rfl : i.addr = x := Option.some.inj hx
    rw [List.forall_mem_cons] at hkeys
    obtain ⟨-, -, hout⟩ := (distinct_iff _ _ _).mp h.distinct
    obtain ⟨a, n, ha, hn, hleft, hright⟩ := load_upper (hx ▸ h.around) (hout i.addr (ptr_mem hx)).2
    obtain rfl : f.value.addr = a := Option.some.inj ha
    have hcell := h.around.1
    have hkey : n.key = f.value.key := by
      rw [hn, Option.some.injEq] at hcell
      rw [hcell, cellOn_key]
    have hside : some i.addr = child d n ↔ f.side = d := by
      cases d
      · exact eq_comm.trans hleft
      · exact eq_comm.trans hright
    simp only [climb, Memory.load_eq h.get_bin, ok_bind, cellOn_parent, upper,
      Memory.load_eq hn, hkey, if_neg hkeys.1, hside, beyond_cons]
    split_ifs with hd
    · rfl
    · exact ih _ f.value.addr fuel (holds_cons.mp h) (by rw [fill_eq_bin, ptr_bin])
        (by omega) hkeys.2

theorem next_at {i : Item κ ω} {l r : BinaryTree (Item κ ω)} (h : Holds m root c (.node i l r))
    (hkeys : ∀ f ∈ c, f.value.key ≠ HasNull.NULL) :
    avl_get_next m (some i.addr) = .ok (firstOf (inorder r ++ after c)) := by
  have hsize := h.numNodes_lt_size
  have hlen := length_le_numNodes c (.node i l r)
  have hle := numNodes_le_plug c (.node i l r)
  have hheight := r.height_le_numNodes
  simp only [BinaryTree.numNodes] at hle
  simp only [avl_get_next, Memory.load_eq h.get_node, ok_bind, cell]
  cases hr : r with
  | nil => exact climb_spec .left c _ i.addr _ h rfl (by omega) hkeys
  | node j x y =>
    have hrun := leftmost_spec r (some i.addr) (m.size + 1) (by simp [hr]) h.owns.2.2 (by omega)
    rw [hr] at hrun
    simp only [ptr] at hrun ⊢
    rw [hrun]
    simp [firstOf, List.head?_append]

theorem prev_at {i : Item κ ω} {l r : BinaryTree (Item κ ω)} (h : Holds m root c (.node i l r))
    (hkeys : ∀ f ∈ c, f.value.key ≠ HasNull.NULL) :
    avl_get_prev m (some i.addr) = .ok (lastOf (before c ++ inorder l)) := by
  have hsize := h.numNodes_lt_size
  have hlen := length_le_numNodes c (.node i l r)
  have hle := numNodes_le_plug c (.node i l r)
  have hheight := l.height_le_numNodes
  simp only [BinaryTree.numNodes] at hle
  simp only [avl_get_prev, Memory.load_eq h.get_node, ok_bind, cell]
  cases hl : l with
  | nil =>
    rw [inorder_nil, List.append_nil]
    exact climb_spec .right c _ i.addr _ h rfl (by omega) hkeys
  | node j x y =>
    have hrun : rightmost (m.size + 1) m (ptr l) = _ :=
      rightmost_last (by simp [hl]) h.owns.2.1 (by omega)
    rw [hl] at hrun
    simp only [ptr] at hrun ⊢
    rw [hrun]
    rw [lastOf, lastOf, List.getLast?_append_of_ne_nil _ (by simp)]

variable {t : BinaryTree (Item κ ω)}

theorem neighbours {A B : List (Item κ ω)} {i : Item κ ω} (h : Holds m root [] t)
    (hkeys : ∀ k ∈ keys t, k ≠ HasNull.NULL) (hsplit : inorder t = A ++ i :: B) :
    avl_get_next m (some i.addr) = .ok (firstOf B) ∧
      avl_get_prev m (some i.addr) = .ok (lastOf A) := by
  obtain ⟨c, l, r, rfl, rfl, rfl⟩ := exists_position hsplit
  have hframes : ∀ f ∈ c, f.value.key ≠ HasNull.NULL := by
    intro f hf
    exact hkeys _ (List.mem_map_of_mem (frame_mem_inorder c _ f hf))
  exact ⟨next_at (holds_plug.mpr h) hframes, prev_at (holds_plug.mpr h) hframes⟩

omit [DecidableEq κ] in
theorem load_item {A B : List (Item κ ω)} {i : Item κ ω} (h : Holds m root [] t)
    (hsplit : inorder t = A ++ i :: B) :
    ∃ x, m.load (some i.addr) = .ok x ∧ x.key = i.key := by
  obtain ⟨c, l, r, rfl, -, -⟩ := exists_position hsplit
  have hheld : Holds m root c (.node i l r) := holds_plug.mpr h
  exact ⟨_, Memory.load_eq hheld.get_node, rfl⟩

theorem get_first_spec [RankBalance ω] {tree : avl_tree κ ω} (hroot : tree.root = some root)
    (h : Holds tree.mem root [] t) (hkeys : ∀ k ∈ keys t, k ≠ HasNull.NULL) :
    avl_get_first tree = .ok (firstOf (inorder t)) := by
  obtain ⟨n, hn, hright, -, -⟩ := h.load_root
  have hsize := h.numNodes_lt_size
  rw [plug_nil] at hright hsize
  simp only [avl_get_first, hroot, hn, ok_bind, hright]
  cases ht : t with
  | nil => rfl
  | node i l r =>
    rw [ht] at h hkeys hsize
    have hheight := BinaryTree.height_le_numNodes (.node i l r)
    have hrun :=
      leftmost_spec (.node i l r) (some root) (tree.mem.size + 1) (by simp) h.owns (by omega)
    have hkey : ¬ i.key = HasNull.NULL := hkeys i.key (by simp)
    rw [ptr_node] at hrun ⊢
    simp only [Memory.load_eq h.get_node, ok_bind, cell, if_neg hkey, hrun]

/-- `while (node) { ... node = avl_get_next (node); }`: the nodes that the loop comes to. -/
def walk (m : Memory (avl_node κ ω)) : Nat → Ptr → C (List Nat)
  | 0, _ => throw .endless
  | _ + 1, none => return []
  | fuel + 1, some a => do
    let rest ← walk m fuel (← avl_get_next m (some a))
    return a :: rest

theorem walk_spec (h : Holds m root [] t) (hkeys : ∀ k ∈ keys t, k ≠ HasNull.NULL)
    (B : List (Item κ ω)) :
    ∀ (A : List (Item κ ω)) (fuel : Nat), inorder t = A ++ B → B.length < fuel →
      walk m fuel (firstOf B) = .ok (B.map (·.addr)) := by
  induction B with
  | nil =>
    intro A fuel _ hfuel
    obtain ⟨fuel, rfl⟩ : ∃ n, fuel = n + 1 := ⟨fuel - 1, by omega⟩
    rfl
  | cons i B ih =>
    intro A fuel hsplit hfuel
    rw [List.length_cons] at hfuel
    obtain ⟨fuel, rfl⟩ : ∃ n, fuel = n + 1 := ⟨fuel - 1, by omega⟩
    have hnext := (neighbours h hkeys hsplit).1
    have hrest := ih (A ++ [i]) fuel (by rw [hsplit]; simp) (by omega)
    show walk m (fuel + 1) (some i.addr) = _
    simp only [walk, hnext, ok_bind, hrest, pure_eq_ok, List.map_cons]

/-- The traversals of `tree` go through the nodes of `t` in the same order. -/
structure Agree [RankBalance ω] (tree : avl_tree κ ω) (t : BinaryTree (Item κ ω)) : Prop where
  /-- From `avl_get_first`, the loop over `avl_get_next` comes to each node once. -/
  forward : (do walk tree.mem (tree.mem.size + 1) (← avl_get_first tree)) = .ok (addrs t)
  once : (addrs t).Nodup
  backward : ∀ i < t.numNodes, avl_get_prev tree.mem (addrs t)[i]? =
    .ok (if i = 0 then none else (addrs t)[i - 1]?)
  inverse : ∀ a ∈ addrs t, ∀ b ∈ addrs t,
    (avl_get_next tree.mem (some a) = .ok (some b) ↔ avl_get_prev tree.mem (some b) = .ok (some a))
  inorder : ∀ {σ : Type} (iter_fun : avl_iter_fun_type κ σ) (iter_arg : σ),
    avl_iterate_inorder tree iter_fun iter_arg = .ok (visit iter_fun (keys t) iter_arg)

theorem neighbours_at (h : Holds m root [] t) (hkeys : ∀ k ∈ keys t, k ≠ HasNull.NULL) {n : Nat}
    (hn : n < (inorder t).length) :
    avl_get_next m (some ((inorder t).get ⟨n, hn⟩).addr) = .ok (addrs t)[n + 1]? ∧
      avl_get_prev m (some ((inorder t).get ⟨n, hn⟩).addr) =
        .ok (if n = 0 then none else (addrs t)[n - 1]?) := by
  have hsplit :
      inorder t = (inorder t).take n ++ (inorder t).get ⟨n, hn⟩ :: (inorder t).drop (n + 1) := by
    rw [List.get_eq_getElem, ← List.drop_eq_getElem_cons hn, List.take_append_drop]
  obtain ⟨hnext, hprev⟩ := neighbours h hkeys hsplit
  rw [hnext, hprev]
  constructor
  · rw [firstOf, List.head?_drop, addrs, List.getElem?_map]
  · rw [lastOf, List.getLast?_take, addrs, List.getElem?_map]
    split_ifs with h0
    · rfl
    · rw [List.getElem?_eq_getElem (show n - 1 < (inorder t).length by omega)]
      rfl

omit [HasNull κ] [DecidableEq κ] in
theorem addrs_getElem? {n : Nat} (hn : n < (inorder t).length) :
    (addrs t)[n]? = some ((inorder t).get ⟨n, hn⟩).addr := by
  rw [addrs, List.getElem?_map, List.getElem?_eq_getElem hn]
  rfl

theorem neighbours_inverse (h : Holds m root [] t)
    (hkeys : ∀ k ∈ keys t, k ≠ HasNull.NULL) {a b : Nat} (ha : a ∈ addrs t) (hb : b ∈ addrs t) :
    avl_get_next m (some a) = .ok (some b) ↔ avl_get_prev m (some b) = .ok (some a) := by
  obtain ⟨x, hx, rfl⟩ := List.mem_map.mp ha
  obtain ⟨y, hy, rfl⟩ := List.mem_map.mp hb
  obtain ⟨⟨i, hi⟩, rfl⟩ := List.mem_iff_get.mp hx
  obtain ⟨⟨j, hj⟩, rfl⟩ := List.mem_iff_get.mp hy
  rw [(neighbours_at h hkeys hi).1, (neighbours_at h hkeys hj).2, Except.ok.injEq, Except.ok.injEq,
    ← addrs_getElem? hi, ← addrs_getElem? hj]
  have hlen : (addrs t).length = (inorder t).length := List.length_map _
  have hinj : ∀ {k l : Nat}, k < (addrs t).length → ((addrs t)[k]? = (addrs t)[l]? ↔ k = l) :=
    fun hk => List.getElem?_inj hk h.nodup
  constructor
  · intro hnext
    have hji := (hinj (hlen ▸ hj)).mp hnext.symm
    rw [if_neg (by omega), hji, Nat.add_sub_cancel]
  · intro hprev
    by_cases h0 : j = 0
    · rw [if_pos h0, List.getElem?_eq_getElem (hlen ▸ hi)] at hprev
      cases hprev
    · rw [if_neg h0] at hprev
      have hij := (hinj (hlen ▸ hi)).mp hprev.symm
      rw [hij, Nat.sub_add_cancel (by omega)]

/-- `avl_iterate_inorder` calls nothing when the 32-bit length says zero. -/
theorem agree_iff [RankBalance ω] {tree : avl_tree κ ω} (hst : Stands tree t)
    (hkeys : ∀ k ∈ keys t, k ≠ HasNull.NULL) :
    Agree tree t ↔ t.numNodes = 0 ∨ t.numNodes % 2 ^ 32 ≠ 0 := by
  obtain ⟨root, hroot, h⟩ := hst.held
  have hzero : tree.length = 0 ↔ t.numNodes % 2 ^ 32 = 0 := by
    rw [hst.length, ← BitVec.toNat_inj, BitVec.toNat_ofNat]
    rfl
  have hsize := h.numNodes_lt_size
  rw [plug_nil] at hsize
  constructor
  · -- a function that fails at once is not called when the length is zero
    intro hagree
    have hcalls := hagree.inorder (fun _ s => (1, s)) ()
    by_contra hcon
    rw [not_or, not_not] at hcon
    obtain ⟨hpos, hmod⟩ := hcon
    rw [avl_iterate_inorder, if_neg (not_not.mpr (hzero.mpr hmod)), pure_eq_ok,
      Except.ok.injEq] at hcalls
    cases t with
    | nil => exact hpos rfl
    | node i l r =>
      obtain ⟨k, ks, hk⟩ := List.exists_cons_of_ne_nil (l := keys (.node i l r)) (by simp)
      rw [hk, visit, if_pos (by simp)] at hcalls
      cases hcalls
  · intro hlen
    refine ⟨?_, h.nodup, ?_, ?_, ?_⟩
    · rw [get_first_spec hroot h hkeys]
      refine walk_spec h hkeys _ [] _ rfl ?_
      rw [inorder_length]
      omega
    · intro i hi
      rw [← inorder_length] at hi
      rw [addrs_getElem? hi]
      exact (neighbours_at h hkeys hi).2
    · intro a ha b hb
      exact neighbours_inverse h hkeys ha hb
    · intro σ iter_fun iter_arg
      obtain ⟨n, hn, hright, -, -⟩ := h.load_root
      rw [plug_nil] at hright
      cases ht : t with
      | nil =>
        rw [ht] at hzero
        rw [avl_iterate_inorder, if_neg (not_not.mpr (hzero.mpr rfl))]
        rfl
      | node i l r =>
        rw [ht] at h hlen hsize hright hzero
        have hheight := BinaryTree.height_le_numNodes (.node i l r)
        have hpos : tree.length ≠ 0 := by
          rw [Ne, hzero]
          exact hlen.resolve_left (by simp)
        rw [avl_iterate_inorder, if_pos hpos, hroot, hn, ok_bind, hright]
        exact iterate_helper_spec iter_fun _ (some root) _ iter_arg (by simp) h.owns (by omega)

/-! ## A range of indices -/

/-- The keys of a range with their places in it, the last one first. -/
def countdown (S : List κ) (low n : Nat) : List (BitVec 64 × κ) :=
  ((S.drop low).take n).zipIdx.reverse.map fun p => (BitVec.ofNat 64 p.2, p.1)

omit [HasNull κ] [DecidableEq κ] in
theorem countdown_succ (S : List κ) (low n : Nat) (h : low + n < S.length) :
    countdown S low (n + 1) = (BitVec.ofNat 64 n, S.get ⟨low + n, h⟩) :: countdown S low n := by
  have hlen : ((S.drop low).take n).length = n := by
    rw [List.length_take, List.length_drop]
    omega
  have hlast : (S.drop low)[n]? = some (S.get ⟨low + n, h⟩) := by
    rw [List.getElem?_drop, List.getElem?_eq_getElem h]
    rfl
  rw [countdown, countdown, List.take_add_one, hlast, List.zipIdx_append, hlen]
  simp

variable [RankBalance ω]

omit [HasNull κ] [DecidableEq κ] in
theorem index_search_spec (t : BinaryTree (Item κ ω)) :
    ∀ (parent : Ptr) (fuel : Nat) (x : BitVec 64), Owns m parent t → Ranked t → t.height ≤ fuel →
      0 < x.toNat → x.toNat ≤ t.numNodes →
      index_search fuel m (ptr t) x = .ok (addrs t)[x.toNat - 1]? := by
  induction t with
  | nil =>
    intro _ _ x _ _ _ hpos hle
    rw [BinaryTree.numNodes] at hle
    omega
  | node i l r ihl ihr =>
    rintro parent fuel x ⟨hi, hl, hr⟩ ⟨hrank, hrl, hrr⟩ hfuel hpos hle
    rw [BinaryTree.height] at hfuel
    rw [BinaryTree.numNodes] at hle
    obtain ⟨fuel, rfl⟩ : ∃ n, fuel = n + 1 := ⟨fuel - 1, by omega⟩
    have hword : AVL_GET_RANK i.word = (l.numNodes : Int) + 1 := hrank
    have hlen : (addrs l).length = l.numNodes := by rw [addrs, List.length_map, inorder_length]
    simp only [index_search, ptr_node, Memory.load_eq hi, ok_bind, cell, hword]
    split_ifs with h1 h2
    · rw [ihl (some i.addr) fuel x hl hrl (by omega) hpos (by omega), addrs_node,
        List.getElem?_append_left (by omega)]
    · -- the ranks of the right subtree start again at one
      have hsub := index_behind (show l.numNodes + 1 ≤ x.toNat by omega)
      rw [ihr (some i.addr) fuel _ hr hrr (by omega) (by omega) (by omega), hsub, addrs_node,
        List.getElem?_append_right (by omega), hlen,
        show x.toNat - 1 - l.numNodes = (x.toNat - (l.numNodes + 1) - 1) + 1 by omega,
        List.getElem?_cons_succ]
    · rw [addrs_node, List.getElem?_append_right (by omega), hlen,
        show x.toNat - 1 - l.numNodes = 0 by omega]
      rfl

omit [RankBalance ω] [DecidableEq κ] in
theorem load_at (h : Holds m root [] t) {n : Nat} (hn : n < (inorder t).length) :
    ∃ x, m.load (some ((inorder t).get ⟨n, hn⟩).addr) = .ok x ∧
      x.key = ((inorder t).get ⟨n, hn⟩).key := by
  refine load_item (A := (inorder t).take n) (B := (inorder t).drop (n + 1)) h ?_
  rw [List.get_eq_getElem, ← List.drop_eq_getElem_cons hn, List.take_append_drop]

omit [RankBalance ω] in
theorem index_walk_spec {σ : Type} (iter_fun : avl_iter_index_fun_type κ σ) (h : Holds m root [] t)
    (hkeys : ∀ k ∈ keys t, k ≠ HasNull.NULL) (low n : Nat) :
    ∀ (p : Ptr) (iter_arg : σ), low + n ≤ t.numNodes → (n ≠ 0 → p = (addrs t)[low + n - 1]?) →
      index_walk m iter_fun n p iter_arg =
        .ok (if (visit (fun q => iter_fun q.1 q.2) (countdown (keys t) low n) iter_arg).1 ≠ 0
            then -1 else 0,
          (visit (fun q => iter_fun q.1 q.2) (countdown (keys t) low n) iter_arg).2) := by
  induction n with
  | zero =>
    intro p iter_arg _ _
    simp [index_walk, countdown, visit]
  | succ n ih =>
    intro p iter_arg hle hp
    have hn : low + n < (inorder t).length := by
      rw [inorder_length]
      omega
    have hk : low + n < (keys t).length := by
      rw [keys_length]
      omega
    have hkey : (keys t).get ⟨low + n, hk⟩ = ((inorder t).get ⟨low + n, hn⟩).key := by simp [keys]
    obtain ⟨x, hx, hxkey⟩ := load_at h hn
    rw [hp (by simp), show low + (n + 1) - 1 = low + n by omega, addrs_getElem? hn,
      countdown_succ (keys t) low n hk, visit, hkey]
    simp only [index_walk, hx, ok_bind, hxkey]
    by_cases hstop : (iter_fun (BitVec.ofNat 64 n) ((inorder t).get ⟨low + n, hn⟩).key iter_arg).1 ≠
      0
    · simp only [if_pos hstop, pure_eq_ok]
    · obtain ⟨-, hprev⟩ := neighbours_at h hkeys hn
      simp only [if_neg hstop, hprev, ok_bind]
      refine ih _ _ (by omega) fun h0 => ?_
      rw [if_neg (by omega)]

/-- **Index ranges.** In a tree with right links, ranks and length the function is called on the
keys of the range from the last to the first, until it returns non-zero. -/
theorem avl_iterate_index_range_spec {tree : avl_tree κ ω} (hroot : tree.root = some root)
    (h : Holds tree.mem root [] t) (hranked : Ranked t)
    (hlength : tree.length = BitVec.ofNat 32 t.numNodes) (hkeys : ∀ k ∈ keys t, k ≠ HasNull.NULL)
    {σ : Type} (iter_fun : avl_iter_index_fun_type κ σ) (low high : BitVec 64)
    (hlow : low.toNat < high.toNat) (hhigh : high.toNat ≤ tree.length.toNat)
    (iter_arg : σ) :
    avl_iterate_index_range tree iter_fun low high iter_arg =
      .ok (if (visit (fun q => iter_fun q.1 q.2)
            (countdown (keys t) low.toNat (high.toNat - low.toNat)) iter_arg).1 ≠ 0
          then -1 else 0,
        (visit (fun q => iter_fun q.1 q.2)
          (countdown (keys t) low.toNat (high.toNat - low.toNat)) iter_arg).2) := by
  obtain ⟨n, hn, hright, -, -⟩ := h.load_root
  have hsize := h.numNodes_lt_size
  have hheight := t.height_le_numNodes
  rw [plug_nil] at hright hsize
  have hcount : tree.length.toNat ≤ t.numNodes := by
    rw [hlength, BitVec.toNat_ofNat]
    exact Nat.mod_le _ _
  have hsub : (high - low).toNat = high.toNat - low.toNat := by
    have := high.isLt
    rw [BitVec.toNat_sub]
    omega
  have hsearch :=
    index_search_spec (m := tree.mem) t (some root) (tree.mem.size + 1) high h.owns hranked
      (by omega) (by omega) (by omega)
  simp only [avl_iterate_index_range, if_neg (Nat.not_lt.mpr hhigh), hroot, hn, ok_bind, hright,
    hsearch, hsub]
  refine index_walk_spec iter_fun h hkeys _ _ _ iter_arg (by omega) fun _ => ?_
  rw [show low.toNat + (high.toNat - low.toNat) - 1 = high.toNat - 1 by omega]

end Neighbours

/-- Keys 5, 7 and 9, for which the top turns, 5 again and 3. -/
def grown_calls : List (Option Nat × Call Nat) :=
  [(some 2, .insert 5), (some 3, .insert 7), (some 4, .insert 9), (some 5, .insert 5),
    (some 6, .insert 3)]

/-- The tree of these calls. -/
def grown : BinaryTree (Item Nat (BitVec 32)) :=
  .node ⟨3, 7, 16#32⟩
    (.node ⟨5, 5, 9#32⟩ (.node ⟨6, 3, 5#32⟩ .nil .nil) (.node ⟨2, 5, 5#32⟩ .nil .nil))
    (.node ⟨4, 9, 5#32⟩ .nil .nil)

theorem grown_ranked : Ranked grown :=
  ⟨rfl, ⟨rfl, ⟨rfl, trivial, trivial⟩, ⟨rfl, trivial, trivial⟩⟩, ⟨rfl, trivial, trivial⟩⟩

theorem grown_held :
    ∃ tree', attempts sample grown_calls = .ok tree' ∧ tree'.compare_fun = byAddress ∧
    tree'.root = some 1 ∧ tree'.length = 5#32 ∧ Holds tree'.mem 1 [] grown := by
  refine ⟨_, rfl, rfl, rfl, rfl, ⟨_, rfl⟩, ?_, by decide⟩
  exact ⟨rfl, ⟨rfl, ⟨rfl, trivial, trivial⟩, ⟨rfl, trivial, trivial⟩⟩, ⟨rfl, trivial, trivial⟩⟩

theorem avl_iterate_index_range_grown : ∃ tree', attempts sample grown_calls = .ok tree' ∧
    avl_iterate_index_range tree' (fun i k s => (0, s ++ [(i, k)])) 1 4 [] =
      .ok (0, [(2, 7), (1, 5), (0, 5)]) := by
  obtain ⟨tree', hrun, -, hroot, hlength, hheld⟩ := grown_held
  have hhigh : (4 : BitVec 64).toNat ≤ tree'.length.toNat := by
    rw [hlength]
    decide
  exact ⟨tree', hrun,
    avl_iterate_index_range_spec hroot hheld grown_ranked hlength (by decide) _ 1 4 (by decide)
      hhigh []⟩

/-! ## Every tree that a run reaches -/

section Reached

variable [RankBalance ω] [LawfulRankBalance ω] [HasNull κ] [DecidableEq κ]

/-- **Traversals.** In every tree that a run reaches, with keys that are not NULL, the traversals
agree exactly when the number of nodes is not a positive multiple of 2^32. -/
theorem traversals_agree_iff {compare_fun : κ → κ → Int} {m : Memory (avl_node κ ω)}
    {tree : avl_tree κ ω} (hnew : avl_tree_new compare_fun m = some tree)
    (calls : List (Option Nat × Call κ)) :
    ∃ tree' root t, attempts tree calls = .ok tree' ∧ tree'.root = some root ∧
      Holds tree'.mem root [] t ∧
      ((∀ k ∈ keys t, k ≠ HasNull.NULL) →
        (Agree tree' t ↔ t.numNodes = 0 ∨ t.numNodes % 2 ^ 32 ≠ 0)) := by
  obtain ⟨tree', hrun, t, hst, -⟩ := attempts_stands hnew calls
  obtain ⟨root, hroot, hheld⟩ := hst.held
  exact ⟨tree', root, t, hrun, hroot, hheld, agree_iff hst⟩

end Reached

theorem traversals_agree_iff_sample : ∃ tree' root t,
    attempts sample [(some 2, .insert 5), (none, .insert 4), (some 2, .insert 3)] = .ok tree' ∧
      tree'.root = some root ∧ Holds tree'.mem root [] t ∧
      ((∀ k ∈ keys t, k ≠ HasNull.NULL) →
        (Agree tree' t ↔ t.numNodes = 0 ∨ t.numNodes % 2 ^ 32 ≠ 0)) :=
  traversals_agree_iff sample_new _

theorem Inserted.mem_keys [RankBalance ω] {compare_fun : κ → κ → Int} {key k : κ}
    {t t' : BinaryTree (Item κ ω)} (h : Inserted compare_fun key t t') :
    k ∈ keys t' ↔ k = key ∨ k ∈ keys t := by
  obtain ⟨a, hlab⟩ := h.labels
  have hplug := plug_route (fun i : Item κ ω => compare_fun key i.key) t []
  rw [plug_nil] at hplug
  have hkeys :
    keys t = (before (route (fun i : Item κ ω => compare_fun key i.key) t [])).map (·.key) ++
      (after (route (fun i : Item κ ω => compare_fun key i.key) t [])).map (·.key) := by
    conv => lhs; rw [← hplug, keys_plug, keys_nil, List.append_nil]
  rw [keys_of_labels, hlab, hkeys]
  simp only [List.map_append, List.map_cons, List.map_map, Function.comp_def, List.mem_append,
    List.mem_cons]
  tauto

theorem insert_many (n : Nat) : ∃ tree' t,
    attempts sample (List.replicate n (some 1, .insert 7)) = .ok tree' ∧ Stands tree' t ∧
      t.numNodes = n ∧ ∀ k ∈ keys t, k = 7 := by
  induction n with
  | zero => exact ⟨sample, .nil, rfl, (new_stands sample_new).1, rfl, by simp⟩
  | succ n ih =>
    obtain ⟨tree1, t1, hrun, hst, hcount, hseven⟩ := ih
    obtain ⟨tree2, t2, hins, hdone⟩ :=
      avl_insert_spec 7 ((answered_stands hst (some 1)).stores fun _ => rfl)
    obtain ⟨a, hlab⟩ := hdone.inserted.labels
    refine ⟨tree2, t2, ?_, hdone.stores.stands, ?_, ?_⟩
    · rw [List.replicate_succ', attempts, List.foldlM_append, ← attempts, hrun, ok_bind,
        List.foldlM_cons, attempt, call, hins]
      rfl
    · rw [numNodes_of_labels hlab, hcount]
    · intro k hk
      exact (hdone.inserted.mem_keys.mp hk).elim id (hseven k)

/-- After 2^32 insertions `avl_iterate_inorder` calls nothing. -/
theorem traversals_disagree : ∃ tree' root t,
    attempts sample (List.replicate (2 ^ 32) (some 1, .insert 7)) = .ok tree' ∧
      tree'.root = some root ∧
      Holds tree'.mem root [] t ∧ (∀ k ∈ keys t, k ≠ HasNull.NULL) ∧ ¬ Agree tree' t := by
  obtain ⟨n, hn, hmod⟩ : ∃ n, 2 ^ 32 = n ∧ ¬ (n = 0 ∨ n % 2 ^ 32 ≠ 0) := ⟨_, rfl, by simp⟩
  rw [hn]
  obtain ⟨tree', t, hrun, hst, hcount, hseven⟩ := insert_many n
  obtain ⟨root, hroot, hheld⟩ := hst.held
  have hkeys : ∀ k ∈ keys t, k ≠ HasNull.NULL := by
    intro k hk
    rw [hseven k hk]
    decide
  exact ⟨tree', root, t, hrun, hroot, hheld, hkeys, fun h =>
    hmod (hcount ▸ (agree_iff hst hkeys).mp h)⟩

end Avl
