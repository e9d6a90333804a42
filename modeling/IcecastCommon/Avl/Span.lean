import IcecastCommon.Avl.Iterate

/-!
# Spans of keys

A search by key adds up ranks on its way down, so that it knows the place it comes to. From there
the equal keys are counted to both sides.
-/

namespace Avl

open Lib

variable {κ ω : Type} [HasNull κ] [RankBalance ω]

/-- A tree in order, with right links, ranks and length. No key is NULL. -/
structure Ordered (tree : avl_tree κ ω) (t : BinaryTree (Item κ ω)) : Prop where
  preorder : TotalPreorder tree.compare_fun
  held : ∃ root, tree.root = some root ∧ Holds tree.mem root [] t
  sorted : Sorted tree.compare_fun (keys t)
  ranked : Ranked t
  length : tree.length.toNat = t.numNodes
  notNull : ∀ k ∈ keys t, k ≠ HasNull.NULL

/-! ## The search for a place -/

/-- The place at which a search by key ended, or the one before when it ended at no node. -/
def placeOf : List (Frame (Item κ ω)) × BinaryTree (Item κ ω) → BitVec 64
  | (p, .nil) => BitVec.ofNat 64 (before p).length - 1
  | (p, .node _ l _) => BitVec.ofNat 64 ((before p).length + l.numNodes)

variable {m : Memory (avl_node κ ω)} {root : Nat} {t : BinaryTree (Item κ ω)}

omit [HasNull κ] in
theorem get_rank_node {parent : Ptr} {i : Item κ ω} {l r : BinaryTree (Item κ ω)}
    (h : Owns m parent (.node i l r)) (hr : Ranked (.node i l r)) :
    get_rank m (some i.addr) = .ok ((l.numNodes + 1 : Nat) : Int) := by
  have hrank : AVL_GET_RANK i.word = ((l.numNodes + 1 : Nat) : Int) := hr.1
  simp only [get_rank, Memory.load_eq h.1, ok_bind, cell, hrank, pure_eq_ok]

omit [HasNull κ] in
/-- On its way `m` is the place of the node, counted from one. -/
theorem index_by_key_spec (compare_fun : κ → κ → Int) (key : κ) (u : BinaryTree (Item κ ω)) :
    ∀ (c : List (Frame (Item κ ω))) (parent : Ptr) (fuel : Nat) (i : Item κ ω)
      (l r : BinaryTree (Item κ ω)),
      u = .node i l r → Owns m parent u → Ranked u → u.height ≤ fuel →
      index_by_key compare_fun key fuel m (some i.addr)
          (BitVec.ofNat 64 (before c).length + BitVec.ofNat 64 (l.numNodes + 1)) =
        .ok (ptr (seek (fun i => compare_fun key i.key) u c).2,
          placeOf (seek (fun i => compare_fun key i.key) u c)) := by
  induction u with
  | nil => intro _ _ _ _ _ _ h; cases h
  | node i l r ihl ihr =>
    rintro c parent fuel _ _ _ ⟨⟩ ⟨hi, hl, hr⟩ ⟨hrank, hrl, hrr⟩ hfuel
    rw [BinaryTree.height] at hfuel
    obtain ⟨fuel, rfl⟩ : ∃ n, fuel = n + 1 := ⟨fuel - 1, by omega⟩
    have hword : AVL_GET_RANK i.word = ((l.numNodes + 1 : Nat) : Int) := hrank
    simp only [index_by_key, Memory.load_eq hi, ok_bind, cell, hword, BitVec.ofInt_natCast]
    rw [seek]
    split_ifs with h1 h2
    · cases l with
      | nil =>
        simp only [ptr, seek, placeOf, before, BinaryTree.numNodes, pure_eq_ok]
        congr 2
        grind
      | node j x y =>
        simp only [ptr_node, get_rank_node hl hrl, ok_bind, BitVec.ofInt_natCast]
        have hrun := ihl (⟨i, .left, r⟩ :: c) (some i.addr) fuel j x y rfl hl hrl (by omega)
        rw [← hrun, before]
        congr 1
        grind
    · cases r with
      | nil =>
        simp only [ptr, seek, placeOf, before, List.length_append, List.length_singleton,
          inorder_length, BitVec.ofNat_add, pure_eq_ok]
      | node j x y =>
        simp only [ptr_node, get_rank_node hr hrr, ok_bind, BitVec.ofInt_natCast]
        have hrun := ihr (⟨i, .right, l⟩ :: c) (some i.addr) fuel j x y rfl hr hrr (by omega)
        rw [← hrun]
        simp only [before, List.length_append, List.length_singleton, inorder_length,
          BitVec.ofNat_add]
    · simp only [ptr_node, placeOf, BitVec.ofNat_add, pure_eq_ok]
      congr 2
      grind

variable {tree : avl_tree κ ω}

theorem avl_get_index_by_key_spec (hv : Ordered tree t) (hne : t ≠ .nil) (key : κ)
    (index : BitVec 64) :
    avl_get_index_by_key tree key index =
      .ok (ptr (seek (fun i => tree.compare_fun key i.key) t []).2,
        placeOf (seek (fun i => tree.compare_fun key i.key) t [])) := by
  obtain ⟨root, hroot, h⟩ := hv.held
  obtain ⟨n, hn, hright, -, -⟩ := h.load_root
  have hsize := h.numNodes_lt_size
  have hheight := t.height_le_numNodes
  have hranked := hv.ranked
  rw [plug_nil] at hright hsize
  cases t with
  | nil => exact absurd rfl hne
  | node i l r =>
    have hrun :=
      index_by_key_spec tree.compare_fun key (.node i l r) [] (some root)
        (tree.mem.size + 1) i l r rfl
      h.owns hranked (by omega)
    rw [show (before ([] : List (Frame (Item κ ω)))).length = 0 from rfl, BitVec.zero_add] at hrun
    simp only [avl_get_index_by_key, hroot, hn, ok_bind, hright, ptr_node,
      get_rank_node h.owns hranked, BitVec.ofInt_natCast, hrun]

theorem length_before_of_absent (hv : Ordered tree t) {key : κ} {p : List (Frame (Item κ ω))}
    (hs : seek (fun i : Item κ ω => tree.compare_fun key i.key) t [] = (p, .nil)) :
    (before p).length = countLess tree.compare_fun key (keys t) := by
  obtain ⟨hplug, hled, -, -⟩ := seek_spec (fun i : Item κ ω => tree.compare_fun key i.key) t []
  rw [hs, plug_nil] at hplug
  rw [hs] at hled
  obtain ⟨hb, ha⟩ :=
    keys_around hv.preorder key (hplug.symm ▸ hv.sorted : Sorted _ (keys (plug p _)))
      (hled (by simp [Led])) (fun x y hx hxy => hxy.2 hx)
  have hless : ((before p).map (·.key)).countP (fun x => tree.compare_fun x key < 0) =
      (before p).length := by
    rw [← List.length_map (·.key), List.countP_eq_length]
    intro k hk
    have := hb k hk
    have := hv.preorder.flip k key
    simp only [decide_eq_true_eq]
    omega
  have hmore : ((after p).map (·.key)).countP (fun x => tree.compare_fun x key < 0) = 0 := by
    rw [List.countP_eq_zero]
    intro k hk
    have := ha k hk
    have := hv.preorder.flip k key
    simp only [decide_eq_true_eq]
    omega
  rw [← hplug, keys_plug, keys_nil, List.append_nil, countLess, List.countP_append, hless, hmore,
    Nat.add_zero]

theorem index_of_absent (hv : Ordered tree t) (hne : t ≠ .nil) {key : κ}
    (habsent : ∀ k ∈ keys t, tree.compare_fun key k ≠ 0) (index : BitVec 64) :
    avl_get_index_by_key tree key index =
      .ok (none, BitVec.ofNat 64 (countLess tree.compare_fun key (keys t)) - 1) := by
  obtain ⟨hplug, -, hfound, -⟩ := seek_spec (fun i : Item κ ω => tree.compare_fun key i.key) t []
  rw [avl_get_index_by_key_spec hv hne]
  rcases hs : seek (fun i : Item κ ω => tree.compare_fun key i.key) t [] with ⟨p, u⟩
  cases u with
  | nil => rw [← length_before_of_absent hv hs, ptr, placeOf]
  | node i l r =>
    rw [hs] at hplug hfound
    refine absurd (hfound i l r rfl) (habsent i.key ?_)
    rw [plug_nil] at hplug
    rw [← hplug, keys_plug]
    simp

theorem index_of_present (hv : Ordered tree t) {key : κ}
    (hpresent : ∃ k ∈ keys t, tree.compare_fun key k = 0) (index : BitVec 64) :
    ∃ n, ∃ hn : n < (inorder t).length, tree.compare_fun key ((inorder t).get ⟨n, hn⟩).key = 0 ∧
      avl_get_index_by_key tree key index =
      .ok (some ((inorder t).get ⟨n, hn⟩).addr, BitVec.ofNat 64 n) := by
  obtain ⟨k, hk, h0⟩ := hpresent
  have hne : t ≠ .nil := by
    rintro rfl
    exact absurd hk (by simp)
  obtain ⟨hplug, -, hfound, -⟩ := seek_spec (fun i : Item κ ω => tree.compare_fun key i.key) t []
  rw [avl_get_index_by_key_spec hv hne]
  rcases hs : seek (fun i : Item κ ω => tree.compare_fun key i.key) t [] with ⟨p, u⟩
  cases u with
  | nil => exact absurd h0 (absent_of_seek hv.preorder hv.sorted hs k hk)
  | node i l r =>
    rw [hs, plug_nil] at hplug
    rw [hs] at hfound
    have hlen : (before p ++ inorder l).length = (before p).length + l.numNodes := by
      rw [List.length_append, inorder_length]
    have hsplit : inorder t = (before p ++ inorder l) ++ i :: (inorder r ++ after p) := by
      rw [← hplug, inorder_plug, inorder_node]
      simp
    have hn : (before p).length + l.numNodes < (inorder t).length := by
      rw [hsplit, List.length_append, hlen, List.length_cons]
      omega
    have hget : (inorder t).get ⟨_, hn⟩ = i := by
      simp only [List.get_eq_getElem, hsplit, ← hlen, List.getElem_append_right (Nat.le_refl _),
        Nat.sub_self, List.getElem_cons_zero]
    exact ⟨_, hn, by rw [hget]; exact hfound i l r rfl, by rw [hget, ptr, placeOf]⟩

/-! ## The equal keys around a place -/

section Searches

omit [RankBalance ω] [HasNull κ] in
theorem equal_at_iff {cmp : κ → κ → Int} (hcmp : TotalPreorder cmp)
    (hsorted : Sorted cmp (keys t)) (key : κ) {n : Nat} (hn : n < (inorder t).length) :
    cmp key ((inorder t).get ⟨n, hn⟩).key = 0 ↔
      countLess cmp key (keys t) ≤ n ∧ n < countAtMost cmp key (keys t) := by
  have hk : n < (keys t).length := by
    rwa [keys, List.length_map]
  have hkey : (keys t)[n] = ((inorder t).get ⟨n, hn⟩).key := by simp [keys]
  rw [← hkey, equal_iff_between hcmp hsorted key hk]

variable [DecidableEq κ]

omit [RankBalance ω] in
/-- To the left: as long as there are equal keys before place `i`. -/
theorem search_left_spec {cmp : κ → κ → Int} (hcmp : TotalPreorder cmp) (h : Holds m root [] t)
    (hkeys : ∀ k ∈ keys t, k ≠ HasNull.NULL) (hsorted : Sorted cmp (keys t))
    (hsize : t.numNodes < 2 ^ 64) (key : κ) (fuel : Nat) :
    ∀ i, countLess cmp key (keys t) ≤ i → i ≤ countAtMost cmp key (keys t) → i < fuel →
      search_left cmp key fuel m (if i = 0 then none else (addrs t)[i - 1]?) (BitVec.ofNat 64 i) =
        .ok (BitVec.ofNat 64 (countLess cmp key (keys t))) := by
  induction fuel with
  | zero =>
    intro i _ _ hfuel
    omega
  | succ fuel ih =>
    intro i hless hmost hfuel
    have hcount := countAtMost_le_length cmp key (keys t)
    rw [keys_length] at hcount
    cases i with
    | zero =>
      obtain h0 := Nat.le_zero.mp hless
      rw [h0]
      rfl
    | succ i =>
      have hn : i < (inorder t).length := by
        rw [inorder_length]
        omega
      have hpos : 0 < (BitVec.ofNat 64 (i + 1)).toNat := by
        rw [BitVec.toNat_ofNat]
        omega
      obtain ⟨x, hx, hxkey⟩ := load_at h hn
      rw [if_neg (by omega), Nat.add_sub_cancel, addrs_getElem? hn]
      simp only [search_left, if_pos hpos, hx, ok_bind, hxkey, (neighbours_at h hkeys hn).2,
        equal_at_iff hcmp hsorted key hn]
      by_cases heq : countLess cmp key (keys t) ≤ i ∧ i < countAtMost cmp key (keys t)
      · have hpred : BitVec.ofNat 64 (i + 1) - 1 = BitVec.ofNat 64 i := by
          rw [BitVec.ofNat_add]
          exact BitVec.add_sub_cancel _ _
        rw [if_pos heq, hpred]
        exact ih i heq.1 (by omega) (by omega)
      · rw [if_neg heq, pure_eq_ok, show countLess cmp key (keys t) = i + 1 by omega]

omit [RankBalance ω] in
/-- To the right: as long as there are equal keys after place `j`. -/
theorem search_right_spec {cmp : κ → κ → Int} (hcmp : TotalPreorder cmp) (h : Holds m root [] t)
    (hkeys : ∀ k ∈ keys t, k ≠ HasNull.NULL) (hsorted : Sorted cmp (keys t)) {length : BitVec 32}
    (hlength : length.toNat = t.numNodes) (key : κ) (fuel : Nat) :
    ∀ j, countLess cmp key (keys t) ≤ j → j < countAtMost cmp key (keys t) →
      countAtMost cmp key (keys t) ≤ j + fuel →
      search_right cmp key length fuel m (addrs t)[j + 1]? (BitVec.ofNat 64 j) =
        .ok (BitVec.ofNat 64 (countAtMost cmp key (keys t) - 1)) := by
  induction fuel with
  | zero =>
    intro j _ _ hfuel
    omega
  | succ fuel ih =>
    intro j hless hmost hfuel
    have hcount := countAtMost_le_length cmp key (keys t)
    rw [keys_length] at hcount
    by_cases hn : j + 1 < (inorder t).length
    · have hle : (BitVec.ofNat 64 j).toNat ≤ length.toNat := by
        rw [BitVec.toNat_ofNat, hlength]
        omega
      obtain ⟨x, hx, hxkey⟩ := load_at h hn
      rw [addrs_getElem? hn]
      simp only [search_right, if_pos hle, hx, ok_bind, hxkey, (neighbours_at h hkeys hn).1,
        equal_at_iff hcmp hsorted key hn]
      split_ifs with heq
      · rw [show BitVec.ofNat 64 j + 1 = BitVec.ofNat 64 (j + 1) from (BitVec.ofNat_add ..).symm]
        exact ih (j + 1) heq.1 heq.2 (by omega)
      · rw [pure_eq_ok, show countAtMost cmp key (keys t) - 1 = j by omega]
    · have hnone : (addrs t)[j + 1]? = none := by
        rw [List.getElem?_eq_none]
        rw [addrs, List.length_map]
        omega
      rw [inorder_length] at hn
      rw [hnone, search_right, pure_eq_ok, show countAtMost cmp key (keys t) - 1 = j by omega]

end Searches

/-! ## The two functions -/

theorem Ordered.numNodes_lt (hv : Ordered tree t) : t.numNodes < 2 ^ 32 := by
  rw [← hv.length]
  exact tree.length.isLt

theorem Ordered.count_le (hv : Ordered tree t) (key : κ) :
    countLess tree.compare_fun key (keys t) ≤ countAtMost tree.compare_fun key (keys t) ∧
      countAtMost tree.compare_fun key (keys t) ≤ tree.length.toNat := by
  refine ⟨countLess_le_countAtMost _ _ _, ?_⟩
  rw [hv.length, ← keys_length]
  exact countAtMost_le_length _ _ _

theorem Ordered.toNat_count (hv : Ordered tree t) (key : κ) :
    (BitVec.ofNat 64 (countLess tree.compare_fun key (keys t))).toNat =
        countLess tree.compare_fun key (keys t) ∧
      (BitVec.ofNat 64 (countAtMost tree.compare_fun key (keys t))).toNat =
        countAtMost tree.compare_fun key (keys t) := by
  obtain ⟨hle, hlength⟩ := hv.count_le key
  have hlt := tree.length.isLt
  simp only [BitVec.toNat_ofNat]
  constructor
  · exact Nat.mod_eq_of_lt (by omega)
  · exact Nat.mod_eq_of_lt (by omega)

theorem five_ordered : ∃ tree', attempts sample [(some 2, .insert 5)] = .ok tree' ∧
    tree'.compare_fun = byAddress ∧ Ordered tree' (five 1) :=
  ⟨_, rfl, rfl, byAddress_preorder, ⟨1, rfl, ⟨_, rfl⟩, ⟨rfl, trivial, trivial⟩, by decide⟩,
    List.pairwise_singleton _ _, ⟨rfl, trivial, trivial⟩, rfl, by decide⟩

theorem grown_ordered : ∃ tree', attempts sample grown_calls = .ok tree' ∧
    tree'.compare_fun = byAddress ∧ Ordered tree' grown := by
  obtain ⟨tree', hrun, hfun, hroot, hlength, hheld⟩ := grown_held
  refine ⟨tree', hrun, hfun, hfun ▸ byAddress_preorder, ⟨1, hroot, hheld⟩, ?_, grown_ranked,
    ?_, by decide⟩
  · rw [hfun]
    show List.Pairwise _ _
    decide
  · rw [hlength]
    rfl

section Spans

variable [DecidableEq κ]

theorem search_left_low (hv : Ordered tree t) {key : κ} {n : Nat} (hn : n < (inorder t).length)
    (h0 : tree.compare_fun key ((inorder t).get ⟨n, hn⟩).key = 0) :
    ∃ left, avl_get_prev tree.mem (some ((inorder t).get ⟨n, hn⟩).addr) = .ok left ∧
      search_left tree.compare_fun key (tree.mem.size + 1) tree.mem left (BitVec.ofNat 64 n) =
        .ok (BitVec.ofNat 64 (countLess tree.compare_fun key (keys t))) := by
  obtain ⟨root, hroot, h⟩ := hv.held
  obtain ⟨hless, hmost⟩ := (equal_at_iff hv.preorder hv.sorted key hn).mp h0
  have hlt := hv.numNodes_lt
  have hsize := h.numNodes_lt_size
  rw [plug_nil, ← inorder_length] at hsize
  exact ⟨_, (neighbours_at h hv.notNull hn).2,
    search_left_spec hv.preorder h hv.notNull hv.sorted (by omega) key _ n hless
      (by omega) (by omega)⟩

theorem search_right_last (hv : Ordered tree t) {key : κ} {n : Nat} (hn : n < (inorder t).length)
    (h0 : tree.compare_fun key ((inorder t).get ⟨n, hn⟩).key = 0) :
    ∃ right, avl_get_next tree.mem (some ((inorder t).get ⟨n, hn⟩).addr) = .ok right ∧
      search_right tree.compare_fun key tree.length (tree.mem.size + 1) tree.mem right
        (BitVec.ofNat 64 n) =
          .ok (BitVec.ofNat 64 (countAtMost tree.compare_fun key (keys t)) - 1) := by
  obtain ⟨root, hroot, h⟩ := hv.held
  obtain ⟨hless, hmost⟩ := (equal_at_iff hv.preorder hv.sorted key hn).mp h0
  have hcount := hv.count_le key
  have hlength := hv.length
  have hsize := h.numNodes_lt_size
  rw [plug_nil] at hsize
  have hlast : BitVec.ofNat 64 (countAtMost tree.compare_fun key (keys t)) - 1 =
      BitVec.ofNat 64 (countAtMost tree.compare_fun key (keys t) - 1) := by
    obtain ⟨k, hk⟩ : ∃ k, countAtMost tree.compare_fun key (keys t) = k + 1 :=
      ⟨countAtMost tree.compare_fun key (keys t) - 1, by omega⟩
    rw [hk, Nat.add_sub_cancel, BitVec.ofNat_add]
    exact BitVec.add_sub_cancel _ _
  rw [hlast]
  exact ⟨_, (neighbours_at h hv.notNull hn).1,
    search_right_spec hv.preorder h hv.notNull hv.sorted hlength key _ n hless hmost (by omega)⟩

theorem avl_get_span_by_key_spec (hv : Ordered tree t) {key : κ}
    (hpresent : ∃ k ∈ keys t, tree.compare_fun key k = 0) (m : BitVec 64) :
    avl_get_span_by_key tree key m =
      .ok (0, BitVec.ofNat 64 (countLess tree.compare_fun key (keys t)),
        BitVec.ofNat 64 (countAtMost tree.compare_fun key (keys t))) := by
  obtain ⟨n, hn, h0, hindex⟩ := index_of_present hv hpresent m
  obtain ⟨left, hleft, hlow⟩ := search_left_low hv hn h0
  obtain ⟨right, hright, hlast⟩ := search_right_last hv hn h0
  simp only [avl_get_span_by_key, hindex, ok_bind, hleft, hlow, hright, hlast, pure_eq_ok]
  congr 3
  exact BitVec.sub_add_cancel _ _

/-- **The span of a key that is there**: the places of the equal keys. -/
theorem span_of_present_key (hv : Ordered tree t) {key : κ}
    (hpresent : ∃ k ∈ keys t, tree.compare_fun key k = 0) (m : BitVec 64) :
    ∃ low high, avl_get_span_by_key tree key m = .ok (0, low, high) ∧
      low.toNat = (keys t).countP (fun k => tree.compare_fun k key < 0) ∧
      high.toNat = (keys t).countP (fun k => tree.compare_fun k key ≤ 0) ∧
      ∀ n, ∀ hn : n < (keys t).length,
        low.toNat ≤ n ∧ n < high.toNat ↔ tree.compare_fun key (keys t)[n] = 0 := by
  obtain ⟨hlow, hhigh⟩ := hv.toNat_count key
  refine ⟨_, _, avl_get_span_by_key_spec hv hpresent m, hlow, hhigh, fun n hn => ?_⟩
  rw [hlow, hhigh, equal_iff_between hv.preorder hv.sorted key hn]

theorem span_of_present_key_grown : ∃ tree', attempts sample grown_calls = .ok tree' ∧
    ∃ low high, avl_get_span_by_key tree' 5 0 = .ok (0, low, high) ∧
      low.toNat = (keys grown).countP (fun k => tree'.compare_fun k 5 < 0) ∧
      high.toNat = (keys grown).countP (fun k => tree'.compare_fun k 5 ≤ 0) ∧
      ∀ n, ∀ hn : n < (keys grown).length,
        low.toNat ≤ n ∧ n < high.toNat ↔ tree'.compare_fun 5 (keys grown)[n] = 0 := by
  obtain ⟨tree', hrun, hfun, hv⟩ := grown_ordered
  refine ⟨tree', hrun, span_of_present_key hv ⟨5, by decide, ?_⟩ 0⟩
  rw [hfun]
  rfl

/-- The span of a key that is not there is an empty range within the tree, whatever `m`
held before. -/
def AbsentSpan (tree : avl_tree κ ω) (key : κ) : Prop :=
  ∃ p : BitVec 64, p.toNat ≤ tree.length.toNat ∧ ∀ m, avl_get_span_by_key tree key m = .ok (0, p, p)

/-- **The span of a key that is not there** is a valid one exactly when some key is smaller.
Otherwise it is the place before the first one, or what was in the memory before. -/
theorem span_of_absent_key_iff (hv : Ordered tree t) {key : κ}
    (habsent : ∀ k ∈ keys t, tree.compare_fun key k ≠ 0) :
    AbsentSpan tree key ↔ ∃ k ∈ keys t, tree.compare_fun k key < 0 := by
  rw [← countLess_pos]
  by_cases hne : t = .nil
  · obtain ⟨root, hroot, h⟩ := hv.held
    obtain ⟨n, hn, hright, -, -⟩ := h.load_root
    rw [plug_nil, hne] at hright
    have hrun : ∀ m, avl_get_span_by_key tree key m = .ok (0, m, m) := by
      intro m
      simp only [avl_get_span_by_key, avl_get_index_by_key, hroot, hn, ok_bind, hright,
        ptr, pure_eq_ok]
    subst hne
    refine iff_of_false ?_ (by simp [countLess])
    rintro ⟨p, -, hp⟩
    have h0 := (hrun 0).symm.trans (hp 0)
    have h1 := (hrun 1).symm.trans (hp 1)
    simp only [Except.ok.injEq, Prod.mk.injEq, true_and, and_self] at h0 h1
    exact absurd (h0.trans h1.symm) (by decide)
  have hrun : ∀ m, avl_get_span_by_key tree key m =
      .ok (0, BitVec.ofNat 64 (countLess tree.compare_fun key (keys t)) - 1,
        BitVec.ofNat 64 (countLess tree.compare_fun key (keys t)) - 1) := by
    intro m
    simp only [avl_get_span_by_key, index_of_absent hv hne habsent m, ok_bind, pure_eq_ok]
  obtain ⟨hlow, -⟩ := hv.toNat_count key
  have hcount := hv.count_le key
  have hlt := tree.length.isLt
  have hpred : (BitVec.ofNat 64 (countLess tree.compare_fun key (keys t)) - 1).toNat =
      (2 ^ 64 - 1 + countLess tree.compare_fun key (keys t)) % 2 ^ 64 := by
    rw [BitVec.toNat_sub, hlow]
    rfl
  constructor
  · rintro ⟨p, hle, hp⟩
    have h0 := (hrun 0).symm.trans (hp 0)
    simp only [Except.ok.injEq, Prod.mk.injEq, true_and, and_self] at h0
    rw [← h0, hpred] at hle
    omega
  · intro hpos
    exact ⟨_, by omega, hrun⟩

theorem span_of_absent_key_iff_grown : ∃ tree', attempts sample grown_calls = .ok tree' ∧
    (AbsentSpan tree' 6 ↔ ∃ k ∈ keys grown, tree'.compare_fun k 6 < 0) := by
  obtain ⟨tree', hrun, hfun, hv⟩ := grown_ordered
  refine ⟨tree', hrun, span_of_absent_key_iff hv ?_⟩
  rw [hfun]
  decide

/-- The span in a new tree is what `m` held before, and that of a key below 5 is the
largest number. -/
theorem span_of_absent_key_wrong : avl_tree_new byAddress (fresh Nat (BitVec 32)) = some sample ∧
    ¬ AbsentSpan sample 7 ∧ ∃ tree', attempts sample [(some 2, .insert 5)] = .ok tree' ∧
      (∀ k ∈ keys (five 1), tree'.compare_fun 3 k ≠ 0) ∧ ¬ AbsentSpan tree' 3 := by
  refine ⟨rfl, ?_, _, rfl, by decide, ?_⟩
  · rintro ⟨p, -, hp⟩
    cases hp 0
    cases hp 1
  · rintro ⟨p, hle, hp⟩
    cases hp 0
    exact absurd hle (by decide)

theorem low_of_two_keys (hv : Ordered tree t) (hne : t ≠ .nil) (key : κ) (index : BitVec 64) :
    ∃ node i, avl_get_index_by_key tree key index = .ok (node, i) ∧
      (match node with
        | some _ => do
          search_left tree.compare_fun key (tree.mem.size + 1) tree.mem
            (← avl_get_prev tree.mem node) i
        | none => pure (i + 1)) =
          Except.ok (BitVec.ofNat 64 (countLess tree.compare_fun key (keys t))) := by
  by_cases hpresent : ∃ k ∈ keys t, tree.compare_fun key k = 0
  · obtain ⟨n, hn, h0, hindex⟩ := index_of_present hv hpresent index
    obtain ⟨left, hleft, hlow⟩ := search_left_low hv hn h0
    refine ⟨_, _, hindex, ?_⟩
    simp only [hleft, ok_bind, hlow]
  · refine ⟨_, _, index_of_absent hv hne (fun k hk h0 => hpresent ⟨k, hk, h0⟩) index, ?_⟩
    simp only [pure_eq_ok]
    congr 1
    exact BitVec.sub_add_cancel _ _

theorem high_of_two_keys (hv : Ordered tree t) (hne : t ≠ .nil) (key : κ) (index : BitVec 64) :
    ∃ node j, avl_get_index_by_key tree key index = .ok (node, j) ∧
      (match node with
        | some _ => do
          search_right tree.compare_fun key tree.length (tree.mem.size + 1) tree.mem
            (← avl_get_next tree.mem node) j
        | none => pure (j + 1)) = Except.ok (if ∃ k ∈ keys t, tree.compare_fun key k = 0
          then BitVec.ofNat 64 (countAtMost tree.compare_fun key (keys t)) - 1
          else BitVec.ofNat 64 (countAtMost tree.compare_fun key (keys t))) := by
  by_cases hpresent : ∃ k ∈ keys t, tree.compare_fun key k = 0
  · obtain ⟨n, hn, h0, hindex⟩ := index_of_present hv hpresent index
    obtain ⟨right, hright, hlast⟩ := search_right_last hv hn h0
    refine ⟨_, _, hindex, ?_⟩
    simp only [hright, ok_bind, hlast, if_pos hpresent]
  · have habsent : ∀ k ∈ keys t, tree.compare_fun key k ≠ 0 := fun k hk h0 => hpresent ⟨k, hk, h0⟩
    refine ⟨_, _, index_of_absent hv hne habsent index, ?_⟩
    simp only [pure_eq_ok, if_neg hpresent, countAtMost_eq_countLess hv.preorder key habsent]
    congr 1
    exact BitVec.sub_add_cancel _ _

/-- The smaller of two keys. -/
def lowerKey (cmp : κ → κ → Int) (a b : κ) : κ := if 0 < cmp a b then b else a

/-- The larger of two keys. -/
def upperKey (cmp : κ → κ → Int) (a b : κ) : κ := if 0 < cmp a b then a else b

open Classical in
theorem avl_get_span_by_two_keys_spec (hv : Ordered tree t) (hne : t ≠ .nil) (a b : κ)
    (i j : BitVec 64) :
    avl_get_span_by_two_keys tree a b i j =
      .ok (0, BitVec.ofNat 64 (countLess tree.compare_fun (lowerKey tree.compare_fun a b) (keys t)),
        if ∃ k ∈ keys t, tree.compare_fun (upperKey tree.compare_fun a b) k = 0
        then BitVec.ofNat 64
        (countAtMost tree.compare_fun (upperKey tree.compare_fun a b) (keys t)) - 1
        else BitVec.ofNat 64
        (countAtMost tree.compare_fun (upperKey tree.compare_fun a b) (keys t))) := by
  obtain ⟨low_node, i', hi, hlow⟩ := low_of_two_keys hv hne (lowerKey tree.compare_fun a b) i
  obtain ⟨high_node, j', hj, hhigh⟩ := high_of_two_keys hv hne (upperKey tree.compare_fun a b) j
  have hswap : (if 0 < tree.compare_fun a b then (b, a) else (a, b)) =
      (lowerKey tree.compare_fun a b, upperKey tree.compare_fun a b) := by
    rw [lowerKey, upperKey]
    split_ifs
    · rfl
    · rfl
  rw [avl_get_span_by_two_keys, hswap]
  simp only [hi, hj, ok_bind]
  exact run_bind hlow (run_bind hhigh rfl)

/-- The places from the smaller key to the larger one. For a single key that is there they are those
of `avl_get_span_by_key`. -/
def TwoKeySpan (tree : avl_tree κ ω) (t : BinaryTree (Item κ ω)) (a b : κ) (i j : BitVec 64) :
    Prop :=
  ∃ low high, avl_get_span_by_two_keys tree a b i j = .ok (0, low, high) ∧
    low.toNat = (keys t).countP (fun k => tree.compare_fun k (lowerKey tree.compare_fun a b) < 0) ∧
    high.toNat = (keys t).countP (fun k => tree.compare_fun k (upperKey tree.compare_fun a b) ≤ 0) ∧
    (a = b → (∃ k ∈ keys t, tree.compare_fun a k = 0) →
      ∀ m, avl_get_span_by_key tree a m = .ok (0, low, high))

/-- **The span of two keys** is right exactly when the larger one is not there. Otherwise it leaves
out the last of the keys that are equal to it. -/
theorem span_by_two_keys_iff (hv : Ordered tree t) (hne : t ≠ .nil) (a b : κ) (i j : BitVec 64) :
    TwoKeySpan tree t a b i j ↔ ∀ k ∈ keys t,
      tree.compare_fun (upperKey tree.compare_fun a b) k ≠ 0 := by
  have hrun := avl_get_span_by_two_keys_spec hv hne a b i j
  obtain ⟨hless, -⟩ := hv.toNat_count (lowerKey tree.compare_fun a b)
  obtain ⟨-, hmost⟩ := hv.toNat_count (upperKey tree.compare_fun a b)
  by_cases hpresent : ∃ k ∈ keys t, tree.compare_fun (upperKey tree.compare_fun a b) k = 0
  · rw [if_pos hpresent] at hrun
    refine iff_of_false ?_ fun habsent => hpresent.elim fun k hk => habsent k hk.1 hk.2
    rintro ⟨low, high, hspan, -, hhigh, -⟩
    rw [hspan, Except.ok.injEq, Prod.mk.injEq, Prod.mk.injEq] at hrun
    have hcount : high.toNat = (BitVec.ofNat 64
        (countAtMost tree.compare_fun (upperKey tree.compare_fun a b) (keys t))).toNat := by
      rw [hmost, hhigh, countAtMost]
    rw [hrun.2.2] at hcount
    have hword := BitVec.eq_of_toNat_eq hcount
    grind
  · rw [if_neg hpresent] at hrun
    refine iff_of_true ⟨_, _, hrun, hless, hmost, ?_⟩ fun k hk h0 => hpresent ⟨k, hk, h0⟩
    rintro rfl hkey
    rw [upperKey, ite_self] at hpresent
    exact absurd hkey hpresent

theorem span_by_two_keys_iff_grown : ∃ tree', attempts sample grown_calls = .ok tree' ∧
    (TwoKeySpan tree' grown 8 5 0 0 ↔
      ∀ k ∈ keys grown, tree'.compare_fun (upperKey tree'.compare_fun 8 5) k ≠ 0) := by
  obtain ⟨tree', hrun, -, hv⟩ := grown_ordered
  exact ⟨tree', hrun, span_by_two_keys_iff hv (by simp [grown]) 8 5 0 0⟩

/-- From 5 to 5 in a tree that holds 5: no place. -/
theorem span_by_two_keys_short : ∃ tree', attempts sample [(some 2, .insert 5)] = .ok tree' ∧
    Ordered tree' (five 1) ∧ avl_get_span_by_two_keys tree' 5 5 0 0 = .ok (0, 0, 0) ∧
      avl_get_span_by_key tree' 5 0 = .ok (0, 0, 1) ∧ ¬ TwoKeySpan tree' (five 1) 5 5 0 0 := by
  obtain ⟨tree', hrun, -, hv⟩ := five_ordered
  obtain rfl := Except.ok.inj hrun
  refine ⟨_, rfl, hv, rfl, rfl, ?_⟩
  rintro ⟨low, high, hspan, -, hhigh, -⟩
  cases hspan
  exact absurd hhigh (by decide)

end Spans

end Avl
