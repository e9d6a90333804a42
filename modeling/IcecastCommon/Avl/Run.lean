import IcecastCommon.Avl.Sequence
import IcecastCommon.Lib.Run

/-!
# Runs of insertions and deletions

What holds of every tree that calls of `avl_insert` and `avl_delete` make of a new one, when no
allocation fails.
-/

namespace Avl

open Lib

variable {κ ω : Type}

inductive Call (κ : Type) where
  | insert (key : κ)
  | delete (key : κ) (free_key_fun : Option (κ → Int))

/-- The call deletes a key that the lookup finds, or inserts one. -/
def KeyFound (tree : avl_tree κ ω) : Call κ → Prop
  | .insert _ => True
  | .delete key _ => ∃ k, avl_get_by_key tree key = .ok (0, some k)

theorem found_iff (tree : avl_tree κ ω) (key : κ) :
    (∃ r ∈ (avl_get_by_key tree key).toOption, r.1 = 0 ∧ r.2.isSome) ↔
      ∃ k, avl_get_by_key tree key = .ok (0, some k) := by
  cases avl_get_by_key tree key with
  | error e => simp [Except.toOption]
  | ok r =>
    obtain ⟨n, k⟩ := r
    simp only [Except.toOption, Option.mem_some_iff, exists_eq_left', Except.ok.injEq,
      Prod.mk.injEq, Option.isSome_iff_exists, exists_and_left]

instance (tree : avl_tree κ ω) (c : Call κ) : Decidable (KeyFound tree c) :=
  match c with
  | .insert _ => isTrue trivial
  | .delete key _ => decidable_of_iff _ (found_iff tree key)

variable [RankBalance ω] [HasNull κ]

/-- One call, for what it does to the tree. -/
def call (tree : avl_tree κ ω) : Call κ → C (avl_tree κ ω)
  | .insert key => do
    let (_, tree) ← avl_insert tree key
    return tree
  | .delete key free_key_fun => do
    let (_, tree, _) ← avl_delete tree key free_key_fun
    return tree

def run (tree : avl_tree κ ω) (calls : List (Call κ)) : C (avl_tree κ ω) := calls.foldlM call tree

theorem avl_tree_new_spec {compare_fun : κ → κ → Int} {m : Memory (avl_node κ ω)}
    {tree : avl_tree κ ω} (hm : m.Generous) (hnew : avl_tree_new compare_fun m = some tree) :
    Stores tree .nil ∧ tree.compare_fun = compare_fun := by
  obtain ⟨a, m', hmalloc, -, hget, -, hgen⟩ := m.malloc_eq hm
    { key := HasNull.NULL, left := none, right := none, parent := none
      rank_and_balance := AVL_SET_RANK (AVL_SET_BALANCE (RankBalance.zero : ω) 0) 1 }
  simp only [avl_tree_new, avl_node_new, hmalloc, Option.some.injEq] at hnew
  subst hnew
  exact ⟨⟨⟨a, rfl, ⟨⟨_, hget⟩, trivial, by simp⟩⟩, trivial, rfl, hgen⟩, rfl⟩

variable [LawfulRankBalance ω]

/-- Every call keeps the shape, whatever the comparison answers. -/
theorem call_stores {tree : avl_tree κ ω} {t : BinaryTree (Item κ ω)} (h : Stores tree t)
    (c : Call κ) :
    ∃ tree' t', call tree c = .ok tree' ∧ Stores tree' t' ∧ t'.numNodes ≤ t.numNodes + 1 := by
  cases c with
  | insert key =>
    obtain ⟨tree', t', hrun, hdone⟩ := avl_insert_spec key h
    obtain ⟨a, hlab⟩ := hdone.inserted.labels
    exact ⟨tree', t', by simp only [call, hrun, ok_bind, pure_eq_ok], hdone.stores,
      (numNodes_of_labels hlab).le⟩
  | delete key free_key_fun =>
    rcases hs : seek (fun i : Item κ ω => tree.compare_fun key i.key) t [] with ⟨p, u⟩
    cases u with
    | nil =>
      obtain ⟨m', hrun, hst, hlab⟩ := avl_delete_absent free_key_fun h hs
      refine ⟨_, _, by simp only [call, hrun, ok_bind, pure_eq_ok], hst, ?_⟩
      rw [← labels_length, hlab, labels_length]
      omega
    | node i l r =>
      obtain ⟨tree', t', hrun, hdone⟩ := avl_delete_present free_key_fun h hs
      obtain ⟨A, B, hA, hB⟩ := hdone.keys
      refine ⟨tree', t', by simp only [call, hrun, ok_bind, pure_eq_ok], hdone.stores, ?_⟩
      rw [← keys_length, ← keys_length, hA, hB]
      simp
      omega

theorem run_length_le {tree tree' : avl_tree κ ω} {t : BinaryTree (Item κ ω)} (h : Stores tree t)
    (calls : List (Call κ)) (hrun : run tree calls = .ok tree') {S : List κ} (hS : Reads tree' S) :
    S.length ≤ t.numNodes + calls.length := by
  induction calls generalizing tree t with
  | nil =>
    obtain rfl : tree = tree' := Except.ok.inj hrun
    rw [h.keys_eq hS, keys_length]
    simp
  | cons c calls ih =>
    obtain ⟨tree1, t1, hcall, hst1, hle⟩ := call_stores h c
    rw [run, List.foldlM_cons, hcall, ok_bind] at hrun
    have := ih hst1 hrun
    rw [List.length_cons]
    omega

/-- The tree is sorted, balanced and well linked. -/
def Valid (compare_fun : κ → κ → Int) (tree : avl_tree κ ω) : Prop :=
  ∃ t, Stores tree t ∧ tree.compare_fun = compare_fun ∧ Sorted compare_fun (keys t)

theorem call_valid {compare_fun : κ → κ → Int} (hcmp : TotalPreorder compare_fun)
    (tree : avl_tree κ ω) (c : Call κ) (h : Valid compare_fun tree) :
    ∃ tree', call tree c = .ok tree' ∧ Valid compare_fun tree' := by
  obtain ⟨t, hst, rfl, hsorted⟩ := h
  cases c with
  | insert key =>
    obtain ⟨tree', t', hrun, hdone, -, hs'⟩ := insert_sequence hcmp key hst hsorted
    exact ⟨tree', by simp only [call, hrun, ok_bind, pure_eq_ok], t', hdone.stores,
      hdone.compare_fun, hs'⟩
  | delete key free_key_fun =>
    rcases delete_sequence hcmp key free_key_fun hst hsorted with
      ⟨tree', t', i, hrun, hdone, hs'⟩ | ⟨-, m', t', hrun, hst', hlab⟩
    · exact ⟨tree', by simp only [call, hrun, ok_bind, pure_eq_ok], t', hdone.stores,
        hdone.compare_fun, hs'⟩
    · refine ⟨_, by simp only [call, hrun, ok_bind, pure_eq_ok], t', hst', rfl, ?_⟩
      rw [keys_of_labels, hlab, ← keys_of_labels]
      exact hsorted

theorem run_valid {compare_fun : κ → κ → Int} (hcmp : TotalPreorder compare_fun)
    {m : Memory (avl_node κ ω)} (hm : m.Generous) {tree : avl_tree κ ω}
    (hnew : avl_tree_new compare_fun m = some tree) (calls : List (Call κ)) :
    ∃ tree', run tree calls = .ok tree' ∧ Valid compare_fun tree' := by
  obtain ⟨hst, hfun⟩ := avl_tree_new_spec hm hnew
  exact run_invariant (call_valid hcmp) ⟨.nil, hst, hfun, List.Pairwise.nil⟩ calls

/-! ## The packed words of the code -/

section Words

/-- Keys that are addresses. -/
instance : HasNull Nat := ⟨0⟩

/-- A memory with no cell in use, where no allocation fails. -/
def fresh (κ ω : Type) : Memory (avl_node κ ω) := ⟨∅, fun _ => some 1⟩

theorem fresh_generous (κ ω : Type) : (fresh κ ω).Generous := fun _ => rfl

def byAddress (a b : Nat) : Int := (a : Int) - b

theorem byAddress_preorder : TotalPreorder byAddress :=
  ⟨fun a b => by unfold byAddress; omega, fun a b c => by unfold byAddress; omega⟩

/-- What `avl_tree_new` makes in the fresh memory. -/
def sample : avl_tree Nat (BitVec 32) where
  root := some 1
  height := 0
  length := 0
  compare_fun := byAddress
  mem := ((fresh Nat (BitVec 32)).malloc ⟨0, none, none, none, 5#32⟩).2

theorem sample_new : avl_tree_new byAddress (fresh Nat (BitVec 32)) = some sample := rfl

variable {compare_fun : κ → κ → Int} {m : Memory (avl_node κ (BitVec 32))}
  {tree : avl_tree κ (BitVec 32)}

/-- **Structure.** After every run the keys are in order, every balance factor is the difference of
the heights, and the length counts the nodes. -/
theorem run_balanced (hcmp : TotalPreorder compare_fun) (hm : m.Generous)
    (hnew : avl_tree_new compare_fun m = some tree) (calls : List (Call κ)) :
    ∃ tree' root t, run tree calls = .ok tree' ∧ tree'.root = some root ∧
      Holds tree'.mem root [] t ∧
      Sorted compare_fun (keys t) ∧ Balanced t ∧
      (t.numNodes < 2 ^ 32 → tree'.length.toNat = t.numNodes) := by
  obtain ⟨tree', hrun, t, hst, -, hsorted⟩ := run_valid hcmp hm hnew calls
  obtain ⟨root, hroot, hheld⟩ := hst.held
  refine ⟨tree', root, t, hrun, hroot, hheld, hsorted, hst.balanced, fun hsize => ?_⟩
  rw [hst.length, BitVec.toNat_ofNat, Nat.mod_eq_of_lt hsize]

theorem run_balanced_sample : ∃ tree' root t,
    run sample [.insert 7, .insert 3, .insert 7, .delete 4 none, .delete 7 none] = .ok tree' ∧
      tree'.root = some root ∧ Holds tree'.mem root [] t ∧ Sorted byAddress (keys t) ∧ Balanced t ∧
      (t.numNodes < 2 ^ 32 → tree'.length.toNat = t.numNodes) :=
  run_balanced byAddress_preorder (fresh_generous _ _) sample_new _

/-- **Refinement of a sorted sequence.** In every tree that a run reaches, the operations act on the
sequence `S` of the keys. -/
theorem run_sequence (hcmp : TotalPreorder compare_fun) (hm : m.Generous)
    (hnew : avl_tree_new compare_fun m = some tree) (calls : List (Call κ)) :
    ∃ tree' S, run tree calls = .ok tree' ∧ (∀ S', Reads tree' S' ↔ S' = S) ∧ ∀ key : κ,
      (∃ tree1, avl_insert tree' key = .ok (0, tree1) ∧ Reads tree1
        (S.filter (fun x => compare_fun x key < 0) ++ [key] ++
        S.filter (fun x => 0 ≤ compare_fun x key))) ∧
      (∀ free_key_fun, ∃ result tree1 freed,
      avl_delete tree' key free_key_fun = .ok (result, tree1, freed) ∧
        (result = 0 ↔ ∃ x ∈ S, compare_fun key x = 0) ∧
        (result = 0 → ∃ A x B, S = A ++ x :: B ∧ compare_fun key x = 0 ∧ Reads tree1 (A ++ B) ∧
          freed = if free_key_fun.isSome then [x] else []) ∧
        (result ≠ 0 → result = -1 ∧ Reads tree1 S ∧ freed = [])) ∧
      (∃ result value, avl_get_by_key tree' key = .ok (result, value) ∧
        (result = 0 ↔ ∃ x ∈ S, compare_fun key x = 0) ∧
        (result = 0 → ∃ x ∈ S, compare_fun key x = 0 ∧ value = some x)) := by
  obtain ⟨tree', hrun, t, hst, rfl, hsorted⟩ := run_valid hcmp hm hnew calls
  refine ⟨tree', keys t, hrun, fun S' => ⟨hst.keys_eq, fun h => h ▸ hst.reads⟩, fun key =>
    ⟨?_, ?_, ?_⟩⟩
  · obtain ⟨tree1, t1, hins, hdone, hkeys, -⟩ := insert_sequence hcmp key hst hsorted
    exact ⟨tree1, hins, hkeys ▸ hdone.stores.reads⟩
  · intro free_key_fun
    rcases delete_sequence hcmp key free_key_fun hst hsorted with
      ⟨tree1, t1, i, hdel, hdone, -⟩ | ⟨habsent, m1, t1, hdel, hst1, hlab⟩
    · obtain ⟨A, B, hA, hB⟩ := hdone.keys
      refine ⟨0, tree1, _, hdel, ⟨fun _ => ⟨i.key, by simp [hA], hdone.found⟩, fun _ => rfl⟩,
        fun _ => ?_,
        fun h => absurd rfl h⟩
      exact ⟨A, i.key, B, hA, hdone.found, hB ▸ hdone.stores.reads, rfl⟩
    · refine ⟨-1, _, [], hdel, ⟨fun h => by simp at h, ?_⟩, fun h => by simp at h, fun _ =>
        ⟨rfl, ?_, rfl⟩⟩
      · rintro ⟨x, hx, h0⟩
        exact absurd h0 (habsent x hx)
      · rw [keys_of_labels, ← hlab, ← keys_of_labels]
        exact hst1.reads
  · rcases lookup_sequence hcmp key hst hsorted with ⟨k, hk, h0, hget⟩ | ⟨habsent, hget⟩
    · exact ⟨0, some k, hget, ⟨fun _ => ⟨k, hk, h0⟩, fun _ => rfl⟩, fun _ => ⟨k, hk, h0, rfl⟩⟩
    · refine ⟨-1, none, hget, ⟨fun h => by simp at h, ?_⟩, fun h => by simp at h⟩
      rintro ⟨x, hx, h0⟩
      exact absurd h0 (habsent x hx)

theorem run_sequence_sample :
    ∃ tree' S, run sample [.insert 7, .insert 3, .delete 4 none] = .ok tree' ∧
    (∀ S', Reads tree' S' ↔ S' = S) ∧ ∀ key : Nat,
      (∃ tree1, avl_insert tree' key = .ok (0, tree1) ∧ Reads tree1
        (S.filter (fun x => byAddress x key < 0) ++ [key] ++
        S.filter (fun x => 0 ≤ byAddress x key))) ∧
      (∀ free_key_fun, ∃ result tree1 freed,
      avl_delete tree' key free_key_fun = .ok (result, tree1, freed) ∧
        (result = 0 ↔ ∃ x ∈ S, byAddress key x = 0) ∧
        (result = 0 → ∃ A x B, S = A ++ x :: B ∧ byAddress key x = 0 ∧ Reads tree1 (A ++ B) ∧
          freed = if free_key_fun.isSome then [x] else []) ∧
        (result ≠ 0 → result = -1 ∧ Reads tree1 S ∧ freed = [])) ∧
      (∃ result value, avl_get_by_key tree' key = .ok (result, value) ∧
        (result = 0 ↔ ∃ x ∈ S, byAddress key x = 0) ∧
        (result = 0 → ∃ x ∈ S, byAddress key x = 0 ∧ value = some x)) :=
  run_sequence byAddress_preorder (fresh_generous _ _) sample_new _

/-- The call deletes a key that the tree has, or inserts one. -/
def FindsItsKey (tree : avl_tree κ (BitVec 32)) : Call κ → Prop
  | .insert _ => True
  | .delete key _ => ∃ S, Reads tree S ∧ ∃ x ∈ S, tree.compare_fun key x = 0

theorem KeyFound.finds (hcmp : TotalPreorder compare_fun)
    (hvalid : Valid compare_fun tree) {c : Call κ} (hfound : KeyFound tree c) :
    FindsItsKey tree c := by
  cases c with
  | insert key => trivial
  | delete key free_key_fun =>
    obtain ⟨t, hst, rfl, hsorted⟩ := hvalid
    obtain ⟨found, hfound⟩ := hfound
    rcases lookup_sequence hcmp key hst hsorted with ⟨k, hk, h0, -⟩ | ⟨-, hget⟩
    · exact ⟨keys t, hst.reads, k, hk, h0⟩
    · rw [hget] at hfound
      exact absurd (congrArg (Except.map Prod.fst) hfound) (by simp [Except.map])

/-- **Order statistics.** When every deletion finds its key and there are always fewer than `2^30`
nodes, every rank counts the nodes to its left, and the index of a key is its place. -/
theorem run_ranked (hcmp : TotalPreorder compare_fun) (hm : m.Generous)
    (hnew : avl_tree_new compare_fun m = some tree) (calls : List (Call κ))
    (hfinds : ∀ pre c post tree', calls = pre ++ c :: post → run tree pre = .ok tree' →
      FindsItsKey tree' c)
    (hsize : ∀ pre post tree' S, calls = pre ++ post → run tree pre = .ok tree' → Reads tree' S →
      S.length < 2 ^ 30) :
    ∃ tree' root t, run tree calls = .ok tree' ∧ tree'.root = some root ∧
      Holds tree'.mem root [] t ∧
      Ranked t ∧ tree'.length.toNat = (keys t).length ∧
      ∀ index : BitVec 64, avl_get_by_index tree' index =
        .ok (if index.toNat < tree'.length.toNat then (0, (keys t)[index.toNat]?)
        else (-1, none)) := by
  obtain ⟨hst0, hfun0⟩ := avl_tree_new_spec hm hnew
  have hrun : ∃ tree', run tree calls = .ok tree' ∧ ∃ t, Stores tree' t ∧
      tree'.compare_fun = compare_fun ∧ Sorted compare_fun (keys t) ∧ Ranked t := by
    refine run_along ⟨.nil, hst0, hfun0, List.Pairwise.nil, trivial⟩ ?_
    rintro pre c post tree1 hcalls hpre ⟨t, hst, rfl, hsorted, hranked⟩
    have hsnoc : ∀ tree2, call tree1 c = .ok tree2 → run tree (pre ++ [c]) = .ok tree2 := by
      intro tree2 h2
      rw [run, List.foldlM_append, hpre, ok_bind, List.foldlM_cons, h2]
      rfl
    cases c with
    | insert key =>
      obtain ⟨tree2, t2, hins, hdone, -, hsorted2⟩ := insert_sequence hcmp key hst hsorted
      have hcall : call tree1 (.insert key) = .ok tree2 := by
        simp only [call, hins, ok_bind, pure_eq_ok]
      have hlen :=
        hsize (pre ++ [.insert key]) post tree2 (keys t2) (by simp [hcalls]) (hsnoc tree2 hcall)
          hdone.stores.reads
      obtain ⟨a, hlab⟩ := hdone.inserted.labels
      rw [keys_length, numNodes_of_labels hlab] at hlen
      exact ⟨tree2, hcall, t2, hdone.stores, hdone.compare_fun, hsorted2,
        hdone.inserted.ranked hranked hlen⟩
    | delete key free_key_fun =>
      obtain ⟨S, hS, x, hx, h0⟩ := hfinds pre _ post tree1 hcalls hpre
      rw [hst.keys_eq hS] at hx
      rcases delete_sequence hcmp key free_key_fun hst hsorted with
        ⟨tree2, t2, i, hdel, hdone, hsorted2⟩ | ⟨habsent, -⟩
      · have hlen := hsize pre _ tree1 (keys t) hcalls hpre hst.reads
        rw [keys_length] at hlen
        exact ⟨tree2, by simp only [call, hdel, ok_bind, pure_eq_ok], t2, hdone.stores,
          hdone.compare_fun,
          hsorted2, hdone.ranked hranked hlen⟩
      · exact absurd h0 (habsent x hx)
  obtain ⟨tree', hrun, t, hst, -, -, hranked⟩ := hrun
  obtain ⟨root, hroot, hheld⟩ := hst.held
  have hlen := hsize calls [] tree' (keys t) (by simp) hrun hst.reads
  rw [keys_length] at hlen
  have hlength : tree'.length.toNat = (keys t).length := by
    rw [hst.length, keys_length, BitVec.toNat_ofNat, Nat.mod_eq_of_lt (by omega)]
  refine ⟨tree', root, t, hrun, hroot, hheld, hranked, hlength, fun index => ?_⟩
  rw [avl_get_by_index_spec index hst hranked hlen, hlength]
  split_ifs with hi
  · rw [List.getElem?_eq_getElem hi]
  · rw [List.getElem?_eq_none (by omega)]

/-- Keys 5, 7 and 9, for which the top turns, 5 again and 3. Then the top goes. -/
def turned_calls : List (Call Nat) :=
  [.insert 5, .insert 7, .insert 9, .insert 5, .insert 3, .delete 7 none]

theorem run_ranked_sample : ∃ tree' root t, run sample turned_calls = .ok tree' ∧
    tree'.root = some root ∧ Holds tree'.mem root [] t ∧ Ranked t ∧
      tree'.length.toNat = (keys t).length ∧
      ∀ index : BitVec 64, avl_get_by_index tree' index =
        .ok (if index.toNat < tree'.length.toNat then (0, (keys t)[index.toNat]?)
        else (-1, none)) := by
  have hfound : ∀ pre c post tree', turned_calls = pre ++ c :: post → run sample pre = .ok tree' →
      KeyFound tree' c :=
    along_of_all (by decide +kernel)
  refine run_ranked byAddress_preorder (fresh_generous _ _) sample_new _
    (fun pre c post tree' hcalls hpre => ?_)
    fun pre post tree' S hcalls hpre hS => ?_
  · obtain ⟨tree1, hrun, hvalid⟩ := run_valid byAddress_preorder (fresh_generous _ _) sample_new pre
    obtain rfl := Except.ok.inj (hrun.symm.trans hpre)
    exact (hfound pre c post _ hcalls hpre).finds byAddress_preorder hvalid
  · have hle := run_length_le (avl_tree_new_spec (fresh_generous _ _) sample_new).1 pre hpre hS
    have hlen := congrArg List.length hcalls
    simp [turned_calls] at hlen hle
    omega

end Words

end Avl
