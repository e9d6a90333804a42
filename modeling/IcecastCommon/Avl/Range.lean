import IcecastCommon.Avl.Iterate

/-!
# Index ranges beyond the nodes

The search for the last node of a range and the walk back from it both follow pointers without a
test for NULL.
-/

namespace Avl

open Lib

variable {κ ω : Type}

/-- The first `n` keys with their places, counted from `low` in unsigned arithmetic, the last one
first. -/
def backward (S : List κ) (low : BitVec 64) (n : Nat) : List (BitVec 64 × κ) :=
  (S.take n).zipIdx.reverse.map fun p => (BitVec.ofNat 64 p.2 - low, p.1)

theorem backward_succ (S : List κ) (low : BitVec 64) (n : Nat) (h : n < S.length) :
    backward S low (n + 1) = (BitVec.ofNat 64 n - low, S.get ⟨n, h⟩) :: backward S low n := by
  have hlen : (S.take n).length = n := by
    rw [List.length_take]
    omega
  rw [backward, backward, List.take_add_one, List.getElem?_eq_getElem h, List.zipIdx_append, hlen]
  simp

variable [HasNull κ] [DecidableEq κ] [RankBalance ω] {m : Memory (avl_node κ ω)} {root : Nat}
  {t : BinaryTree (Item κ ω)}

omit [HasNull κ] [DecidableEq κ] in
theorem index_search_zero (t : BinaryTree (Item κ ω)) :
    ∀ (parent : Ptr) (fuel : Nat), Owns m parent t → Ranked t → t.height < fuel →
      index_search fuel m (ptr t) 0 = .error .null := by
  induction t with
  | nil =>
    intro _ fuel _ _ hfuel
    obtain ⟨fuel, rfl⟩ : ∃ n, fuel = n + 1 := ⟨fuel - 1, by omega⟩
    rfl
  | node i l r ihl _ =>
    rintro parent fuel ⟨hi, hl, -⟩ ⟨hrank, hrl, -⟩ hfuel
    rw [BinaryTree.height] at hfuel
    obtain ⟨fuel, rfl⟩ : ∃ n, fuel = n + 1 := ⟨fuel - 1, by omega⟩
    have hword : AVL_GET_RANK i.word = (l.numNodes : Int) + 1 := hrank
    have hleft : (((0 : BitVec 64).toNat : Nat) : Int) < (l.numNodes : Int) + 1 := by
      show ((0 : Nat) : Int) < _
      omega
    simp only [index_search, ptr_node, Memory.load_eq hi, ok_bind, cell, hword, if_pos hleft]
    exact ihl (some i.addr) fuel hl hrl (by omega)

omit [RankBalance ω] in
theorem index_walk_past {σ : Type} (iter_fun : avl_iter_index_fun_type κ σ) (h : Holds m root [] t)
    (hkeys : ∀ k ∈ keys t, k ≠ HasNull.NULL) (low : BitVec 64) (n : Nat) :
    ∀ (num_left : Nat) (iter_arg : σ), n ≤ t.numNodes → n < num_left →
      BitVec.ofNat 64 num_left = BitVec.ofNat 64 n - low →
      index_walk m iter_fun num_left (if n = 0 then none else (addrs t)[n - 1]?) iter_arg =
        if (visit (fun q => iter_fun q.1 q.2) (backward (keys t) low n) iter_arg).1 ≠ 0 then
          .ok (-1, (visit (fun q => iter_fun q.1 q.2) (backward (keys t) low n) iter_arg).2)
        else .error .null := by
  induction n with
  | zero =>
    intro num_left iter_arg _ hlt _
    obtain ⟨num_left, rfl⟩ : ∃ k, num_left = k + 1 := ⟨num_left - 1, by omega⟩
    simp [index_walk, Memory.load, backward, visit, bind, Except.bind]
  | succ n ih =>
    intro num_left iter_arg hle hlt hindex
    obtain ⟨num_left, rfl⟩ : ∃ k, num_left = k + 1 := ⟨num_left - 1, by omega⟩
    have hn : n < (inorder t).length := by
      rw [inorder_length]
      omega
    have hk : n < (keys t).length := by
      rw [keys_length]
      omega
    have hindex' : BitVec.ofNat 64 num_left = BitVec.ofNat 64 n - low := by
      rw [BitVec.ofNat_add, BitVec.ofNat_add] at hindex
      grind
    have hkey : (keys t).get ⟨n, hk⟩ = ((inorder t).get ⟨n, hn⟩).key := by simp [keys]
    obtain ⟨x, hx, hxkey⟩ := load_at h hn
    rw [if_neg (by omega), Nat.add_sub_cancel, addrs_getElem? hn,
      backward_succ (keys t) low n hk, visit, hkey]
    simp only [index_walk, hx, ok_bind, hxkey, hindex']
    by_cases hstop : (iter_fun (BitVec.ofNat 64 n - low) ((inorder t).get ⟨n, hn⟩).key iter_arg).1 ≠
      0
    · simp only [if_pos hstop, pure_eq_ok]
    · obtain ⟨-, hprev⟩ := neighbours_at h hkeys hn
      simp only [if_neg hstop, hprev, ok_bind]
      exact ih num_left _ (by omega) (by omega) hindex'

/-- **Safety of index ranges.** In a tree with right links, ranks and length the iteration returns
exactly when `high` is beyond the length, or there is a node to start from and the walk back does
not pass the first one: because of the bounds, or because a call fails before. -/
theorem avl_iterate_index_range_safe_iff {tree : avl_tree κ ω} (hroot : tree.root = some root)
    (h : Holds tree.mem root [] t) (hranked : Ranked t)
    (hlength : tree.length = BitVec.ofNat 32 t.numNodes) (hkeys : ∀ k ∈ keys t, k ≠ HasNull.NULL)
    {σ : Type} (iter_fun : avl_iter_index_fun_type κ σ) (low high : BitVec 64) (iter_arg : σ) :
    (∃ r, avl_iterate_index_range tree iter_fun low high iter_arg = .ok r) ↔
      tree.length.toNat < high.toNat ∨ 0 < high.toNat ∧ (low.toNat ≤ high.toNat ∨
        (visit (fun q => iter_fun q.1 q.2) (backward (keys t) low high.toNat) iter_arg).1 ≠ 0) := by
  obtain ⟨n, hn, hright, -, -⟩ := h.load_root
  have hsize := h.numNodes_lt_size
  have hheight := t.height_le_numNodes
  rw [plug_nil] at hright hsize
  by_cases hhigh : tree.length.toNat < high.toNat
  · simp only [avl_iterate_index_range, if_pos hhigh, pure_eq_ok]
    exact iff_of_true ⟨_, rfl⟩ (.inl hhigh)
  have hcount : high.toNat ≤ t.numNodes := by
    rw [hlength, BitVec.toNat_ofNat] at hhigh
    have := Nat.mod_le t.numNodes (2 ^ 32)
    omega
  have hlt := high.isLt
  simp only [avl_iterate_index_range, if_neg hhigh, hroot, hn, ok_bind, hright, or_iff_right hhigh]
  rcases Nat.eq_zero_or_pos high.toNat with h0 | hpos
  · -- there is no node to start from
    obtain rfl : high = 0 := BitVec.eq_of_toNat_eq h0
    rw [index_search_zero t (some root) _ h.owns hranked (by omega)]
    exact iff_of_false (by rintro ⟨_, ⟨⟩⟩) fun hcon => by omega
  rw [index_search_spec t (some root) _ high h.owns hranked (by omega) hpos hcount, ok_bind,
    and_iff_right hpos]
  by_cases hle : low.toNat ≤ high.toNat
  · have hsub : (high - low).toNat = high.toNat - low.toNat := by
      rw [BitVec.toNat_sub]
      omega
    have hrun :=
      index_walk_spec iter_fun h hkeys low.toNat (high.toNat - low.toNat) (addrs t)[high.toNat - 1]?
      iter_arg (by omega) fun _ => by
        rw [show low.toNat + (high.toNat - low.toNat) - 1 = high.toNat - 1 by omega]
    rw [hsub]
    exact iff_of_true ⟨_, hrun⟩ (.inl hle)
  · -- the difference has wrapped around: there are more rounds than nodes
    have hsub : high.toNat < (high - low).toNat := by
      have := low.isLt
      rw [BitVec.toNat_sub]
      omega
    have hindex : BitVec.ofNat 64 (high - low).toNat = BitVec.ofNat 64 high.toNat - low := by
      simp only [BitVec.ofNat_toNat, BitVec.setWidth_eq]
    have hrun := index_walk_past iter_fun h hkeys low high.toNat _ iter_arg hcount hsub hindex
    rw [if_neg (by omega)] at hrun
    rw [hrun, or_iff_right hle]
    split_ifs with hstop
    · exact iff_of_true ⟨_, rfl⟩ hstop
    · exact iff_of_false (by rintro ⟨_, ⟨⟩⟩) hstop

theorem avl_iterate_index_range_safe_iff_grown : ∃ tree', attempts sample grown_calls = .ok tree' ∧
    ((∃ r, avl_iterate_index_range tree' (fun _ k s => (if k = 3 then -1 else 0, s)) 4 3 () =
      .ok r) ↔
      tree'.length.toNat < (3 : BitVec 64).toNat ∨ 0 < (3 : BitVec 64).toNat ∧
        ((4 : BitVec 64).toNat ≤ (3 : BitVec 64).toNat ∨
          (visit (fun q s => (if q.2 = 3 then -1 else 0, s)) (backward (keys grown) 4 3) ()).1 ≠
          0)) := by
  obtain ⟨tree', hrun, -, hroot, hlength, hheld⟩ := grown_held
  exact ⟨tree', hrun, avl_iterate_index_range_safe_iff hroot hheld grown_ranked hlength (by decide)
    (fun _ k s => (if k = 3 then -1 else 0, s)) 4 3 ()⟩

/-- The empty range of a new tree, and a range of a tree with one node that goes backwards. -/
theorem avl_iterate_index_range_unsafe :
    avl_tree_new byAddress (fresh Nat (BitVec 32)) = some sample ∧
    (¬ ∃ r, avl_iterate_index_range sample (fun _ _ s => (0, s)) 0 0 () = .ok r) ∧
      ∃ tree', attempts sample [(some 2, .insert 5)] = .ok tree' ∧
        ¬ ∃ r, avl_iterate_index_range tree' (fun _ _ s => (0, s)) 2 1 () = .ok r := by
  refine ⟨rfl, ?_, _, rfl, ?_⟩
  · rintro ⟨r, hr⟩
    cases hr
  · rintro ⟨r, hr⟩
    cases hr

end Avl
