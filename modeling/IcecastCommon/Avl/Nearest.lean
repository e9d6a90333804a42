import IcecastCommon.Avl.Failure

/-!
# The nearest key

One walk down the tree, which saves the key of every node that it leaves on one side. The last one
saved is the nearest of all keys on that side.
-/

namespace Avl

open Lib

variable {κ ω : Type} [HasNull κ]

/-! ## What is asked of the result -/

/-- 0 and a greatest one of the keys that are at most `key`, or -1 and NULL when there are none. -/
def IsFloor (cmp : κ → κ → Int) (key : κ) (S : List κ) (r : Int × κ) : Prop :=
  ((∃ k ∈ S, cmp k key ≤ 0) →
    r.1 = 0 ∧ r.2 ∈ S ∧ cmp r.2 key ≤ 0 ∧ ∀ k ∈ S, cmp k key ≤ 0 → ¬ cmp r.2 k < 0) ∧
  ((¬ ∃ k ∈ S, cmp k key ≤ 0) → r = (-1, HasNull.NULL))

/-- 0 and a least one of the keys that are at least `key`, or -1 and NULL when there are none. -/
def IsCeiling (cmp : κ → κ → Int) (key : κ) (S : List κ) (r : Int × κ) : Prop :=
  ((∃ k ∈ S, cmp key k ≤ 0) →
    r.1 = 0 ∧ r.2 ∈ S ∧ cmp key r.2 ≤ 0 ∧ ∀ k ∈ S, cmp key k ≤ 0 → ¬ cmp k r.2 < 0) ∧
  ((¬ ∃ k ∈ S, cmp key k ≤ 0) → r = (-1, HasNull.NULL))

theorem isCeiling_iff (cmp : κ → κ → Int) (key : κ) (S : List κ) (r : Int × κ) :
    IsCeiling cmp key S r ↔ IsFloor (fun a b => cmp b a) key S.reverse r := by
  simp only [IsCeiling, IsFloor, List.mem_reverse]

section Order

variable {cmp : κ → κ → Int} (h : TotalPreorder cmp) (key : κ)
include h

omit [HasNull κ] in
theorem preorder_opposite : TotalPreorder fun a b => cmp b a :=
  ⟨fun a b => h.flip b a, fun a b c hab hbc => h.trans c b a hbc hab⟩

theorem isFloor_of_equal {S : List κ} {k : κ} (hk : k ∈ S) (h0 : cmp key k = 0) :
    IsFloor cmp key S (0, k) := by
  have hle : cmp k key ≤ 0 := (h.le_flip k key).mpr (by omega)
  refine ⟨fun _ => ⟨rfl, hk, hle, fun k' _ hk' (hlt : cmp k k' < 0) => ?_⟩, fun hnone =>
    absurd ⟨k, hk, hle⟩ hnone⟩
  have := h.trans k' key k hk' (by omega)
  have := h.flip k k'
  omega

theorem isFloor_of_last [DecidableEq κ] {A B : List κ} (hA : Sorted cmp A)
    (hless : ∀ a ∈ A, cmp a key < 0) (hmore : ∀ b ∈ B, 0 < cmp b key)
    (hnull : ∀ a ∈ A, a ≠ HasNull.NULL) :
    IsFloor cmp key (A ++ B) (if A.getLast?.getD HasNull.NULL = HasNull.NULL then -1 else 0,
      A.getLast?.getD HasNull.NULL) := by
  rcases List.eq_nil_or_concat A with rfl | ⟨A, v, rfl⟩
  · refine ⟨fun ⟨k, hk, hle⟩ => ?_, fun _ => by simp⟩
    have := hmore k (by simpa using hk)
    omega
  · rw [List.concat_eq_append] at hA hless hnull ⊢
    have hv : v ≠ HasNull.NULL := hnull v (by simp)
    have hvless : cmp v key < 0 := hless v (by simp)
    simp only [List.getLast?_concat, Option.getD_some, if_neg hv]
    refine ⟨fun _ => ⟨rfl, by simp, Int.le_of_lt hvless, fun k hk hle (hlt : cmp v k < 0) => ?_⟩,
      fun hnone => ?_⟩
    · rw [List.mem_append, List.mem_append, List.mem_singleton] at hk
      rcases hk with (hk | rfl) | hk
      · have := (List.pairwise_append.mp hA).2.2 k hk v (by simp)
        have := h.flip v k
        omega
      · have := h.refl k
        omega
      · have := hmore k hk
        omega
    · exact absurd ⟨v, by simp, by omega⟩ hnone

end Order

/-! ## The walk -/

section Walk

variable [RankBalance ω] {m : Memory (avl_node κ ω)} {t : BinaryTree (Item κ ω)}

/-- The key that was saved last on the way to the hole. -/
def saved (saves_left : Bool) (c : List (Frame (Item κ ω))) : κ :=
  ((if saves_left then (after c).head? else (before c).getLast?).map (·.key)).getD HasNull.NULL

omit [RankBalance ω] in
theorem saved_cons (saves_left : Bool) (f : Frame (Item κ ω)) (c : List (Frame (Item κ ω))) :
    saved saves_left (f :: c) =
      if (saves_left = true ↔ f.side = .left) then f.value.key else saved saves_left c := by
  cases saves_left <;> cases hs : f.side <;> simp [saved, before, after, hs]

variable [DecidableEq κ]

/-- What a walk answers from where it ended. -/
def nearest (saves_left : Bool) : List (Frame (Item κ ω)) × BinaryTree (Item κ ω) → Int × κ
  | (p, .nil) => (if saved saves_left p = HasNull.NULL then -1 else 0, saved saves_left p)
  | (_, .node i _ _) => (0, i.key)

omit [RankBalance ω] in
theorem item_by_key_spec (saves_left : Bool) (compare_fun : κ → κ → Int) (key : κ)
    (u : BinaryTree (Item κ ω)) :
    ∀ (c : List (Frame (Item κ ω))) (parent : Ptr) (fuel a : Nat), Owns m parent u →
      ptr u = some a →
      u.height ≤ fuel →
      item_by_key saves_left compare_fun key fuel m (some a) (saved saves_left c) =
        .ok (nearest saves_left (seek (fun i => compare_fun key i.key) u c)) := by
  induction u with
  | nil => intro _ _ _ _ _ h; cases h
  | node i l r ihl ihr =>
    rintro c parent fuel a ⟨hi, hl, hr⟩ ha hfuel
    rw [ptr, Option.some.injEq] at ha
    rw [BinaryTree.height] at hfuel
    obtain ⟨fuel, rfl⟩ : ∃ n, fuel = n + 1 := ⟨fuel - 1, by omega⟩
    have hleft :
        (if saves_left then i.key else saved saves_left c) =
        saved saves_left (⟨i, .left, r⟩ :: c) := by
      simp [saved_cons]
    have hright :
        (if saves_left then saved saves_left c else i.key) =
        saved saves_left (⟨i, .right, l⟩ :: c) := by
      cases saves_left <;> simp [saved_cons]
    simp only [item_by_key, ← ha, Memory.load_eq hi, ok_bind, cell, seek, hleft, hright]
    by_cases h0 : compare_fun key i.key = 0
    · rw [if_pos h0, if_neg (by omega), if_neg (by omega)]
      rfl
    rw [if_neg h0]
    by_cases h1 : compare_fun key i.key < 0
    · rw [if_pos h1, if_pos h1]
      cases l with
      | nil => rfl
      | node j x y => exact ihl _ (some i.addr) fuel j.addr hl rfl (by omega)
    · have h2 : 0 < compare_fun key i.key := by omega
      rw [if_neg h1, if_neg h1, if_pos h2]
      cases r with
      | nil => rfl
      | node j x y => exact ihr _ (some i.addr) fuel j.addr hr rfl (by omega)

theorem get_item_by_key_spec (saves_left : Bool) {tree : avl_tree κ ω}
    (h : Stands tree t) (key : κ) :
    get_item_by_key saves_left tree key =
      .ok (nearest saves_left (seek (fun i => tree.compare_fun key i.key) t [])) := by
  obtain ⟨root, hroot, hheld⟩ := h.held
  obtain ⟨n, hn, hright, -, -⟩ := hheld.load_root
  have hsize := hheld.numNodes_lt_size
  have hheight := t.height_le_numNodes
  rw [plug_nil] at hright hsize
  have hempty : (HasNull.NULL : κ) = saved saves_left ([] : List (Frame (Item κ ω))) := by
    cases saves_left <;> rfl
  simp only [get_item_by_key, hroot, hn, ok_bind, hright]
  cases t with
  | nil => simp [ptr, seek, nearest, ← hempty]
  | node i l r =>
    rw [ptr_node, hempty]
    exact item_by_key_spec saves_left _ key _ [] (some root) _ i.addr hheld.owns rfl (by omega)

omit [RankBalance ω] in
/-- Where the walk ends it knows the floor, or the ceiling. -/
theorem nearest_seek {cmp : κ → κ → Int} (hcmp : TotalPreorder cmp) (key : κ)
    (hsorted : Sorted cmp (keys t)) (hnull : ∀ k ∈ keys t, k ≠ HasNull.NULL) :
    IsFloor cmp key (keys t) (nearest false (seek (fun i => cmp key i.key) t [])) ∧
      IsCeiling cmp key (keys t) (nearest true (seek (fun i => cmp key i.key) t [])) := by
  obtain ⟨hplug, hled, hfound, -⟩ := seek_spec (fun i : Item κ ω => cmp key i.key) t []
  rw [plug_nil] at hplug
  rcases hs : seek (fun i : Item κ ω => cmp key i.key) t [] with ⟨p, u⟩
  rw [hs] at hplug hled hfound
  rw [isCeiling_iff]
  cases u with
  | node i l r =>
    have hmem : i.key ∈ keys t := by
      rw [← hplug, keys_plug]
      simp
    have h0 := hfound i l r rfl
    have h0' : cmp i.key key = 0 := by
      have := hcmp.flip key i.key
      have := hcmp.flip i.key key
      omega
    exact ⟨isFloor_of_equal hcmp key hmem h0,
      isFloor_of_equal (preorder_opposite hcmp) key (List.mem_reverse.mpr hmem) h0'⟩
  | nil =>
    obtain ⟨hb, ha⟩ := keys_around hcmp key (hplug.symm ▸ hsorted : Sorted _ (keys (plug p _)))
      (hled (by simp [Led])) (fun x y hx hxy => hxy.2 hx)
    rw [← hplug, keys_plug, keys_nil, List.append_nil] at hsorted hnull ⊢
    obtain ⟨hless, hmore, -⟩ := List.pairwise_append.mp hsorted
    simp only [List.mem_append, or_imp, forall_and] at hnull
    have hfloor := isFloor_of_last hcmp key hless (fun k hk => (hcmp.flip k key).mpr (hb k hk))
      (fun k hk => (hcmp.flip key k).mp (ha k hk)) hnull.1
    have hceiling := isFloor_of_last (preorder_opposite hcmp) key (List.pairwise_reverse.mpr hmore)
      (B := ((before p).map (·.key)).reverse) (by simpa using ha) (by simpa using hb)
        (by simpa using hnull.2)
    rw [List.reverse_append]
    rw [List.getLast?_map] at hfloor
    rw [List.getLast?_reverse, List.head?_map] at hceiling
    exact ⟨hfloor, hceiling⟩

end Walk

/-! ## Every tree that a run reaches -/

section Reached

variable [RankBalance ω] [LawfulRankBalance ω] {t : BinaryTree (Item κ ω)}

theorem attempt_sorted {tree : avl_tree κ ω} (hcmp : TotalPreorder tree.compare_fun)
    (h : Stands tree t) (hsorted : Sorted tree.compare_fun (keys t))
    (hnull : ∀ k ∈ keys t, k ≠ HasNull.NULL) (c : Option Nat × Call κ)
    (hc : ∀ key, c.2 = .insert key → key ≠ HasNull.NULL) :
    ∃ tree' t', attempt tree c = .ok tree' ∧ Stands tree' t' ∧
      tree'.compare_fun = tree.compare_fun ∧
      Sorted tree.compare_fun (keys t') ∧ ∀ k ∈ keys t', k ≠ HasNull.NULL := by
  obtain ⟨reply, c⟩ := c
  cases c with
  | insert key =>
    cases reply with
    | none =>
      obtain ⟨tree', t', hins, hst, hfun, hkeys, -⟩ := insert_refused h key
      refine ⟨tree', t', ?_, hst, hfun, hkeys ▸ hsorted, hkeys ▸ hnull⟩
      simp only [attempt, call, hins, ok_bind, pure_eq_ok]
    | some wish =>
      obtain ⟨tree', t', hins, hst, hfun, hsorted', hkeys⟩ := insert_granted hcmp h hsorted key wish
      refine ⟨tree', t', ?_, hst, hfun, hsorted', fun k hk => ?_⟩
      · simp only [attempt, call, hins, ok_bind, pure_eq_ok]
      · simp only [hkeys, List.mem_append, List.mem_filter, List.mem_singleton] at hk
        rcases hk with (hk | rfl) | hk
        · exact hnull k hk.1
        · exact hc k rfl
        · exact hnull k hk.1
  | delete key free_key_fun =>
    obtain ⟨ret, tree', freed, t', hdel, hst, hfun, hkeys⟩ :=
      delete_keys (show TotalPreorder (answered tree reply).compare_fun from hcmp)
        (answered_stands h reply) hsorted
        key free_key_fun
    have hsub : (keys t').Sublist (keys t) := by
      rcases hkeys with ⟨A, k, B, hA, hB, -⟩ | ⟨-, heq⟩
      · rw [hA, hB]
        exact List.Sublist.append_left (List.sublist_cons_self _ _) A
      · rw [heq]
    refine ⟨tree', t', ?_, hst, hfun, hsorted.sublist hsub, fun k hk => hnull k (hsub.subset hk)⟩
    simp only [attempt, call, hdel, ok_bind, pure_eq_ok]

/-- **Floor and ceiling.** In every tree that a run with keys that are not NULL reaches, the two
searches find a greatest key at most `key` and a least one at least `key`, or say that there is
none. -/
theorem nearest_keys [DecidableEq κ] {compare_fun : κ → κ → Int} (hcmp : TotalPreorder compare_fun)
    {m : Memory (avl_node κ ω)} {tree : avl_tree κ ω}
    (hnew : avl_tree_new compare_fun m = some tree) (calls : List (Option Nat × Call κ))
    (hcalls : ∀ c ∈ calls, ∀ k, c.2 = .insert k → k ≠ HasNull.NULL) (key : κ) :
    ∃ tree' root t floor ceiling, attempts tree calls = .ok tree' ∧ tree'.root = some root ∧
      Holds tree'.mem root [] t ∧ tree'.compare_fun = compare_fun ∧
      avl_get_item_by_key_most tree' key = .ok floor ∧ IsFloor compare_fun key (keys t) floor ∧
      avl_get_item_by_key_least tree' key = .ok ceiling ∧
      IsCeiling compare_fun key (keys t) ceiling := by
  obtain ⟨hst0, hfun0⟩ := new_stands hnew
  obtain ⟨tree', hrun, t, hst, hfun, hsorted, hnull⟩ : ∃ tree', attempts tree calls = .ok tree' ∧
      ∃ t : BinaryTree (Item κ ω), Stands tree' t ∧ tree'.compare_fun = compare_fun ∧
        Sorted compare_fun (keys t) ∧ ∀ k ∈ keys t, k ≠ HasNull.NULL := by
    refine run_along ⟨.nil, hst0, hfun0, List.Pairwise.nil, by simp⟩ ?_
    rintro pre c post tree1 rfl - ⟨t1, h1, rfl, hsorted1, hnull1⟩
    obtain ⟨tree2, t2, hcall, h2, hfun2, hsorted2, hnull2⟩ :=
      attempt_sorted hcmp h1 hsorted1 hnull1 c (hcalls c (by simp))
    exact ⟨tree2, hcall, t2, h2, hfun2, hsorted2, hnull2⟩
  obtain ⟨root, hroot, hheld⟩ := hst.held
  obtain ⟨hfloor, hceiling⟩ := nearest_seek hcmp key hsorted hnull
  rw [← hfun] at hfloor hceiling
  refine ⟨tree', root, t, _, _, hrun, hroot, hheld, hfun, get_item_by_key_spec false hst key, ?_,
    get_item_by_key_spec true hst key, ?_⟩
  · rw [← hfun]
    exact hfloor
  · rw [← hfun]
    exact hceiling

end Reached

theorem nearest_keys_sample : ∃ tree' root t floor ceiling,
    attempts sample [(some 2, .insert 5), (some 3, .insert 8), (none, .delete 5 none)] = .ok tree' ∧
      tree'.root = some root ∧ Holds tree'.mem root [] t ∧ tree'.compare_fun = byAddress ∧
      avl_get_item_by_key_most tree' 7 = .ok floor ∧ IsFloor byAddress 7 (keys t) floor ∧
      avl_get_item_by_key_least tree' 7 = .ok ceiling ∧ IsCeiling byAddress 7 (keys t) ceiling := by
  refine nearest_keys byAddress_preorder sample_new _ ?_ 7
  simp [HasNull.NULL]

end Avl
