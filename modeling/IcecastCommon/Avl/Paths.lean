import IcecastCommon.Avl.Links
import IcecastCommon.Avl.Iterate
import IcecastCommon.Lib.Rounds
import Mathlib.Data.Nat.Fib.Basic

/-!
# How deep a tree is

A balanced tree of a given height has at least as many nodes as a Fibonacci number says. The height
bounds all that goes down the tree.
-/

namespace Avl

open Lib

variable {κ ω : Type}

/-! ## The number of nodes -/

theorem fib_neighbours {a b : Nat} (h : b ≤ a + 1) :
    Nat.fib (b + 1 + 2) ≤ Nat.fib (a + 2) + Nat.fib (b + 2) :=
  calc Nat.fib (b + 1 + 2) = Nat.fib (b + 1) + Nat.fib (b + 2) := Nat.fib_add_two
    _ ≤ Nat.fib (a + 2) + Nat.fib (b + 2) := Nat.add_le_add_right (Nat.fib_mono (by omega)) _

theorem fib_le_numNodes [RankBalance ω] {t : BinaryTree (Item κ ω)} (h : Balanced t) :
    Nat.fib (t.height + 2) ≤ t.numNodes + 1 := by
  induction t with
  | nil => exact Nat.le_refl _
  | node i l r ihl ihr =>
    obtain ⟨⟨hbal, hlow, hhigh⟩, hl, hr⟩ := h
    have hleft := ihl hl
    have hright := ihr hr
    rw [BinaryTree.height, BinaryTree.numNodes]
    rcases Nat.le_total l.height r.height with hle | hle
    · have hsum := fib_neighbours (show r.height ≤ l.height + 1 by omega)
      rw [Nat.max_eq_right hle]
      omega
    · have hsum := fib_neighbours (show l.height ≤ r.height + 1 by omega)
      rw [Nat.max_eq_left hle]
      omega

theorem follow_length {m : Memory (avl_node κ ω)} {t : BinaryTree (Item κ ω)} {parent : Ptr}
    (h : Owns m parent t) (ds : List Side) (hend : follow m (ptr t) ds ≠ none) :
    ds.length < t.height := by
  induction ds generalizing t parent with
  | nil =>
    cases t with
    | nil => exact absurd rfl hend
    | node i l r =>
      rw [BinaryTree.height]
      exact Nat.succ_pos _
  | cons d ds ih =>
    cases t with
    | nil => exact absurd (follow_none m _) hend
    | node i l r =>
      obtain ⟨x, hx, hstep, hd⟩ := follow_bin h d ds
      rw [hstep] at hend
      have hlt := ih hx hend
      rw [List.length_cons, BinaryTree.height]
      cases d <;> subst hd <;> omega

/-! ## The rounds of the loops -/

section Rounds

variable (compare_fun : κ → κ → Int) (key : κ)

theorem insert_search_more [RankBalance ω] (fuel : Nat) (m : Memory (avl_node κ ω)) (t s p : Ptr) :
    Extends (insert_search compare_fun key fuel m t s p)
      (insert_search compare_fun key (fuel + 1) m t s p) := by
  induction fuel generalizing m t s p with
  | zero => exact .inl rfl
  | succ fuel ih =>
    have hnext (d : Side) (m : Memory (avl_node κ ω)) (x : Ptr) :
        Extends (insert_next compare_fun key fuel d m t s p x)
          (insert_next compare_fun key (fuel + 1) d m t s p x) := by
      cases x with
      | none => exact .refl _
      | some q => exact .bind (.refl _) fun _ => .ite (ih ..) (ih ..)
    rw [insert_search_succ, insert_search_succ]
    exact .bind (.refl _) fun n =>
      .ite (.bind (.refl _) fun m => hnext .left m n.left) (hnext .right m n.right)

theorem delete_search_more [RankBalance ω] (root : Ptr) (bound fuel : Nat)
    (m : Memory (avl_node κ ω)) (x : Ptr) :
    Extends (delete_search compare_fun key root bound fuel m x)
      (delete_search compare_fun key root bound (fuel + 1) m x) := by
  induction fuel generalizing m x with
  | zero => exact .inl rfl
  | succ fuel ih =>
    rw [delete_search, delete_search]
    refine .bind (.refl _) fun n => .ite (.bind (.refl _) fun m => ?_) (.ite ?_ (.refl _))
    · cases n.left with
      | none => exact .refl _
      | some l => exact ih ..
    · cases n.right with
      | none => exact .refl _
      | some r => exact ih ..

theorem free_helper_more (free_key_fun : Option (κ → Int)) (fuel : Nat) (m : Memory (avl_node κ ω))
    (node : Ptr) :
    Extends (avl_tree_free_helper free_key_fun fuel m node)
      (avl_tree_free_helper free_key_fun (fuel + 1) m node) := by
  induction fuel generalizing m node with
  | zero => exact .inl rfl
  | succ fuel ih =>
    rw [avl_tree_free_helper, avl_tree_free_helper]
    refine .bind (.refl _) fun n => .bind ?_ fun r => .bind (.refl _) fun n =>
      .bind ?_ fun r => .refl _
    · cases n.left with
      | none => exact .refl _
      | some l => exact ih ..
    · cases n.right with
      | none => exact .refl _
      | some r => exact .bind (ih ..) fun _ => .refl _

end Rounds

/-! ## Freeing a tree -/

/-- Just the cells of `t` are gone. -/
structure Released (m m' : Memory (avl_node κ ω)) (t : BinaryTree (Item κ ω)) : Prop where
  gone : ∀ a ∈ addrs t, m'.get a = none
  kept : ∀ a, a ∉ addrs t → m'.get a = m.get a

/-- The keys that `free_key_fun` gets of a tree. -/
def handed (free_key_fun : Option (κ → Int)) (t : BinaryTree (Item κ ω)) : List κ :=
  if free_key_fun.isSome then keys t else []

theorem handed_node (free_key_fun : Option (κ → Int)) (i : Item κ ω) (l r : BinaryTree (Item κ ω)) :
    (handed free_key_fun l ++ match free_key_fun with | none => [] | some _ => [i.key]) ++
      handed free_key_fun r =
      handed free_key_fun (.node i l r) := by
  cases free_key_fun with
  | none => rfl
  | some f => simp [handed]

theorem released_nil (m : Memory (avl_node κ ω)) : Released m m .nil := ⟨by simp, fun _ _ => rfl⟩

theorem handed_nil (free_key_fun : Option (κ → Int)) :
    handed free_key_fun (.nil : BinaryTree (Item κ ω)) = [] := by
  cases free_key_fun <;> rfl

theorem free_left {free_key_fun : Option (κ → Int)} {fuel : Nat} {m : Memory (avl_node κ ω)}
    {l : BinaryTree (Item κ ω)}
    (hl : l ≠ .nil → ∃ m', avl_tree_free_helper free_key_fun fuel m (ptr l) =
      .ok (m', handed free_key_fun l) ∧
      Released m m' l) :
    ∃ m1, (match ptr l with
      | none => pure (m, [])
      | some a => avl_tree_free_helper free_key_fun fuel m (some a)) =
          (.ok (m1, handed free_key_fun l) : C _) ∧
      Released m m1 l := by
  cases l with
  | nil => exact ⟨m, by rw [handed_nil]; rfl, released_nil m⟩
  | node j x y => exact hl (by simp)

theorem free_right {free_key_fun : Option (κ → Int)} {fuel : Nat} {m : Memory (avl_node κ ω)}
    {r : BinaryTree (Item κ ω)}
    (hr : r ≠ .nil → ∃ m', avl_tree_free_helper free_key_fun fuel m (ptr r) =
      .ok (m', handed free_key_fun r) ∧
      Released m m' r) :
    ∃ m2, (∀ freed, (match ptr r with
      | none => pure (m, freed)
      | some a => do
        let (m, freed_right) ← avl_tree_free_helper free_key_fun fuel m (some a)
        pure (m, freed ++ freed_right)) = (.ok (m2, freed ++ handed free_key_fun r) : C _)) ∧
        Released m m2 r := by
  cases r with
  | nil => exact ⟨m, fun freed => by rw [handed_nil, List.append_nil]; rfl, released_nil m⟩
  | node j x y =>
    obtain ⟨m2, hm2, h2⟩ := hr (by simp)
    refine ⟨m2, fun freed => ?_, h2⟩
    rw [ptr_node] at hm2 ⊢
    dsimp only
    rw [hm2]
    rfl

theorem free_helper_spec (free_key_fun : Option (κ → Int)) (t : BinaryTree (Item κ ω)) :
    ∀ (m : Memory (avl_node κ ω)) (parent : Ptr) (fuel : Nat), t ≠ .nil → Owns m parent t →
      (addrs t).Nodup →
      t.height ≤ fuel →
      ∃ m', avl_tree_free_helper free_key_fun fuel m (ptr t) = .ok (m', handed free_key_fun t) ∧
      Released m m' t := by
  induction t with
  | nil => intro _ _ _ h; exact absurd rfl h
  | node i l r ihl ihr =>
    rintro m parent fuel - ⟨hi, hl, hr⟩ hnodup hfuel
    rw [BinaryTree.height] at hfuel
    obtain ⟨fuel, rfl⟩ : ∃ n, fuel = n + 1 := ⟨fuel - 1, by omega⟩
    obtain ⟨hndl, hndr, hil, hir, hlr⟩ := (nodup_bin .left i l r).mp hnodup
    obtain ⟨m1, hm1, hgone1, hkept1⟩ :=
      free_left fun hne => ihl m (some i.addr) fuel hne hl hndl (by omega)
    have hr1 : Owns m1 (some i.addr) r := owns_congr hr fun a ha => hkept1 a fun hal => hlr a hal ha
    obtain ⟨m2, hm2, hgone2, hkept2⟩ :=
      free_right fun hne => ihr m1 (some i.addr) fuel hne hr1 hndr (by omega)
    have hi1 : m1.get i.addr = m.get i.addr := hkept1 _ hil
    have hi2 : m2.get i.addr = m.get i.addr := (hkept2 _ hir).trans hi1
    obtain ⟨m3, hm3, hgone3, hkept3, -⟩ := Memory.free_eq (hi2.trans hi)
    refine ⟨m3, ?_, fun a ha => ?_, fun a ha => ?_⟩
    · simp only [avl_tree_free_helper, ptr_node, Memory.load_eq hi, ok_bind, cell]
      refine run_bind hm1 ?_
      simp only [Memory.load_eq (hi1.trans hi), ok_bind, cell]
      refine run_bind (hm2 _) ?_
      simp only [hm3, ok_bind, pure_eq_ok]
      exact congrArg (fun freed => Except.ok (m3, freed)) (handed_node free_key_fun i l r)
    · rw [addrs_node, List.mem_append, List.mem_cons] at ha
      by_cases hroot : a = i.addr
      · rw [hroot, hgone3]
      rw [hkept3 a hroot]
      obtain ha | ha | ha := ha
      · rw [hkept2 a (hlr a ha), hgone1 a ha]
      · exact absurd ha hroot
      · exact hgone2 a ha
    · rw [addrs_node, List.mem_append, List.mem_cons, not_or, not_or] at ha
      rw [hkept3 a ha.2.1, hkept2 a ha.2.2, hkept1 a ha.1]

/-- The keys are handed over in order, and of the memory just the tree is gone. -/
theorem avl_tree_free_spec [RankBalance ω] [HasNull κ] {tree : avl_tree κ ω}
    {t : BinaryTree (Item κ ω)} (h : Stands tree t) (hsize : t.numNodes < 2 ^ 32)
    (free_key_fun : Option (κ → Int)) :
    ∃ m' root, tree.root = some root ∧
      avl_tree_free tree free_key_fun = .ok (m', handed free_key_fun t) ∧
      (∀ a ∈ root :: addrs t, m'.get a = none) ∧ ∀ a, a ∉ root :: addrs t →
      m'.get a = tree.mem.get a := by
  obtain ⟨root, hroot, hheld⟩ := h.held
  obtain ⟨n, hn, hright, -, -⟩ := hheld.load_root
  obtain ⟨w, hw⟩ := hheld.around
  obtain ⟨hrt, hnodup⟩ := List.nodup_cons.mp hheld.distinct
  have hbound := hheld.numNodes_lt_size
  have hheight := t.height_le_numNodes
  rw [plug_nil] at hright hbound hrt hnodup
  have hlength : tree.length ≠ 0 ↔ t ≠ .nil := by
    rw [h.length]
    cases t with
    | nil => simp
    | node i l r =>
      refine iff_of_true (fun hzero => ?_) (by simp)
      have hnat := congrArg BitVec.toNat hzero
      rw [BitVec.toNat_ofNat, Nat.mod_eq_of_lt hsize] at hnat
      simp at hnat
  have hnodes : ∃ m1, (if tree.length ≠ 0 then do
        let top := (← tree.mem.load tree.root).right
        avl_tree_free_helper free_key_fun (tree.mem.size + 1) tree.mem top
      else pure (tree.mem, [])) = (.ok (m1, handed free_key_fun t) : C _) ∧
        Released tree.mem m1 t := by
    by_cases ht : t = .nil
    · rw [if_neg (mt hlength.mp (not_not.mpr ht)), ht]
      refine ⟨tree.mem, ?_, by simp, fun _ _ => rfl⟩
      cases free_key_fun <;> rfl
    · rw [if_pos (hlength.mpr ht), hroot, hn, ok_bind, hright]
      exact free_helper_spec free_key_fun t tree.mem (some root) _ ht hheld.owns hnodup (by omega)
  obtain ⟨m1, hm1, hgone, hkept⟩ := hnodes
  obtain ⟨m2, hm2, hgone2, hkept2, -⟩ := Memory.free_eq ((hkept root hrt).trans hw)
  refine ⟨m2, root, hroot, ?_, fun a ha => ?_, fun a ha => ?_⟩
  · unfold avl_tree_free
    refine run_bind hm1 ?_
    rw [hroot]
    exact run_bind hm2 rfl
  · obtain rfl | ha := List.mem_cons.mp ha
    · exact hgone2
    · rw [hkept2 a fun heq => hrt (heq ▸ ha), hgone a ha]
  · rw [List.mem_cons, not_or] at ha
    rw [hkept2 a ha.1, hkept a ha.2]

/-! ## Runs -/

section Runs

variable [RankBalance ω] [LawfulRankBalance ω] [HasNull κ]

/-- What goes down from the top of the tree takes at most `h` rounds, or calls of itself. A round of
the first three loops makes one comparison. -/
structure WithinRounds (tree : avl_tree κ ω) (top : Ptr) (h : Nat) : Prop where
  get_by_key : ∀ key,
    EndsWithin (fun rounds => get_by_key tree.compare_fun key rounds tree.mem top) h
  insert : ∀ key,
    EndsWithin (fun rounds => insert_search tree.compare_fun key rounds tree.mem tree.root top top)
      h
  delete : ∀ key,
    EndsWithin (fun rounds =>
      delete_search tree.compare_fun key tree.root (tree.mem.size + 1) rounds tree.mem top) h
  free : ∀ free_key_fun,
    EndsWithin (fun rounds => avl_tree_free_helper free_key_fun rounds tree.mem top) h
  iterate : ∀ (σ : Type) (iter_fun : avl_iter_fun_type κ σ) (iter_arg : σ),
    EndsWithin (fun rounds => avl_iterate_inorder_helper tree.mem iter_fun rounds top iter_arg) h

theorem stores_within {tree : avl_tree κ ω} {t : BinaryTree (Item κ ω)} (h : Stores tree t)
    (ht : t ≠ .nil) :
    WithinRounds tree (ptr t) t.height := by
  obtain ⟨root, hroot, hheld⟩ := h.held
  have hbound := hheld.numNodes_lt_size
  have hheight := t.height_le_numNodes
  rw [plug_nil] at hbound
  obtain ⟨i, l, r, hnode⟩ : ∃ i l r, t = .node i l r := exists_bin .left t ht
  have hi : ptr t = some i.addr := hnode ▸ rfl
  rw [hi]
  refine ⟨fun key => ?_, fun key => ?_, fun key => ?_, fun free_key_fun => ?_,
    fun σ iter_fun iter_arg => ?_⟩
  · exact ⟨_, fun rounds =>
      get_by_key_spec tree.compare_fun key t (some root) rounds i.addr hheld.owns hi⟩
  · rw [hroot]
    obtain ⟨m1, t1, s1, a1, hrun, -⟩ :=
      insert_search_spec tree.compare_fun key root t [] tree.mem (some root) (some i.addr)
        t.height i l r hnode hheld h.generous (.inl ⟨rfl, rfl, .inl rfl⟩) (Nat.le_refl _)
    exact endsWithin_of_more (insert_search_more _ _ · _ _ _ _) hrun
  · rw [hroot]
    obtain ⟨m1, hrun, -⟩ :=
      delete_search_spec tree.compare_fun key root (tree.mem.size + 1) t [] tree.mem t.height i l r
        hnode hheld (Nat.le_refl _) (by rw [List.length_nil]; omega)
    exact endsWithin_of_more (delete_search_more _ _ _ _ · _ _) hrun
  · obtain ⟨m1, hrun, -⟩ :=
      free_helper_spec free_key_fun t tree.mem (some root) t.height ht hheld.owns hheld.nodup
        (Nat.le_refl _)
    exact endsWithin_of_more (free_helper_more _ · _ _) (hi ▸ hrun)
  · have hrun :=
      fun rounds => iterate_helper_spec iter_fun t (some root) rounds iter_arg ht hheld.owns
    exact ⟨_, hi ▸ hrun⟩

theorem run_stores {compare_fun : κ → κ → Int} {m : Memory (avl_node κ ω)} (hm : m.Generous)
    {tree : avl_tree κ ω} (hnew : avl_tree_new compare_fun m = some tree) (calls : List (Call κ)) :
    ∃ tree', run tree calls = .ok tree' ∧ ∃ t, Stores tree' t := by
  refine run_invariant (fun tree c => ?_) ⟨.nil, (avl_tree_new_spec hm hnew).1⟩ calls
  rintro ⟨t, ht⟩
  obtain ⟨tree', t', hcall, ht', -⟩ := call_stores ht c
  exact ⟨tree', hcall, t', ht'⟩

end Runs

section Words

variable [HasNull κ] {compare_fun : κ → κ → Int} {m : Memory (avl_node κ (BitVec 32))}
  {tree : avl_tree κ (BitVec 32)}

/-- **Depth.** In every tree that a run reaches, the paths have at most `h` nodes, and `h` is as
small as the number of nodes says. -/
theorem run_depth (hm : m.Generous) (hnew : avl_tree_new compare_fun m = some tree)
    (calls : List (Call κ)) :
    ∃ tree' root t h, run tree calls = .ok tree' ∧ tree'.root = some root ∧
      Holds tree'.mem root [] t ∧
      Nat.fib (h + 2) - 1 ≤ t.numNodes ∧
      (∀ ds, follow tree'.mem (ptr t) ds ≠ none → ds.length + 1 ≤ h) ∧
      (t ≠ .nil → WithinRounds tree' (ptr t) h) := by
  obtain ⟨tree', hrun, t, hst⟩ := run_stores hm hnew calls
  obtain ⟨root, hroot, hheld⟩ := hst.held
  have hfib := fib_le_numNodes hst.balanced
  exact ⟨tree', root, t, t.height, hrun, hroot, hheld, by omega, follow_length hheld.owns,
    stores_within hst⟩

theorem run_depth_sample :
    ∃ tree' root t h, run sample [.insert 7, .insert 3, .delete 7 none] = .ok tree' ∧
    tree'.root = some root ∧ Holds tree'.mem root [] t ∧ Nat.fib (h + 2) - 1 ≤ t.numNodes ∧
      (∀ ds, follow tree'.mem (ptr t) ds ≠ none → ds.length + 1 ≤ h) ∧
      (t ≠ .nil → WithinRounds tree' (ptr t) h) :=
  run_depth (fresh_generous _ _) sample_new _

end Words

end Avl
