import IcecastCommon.Avl.Run

/-!
# The heap under the tree

The same runs, seen from the cells: which pointers lead where, and that no access goes wrong.
-/

namespace Avl

open Lib

variable {κ ω : Type}

/-- The pointer that a walk along child pointers ends at. -/
def follow (m : Memory (avl_node κ ω)) : Ptr → List Side → Ptr
  | p, [] => p
  | none, _ :: _ => none
  | some a, d :: ds => match m.get a with
    | none => none
    | some n => follow m (child d n) ds

theorem follow_none (m : Memory (avl_node κ ω)) (ds : List Side) : follow m none ds = none := by
  cases ds <;> rfl

theorem follow_bin {m : Memory (avl_node κ ω)} {i : Item κ ω} {l r : BinaryTree (Item κ ω)}
    {parent : Ptr} (h : Owns m parent (.node i l r)) (d : Side) (ds : List Side) :
    ∃ x, Owns m (some i.addr) x ∧ follow m (ptr (.node i l r)) (d :: ds) = follow m (ptr x) ds ∧
      (match d with | .left => x = l | .right => x = r) := by
  cases d
  · exact ⟨l, h.2.1, by simp only [ptr_node, follow, h.1, child, cell], rfl⟩
  · exact ⟨r, h.2.2, by simp only [ptr_node, follow, h.1, child, cell], rfl⟩

theorem follow_spec {m : Memory (avl_node κ ω)} {t : BinaryTree (Item κ ω)} {parent : Ptr}
    (h : Owns m parent t) (ds : List Side) {a : Nat} (ha : follow m (ptr t) ds = some a) :
    a ∈ addrs t ∧ ∃ n, m.get a = some n ∧ (ds = [] → n.parent = parent) ∧
      ∀ ds' d, ds = ds' ++ [d] → n.parent = follow m (ptr t) ds' := by
  induction ds generalizing t parent with
  | nil =>
    cases t with
    | nil => cases ha
    | node i l r =>
      obtain rfl : i.addr = a := Option.some.inj ha
      exact ⟨by simp, _, h.1, fun _ => rfl, by simp⟩
  | cons d ds ih =>
    cases t with
    | nil =>
      rw [ptr, follow_none] at ha
      cases ha
    | node i l r =>
      obtain ⟨x, hx, hstep, hd⟩ := follow_bin h d ds
      rw [hstep] at ha
      obtain ⟨hmem, n, hn, hnil, hsnoc⟩ := ih hx ha
      refine ⟨?_, n, hn, by simp, ?_⟩
      · cases d <;> subst hd <;> simp [hmem]
      · intro ds' e heq
        cases ds' with
        | nil =>
          obtain ⟨-, rfl⟩ := List.cons.inj heq
          exact hnil rfl
        | cons e' ds' =>
          obtain ⟨rfl, rfl⟩ := List.cons.inj heq
          rw [hsnoc ds' e rfl]
          obtain ⟨x', -, hstep', hd'⟩ := follow_bin h d ds'
          rw [hstep']
          cases d <;> subst hd hd' <;> rfl

theorem follow_below {m : Memory (avl_node κ ω)} {i : Item κ ω} {l r : BinaryTree (Item κ ω)}
    {parent : Ptr} (h : Owns m parent (.node i l r)) (d : Side) (ds : List Side) {a : Nat}
    (ha : follow m (ptr (.node i l r)) (d :: ds) = some a) :
    a ∈ addrs (match d with | .left => l | .right => r) := by
  obtain ⟨x, hx, hstep, hd⟩ := follow_bin h d ds
  rw [hstep] at ha
  have hmem := (follow_spec hx ds ha).1
  cases d <;> subst hd <;> exact hmem

theorem follow_unique {m : Memory (avl_node κ ω)} {t : BinaryTree (Item κ ω)} {parent : Ptr}
    (h : Owns m parent t) (hnd : (addrs t).Nodup) (ds ds' : List Side) {a : Nat}
    (ha : follow m (ptr t) ds = some a) (ha' : follow m (ptr t) ds' = some a) : ds = ds' := by
  induction ds generalizing t parent ds' with
  | nil =>
    cases ds' with
    | nil => rfl
    | cons d ds' =>
      cases t with
      | nil => cases ha
      | node i l r =>
        obtain rfl : i.addr = a := Option.some.inj ha
        obtain ⟨-, -, hil, hir, -⟩ := (nodup_bin .left i l r).mp hnd
        have hmem := follow_below h d ds' ha'
        cases d
        · exact absurd hmem hil
        · exact absurd hmem hir
  | cons d ds ih =>
    cases t with
    | nil =>
      rw [ptr, follow_none] at ha
      cases ha
    | node i l r =>
      obtain ⟨hndl, hndr, hil, hir, hlr⟩ := (nodup_bin .left i l r).mp hnd
      have hmem := follow_below h d ds ha
      cases ds' with
      | nil =>
        obtain rfl : i.addr = a := Option.some.inj ha'
        cases d
        · exact absurd hmem hil
        · exact absurd hmem hir
      | cons d' ds' =>
        have hmem' := follow_below h d' ds' ha'
        have hdd : d = d' := by
          cases d <;> cases d'
          · rfl
          · exact absurd hmem' (hlr a hmem)
          · exact absurd hmem (hlr a hmem')
          · rfl
        subst hdd
        obtain ⟨x, hx, hstep, hd⟩ := follow_bin h d ds
        obtain ⟨x', -, hstep', hd'⟩ := follow_bin h d ds'
        rw [hstep] at ha
        rw [hstep'] at ha'
        have hsame : x' = x := by cases d <;> exact hd'.trans hd.symm
        rw [hsame] at ha'
        have hndx : (addrs x).Nodup := by cases d <;> subst hd <;> assumption
        rw [ih hx hndx ds' ha ha']

variable [HasNull κ]

/-- **Links.** No call of a run goes wrong, and after every run each cell that child pointers lead
to is live, is led to by one walk only, and has its parent pointer to the cell before it on the
walk. -/
theorem run_links {compare_fun : κ → κ → Int} {m : Memory (avl_node κ (BitVec 32))}
    {tree : avl_tree κ (BitVec 32)} (hm : m.Generous)
    (hnew : avl_tree_new compare_fun m = some tree) (calls : List (Call κ)) :
    ∃ tree' root n, run tree calls = .ok tree' ∧ tree'.root = some root ∧
      tree'.mem.get root = some n ∧ n.parent = none ∧ n.left = none ∧
      ∀ ds a, follow tree'.mem n.right ds = some a →
        (∃ x, tree'.mem.get a = some x ∧ (ds = [] → x.parent = some root) ∧
          ∀ ds' d, ds = ds' ++ [d] → x.parent = follow tree'.mem n.right ds') ∧
        ∀ ds', follow tree'.mem n.right ds' = some a → ds' = ds := by
  obtain ⟨tree', hrun, t, hst⟩ : ∃ tree', run tree calls = .ok tree' ∧
      ∃ t : BinaryTree (Item κ (BitVec 32)), Stores tree' t := by
    refine run_invariant (fun tree1 c h => ?_) ⟨.nil, (avl_tree_new_spec hm hnew).1⟩ calls
    obtain ⟨t1, h1⟩ := h
    obtain ⟨tree2, t2, hcall, h2, -⟩ := call_stores h1 c
    exact ⟨tree2, hcall, t2, h2⟩
  obtain ⟨root, hroot, hheld⟩ := hst.held
  obtain ⟨w, hw⟩ := hheld.around
  refine ⟨tree', root, _, hrun, hroot, hw, rfl, rfl, fun ds a ha => ⟨?_, ?_⟩⟩
  · exact (follow_spec hheld.owns ds ha).2
  · exact fun ds' ha' => follow_unique hheld.owns hheld.nodup ds' ds ha' ha

theorem run_links_sample : ∃ tree' root n,
    run sample [.insert 7, .insert 3, .delete 4 none, .delete 7 none] = .ok tree' ∧
      tree'.root = some root ∧ tree'.mem.get root = some n ∧ n.parent = none ∧ n.left = none ∧
      ∀ ds a, follow tree'.mem n.right ds = some a →
        (∃ x, tree'.mem.get a = some x ∧ (ds = [] → x.parent = some root) ∧
          ∀ ds' d, ds = ds' ++ [d] → x.parent = follow tree'.mem n.right ds') ∧
        ∀ ds', follow tree'.mem n.right ds' = some a → ds' = ds :=
  run_links (fresh_generous _ _) sample_new _

end Avl
