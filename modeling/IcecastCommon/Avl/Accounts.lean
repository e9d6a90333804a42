import IcecastCommon.Avl.Apart
import IcecastCommon.Avl.Paths

/-!
# What becomes of keys and cells

Every key that a tree was given is in it, or was handed over, or was taken out by a deletion that
hands nothing over. The tree holds one cell for each key and one for the root, and gives them back
when it is freed.
-/

namespace Avl

open Lib

variable {κ ω : Type} [RankBalance ω] [HasNull κ]

/-! ## The books -/

/-- The tree, the keys that were inserted, those that `free_key_fun` was called on, and the number
of those that were taken out without a call. -/
structure Books (κ ω : Type) where
  tree : avl_tree κ ω
  inserted : List κ
  freed : List κ
  silent : Nat

/-- One call, with the answer to the `malloc` that it may make. -/
def Books.call (b : Books κ ω) : Option Nat × Call κ → C (Books κ ω)
  | (reply, .insert key) => do
    let (ret, tree) ← avl_insert (answered b.tree reply) key
    return { b with tree := tree, inserted := if ret = 0 then b.inserted ++ [key] else b.inserted }
  | (reply, .delete key free_key_fun) => do
    let (ret, tree, freed) ← avl_delete (answered b.tree reply) key free_key_fun
    return { b with
      tree := tree
      freed := b.freed ++ freed
      silent := if ret = 0 ∧ free_key_fun.isNone then b.silent + 1 else b.silent }

/-- The books are right, and the cells of the tree are all that was allocated since `old`. -/
structure Books.Right (old : Memory (avl_node κ ω)) (b : Books κ ω) (t : BinaryTree (Item κ ω))
    (gone : List κ) : Prop where
  stands : Stands b.tree t
  apart : Apart old b.tree.root
  keeps : Keeps old (t.numNodes + 1) b.tree.mem
  keys : b.inserted.Perm (keys t ++ b.freed ++ gone)
  silent : gone.length = b.silent

omit [RankBalance ω] [HasNull κ] in
theorem apart_addrs {old m : Memory (avl_node κ ω)} {k : Nat} (hm : Keeps old k m)
    {t : BinaryTree (Item κ ω)} {parent : Ptr} (h : Owns m parent t) (hp : Apart old (ptr t)) :
    ∀ a ∈ addrs t, old.get a = none := by
  induction t generalizing parent with
  | nil => simp
  | node i l r ihl ihr =>
    obtain ⟨hi, hl, hr⟩ := h
    have hroot := hp i.addr rfl
    have hlinks := apart_links.mp (hm.closed i.addr _ hroot hi)
    intro a ha
    rw [addrs_node, List.mem_append, List.mem_cons] at ha
    rcases ha with ha | rfl | ha
    · exact ihl hl hlinks.1 a ha
    · exact hroot
    · exact ihr hr hlinks.2.1 a ha

section Cells

variable {old : Memory (avl_node κ ω)} {b : Books κ ω} {t : BinaryTree (Item κ ω)}
  {gone : List κ} {root : Nat}

theorem Books.Right.own (h : b.Right old t gone) (hroot : b.tree.root = some root)
    (hheld : Holds b.tree.mem root [] t) :
    ∀ a ∈ root :: addrs t, old.get a = none := by
  have hapart : old.get root = none := h.apart root hroot
  obtain ⟨w, hw⟩ := hheld.around
  have hlinks := apart_links.mp (h.keeps.closed root _ hapart hw)
  intro a ha
  rcases List.mem_cons.mp ha with rfl | ha
  · exact hapart
  · exact apart_addrs h.keeps hheld.owns hlinks.2.1 a ha

theorem Books.Right.live (h : b.Right old t gone) (hroot : b.tree.root = some root)
    (hheld : Holds b.tree.mem root [] t) (a : Nat) :
    (b.tree.mem.get a).isSome ↔ (old.get a).isSome ∨ a ∈ root :: addrs t := by
  have hdistinct := hheld.distinct
  rw [plug_nil] at hdistinct
  have hlength : (root :: addrs t).length = t.numNodes + 1 := by
    rw [List.length_cons, addrs, List.length_map, inorder_length]
  exact Encloses.live (hlength ▸ h.keeps) hdistinct hheld.live (h.own hroot hheld) a

end Cells

variable [LawfulRankBalance ω]

/-! ## The calls -/

omit [RankBalance ω] [HasNull κ] [LawfulRankBalance ω] in
theorem keys_of_inserted {compare_fun : κ → κ → Int} {key : κ}
    {t t' : BinaryTree (Item κ ω)} {a : Nat}
    (h : labels t' = (before (route (fun i => compare_fun key i.key) t [])).map
        (fun i => (i.addr, i.key)) ++
      (a, key) :: (after (route (fun i => compare_fun key i.key) t [])).map
        (fun i => (i.addr, i.key))) :
    (keys t').Perm (key :: keys t) := by
  have hplug := plug_route (fun i : Item κ ω => compare_fun key i.key) t []
  rw [plug_nil] at hplug
  have hkeys := congrArg keys hplug
  rw [keys_plug, keys_nil, List.append_nil] at hkeys
  rw [← hkeys, keys_of_labels, h, List.map_append, List.map_cons]
  simp only [List.map_map, Function.comp_def]
  exact List.perm_middle

variable {old : Memory (avl_node κ ω)} {b : Books κ ω} {t : BinaryTree (Item κ ω)} {gone : List κ}

omit [LawfulRankBalance ω] in
theorem Books.Right.answered (h : b.Right old t gone) (reply : Option Nat) :
    Keeps old (t.numNodes + 1) (answered b.tree reply).mem := Encloses.grants h.keeps _

theorem Books.Right.insert (h : b.Right old t gone) (reply : Option Nat) (key : κ) :
    ∃ b' t', b.call (reply, .insert key) = .ok b' ∧ b'.Right old t' gone := by
  have hyields := Keeps.avl_insert (h.answered reply) h.apart key
  cases reply with
  | none =>
    obtain ⟨tree', t', hins, hst, -, hkeys, -⟩ := insert_refused h.stands key
    have hnodes : t'.numNodes = t.numNodes := by rw [← keys_length, hkeys, keys_length]
    obtain ⟨hroot, ⟨h0, -⟩ | ⟨-, hkeeps⟩⟩ := hyields _ hins
    · exact absurd (show (-1 : Int) = 0 from h0) (by decide)
    refine ⟨{ b with tree := tree' }, t', ?_, hst, hroot ▸ h.apart, hnodes ▸ hkeeps,
      hkeys ▸ h.keys, h.silent⟩
    simp only [Books.call, hins, ok_bind, pure_eq_ok]
    rfl
  | some wish =>
    obtain ⟨tree', t', hins, hdone⟩ :=
      avl_insert_spec key ((answered_stands h.stands (some wish)).stores fun _ => rfl)
    obtain ⟨a, hlab⟩ := hdone.inserted.labels
    obtain ⟨hroot, ⟨-, hkeeps⟩ | ⟨h1, -⟩⟩ := hyields _ hins
    · refine ⟨{ b with tree := tree', inserted := b.inserted ++ [key] }, t', ?_,
        hdone.stores.stands, hroot ▸ h.apart, (numNodes_of_labels hlab).symm ▸ hkeeps, ?_, h.silent⟩
      · simp only [Books.call, hins, ok_bind, pure_eq_ok]
        rfl
      · have hperm := ((keys_of_inserted hlab).append_right b.freed).append_right gone
        exact (List.perm_append_singleton key b.inserted).trans ((h.keys.cons key).trans hperm.symm)
    · exact absurd (show (0 : Int) = -1 from h1) (by decide)

theorem Books.Right.delete (h : b.Right old t gone) (reply : Option Nat) (key : κ)
    (free_key_fun : Option (κ → Int)) :
    ∃ b' t' gone', b.call (reply, .delete key free_key_fun) = .ok b' ∧ b'.Right old t' gone' := by
  have hyields := Keeps.avl_delete (h.answered reply) h.apart key free_key_fun
  have hst := answered_stands h.stands reply
  rcases hs : seek (fun i : Item κ ω => (Avl.answered b.tree reply).compare_fun key i.key) t []
    with ⟨p, u⟩
  cases u with
  | nil =>
    obtain ⟨m', hdel, -, hst', hlab⟩ := delete_absent_stands free_key_fun hst hs
    generalize plug (lost p []) .nil = t' at hst' hlab
    have hnodes : t'.numNodes = t.numNodes := by rw [← labels_length, hlab, labels_length]
    have hkeys : Avl.keys t' = Avl.keys t := by rw [keys_of_labels, hlab, ← keys_of_labels]
    obtain ⟨-, ⟨j, -, h0, -⟩ | ⟨-, hkeeps⟩⟩ := hyields _ hdel
    · exact absurd (show (-1 : Int) = 0 from h0) (by decide)
    refine ⟨{ b with tree := { Avl.answered b.tree reply with mem := m' } }, t', gone, ?_, hst',
      h.apart, hnodes ▸ hkeeps, hkeys ▸ h.keys, h.silent⟩
    simp only [Books.call, hdel, ok_bind, pure_eq_ok, List.append_nil]
    rfl
  | node i l r =>
    obtain ⟨tree', t', hdel, -, hst', -, ⟨A, B, hA, hB⟩, -⟩ :=
      delete_present_stands free_key_fun hst hs
    obtain ⟨hroot, ⟨j, hj, -, hkeeps⟩ | ⟨h1, -⟩⟩ := hyields _ hdel
    · have hnodes : t.numNodes = t'.numNodes + 1 := by
        rw [← keys_length, ← keys_length, hA, hB]
        simp
        omega
      have hkeeps' : Keeps old (t'.numNodes + 1) tree'.mem := by
        have hcount : j = t'.numNodes + 1 := by omega
        exact hcount ▸ hkeeps
      have hperm : b.inserted.Perm (i.key :: (Avl.keys t' ++ b.freed ++ gone)) := by
        refine h.keys.trans ?_
        rw [hA, hB, List.append_assoc, List.append_assoc, List.append_assoc, List.append_assoc]
        exact List.perm_middle
      cases free_key_fun with
      | some f =>
        refine ⟨{ b with tree := tree', freed := b.freed ++ [i.key] }, t', gone, ?_, hst',
          hroot ▸ h.apart, hkeeps', ?_, h.silent⟩
        · simp only [Books.call, hdel, ok_bind, pure_eq_ok]
          rfl
        · refine hperm.trans ?_
          have hmiddle :
              (i.key :: (Avl.keys t' ++ b.freed ++ gone)).Perm
                (Avl.keys t' ++ b.freed ++ i.key :: gone) :=
            List.perm_middle.symm
          rwa [← List.append_assoc, List.append_assoc _ [i.key] gone]
      | none =>
        refine ⟨{ b with tree := tree', silent := b.silent + 1 }, t', i.key :: gone, ?_, hst',
          hroot ▸ h.apart, hkeeps', ?_, ?_⟩
        · simp [Books.call, hdel]
        · exact hperm.trans List.perm_middle.symm
        · rw [List.length_cons, h.silent]
    · exact absurd (show (0 : Int) = -1 from h1) (by decide)

theorem Books.Right.call (h : b.Right old t gone) (c : Option Nat × Call κ) :
    ∃ b' t' gone', b.call c = .ok b' ∧ b'.Right old t' gone' := by
  obtain ⟨reply, c⟩ := c
  cases c with
  | insert key =>
    obtain ⟨b', t', hrun, h'⟩ := h.insert reply key
    exact ⟨b', t', gone, hrun, h'⟩
  | delete key free_key_fun => exact h.delete reply key free_key_fun

omit [LawfulRankBalance ω] in
theorem new_right {compare_fun : κ → κ → Int} {tree : avl_tree κ ω}
    (hnew : avl_tree_new compare_fun old = some tree) :
    (⟨tree, [], [], 0⟩ : Books κ ω).Right old .nil [] := by
  have hstands := (new_stands hnew).1
  unfold avl_tree_new at hnew
  rcases Keeps.avl_node_new (encloses_refl links old) HasNull.NULL (apart_none old)
    with ⟨m1, hnode, h1⟩ | ⟨a, m1, hnode, ha, h1⟩
  · simp [hnode] at hnew
  · simp only [hnode, Option.some.injEq] at hnew
    subst hnew
    exact ⟨hstands, ha, h1, .nil, rfl⟩

section Words

variable {compare_fun : κ → κ → Int} {m : Memory (avl_node κ (BitVec 32))}
  {tree : avl_tree κ (BitVec 32)}

/-- **Accounts.** Whatever the comparison answers and whichever allocations fail: after every run,
each key that was inserted is in the tree, was handed to `free_key_fun` once, or was taken out by a
deletion without one. What is allocated is the root and a node for each key, no other cell was
touched, and freeing the tree leaves the memory as it was before the tree was made. -/
theorem run_accounts (hnew : avl_tree_new compare_fun m = some tree)
    (calls : List (Option Nat × Call κ)) :
    ∃ b root t gone, calls.foldlM Books.call ⟨tree, [], [], 0⟩ = .ok b ∧
      b.tree.root = some root ∧ Holds b.tree.mem root [] t ∧
      b.inserted.Perm (keys t ++ b.freed ++ gone) ∧ gone.length = b.silent ∧
      (∀ a, (m.get a).isSome → b.tree.mem.get a = m.get a) ∧
      (∀ a, (b.tree.mem.get a).isSome ↔ (m.get a).isSome ∨ a ∈ root :: addrs t) ∧
      (t.numNodes < 2 ^ 32 → ∀ free_key_fun, ∃ m',
        avl_tree_free b.tree free_key_fun = .ok (m', if free_key_fun.isSome then keys t else []) ∧
          ∀ a, m'.get a = m.get a) := by
  obtain ⟨b, hrun, t, gone, h⟩ : ∃ b, calls.foldlM Books.call ⟨tree, [], [], 0⟩ = .ok b ∧
      ∃ t gone, b.Right m t gone := by
    refine run_invariant (fun b c h => ?_) ⟨.nil, [], new_right hnew⟩ calls
    obtain ⟨t, gone, h⟩ := h
    obtain ⟨b', t', gone', hcall, h'⟩ := h.call c
    exact ⟨b', hcall, t', gone', h'⟩
  obtain ⟨root, hroot, hheld⟩ := h.stands.held
  refine ⟨b, root, t, gone, hrun, hroot, hheld, h.keys, h.silent, h.keeps.kept, h.live hroot hheld,
    fun hsize f => ?_⟩
  obtain ⟨m', root', hroot', hfree, hgone, hkept⟩ := avl_tree_free_spec h.stands hsize f
  obtain rfl : root = root' := Option.some.inj (hroot.symm.trans hroot')
  refine ⟨m', hfree, fun a => ?_⟩
  by_cases ha : a ∈ root :: addrs t
  · -- A cell of the tree was in no use before.
    rw [hgone a ha, h.own hroot hheld a ha]
  · rw [hkept a ha]
    by_cases hold : (m.get a).isSome
    · exact h.keeps.kept a hold
    · have hdead := (h.live hroot hheld a).not.mpr (not_or.mpr ⟨hold, ha⟩)
      rw [Option.not_isSome_iff_eq_none.mp hold, Option.not_isSome_iff_eq_none.mp hdead]

/-- Keys 7 and 3, a 5 that gets no memory, a deletion that hands its key over and one
that does not. -/
def sample_calls : List (Option Nat × Call Nat) :=
  [(some 2, .insert 7), (some 3, .insert 3), (none, .insert 5), (none, .delete 7 (some fun _ => 1)),
    (none, .delete 3 none)]

theorem run_accounts_sample :
    ∃ b root t gone, sample_calls.foldlM Books.call ⟨sample, [], [], 0⟩ = .ok b ∧
    b.tree.root = some root ∧ Holds b.tree.mem root [] t ∧
    b.inserted.Perm (keys t ++ b.freed ++ gone) ∧ gone.length = b.silent ∧
    (∀ a, ((fresh Nat (BitVec 32)).get a).isSome →
      b.tree.mem.get a = (fresh Nat (BitVec 32)).get a) ∧
    (∀ a, (b.tree.mem.get a).isSome ↔ ((fresh Nat (BitVec 32)).get a).isSome ∨
      a ∈ root :: addrs t) ∧
    (t.numNodes < 2 ^ 32 → ∀ free_key_fun, ∃ m',
      avl_tree_free b.tree free_key_fun = .ok (m', if free_key_fun.isSome then keys t else []) ∧
        ∀ a, m'.get a = (fresh Nat (BitVec 32)).get a) :=
  run_accounts sample_new sample_calls

end Words

end Avl
