import IcecastCommon.Avl.Run

/-!
# The height field

`avl_insert` counts the levels that the tree gains. `avl_delete` does not touch the field.
-/

namespace Avl

open Lib

variable {κ ω : Type} [RankBalance ω] [HasNull κ]

/-- The field is the number of levels without the first one, in 32 bits. -/
def HeightRight (tree : avl_tree κ ω) : Prop :=
  ∀ root t, tree.root = some root → Holds tree.mem root [] t →
    tree.height = BitVec.ofNat 32 (t.height - 1)

/-- The call takes the last node of a level away, and it is not the only level. -/
def LosesLevel (tree : avl_tree κ ω) : Call κ → Prop
  | .insert _ => False
  | .delete key _ => ∃ root t, tree.root = some root ∧ Holds tree.mem root [] t ∧ 2 ≤ t.height ∧
      Lowers (fun i => tree.compare_fun key i.key) t

/-- What the runs keep as long as no level is lost. -/
def Counted (tree : avl_tree κ ω) : Prop :=
  ∃ t : BinaryTree (Item κ ω), Stores tree t ∧ tree.height = BitVec.ofNat 32 (t.height - 1)

theorem Counted.right {tree : avl_tree κ ω} (h : Counted tree) : HeightRight tree := by
  obtain ⟨t, hst, hheight⟩ := h
  obtain ⟨root, hroot, hheld⟩ := hst.held
  intro root' t' hroot' hheld'
  obtain rfl : root = root' := Option.some.inj (hroot.symm.trans hroot')
  rw [← hheld.unique hheld', hheight]

omit [HasNull κ] in
theorem lost_height (p : List (Frame (Item κ ω))) :
    (plug (lost p []) .nil).height = (plug p .nil).height := by
  cases p with
  | nil => rfl
  | cons f p =>
    rw [lost, List.append_nil, plug_cons, plug_cons]
    have hframe : ((f.map miss).fill .nil).height = (f.fill .nil).height := by
      rw [height_fill, height_fill, Frame.map_sibling]
    rw [height_plug_map bump _ _ _ rfl, height_plug_map sink _ _ _ hframe]

variable [LawfulRankBalance ω] {tree : avl_tree κ ω}

theorem insert_counted (h : Counted tree) (key : κ) :
    ∃ tree', call tree (.insert key) = .ok tree' ∧ Counted tree' := by
  obtain ⟨t, hst, hheight⟩ := h
  obtain ⟨tree', t', hrun, hdone⟩ := avl_insert_spec key hst
  obtain ⟨grown, hgrown, hfield⟩ := hdone.height
  refine ⟨tree', by simp only [call, hrun, ok_bind, pure_eq_ok], t', hdone.stores, ?_⟩
  rw [hfield, hheight]
  split_ifs with h0
  · -- the first node makes the first level, which does not count
    obtain ⟨a, hlab⟩ := hdone.inserted.labels
    have hcount := numNodes_of_labels hlab
    have hle := t'.height_le_numNodes
    have hnil : t = .nil := by
      cases t with
      | nil => rfl
      | node i l r => simp at h0
    rw [hnil] at hcount
    simp only [BinaryTree.numNodes] at hcount
    rw [h0, show t'.height - 1 = 0 by omega]
  · rw [← BitVec.ofNat_add, show t.height - 1 + grown = t'.height - 1 by omega]

theorem delete_levels {t : BinaryTree (Item κ ω)} (h : Stores tree t) (key : κ)
    (free_key_fun : Option (κ → Int)) :
    ∃ tree' t', call tree (.delete key free_key_fun) = .ok tree' ∧ Stores tree' t' ∧
      tree'.height = tree.height ∧
      (Lowers (fun i => tree.compare_fun key i.key) t → t'.height + 1 = t.height) ∧
      (¬ Lowers (fun i => tree.compare_fun key i.key) t → t'.height = t.height) := by
  rcases hs : seek (fun i : Item κ ω => tree.compare_fun key i.key) t [] with ⟨p, u⟩
  cases u with
  | nil =>
    obtain ⟨m', hrun, hst, -⟩ := avl_delete_absent free_key_fun h hs
    have hplug := (seek_spec (fun i : Item κ ω => tree.compare_fun key i.key) t []).1
    rw [hs, plug_nil] at hplug
    have hnot :=
      not_lowers_of_absent (fun i : Item κ ω => tree.compare_fun key i.key) t (by rw [hs])
    refine ⟨_, _, by simp only [call, hrun, ok_bind, pure_eq_ok], hst, rfl,
      fun h1 => absurd h1 hnot, fun _ => ?_⟩
    rw [lost_height, hplug]
  | node i l r =>
    obtain ⟨tree', t', hrun, hg, hst, -, -, -, -, hdone, hlost, hkept⟩ :=
      delete_present_stands free_key_fun h.stands hs
    have hst' := hst.stores fun n => hg ▸ h.generous n
    exact ⟨tree', t', by simp only [call, hrun, ok_bind, pure_eq_ok], hst', (hdone hst').height,
      hlost, hkept⟩

/-- **The height field.** In a run it is right in every state exactly when no deletion takes a level
from a tree that has more than one. -/
theorem height_tracks_iff {compare_fun : κ → κ → Int} {m : Memory (avl_node κ ω)} (hm : m.Generous)
    (hnew : avl_tree_new compare_fun m = some tree) (calls : List (Call κ)) :
    (∀ pre post tree', calls = pre ++ post → run tree pre = .ok tree' → HeightRight tree') ↔
      ∀ pre c post tree', calls = pre ++ c :: post → run tree pre = .ok tree' →
      ¬ LosesLevel tree' c := by
  have h0 : Counted tree := by
    have hfield : tree.height = 0 := by
      rw [avl_tree_new] at hnew
      split at hnew
      · cases hnew
      · cases hnew
        rfl
    exact ⟨.nil, (avl_tree_new_spec hm hnew).1, hfield⟩
  refine run_iff Counted (fun _ h => h.right) ?_ ?_ h0 calls
  · rintro tree1 (key | ⟨key, free_key_fun⟩) h1 hkeeps tree2 hcall
    · obtain ⟨tree2', hcall', h2⟩ := insert_counted h1 key
      obtain rfl := Except.ok.inj (hcall'.symm.trans hcall)
      exact h2
    · obtain ⟨t, hst, hheight⟩ := h1
      obtain ⟨root, hroot, hheld⟩ := hst.held
      obtain ⟨tree2', t', hcall', hst', hfield, hlost, hkept⟩ := delete_levels hst key free_key_fun
      obtain rfl := Except.ok.inj (hcall'.symm.trans hcall)
      refine ⟨t', hst', ?_⟩
      rw [hfield, hheight]
      by_cases hlowers : Lowers (fun i => tree1.compare_fun key i.key) t
      · have hone : ¬ 2 ≤ t.height := fun h => hkeeps ⟨root, t, hroot, hheld, h, hlowers⟩
        have := hlost hlowers
        rw [show t.height - 1 = t'.height - 1 by omega]
      · rw [hkept hlowers]
  · rintro tree1 (key | ⟨key, free_key_fun⟩) h1 hloses
    · exact hloses.elim
    · obtain ⟨t, hst, hheight⟩ := h1
      obtain ⟨root, t1, hroot, hheld, htwo, hlowers⟩ := hloses
      obtain ⟨root1, hroot1, hheld1⟩ := hst.held
      obtain rfl : root1 = root := Option.some.inj (hroot1.symm.trans hroot)
      obtain rfl := hheld1.unique hheld
      obtain ⟨tree2, t', hcall, hst', hfield, hlost, -⟩ := delete_levels hst key free_key_fun
      obtain ⟨root', hroot', hheld'⟩ := hst'.held
      refine ⟨tree2, hcall, fun hright => ?_⟩
      -- the field is one more than the levels now
      have hwrong := hright root' t' hroot' hheld'
      rw [hfield, hheight, ← hlost hlowers] at hwrong
      have hnat := congrArg BitVec.toNat hwrong
      have := hlost hlowers
      simp only [BitVec.toNat_ofNat] at hnat
      omega

theorem height_tracks_iff_sample :
    (∀ pre post tree', turned_calls = pre ++ post → run sample pre = .ok tree' →
      HeightRight tree') ↔
      ∀ pre c post tree', turned_calls = pre ++ c :: post → run sample pre = .ok tree' →
      ¬ LosesLevel tree' c :=
  height_tracks_iff (fresh_generous _ _) sample_new _

/-- Two insertions and a deletion leave one node and the height of two levels. -/
theorem height_wrong : ∃ tree', run sample [.insert 5, .insert 7, .delete 7 none] = .ok tree' ∧
    Holds tree'.mem 1 [] (.node ⟨2, 5, 5#32⟩ .nil .nil : BinaryTree (Item Nat (BitVec 32))) ∧
      tree'.height = 1 ∧
      ¬ HeightRight tree' := by
  have hheld : ∀ tree', run sample [.insert 5, .insert 7, .delete 7 none] = .ok tree' →
      tree'.root = some 1 ∧ tree'.height = 1 ∧
        Holds tree'.mem 1 []
          (.node ⟨2, 5, 5#32⟩ .nil .nil : BinaryTree (Item Nat (BitVec 32))) := by
    intro tree' hrun
    cases hrun
    exact ⟨rfl, rfl, ⟨_, rfl⟩, ⟨rfl, trivial, trivial⟩, by decide⟩
  refine ⟨_, rfl, ?_, ?_, ?_⟩
  · exact (hheld _ rfl).2.2
  · exact (hheld _ rfl).2.1
  · intro hright
    exact absurd (hright 1 _ (hheld _ rfl).1 (hheld _ rfl).2.2) (by decide)

end Avl
