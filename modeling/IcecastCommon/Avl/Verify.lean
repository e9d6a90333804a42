import IcecastCommon.Avl.Failure

/-!
# The sanity checker

`avl_verify` goes through the tree three times. Only the third time leaves a trace of what is wrong.
-/

namespace Avl

open Lib

variable {κ ω : Type} {m : Memory (avl_node κ ω)} {t : BinaryTree (Item κ ω)}

/-- The memory has the nodes of `t` with their children. The parent pointers may be anything. -/
def Linked (m : Memory (avl_node κ ω)) (t : BinaryTree (Item κ ω)) : Prop :=
  Everywhere (fun i l r => ∃ p, m.get i.addr = some (cell i (ptr l) (ptr r) p)) t

/-- A tree in the memory below the root node, right or not. -/
structure HeapTree (tree : avl_tree κ ω) (t : BinaryTree (Item κ ω)) : Prop where
  root : ∃ n, tree.mem.load tree.root = .ok n ∧ n.right = ptr t
  linked : Linked tree.mem t
  nodup : (addrs t).Nodup

theorem linked_live (h : Linked m t) : ∀ a ∈ addrs t, (m.get a).isSome := by
  induction t with
  | nil => simp
  | node i l r ihl ihr =>
    obtain ⟨⟨p, hi⟩, hl, hr⟩ := h
    simp only [addrs_node, List.mem_append, List.mem_cons]
    rintro a (ha | rfl | ha)
    · exact ihl hl a ha
    · rw [hi]
      rfl
    · exact ihr hr a ha

theorem HeapTree.height_lt {tree : avl_tree κ ω} (h : HeapTree tree t) :
    t.height < tree.mem.size + 1 := by
  have hlen := tree.mem.length_le_size h.nodup (linked_live h.linked)
  have hle := t.height_le_numNodes
  rw [addrs, List.length_map, inorder_length] at hlen
  omega

variable [RankBalance ω]

theorem avl_verify_balance_returns (t : BinaryTree (Item κ ω)) :
    ∀ fuel, Linked m t → t.height < fuel → ∃ h, avl_verify_balance fuel m (ptr t) = .ok h := by
  induction t with
  | nil =>
    intro fuel _ hfuel
    obtain ⟨fuel, rfl⟩ : ∃ n, fuel = n + 1 := ⟨fuel - 1, by omega⟩
    exact ⟨0, rfl⟩
  | node i l r ihl ihr =>
    rintro fuel ⟨⟨p, hi⟩, hl, hr⟩ hfuel
    rw [BinaryTree.height] at hfuel
    obtain ⟨fuel, rfl⟩ : ∃ n, fuel = n + 1 := ⟨fuel - 1, by omega⟩
    obtain ⟨lh, hlh⟩ := ihl fuel hl (by omega)
    obtain ⟨rh, hrh⟩ := ihr fuel hr (by omega)
    simp only [avl_verify_balance, ptr_node, Memory.load_eq hi, ok_bind, cell, hlh, hrh]
    split_ifs
    · exact ⟨_, rfl⟩
    · exact ⟨_, rfl⟩
    · exact ⟨_, rfl⟩

omit [RankBalance ω] in
theorem avl_verify_parent_returns (t : BinaryTree (Item κ ω)) :
    ∀ (fuel : Nat) (parent : Ptr), t ≠ .nil → Linked m t → t.height < fuel →
      avl_verify_parent fuel m (ptr t) parent = .ok () := by
  induction t with
  | nil => intro _ _ h; exact absurd rfl h
  | node i l r ihl ihr =>
    rintro fuel parent - ⟨⟨p, hi⟩, hl, hr⟩ hfuel
    rw [BinaryTree.height] at hfuel
    obtain ⟨fuel, rfl⟩ : ∃ n, fuel = n + 1 := ⟨fuel - 1, by omega⟩
    have hleft : l ≠ .nil → avl_verify_parent fuel m (ptr l) (some i.addr) = .ok () := fun hne =>
      ihl fuel (some i.addr) hne hl (by omega)
    have hright : r ≠ .nil → avl_verify_parent fuel m (ptr r) (some i.addr) = .ok () := fun hne =>
      ihr fuel (some i.addr) hne hr (by omega)
    simp only [avl_verify_parent, ptr_node, Memory.load_eq hi, ok_bind, cell]
    by_cases h1 : p ≠ parent
    · rw [if_pos h1]
      rfl
    rw [if_neg h1]
    cases l with
    | nil =>
      cases r with
      | nil => rfl
      | node j x y => exact hright (by simp)
    | node j x y =>
      refine run_bind (hleft (by simp)) ?_
      cases r with
      | nil => rfl
      | node k u v => exact hright (by simp)

theorem avl_verify_rank_spec (t : BinaryTree (Item κ ω)) :
    ∀ fuel, Linked m t → t.height < fuel →
      (Ranked t → avl_verify_rank fuel m (ptr t) = .ok (some (t.numNodes : Int))) ∧
      (¬ Ranked t → avl_verify_rank fuel m (ptr t) = .ok none) := by
  induction t with
  | nil =>
    intro fuel _ hfuel
    obtain ⟨fuel, rfl⟩ : ∃ n, fuel = n + 1 := ⟨fuel - 1, by omega⟩
    exact ⟨fun _ => rfl, fun h => absurd trivial h⟩
  | node i l r ihl ihr =>
    rintro fuel ⟨⟨p, hi⟩, hl, hr⟩ hfuel
    rw [BinaryTree.height] at hfuel
    obtain ⟨fuel, rfl⟩ : ∃ n, fuel = n + 1 := ⟨fuel - 1, by omega⟩
    -- a child that is not there counts as no node
    have hsub : ∀ u : BinaryTree (Item κ ω), u.height < fuel →
        (if ptr u ≠ none then avl_verify_rank fuel m (ptr u) else pure (some 0)) =
          avl_verify_rank fuel m (ptr u) := by
      intro u hu
      obtain ⟨fuel, rfl⟩ : ∃ n, fuel = n + 1 := ⟨fuel - 1, by omega⟩
      cases u with
      | nil => rfl
      | node j x y => rfl
    obtain ⟨hlr, hlw⟩ := ihl fuel hl (by omega)
    obtain ⟨hrr, hrw⟩ := ihr fuel hr (by omega)
    simp only [avl_verify_rank, ptr_node, Memory.load_eq hi, ok_bind, cell, hsub l (by omega),
      hsub r (by omega)]
    rw [Ranked, everywhere_node]
    by_cases h1 : Ranked l
    · by_cases h2 : Ranked r
      · rw [hlr h1, hrr h2]
        simp only [ok_bind, pure_eq_ok]
        by_cases h3 : AVL_GET_RANK i.word = (l.numNodes : Int) + 1
        · rw [if_neg (not_not.mpr h3)]
          refine ⟨fun _ => ?_, fun h => absurd ⟨h3, h1, h2⟩ h⟩
          simp only [BinaryTree.numNodes, Int.natCast_add, Int.natCast_one]
        · rw [if_pos h3]
          exact ⟨fun h => absurd h.1 h3, fun _ => rfl⟩
      · rw [hlr h1, hrw h2]
        exact ⟨fun h => absurd h.2.2 h2, fun _ => rfl⟩
    · rw [hlw h1]
      exact ⟨fun h => absurd h.2.1 h1, fun _ => rfl⟩

/-- What the checker answers: an exit for a wrong rank, and 0 for everything else that is wrong. -/
theorem avl_verify_spec {tree : avl_tree κ ω} (h : HeapTree tree t) :
    avl_verify tree = .ok (some 0) ↔ tree.length = 0 ∨ t ≠ .nil ∧ Ranked t := by
  obtain ⟨n, hn, hright⟩ := h.root
  by_cases h0 : tree.length = 0
  · rw [avl_verify, if_neg (not_not.mpr h0)]
    exact iff_of_true rfl (.inl h0)
  rw [avl_verify, if_pos h0, or_iff_right h0, hn, ok_bind, hright]
  obtain ⟨height, hbalance⟩ := avl_verify_balance_returns t _ h.linked h.height_lt
  obtain ⟨hranked, hwrong⟩ := avl_verify_rank_spec t _ h.linked h.height_lt
  simp only [hbalance, ok_bind]
  cases t with
  | nil =>
    refine iff_of_false ?_ fun hcon => hcon.1 rfl
    simp [avl_verify_parent, ptr, Memory.load, bind, Except.bind]
  | node i l r =>
    rw [avl_verify_parent_returns _ _ tree.root (by simp) h.linked h.height_lt, ok_bind,
      and_iff_right (by simp)]
    by_cases h1 : Ranked (.node i l r)
    · rw [hranked h1]
      exact iff_of_true rfl h1
    · rw [hwrong h1]
      exact iff_of_false (by rintro ⟨⟩) h1

/-- Every balance factor, parent pointer and rank below the root is right. -/
def AllRight (tree : avl_tree κ ω) (t : BinaryTree (Item κ ω)) : Prop :=
  Balanced t ∧ Owns tree.mem tree.root t ∧ Ranked t

/-- **The checker.** That it returns 0 says that the tree is right exactly when some rank is wrong,
so that it does not return at all, or nothing is wrong. -/
theorem avl_verify_sound_iff {tree : avl_tree κ ω} (h : HeapTree tree t) :
    (avl_verify tree = .ok (some 0) → AllRight tree t) ↔ tree.length ≠ 0 ∧ ¬ Ranked t ∨
      AllRight tree t := by
  rw [avl_verify_spec h]
  cases t with
  | nil =>
    have hright : AllRight tree .nil := ⟨trivial, trivial, trivial⟩
    exact iff_of_true (fun _ => hright) (.inr hright)
  | node i l r =>
    rw [and_iff_right (show BinaryTree.node i l r ≠ .nil by simp)]
    constructor
    · intro himp
      by_cases h0 : tree.length = 0
      · exact .inr (himp (.inl h0))
      · by_cases h1 : Ranked (.node i l r)
        · exact .inr (himp (.inr h1))
        · exact .inl ⟨h0, h1⟩
    · rintro (⟨h0, h1⟩ | hright)
      · rintro (h2 | h2)
        · exact absurd h2 h0
        · exact absurd h2 h1
      · exact fun _ => hright

/-- One node below the root, with a balance factor that says it has a right child and a parent
pointer that is NULL. Its rank is right. -/
def crooked : avl_tree Nat (BitVec 32) where
  root := some 1
  height := 0
  length := 1
  compare_fun := byAddress
  mem := ((fresh Nat (BitVec 32)).set 1 ⟨0, none, some 2, none, 5#32⟩).set 2
    ⟨5, none, none, none, 6#32⟩

def crookedNode : BinaryTree (Item Nat (BitVec 32)) := .node ⟨2, 5, 6#32⟩ .nil .nil

theorem crooked_heap : HeapTree crooked crookedNode :=
  ⟨⟨_, rfl, rfl⟩, ⟨⟨none, rfl⟩, trivial, trivial⟩, by decide⟩

theorem avl_verify_sound_iff_crooked :
    (avl_verify crooked = .ok (some 0) → AllRight crooked crookedNode) ↔
    crooked.length ≠ 0 ∧ ¬ Ranked crookedNode ∨ AllRight crooked crookedNode :=
  avl_verify_sound_iff crooked_heap

/-- The checker is content with a wrong balance factor and a wrong parent pointer. -/
theorem avl_verify_unsound : HeapTree crooked crookedNode ∧ avl_verify crooked = .ok (some 0) ∧
    ¬ Balanced crookedNode ∧ ¬ Owns crooked.mem crooked.root crookedNode := by
  refine ⟨crooked_heap, rfl, fun h => ?_, fun h => ?_⟩
  · exact absurd h.1.1 (by decide)
  · cases h.1

end Avl
