import IcecastCommon.Avl.Tree
import IcecastCommon.Lib.Follows

/-!
# Nodes with unbounded fields

Two other words for a node. `Fields` holds the rank and the balance factor as integers. `Watched`
does so too, and loses the rank for good when a value is stored that the packed word has no bits
for.
-/

namespace Avl

open Lib

variable {κ ω ω' : Type}

structure Fields where
  balance : Int
  rank : Int

instance : RankBalance Fields where
  zero := ⟨-1, 0⟩
  AVL_GET_BALANCE w := w.balance
  AVL_GET_RANK w := w.rank
  AVL_SET_BALANCE w b := { w with balance := b }
  AVL_SET_RANK w r := { w with rank := r }

instance : LawfulRankBalance Fields where
  balance_set_rank _ _ := rfl
  balance_set_balance _ _ _ _ := rfl
  rank_set_balance _ _ _ _ := rfl
  rank_set_rank _ _ _ _ _ := rfl
  rank_zero := le_rfl

/-- A rank that 30 bits can hold. -/
abbrev ShortRank := {r : Int // 0 ≤ r ∧ r < 2 ^ 30}

structure Watched where
  balance : Int
  rank : Option ShortRank

def Watched.store (w : Watched) (r : Int) : Watched :=
  match w.rank with
  | none => w
  | some _ => { w with rank := if h : 0 ≤ r ∧ r < 2 ^ 30 then some ⟨r, h⟩ else none }

instance : RankBalance Watched where
  zero := ⟨-1, some ⟨0, by decide⟩⟩
  AVL_GET_BALANCE w := w.balance
  -- no sum or difference of this with a short rank is a short rank
  AVL_GET_RANK w := match w.rank with
    | none => -2 ^ 30
    | some r => r
  AVL_SET_BALANCE w b := { balance := b, rank := if -1 ≤ b ∧ b ≤ 1 then w.rank else none }
  AVL_SET_RANK w r := w.store r

theorem Watched.rank_of_nonneg {w : Watched} (h : 0 ≤ AVL_GET_RANK w) : ∃ r, w.rank = some r := by
  obtain ⟨b, _ | r⟩ := w
  · simp [AVL_GET_RANK] at h
  · exact ⟨r, rfl⟩

theorem Watched.get_rank {w : Watched} {r : ShortRank} (h : w.rank = some r) :
    AVL_GET_RANK w = r.1 := by
  simp only [AVL_GET_RANK, h]

theorem Watched.get_lost {w : Watched} (h : w.rank = none) : AVL_GET_RANK w = -2 ^ 30 := by
  simp only [AVL_GET_RANK, h]

theorem Watched.store_balance (w : Watched) (r : Int) : (w.store r).balance = w.balance := by
  unfold Watched.store
  split <;> rfl

theorem Watched.of_store {w : Watched} {r : Int} {s : ShortRank} (h : (w.store r).rank = some s) :
    s.1 = r ∧ ∃ s', w.rank = some s' := by
  unfold Watched.store at h
  split at h
  · rename_i hw
    rw [hw] at h
    cases h
  · rename_i s' hw
    dsimp only at h
    split_ifs at h with hr
    obtain rfl := Option.some.inj h
    exact ⟨rfl, s', hw⟩

instance : LawfulRankBalance Watched where
  balance_set_rank := Watched.store_balance
  balance_set_balance _ _ _ _ := rfl
  rank_set_balance w b h h' := by
    have hb : AVL_SET_BALANCE w b = { balance := b, rank := w.rank } := by
      simp only [AVL_SET_BALANCE, if_pos (And.intro h h')]
    rw [hb]
    rfl
  rank_set_rank w r hw h h' := by
    obtain ⟨s, hs⟩ := Watched.rank_of_nonneg hw
    refine Watched.get_rank (r := ⟨r, h, h'⟩) ?_
    simp only [AVL_SET_RANK, Watched.store, hs, dif_pos (And.intro h h')]
  rank_zero := le_rfl

/-! ## Other words in the same tree -/

def avl_node.withWord (f : ω → ω') (n : avl_node κ ω) : avl_node κ ω' where
  key := n.key
  left := n.left
  right := n.right
  parent := n.parent
  rank_and_balance := f n.rank_and_balance

def avl_tree.withWords (f : ω → ω') (tree : avl_tree κ ω) : avl_tree κ ω' where
  root := tree.root
  height := tree.height
  length := tree.length
  compare_fun := tree.compare_fun
  mem := tree.mem.map (avl_node.withWord f)

def Item.withWord (f : ω → ω') (i : Item κ ω) : Item κ ω' := ⟨i.addr, i.key, f i.word⟩

/-- The fields of a packed word. -/
def unpack (w : BitVec 32) : Fields := ⟨AVL_GET_BALANCE w, AVL_GET_RANK w⟩

theorem packed_rank_short (w : BitVec 32) : 0 ≤ AVL_GET_RANK w ∧ AVL_GET_RANK w < 2 ^ 30 := by
  have := w.isLt
  rw [toNat_get_rank]
  omega

def watch (w : BitVec 32) : Watched :=
  ⟨AVL_GET_BALANCE w, some ⟨AVL_GET_RANK w, packed_rank_short w⟩⟩

/-! ## A word and what is watched of it -/

section Shows

variable [RankBalance ω]

/-- The same balance factor, and the same rank unless it is lost. -/
def Shows (w : ω) (k : Watched) : Prop :=
  AVL_GET_BALANCE w = AVL_GET_BALANCE k ∧ ∀ r, k.rank = some r → AVL_GET_RANK w = r.1

theorem Shows.rank {w : ω} {k : Watched} (h : Shows w k) {r : ShortRank} (hr : k.rank = some r) :
    AVL_GET_RANK w = AVL_GET_RANK k := by
  rw [h.2 r hr, Watched.get_rank hr]

theorem shows_watch (w : BitVec 32) : Shows w (watch w) := by
  refine ⟨rfl, fun r hr => ?_⟩
  obtain rfl := Option.some.inj hr
  rfl

theorem Shows.unpack {w : BitVec 32} {k : Watched} (h : Shows w k) : Shows (unpack w) k := h

variable [LawfulRankBalance ω] {w : ω} {k : Watched}

theorem Shows.set_balance (h : Shows w k) {b : Int} (hb : -1 ≤ b) (hb' : b ≤ 1) :
    Shows (AVL_SET_BALANCE w b) (AVL_SET_BALANCE k b) := by
  refine ⟨LawfulRankBalance.balance_set_balance w b hb hb', fun r hr => ?_⟩
  rw [LawfulRankBalance.rank_set_balance w b hb hb']
  simp only [AVL_SET_BALANCE, if_pos (And.intro hb hb')] at hr
  exact h.2 r hr

theorem Shows.set_rank (h : Shows w k) {r r' : Int}
    (hr : ∀ s, k.rank = some s → 0 ≤ r' → r' < 2 ^ 30 → r = r') :
    Shows (AVL_SET_RANK w r) (AVL_SET_RANK k r') := by
  refine ⟨?_, fun s hs => ?_⟩
  · rw [LawfulRankBalance.balance_set_rank, h.1]
    exact (k.store_balance r').symm
  · obtain ⟨hval, s', hs'⟩ := Watched.of_store hs
    have hshort := s.2
    have hwas := s'.2
    rw [hval] at hshort ⊢
    obtain rfl := hr s' hs' hshort.1 hshort.2
    exact LawfulRankBalance.rank_set_rank w r (by rw [h.2 s' hs']; exact hwas.1) hshort.1 hshort.2

theorem shows_new : Shows (AVL_SET_RANK (AVL_SET_BALANCE (RankBalance.zero : ω) 0) 1)
    (AVL_SET_RANK (AVL_SET_BALANCE (RankBalance.zero : Watched) 0) 1) := by
  refine ⟨?_, fun s hs => ?_⟩
  · rw [LawfulRankBalance.balance_set_rank]
    exact LawfulRankBalance.balance_set_balance _ 0 (by decide) (by decide)
  · obtain ⟨hval, -⟩ := Watched.of_store hs
    rw [hval]
    refine LawfulRankBalance.rank_set_rank _ 1 ?_ (by decide) (by decide)
    rw [LawfulRankBalance.rank_set_balance _ 0 (by decide) (by decide)]
    exact LawfulRankBalance.rank_zero

end Shows

end Avl
