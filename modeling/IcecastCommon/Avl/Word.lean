import IcecastCommon.Avl.Code
import Mathlib.Tactic.IntervalCases

/-! # The packed word: rank and balance factor do not disturb each other -/

namespace Avl

/-- What the tree code relies on. Only a rank below 2^30 has to come back, from a word whose rank is
not negative. -/
class LawfulRankBalance (ω : Type) [RankBalance ω] : Prop where
  balance_set_rank : ∀ (w : ω) (r : Int), AVL_GET_BALANCE (AVL_SET_RANK w r) = AVL_GET_BALANCE w
  balance_set_balance : ∀ (w : ω) (b : Int), -1 ≤ b → b ≤ 1 →
    AVL_GET_BALANCE (AVL_SET_BALANCE w b) = b
  rank_set_balance : ∀ (w : ω) (b : Int), -1 ≤ b → b ≤ 1 →
    AVL_GET_RANK (AVL_SET_BALANCE w b) = AVL_GET_RANK w
  rank_set_rank : ∀ (w : ω) (r : Int), 0 ≤ AVL_GET_RANK w → 0 ≤ r → r < 2 ^ 30 →
    AVL_GET_RANK (AVL_SET_RANK w r) = r
  rank_zero : 0 ≤ AVL_GET_RANK (RankBalance.zero : ω)

/-! ## The 32-bit word -/

theorem shl_and_three (x : BitVec 32) : x <<< 2 &&& 3#32 = 0#32 := by
  apply BitVec.eq_of_toNat_eq
  have := Nat.and_two_pow_sub_one_eq_mod ((x <<< 2).toNat) 2
  simp [Nat.shiftLeft_eq] at this ⊢
  omega

theorem and_three_shr (w : BitVec 32) : (w &&& 3#32) >>> 2 = 0#32 := by
  rw [BitVec.ushiftRight_and_distrib]
  exact BitVec.and_zero

theorem and_not_three_shr (w : BitVec 32) : (w &&& ~~~3#32) >>> 2 = w >>> 2 := by
  rw [BitVec.ushiftRight_and_distrib]
  apply BitVec.eq_of_toNat_eq
  have := Nat.and_two_pow_sub_one_eq_mod ((w >>> 2).toNat) 30
  simp [Nat.shiftRight_eq_div_pow] at this ⊢
  omega

instance : LawfulRankBalance (BitVec 32) where
  balance_set_rank w r := by
    simp only [AVL_GET_BALANCE, AVL_SET_RANK]
    rw [BitVec.and_or_distrib_right, shl_and_three, BitVec.and_assoc, BitVec.and_self,
      BitVec.or_zero]
  balance_set_balance w b h h' := by
    simp only [AVL_GET_BALANCE, AVL_SET_BALANCE]
    rw [BitVec.and_or_distrib_right, BitVec.and_assoc,
      show (~~~3#32) &&& 3#32 = 0#32 from rfl, BitVec.and_zero, BitVec.zero_or]
    interval_cases b <;> rfl
  rank_set_balance w b h h' := by
    simp only [AVL_GET_RANK, AVL_SET_BALANCE]
    have hb : BitVec.ofInt 32 (b + 1) >>> 2 = 0#32 := by interval_cases b <;> rfl
    rw [BitVec.ushiftRight_or_distrib, hb, BitVec.or_zero, and_not_three_shr]
  rank_set_rank w r _ h h' := by
    simp only [AVL_GET_RANK, AVL_SET_RANK]
    rw [BitVec.ushiftRight_or_distrib, and_three_shr, BitVec.zero_or]
    simp [Nat.shiftLeft_eq, Nat.shiftRight_eq_div_pow, BitVec.toNat_ofInt]
    omega
  rank_zero := by decide

/-! ## Whole words -/

theorem toNat_set_rank (w : BitVec 32) (r : Int) :
    (AVL_SET_RANK w r).toNat = w.toNat % 4 + 4 * (r % 2 ^ 30).toNat := by
  have hlow : (w &&& 3#32).toNat = w.toNat % 4 := by
    have := Nat.and_two_pow_sub_one_eq_mod w.toNat 2
    simpa using this
  have hhigh : (BitVec.ofInt 32 r <<< 2).toNat = (r % 2 ^ 30).toNat <<< 2 := by
    simp [Nat.shiftLeft_eq, BitVec.toNat_ofInt]
    omega
  have hor :=
    Nat.shiftLeft_add_eq_or_of_lt (i := 2) (b := w.toNat % 4) (by omega) (r % 2 ^ 30).toNat
  simp only [AVL_SET_RANK]
  rw [BitVec.toNat_or, hlow, hhigh, Nat.or_comm, ← hor, Nat.shiftLeft_eq]
  omega

theorem toNat_get_rank (w : BitVec 32) : AVL_GET_RANK w = (w.toNat / 4 : Nat) := by
  simp only [AVL_GET_RANK]
  rw [BitVec.toNat_ushiftRight, Nat.shiftRight_eq_div_pow]

theorem set_rank_restore (w : BitVec 32) :
    AVL_SET_RANK (AVL_SET_RANK w (AVL_GET_RANK w - 1))
      (AVL_GET_RANK (AVL_SET_RANK w (AVL_GET_RANK w - 1)) + 1) = w := by
  have := w.isLt
  apply BitVec.eq_of_toNat_eq
  simp only [toNat_set_rank, toNat_get_rank]
  omega

theorem set_rank_succ_ne (w : BitVec 32) : AVL_SET_RANK w (AVL_GET_RANK w + 1) ≠ w := by
  intro h
  have hlt := w.isLt
  have hnat := congrArg BitVec.toNat h
  simp only [toNat_set_rank, toNat_get_rank] at hnat
  omega

end Avl
