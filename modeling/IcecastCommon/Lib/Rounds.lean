import IcecastCommon.Lib.Memory
import Mathlib.Tactic.SplitIfs

/-!
# Loops with a bound on their rounds

A bound that is not reached does not change the result.
-/

namespace Lib

variable {α β : Type} {x x' y y' : C α}

/-- `x` has run out of rounds, or it is `x'`. -/
def Extends (x x' : C α) : Prop := x = .error .endless ∨ x = x'

theorem Extends.refl (x : C α) : Extends x x := .inr rfl

theorem Extends.bind {f f' : α → C β} (hx : Extends x x') (hf : ∀ a, Extends (f a) (f' a)) :
    Extends (x >>= f) (x' >>= f') := by
  obtain rfl | rfl := hx
  · exact .inl rfl
  · cases x with
    | error e => exact .refl _
    | ok a => exact hf a

theorem Extends.ite {p : Prop} [Decidable p] (hx : Extends x x') (hy : Extends y y') :
    Extends (if p then x else y) (if p then x' else y') := by
  split_ifs
  · exact hx
  · exact hy

/-- The loop ends within `n` rounds, and how many more it could have does not matter. -/
def EndsWithin (loop : Nat → C α) (n : Nat) : Prop :=
  ∃ r, ∀ rounds, n ≤ rounds → loop rounds = .ok r

theorem endsWithin_of_more {loop : Nat → C α} (hmore : ∀ n, Extends (loop n) (loop (n + 1)))
    {n : Nat} {r : α} (h : loop n = .ok r) : EndsWithin loop n := by
  refine ⟨r, fun rounds hrounds => ?_⟩
  induction rounds, hrounds using Nat.le_induction with
  | base => exact h
  | succ rounds _ ih =>
    obtain hend | hsame := hmore rounds
    · exact nomatch hend.symm.trans ih
    · exact hsame ▸ ih

end Lib
