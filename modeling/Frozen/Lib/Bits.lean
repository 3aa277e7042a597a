/-
# `Frozen.Lib.Bits` — operations on words that lose nothing

The steps of a mixing function: a product with an odd number, given by its inverse, and
a word that is xored with its own upper bits.
-/
import Mathlib.Tactic

namespace Frozen.Lib

/-- A word xored with its upper bits: every bit is found again from the top on. -/
theorem xor_ushiftRight_injective {w s : Nat} (hs : 0 < s) :
    Function.Injective fun x : BitVec w => x ^^^ (x >>> s) := by
  intro x y hxy
  have hbit : ∀ k i, w ≤ i + k → x.getLsbD i = y.getLsbD i := by
    intro k
    induction k with
    | zero =>
        intro i hi
        rw [BitVec.getLsbD_of_ge x i hi, BitVec.getLsbD_of_ge y i hi]
    | succ k ih =>
        intro i hi
        have hi' := congrArg (BitVec.getLsbD · i) hxy
        simp only [BitVec.getLsbD_xor, BitVec.getLsbD_ushiftRight] at hi'
        rw [ih (s + i) (by omega)] at hi'
        exact Bool.xor_left_inj.mp hi'
  exact BitVec.eq_of_getLsbD_eq fun i _ => hbit w i (Nat.le_add_left w i)

/-- A product with a number that has an inverse. -/
theorem mul_injective_of_inverse {w : Nat} {m n : BitVec w} (h : m * n = 1) :
    Function.Injective fun x : BitVec w => x * m := by
  refine Function.LeftInverse.injective (g := fun x => x * n) fun x => ?_
  simp only [BitVec.mul_assoc, h]
  exact BitVec.mul_one x

theorem xor_injective {w : Nat} (k : BitVec w) :
    Function.Injective fun x : BitVec w => x ^^^ k := by
  intro x y hxy
  have h := congrArg (· ^^^ k) hxy
  simpa only [BitVec.xor_assoc, BitVec.xor_self, BitVec.xor_zero] using h

end Frozen.Lib
