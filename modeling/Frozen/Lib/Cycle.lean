/-
# `Frozen.Lib.Cycle` — going round

Places `0, …, n - 1` are visited in order, again and again.  After `N` visits each has
had its share of the whole rounds, and those in front one more.

    count_cycle      how often a place has been visited
    count_cycle_le   no place is more than one visit ahead of another
-/
import Mathlib.Data.Int.CardIntervalMod
import Mathlib.Tactic

namespace Frozen.Lib

/-- The first `N` visits. -/
def cycle (n N : Nat) : List Nat := (List.range N).map (· % n)

section

variable {n N i j : Nat}

theorem cycle_succ : cycle n (N + 1) = cycle n N ++ [N % n] := by
  rw [cycle, List.range_succ, List.map_append]
  rfl

theorem count_cycle_eq (n N i : Nat) : (cycle n N).count i = Nat.count (· % n = i) N := by
  induction N with
  | zero => rfl
  | succ N ih =>
      rw [cycle_succ, List.count_append, ih, Nat.count_succ, List.count_singleton]
      simp only [beq_iff_eq]

theorem count_cycle (hi : i < n) : (cycle n N).count i = N / n + if i < N % n then 1
    else 0 := by
  have hmod : ∀ k, k % n = i ↔ k ≡ i [MOD n] := fun k => by
    rw [Nat.ModEq, Nat.mod_eq_of_lt hi]
  have hcount := Nat.count_modEq_card N (Nat.zero_lt_of_lt hi) i
  rw [Nat.mod_eq_of_lt hi] at hcount
  rw [count_cycle_eq, ← hcount]
  simp only [hmod]

theorem count_cycle_le (hi : i < n) (hj : j < n) :
    (cycle n N).count i ≤ (cycle n N).count j + 1 := by
  rw [count_cycle hi, count_cycle hj]
  split_ifs <;> omega

end

end Frozen.Lib
