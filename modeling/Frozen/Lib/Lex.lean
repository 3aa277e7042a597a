/-
# `Frozen.Lib.Lex` — the lexicographic order, piece by piece

A comparison that gets its two lists in pieces goes on as long as the pieces agree.

    compare_append      pieces of one length decide, or the rest does
    compare_replicate   nothing is larger than a piece of greatest elements
-/
import Mathlib.Tactic

namespace Frozen.Lib

variable {α : Type} [Ord α]

/-- The first pieces decide unless they are equal. -/
theorem compare_append {a b : List α} (h : a.length = b.length) (x y : List α) :
    compare (a ++ x) (b ++ y) = (compare a b).then (compare x y) := by
  induction a generalizing b with
  | nil =>
      obtain rfl := List.length_eq_zero_iff.mp h.symm
      rfl
  | cons c a ih =>
      cases b with
      | nil => cases h
      | cons d b =>
          rw [List.cons_append, List.cons_append, List.compare_cons_cons,
            List.compare_cons_cons, ih (Nat.succ.inj h), Ordering.then_assoc]

/-- The order of two lists is that of their first `k` elements, or of the rest. -/
theorem compare_split {a b : List α} {k : Nat} (ha : k ≤ a.length) (hb : k ≤ b.length) :
    compare a b = (compare (a.take k) (b.take k)).then
      (compare (a.drop k) (b.drop k)) := by
  have hlen : (a.take k).length = (b.take k).length := by
    rw [List.length_take_of_le ha, List.length_take_of_le hb]
  rw [← compare_append hlen, List.take_append_drop, List.take_append_drop]

/-- A list that is no longer than so many greatest elements is at most them. -/
theorem compare_replicate {top : α} (htop : ∀ c : α, compare c top ≠ .gt)
    {x : List α} {k : Nat} (hx : x.length ≤ k) :
    compare x (List.replicate k top) ≠ .gt := by
  induction k generalizing x with
  | zero =>
      obtain rfl := List.length_eq_zero_iff.mp (Nat.le_zero.mp hx)
      exact Ordering.noConfusion
  | succ k ih =>
      cases x with
      | nil => exact Ordering.noConfusion
      | cons c x =>
          rw [List.replicate_succ, List.compare_cons_cons]
          cases hc : compare c top with
          | lt => exact Ordering.noConfusion
          | gt => exact absurd hc (htop c)
          | eq => exact ih (Nat.le_of_succ_le_succ hx)

end Frozen.Lib
