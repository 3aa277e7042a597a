/-
# `Frozen.Lib.Rank` — ranking by a key, ties by position

The positions below `n` that are wanted, in the order of their keys; of two with one key
the first comes first.  `shortest` is how much of a ranking has to go until what is left
of a sum is below a limit: what is left is below it (`shortest_enough`), and with less
gone it is not (`shortest_needed`).
-/
import Mathlib.Tactic
import Mathlib.Data.List.Sort

namespace Frozen.Lib

/-! ## Ranking -/

/-- `i` comes before `j`. -/
def Before (key : Nat → Nat) (i j : Nat) : Prop := key i < key j ∨ key i = key j ∧ i < j

instance (key : Nat → Nat) : DecidableRel (Before key) := fun i j =>
  inferInstanceAs (Decidable (key i < key j ∨ key i = key j ∧ i < j))

/-- `i` comes before `j` or is it. -/
abbrev NotAfter (key : Nat → Nat) (i j : Nat) : Prop := ¬ Before key j i

theorem notAfter_total (key : Nat → Nat) (i j : Nat) :
    NotAfter key i j ∨ NotAfter key j i := by
  unfold NotAfter Before
  omega

theorem notAfter_trans {key : Nat → Nat} {i j k : Nat} (hij : NotAfter key i j)
    (hjk : NotAfter key j k) : NotAfter key i k := by
  unfold NotAfter Before at *
  omega

instance (key : Nat → Nat) : Std.Total (NotAfter key) := ⟨notAfter_total key⟩

instance (key : Nat → Nat) : IsTrans Nat (NotAfter key) := ⟨fun _ _ _ => notAfter_trans⟩

theorem before_of_notAfter {key : Nat → Nat} {i j : Nat} (h : NotAfter key i j)
    (hne : i ≠ j) : Before key i j := by
  unfold NotAfter Before at *
  omega

/-- The wanted positions below `n`, in order. -/
def rank (n : Nat) (wanted : Nat → Bool) (key : Nat → Nat) : List Nat :=
  ((List.range n).filter wanted).insertionSort (NotAfter key)

section

variable {n : Nat} {wanted : Nat → Bool} {key : Nat → Nat} {i : Nat}

theorem mem_rank : i ∈ rank n wanted key ↔ i < n ∧ wanted i = true := by
  rw [rank, List.mem_insertionSort, List.mem_filter, List.mem_range]

theorem nodup_rank : (rank n wanted key).Nodup :=
  (List.perm_insertionSort (NotAfter key) _).nodup_iff.mpr (List.nodup_range.filter _)

theorem pairwise_rank : (rank n wanted key).Pairwise (Before key) := by
  have hsorted :=
    List.pairwise_insertionSort (NotAfter key) ((List.range n).filter wanted)
  exact hsorted.imp₂ (fun _ _ => before_of_notAfter) nodup_rank

end

/-! ## The shortest prefix -/

/-- How much has to go of what weighs `total`. -/
def shortest (limit : Nat) (weight : Nat → Nat) : Nat → List Nat → List Nat
  | _, [] => []
  | total, i :: is =>
      if total < limit then [] else i :: shortest limit weight (total - weight i) is

variable {limit : Nat} {weight : Nat → Nat}

theorem shortest_front :
    ∀ {total : Nat} {is : List Nat}, shortest limit weight total is <+: is
  | _, [] => List.prefix_rfl
  | total, i :: is => by
      rw [shortest]
      split
      · exact List.nil_prefix
      · exact List.cons_prefix_cons.mpr ⟨rfl, shortest_front⟩

/-- What is left is below the limit. -/
theorem shortest_enough (hlimit : 0 < limit) :
    ∀ {total : Nat} {is : List Nat}, (is.map weight).sum = total →
    total - ((shortest limit weight total is).map weight).sum < limit
  | _, [], rfl => hlimit
  | total, i :: is, hsum => by
      rw [List.map_cons, List.sum_cons] at hsum
      rw [shortest]
      split
      next hlt => simpa using hlt
      next =>
        have hrest := @shortest_enough hlimit (total - weight i) is (by omega)
        rw [List.map_cons, List.sum_cons, ← Nat.sub_sub]
        exact hrest

/-- With less gone it is not. -/
theorem shortest_needed : ∀ {total : Nat} {is p q : List Nat} {x : Nat},
    shortest limit weight total is = p ++ x :: q → limit ≤ total - (p.map weight).sum
  | _, [], p, q, x, h => by simp [shortest] at h
  | total, i :: is, p, q, x, h => by
      rw [shortest] at h
      split at h
      next => simp at h
      next hge =>
        cases p with
        | nil => simpa using hge
        | cons y p =>
            obtain ⟨rfl, hrest⟩ := List.cons.inj h
            have hle := shortest_needed hrest
            rw [List.map_cons, List.sum_cons, ← Nat.sub_sub]
            exact hle

end Frozen.Lib
