/-
# `Frozen.Lib.Tally` — counting slots, and scanners that cannot come up empty

`tally n p` is the number of `j < n` with `p j`.  The lemmas are about what
happens to a tally when the predicate changes at one place.

A POOL is `n` slots some of which are available, and a number of scanners, each of
which passes once over the slots from left to right and takes the first available
one it meets.  Slots may become available behind a scanner's back.  `Covered` says
that from every position on there are at least as many available slots as scanners
still to come by; each move of a pool keeps it, and it is exactly what keeps a
scanner from reaching the end (`Covered.exists_slot`).
-/
import Mathlib.Data.Finset.Card
import Mathlib.Data.Finset.Range
import Mathlib.Tactic

namespace Frozen.Lib

open scoped Classical in
/-- How many `j < n` have `p j`. -/
noncomputable def tally (n : Nat) (p : Nat → Prop) : Nat :=
  ((Finset.range n).filter p).card

section Tally

variable {n i : Nat} {p q : Nat → Prop}

theorem tally_congr (h : ∀ j < n, p j ↔ q j) : tally n p = tally n q := by
  classical
  unfold tally
  congr 1
  ext j
  simp only [Finset.mem_filter, Finset.mem_range]
  exact and_congr_right fun hj => h j hj

theorem tally_mono (h : ∀ j < n, p j → q j) : tally n p ≤ tally n q := by
  classical
  unfold tally
  refine Finset.card_le_card fun j hj => ?_
  simp only [Finset.mem_filter, Finset.mem_range] at hj ⊢
  exact ⟨hj.1, h j hj.1 hj.2⟩

theorem tally_pos : 0 < tally n p ↔ ∃ j < n, p j := by
  classical
  unfold tally
  rw [Finset.card_pos]
  constructor
  · rintro ⟨j, hj⟩
    simp only [Finset.mem_filter, Finset.mem_range] at hj
    exact ⟨j, hj⟩
  · rintro ⟨j, hj⟩
    exact ⟨j, by simpa using hj⟩

theorem tally_eq_zero : tally n p = 0 ↔ ∀ j < n, ¬ p j := by
  have h := (tally_pos (n := n) (p := p)).not
  rw [Nat.pos_iff_ne_zero, not_not] at h
  rw [h]
  push Not
  rfl

theorem tally_eq_self : tally n p = n ↔ ∀ j < n, p j := by
  classical
  have hcard : tally n p = n ↔
      ((Finset.range n).filter p).card = (Finset.range n).card := by
    rw [Finset.card_range]
    rfl
  rw [hcard, Finset.card_filter_eq_iff]
  simp

/-- The predicate comes to hold at one more place. -/
theorem tally_insert (hi : i < n) (hp : ¬ p i) (hq : q i) (h : ∀ j, j ≠ i → (q j ↔ p j)) :
    tally n q = tally n p + 1 := by
  classical
  unfold tally
  rw [← Finset.card_insert_of_notMem (a := i) (s := (Finset.range n).filter p)]
  · congr 1
    ext j
    simp only [Finset.mem_insert, Finset.mem_filter, Finset.mem_range]
    by_cases hj : j = i
    · subst hj
      simp [hi, hq]
    · simp [hj, h j hj]
  · simp [hp]

section Table

variable {α : Type} (P : α → Bool) {f : Nat → α} {v : α}

/-- One entry of a table changes and gains the property, … -/
theorem tally_gain (hi : i < n) (hold : P (f i) = false) (hnew : P v = true) :
    tally n (fun j => P (Function.update f i v j) = true)
      = tally n (fun j => P (f j) = true) + 1 := by
  refine tally_insert hi (by simp [hold]) (by simp [hnew]) fun j hj => ?_
  rw [Function.update_of_ne hj]

/-- … or loses it, … -/
theorem tally_lose (hi : i < n) (hold : P (f i) = true) (hnew : P v = false) :
    tally n (fun j => P (Function.update f i v j) = true) + 1
      = tally n (fun j => P (f j) = true) := by
  refine (tally_insert hi (by simp [hnew]) hold fun j hj => ?_).symm
  rw [Function.update_of_ne hj]

/-- … or neither. -/
theorem tally_keep (h : P v = P (f i)) :
    tally n (fun j => P (Function.update f i v j) = true)
      = tally n (fun j => P (f j) = true) := by
  refine tally_congr fun j _ => ?_
  by_cases hj : j = i
  · rw [hj, Function.update_self, h]
  · rw [Function.update_of_ne hj]

end Table

end Tally

/-! ## Pools -/

/-- From every position on, as many available slots as scanners still to come by:
`pos c` is where scanner `c` will look next. -/
def Covered (n m : Nat) (avail : Nat → Prop) (pos : Nat → Option Nat) : Prop :=
  ∀ k, tally m (fun c => ∃ i, pos c = some i ∧ k ≤ i) ≤ tally n (fun j => k ≤ j ∧ avail j)

section Pool

variable {n m : Nat} {avail avail' : Nat → Prop} {pos pos' : Nat → Option Nat} {c i : Nat}

/-- A scanner always has a slot ahead. -/
theorem Covered.exists_slot (h : Covered n m avail pos) (hc : c < m)
    (hi : pos c = some i) : ∃ j < n, i ≤ j ∧ avail j := by
  refine tally_pos.mp (lt_of_lt_of_le (tally_pos.mpr ⟨c, hc, i, hi, le_rfl⟩) (h i))

/-- More slots do no harm. -/
theorem Covered.mono (h : Covered n m avail pos) (hsub : ∀ j < n, avail j → avail' j) :
    Covered n m avail' pos := fun k =>
  (h k).trans (tally_mono fun j hj hk => ⟨hk.1, hsub j hj hk.2⟩)

/-- Nor does a scanner that gives up or one that is somewhere else. -/
theorem Covered.congr (h : Covered n m avail pos) (hpos : ∀ c < m, pos' c = pos c) :
    Covered n m avail pos' := fun k => by
  rw [tally_congr (q := fun c => ∃ i, pos c = some i ∧ k ≤ i) fun c hc => by
    rw [hpos c hc]]
  exact h k

/-- A new scanner starts where some available slot is not spoken for. -/
theorem Covered.start (h : Covered n m avail pos) (hc : c < m) (hnone : pos c = none)
    (hroom : tally m (fun c => pos c ≠ none) < tally n avail)
    (hpos : pos' = Function.update pos c (some 0)) : Covered n m avail pos' := by
  intro k
  subst hpos
  rcases Nat.eq_zero_or_pos k with rfl | hk
  · have hone : tally m (fun d => ∃ i, Function.update pos c (some 0) d = some i ∧ 0 ≤ i)
        = tally m (fun c => pos c ≠ none) + 1 := by
      refine tally_insert hc (by simp [hnone]) ⟨0, by simp, le_rfl⟩ fun d hd => ?_
      rw [Function.update_of_ne hd]
      cases pos d <;> simp
    rw [hone]
    exact hroom.trans_le (tally_mono fun j _ hj => ⟨Nat.zero_le j, hj⟩)
  · refine le_trans (le_of_eq (tally_congr fun d _ => ?_)) (h k)
    by_cases hd : d = c
    · subst hd
      simp [hnone]
      omega
    · rw [Function.update_of_ne hd]

/-- A scanner passes a slot that is not available. -/
theorem Covered.miss (h : Covered n m avail pos) (hc : c < m) (hi : pos c = some i)
    (hmiss : ¬ avail i) (hpos : pos' = Function.update pos c (some (i + 1))) :
    Covered n m avail pos' := by
  intro k
  subst hpos
  have hsame : ∀ d, d ≠ c → ∀ k,
      (∃ l, Function.update pos c (some (i + 1)) d = some l ∧ k ≤ l) ↔
      ∃ l, pos d = some l ∧ k ≤ l := by
    intro d hd k
    rw [Function.update_of_ne hd]
  by_cases hk : k = i + 1
  · -- the scanner counted at `i` before, and the slot at `i` did not
    subst hk
    have hmore : tally m (fun d => ∃ l, pos d = some l ∧ i ≤ l)
        ≥ tally m (fun d => ∃ l, Function.update pos c (some (i + 1)) d = some l ∧
          i + 1 ≤ l) := by
      refine tally_mono fun d _ hd => ?_
      by_cases hdc : d = c
      · subst hdc
        exact ⟨i, hi, le_rfl⟩
      · obtain ⟨l, hl, hle⟩ := (hsame d hdc (i + 1)).mp hd
        exact ⟨l, hl, by omega⟩
    refine le_trans hmore (le_trans (h i) (tally_mono fun j _ hj => ⟨?_, hj.2⟩))
    rcases Nat.lt_or_ge i j with hlt | hge
    · exact hlt
    · have : j = i := le_antisymm hge hj.1
      exact absurd (this ▸ hj.2) hmiss
  · refine le_trans (le_of_eq (tally_congr fun d _ => ?_)) (h k)
    by_cases hd : d = c
    · subst hd
      rw [Function.update_self, hi]
      simp
      omega
    · exact hsame d hd k

/-- A scanner takes the slot it stands at. -/
theorem Covered.take (h : Covered n m avail pos) (hc : c < m) (hi : pos c = some i)
    (hin : i < n) (hav : avail i) (hpos : pos' = Function.update pos c none)
    (hnow : ∀ j, avail' j ↔ avail j ∧ j ≠ i) : Covered n m avail' pos' := by
  intro k
  subst hpos
  have hk := h k
  rcases Nat.lt_or_ge i k with hlt | hge
  · -- neither counted
    refine le_trans (le_of_eq (tally_congr fun d _ => ?_))
      (le_trans hk (le_of_eq (tally_congr fun j _ => ?_)))
    · by_cases hd : d = c
      · subst hd
        simp [hi]
        omega
      · rw [Function.update_of_ne hd]
    · rw [hnow]
      constructor
      · rintro ⟨hj, ha⟩
        exact ⟨hj, ha, by omega⟩
      · rintro ⟨hj, ha, -⟩
        exact ⟨hj, ha⟩
  · -- both counted
    have hs : tally m (fun d => ∃ l, pos d = some l ∧ k ≤ l)
        = tally m (fun d => ∃ l, Function.update pos c none d = some l ∧ k ≤ l) + 1 := by
      refine tally_insert hc (by simp) ⟨i, hi, hge⟩ fun d hd => ?_
      rw [Function.update_of_ne hd]
    have ha : tally n (fun j => k ≤ j ∧ avail j)
        = tally n (fun j => k ≤ j ∧ avail' j) + 1 := by
      refine tally_insert hin (by simp [hnow]) ⟨hge, hav⟩ fun j hj => ?_
      simp [hnow, hj]
    omega

end Pool

end Frozen.Lib
