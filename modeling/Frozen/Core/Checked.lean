/-
# `Frozen.Core.Checked` — `safe_mul` and `safe_pow` with their result variable

Both tell from a division whether a product fits: `__MAX(uintmax_t) / x <= t` refuses
it.  This is stricter than needed, by at most a factor of two.  `safe_mul` looks for a
zero before it divides, `safe_pow` does not.

    checked_iff   when both end and are what they should be
-/
import Frozen.Core.Base
import Frozen.Lib.Fuel

namespace Frozen.Checked

open Lib

/-! ## The functions -/

/-- Why a call does not come back. -/
inductive Halt where
  | outOfFuel
  | dividedByZero
deriving DecidableEq

/-- `x / y` -/
def quotient (x y : UInt64) : Except Halt UInt64 :=
  if y = 0 then .error .dividedByZero else .ok (x / y)

/-- `while(--y >= 1)`: `none` is the way out with `-EINVAL`. -/
def powLoop (x : UInt64) : Nat → UInt64 → UInt64 → Except Halt (Option UInt64)
  | 0, _, _ => .error .outOfFuel
  | n + 1, y, t =>
      let y := y - 1
      if 1 ≤ y then do
        let q ← quotient uintmaxMax x
        if q ≤ t then .ok none else powLoop x n y (t * x)
      else .ok (some t)

/-- `safe_pow`: the answer and `*res`. -/
def safePow (n : Nat) (res x y : UInt64) : Except Halt (Int × UInt64) :=
  if y = 0 then .ok (0, 1)
  else if y = 1 then .ok (0, x)
  else do
    match ← powLoop x n y x with
    | none => .ok (-EINVAL, res)
    | some t => .ok (0, t)

/-- `safe_mul`: the answer and `*res`. -/
def safeMul (res x y : UInt64) : Except Halt (Int × UInt64) :=
  if x = 0 ∨ y = 0 then .ok (0, 0)
  else do
    let q ← quotient uintmaxMax x
    if q ≤ y then .ok (-EINVAL, res) else .ok (0, x * y)

/-! ## What they should be -/

/-- An answer and `*res`, for a result `z` in the integers. -/
structure Exact (res : UInt64) (z : Nat) (r : Int × UInt64) : Prop where
  value : r.1 = 0 → r.2.toNat = z
  kept : r.1 ≠ 0 → r.1 < 0 ∧ r.2 = res
  enough : 2 * z < 2 ^ 64 - 1 → r.1 = 0

/-- Both functions end, and are exact. -/
def Sound (x y : UInt64) : Prop :=
  ∀ res, (∃ r, safeMul res x y = .ok r ∧ Exact res (x.toNat * y.toNat) r) ∧
    ∃ r, Returns (fun n => safePow n res x y) r ∧ Exact res (x.toNat ^ y.toNat) r

/-! ## Products -/

theorem mul_lt_of_lt_div {x t : UInt64} (h : ¬ uintmaxMax / x ≤ t) :
    x.toNat * t.toNat < 2 ^ 64 := by
  have hlt : t.toNat < uintmaxMax.toNat / x.toNat := by
    rw [← UInt64.toNat_div]
    exact UInt64.lt_iff_toNat_lt.mp (UInt64.not_le.mp h)
  have hmax : uintmaxMax.toNat < 2 ^ 64 := by decide
  calc x.toNat * t.toNat ≤ x.toNat * (uintmaxMax.toNat / x.toNat) :=
         Nat.mul_le_mul_left _ hlt.le
    _ ≤ uintmaxMax.toNat := Nat.mul_div_le _ _
    _ < 2 ^ 64 := hmax

theorem toNat_pos {x : UInt64} (h : x ≠ 0) : 0 < x.toNat :=
  Nat.pos_of_ne_zero fun h0 => h (UInt64.toNat_inj.mp h0)

theorem le_of_div_le {x t : UInt64} (hx : x ≠ 0) (ht : t ≠ 0) (h : uintmaxMax / x ≤ t) :
    2 ^ 64 - 1 ≤ 2 * (x.toNat * t.toNat) := by
  have hxpos : 0 < x.toNat := toNat_pos hx
  have htpos : 0 < t.toNat := toNat_pos ht
  have hmax : uintmaxMax.toNat = 2 ^ 64 - 1 := by decide
  have hle : (2 ^ 64 - 1) / x.toNat ≤ t.toNat := by
    rw [← hmax, ← UInt64.toNat_div]
    exact UInt64.le_iff_toNat_le.mp h
  have hdiv : 2 ^ 64 - 1 < x.toNat * ((2 ^ 64 - 1) / x.toNat + 1) :=
    Nat.lt_mul_div_succ _ hxpos
  have hmul : x.toNat * ((2 ^ 64 - 1) / x.toNat + 1) ≤ x.toNat * (t.toNat + 1) :=
    Nat.mul_le_mul_left _ (Nat.succ_le_succ hle)
  have hself : x.toNat ≤ x.toNat * t.toNat := Nat.le_mul_of_pos_right _ htpos
  have hnext : x.toNat * (t.toNat + 1) = x.toNat * t.toNat + x.toNat := Nat.mul_succ _ _
  omega

/-! ## Results in the integers -/

/-- Refused, or a result, as an answer and `*res`. -/
def answer (res : UInt64) : Option UInt64 → Int × UInt64
  | none => (-EINVAL, res)
  | some z => (0, z)

theorem safeMul_eq (res x y : UInt64) :
    safeMul res x y = .ok (answer res (Frozen.safeMul x y)) := by
  unfold safeMul Frozen.safeMul
  by_cases hzero : x = 0 ∨ y = 0
  · rw [if_pos hzero, if_pos hzero]
    rfl
  · have hquot : quotient uintmaxMax x = .ok (uintmaxMax / x) :=
      if_neg (not_or.mp hzero).1
    rw [if_neg hzero, if_neg hzero, hquot]
    by_cases hle : uintmaxMax / x ≤ y
    · rw [if_pos hle]
      exact if_pos hle
    · rw [if_neg hle]
      exact if_neg hle

/-- The result is the one in the integers, and only a large one is refused. -/
theorem exact_answer {res : UInt64} {z : Nat} {o : Option UInt64}
    (hvalue : ∀ r, o = some r → r.toNat = z) (hlarge : o = none → 2 ^ 64 - 1 ≤ 2 * z) :
    Exact res z (answer res o) := by
  cases o with
  | none =>
      have hneg : -EINVAL < 0 := by decide
      refine ⟨fun h => absurd h hneg.ne, fun _ => ⟨hneg, rfl⟩, fun hsmall => ?_⟩
      exact absurd (hlarge rfl) (Nat.not_le.mpr hsmall)
  | some r => exact ⟨fun _ => hvalue r rfl, fun h => absurd rfl h, fun _ => rfl⟩

theorem safeMul_toNat {x y z : UInt64} (h : Frozen.safeMul x y = some z) :
    z.toNat = x.toNat * y.toNat := by
  unfold Frozen.safeMul at h
  split_ifs at h with hzero hle
  · cases h
    rcases hzero with rfl | rfl <;> simp
  · cases h
    rw [UInt64.toNat_mul, Nat.mod_eq_of_lt (mul_lt_of_lt_div hle)]

theorem le_of_safeMul_none {x y : UInt64} (h : Frozen.safeMul x y = none) :
    2 ^ 64 - 1 ≤ 2 * (x.toNat * y.toNat) := by
  unfold Frozen.safeMul at h
  split_ifs at h with hzero hle
  obtain ⟨hx, hy⟩ := not_or.mp hzero
  exact le_of_div_le hx hy hle

theorem safeMul_exact (res x y : UInt64) :
    Exact res (x.toNat * y.toNat) (answer res (Frozen.safeMul x y)) :=
  exact_answer (fun _ => safeMul_toNat) le_of_safeMul_none

theorem toNat_round {x t : UInt64} (h : ¬ uintmaxMax / x ≤ t) :
    (t * x).toNat = x.toNat * t.toNat := by
  rw [UInt64.toNat_mul, Nat.mul_comm, Nat.mod_eq_of_lt (mul_lt_of_lt_div h)]

theorem safePowLoop_exact {x : UInt64} (hx : x ≠ 0) (n : Nat) :
    ∀ {t : UInt64}, t ≠ 0 →
      (∀ r, safePowLoop x n t = some r → r.toNat = t.toNat * x.toNat ^ n) ∧
      (safePowLoop x n t = none → 2 ^ 64 - 1 ≤ 2 * (t.toNat * x.toNat ^ n)) := by
  induction n with
  | zero =>
      intro t _
      refine ⟨fun r hr => ?_, nofun⟩
      rw [← Option.some_inj.mp hr, pow_zero, Nat.mul_one]
  | succ n ih =>
      intro t ht
      have hpow : t.toNat * x.toNat ^ (n + 1) = x.toNat * t.toNat * x.toNat ^ n := by ring
      rw [safePowLoop, hpow]
      by_cases hle : uintmaxMax / x ≤ t
      · rw [if_pos hle]
        refine ⟨nofun, fun _ => ?_⟩
        calc 2 ^ 64 - 1 ≤ 2 * (x.toNat * t.toNat) := le_of_div_le hx ht hle
          _ ≤ 2 * (x.toNat * t.toNat * x.toNat ^ n) :=
            Nat.mul_le_mul_left 2 (Nat.le_mul_of_pos_right _ (Nat.pow_pos (toNat_pos hx)))
      · have hround := toNat_round hle
        have hnext : t * x ≠ 0 := by
          intro h0
          rw [h0] at hround
          exact absurd hround.symm (Nat.mul_pos (toNat_pos hx) (toNat_pos ht)).ne'
        rw [if_neg hle, ← hround]
        exact ih hnext

theorem safePow_exact {x y : UInt64} (res : UInt64) (h : x ≠ 0 ∨ y.toNat < 2) :
    Exact res (x.toNat ^ y.toNat) (answer res (Frozen.safePow x y)) := by
  unfold Frozen.safePow
  by_cases hzero : y = 0
  · rw [if_pos hzero, hzero]
    exact exact_answer (fun r hr => by rw [← Option.some_inj.mp hr]; rfl) nofun
  · rw [if_neg hzero]
    by_cases hone : y = 1
    · rw [if_pos hone, hone]
      refine exact_answer (fun r hr => ?_) nofun
      rw [← Option.some_inj.mp hr]
      exact (pow_one x.toNat).symm
    · rw [if_neg hone]
      have hmany : 2 ≤ y.toNat := by
        have hne : y.toNat ≠ 1 := fun h1 => hone (UInt64.toNat_inj.mp h1)
        exact (Nat.succ_le_of_lt (toNat_pos hzero)).lt_of_ne' hne
      have hx : x ≠ 0 := h.resolve_right (Nat.not_lt.mpr hmany)
      have hpow : x.toNat ^ y.toNat = x.toNat * x.toNat ^ (y.toNat - 1) := by
        rw [← Nat.pow_succ', Nat.succ_eq_add_one,
          Nat.sub_add_cancel (Nat.le_of_succ_le hmany)]
      obtain ⟨hvalue, hlarge⟩ := safePowLoop_exact hx (y.toNat - 1) hx
      rw [hpow]
      exact exact_answer hvalue hlarge

/-! ## The loop -/

theorem toNat_pred {y : UInt64} (hy : y ≠ 0) : (y - 1).toNat = y.toNat - 1 :=
  UInt64.toNat_sub_of_le _ _ (UInt64.le_iff_toNat_le.mpr (toNat_pos hy))

/-- The loop runs as many rounds as `y` says, less one. -/
theorem powLoop_returns {x : UInt64} (hx : x ≠ 0) (k : Nat) :
    ∀ {y t : UInt64}, y.toNat = k + 1 →
      Returns (fun n => powLoop x n y t) (safePowLoop x k t) := by
  have hquot : quotient uintmaxMax x = .ok (uintmaxMax / x) := if_neg hx
  induction k with
  | zero =>
      intro y t hy
      have hpred : ¬ 1 ≤ y - 1 := by
        have hone : y = 1 := UInt64.toNat_inj.mp hy
        rw [hone]
        decide
      refine .of_succ (.of_forall fun n => ?_)
      rw [powLoop]
      exact if_neg hpred
  | succ k ih =>
      intro y t hy
      have hy₀ : y ≠ 0 := by
        rintro rfl
        cases hy
      have hpred : (y - 1).toNat = k + 1 := by rw [toNat_pred hy₀, hy, Nat.add_sub_cancel]
      have hmore : 1 ≤ y - 1 :=
        UInt64.le_iff_toNat_le.mpr (by rw [hpred]; exact Nat.le_add_left 1 k)
      refine .of_succ ?_
      simp only [powLoop, safePowLoop, if_pos hmore, hquot]
      by_cases hle : uintmaxMax / x ≤ t
      · rw [if_pos hle]
        exact .of_forall fun n => if_pos hle
      · rw [if_neg hle]
        obtain ⟨N, hN⟩ := @ih (y - 1) (t * x) hpred
        exact ⟨N, fun n hn => (if_neg hle).trans (hN n hn)⟩

theorem safePow_returns {x y : UInt64} (res : UInt64) (h : x ≠ 0 ∨ y.toNat < 2) :
    Returns (fun n => safePow n res x y) (answer res (Frozen.safePow x y)) := by
  unfold safePow Frozen.safePow
  by_cases hzero : y = 0
  · simp only [if_pos hzero]
    exact .of_forall fun _ => rfl
  · by_cases hone : y = 1
    · simp only [if_neg hzero, if_pos hone]
      exact .of_forall fun _ => rfl
    · have hne : y.toNat ≠ 1 := fun h1 => hone (UInt64.toNat_inj.mp h1)
      have hmany : 2 ≤ y.toNat := (Nat.succ_le_of_lt (toNat_pos hzero)).lt_of_ne' hne
      have hx : x ≠ 0 := h.resolve_right (Nat.not_lt.mpr hmany)
      simp only [if_neg hzero, if_neg hone]
      have hrun := powLoop_returns hx (y.toNat - 1) (y := y) (t := x)
          (Nat.sub_add_cancel (Nat.le_of_succ_le hmany)).symm
      refine hrun.bind (.of_forall fun n => ?_)
      cases safePowLoop x (y.toNat - 1) x with
      | none => rfl
      | some t => rfl

/-- A power of zero divides in the first round. -/
theorem safePow_zero (res : UInt64) {y : UInt64} (hy : 2 ≤ y.toNat) :
    Fails (fun n => safePow n res 0 y) .dividedByZero := by
  have hzero : y ≠ 0 := by
    rintro rfl
    cases hy
  have hone : y ≠ 1 := by
    rintro rfl
    exact absurd hy (by decide)
  have hmore : 1 ≤ y - 1 := by
    rw [UInt64.le_iff_toNat_le, toNat_pred hzero]
    exact Nat.le_sub_of_add_le hy
  refine .of_succ (.of_forall fun n => ?_)
  simp only [safePow, if_neg hzero, if_neg hone, powLoop, if_pos hmore]
  rfl

/-- Both functions are sound except for a power of zero that is not one or zero. -/
theorem checked_iff (x y : UInt64) : Sound x y ↔ x ≠ 0 ∨ y.toNat < 2 := by
  constructor
  · intro hsound
    by_contra hno
    obtain ⟨hx, hy⟩ := not_or.mp hno
    rw [not_not] at hx
    subst hx
    obtain ⟨r, hrun, -⟩ := (hsound 0).2
    exact (safePow_zero 0 (Nat.not_lt.mp hy)).not_returns hrun
  · exact fun h res => ⟨⟨_, safeMul_eq res x y, safeMul_exact res x y⟩, _,
      safePow_returns res h, safePow_exact res h⟩

/-- `0 ^ 2` -/
theorem pow_divides_by_zero : Fails (fun n => safePow n 7 0 2) .dividedByZero ∧
    ¬ Sound 0 2 := by
  have hfails : ∀ res, Fails (fun n => safePow n res 0 2) .dividedByZero :=
    fun res => safePow_zero res (by decide)
  refine ⟨hfails 7, fun hsound => ?_⟩
  obtain ⟨r, hrun, -⟩ := (hsound 0).2
  exact (hfails 0).not_returns hrun

end Frozen.Checked
