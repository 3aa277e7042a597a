/-
# `Frozen.Data.Arith` — checked arithmetic of integers

One source file has the arithmetic of all integer types.  Its tests for overflow are
those of unsigned operands: what is left up to the greatest value, what is above the
least one, the quotient by the second factor.  Types narrower than `int` are computed
with in `int`; in the wider signed types the tests, and the operations behind them, can
overflow themselves, and what that does is not the language's to say.  `Overflow` is
what the compiler makes of it.

    arith_checked_iff   when the arithmetic is checked: for which operands of which types
-/
import Frozen.Data.Scalar
import Frozen.Lib.Word

namespace Frozen.Data

open Lib Binary

def EOVERFLOW : Int := 75

/-! ## Types -/

/-- The values of `TYPE`. -/
def word (t : IntType) : Word :=
  ⟨signed t, 8 * t.bytes, Nat.mul_pos (by decide) t.bytes_pos⟩

/-- `int`. -/
def cInt : Word := ⟨true, 32, by decide⟩

/-- `TYPE` is narrower than `int`. -/
def narrow (t : IntType) : Bool := t.bytes < 4

/-- The type in which operands of `TYPE` are computed with. -/
def promote (t : IntType) : Word := if narrow t then cInt else word t

/-- `__MAX_SIGNED`. -/
def maxSigned (t : IntType) : Int := 2 ^ (t.bytes * 8 - 2) - 1 + 2 ^ (t.bytes * 8 - 2)

/-- `__MIN`. -/
def minOf (t : IntType) : Int := if (word t).wrap (-1) < 1 then -1 - maxSigned t else 0

/-- `__MAX`: the complement of the least value. -/
def maxOf (t : IntType) : Int := (word t).wrap (-1 - minOf t)

/-! ## Expressions -/

/-- What a signed operation does whose result its type does not hold: there is nothing
to rely on, or the result is taken modulo the width. -/
inductive Overflow where
  | undefined
  | wraps
deriving DecidableEq, Repr

namespace Overflow

variable (o : Overflow) (P : Word)

/-- A result that can be relied on. -/
def Defined (z : Int) : Prop := P.signed = true → o = .undefined → P.Holds z

instance (z : Int) : Decidable (o.Defined P z) := inferInstanceAs (Decidable (_ → _ → _))

/-- A sum, difference or product in a type, from its exact value. -/
def eval (z : Int) : Option Int := if o.Defined P z then some (P.wrap z) else none

end Overflow

/-- `x / y` in a type; where it overflows, the processor traps. -/
def quotient (P : Word) (x y : Int) : Option Int :=
  if P.Holds (x.tdiv y) then some (x.tdiv y) else none

/-! ## The handlers -/

inductive ArithAction where
  | add | sub | multiply | divide | increment | decrement
deriving DecidableEq, Repr

section

variable (o : Overflow) (t : IntType) (action : ArithAction)

/-- `data_NAME_arith`: the answer, and what is stored. -/
def arith (data₁ : BitVec (word t).width) (data₂ : Option (BitVec (word t).width)) :
    Option (Int × BitVec (word t).width) :=
  match data₂ with
  | none => some (-EINVAL, data₁)
  | some data₂ =>
      let operand₁ := (word t).value data₁
      let operand₂ := (word t).value data₂
      match action with
      | .add => do
          let bound ← o.eval (promote t) (maxOf t - operand₁)
          let result ← o.eval (promote t) (operand₁ + operand₂)
          some (if bound < operand₂ then -EOVERFLOW else 0, .ofInt _ result)
      | .sub => do
          let bound ← o.eval (promote t) (minOf t + operand₂)
          let result ← o.eval (promote t) (operand₁ - operand₂)
          some (if bound > operand₁ then -EOVERFLOW else 0, .ofInt _ result)
      | .multiply =>
          if operand₂ = 0 then some (0, 0)
          else do
            let bound ← quotient (promote t) (maxOf t) operand₂
            let result ← o.eval (promote t) (operand₁ * operand₂)
            some (if operand₁ > bound then -EOVERFLOW else 0, .ofInt _ result)
      | .divide =>
          if operand₂ = 0 then some (-EINVAL, data₁)
          else do
            let result ← quotient (promote t) operand₁ operand₂
            some (0, .ofInt _ result)
      | _ => some (-1, data₁)

/-- `data_NAME_arith_no_arg`. -/
def arithNoArg (data₁ : BitVec (word t).width) : Option (Int × BitVec (word t).width) :=
  let operand₁ := (word t).value data₁
  match action with
  | .increment => do
      let bound ← o.eval (promote t) (maxOf t - operand₁)
      let result ← o.eval (promote t) (operand₁ + 1)
      some (if bound < 1 then -EOVERFLOW else 0, .ofInt _ result)
  | .decrement => do
      let bound ← o.eval (promote t) (minOf t + 1)
      let result ← o.eval (promote t) (operand₁ - 1)
      some (if bound > operand₁ then -EOVERFLOW else 0, .ofInt _ result)
  | _ => some (-1, data₁)

/-- The handler of an action, as the table of the type has it. -/
def perform (data₁ data₂ : BitVec (word t).width) :
    Option (Int × BitVec (word t).width) :=
  match action with
  | .add | .sub | .multiply | .divide => arith o t action data₁ (some data₂)
  | .increment | .decrement => arithNoArg o t action data₁

end

/-! ## What it should do -/

/-- The mathematical result. -/
def ArithAction.exact (action : ArithAction) (a b : Int) : Option Int :=
  match action with
  | .add => some (a + b)
  | .sub => some (a - b)
  | .multiply => some (a * b)
  | .divide => if b = 0 then none else some (a.tdiv b)
  | .increment => some (a + 1)
  | .decrement => some (a - 1)

/-- A run that overflows exactly if the type does not hold the result, and has stored it
otherwise. -/
def Answers (t : IntType) (z : Int) (run : Option (Int × BitVec (word t).width)) : Prop :=
  ∃ ret c, run = some (ret, c) ∧ (ret = 0 ∨ ret = -EOVERFLOW) ∧
    (ret = -EOVERFLOW ↔ ¬ (word t).Holds z) ∧ (ret = 0 → (word t).value c = z)

/-- One operation is checked. -/
def Checked (o : Overflow) (t : IntType) (action : ArithAction)
    (data₁ data₂ : BitVec (word t).width) : Prop :=
  match action.exact ((word t).value data₁) ((word t).value data₂) with
  | none => ∃ c, perform o t action data₁ data₂ = some (-EINVAL, c)
  | some z => Answers t z (perform o t action data₁ data₂)

/-- The operands for which the tests are right. -/
def Tested (o : Overflow) (t : IntType) (action : ArithAction) (a b : Int) : Prop :=
  match action with
  | .add => o.Defined (promote t) (a + b) ∧
      (signed t → if narrow t then (word t).min ≤ a + b else 0 ≤ a)
  | .sub => o.Defined (promote t) (a - b) ∧
      (signed t → if narrow t then a - b ≤ (word t).max else 0 ≤ b)
  | .multiply => o.Defined (promote t) (a * b) ∧
      (b = 0 ∨ 0 < b ∧ (word t).min ≤ a * b ∨
        b < 0 ∧ (a = (word t).max.tdiv b ∨ a * b < (word t).min))
  | .divide => ¬ (signed t ∧ a = (word t).min ∧ b = -1)
  | .increment => o.Defined (promote t) (a + 1) ∧ (signed t → narrow t ∨ 0 ≤ a)
  | .decrement => o.Defined (promote t) (a - 1)

instance (o : Overflow) (t : IntType) (action : ArithAction) (a b : Int) :
    Decidable (Tested o t action a b) := by
  unfold Tested
  split <;> infer_instance

/-! ## Ranges -/

theorem minOf_eq (t : IntType) : minOf t = (word t).min := by
  cases t <;> decide

theorem maxOf_eq (t : IntType) : maxOf t = (word t).max := by
  cases t <;> decide

/-- The narrow types are far from filling `int`. -/
theorem narrow_range {t : IntType} (h : narrow t = true) :
    -32768 ≤ (word t).min ∧ (word t).max ≤ 65535 := by
  cases t <;> first | decide | cases h

theorem promote_narrow {t : IntType} (h : narrow t = true) : promote t = cInt := if_pos h

theorem promote_wide {t : IntType} (h : narrow t = false) : promote t = word t := by
  rw [promote, h]
  rfl

theorem width_le_promote (t : IntType) : (word t).width ≤ (promote t).width := by
  cases t <;> decide

theorem cInt_holds {z : Int} (hmin : -2147483648 ≤ z) (hmax : z ≤ 2147483647) :
    cInt.Holds z := ⟨hmin, hmax⟩

namespace Overflow

variable {o : Overflow} {P : Word} {z : Int}

theorem defined_of_holds (h : P.Holds z) : o.Defined P z := fun _ _ => h

end Overflow

/-! ## Runs -/

section

variable {o : Overflow} {t : IntType} {z : Int}

theorem answers_bind {z₁ : Int} {f : Int → Option (Int × BitVec (word t).width)} :
    Answers t z (o.eval (promote t) z₁ >>= f) ↔
      o.Defined (promote t) z₁ ∧ Answers t z (f ((promote t).wrap z₁)) := by
  unfold Overflow.eval
  split_ifs with hdef
  · exact (and_iff_right hdef).symm
  · refine iff_of_false ?_ fun h => hdef h.1
    rintro ⟨ret, c, hrun, -⟩
    cases hrun

theorem answers_eval {T : Prop} [Decidable T] :
    Answers t z (do
      let result ← o.eval (promote t) z
      some (if T then -EOVERFLOW else 0, .ofInt _ result)) ↔
      o.Defined (promote t) z ∧ (T ↔ ¬ (word t).Holds z) := by
  rw [answers_bind]
  refine and_congr_right fun _ => ?_
  have hstored : (word t).value (.ofInt _ ((promote t).wrap z)) = (word t).wrap z :=
    (word t).wrap_wrap (width_le_promote t) z
  have hret : (if T then -EOVERFLOW else 0) = -EOVERFLOW ↔ T := by
    split_ifs with hT
    · exact iff_of_true rfl hT
    · exact iff_of_false (by decide) hT
  constructor
  · rintro ⟨ret, c, hrun, -, hiff, -⟩
    obtain ⟨rfl, -⟩ := Prod.mk.inj (Option.some.inj hrun)
    rw [← hiff, hret]
  · intro hT
    refine ⟨_, _, rfl, ?_, hret.trans hT, fun hzero => ?_⟩
    · split_ifs
      · exact .inr rfl
      · exact .inl rfl
    · rw [hstored]
      refine (word t).wrap_of_holds (not_not.mp fun hout => ?_)
      rw [if_pos (hT.mpr hout)] at hzero
      exact absurd hzero (by decide)

end

/-! ## Tests -/

section

variable {o : Overflow} {t : IntType} {a b : Int}

theorem not_holds_iff {W : Word} {z : Int} : ¬ W.Holds z ↔ z < W.min ∨ W.max < z := by
  unfold Word.Holds
  omega

/-- Only in the wider signed types a bound can overflow. -/
theorem bound_cases (t : IntType) :
    (narrow t = true ∧ promote t = cInt ∧ -32768 ≤ (word t).min ∧ (word t).max ≤ 65535 ∧
        (signed t = false → (word t).min = 0)) ∨
      (narrow t = false ∧ promote t = word t ∧ signed t = false ∧ (word t).min = 0) ∨
      (narrow t = false ∧ promote t = word t ∧ signed t = true ∧
        (word t).min = -(word t).max - 1) := by
  cases hn : narrow t with
  | true =>
      obtain ⟨hlow, hhigh⟩ := narrow_range hn
      exact .inl ⟨rfl, promote_narrow hn, hlow, hhigh, (word t).min_of_unsigned⟩
  | false =>
      cases hs : signed t with
      | false =>
          exact .inr (.inl ⟨rfl, promote_wide hn, rfl, (word t).min_of_unsigned hs⟩)
      | true => exact .inr (.inr ⟨rfl, promote_wide hn, rfl, (word t).min_of_signed hs⟩)

theorem bound_iff {P : Word} {z : Int} {D N : Prop} {T : Int → Prop} (h : P.Holds z) :
    (o.Defined P z ∧ D ∧ (T (P.wrap z) ↔ N)) ↔ D ∧ (T z ↔ N) := by
  rw [and_iff_right (Overflow.defined_of_holds h), P.wrap_of_holds h]

theorem add_tested (ha : (word t).Holds a) (hb : (word t).Holds b) :
    (o.Defined (promote t) (maxOf t - a) ∧ o.Defined (promote t) (a + b) ∧
      ((promote t).wrap (maxOf t - a) < b ↔ ¬ (word t).Holds (a + b))) ↔
        Tested o t .add a b := by
  obtain ⟨hamin, hamax⟩ := ha
  obtain ⟨hbmin, hbmax⟩ := hb
  rw [maxOf_eq, not_holds_iff, Tested]
  rcases bound_cases t with ⟨hn, hp, hlow, hhigh, hmin⟩ | ⟨hn, hp, hs, hmin⟩
    | ⟨hn, hp, hs, hmin⟩
  · rw [hp, hn]
    refine (bound_iff (T := (· < b)) (cInt_holds (by omega) (by omega))).trans
      (and_congr_right fun _ => ?_)
    cases hs : signed t with
    | false =>
        have hmin := hmin hs
        simp only [Bool.false_eq_true, false_imp_iff, iff_true]
        omega
    | true =>
        simp only [if_true, true_imp_iff]
        omega
  · rw [hp, hs]
    refine (bound_iff (T := (· < b)) ⟨by omega, by omega⟩).trans
      (and_congr_right fun _ => ?_)
    simp only [Bool.false_eq_true, false_imp_iff, iff_true]
    omega
  · rw [hp, hn, hs]
    simp only [Bool.false_eq_true, if_false, true_imp_iff]
    by_cases hpos : 0 ≤ a
    · refine (bound_iff (T := (· < b)) ⟨by omega, by omega⟩).trans
        (and_congr_right fun _ => ?_)
      omega
    · -- the bound overflows, and the test is the wrong way round
      have hmod := (word t).modulus
      refine iff_of_false ?_ fun h => hpos h.2
      rintro ⟨-, -, htest⟩
      rw [(word t).wrap_above ⟨by omega, by omega⟩] at htest
      omega

theorem sub_tested (ha : (word t).Holds a) (hb : (word t).Holds b) :
    (o.Defined (promote t) (minOf t + b) ∧ o.Defined (promote t) (a - b) ∧
      ((promote t).wrap (minOf t + b) > a ↔ ¬ (word t).Holds (a - b))) ↔
        Tested o t .sub a b := by
  obtain ⟨hamin, hamax⟩ := ha
  obtain ⟨hbmin, hbmax⟩ := hb
  rw [minOf_eq, not_holds_iff, Tested]
  rcases bound_cases t with ⟨hn, hp, hlow, hhigh, hmin⟩ | ⟨hn, hp, hs, hmin⟩
    | ⟨hn, hp, hs, hmin⟩
  · rw [hp, hn]
    refine (bound_iff (T := (· > a)) (cInt_holds (by omega) (by omega))).trans
      (and_congr_right fun _ => ?_)
    cases hs : signed t with
    | false =>
        have hmin := hmin hs
        simp only [Bool.false_eq_true, false_imp_iff, iff_true]
        omega
    | true =>
        simp only [if_true, true_imp_iff]
        omega
  · rw [hp, hs]
    refine (bound_iff (T := (· > a)) ⟨by omega, by omega⟩).trans
      (and_congr_right fun _ => ?_)
    simp only [Bool.false_eq_true, false_imp_iff, iff_true]
    omega
  · rw [hp, hn, hs]
    simp only [Bool.false_eq_true, if_false, true_imp_iff]
    by_cases hpos : 0 ≤ b
    · refine (bound_iff (T := (· > a)) ⟨by omega, by omega⟩).trans
        (and_congr_right fun _ => ?_)
      omega
    · have hmod := (word t).modulus
      refine iff_of_false ?_ fun h => hpos h.2
      rintro ⟨-, -, htest⟩
      rw [(word t).wrap_below ⟨by omega, by omega⟩] at htest
      omega

theorem promote_holds {z : Int} (h : (word t).Holds z) : (promote t).Holds z := by
  cases hn : narrow t with
  | true =>
      obtain ⟨hlow, hhigh⟩ := narrow_range hn
      obtain ⟨hmin, hmax⟩ := h
      rw [promote_narrow hn]
      exact cInt_holds (by omega) (by omega)
  | false =>
      rw [promote_wide hn]
      exact h

/-- Only the least value has a quotient that does not fit. -/
theorem tdiv_holds_iff (ha : (word t).Holds a) (hb : (word t).Holds b) (hb0 : b ≠ 0) :
    (word t).Holds (a.tdiv b) ↔ ¬ (signed t ∧ a = (word t).min ∧ b = -1) := by
  obtain ⟨hamin, hamax⟩ := ha
  have hbmin := hb.1
  have hle := Int.natAbs_tdiv_le_natAbs a b
  have hmax := (word t).max_nonneg
  cases hs : signed t with
  | false =>
      have hmin := (word t).min_of_unsigned hs
      have hnonneg : 0 ≤ a.tdiv b := Int.tdiv_nonneg (by omega) (by omega)
      refine iff_of_true ⟨by omega, by omega⟩ fun h => ?_
      cases h.1
  | true =>
      have hmin := (word t).min_of_signed hs
      simp only [true_and]
      by_cases hone : b = -1
      · rw [hone, Int.tdiv_neg, Int.tdiv_one]
        unfold Word.Holds
        omega
      by_cases hpos : 0 < a.tdiv b ∧ a < 0
      · -- both are negative, and the divisor is at least two
        have hhalf : (a.tdiv b).natAbs ≤ a.natAbs / 2 := by
          rw [Int.natAbs_tdiv]
          refine Nat.div_le_div_left ?_ (by decide)
          by_contra hsmall
          obtain rfl : b = 1 := by omega
          rw [Int.tdiv_one] at hpos
          omega
        refine iff_of_true ⟨by omega, by omega⟩ fun h => hone h.2
      · exact iff_of_true ⟨by omega, by omega⟩ fun h => hone h.2

theorem max_tdiv_holds (hb : (word t).Holds b) (hb0 : b ≠ 0) :
    (word t).Holds ((word t).max.tdiv b) := by
  have hmax := (word t).max_nonneg
  have hmin := (word t).min_nonpos
  refine (tdiv_holds_iff ⟨by omega, le_refl _⟩ hb hb0).mpr fun h => ?_
  have hsigned := (word t).min_of_signed h.1
  omega

theorem multiply_tested (hb0 : b ≠ 0) :
    (a > (word t).max.tdiv b ↔ ¬ (word t).Holds (a * b)) ↔
      (b = 0 ∨ 0 < b ∧ (word t).min ≤ a * b ∨
        b < 0 ∧ (a = (word t).max.tdiv b ∨ a * b < (word t).min)) := by
  have hmax := (word t).max_nonneg
  have hmin := (word t).min_nonpos
  rw [not_holds_iff]
  rcases lt_or_gt_of_ne hb0 with hneg | hpos
  · -- with a negative factor the products grow the other way
    have hdiv : (word t).max.tdiv b = -((word t).max / -b) := by
      rw [← Int.tdiv_eq_ediv_of_nonneg hmax, Int.tdiv_neg, neg_neg]
    have hover : (word t).max < a * b ↔ a < (word t).max.tdiv b := by
      rw [hdiv, lt_neg, Int.ediv_lt_iff_lt_mul (by omega), neg_mul_neg]
    have hself : 0 ≤ (word t).max.tdiv b * b := by
      rw [hdiv]
      exact mul_nonneg_of_nonpos_of_nonpos
        (neg_nonpos.mpr (Int.ediv_nonneg hmax (by omega))) hneg.le
    rw [hover]
    by_cases heq : a = (word t).max.tdiv b
    · rw [← heq] at hself ⊢
      omega
    · omega
  · have hover : a > (word t).max.tdiv b ↔ (word t).max < a * b := by
      rw [gt_iff_lt, Int.tdiv_eq_ediv_of_nonneg hmax, Int.ediv_lt_iff_lt_mul hpos]
    rw [hover]
    omega

end

/-! ## The operations -/

theorem answers_quotient {t : IntType} {x y : Int} :
    Answers t (x.tdiv y) (do
      let result ← quotient (promote t) x y
      some (0, .ofInt _ result)) ↔ (word t).Holds (x.tdiv y) := by
  unfold quotient
  constructor
  · rintro ⟨ret, c, hrun, -, hret, -⟩
    split_ifs at hrun with hholds
    · obtain ⟨rfl, -⟩ := Prod.mk.inj (Option.some.inj hrun)
      exact not_not.mp (mt hret.mpr (by decide))
    · cases hrun
  · intro hholds
    rw [if_pos (promote_holds hholds)]
    exact ⟨0, _, rfl, .inl rfl, iff_of_false (by decide) (not_not.mpr hholds),
      fun _ => (word t).value_ofInt_iff.mpr hholds⟩

theorem one_holds (t : IntType) : (word t).Holds 1 := by
  cases t <;> decide

/-- **The arithmetic is checked** exactly for the operands for which its
tests are right. -/
theorem arith_checked_iff (o : Overflow) (t : IntType) (action : ArithAction)
    (data₁ data₂ : BitVec (word t).width) :
    Checked o t action data₁ data₂ ↔
      Tested o t action ((word t).value data₁) ((word t).value data₂) := by
  have ha := (word t).value_holds data₁
  have hb := (word t).value_holds data₂
  cases action with
  | add =>
      exact answers_bind.trans
        ((and_congr_right fun _ => answers_eval).trans (add_tested ha hb))
  | sub =>
      exact answers_bind.trans
        ((and_congr_right fun _ => answers_eval).trans (sub_tested ha hb))
  | multiply =>
      by_cases hb0 : (word t).value data₂ = 0
      · have hzero : (word t).Holds 0 := ⟨(word t).min_nonpos, (word t).max_nonneg⟩
        simp only [Checked, ArithAction.exact, perform, arith, Tested, hb0, if_true,
          mul_zero, true_or, and_true]
        refine iff_of_true ⟨0, 0, rfl, .inl rfl,
          iff_of_false (by decide) (not_not.mpr hzero), fun _ => ?_⟩
          (Overflow.defined_of_holds (promote_holds hzero))
        exact (word t).value_ofInt_iff.mpr hzero
      · simp only [Checked, ArithAction.exact, perform, arith, Tested, if_neg hb0,
          maxOf_eq, quotient, if_pos (promote_holds (max_tdiv_holds hb hb0))]
        exact answers_eval.trans (and_congr_right fun _ => multiply_tested hb0)
  | divide =>
      by_cases hb0 : (word t).value data₂ = 0
      · simp only [Checked, ArithAction.exact, perform, arith, Tested, hb0, if_true]
        exact iff_of_true ⟨_, rfl⟩ fun h => absurd h.2.2 (by decide)
      · simp only [Checked, ArithAction.exact, perform, arith, Tested, hb0, if_false]
        exact answers_quotient.trans (tdiv_holds_iff ha hb hb0)
  | increment =>
      refine answers_bind.trans ((and_congr_right fun _ => answers_eval).trans ?_)
      refine (add_tested ha (one_holds t)).trans (and_congr_right fun _ => ?_)
      have hamin := ha.1
      cases narrow t with
      | true =>
          refine iff_of_true (fun _ => ?_) fun _ => .inl rfl
          rw [if_pos rfl]
          omega
      | false => simp
  | decrement =>
      refine answers_bind.trans ((and_congr_right fun _ => answers_eval).trans ?_)
      refine (sub_tested ha (one_holds t)).trans (and_iff_left fun _ => ?_)
      obtain ⟨hamin, hamax⟩ := ha
      split_ifs <;> omega

/-- -128 + -1 in eight bits is answered with 0 and 127, whatever the compiler does. -/
theorem arith_not_checked :
    ¬ ∃ o, ∀ (t : IntType) (action : ArithAction) (data₁ data₂ : BitVec (word t).width),
      Checked o t action data₁ data₂ := by
  rintro ⟨o, hall⟩
  obtain ⟨ret, c, hrun, -, hiff, -⟩ := hall .int8 .add (-128) (-1)
  have hsum : perform o .int8 .add (-128) (-1) = some (0, 127) := by
    cases o <;> decide
  obtain ⟨rfl, -⟩ := Prod.mk.inj (Option.some.inj (hsum.symm.trans hrun))
  exact absurd (hiff.mpr (by decide)) (by decide)

end Frozen.Data
