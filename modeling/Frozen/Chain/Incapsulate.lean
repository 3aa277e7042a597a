/-
# `Frozen.Chain.Incapsulate` — what data/incapsulate leaves in a request

`incap_handler` shows records of a fixed size as units of one: it multiplies what
addresses them, rounds the size up, passes the request on, and divides what comes back.
All of it is done to the items of the caller, with one list of keys for every action.
Nothing multiplied is divided again.  And HK(buffer) is divided because COUNT leaves its
answer there: a number that READ or WRITE has in it is divided as well.

    incap_rescales_iff   which requests keep their addresses and their payload
-/
import Frozen.Chain.Signal
import Frozen.Data.Convert

namespace Frozen.Chain

open Lib Binary Data

variable {α W : Type}

/-! ## Items -/

/-- A `data_t`, as arithmetic finds it. -/
inductive Item (α : Type) where
  | int (t : IntType) (c : BitVec (word t).width)
  /-- `slice_t` and `slider_t` hand arithmetic on to the data they show. -/
  | view (d : Item α)
  /-- A type without arithmetic in its table. -/
  | other (a : α)
  /-- What is left by arithmetic without a result. -/
  | undefined
deriving DecidableEq

namespace Item

/-- The arithmetic of an item with an `off_t`; an integer reads as many of its bytes as
it has itself. -/
def perform (o : Overflow) (action : ArithAction) (m : Int) : Item α → Item α
  | .int t c =>
      match Data.perform o t action c (.ofInt _ m) with
      | some (_, c) => .int t c
      | none => .undefined
  | .view d => .view (d.perform o action m)
  | d => d

/-- The number in an item. -/
def value : Item α → Option Int
  | .int t c => some ((word t).value c)
  | .view d => d.value
  | _ => none

end Item

/-- `data_get` and `ACTION_WRITE` of an `uintmax_t`, and the arithmetic, of integers.
What the other types make of reading and writing is for `L` to say. -/
def typed (o : Overflow) (L : DataLayer (Item α)) : DataLayer (Item α) :=
  { L with
    getUintt := fun d => match d with
      | .int t c => (dataGet .uint 0 0 (some ⟨t, some c⟩)).bind fun r =>
          if r.1 = 0 then some (.ofNat r.2.toNat) else none
      | d => L.getUintt d
    -- no integer has more bytes than are written
    write := fun v d => match d with
      | .int t _ => .int t (.ofNat _ v.toNat)
      | d => L.write v d
    multiply := fun m d => d.perform o .multiply m
    divide := fun m d => d.perform o .divide m }

/-! ## The handler -/

/-- `incap_init`, and a configured `multiply`. -/
def incapInit (multiply : Int) (stack : UInt64) : IncapUserdata :=
  { plainIncap with multiply := multiply, stack := stack }

section

variable {D : Type} (L : DataLayer D) (u : IncapUserdata)

/-- With the size rounded up, if there is one. -/
def incapRounded (request : Request D) : Request D :=
  match request.find u.size with
  | none => request
  | some d =>
      request.modify u.size
        (L.write (incapRound (UInt64.ofInt u.multiply) ((L.getUintt d).getD u.stack)))

/-- What the childs get. -/
def incapScaled (request : Request D) : Request D :=
  (((incapRounded L u request).modify u.key (L.multiply u.multiply)).modify u.keyTo
    (L.multiply u.multiply)).modify u.keyFrom (L.multiply u.multiply)

/-- What the caller gets, from what the childs have left. -/
def incapSettled (left : Request D) : Request D :=
  (left.modify u.keyOut (L.divide u.multiply)).modify u.count (L.divide u.multiply)

theorem incapHandler_request (pass : Sem D W) (request : Request D) (s : State W) :
    (incapHandler L u pass request s).request
      = incapSettled L u (pass (incapScaled L u request) s).request := rfl

end

/-! ## What it should do -/

/-- The keys of addresses. -/
def addresses : List Key := [.offset, .offsetTo, .offsetFrom]

/-- The number under a key. -/
def number (key : Key) (request : Request (Item α)) : Option Int :=
  (request.find key).bind Item.value

/-- The action of a request. -/
def actionOf (L : DataLayer (Item α)) (request : Request (Item α)) : Option Action :=
  (request.find .action).bind L.getAction

/-- Only the addresses are rescaled. -/
structure Rescales (L : DataLayer (Item α)) (m : Int) (stack : UInt64)
    (pass : Sem (Item α) W) (request : Request (Item α)) (s : State W) : Prop where
  /-- The childs get the addresses in bytes, -/
  address : ∀ key ∈ addresses,
    number key (incapScaled L (incapInit m stack) request)
      = (number key request).map (· * m)
  /-- and a size of whole records. -/
  size : ∀ t c, request.find .size = some (.int t c) →
    ∃ z, number .size (incapScaled L (incapInit m stack) request) = some z ∧ m ∣ z ∧
      (word t).value c ≤ z ∧ z < (word t).value c + m
  /-- What they say of places comes back in records, -/
  out : number .offsetOut (incapHandler L (incapInit m stack) pass request s).request
    = (number .offsetOut
      (pass (incapScaled L (incapInit m stack) request) s).request).map (·.tdiv m)
  count : actionOf L request = some .count →
    number .buffer (incapHandler L (incapInit m stack) pass request s).request
      = (number .buffer (pass (incapScaled L (incapInit m stack) request)
        s).request).map (·.tdiv m)
  /-- data comes back as it is, -/
  payload : actionOf L request = some .read ∨ actionOf L request = some .write →
    (incapHandler L (incapInit m stack) pass request s).request.find .buffer
      = (pass (incapScaled L (incapInit m stack) request) s).request.find .buffer
  /-- and an address the childs leave alone is the caller's again, -/
  caller : ∀ key ∈ addresses,
    (pass (incapScaled L (incapInit m stack) request) s).request.find key
        = (incapScaled L (incapInit m stack) request).find key →
      (incapHandler L (incapInit m stack) pass request s).request.find key
        = request.find key
  /-- so that the request, sent again, is for the same record. -/
  again : ∀ key ∈ addresses,
    (pass (incapScaled L (incapInit m stack) request) s).request.find key
        = (incapScaled L (incapInit m stack) request).find key →
      (incapScaled L (incapInit m stack)
        (incapHandler L (incapInit m stack) pass request s).request).find key
        = (incapScaled L (incapInit m stack) request).find key

/-! ## Where it does -/

namespace Item

variable (o : Overflow) (m : Int)

/-- The product with `m` does not overflow. -/
def Fits : Item α → Prop
  | .int t c => (word t).Holds ((word t).value c * m)
  | .view d => d.Fits
  | _ => True

/-- Nor does it by what the type reads of `m`. -/
def Multiplies : Item α → Prop
  | .int t c => o.Defined (promote t) ((word t).value c * (word t).wrap m)
  | .view d => d.Multiplies
  | _ => True

/-- The type holds `m`, or the quotient is 0 by what it reads of `m`. -/
def Divides : Item α → Prop
  | .int t c => (word t).Holds m ∨ (word t).value c = 0 ∨
    |(word t).value c| < |(word t).wrap m|
  | .view d => d.Divides
  | _ => True

/-- What division does not change: 0, anything if 0 or 1 is read of `m`, and the least
number of a type that is computed with in `int`, if -1 is. -/
def Untouched : Item α → Prop
  | .int t c => (word t).value c = 0 ∨ (word t).wrap m = 0 ∨ (word t).wrap m = 1 ∨
      narrow t = true ∧ (word t).value c = (word t).min ∧ (word t).wrap m = -1
  | .view d => d.Untouched
  | _ => True

end Item

/-- Products that do not overflow. -/
structure Admissible (m : Int) (request : Request (Item α)) : Prop where
  address : ∀ key ∈ addresses, ∀ d, request.find key = some d → d.Fits m
  size : ∀ t c, request.find .size = some (.int t c) →
    0 ≤ (word t).value c ∧ (word t).Holds ((word t).value c * m)

/-- The requests that only have their addresses rescaled. -/
structure Rescalable (o : Overflow) (L : DataLayer (Item α)) (m : Int)
    (request handed left : Request (Item α)) : Prop where
  address : ∀ key ∈ addresses, ∀ d, request.find key = some d →
    d.Multiplies o m ∧
    (left.find key = handed.find key → m = 1 ∨ d.value = none ∨ d.value = some 0)
  out : ∀ d, left.find .offsetOut = some d → d.Divides m
  count : actionOf L request = some .count → ∀ d, left.find .buffer = some d → d.Divides m
  payload : actionOf L request = some .read ∨ actionOf L request = some .write →
    ∀ d, left.find .buffer = some d → d.Untouched m

/-! ## Integers -/

section

variable {o : Overflow} {t : IntType} {m : Int} {c : BitVec (word t).width}

theorem value_inj {a b : BitVec (word t).width}
    (h : (word t).value a = (word t).value b) : a = b := by
  apply BitVec.eq_of_toNat_eq
  have hmod := congrArg (· % 2 ^ (word t).width) h
  simp only [Word.value_emod] at hmod
  exact_mod_cast hmod

/-- What is read of a factor whose product fits is as good as the factor. -/
theorem wrap_mul (hfit : (word t).Holds ((word t).value c * m)) :
    (word t).wrap ((word t).value c * (word t).wrap m) = (word t).value c * m :=
  (word t).wrap_of_emod hfit
  (by rw [Int.mul_emod, ← (word t).wrap_emod m, ← Int.mul_emod])

theorem int_multiply (hfit : (word t).Holds ((word t).value c * m)) :
    (Data.perform o t .multiply c (.ofInt _ m)).map (fun r => (word t).value r.2)
      = if o.Defined (promote t) ((word t).value c * (word t).wrap m)
        then some ((word t).value c * m)
        else none := by
  have hprod := wrap_mul hfit
  have hread := (word t).wrap_holds m
  unfold Word.wrap at hread
  simp only [Data.perform, arith]
  unfold Word.wrap at hprod ⊢
  generalize hb : (word t).value (.ofInt _ m) = b at hread hprod ⊢
  split_ifs with hzero hdef hdef
  · rw [hzero, mul_zero] at hprod
    rw [← hprod]
    rfl
  · have hholds : (word t).Holds 0 := ⟨(word t).min_nonpos, (word t).max_nonneg⟩
    rw [hzero, mul_zero] at hdef
    exact absurd (Overflow.defined_of_holds (promote_holds hholds)) hdef
  · rw [maxOf_eq, quotient, if_pos (promote_holds (max_tdiv_holds hread hzero)),
      Overflow.eval, if_pos hdef, ← hprod]
    exact congrArg some ((word t).wrap_wrap (width_le_promote t) _)
  · rw [maxOf_eq, quotient, if_pos (promote_holds (max_tdiv_holds hread hzero)),
      Overflow.eval, if_neg hdef]
    rfl

theorem int_divide :
    (Data.perform o t .divide c (.ofInt _ m)).map (fun r => (word t).value r.2)
    = if (word t).wrap m = 0 then some ((word t).value c)
      else if (promote t).Holds (((word t).value c).tdiv ((word t).wrap m))
        then some ((word t).wrap (((word t).value c).tdiv ((word t).wrap m)))
        else none := by
  unfold Word.wrap
  simp only [Data.perform, arith, quotient]
  split_ifs <;> rfl

theorem tdiv_eq_self_iff {a b : Int} (hb : b ≠ 0) : a.tdiv b = a ↔ a = 0 ∨ b = 1 := by
  constructor
  · intro heq
    by_contra hnot
    obtain ⟨ha, hone⟩ := not_or.mp hnot
    by_cases hneg : b = -1
    · rw [hneg, Int.tdiv_neg, Int.tdiv_one] at heq
      omega
    · have hlt : a.natAbs / b.natAbs < a.natAbs := Nat.div_lt_self (by omega) (by omega)
      have habs : (a.tdiv b).natAbs = a.natAbs / b.natAbs := Int.natAbs_tdiv a b
      rw [← habs, heq] at hlt
      exact absurd hlt (lt_irrefl _)
  · rintro (rfl | rfl)
    · exact Int.zero_tdiv b
    · exact Int.tdiv_one a

theorem min_neg (hs : signed t = true) : (word t).min < 0 := by
  have hmin := (word t).min_of_signed hs
  have hmax := (word t).max_nonneg
  omega

/-- The quotient that does not fit: `int` holds it for the narrow types, and it is
stored as the least number again. -/
theorem quotient_min (hs : signed t = true) :
    (if (promote t).Holds ((word t).min.tdiv (-1))
      then some ((word t).wrap ((word t).min.tdiv (-1))) else none)
      = if narrow t then some (word t).min else none := by
  cases t <;> first | decide | cases hs

theorem int_divide_self_iff :
    (Data.perform o t .divide c (.ofInt _ m)).map (fun r => (word t).value r.2)
      = some ((word t).value c) ↔
      (word t).value c = 0 ∨ (word t).wrap m = 0 ∨ (word t).wrap m = 1 ∨
        narrow t = true ∧ (word t).value c = (word t).min ∧ (word t).wrap m = -1 := by
  have ha := (word t).value_holds c
  have hb := (word t).wrap_holds m
  rw [int_divide]
  generalize (word t).value c = a at ha ⊢
  generalize (word t).wrap m = b at hb ⊢
  by_cases hb0 : b = 0
  · rw [if_pos hb0]
    exact iff_of_true rfl (.inr (.inl hb0))
  rw [if_neg hb0]
  by_cases hholds : (word t).Holds (a.tdiv b)
  · rw [if_pos (promote_holds hholds), (word t).wrap_of_holds hholds, Option.some_inj,
      tdiv_eq_self_iff hb0]
    refine ⟨fun h => h.imp_right fun h => .inr (.inl h), ?_⟩
    rintro (h | h | h | ⟨-, hmin, hneg⟩)
    · exact .inl h
    · exact absurd h hb0
    · exact .inr h
    · -- without a sign the least number is 0
      refine .inl
        (hmin.trans ((word t).min_of_unsigned (Bool.eq_false_iff.mpr fun hs => ?_)))
      exact (tdiv_holds_iff ha hb hb0).mp hholds ⟨hs, hmin, hneg⟩
  · obtain ⟨hs, rfl, rfl⟩ := not_not.mp (mt (tdiv_holds_iff ha hb hb0).mpr hholds)
    have hneg := min_neg hs
    rw [quotient_min hs]
    cases narrow t with
    | true => exact iff_of_true rfl (.inr (.inr (.inr ⟨rfl, rfl, rfl⟩)))
    | false =>
        refine iff_of_false (by simp) ?_
        rintro (h | h | h | ⟨h, -⟩)
        · omega
        · exact hb0 h
        · omega
        · cases h

theorem tdiv_eq_zero_iff {a b : Int} (hb : b ≠ 0) : a.tdiv b = 0 ↔ |a| < |b| := by
  have habs : (a.tdiv b).natAbs = a.natAbs / b.natAbs := Int.natAbs_tdiv a b
  rw [← Int.natAbs_eq_zero, habs, Nat.div_eq_zero_iff_lt (by omega), Int.abs_eq_natAbs,
    Int.abs_eq_natAbs, Nat.cast_lt]

/-- By an `m` that the type does not hold the quotient is 0, with one
exception: the least number, if `m` is the same without its sign; `m` is read
as the least number then. -/
theorem quotient_beyond {a : Int} (ha : (word t).Holds a) (hm : (word t).max < m) :
    a = (word t).min ∧ m = -(word t).min ∧ (word t).wrap m = (word t).min ∧
      (word t).min ≠ 0 ∨ a.tdiv m = 0 := by
  have hmod := (word t).modulus
  have hmax := (word t).max_nonneg
  have hmin : (word t).min = 0 ∨ (word t).min = -(word t).max - 1 := by
    cases hs : signed t with
    | false => exact .inl ((word t).min_of_unsigned hs)
    | true => exact .inr ((word t).min_of_signed hs)
  by_cases hfull : a = (word t).min ∧ m = -(word t).min
  · have hread : (word t).wrap m = (word t).min := by
      rw [(word t).wrap_above ⟨by omega, by omega⟩]
      omega
    exact .inl ⟨hfull.1, hfull.2, hread, by omega⟩
  · obtain ⟨halow, hahigh⟩ := ha
    refine .inr ?_
    rw [tdiv_eq_zero_iff (by omega), abs_of_pos (by omega : 0 < m), abs_lt]
    omega

theorem divide_zero_iff {a b : Int} (ha : (word t).Holds a) (hb : (word t).Holds b) :
    (if b = 0 then some a
      else if (promote t).Holds (a.tdiv b) then some ((word t).wrap (a.tdiv b))
        else none) = some 0 ↔
      a = 0 ∨ |a| < |b| := by
  by_cases hb0 : b = 0
  · rw [if_pos hb0, Option.some_inj, hb0, abs_zero]
    exact ⟨.inl, fun h => h.resolve_right (not_lt.mpr (abs_nonneg a))⟩
  rw [if_neg hb0]
  by_cases hholds : (word t).Holds (a.tdiv b)
  · rw [if_pos (promote_holds hholds), (word t).wrap_of_holds hholds, Option.some_inj,
      tdiv_eq_zero_iff hb0]
    refine ⟨.inr, fun h => h.elim (fun h => ?_) id⟩
    rw [h, abs_zero]
    exact abs_pos.mpr hb0
  · obtain ⟨hs, rfl, rfl⟩ := not_not.mp (mt (tdiv_holds_iff ha hb hb0).mpr hholds)
    have hneg := min_neg hs
    rw [quotient_min hs]
    refine iff_of_false ?_ ?_
    · cases narrow t with
      | true => exact fun h => hneg.ne (Option.some_inj.mp h)
      | false => exact fun h => nomatch h
    · rintro (h | h)
      · omega
      · rw [abs_lt] at h
        have hone : |(-1 : Int)| = 1 := by decide
        omega

theorem int_divide_iff (hm : 1 ≤ m) :
    (Data.perform o t .divide c (.ofInt _ m)).map (fun r => (word t).value r.2)
        = some (((word t).value c).tdiv m) ↔
      (word t).Holds m ∨ (word t).value c = 0 ∨
      |(word t).value c| < |(word t).wrap m| := by
  have ha := (word t).value_holds c
  have hb := (word t).wrap_holds m
  have hmin := (word t).min_nonpos
  rw [int_divide]
  by_cases hmm : (word t).Holds m
  · have hne : m ≠ 0 := by omega
    have hholds : (word t).Holds (((word t).value c).tdiv m) :=
      (tdiv_holds_iff ha hmm hne).mpr fun h => by omega
    rw [(word t).wrap_of_holds hmm, if_neg hne, if_pos (promote_holds hholds),
      (word t).wrap_of_holds hholds]
    exact iff_of_true rfl (.inl hmm)
  rw [or_iff_right hmm]
  have hmax : (word t).max < m := by
    by_contra hle
    exact hmm ⟨by omega, by omega⟩
  rcases quotient_beyond ha hmax with ⟨hc, hneg, hread, hne⟩ | hzero
  · have hone : (word t).Holds 1 := one_holds t
    rw [hc, hread, hneg, Int.tdiv_neg, Int.tdiv_self hne, if_neg hne,
      if_pos (promote_holds hone), (word t).wrap_of_holds hone]
    refine iff_of_false (by decide) ?_
    rintro (h | h)
    · exact hne h
    · exact lt_irrefl _ h
  · rw [hzero]
    exact divide_zero_iff ha hb

end

/-! ## Items under arithmetic -/

namespace Item

variable {o : Overflow} {action : ArithAction} {m : Int}

theorem value_perform_int {t : IntType} {c : BitVec (word t).width} :
    ((Item.int t c : Item α).perform o action m).value
      = (Data.perform o t action c (.ofInt _ m)).map fun r => (word t).value r.2 := by
  unfold perform
  cases Data.perform o t action c (.ofInt _ m) <;> rfl

theorem perform_int_eq_iff {t : IntType} {c : BitVec (word t).width} :
    (Item.int t c : Item α).perform o action m = .int t c ↔
      (Data.perform o t action c (.ofInt _ m)).map (fun r => (word t).value r.2)
        = some ((word t).value c) := by
  rw [← value_perform_int (α := α)]
  constructor
  · exact congrArg value
  · unfold perform
    cases Data.perform o t action c (.ofInt _ m) with
    | none => exact fun h => nomatch h
    | some r => exact fun h => congrArg (Item.int t) (value_inj (Option.some_inj.mp h))

theorem value_multiply_iff : ∀ {d : Item α}, d.Fits m →
    ((d.perform o .multiply m).value = d.value.map (· * m) ↔ d.Multiplies o m)
  | .int t c, hfit => by
      rw [value_perform_int, int_multiply hfit]
      simp [Multiplies, value]
  | .view d, hfit => value_multiply_iff (d := d) hfit
  | .other _, _ => iff_of_true rfl trivial
  | .undefined, _ => iff_of_true rfl trivial

theorem multiply_eq_iff : ∀ {d : Item α}, d.Fits m → d.Multiplies o m →
    (d.perform o .multiply m = d ↔ m = 1 ∨ d.value = none ∨ d.value = some 0)
  | .int t c, hfit, hmul => by
      have hdef : o.Defined (promote t) ((word t).value c * (word t).wrap m) := hmul
      rw [perform_int_eq_iff, int_multiply hfit, if_pos hdef, Option.some_inj,
        mul_right_eq_self₀]
      simp [value]
  | .view d, hfit, hmul => by
      rw [perform, Item.view.injEq]
      exact multiply_eq_iff (d := d) hfit hmul
  | .other _, _, _ => iff_of_true rfl (.inr (.inl rfl))
  | .undefined, _, _ => iff_of_true rfl (.inr (.inl rfl))

theorem value_divide_iff (hm : 1 ≤ m) : ∀ {d : Item α},
    (d.perform o .divide m).value = d.value.map (·.tdiv m) ↔ d.Divides m
  | .int t c => by
      rw [value_perform_int]
      exact int_divide_iff hm
  | .view d => value_divide_iff (d := d) hm
  | .other _ => iff_of_true rfl trivial
  | .undefined => iff_of_true rfl trivial

theorem divide_eq_iff : ∀ {d : Item α}, d.perform o .divide m = d ↔ d.Untouched m
  | .int t c => perform_int_eq_iff.trans int_divide_self_iff
  | .view d => by
      rw [perform, Item.view.injEq]
      exact divide_eq_iff (d := d)
  | .other _ => iff_of_true rfl trivial
  | .undefined => iff_of_true rfl trivial

end Item

/-! ## Sizes -/

/-- A size is rounded up to whole records. -/
theorem incapRound_spec {m size : UInt64} (hm : 0 < m.toNat)
    (hfit : size.toNat * m.toNat < 2 ^ 64) :
    m.toNat ∣ (incapRound m size).toNat ∧ size.toNat ≤ (incapRound m size).toNat ∧
      (incapRound m size).toNat < size.toNat + m.toNat ∧
      (incapRound m size).toNat ≤ size.toNat * m.toNat := by
  have hdown : (size / m * m).toNat = size.toNat / m.toNat * m.toNat := by
    have hle := Nat.div_mul_le_self size.toNat m.toNat
    have hlt := size.toNat_lt
    rw [UInt64.toNat_mul, UInt64.toNat_div, Nat.mod_eq_of_lt (by omega)]
  have hrest : size % m = 0 ↔ size.toNat % m.toNat = 0 := by
    rw [← UInt64.toNat_inj, UInt64.toNat_mod, UInt64.toNat_zero]
  have hdecomp := Nat.div_add_mod' size.toNat m.toNat
  have hmod := Nat.mod_lt size.toNat hm
  unfold incapRound
  split_ifs with hr
  · -- a record that is not whole: there is more than one unit in it
    have hone : m.toNat ≠ 1 := fun h => hr (hrest.mpr (by rw [h, Nat.mod_one]))
    have hpos : size.toNat ≠ 0 := fun h => hr (hrest.mpr (by rw [h, Nat.zero_mod]))
    have hup : size.toNat / m.toNat * m.toNat + m.toNat ≤ size.toNat * m.toNat := by
      rw [← Nat.succ_mul]
      exact Nat.mul_le_mul_right _ (Nat.div_lt_self (by omega) (by omega))
    have hne : size.toNat % m.toNat ≠ 0 := mt hrest.mpr hr
    rw [UInt64.toNat_add, hdown, Nat.mod_eq_of_lt (by omega)]
    exact ⟨Nat.dvd_add (Nat.dvd_mul_left _ _) (dvd_refl _), by omega, by omega, hup⟩
  · have hzero := hrest.mp (not_not.mp hr)
    rw [hdown]
    exact ⟨Nat.dvd_mul_left _ _, by omega, by omega,
      Nat.mul_le_mul_right _ (Nat.div_le_self _ _)⟩

theorem max_le_uint (t : IntType) : (word t).max ≤ (word .uint).max := by
  cases t <;> decide

/-- `data_get` of a number that is not negative. -/
theorem getUintt_int {o : Overflow} {L : DataLayer (Item α)} {t : IntType}
    {c : BitVec (word t).width} (hc : 0 ≤ (word t).value c) :
    ∃ size, (typed o L).getUintt (.int t c) = some size ∧
      (size.toNat : Int) = (word t).value c := by
  have hholds : (word .uint).Holds ((word t).value c) :=
    ⟨hc, ((word t).value_holds c).2.trans (max_le_uint t)⟩
  have hval := ((word t).value_setWidth_iff hholds).mpr (.inr hc)
  refine ⟨.ofNat (c.setWidth (word .uint).width).toNat, ?_, ?_⟩
  · show ((dataGet .uint 0 0 (some ⟨t, some c⟩)).bind _) = _
    rw [dataGet_eq]
    rfl
  · rw [UInt64.toNat_ofNat_of_lt' (c.setWidth (word .uint).width).isLt,
      (word .uint).toNat_eq_of_nonneg (hval.symm ▸ hc), hval]

/-! ## The request -/

theorem find_rounded_of_ne {D : Type} {L : DataLayer D} {u : IncapUserdata}
    {request : Request D} {key : Key} (h : key ≠ u.size) :
    (incapRounded L u request).find key = request.find key := by
  unfold incapRounded
  split
  · rfl
  · exact Request.find_modify_of_ne h

theorem find_rounded_size {D : Type} {L : DataLayer D} {u : IncapUserdata}
    {request : Request D} :
    (incapRounded L u request).find u.size = (request.find u.size).map fun d =>
      L.write (incapRound (UInt64.ofInt u.multiply) ((L.getUintt d).getD u.stack)) d := by
  unfold incapRounded
  split
  · next hnone => rw [hnone, Option.map_none]
  · next d hsome => rw [Request.find_modify_self, hsome, Option.map_some, Option.map_some]

section

variable {o : Overflow} {L : DataLayer (Item α)} {m : Int} {stack : UInt64}
  {request left : Request (Item α)}

theorem find_scaled_address {key : Key} (hkey : key ∈ addresses) :
    (incapScaled (typed o L) (incapInit m stack) request).find key
      = (request.find key).map (Item.perform o .multiply m) := by
  have hne : key ≠ (incapInit m stack).size := by
    rintro rfl
    exact (by decide : Key.size ∉ addresses) hkey
  have hrounded : (incapRounded (typed o L) (incapInit m stack) request).find key
      = request.find key :=
    find_rounded_of_ne hne
  rw [← hrounded]
  show ((((incapRounded _ _ request).modify .offset _).modify .offsetTo _).modify
    .offsetFrom _).find key = _
  simp only [addresses, List.mem_cons, List.not_mem_nil, or_false] at hkey
  rcases hkey with rfl | rfl | rfl
  · rw [Request.find_modify_of_ne (by decide), Request.find_modify_of_ne (by decide),
      Request.find_modify_self]
    rfl
  · rw [Request.find_modify_of_ne (by decide), Request.find_modify_self,
      Request.find_modify_of_ne (by decide)]
    rfl
  · rw [Request.find_modify_self, Request.find_modify_of_ne (by decide),
      Request.find_modify_of_ne (by decide)]
    rfl

theorem find_scaled_size :
    (incapScaled (typed o L) (incapInit m stack) request).find .size
      = (request.find .size).map fun d =>
          (typed o L).write
          (incapRound (UInt64.ofInt m) (((typed o L).getUintt d).getD stack)) d := by
  show ((((incapRounded _ _ request).modify .offset _).modify .offsetTo _).modify
    .offsetFrom _).find .size = _
  rw [Request.find_modify_of_ne (by decide), Request.find_modify_of_ne (by decide),
    Request.find_modify_of_ne (by decide)]
  exact find_rounded_size (u := incapInit m stack)

theorem find_settled_out :
    (incapSettled (typed o L) (incapInit m stack) left).find .offsetOut
      = (left.find .offsetOut).map (Item.perform o .divide m) := by
  show ((left.modify .offsetOut _).modify .buffer _).find .offsetOut = _
  rw [Request.find_modify_of_ne (by decide), Request.find_modify_self]
  rfl

theorem find_settled_buffer :
    (incapSettled (typed o L) (incapInit m stack) left).find .buffer
      = (left.find .buffer).map (Item.perform o .divide m) := by
  show ((left.modify .offsetOut _).modify .buffer _).find .buffer = _
  rw [Request.find_modify_self, Request.find_modify_of_ne (by decide)]
  rfl

theorem find_settled_address {key : Key} (hkey : key ∈ addresses) :
    (incapSettled (typed o L) (incapInit m stack) left).find key = left.find key := by
  have hne : key ≠ .offsetOut ∧ key ≠ .buffer := by
    constructor <;> rintro rfl <;> exact absurd hkey (by decide)
  show ((left.modify .offsetOut _).modify .buffer _).find key = _
  rw [Request.find_modify_of_ne hne.2, Request.find_modify_of_ne hne.1]

/-- A size is rounded up in its own type. -/
theorem scaled_size {t : IntType} {c : BitVec (word t).width} (hm : 1 ≤ m)
    (hoff : (word .off).Holds m) (hc : 0 ≤ (word t).value c)
    (hfit : (word t).Holds ((word t).value c * m))
    (hsize : request.find .size = some (.int t c)) :
    ∃ z, number .size (incapScaled (typed o L) (incapInit m stack) request)
      = some z ∧ m ∣ z ∧ (word t).value c ≤ z ∧ z < (word t).value c + m := by
  obtain ⟨size, hget, hval⟩ := getUintt_int (o := o) (L := L) hc
  have hmul : ((UInt64.ofInt m).toNat : Int) = m := by
    have hhigh : m ≤ 2 ^ 63 - 1 := hoff.2
    have hlt : (m % 2 ^ 64).toNat < UInt64.size := by
      show _ < 18446744073709551616
      omega
    rw [UInt64.ofInt, UInt64.toNat_ofNat_of_lt' hlt]
    omega
  have htop : (word t).value c * m ≤ 2 ^ 64 - 1 := hfit.2.trans (max_le_uint t)
  have hprod : ((size.toNat * (UInt64.ofInt m).toNat : Nat) : Int)
      = (word t).value c * m := by
    rw [Nat.cast_mul, hval, hmul]
  obtain ⟨hdvd, hle, hlt, hround⟩ :=
    @incapRound_spec (.ofInt m) size (by omega) (by omega)
  refine ⟨(incapRound (.ofInt m) size).toNat, ?_, ?_, by omega, by omega⟩
  · have hmin := (word t).min_nonpos
    have hmax := hfit.2
    rw [number, find_scaled_size, hsize, Option.map_some, hget, Option.getD_some,
      Option.bind_some]
    show some ((word t).value (.ofNat _ (incapRound (.ofInt m) size).toNat)) = _
    rw [← BitVec.ofInt_natCast, (word t).value_ofInt_iff.mpr ⟨by omega, by omega⟩]
  · have hcast : ((UInt64.ofInt m).toNat : Int) ∣ (incapRound (.ofInt m) size).toNat :=
      Int.natCast_dvd_natCast.mpr hdvd
    rwa [hmul] at hcast

end

theorem bind_map_iff {x : Option (Item α)} {f : Item α → Item α} {g : Int → Int} :
    (x.map f).bind Item.value = (x.bind Item.value).map g ↔
      ∀ d, x = some d → (f d).value = d.value.map g := by
  cases x <;> simp

theorem map_self_iff {x : Option (Item α)} {f : Item α → Item α} :
    x.map f = x ↔ ∀ d, x = some d → f d = d := by
  cases x <;> simp

section

variable {o : Overflow} {L : DataLayer (Item α)} {m : Int} {stack : UInt64}
  {request left : Request (Item α)} {key : Key}

theorem number_scaled_iff (hkey : key ∈ addresses)
    (hfit : ∀ d, request.find key = some d → d.Fits m) :
    number key (incapScaled (typed o L) (incapInit m stack) request)
      = (number key request).map (· * m) ↔
      ∀ d, request.find key = some d → d.Multiplies o m := by
  rw [number, find_scaled_address hkey]
  exact bind_map_iff.trans (forall₂_congr fun d hd => Item.value_multiply_iff (hfit d hd))

/-- What is handed down is what the caller had. -/
theorem find_scaled_self_iff (hkey : key ∈ addresses)
    (hfit : ∀ d, request.find key = some d → d.Fits m)
    (hmul : ∀ d, request.find key = some d → d.Multiplies o m) :
    (incapScaled (typed o L) (incapInit m stack) request).find key = request.find key ↔
      ∀ d, request.find key = some d → m = 1 ∨ d.value = none ∨ d.value = some 0 := by
  rw [find_scaled_address hkey, map_self_iff]
  exact forall₂_congr fun d hd => Item.multiply_eq_iff (hfit d hd) (hmul d hd)

theorem number_out_iff (hm : 1 ≤ m) :
    number .offsetOut (incapSettled (typed o L) (incapInit m stack) left)
        = (number .offsetOut left).map (·.tdiv m) ↔
      ∀ d, left.find .offsetOut = some d → d.Divides m := by
  rw [number, find_settled_out]
  exact bind_map_iff.trans (forall₂_congr fun _ _ => Item.value_divide_iff hm)

theorem number_buffer_iff (hm : 1 ≤ m) :
    number .buffer (incapSettled (typed o L) (incapInit m stack) left)
      = (number .buffer left).map (·.tdiv m) ↔
      ∀ d, left.find .buffer = some d → d.Divides m := by
  rw [number, find_settled_buffer]
  exact bind_map_iff.trans (forall₂_congr fun _ _ => Item.value_divide_iff hm)

theorem find_buffer_iff :
    (incapSettled (typed o L) (incapInit m stack) left).find .buffer = left.find .buffer ↔
      ∀ d, left.find .buffer = some d → d.Untouched m := by
  rw [find_settled_buffer, map_self_iff]
  exact forall₂_congr fun _ _ => Item.divide_eq_iff

end

/-- **Only the addresses are rescaled** exactly if the products are defined, the
quotients are by `m`, the payload is no number or is not divided, and no address but 0
is multiplied for good. -/
theorem incap_rescales_iff (o : Overflow) (L : DataLayer (Item α)) (m : Int)
    (stack : UInt64) (pass : Sem (Item α) W) (request : Request (Item α)) (s : State W)
    (hm : 1 ≤ m) (hoff : (word .off).Holds m) (hadm : Admissible m request) :
    Rescales (typed o L) m stack pass request s ↔
      Rescalable o (typed o L) m request
        (incapScaled (typed o L) (incapInit m stack) request)
        (pass (incapScaled (typed o L) (incapInit m stack) request) s).request := by
  constructor
  · intro h
    have hmul : ∀ key ∈ addresses, ∀ d, request.find key = some d →
        d.Multiplies o m := fun key hkey =>
      (number_scaled_iff hkey (hadm.address key hkey)).mp (h.address key hkey)
    refine ⟨fun key hkey d hd => ⟨hmul key hkey d hd, fun hleft => ?_⟩,
      (number_out_iff hm).mp h.out,
      fun hcount => (number_buffer_iff hm).mp (h.count hcount),
      fun hpayload => find_buffer_iff.mp (h.payload hpayload)⟩
    have hback := h.caller key hkey hleft
    rw [incapHandler_request, find_settled_address hkey, hleft] at hback
    exact (find_scaled_self_iff hkey (hadm.address key hkey) (hmul key hkey)).mp
      hback d hd
  · intro h
    have hmul : ∀ key ∈ addresses, ∀ d, request.find key = some d → d.Multiplies o m :=
      fun key hkey d hd => (h.address key hkey d hd).1
    have hcaller : ∀ key ∈ addresses,
        (pass (incapScaled (typed o L) (incapInit m stack) request) s).request.find key
            = (incapScaled (typed o L) (incapInit m stack) request).find key →
          (incapHandler (typed o L) (incapInit m stack) pass request s).request.find
          key = request.find key := by
      intro key hkey hleft
      rw [incapHandler_request, find_settled_address hkey, hleft]
      exact (find_scaled_self_iff hkey (hadm.address key hkey) (hmul key hkey)).mpr
        fun d hd => (h.address key hkey d hd).2 hleft
    exact
      { address := fun key hkey =>
          (number_scaled_iff hkey (hadm.address key hkey)).mpr (hmul key hkey)
        size := fun t c hsize =>
          scaled_size hm hoff (hadm.size t c hsize).1 (hadm.size t c hsize).2 hsize
        out := (number_out_iff hm).mpr h.out
        count := fun hcount => (number_buffer_iff hm).mpr (h.count hcount)
        payload := fun hpayload => find_buffer_iff.mpr (h.payload hpayload)
        caller := hcaller
        again := fun key hkey hleft => by
          rw [find_scaled_address hkey, find_scaled_address hkey,
            hcaller key hkey hleft] }

/-! ## A read -/

/-- A number as an item. -/
def Item.ofNumber : Option Int → Item Unit
  | some n => .int .int64 (.ofInt _ n)
  | none => .other ()

/-- The numbers, in items. -/
def items : DataLayer (Item Unit) where
  void := .ofNumber numbers.void
  action := fun a => .ofNumber (numbers.action a)
  getAction := fun d => numbers.getAction d.value
  offt := fun n => .ofNumber (numbers.offt n)
  getOfft := fun d => numbers.getOfft d.value
  getSizet := fun d => numbers.getSizet d.value
  getUintt := fun d => numbers.getUintt d.value
  ret := fun r => .ofNumber (numbers.ret r)
  getRet := fun d => numbers.getRet d.value
  transfer := fun r d => .ofNumber (numbers.transfer r d.value)
  write := fun v d => .ofNumber (numbers.write v d.value)
  multiply := fun m d => .ofNumber (numbers.multiply m d.value)
  divide := fun m d => .ofNumber (numbers.divide m d.value)
  alloc := fun n => (numbers.alloc n).map .ofNumber
  slice := fun d n size => .ofNumber (numbers.slice d.value n size)
  compare := fun r r' => numbers.compare (r.map fun x => (x.1, x.2.value))
    (r'.map fun x => (x.1, x.2.value))
  transfer_ret := fun _ _ => rfl
  getRet_ret := fun r hr => by
    show some (BitVec.ofInt 64 r).toInt = some r
    rw [BitVec.toInt_ofInt, hr]

/-- READ of record 3, into an integer. -/
def readRecord : Request (Item Unit) :=
  [(.action, .int .uint32 19), (.offset, .int .off 3), (.size, .int .size 4),
    (.buffer, .int .uint32 0)]

/-- A child that reads 70. -/
def reading : Sem (Item Unit) Unit :=
  backendPass [leafQuery items ⟨fun _ w => (0, [(.buffer, .int .uint32 70)], w)⟩]

theorem readRecord_admissible : Admissible 10 readRecord where
  address := by
    intro key hkey d hd
    simp only [addresses, List.mem_cons, List.not_mem_nil, or_false] at hkey
    rcases hkey with rfl | rfl | rfl
    · have hd : some (.int .off 3) = some d := hd
      cases hd
      exact (by decide : (word .off).Holds ((word .off).value 3 * 10))
    · have hd : none = some d := hd
      cases hd
    · have hd : none = some d := hd
      cases hd
  size := by
    intro t c h
    have h : some (Item.int .size 4) = some (.int t c) := h
    cases h
    decide

/-- Ten bytes to a record. -/
theorem incap_rescales_iff_read :
    (1 : Int) ≤ 10 ∧ (word .off).Holds 10 ∧ Admissible 10 readRecord ∧
      (Rescales (typed .wraps items) 10 0 reading readRecord ⟨(), []⟩ ↔
        Rescalable .wraps (typed .wraps items) 10 readRecord
          (incapScaled (typed .wraps items) (incapInit 10 0) readRecord)
          (reading (incapScaled (typed .wraps items) (incapInit 10 0) readRecord)
            ⟨(), []⟩).request) :=
  ⟨by decide, by decide, readRecord_admissible,
    incap_rescales_iff .wraps items 10 0 reading readRecord ⟨(), []⟩
      (by decide) (by decide) readRecord_admissible⟩

/-- The 70 that is read arrives as 7, and the next time it is record 30 that is read. -/
theorem incap_edits_request :
    Admissible 10 readRecord ∧
      (reading (incapScaled (typed .wraps items) (incapInit 10 0) readRecord)
        ⟨(), []⟩).request.find .buffer = some (.int .uint32 70) ∧
      (incapHandler (typed .wraps items) (incapInit 10 0) reading readRecord
        ⟨(), []⟩).request.find .buffer = some (.int .uint32 7) ∧
      (incapHandler (typed .wraps items) (incapInit 10 0) reading readRecord
        ⟨(), []⟩).request.find .offset = some (.int .off 30) ∧
      ¬ Rescales (typed .wraps items) 10 0 reading readRecord ⟨(), []⟩ := by
  refine ⟨readRecord_admissible, by decide, by decide, by decide, fun h => ?_⟩
  have hread : (incapHandler (typed .wraps items) (incapInit 10 0) reading readRecord
      ⟨(), []⟩).request.find .buffer
      = (reading (incapScaled (typed .wraps items) (incapInit 10 0) readRecord)
        ⟨(), []⟩).request.find .buffer :=
    h.payload (.inl (by decide))
  exact absurd hread (by decide)

end Frozen.Chain
