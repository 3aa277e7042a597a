/-
# `Frozen.Lib.Word` — integer types of a machine

A type of integers is a width and whether there is a sign.  Its values are bit vectors,
each of which stands for one integer of the range of the type; `wrap` is the integer of
the range with the same low bits.

    value_ofInt_iff   exactly the integers of the range survive being stored
    value_setWidth    what is left of an integer when zero bits are put in front of it
-/
import Mathlib.Tactic

namespace Frozen.Lib

/-- An integer type. -/
structure Word where
  signed : Bool
  width : Nat
  pos : 0 < width

namespace Word

variable (W : Word)

/-- The least value. -/
def min : Int := if W.signed then -2 ^ (W.width - 1) else 0

/-- The greatest value. -/
def max : Int := if W.signed then 2 ^ (W.width - 1) - 1 else 2 ^ W.width - 1

/-- The range. -/
def Holds (z : Int) : Prop := W.min ≤ z ∧ z ≤ W.max

instance (z : Int) : Decidable (W.Holds z) := inferInstanceAs (Decidable (_ ∧ _))

/-- The integer that the bits stand for. -/
def value (b : BitVec W.width) : Int := if W.signed then b.toInt else b.toNat

/-- An integer, as it comes back from the type. -/
def wrap (z : Int) : Int := W.value (.ofInt W.width z)

/-! ## The range -/

theorem two_pow_width : (2 : Int) ^ W.width = 2 * 2 ^ (W.width - 1) := by
  rw [← pow_succ', Nat.sub_add_cancel W.pos]

theorem two_pow_pos (n : Nat) : (0 : Int) < 2 ^ n := by positivity

theorem min_of_signed (h : W.signed = true) : W.min = -W.max - 1 := by
  unfold min max
  rw [if_pos h, if_pos h]
  ring

theorem min_of_unsigned (h : W.signed = false) : W.min = 0 := by
  unfold min
  rw [h]
  rfl

theorem max_nonneg : 0 ≤ W.max := by
  have hhalf := two_pow_pos (W.width - 1)
  have hall := two_pow_pos W.width
  unfold max
  split_ifs <;> omega

theorem min_nonpos : W.min ≤ 0 := by
  have hhalf := two_pow_pos (W.width - 1)
  unfold min
  split_ifs <;> omega

theorem modulus : (2 : Int) ^ W.width = W.max - W.min + 1 := by
  have hhalf := W.two_pow_width
  unfold min max
  split_ifs <;> omega

/-! ## Values -/

theorem value_holds (b : BitVec W.width) : W.Holds (W.value b) := by
  have hmod := W.two_pow_width
  unfold Holds value min max
  split_ifs
  · have hle := b.le_toInt
    have hlt := b.toInt_lt
    omega
  · have hlt := b.isLt
    have hcast : ((2 ^ W.width : Nat) : Int) = 2 ^ W.width := by push_cast; rfl
    omega

theorem wrap_holds (z : Int) : W.Holds (W.wrap z) := W.value_holds _

/-- The low bits are kept. -/
theorem value_emod (b : BitVec W.width) : W.value b % 2 ^ W.width = (b.toNat : Int) := by
  have hlt : (b.toNat : Int) < 2 ^ W.width := by exact_mod_cast b.isLt
  unfold value
  split_ifs
  · rw [BitVec.toInt_eq_toNat_bmod]
    have hcast : ((2 ^ W.width : Nat) : Int) = 2 ^ W.width := by push_cast; rfl
    rw [← hcast, Int.bmod_emod, Int.emod_eq_of_lt (Int.natCast_nonneg _) (by omega)]
  · exact Int.emod_eq_of_lt (Int.natCast_nonneg _) hlt

theorem wrap_emod (z : Int) : W.wrap z % 2 ^ W.width = z % 2 ^ W.width := by
  have hpos := two_pow_pos W.width
  have hcast : ((2 ^ W.width : Nat) : Int) = 2 ^ W.width := by push_cast; rfl
  rw [wrap, value_emod, BitVec.toNat_ofInt, hcast,
    Int.toNat_of_nonneg (Int.emod_nonneg _ (by omega))]

/-- Two integers of the range with the same low bits are equal. -/
theorem eq_of_emod {x y : Int} (hx : W.Holds x) (hy : W.Holds y)
    (h : x % 2 ^ W.width = y % 2 ^ W.width) : x = y := by
  obtain ⟨hxmin, hxmax⟩ := hx
  obtain ⟨hymin, hymax⟩ := hy
  have hdvd : (2 : Int) ^ W.width ∣ x - y := Int.ModEq.dvd h.symm
  refine Int.eq_of_sub_eq_zero (Int.eq_zero_of_abs_lt_dvd hdvd ?_)
  rw [W.modulus, abs_lt]
  omega

theorem wrap_of_emod {x z : Int} (hx : W.Holds x)
    (h : x % 2 ^ W.width = z % 2 ^ W.width) : W.wrap z = x :=
  W.eq_of_emod (W.wrap_holds z) hx ((W.wrap_emod z).trans h.symm)

theorem wrap_of_holds {z : Int} (h : W.Holds z) : W.wrap z = z := W.wrap_of_emod h rfl

theorem wrap_above {z : Int} (h : W.Holds (z - 2 ^ W.width)) :
    W.wrap z = z - 2 ^ W.width :=
  W.wrap_of_emod h (Int.sub_emod_right z _)

theorem wrap_below {z : Int} (h : W.Holds (z + 2 ^ W.width)) :
    W.wrap z = z + 2 ^ W.width :=
  W.wrap_of_emod h (Int.add_emod_right z _)

/-- Exactly the integers of the range survive. -/
theorem value_ofInt_iff {z : Int} : W.value (.ofInt W.width z) = z ↔ W.Holds z :=
  ⟨fun h => h ▸ W.value_holds _, fun h => W.wrap_of_holds h⟩

/-- A wider type in between changes nothing. -/
theorem wrap_wrap {V : Word} (h : W.width ≤ V.width) (z : Int) :
    W.wrap (V.wrap z) = W.wrap z := by
  refine W.wrap_of_emod (W.wrap_holds z) ?_
  have hdvd : (2 : Int) ^ W.width ∣ 2 ^ V.width := pow_dvd_pow 2 h
  rw [W.wrap_emod, ← Int.emod_emod_of_dvd z hdvd,
    ← Int.emod_emod_of_dvd (V.wrap z) hdvd, V.wrap_emod]

theorem toNat_eq_of_nonneg {b : BitVec W.width} (h : 0 ≤ W.value b) :
    (b.toNat : Int) = W.value b := by
  obtain ⟨-, hmax⟩ := W.value_holds b
  have hmod := W.modulus
  have hmin := W.min_nonpos
  rw [← W.value_emod, Int.emod_eq_of_lt h (by omega)]

theorem toNat_eq_of_neg {b : BitVec W.width} (h : W.value b < 0) :
    (b.toNat : Int) = W.value b + 2 ^ W.width := by
  obtain ⟨hmin, -⟩ := W.value_holds b
  have hmod := W.modulus
  have hmax := W.max_nonneg
  rw [← W.value_emod, ← Int.add_emod_right, Int.emod_eq_of_lt (by omega) (by omega)]

/-- Bits of one type, read as another that holds the integer: it is the same unless
zeros were put in front of a sign. -/
theorem value_setWidth_iff {V : Word} {b : BitVec W.width} (h : V.Holds (W.value b)) :
    V.value (b.setWidth V.width) = W.value b ↔ V.width ≤ W.width ∨ 0 ≤ W.value b := by
  have hbits : V.value (b.setWidth V.width) = V.wrap b.toNat := by
    rw [wrap, BitVec.ofInt_natCast, ← BitVec.ofNat_toNat]
  rw [hbits]
  constructor
  · intro heq
    by_contra hnot
    rw [not_or, Nat.not_le, Int.not_le] at hnot
    obtain ⟨hlt, hneg⟩ := hnot
    have hemod := V.wrap_emod b.toNat
    have hpow : (2 : Int) ^ W.width < 2 ^ V.width := pow_lt_pow_right₀ (by decide) hlt
    obtain ⟨hmin, -⟩ := W.value_holds b
    have hmod := W.modulus
    have hmax := W.max_nonneg
    rw [heq, W.toNat_eq_of_neg hneg,
      Int.emod_eq_of_lt (a := W.value b + _) (by omega) (by omega),
      ← Int.add_emod_right, Int.emod_eq_of_lt (by omega) (by omega)] at hemod
    omega
  · rintro (hle | hnonneg)
    · refine V.wrap_of_emod h ?_
      have hdvd : (2 : Int) ^ V.width ∣ 2 ^ W.width := pow_dvd_pow 2 hle
      rw [← W.value_emod b, Int.emod_emod_of_dvd _ hdvd]
    · rw [W.toNat_eq_of_nonneg hnonneg]
      exact V.wrap_of_holds h

end Word

end Frozen.Lib
