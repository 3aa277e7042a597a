/-
# `Frozen.Data.Convert` — from one integer type into another

An integer is converted by its bytes: as many as the destination has, or as the source
has if these are fewer, are read over zeros, and the buffer is taken for a value of the
destination.  That narrows a value well and widens one that is not negative; a negative
value gets zeros in front of its sign.  `data_get` converts if the types differ.

    get_preserves_iff   which of the values that the destination holds arrive
-/
import Frozen.Data.Arith

namespace Frozen.Data

open Lib Binary Cache

/-! ## The conversion -/

/-- A `data_t` of an integer type. -/
structure IntHolder where
  type : IntType
  ptr : Option (BitVec (word type).width)

/-- `data_default_read`, of the value in memory. -/
def IntHolder.read (src : IntHolder) (offset size : Nat) : Int × List UInt8 × Nat :=
  match src.ptr with
  | none => (-EFAULT, [], size)
  | some v => defaultRead (leBytes src.type.bytes v.toNat) offset size

section

variable (t : IntType) (fresh : BitVec (word t).width)

/-- `data_NAME_convert_from` with `FORMAT(clean)`: the answer, and what
`dst->ptr` points to. -/
def convertFrom (dst : Option (BitVec (word t).width)) (src : Option IntHolder) :
    Int × Option (BitVec (word t).width) :=
  match src with
  | none => (-EINVAL, dst)
  | some src =>
      let buffer := List.replicate DEF_BUFFER_SIZE 0
      let (ret, d, _) := src.read 0 t.bytes
      if ret ≠ 0 then (-EFAULT, some (dst.getD fresh))
      else (0, some (.ofNat _ (leNat ((overlay d buffer).take t.bytes))))

/-- `data_convert` into a variable. -/
def dataConvert (dt : BitVec (word t).width) (src : Option IntHolder) :
    Int × BitVec (word t).width :=
  let r := convertFrom t fresh (some dt) src
  (r.1, r.2.getD dt)

/-- `data_get` into a variable; a null pointer of the right type is dereferenced. -/
def dataGet (dt : BitVec (word t).width) (src : Option IntHolder) :
    Option (Int × BitVec (word t).width) :=
  match src with
  | none => some (dataConvert t fresh dt none)
  | some src =>
      if h : src.type = t then src.ptr.map fun v => (0, h ▸ v)
      else some (dataConvert t fresh dt (some src))

end

/-! ## What arrives -/

theorem leNat_overlay_zeros {d : List UInt8} {k : Nat} (hd : d.length ≤ k) (n : Nat) :
    leNat ((overlay d (List.replicate n 0)).take k) = leNat d := by
  rw [overlay, List.drop_replicate, List.take_append, List.take_of_length_le hd,
    List.take_replicate,
    leNat_append, leNat_replicate_zero, Nat.mul_zero, Nat.add_zero]

theorem pow_width (t : IntType) : 256 ^ t.bytes = 2 ^ (word t).width :=
  (pow_mul 2 8 t.bytes).symm

theorem dataConvert_eq {S D : IntType} (fresh dt : BitVec (word D).width)
    (x : BitVec (word S).width) :
    dataConvert D fresh dt (some ⟨S, some x⟩) = (0, x.setWidth (word D).width) := by
  have hS := S.bytes_pos
  have hD := D.bytes_pos
  have hmin : min D.bytes S.bytes ≠ 0 := by omega
  have hread : (IntHolder.mk S (some x)).read 0 D.bytes
      = (0, (leBytes S.bytes x.toNat).take (min D.bytes S.bytes),
        min D.bytes S.bytes) := by
    simp only [IntHolder.read, defaultRead, length_leBytes, hS.ne', if_false,
      Nat.not_lt_zero, Nat.sub_zero, hmin, List.drop_zero]
  have hlen : ((leBytes S.bytes x.toNat).take (min D.bytes S.bytes)).length
      ≤ D.bytes := by
    rw [List.length_take]
    omega
  have hbits : BitVec.ofNat (word D).width
      (leNat ((leBytes S.bytes x.toNat).take (min D.bytes S.bytes)))
      = x.setWidth (word D).width := by
    apply BitVec.eq_of_toNat_eq
    have hx : x.toNat < 256 ^ S.bytes := by
      rw [pow_width]
      exact x.isLt
    rw [BitVec.toNat_ofNat, BitVec.toNat_setWidth, ← leNat_mod, leNat_leBytes,
      Nat.mod_eq_of_lt hx, ← pow_width]
    rcases Nat.le_total D.bytes S.bytes with hle | hle
    · rw [Nat.min_eq_left hle, Nat.mod_mod]
    · rw [Nat.min_eq_right hle, Nat.mod_eq_of_lt hx]
  simp only [dataConvert, convertFrom, hread, ne_eq, not_true_eq_false, if_false,
    leNat_overlay_zeros hlen, hbits, Option.getD_some]

/-- `data_get` takes the bits that a conversion would give. -/
theorem dataGet_eq {S D : IntType} (fresh dt : BitVec (word D).width)
    (x : BitVec (word S).width) :
    dataGet D fresh dt (some ⟨S, some x⟩) = some (0, x.setWidth (word D).width) := by
  by_cases hsame : S = D
  · subst hsame
    simp [dataGet]
  · simp [dataGet, hsame, dataConvert_eq]

/-- **An integer arrives** exactly if the destination is not the wider type or the
integer is not negative. -/
theorem get_preserves_iff {S D : IntType} (fresh dt : BitVec (word D).width)
    (x : BitVec (word S).width) (hx : (word D).Holds ((word S).value x)) :
    ((∃ c, dataGet D fresh dt (some ⟨S, some x⟩) = some (0, c) ∧
      (word D).value c = (word S).value x) ↔
      D.bytes ≤ S.bytes ∨ 0 ≤ (word S).value x) ∧
    ((∃ c, dataConvert D fresh dt (some ⟨S, some x⟩) = (0, c) ∧
      (word D).value c = (word S).value x) ↔
      D.bytes ≤ S.bytes ∨ 0 ≤ (word S).value x) := by
  have hwidth : (word D).width ≤ (word S).width ↔ D.bytes ≤ S.bytes :=
    Nat.mul_le_mul_left_iff (by decide)
  rw [← hwidth, ← (word S).value_setWidth_iff hx, dataConvert_eq, dataGet_eq]
  constructor
  · constructor
    · rintro ⟨c, hc, hval⟩
      obtain ⟨-, rfl⟩ := Prod.mk.inj (Option.some_inj.mp hc)
      exact hval
    · exact fun hval => ⟨_, rfl, hval⟩
  · constructor
    · rintro ⟨c, hc, hval⟩
      obtain ⟨-, rfl⟩ := Prod.mk.inj hc
      exact hval
    · exact fun hval => ⟨_, rfl, hval⟩

theorem get_preserves_iff_small :
    (word .int).Holds ((word .int8).value 42) ∧
    ((∃ c, dataGet .int 0 0 (some ⟨.int8, some 42⟩) = some (0, c) ∧
        (word .int).value c = (word .int8).value 42) ↔
      IntType.int.bytes ≤ IntType.int8.bytes ∨ 0 ≤ (word .int8).value 42) ∧
    ((∃ c, dataConvert .int 0 0 (some ⟨.int8, some 42⟩) = (0, c) ∧
        (word .int).value c = (word .int8).value 42) ↔
      IntType.int.bytes ≤ IntType.int8.bytes ∨ 0 ≤ (word .int8).value 42) :=
  ⟨by decide, get_preserves_iff 0 0 42 (by decide)⟩

/-- -1 in eight bits becomes 255 in thirty-two. -/
theorem sign_lost :
    (word .int32).Holds ((word .int8).value (-1)) ∧ (word .int8).value (-1) = -1 ∧
      dataGet .int32 0 0 (some ⟨.int8, some (-1)⟩) = some (0, 255) ∧
      dataConvert .int32 0 0 (some ⟨.int8, some (-1)⟩) = (0, 255) ∧
      (word .int32).value 255 ≠ (word .int8).value (-1) := by
  decide

end Frozen.Data
