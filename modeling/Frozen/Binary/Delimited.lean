/-
# `Frozen.Binary.Delimited` — decoding a value with something behind it

An encoding lies in a buffer, at a place where a slider was frozen, with any
bytes behind it.  Decoding it ought to give the value and leave the slider right
behind the encoding.

The three decoders find the end in three ways: an integer reads the width of its type, a
`raw_t` reads the length in front of the bytes but then as much as its destination has,
and a string does not look for the zero at all: it reads as much as the destination has
characters, or all that is in the buffer.  `convertFrom_delimited_iff` says when that is
the length of the encoding; an empty `raw_t` is never read back, since a transfer of no
bytes is an error.
-/
import Frozen.Binary.Struct

namespace Frozen.Binary

open Lib

/-- The buffer after `ACTION_CONVERT_TO` through a slider frozen at `off`. -/
def Value.encodeAt (v : Value) (off : Nat) (buf : List UInt8) : List UInt8 :=
  (v.data.convertTo (frozenAt off) buf).2.1

/-- A decoder gave the value and left the slider right behind its encoding. -/
def Value.DecodedAt (v : Value) (off : Nat) (r : Int × Data × Slider) : Prop :=
  r.1 = 0 ∧ r.2.1.value = some v ∧ r.2.2.off = off + v.len

section

variable {fresh : Nat → UInt8} {off : Nat} {buf : List UInt8}

/-- What a value writes through a frozen slider lies in the bytes of its length. -/
theorem Value.within_frozenAt {v : Value} (hroom : off + v.len ≤ buf.length) :
    Within buf.length (v.writes (frozenAt off)) := by
  intro w hw
  have hend := (Value.mem_writes_frozenAt hw).2
  omega

theorem Value.encodeAt_solid {v : Value} (hv : v.Solid)
    (hroom : off + v.len ≤ buf.length) :
    v.encodeAt off buf = patchAll buf (v.writes (frozenAt off)) := by
  rw [Value.encodeAt, Value.convertTo_data hv (Value.within_frozenAt hroom)]

/-! ## The empty `raw_t` -/

theorem defaultWrite_empty {offset : Nat} (hoff : offset ≤ buf.length)
    (hpos : 0 < buf.length) : defaultWrite buf offset 0 (some []) = (-1, buf, 0) := by
  simp only [defaultWrite, Nat.zero_min, if_true]
  rw [if_neg (by omega), if_neg (by omega)]

theorem defaultRead_empty {offset : Nat} (hoff : offset ≤ buf.length)
    (hpos : 0 < buf.length) : defaultRead buf offset 0 = (-1, [], 0) := by
  simp only [defaultRead, Nat.zero_min, if_true]
  rw [if_neg (by omega), if_neg (by omega)]

theorem encodeAt_raw_nil (hroom : off + 8 ≤ buf.length) :
    (Value.raw []).encodeAt off buf = patch buf (off, leBytes 8 0) := by
  have hsize : (frozenAt off).write buf 0 8 (some (leBytes 8 0))
      = (0, patch buf (off, leBytes 8 0), { frozenAt off with off := off + 8 }) :=
    Slider.write_front (length_leBytes 8 0) (by decide) hroom
  have hlen : (patch buf (off, leBytes 8 0)).length = buf.length :=
    length_patch (by rw [length_leBytes]; exact hroom)
  have hdata : defaultWrite (patch buf (off, leBytes 8 0)) (8 + off) 0 (some []) = _ :=
    defaultWrite_empty (by omega) (by omega)
  simp only [Value.encodeAt, Value.data, Data.convertTo, rawConvertTo, Raw.size, Raw.ptr,
    List.length_nil, hsize, lt_self_iff_false, if_false]
  simp only [Slider.write, Slider.start, frozenAt, Option.getD_some, hdata]

theorem length_rawReadData {old bytes : List UInt8} {sl : Slider}
    (hret : (rawReadData old sl buf).1 = 0)
    (hvalue : (rawReadData old sl buf).2.1.value = some (.raw bytes)) :
    bytes.length = old.length := by
  have hlen : (sl.read buf 8 old.length).2.1.length ≤ old.length :=
    length_defaultRead_le _ _ _
  unfold rawReadData at hret hvalue
  generalize sl.read buf 8 old.length = r at hret hvalue hlen
  obtain ⟨ret, d, sl'⟩ := r
  by_cases hneg : ret < 0
  · simp only [if_pos hneg] at hret
    exact absurd hret hneg.ne
  · simp only [if_neg hneg] at hvalue
    obtain rfl := Value.raw.inj (Option.some.inj hvalue)
    rw [overlay, List.length_append, List.length_drop]
    simp only at hlen
    omega

theorem rawReadData_ne_nil (old : List UInt8) (hroom : off + 8 ≤ buf.length) :
    let r := rawReadData old { frozenAt off with off := off + 8 } buf
    ¬ (r.1 = 0 ∧ r.2.1.value = some (.raw [])) := by
  rintro r ⟨hret, hvalue⟩
  obtain rfl := List.length_eq_zero_iff.mp (length_rawReadData hret hvalue).symm
  have hempty := @defaultRead_empty buf (8 + off) (by omega) (by omega)
  revert hret
  simp [r, rawReadData, Slider.read, Slider.start, frozenAt, hempty]

/-- An empty `raw_t` is not read back into any destination. -/
theorem rawConvertFrom_nil (ptr : Option Raw) (hroom : off + 8 ≤ buf.length) :
    let r := rawConvertFrom fresh ptr (frozenAt off) ((Value.raw []).encodeAt off buf)
    ¬ (r.1 = 0 ∧ r.2.1.value = some (.raw [])) := by
  rw [encodeAt_raw_nil hroom]
  have hroom' : off + (leBytes 8 0).length ≤ buf.length := by
    rw [length_leBytes]; exact hroom
  have hlen : (patch buf (off, leBytes 8 0)).length = buf.length := length_patch hroom'
  obtain ⟨hin, hslice⟩ := readsBack_patch (w := (off, leBytes 8 0)) hroom'
  generalize patch buf (off, leBytes 8 0) = out at *
  rw [length_leBytes] at hin hslice
  have hread := @Slider.read_front (frozenAt off) out 8 (by decide) hin
  rw [start_frozenAt, hslice] at hread
  have hsize : leNat (overlay (leBytes 8 0) (blank fresh 8)) = 0 := by
    rw [overlay_of_length (by simp)]
    decide
  simp only [rawConvertFrom, hread, hsize, lt_self_iff_false, if_false]
  rcases ptr with _ | _ | old
  · exact rawReadData_ne_nil _ hin
  · exact rawReadData_ne_nil _ hin
  · simp only [not_lt_zero, if_false]
    exact rawReadData_ne_nil _ hin

/-! ## The three decoders -/

variable (fresh) in
/-- **Self-delimiting.**  A value is decoded, and the slider left right behind
its encoding, exactly if it is not an empty `raw_t` and the destination reads as
much as was written. -/
theorem Data.convertFrom_delimited_iff {v : Value} {d : Data} (hholds : d.Holds v)
    (hroom : off + v.len ≤ buf.length) (hmax : buf.length ≤ maxObject) :
    v.DecodedAt off (d.convertFrom fresh (frozenAt off) (v.encodeAt off buf)) ↔
      v.Solid ∧ v.ReadsInto buf.length off d := by
  by_cases hsolid : v.Solid
  · have hin := Value.within_frozenAt hroom
    have hlen := length_patchAll hin
    rw [Value.encodeAt_solid hsolid hroom]
    obtain ⟨hret, -, hiff⟩ := Data.convertFrom_frozenAt fresh hholds hsolid
      (hlen.le.trans hmax) (Value.storedAt_patchAll hin)
    rw [hlen] at hiff
    refine ⟨fun h => ⟨hsolid, hiff.mp ⟨h.2.2, h.2.1⟩⟩, fun h => ?_⟩
    obtain ⟨hoff, hvalue⟩ := hiff.mpr h.2
    exact ⟨hret, hvalue, hoff⟩
  · refine iff_of_false (fun h => ?_) fun h => hsolid h.1
    cases v with
    | int t v => exact hsolid trivial
    | string s => exact hsolid trivial
    | raw bytes =>
        obtain rfl : bytes = [] := not_not.mp hsolid
        cases d with
        | int t ptr => exact hholds
        | string ptr => cases ptr <;> exact hholds
        | raw ptr => exact rawConvertFrom_nil ptr hroom ⟨h.1, h.2.1⟩

end

/-- The string `a`, and two bytes behind it. -/
def shortString : Value := .string ⟨[97], clean_a⟩

def shortStringBuf : List UInt8 := [0, 0, 98, 99]

/-- A string of one character and a place for two: the zero fits, nothing more is read. -/
theorem convertFrom_delimited_iff_shortString :
    let d : Data := .string (some ⟨[120, 120, 0], by decide⟩)
    d.Holds shortString ∧ shortString.DecodedAt 0
      (d.convertFrom (fun _ => 0) (frozenAt 0)
        (shortString.encodeAt 0 shortStringBuf)) := by
  intro d
  have hholds : d.Holds shortString := by simp [d, shortString, Data.Holds]
  refine ⟨hholds, ?_⟩
  have hroom : 0 + shortString.len ≤ shortStringBuf.length := by decide
  have hmax : shortStringBuf.length ≤ maxObject := by decide
  refine (Data.convertFrom_delimited_iff (fun _ => 0) hholds hroom hmax).mpr ⟨trivial, ?_⟩
  change min (Chars.strlen _) 4 = 2
  decide

/-- Without a destination the string is allocated as long as the buffer, and takes a
byte of what follows it. -/
theorem new_string_reads_on :
    (Data.string none).Holds shortString ∧ ¬ shortString.DecodedAt 0
      ((Data.string none).convertFrom (fun _ => 0) (frozenAt 0)
        (shortString.encodeAt 0 shortStringBuf)) := by
  refine ⟨trivial, fun h => ?_⟩
  have hoff := h.2.2
  revert hoff
  decide

end Frozen.Binary
