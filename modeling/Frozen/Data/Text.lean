/-
# `Frozen.Data.Text` — the byte string in a holder

A `raw_t` and a `string_t` have a byte string, and a slice has a piece of one.
`ACTION_LOGICALLEN` gives its length (`logicalLen_of_text`), and reads give its
bytes and fail from its end on (`read_of_keeps`), as long as no sum of the offsets
of slices wraps.
-/
import Frozen.Data.Holder

namespace Frozen.Data

open Binary Cache

namespace Holder

/-- `length` after an `ACTION_LOGICALLEN`, which never fails. -/
def logicalLen : Holder → Nat
  | .raw r => r.size
  | .string c => c.text.length
  | .memory m => m.size
  | .buffer bytes => bytes.length
  | .slice off size data =>
      if data.logicalLen < off.toNat then 0
      else min size.toNat (data.logicalLen - off.toNat)

/-- The byte string in a `raw_t`, in a `string_t` or in a slice. -/
def text : Holder → Option (List UInt8)
  | .raw r => r.ptr
  | .string c => some c.text
  | .memory _ => none
  | .buffer _ => none
  | .slice off size data => data.text.map fun c => (c.drop off.toNat).take size.toNat

/-- Where the outermost slice begins in what it is a slice of in the end,
in the integers. -/
def start : Holder → Nat
  | .slice off _ data => off.toNat + data.start
  | _ => 0

/-- The holder has these bytes, and no sum of offsets up to their end wraps. -/
structure Keeps (h : Holder) (c : List UInt8) : Prop where
  sized : h.Sized
  text : h.text = some c
  plain : h.start + c.length < 2 ^ 64

variable {h : Holder} {c : List UInt8}

theorem logicalLen_of_text (ht : h.text = some c) : h.logicalLen = c.length := by
  induction h generalizing c with
  | raw r =>
      cases r with
      | null size => cases ht
      | mem bytes =>
          cases ht
          rfl
  | string s =>
      cases ht
      rfl
  | memory m => cases ht
  | buffer bytes => cases ht
  | slice off size data ih =>
      obtain ⟨c', hdata, rfl⟩ := Option.map_eq_some_iff.mp ht
      rw [logicalLen, ih hdata, List.length_take, List.length_drop]
      split_ifs with hout
      · rw [Nat.sub_eq_zero_of_le hout.le, Nat.min_zero]
      · rfl

theorem logicalLen_of_keeps (hk : h.Keeps c) : h.logicalLen = c.length :=
  logicalLen_of_text hk.text

theorem defaultRead_split {bytes : List UInt8} {o n : Nat} (hn : 0 < n) :
    (o < bytes.length →
      defaultRead bytes o n = (0, (bytes.drop o).take n, min n (bytes.length - o))) ∧
    (bytes.length ≤ o → (defaultRead bytes o n).1 ≠ 0) := by
  constructor
  · intro ho
    have htake : (bytes.drop o).take (min n (bytes.length - o))
        = (bytes.drop o).take n := by
      rw [← List.length_drop, ← List.take_eq_take_min]
    rw [defaultRead, if_neg (by omega), if_neg (by omega)]
    simp only [if_neg (show min n (bytes.length - o) ≠ 0 by omega), htake]
  · intro ho
    rw [defaultRead]
    split_ifs with hnil hout
    · exact (by decide : (-1 : Int) ≠ 0)
    · exact (by decide : -EINVAL ≠ 0)
    · simp only [if_pos (show min n (bytes.length - o) = 0 by omega)]
      decide

/-- **Reads of a byte string**: its bytes, and a failure from its end on. -/
theorem read_of_text (hs : h.Sized) (ht : h.text = some c) {o n : Nat}
    (ho : h.start + o < 2 ^ 64) (hn : 0 < n) :
    (o < c.length → h.read o n = (0, (c.drop o).take n, min n (c.length - o))) ∧
    (c.length ≤ o → (h.read o n).1 ≠ 0) := by
  induction h generalizing c o n with
  | raw r =>
      cases r with
      | null size => cases ht
      | mem bytes =>
          cases ht
          exact defaultRead_split hn
  | string s =>
      cases ht
      exact defaultRead_split hn
  | memory m => cases ht
  | buffer bytes => cases ht
  | slice off size data ih =>
      obtain ⟨c', hdata, rfl⟩ := Option.map_eq_some_iff.mp ht
      rw [start] at ho
      have hwrap : (o + off.toNat) % 2 ^ 64 = o + off.toNat := Nat.mod_eq_of_lt (by omega)
      rw [List.length_take, List.length_drop, read, hwrap]
      split_ifs with hout
      · exact ⟨fun hlt => absurd hlt (by omega), fun _ => (by decide : -EINVAL ≠ 0)⟩
      by_cases hend : min n (size.toNat - o) = 0
      · simp only [if_pos hend]
        exact ⟨fun hlt => absurd hlt (by omega), fun _ => by decide⟩
      simp only [if_neg hend]
      obtain ⟨hbytes, hfail⟩ :=
        ih hs hdata (o := o + off.toNat) (by omega) (Nat.pos_of_ne_zero hend)
      refine ⟨fun hlt => ?_, fun hle => hfail (by omega)⟩
      rw [hbytes (by omega), List.drop_take, List.take_take, List.drop_drop,
        Nat.add_comm o]
      congr 2
      rw [min_assoc, ← Nat.sub_sub, Nat.sub_min_sub_right]

theorem read_of_keeps (hk : h.Keeps c) {o n : Nat} (ho : o ≤ c.length) (hn : 0 < n) :
    (o < c.length → h.read o n = (0, (c.drop o).take n, min n (c.length - o))) ∧
    (c.length ≤ o → (h.read o n).1 ≠ 0) := by
  have hplain := hk.plain
  exact read_of_text hk.sized hk.text (by omega) hn

theorem Keeps.length_lt (hk : h.Keeps c) : c.length < 2 ^ 64 :=
  lt_of_le_of_lt (Nat.le_add_left _ _) hk.plain

theorem length_le_of_text (hs : h.Sized) (ht : h.text = some c) :
    c.length ≤ maxObject := by
  induction h generalizing c with
  | raw r => exact hs c ht
  | string s =>
      cases ht
      exact (List.takeWhile_sublist _).length_le.trans hs
  | memory m => cases ht
  | buffer bytes => cases ht
  | slice off size data ih =>
      obtain ⟨c', hdata, rfl⟩ := Option.map_eq_some_iff.mp ht
      rw [List.length_take, List.length_drop]
      exact (min_le_right _ _).trans ((Nat.sub_le _ _).trans (ih hs hdata))

/-! ## Holders of a byte string -/

theorem keeps_raw (hc : c.length ≤ maxObject) : (Holder.raw (.mem c)).Keeps c where
  sized bytes hb := by
    cases hb
    exact hc
  text := rfl
  plain := by
    unfold maxObject at hc
    simp only [start]
    omega

theorem keeps_string (s : Chars) (hs : s.mem.length ≤ maxObject) :
    (Holder.string s).Keeps s.text where
  sized := hs
  text := rfl
  plain := by
    have hle : s.text.length ≤ s.mem.length := (List.takeWhile_sublist _).length_le
    unfold maxObject at hs
    simp only [start]
    omega

/-- In a slice of a whole object no sum wraps. -/
theorem keeps_slice (hk : h.Keeps c) (hstart : h.start = 0) (hc : c.length ≤ maxObject)
    (off size : UInt64) :
    (Holder.slice off size h).Keeps ((c.drop off.toNat).take size.toNat) where
  sized := hk.sized
  text := by rw [text, hk.text, Option.map_some]
  plain := by
    have hoff := off.toNat_lt
    unfold maxObject at hc
    rw [start, hstart, List.length_take, List.length_drop]
    omega

end Holder

end Frozen.Data
