/-
# `Frozen.Data.Slice` — slices of data

A slice adds its offset to that of a request and clips the request to its size.  What it
is a slice of is any data that is read and written by offsets, another slice too.  The
clipping is right in the slice's own offsets; the sum is taken modulo 2^64, and nothing
looks at that: from 2^64 on a request comes out at the beginning of the data, in front
of the slice.

    confined_iff   a request stays inside all slices, or is refused, exactly if no sum wraps
-/
import Frozen.Data.Holder
import Frozen.Cache.Transfer

namespace Frozen.Data

open Lib

/-! ## Requests -/

inductive IoAction where
  | read | write
deriving DecidableEq

/-- `fastcall_io`, less the buffer, which is part of the state. -/
structure Io where
  action : IoAction
  offset : UInt64
  bufferSize : UInt64
deriving DecidableEq

/-- `ACTION_READ` and `ACTION_WRITE` of a `data_t`: the answer, the request as it is
left, and what has become of the rest of the program. -/
abbrev Handler (σ : Type) := Io → σ → Int × Io × σ

/-- `slice_t`, less the data. -/
structure Slice where
  off : UInt64
  size : UInt64

/-- The request that a slice hands on. -/
def clipped (fdata : Slice) (io : Io) : Io :=
  { io with
    offset := io.offset + fdata.off
    bufferSize := min io.bufferSize (fdata.size - io.offset) }

/-- `data_slice_t_handler`. -/
def sliceHandler {σ : Type} (fdata : Slice) (data : Handler σ) : Handler σ := fun io s =>
  if io.offset > fdata.size then (-EINVAL, io, s)
  else
    let n := min io.bufferSize (fdata.size - io.offset)
    if n = 0 then (-1, { io with bufferSize := n }, s) else data (clipped fdata io) s

/-- Slices of slices of data, the outermost first. -/
def sliced {σ : Type} (slices : List Slice) (data : Handler σ) : Handler σ :=
  slices.foldr sliceHandler data

/-! ## Confinement -/

/-- Where the first byte of the outermost slice lies in the data, in the integers. -/
def origin (slices : List Slice) : Nat := (slices.map fun sl => sl.off.toNat).sum

/-- These bytes of the data belong to every slice. -/
def Inside : List Slice → Nat → Nat → Prop
  | [], _, _ => True
  | sl :: inner, start, n =>
      origin (sl :: inner) ≤ start ∧ start + n ≤ origin (sl :: inner) + sl.size.toNat ∧
      Inside inner start n

/-- A request that is refused, with nothing done, or served by the data: at the offset
that is meant, with at most the bytes that are asked for, and with none that does not
belong to every slice. -/
def Confined (slices : List Slice) (io : Io) : Prop :=
  (∃ ret io', ret < 0 ∧ ∀ (σ : Type) (data : Handler σ) (s : σ),
    sliced slices data io s = (ret, io', s)) ∨
    ∃ io' : Io, io'.action = io.action ∧
    io'.offset.toNat = origin slices + io.offset.toNat ∧
      io'.bufferSize ≤ io.bufferSize ∧
      Inside slices io'.offset.toNat io'.bufferSize.toNat ∧
      ∀ (σ : Type) (data : Handler σ) (s : σ), sliced slices data io s = data io' s

/-- One of the slices does not let the request pass: its offset is behind the end, or it
has no byte to transfer. -/
def Refused : List Slice → Io → Prop
  | [], _ => False
  | sl :: inner, io =>
      sl.size < io.offset ∨ min io.bufferSize (sl.size - io.offset) = 0 ∨
      Refused inner (clipped sl io)

/-- The request that comes to the data, if it is not refused. -/
def passed : List Slice → Io → Io
  | [], io => io
  | sl :: inner, io => passed inner (clipped sl io)

section

variable {slices : List Slice} {io : Io}

theorem sliced_of_refused (h : Refused slices io) :
    ∃ ret io', ret < 0 ∧ ∀ (σ : Type) (data : Handler σ) (s : σ),
      sliced slices data io s = (ret, io', s) := by
  induction slices generalizing io with
  | nil => exact absurd h id
  | cons sl inner ih =>
      by_cases hout : io.offset > sl.size
      · exact ⟨-EINVAL, io, by decide, fun σ data s => if_pos hout⟩
      · by_cases h0 : min io.bufferSize (sl.size - io.offset) = 0
        · refine ⟨-1, { io with bufferSize := min io.bufferSize (sl.size - io.offset)
            }, by decide, fun σ data s => ?_⟩
          exact (if_neg hout).trans (if_pos h0)
        · obtain ⟨ret, io', hret, hrun⟩ := ih ((h.resolve_left hout).resolve_left h0)
          exact ⟨ret, io', hret,
            fun σ data s => ((if_neg hout).trans (if_neg h0)).trans (hrun σ data s)⟩

theorem sliced_of_passed (h : ¬ Refused slices io) (σ : Type) (data : Handler σ) (s : σ) :
    sliced slices data io s = data (passed slices io) s := by
  induction slices generalizing io with
  | nil => rfl
  | cons sl inner ih =>
      obtain ⟨hout, h0, hrest⟩ := by simpa only [Refused, not_or] using h
      exact ((if_neg hout).trans (if_neg h0)).trans (ih hrest)

/-- The offset that comes to the data is the one that is meant, modulo 2^64. -/
theorem passed_offset :
    (passed slices io).offset.toNat = (origin slices + io.offset.toNat) % 2 ^ 64 := by
  induction slices generalizing io with
  | nil =>
      have hlt := io.offset.toNat_lt
      simp only [passed, origin, List.map_nil, List.sum_nil, Nat.zero_add]
      exact (Nat.mod_eq_of_lt hlt).symm
  | cons sl inner ih =>
      rw [passed, ih]
      simp only [clipped, origin, List.map_cons, List.sum_cons, UInt64.toNat_add]
      omega

theorem passed_action : (passed slices io).action = io.action := by
  induction slices generalizing io with
  | nil => rfl
  | cons sl inner ih => exact ih

theorem clipped_size_le (sl : Slice) (io : Io) :
    (clipped sl io).bufferSize ≤ io.bufferSize ∧
      (clipped sl io).bufferSize ≤ sl.size - io.offset := by
  simp only [clipped]
  exact ⟨Std.min_le_left, Std.min_le_right⟩

theorem passed_size_le : (passed slices io).bufferSize ≤ io.bufferSize := by
  induction slices generalizing io with
  | nil => exact UInt64.le_refl _
  | cons sl inner ih => exact UInt64.le_trans ih (clipped_size_le sl io).1

theorem passed_inside (h : ¬ Refused slices io)
    (hwrap : origin slices + io.offset.toNat < 2 ^ 64) :
    Inside slices (origin slices + io.offset.toNat)
      (passed slices io).bufferSize.toNat := by
  induction slices generalizing io with
  | nil => trivial
  | cons sl inner ih =>
      obtain ⟨hout, h0, hrest⟩ := by simpa only [Refused, not_or] using h
      have horigin : origin (sl :: inner) = sl.off.toNat + origin inner := List.sum_cons
      have hoffset : (clipped sl io).offset.toNat = io.offset.toNat + sl.off.toNat := by
        simp only [clipped, UInt64.toNat_add]
        omega
      have hsum : origin (sl :: inner) + io.offset.toNat
          = origin inner + (clipped sl io).offset.toNat := by omega
      have hclip : (passed inner (clipped sl io)).bufferSize.toNat
          ≤ sl.size.toNat - io.offset.toNat := by
        have hle := UInt64.le_trans (@passed_size_le inner (clipped sl io))
            (clipped_size_le sl io).2
        rwa [UInt64.le_iff_toNat_le,
          UInt64.toNat_sub_of_le _ _ (UInt64.not_lt.mp hout)] at hle
      have hin : io.offset.toNat ≤ sl.size.toNat :=
        UInt64.le_iff_toNat_le.mp (UInt64.not_lt.mp hout)
      refine ⟨Nat.le_add_right _ _, ?_, ?_⟩
      · rw [passed]
        omega
      · rw [hsum, passed]
        exact ih hrest (by omega)

/-- Where a confined request is passed on, its offset has not wrapped. -/
theorem no_wrap_of_confined (hrefused : ¬ Refused slices io) (h : Confined slices io) :
    origin slices + io.offset.toNat < 2 ^ 64 := by
  -- data that answers 0 and shows the request that it got
  have hshow : ∀ {ret : Int} {io' : Io} {s' : Unit},
      sliced slices (fun io s => (0, io, s)) io () = (ret, io', s') →
      0 = ret ∧ passed slices io = io' := by
    intro ret io' s' heq
    rw [sliced_of_passed hrefused] at heq
    obtain ⟨hret, hio⟩ := Prod.mk.inj heq
    exact ⟨hret, (Prod.mk.inj hio).1⟩
  rcases h with ⟨ret, io', hret, hrun⟩ | ⟨io', -, hoffset, -, -, hrun⟩
  · exact absurd hret (by rw [← (hshow (hrun Unit _ ())).1]; decide)
  · rw [← hoffset]
    exact io'.offset.toNat_lt

end

/-- **Confinement.**  Reads and writes through slices stay inside all of them, whatever
they are slices of, exactly if a slice refuses the request or the sum of the offsets
does not wrap. -/
theorem confined_iff (slices : List Slice) (io : Io) :
    Confined slices io ↔ Refused slices io ∨
      origin slices + io.offset.toNat < 2 ^ 64 := by
  by_cases hrefused : Refused slices io
  · exact iff_of_true (.inl (sliced_of_refused hrefused)) (.inl hrefused)
  · rw [or_iff_right hrefused]
    refine ⟨no_wrap_of_confined hrefused, fun hwrap => ?_⟩
    have hoffset : (passed slices io).offset.toNat = origin slices + io.offset.toNat := by
      rw [passed_offset, Nat.mod_eq_of_lt hwrap]
    refine .inr ⟨passed slices io, passed_action, hoffset, passed_size_le, ?_,
      sliced_of_passed hrefused⟩
    rw [hoffset]
    exact passed_inside hrefused hwrap

/-- A slice from four bytes before 2^64 on, without an end, passes offset
6 on as offset 2. -/
theorem slice_wraps :
    ¬ Confined [⟨0xFFFFFFFFFFFFFFFC, 0xFFFFFFFFFFFFFFFF⟩] ⟨.read, 6, 1⟩ ∧
      (Holder.slice 0xFFFFFFFFFFFFFFFC 0xFFFFFFFFFFFFFFFF
        (.raw (.mem [10, 11, 12, 13]))).read 6 1 = (0, [12], 1) := by
  refine ⟨fun h => absurd (no_wrap_of_confined ?_ h) (by decide), rfl⟩
  rintro (hout | h0 | hrest)
  · exact absurd hout (by decide)
  · exact absurd h0 (by decide)
  · exact hrest

/-! ## Bytes -/

/-- `data_default_read` and `data_default_write` of a `raw_t`, with the
buffer of the request. -/
def rawHandler : Handler (List UInt8 × List UInt8) := fun io s =>
  match io.action with
  | .read =>
      let r := Binary.defaultRead s.1 io.offset.toNat io.bufferSize.toNat
      (r.1, { io with bufferSize := .ofNat r.2.2 }, (s.1, Binary.overlay r.2.1 s.2))
  | .write =>
      let r := Binary.defaultWrite s.1 io.offset.toNat io.bufferSize.toNat (some s.2)
      (r.1, { io with bufferSize := .ofNat r.2.2 }, (r.2.1, s.2))

section

variable {slices : List Slice} {io : Io}

theorem Inside.mem {start n k : Nat} (h : Inside slices start n) (hle : start ≤ k)
    (hlt : k < start + n) : Inside slices k 1 := by
  induction slices with
  | nil => trivial
  | cons sl inner ih =>
      obtain ⟨hlo, hhi, hrest⟩ := h
      exact ⟨by omega, by omega, ih hrest⟩

theorem getElem?_defaultWrite {buf d : List UInt8} {offset size k : Nat}
    (hd : size ≤ d.length) (hk : ¬ (offset ≤ k ∧ k < offset + size)) :
    (Binary.defaultWrite buf offset size (some d)).2.1[k]? = buf[k]? := by
  simp only [Binary.defaultWrite]
  split_ifs with hnil hout h0
  · rfl
  · rfl
  · rfl
  · have hlen : (d.take (min size (buf.length - offset))).length
        = min size (buf.length - offset) := by
      rw [List.length_take]
      omega
    have hwrite : writeAt buf offset (d.take (min size (buf.length - offset))) =
        some (buf.take offset ++ d.take (min size (buf.length - offset)) ++
          buf.drop (offset + min size (buf.length - offset))) := by
      rw [writeAt, hlen, if_pos (by omega)]
    rw [getElem?_writeAt hwrite, if_neg (by omega)]

theorem defaultRead_zero {buf : List UInt8} {offset size : Nat}
    (h : (Binary.defaultRead buf offset size).1 = 0) :
    (Binary.defaultRead buf offset size).2.1 = (buf.drop offset).take size := by
  simp only [Binary.defaultRead] at h ⊢
  split_ifs at h ⊢ with hnil hout h0
  · exact absurd h (by decide : (-1 : Int) ≠ 0)
  · exact absurd h (by decide : -EINVAL ≠ 0)
  · exact absurd h (by decide : (-1 : Int) ≠ 0)
  · rw [← List.length_drop, ← List.take_eq_take_min]

/-- What a confined request does to the bytes of a `raw_t`: those that are not
in every slice stay as they are, and what is read is what the data has at the
offset that is meant. -/
theorem Confined.raw (h : Confined slices io) (s : List UInt8 × List UInt8)
    (hroom : io.bufferSize.toNat ≤ s.2.length) :
    let r := sliced slices rawHandler io s
    (∀ k, ¬ Inside slices k 1 → r.2.2.1[k]? = s.1[k]?) ∧
      (io.action = .read → r.1 = 0 → ∃ n ≤ io.bufferSize.toNat,
        r.2.2.2 = Binary.overlay ((s.1.drop (origin slices + io.offset.toNat)).take n)
          s.2) := by
  rcases h with ⟨ret, io', hret, hrun⟩ | ⟨io', haction, hoffset, hsize, hinside, hrun⟩
  · simp only [hrun]
    exact ⟨fun _ _ => trivial, fun _ h0 => absurd hret (by rw [h0]; decide)⟩
  · rw [UInt64.le_iff_toNat_le] at hsize
    simp only [hrun, rawHandler]
    cases hact : io'.action with
    | read =>
        refine ⟨fun _ _ => rfl, fun _ h0 => ⟨io'.bufferSize.toNat, hsize, ?_⟩⟩
        rw [defaultRead_zero h0, hoffset]
    | write =>
        refine ⟨fun k hk => getElem?_defaultWrite (hsize.trans hroom) fun hin => ?_,
          fun hread => ?_⟩
        · exact hk (hinside.mem hin.1 hin.2)
        · rw [← haction, hact] at hread
          cases hread

/-! ## The other readers of slices -/

/-- Slices of a holder. -/
def Holder.sliced (slices : List Slice) (h : Holder) : Holder :=
  slices.foldr (fun sl h => .slice sl.off sl.size h) h

theorem clipped_size_toNat {sl : Slice} (h : ¬ sl.size < io.offset) :
    (min io.bufferSize (sl.size - io.offset)).toNat = min io.bufferSize.toNat
      (sl.size.toNat - io.offset.toNat) := by
  rw [UInt64.toNat_min, UInt64.toNat_sub_of_le _ _ (UInt64.not_lt.mp h)]

/-- A read of a sliced holder is refused, or it is the read of the holder
that is passed on. -/
theorem Holder.read_sliced (h : Holder) :
    (Refused slices io →
      ((h.sliced slices).read io.offset.toNat io.bufferSize.toNat).1 < 0) ∧
      (¬ Refused slices io → (h.sliced slices).read io.offset.toNat io.bufferSize.toNat =
        h.read (passed slices io).offset.toNat (passed slices io).bufferSize.toNat) := by
  induction slices generalizing io with
  | nil => exact ⟨fun h => absurd h id, fun _ => rfl⟩
  | cons sl inner ih =>
      rw [Holder.sliced, List.foldr_cons, Holder.read, passed]
      by_cases hout : sl.size < io.offset
      · rw [if_pos (UInt64.lt_iff_toNat_lt.mp hout)]
        exact ⟨fun _ => (by decide : -EINVAL < 0), fun hno => absurd (.inl hout) hno⟩
      · rw [if_neg (mt UInt64.lt_iff_toNat_lt.mpr hout), ← clipped_size_toNat hout]
        by_cases h0 : min io.bufferSize (sl.size - io.offset) = 0
        · rw [h0]
          exact ⟨fun _ => (by decide : (-1 : Int) < 0),
            fun hno => absurd (.inr (.inl h0)) hno⟩
        · have hrest : Refused (sl :: inner) io ↔ Refused inner (clipped sl io) := by
            rw [Refused, or_iff_right hout, or_iff_right h0]
          have hoffset : (io.offset.toNat + sl.off.toNat) % 2 ^ 64
              = (clipped sl io).offset.toNat :=
            (UInt64.toNat_add ..).symm
          have hpos : (min io.bufferSize (sl.size - io.offset)).toNat ≠ 0 :=
            fun hz => h0 (UInt64.toNat_inj.mp hz)
          rw [hrest, hoffset]
          simp only [if_neg hpos]
          exact ih

/-- The slices that the file and the cache make of a request: a read of one. -/
theorem sliceRead_passed (fdata : Slice) (data : Cache.Reader) (io : Io) :
    (Refused [fdata] io → ∃ ret < 0,
      Cache.sliceRead fdata.off.toNat fdata.size.toNat data io.offset.toNat
        io.bufferSize.toNat = .ok (ret, [])) ∧
    (¬ Refused [fdata] io →
      Cache.sliceRead fdata.off.toNat fdata.size.toNat data io.offset.toNat
        io.bufferSize.toNat =
        data (passed [fdata] io).offset.toNat (passed [fdata] io).bufferSize.toNat) := by
  by_cases hout : fdata.size < io.offset
  · exact ⟨fun _ => ⟨-EINVAL, by decide, if_pos (UInt64.lt_iff_toNat_lt.mp hout)⟩,
    fun hno => absurd (.inl hout) hno⟩
  · have hsize := clipped_size_toNat hout
    have hlt := mt UInt64.lt_iff_toNat_lt.mpr hout
    by_cases h0 : min io.bufferSize (fdata.size - io.offset) = 0
    · rw [h0] at hsize
      exact ⟨fun _ => ⟨-1, by decide, (if_neg hlt).trans (if_pos hsize.symm)⟩,
        fun hno => absurd (.inr (.inl h0)) hno⟩
    · have hpos : ¬ min io.bufferSize.toNat (fdata.size.toNat - io.offset.toNat)
          = 0 := fun hz =>
        h0 (UInt64.toNat_inj.mp (hsize.trans hz))
      refine ⟨fun hyes => absurd ((hyes.resolve_left hout).resolve_left h0) id,
        fun _ => ?_⟩
      rw [Cache.sliceRead, if_neg hlt, if_neg hpos, ← hsize, ← UInt64.toNat_add]
      rfl

theorem sliceWrite_passed {σ : Type} (fdata : Slice) (data : Cache.Writer σ) (io : Io)
    (bytes : List UInt8) (s : σ) (hlen : io.bufferSize.toNat = bytes.length) :
    (Refused [fdata] io → ∃ ret n, ret < 0 ∧
      Cache.sliceWrite fdata.off.toNat fdata.size.toNat data io.offset.toNat bytes s
        = .ok (ret, n, s)) ∧
    (¬ Refused [fdata] io →
      Cache.sliceWrite fdata.off.toNat fdata.size.toNat data io.offset.toNat bytes s =
        data (passed [fdata] io).offset.toNat
          (bytes.take (passed [fdata] io).bufferSize.toNat) s) := by
  by_cases hout : fdata.size < io.offset
  · exact ⟨fun _ => ⟨-EINVAL, _, by decide, if_pos (UInt64.lt_iff_toNat_lt.mp hout)⟩,
    fun hno => absurd (.inl hout) hno⟩
  · have hsize := clipped_size_toNat hout
    have hlt := mt UInt64.lt_iff_toNat_lt.mpr hout
    rw [hlen] at hsize
    by_cases h0 : min io.bufferSize (fdata.size - io.offset) = 0
    · rw [h0] at hsize
      exact ⟨fun _ => ⟨-1, 0, by decide, (if_neg hlt).trans (if_pos hsize.symm)⟩,
        fun hno => absurd (.inr (.inl h0)) hno⟩
    · have hpos : ¬ min bytes.length (fdata.size.toNat - io.offset.toNat) = 0 := fun hz =>
        h0 (UInt64.toNat_inj.mp (hsize.trans hz))
      refine ⟨fun hyes => absurd ((hyes.resolve_left hout).resolve_left h0) id,
        fun _ => ?_⟩
      have htake : bytes.take (passed [fdata] io).bufferSize.toNat
          = bytes.take (fdata.size.toNat - io.offset.toNat) := by
        change bytes.take (min io.bufferSize (fdata.size - io.offset)).toNat = _
        rw [hsize, Nat.min_comm, ← List.take_take, List.take_length]
      rw [Cache.sliceWrite, if_neg hlt, if_neg hpos, ← UInt64.toNat_add, htake]
      rfl

end

end Frozen.Data
