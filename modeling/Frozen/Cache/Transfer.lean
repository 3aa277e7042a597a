/-
# `Frozen.Cache.Transfer` — moving bytes between data holders

`data_default_convert_to` reads a source in pieces of 1024 bytes and writes each of them
to a destination, until one of the two says that it is at its end.  It is the transfer
between every two holders that do not have one of their own, and it knows nothing about
lengths: a source that answers "no bytes" instead of the end leaves it to the
destination to stop the loop.

    Served             a source has these bytes, and then one of two ends
    convertTo_rule     what holds between the pieces holds of the whole transfer
    convertTo_buffer   a transfer to a buffer fills it as far as both go
-/
import Frozen.Core.Base
import Frozen.Binary.Buffer
import Frozen.Lib.Bytes
import Frozen.Lib.Fuel

namespace Frozen.Cache

open Lib

/-- `DEF_BUFFER_SIZE`. -/
def DEF_BUFFER_SIZE : Nat := 1024

/-! ## Holders -/

/-- `ACTION_READ` at an offset, of so many bytes: what it answers, and
the bytes it gives. -/
abbrev Reader := Nat → Nat → Except OutOfFuel (Int × List UInt8)

/-- `ACTION_WRITE` at an offset: what it answers, how many bytes it takes, and the holder
behind it. -/
abbrev Writer (σ : Type) := Nat → List UInt8 → σ → Except OutOfFuel (Int × Nat × σ)

/-- `data_slice_t_handler`, `ACTION_READ`. -/
def sliceRead (off size : Nat) (data : Reader) : Reader := fun offset bufferSize =>
  if size < offset then .ok (-EINVAL, [])
  else if min bufferSize (size - offset) = 0 then .ok (-1, [])
  else data ((offset + off) % 2 ^ 64) (min bufferSize (size - offset))

/-- `data_slice_t_handler`, `ACTION_WRITE`. -/
def sliceWrite {σ : Type} (off size : Nat) (data : Writer σ) :
    Writer σ := fun offset bytes s =>
  if size < offset then .ok (-EINVAL, bytes.length, s)
  else if min bytes.length (size - offset) = 0 then .ok (-1, 0, s)
  else data ((offset + off) % 2 ^ 64) (bytes.take (size - offset)) s

/-- `data_default_write` of a `raw_t`. -/
def rawWrite : Writer (List UInt8) := fun offset bytes buf =>
  let r := Binary.defaultWrite buf offset bytes.length (some bytes)
  .ok (r.1, r.2.2, r.2.1)

/-! ## Transfers -/

section

variable {σ : Type} (read : Reader) (write : Writer σ)

/-- The loop of `data_default_convert_to`, from `start` on; `transfered` is `woffset`. -/
def convertToLoop : Nat → Nat → Nat → List UInt8 → σ → Except OutOfFuel (Int × Nat × σ)
  | 0, _, _, _, _ => .error .outOfFuel
  | n + 1, roffset, woffset, bytes, s => do
      let (wret, k, s) ← write woffset bytes s
      if wret < -1 then .ok (wret, 0, s)
      else if wret = -1 then .ok (0, woffset, s)
      else do
        let (rret, bytes) ← read roffset DEF_BUFFER_SIZE
        if rret < -1 then .ok (rret, 0, s)
        else if rret = -1 then .ok (0, woffset + k, s)
        else convertToLoop n (roffset + bytes.length) (woffset + k) bytes s

/-- `data_default_convert_to`: what it answers, `transfered`, and the destination. -/
def convertTo (n : Nat) (s : σ) : Except OutOfFuel (Int × Nat × σ) := do
  let (rret, bytes) ← read 0 DEF_BUFFER_SIZE
  if rret < 0 then .ok (rret, 0, s)
  else convertToLoop read write n bytes.length 0 bytes s

end

/-- `data_default_transfer` of a `raw_t`, whose `ACTION_CONVERT_TO` is one write. -/
def rawTransfer {σ : Type} (bytes : List UInt8) (write : Writer σ) (s : σ) :
    Except OutOfFuel (Int × Nat × σ) := do
  let (ret, k, s) ← write 0 bytes s
  if ret ≠ 0 then .ok (ret, 0, s) else .ok (0, k, s)

/-! ## Sources -/

/-- The source has these bytes; at their end it answers `-1`, or that there are none. -/
structure Served (read : Reader) (data : List UInt8) (eof : Int) : Prop where
  inside : ∀ o, o < data.length →
    ∃ k, 0 < k ∧ read o DEF_BUFFER_SIZE = .ok (0, (data.drop o).take k)
  last : read data.length DEF_BUFFER_SIZE = .ok (eof, [])
  eof : eof = -1 ∨ eof = 0

section

variable {σ : Type} {read : Reader} {write : Writer σ} {data : List UInt8} {eof : Int}

/-- What a transfer has done between two pieces: `P r w s` after `r` bytes were read and
`w` of them were taken; `Q w s` is what it comes to. -/
structure Carried (data : List UInt8) (eof : Int) (write : Writer σ)
    (P : Nat → Nat → σ → Prop) (Q : Nat → σ → Prop) : Prop where
  piece : ∀ r w s k, P r w s → r < data.length → 0 < k →
    (∃ m s', write w ((data.drop r).take k) s = .ok (-1, m, s') ∧ Q w s') ∨
    ∃ m s', write w ((data.drop r).take k) s = .ok (0, m, s') ∧
      P (r + ((data.drop r).take k).length) (w + m) s'
  ended : ∀ w s, P data.length w s → eof = -1 → Q w s
  empty : ∀ w s, P data.length w s → eof = 0 → ∃ m s',
    write w [] s = .ok (-1, m, s') ∧ Q w s'

theorem convertToLoop_next {n r w m : Nat} {bytes bytes' : List UInt8}
    {rret : Int} {s s' : σ} (hw : write w bytes s = .ok (0, m, s'))
    (hr : read r DEF_BUFFER_SIZE = .ok (rret, bytes')) :
    convertToLoop read write (n + 1) r w bytes s =
      if rret < -1 then .ok (rret, 0, s')
      else if rret = -1 then .ok (0, w + m, s')
      else convertToLoop read write n (r + bytes'.length) (w + m) bytes' s' := by
  rw [convertToLoop, hw]
  change (read r DEF_BUFFER_SIZE >>= _) = _
  rw [hr]
  rfl

theorem convertToLoop_rule (hread : Served read data eof) {P : Nat → Nat → σ → Prop}
    {Q : Nat → σ → Prop} (hwrite : Carried data eof write P Q) {n r w : Nat}
    {bytes : List UInt8} {s : σ} (hP : P r w s) (hn : data.length - r < n)
    (hbytes : (∃ k, 0 < k ∧ bytes = (data.drop r).take k ∧ r < data.length) ∨
      (bytes = [] ∧ r = data.length ∧ eof = 0)) :
    ∃ t s', convertToLoop read write n (r + bytes.length) w bytes s = .ok
    (0, t, s') ∧ Q t s' := by
  induction n generalizing r w bytes s with
  | zero => omega
  | succ n ih =>
      rcases hbytes with ⟨k, hk, rfl, hr⟩ | ⟨rfl, rfl, heof⟩
      · rcases hwrite.piece r w s k hP hr hk with ⟨m, s', hw, hQ⟩ | ⟨m, s', hw, hP'⟩
        · refine ⟨w, s', ?_, hQ⟩
          rw [convertToLoop, hw]
          rfl
        · have hlen : ((data.drop r).take k).length = min k (data.length - r) := by simp
          by_cases hlast : r + ((data.drop r).take k).length = data.length
          · rw [hlast] at hP'
            rcases hread.eof with heof | heof
            · refine ⟨w + m, s', ?_, hwrite.ended _ _ hP' heof⟩
              rw [hlast, convertToLoop_next hw hread.last, heof]
              rfl
            · obtain ⟨t, s'', hloop, hQ⟩ := ih hP' (by omega) (.inr ⟨rfl, rfl, heof⟩)
              refine ⟨t, s'', ?_, hQ⟩
              rw [hlast, convertToLoop_next hw hread.last, heof]
              exact hloop
          · obtain ⟨k', hk', hnext⟩ :=
              hread.inside (r + ((data.drop r).take k).length) (by omega)
            obtain ⟨t, s'', hloop, hQ⟩ :=
              ih hP' (by omega) (.inl ⟨k', hk', rfl, by omega⟩)
            refine ⟨t, s'', ?_, hQ⟩
            rw [convertToLoop_next hw hnext]
            exact hloop
      · obtain ⟨m, s', hw, hQ⟩ := hwrite.empty w s hP heof
        refine ⟨w, s', ?_, hQ⟩
        rw [convertToLoop, hw]
        rfl

/-- The rule of the transfer. -/
theorem convertTo_rule (hread : Served read data eof) {P : Nat → Nat → σ → Prop}
    {Q : Nat → σ → Prop} (hwrite : Carried data eof write P Q) {n : Nat} {s : σ}
    (hP : P 0 0 s) (hn : data.length < n) (hdata : data ≠ [] ∨ eof = 0) :
    ∃ t s', convertTo read write n s = .ok (0, t, s') ∧ Q t s' := by
  cases hempty : data with
  | nil =>
      have heof : eof = 0 := hdata.resolve_left fun h => h hempty
      obtain ⟨t, s', hloop, hQ⟩ := convertToLoop_rule hread hwrite hP (by omega)
        (.inr ⟨rfl, by simp [hempty], heof⟩)
      refine ⟨t, s', ?_, hQ⟩
      have hlast : read 0 DEF_BUFFER_SIZE = .ok (0, []) := by
        simpa [hempty, heof] using hread.last
      rw [convertTo, hlast]
      exact hloop
  | cons b bs =>
      have hlen : 0 < data.length := by simp [hempty]
      obtain ⟨k, hk, hfirst⟩ := hread.inside 0 hlen
      obtain ⟨t, s', hloop, hQ⟩ := convertToLoop_rule hread hwrite hP (by omega)
        (.inl ⟨k, hk, rfl, hlen⟩)
      refine ⟨t, s', ?_, hQ⟩
      rw [convertTo, hfirst]
      rw [Nat.zero_add] at hloop
      exact hloop

theorem convertTo_eof (hread : Served read [] (-1)) (n : Nat) (s : σ) :
    convertTo read write n s = .ok (-1, 0, s) := by
  have hlast : read 0 DEF_BUFFER_SIZE = .ok (-1, []) := hread.last
  rw [convertTo, hlast]
  rfl

end

/-! ## Buffers -/

/-- A buffer with bytes over its front, as far as it goes. -/
def fillFront (data buf : List UInt8) (w : Nat) : List UInt8 := data.take w ++ buf.drop w

theorem length_fillFront {data buf : List UInt8} {w : Nat} (hdata : w ≤ data.length)
    (hbuf : w ≤ buf.length) : (fillFront data buf w).length = buf.length := by
  simp only [fillFront, List.length_append, List.length_take, List.length_drop]
  omega

/-- The next bytes behind those that are there. -/
theorem fillFront_next (data buf : List UInt8) {w k : Nat} (hdata : w + k ≤ data.length) :
    (fillFront data buf w).take w ++ (data.drop w).take k ++
      (fillFront data buf w).drop (w + k) = fillFront data buf (w + k) := by
  have hlen : (data.take w).length = w := by
    rw [List.length_take]
    omega
  have htake : (fillFront data buf w).take w = data.take w := by
    rw [fillFront, List.take_append_of_le_length (by omega),
      List.take_of_length_le (by omega)]
  have hdrop : (fillFront data buf w).drop (w + k) = buf.drop (w + k) := by
    rw [fillFront, List.drop_append, List.drop_eq_nil_of_le (by omega), List.nil_append,
      List.drop_drop, hlen]
    congr 1
    omega
  rw [htake, hdrop, fillFront, List.take_add]

/-- A buffer that takes nothing says so. -/
theorem rawWrite_full {bytes buf : List UInt8} {w : Nat} (hw : w ≤ buf.length)
    (h : min bytes.length (buf.length - w) = 0) :
    ∃ m, rawWrite w bytes buf = .ok (-1, m, buf) := by
  unfold rawWrite Binary.defaultWrite
  by_cases hbuf : buf.length = 0
  · exact ⟨_, by rw [if_pos hbuf]⟩
  · refine ⟨0, ?_⟩
    simp only [if_neg hbuf, if_neg (Nat.not_lt.mpr hw), h, if_true]

/-- Bytes written behind those that are there. -/
theorem rawWrite_next {data buf : List UInt8} {w k : Nat} (hdata : w ≤ data.length)
    (hbuf : w ≤ buf.length) (h : min ((data.drop w).take k).length (buf.length - w) ≠ 0) :
    rawWrite w ((data.drop w).take k) (fillFront data buf w) =
      .ok (0, min ((data.drop w).take k).length (buf.length - w),
        fillFront data buf (w + min ((data.drop w).take k).length (buf.length - w))) := by
  have hlen := length_fillFront hdata hbuf
  have hle : min ((data.drop w).take k).length (buf.length - w) ≤ k := by
    rw [List.length_take]
    omega
  have hin : w + min ((data.drop w).take k).length (buf.length - w) ≤ data.length := by
    rw [List.length_take, List.length_drop]
    omega
  simp only [rawWrite, Binary.defaultWrite, hlen, if_neg h, if_neg (Nat.not_lt.mpr hbuf)]
  rw [if_neg (by omega), List.take_take, min_eq_left hle]
  simp only [fillFront_next _ _ hin]

/-- A transfer to a buffer fills it as far as both go. -/
theorem convertTo_buffer {read : Reader} {data : List UInt8} {eof : Int}
    (hread : Served read data eof) (buf : List UInt8) {n : Nat} (hn : data.length < n)
    (hdata : data ≠ [] ∨ eof = 0) :
    convertTo read rawWrite n buf = .ok (0, min data.length buf.length,
      fillFront data buf (min data.length buf.length)) := by
  -- between two pieces the buffer holds what was read, or it is full
  have hcarried : Carried data eof rawWrite
      (fun r w s => r ≤ data.length ∧ w = min r buf.length ∧ s = fillFront data buf w)
      (fun w s => w = min data.length buf.length ∧ s = fillFront data buf w) := by
    refine ⟨?_, ?_, ?_⟩
    · rintro r w s k ⟨hr, rfl, rfl⟩ hlt hk
      have hbuf : min r buf.length ≤ buf.length := min_le_right _ _
      by_cases hfull : r < buf.length
      · have hmin : min r buf.length = r := min_eq_left hfull.le
        have hne : min ((data.drop r).take k).length (buf.length - r) ≠ 0 := by
          rw [List.length_take, List.length_drop]
          omega
        rw [hmin]
        refine .inr ⟨_, _, rawWrite_next hr hfull.le hne, ?_, ?_, rfl⟩
        · rw [List.length_take, List.length_drop]
          omega
        · rw [List.length_take, List.length_drop]
          omega
      · have hmin : min r buf.length = buf.length := min_eq_right (by omega)
        rw [hmin]
        have hlen : (fillFront data buf buf.length).length = buf.length :=
          length_fillFront (by omega) le_rfl
        have hstop : ∃ m, rawWrite buf.length ((data.drop r).take k) _ = .ok (-1, m, _) :=
          rawWrite_full hlen.ge (by rw [hlen]; omega)
        obtain ⟨m, hw⟩ := hstop
        exact .inl ⟨m, _, hw, by omega, rfl⟩
    · rintro w s ⟨-, rfl, rfl⟩ -
      exact ⟨rfl, rfl⟩
    · rintro w s ⟨-, rfl, rfl⟩ -
      have hlen : (fillFront data buf (min data.length buf.length)).length = buf.length :=
        length_fillFront (min_le_left _ _) (min_le_right _ _)
      have hfull : ∃ m, rawWrite (min data.length buf.length) [] _ = .ok (-1, m, _) :=
        rawWrite_full (by rw [hlen]; exact min_le_right _ _) (by simp)
      obtain ⟨m, hw⟩ := hfull
      exact ⟨m, _, hw, rfl, rfl⟩
  have hstart : 0 ≤ data.length ∧ 0 = min 0 buf.length ∧ buf = fillFront data buf 0 :=
    ⟨Nat.zero_le _, by simp, by simp [fillFront]⟩
  obtain ⟨t, s, hrun, rfl, rfl⟩ := convertTo_rule hread hcarried hstart hn hdata
  exact hrun

end Frozen.Cache
