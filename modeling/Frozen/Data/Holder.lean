/-
# `Frozen.Data.Holder` — what a reader finds in a data holder

`ACTION_READ` copies bytes from an offset on and says how many they are.  At the end of a
holder there are three kinds of answer, and what calls it has to know all of them:

    raw_t, string_t       -1; if they have no byte at all, -1 with the size left as it was
    memory_t, buffer_t    success, and no bytes
    slice_t               -1 at its own end, and before it what it is a slice of says

`look` reads them off a holder, and `read_of_look` is the one fact about reads.
-/
import Frozen.Cache.Backend
import Frozen.Chunked.Flat

namespace Frozen.Data

open Binary Cache

/-! ## Holders -/

/-- A `data_t` that is read by its bytes. -/
inductive Holder where
  | raw (r : Raw)
  | string (c : Chars)
  | memory (m : Memory)
  /-- a `buffer_t` of chunks, by the bytes in it -/
  | buffer (bytes : List UInt8)
  | slice (off size : UInt64) (data : Holder)

namespace Holder

/-- `ACTION_READ`: the answer, the bytes copied, and `buffer_size` as
the call leaves it. -/
def read : Holder → Nat → Nat → Int × List UInt8 × Nat
  | .raw r, offset, n =>
      match r.ptr with
      | none => (-EFAULT, [], n)
      | some bytes => defaultRead bytes offset n
  | .string c, offset, n => defaultRead c.text offset n
  | .memory m, offset, n =>
      let d := (m.bytes.drop offset).take n
      (0, d, d.length)
  | .buffer bytes, offset, n =>
      let d := (bytes.drop offset).take n
      (0, d, d.length)
  | .slice off size data, offset, n =>
      if size.toNat < offset then (-EINVAL, [], n)
      else
        let n := min n (size.toNat - offset)
        if n = 0 then (-1, [], 0) else data.read ((offset + off.toNat) % 2 ^ 64) n

/-- No object is longer than the half of the addresses. -/
def Sized : Holder → Prop
  | .raw r => ∀ bytes, r.ptr = some bytes → bytes.length ≤ maxObject
  | .string c => c.mem.length ≤ maxObject
  | .memory m => m.bytes.length ≤ maxObject
  | .buffer bytes => bytes.length ≤ maxObject
  | .slice _ _ data => data.Sized

end Holder

/-! ## What is there -/

/-- What reads from an offset on come to. -/
inductive Look where
  | refused
  /-- an object without bytes: every read fails and leaves its size as it
  is, up to this sum -/
  | debris (room : Option Nat)
  /-- these bytes; a `mute` end is a read that succeeds with none -/
  | bytes (content : List UInt8) (mute : Bool)

/-- A slice of so many bytes. -/
def Look.slice (size : Nat) : Look → Look
  | .refused => .refused
  | .debris room => .debris (some ((room.map (min size)).getD size))
  | .bytes content mute =>
      .bytes (content.take size) (mute && decide (content.length < size))

/-- What `data_default_read` finds. -/
def lookDefault (bytes : List UInt8) (offset : Nat) : Look :=
  if bytes.length = 0 then .debris none
  else if bytes.length < offset then .refused
  else .bytes (bytes.drop offset) false

def Holder.look : Holder → Nat → Look
  | .raw r, offset =>
      match r.ptr with
      | none => .refused
      | some bytes => lookDefault bytes offset
  | .string c, offset => lookDefault c.text offset
  | .memory m, offset => .bytes (m.bytes.drop offset) true
  | .buffer bytes, offset => .bytes (bytes.drop offset) true
  | .slice off size data, offset =>
      if size.toNat < offset then .refused
      else if size.toNat - offset = 0 then .bytes [] false
      else (data.look ((offset + off.toNat) % 2 ^ 64)).slice (size.toNat - offset)

/-! ## Reads -/

section

variable {h : Holder} {o n : Nat} {c : List UInt8} {mute : Bool}

theorem lookDefault_bytes {bytes : List UInt8}
    (hl : lookDefault bytes o = .bytes c mute) :
    bytes ≠ [] ∧ o ≤ bytes.length ∧ c = bytes.drop o ∧ mute = false := by
  unfold lookDefault at hl
  split_ifs at hl with hnil hout
  cases hl
  exact ⟨List.ne_nil_of_length_pos (Nat.pos_of_ne_zero hnil), Nat.le_of_not_lt hout,
    rfl, rfl⟩

theorem lookDefault_add {bytes : List UInt8} (hl : lookDefault bytes o = .bytes c mute)
    {k : Nat} (hk : k ≤ c.length) :
    lookDefault bytes (o + k) = .bytes (c.drop k) mute := by
  obtain ⟨hne, hle, rfl, rfl⟩ := lookDefault_bytes hl
  rw [List.length_drop] at hk
  rw [lookDefault, if_neg (List.length_pos_of_ne_nil hne).ne', if_neg (by omega),
    List.drop_drop]

theorem Look.slice_bytes {size : Nat} {l : Look} (hl : l.slice size = .bytes c mute) :
    ∃ c' mute', l = .bytes c' mute' ∧ c = c'.take size ∧
      mute = (mute' && decide (c'.length < size)) := by
  cases l with
  | refused => cases hl
  | debris room => cases hl
  | bytes c' mute' =>
      cases hl
      exact ⟨c', mute', rfl, rfl, rfl⟩

/-- Where there are bytes the offset does not wrap. -/
theorem Holder.Sized.lt (hs : h.Sized) (hl : h.look o = .bytes c mute) (hc : c ≠ []) :
    o + c.length < 2 ^ 64 := by
  have hdefault : ∀ bytes : List UInt8, bytes.length ≤ maxObject →
      lookDefault bytes o = .bytes c mute → o + c.length < 2 ^ 64 := by
    intro bytes hlen hl
    obtain ⟨-, hle, rfl, -⟩ := lookDefault_bytes hl
    unfold maxObject at hlen
    rw [List.length_drop]
    omega
  have hdrop : ∀ bytes : List UInt8, bytes.length ≤ maxObject → c = bytes.drop o →
      o + c.length < 2 ^ 64 := by
    rintro bytes hlen rfl
    have hpos := List.length_pos_of_ne_nil hc
    unfold maxObject at hlen
    rw [List.length_drop] at hpos ⊢
    omega
  cases h with
  | raw r =>
      cases hr : r.ptr with
      | none => simp [Holder.look, hr] at hl
      | some bytes =>
          exact hdefault bytes (hs bytes hr) (by simpa [Holder.look, hr] using hl)
  | string s =>
      refine hdefault s.text ?_ hl
      exact (List.takeWhile_sublist _).length_le.trans hs
  | memory m =>
      cases hl
      exact hdrop _ hs rfl
  | buffer bytes =>
      cases hl
      exact hdrop _ hs rfl
  | slice off size data =>
      rw [Holder.look] at hl
      split_ifs at hl with hout hend
      · cases hl
        exact absurd rfl hc
      · obtain ⟨c', -, -, rfl, -⟩ := Look.slice_bytes hl
        have hlt := size.toNat_lt
        rw [List.length_take]
        omega

theorem Holder.look_add (hs : h.Sized) (hl : h.look o = .bytes c mute) {k : Nat}
    (hk : k ≤ c.length) : h.look (o + k) = .bytes (c.drop k) mute := by
  rcases Nat.eq_zero_or_pos k with rfl | hpos
  · exact hl
  have hc : c ≠ [] := List.ne_nil_of_length_pos (by omega)
  induction h generalizing o c mute with
  | raw r =>
      cases hr : r.ptr with
      | none => simp [Holder.look, hr] at hl
      | some bytes =>
          simp only [Holder.look, hr] at hl ⊢
          exact lookDefault_add hl hk
  | string s => exact lookDefault_add hl hk
  | memory m =>
      cases hl
      rw [Holder.look, List.drop_drop]
  | buffer bytes =>
      cases hl
      rw [Holder.look, List.drop_drop]
  | slice off size data ih =>
      rw [Holder.look] at hl
      split_ifs at hl with hout hend
      · cases hl
        exact absurd rfl hc
      · obtain ⟨c', mute', hdata, rfl, rfl⟩ := Look.slice_bytes hl
        rw [List.length_take] at hk
        have hc' : c' ≠ [] := List.ne_nil_of_length_pos (by omega)
        have hlt := Holder.Sized.lt (h := data) hs hdata hc'
        have hwrap : (o + k + off.toNat) % 2 ^ 64 = (o + off.toNat) % 2 ^ 64 + k := by
          rw [Nat.add_right_comm, Nat.add_mod]
          omega
        rw [Holder.look, if_neg (by omega)]
        split_ifs with hlast
        · rw [List.drop_eq_nil_of_le (by rw [List.length_take]; omega),
            decide_eq_false (by omega), Bool.and_false]
        · have hsize : size.toNat - o - k = size.toNat - (o + k) := Nat.sub_sub _ _ _
          rw [hwrap, ih hs hdata (by omega) hc', Look.slice, List.drop_take, hsize,
            List.length_drop]
          congr 3
          exact propext (by omega)

/-! ## Reads -/

theorem defaultRead_of_bytes {bytes : List UInt8}
    (hl : lookDefault bytes o = .bytes c mute) (hn : 0 < n) :
    defaultRead bytes o n
      = (if c = [] ∧ mute = false then -1 else 0, c.take n, min n c.length) := by
  obtain ⟨hne, hle, rfl, rfl⟩ := lookDefault_bytes hl
  rw [defaultRead, if_neg (List.length_pos_of_ne_nil hne).ne', if_neg (by omega)]
  by_cases hend : bytes.drop o = []
  · have hzero : bytes.length - o = 0 := by
      rw [← List.length_drop, hend, List.length_nil]
    simp [hend, hzero]
  · have hpos := List.length_pos_of_ne_nil hend
    have htake : (bytes.drop o).take (min n (bytes.length - o))
        = (bytes.drop o).take n := by
      rw [← List.length_drop, ← List.take_eq_take_min]
    rw [List.length_drop] at hpos ⊢
    rw [if_neg (by omega), if_neg fun h => hend h.1, htake]

/-- **A read where there are bytes.** -/
theorem Holder.read_of_bytes (hl : h.look o = .bytes c mute) (hn : 0 < n) :
    h.read o n = (if c = [] ∧ mute = false then -1 else 0, c.take n, min n c.length) := by
  induction h generalizing o n c mute with
  | raw r =>
      cases hr : r.ptr with
      | none => simp [Holder.look, hr] at hl
      | some bytes =>
          simp only [Holder.look, Holder.read, hr] at hl ⊢
          exact defaultRead_of_bytes hl hn
  | string s => exact defaultRead_of_bytes hl hn
  | memory m =>
      cases hl
      simp [Holder.read]
  | buffer bytes =>
      cases hl
      simp [Holder.read]
  | slice off size data ih =>
      rw [Holder.look] at hl
      rw [Holder.read]
      split_ifs at hl with hout hend
      · cases hl
        simp [if_neg hout, hend]
      · obtain ⟨c', mute', hdata, rfl, rfl⟩ := Look.slice_bytes hl
        rw [if_neg hout]
        simp only [if_neg (show min n (size.toNat - o) ≠ 0 by omega)]
        rw [ih hdata (by omega), List.take_take, List.length_take, min_assoc]
        congr 1
        -- an object without bytes ends inside every slice of it
        refine if_congr ?_ rfl rfl
        rw [List.take_eq_nil_iff, or_iff_right hend]
        refine and_congr_right fun hnil => ?_
        rw [hnil, decide_eq_true (by rw [List.length_nil]; omega), Bool.and_true]

/-! ## Objects without bytes -/

/-- What a read of this size is left with, `k` bytes on in an object without bytes. -/
def claims (room : Option Nat) (k n : Nat) : Nat :=
  (room.map fun r => min n (r - k)).getD n

theorem defaultRead_of_debris {bytes : List UInt8} {room : Option Nat}
    (hl : lookDefault bytes o = .debris room) :
    room = none ∧ ∀ x n, defaultRead bytes x n = (-1, [], n) := by
  unfold lookDefault at hl
  split_ifs at hl with hnil
  cases hl
  exact ⟨rfl, fun x n => if_pos hnil⟩

theorem Holder.read_of_none (hl : h.look o = .debris none) (x n : Nat) :
    h.read x n = (-1, [], n) := by
  cases h with
  | raw r =>
      cases hr : r.ptr with
      | none => simp [Holder.look, hr] at hl
      | some bytes =>
          simp only [Holder.look, Holder.read, hr] at hl ⊢
          exact (defaultRead_of_debris hl).2 x n
  | string s => exact (defaultRead_of_debris hl).2 x n
  | memory m => cases hl
  | buffer bytes => cases hl
  | slice off size data =>
      rw [Holder.look] at hl
      split_ifs at hl
      cases hdata : data.look ((o + off.toNat) % 2 ^ 64) <;> rw [hdata] at hl <;> cases hl

theorem Holder.read_of_some {r : Nat} (hl : h.look o = .debris (some r)) :
    0 < r ∧ o + r < 2 ^ 64 ∧ ∀ n k, 0 < n → k ≤ r →
      h.read (o + k) n = (-1, [], min n (r - k)) := by
  induction h generalizing o r with
  | raw s =>
      cases hr : s.ptr with
      | none => simp [Holder.look, hr] at hl
      | some bytes =>
          simp only [Holder.look, hr] at hl
          cases (defaultRead_of_debris hl).1
  | string s => cases (defaultRead_of_debris hl).1
  | memory m => cases hl
  | buffer bytes => cases hl
  | slice off size data ih =>
      have hsize := size.toNat_lt
      rw [Holder.look] at hl
      split_ifs at hl with hout hend
      cases hdata : data.look ((o + off.toNat) % 2 ^ 64) with
      | refused => rw [hdata] at hl; cases hl
      | bytes c mute => rw [hdata] at hl; cases hl
      | debris room =>
          rw [hdata] at hl
          cases hl
          have hdeep : ∀ m k, 0 < m → o + k < size.toNat →
              (∀ r', room = some r' → k ≤ r') →
              data.read ((o + k + off.toNat) % 2 ^ 64) m = (-1, [], claims room k m) := by
            intro m k hm hk hroom
            cases room with
            | none => exact data.read_of_none hdata _ m
            | some r' =>
                obtain ⟨-, hlt, hread⟩ := ih hdata
                have hle := hroom r' rfl
                have hwrap : (o + k + off.toNat) % 2 ^ 64 = (o + off.toNat) % 2 ^
                    64 + k := by
                  rw [Nat.add_right_comm, Nat.add_mod]
                  omega
                rw [hwrap]
                exact hread m k hm hle
          have hle : (room.map (min (size.toNat - o))).getD (size.toNat - o)
              ≤ size.toNat - o := by
            cases room with
            | none => exact le_refl _
            | some r' => exact min_le_left _ _
          refine ⟨?_, by omega, fun n k hn hk => ?_⟩
          · cases room with
            | none => exact Nat.pos_of_ne_zero hend
            | some r' => exact lt_min (Nat.pos_of_ne_zero hend) (ih hdata).1
          · rw [Holder.read, if_neg (by omega)]
            by_cases hlast : size.toNat - (o + k) = 0
            · have hzero : (room.map (min (size.toNat - o))).getD (size.toNat - o) - k
                  = 0 := by omega
              simp only [hlast, hzero, Nat.min_zero, if_true]
            · simp only [if_neg (show min n (size.toNat - (o + k)) ≠ 0 by omega)]
              rw [hdeep _ k (by omega) (by omega)]
              · cases room with
                | none =>
                    simp only [claims, Option.map_none, Option.getD_none, Nat.sub_sub]
                | some r' =>
                    simp only [claims, Option.map_some, Option.getD_some]
                    rw [min_assoc, ← Nat.sub_sub, Nat.sub_min_sub_right]
              · rintro r' rfl
                exact hk.trans (min_le_right _ _)

theorem Holder.debris_ne_zero {room : Option Nat} (hl : h.look o = .debris room) :
    room ≠ some 0 := by
  rintro rfl
  exact absurd (h.read_of_some hl).1 (lt_irrefl 0)

theorem Holder.read_of_debris {room : Option Nat} (hl : h.look o = .debris room)
    (hn : 0 < n) {k : Nat} (hk : ∀ r, room = some r → k ≤ r) :
    h.read (o + k) n = (-1, [], claims room k n) := by
  cases room with
  | none => exact h.read_of_none hl _ n
  | some r => exact (h.read_of_some hl).2.2 n k hn (hk r rfl)

theorem defaultRead_of_refused {bytes : List UInt8}
    (hl : lookDefault bytes o = .refused) : (defaultRead bytes o n).1 < -1 := by
  unfold lookDefault at hl
  split_ifs at hl with hnil hout
  rw [defaultRead, if_neg hnil, if_pos hout]
  exact (by decide : -EINVAL < -1)

/-- Nothing is read behind the end of a slice or of an object. -/
theorem Holder.read_of_refused (hl : h.look o = .refused) (hn : 0 < n) :
    (h.read o n).1 < -1 := by
  induction h generalizing o n with
  | raw r =>
      cases hr : r.ptr with
      | none =>
          simp only [Holder.read, hr]
          exact (by decide : -EFAULT < -1)
      | some bytes =>
          simp only [Holder.look, Holder.read, hr] at hl ⊢
          exact defaultRead_of_refused hl
  | string s => exact defaultRead_of_refused hl
  | memory m => cases hl
  | buffer bytes => cases hl
  | slice off size data ih =>
      rw [Holder.look] at hl
      rw [Holder.read]
      split_ifs at hl with hout hend
      · rw [if_pos hout]
        exact (by decide : -EINVAL < -1)
      · rw [if_neg hout]
        simp only [if_neg (show min n (size.toNat - o) ≠ 0 by omega)]
        cases hdata : data.look ((o + off.toNat) % 2 ^ 64) with
        | refused => exact ih hdata (by omega)
        | debris room => rw [hdata] at hl; cases hl
        | bytes c mute => rw [hdata] at hl; cases hl

end

/-! ## Buffers -/

/-- `data_buffer_t_read` of a chain of chunks. -/
def bufferRead (fuel : Nat) (st : Chunked.State) (offset buf n : Nat) :
    Except Chunked.Stop (Int × Nat × Chunked.State) := do
  let r ← st.read fuel offset buf n
  .ok (0, r.2, r.1)

/-- **A chain of chunks is read as the bytes in it.** -/
theorem bufferRead_holder {st : Chunked.State} {links : List Chunked.Link}
    {a : List UInt8} (h : Chunked.Represents st links a) {offset buf n : Nat}
    (hbuf : Chunked.Outside links buf n) :
    ∃ st' k, Lib.Returns (fun fuel => bufferRead fuel st offset buf n) (0, k, st') ∧
      Chunked.Represents st' links a ∧
      (Holder.buffer a).read offset n = (0, Chunked.bytes st'.mem buf k, k) := by
  have hread := h.read offset hbuf
  refine ⟨_, _, .bind hread (.of_forall fun fuel => rfl),
    h.gather 0 _ hbuf (min_le_left ..), ?_⟩
  rw [Chunked.bytes_gather, Holder.read, List.length_take, List.length_drop]
  congr 2
  omega

end Frozen.Data
