/-
# `Frozen.Data.Slider` — a slider and what it should be

A slider puts its offset before that of a request, and afterwards moves on by what was
transferred.  It asks whether the request failed, but keeps the answer in a `size_t`,
which is never negative: it moves on after a failure too, by whatever the data left in
`buffer_size`.  That is nothing at the end of an object, and everything where the data
refused the request.

    slider_tracks_iff        the slider is a cursor as long as failures leave no size
    raw_settles_iff          when a `raw_t` is such data
    reads_consecutive        the reads of a cursor, put together
-/
import Frozen.Data.Slice

namespace Frozen.Data

open Binary

/-! ## The slider -/

/-- `slider_t`, less the data. -/
structure SliderT where
  off : UInt64
  frozenOff : UInt64

/-- `DATA_SLIDERT`: not frozen, which is a `frozen_off` of `~0`. -/
def sliderAt (off : UInt64) : SliderT := ⟨off, ~~~0⟩

/-- An answer in a `size_t`. -/
def asSize (ret : Int) : Nat := (ret % 2 ^ 64).toNat

/-- `data_slider_t_handler`. -/
def sliderHandler {σ : Type} (data : Handler σ) : Handler (σ × SliderT) := fun io s =>
  let fdata := s.2
  let r := data { io with offset := io.offset + if fdata.frozenOff ≠ ~~~0
    then fdata.frozenOff else fdata.off } s.1
  (r.1, r.2.1, r.2.2, { fdata with off := if asSize r.1 ≥ 0
    then fdata.off + r.2.1.bufferSize else fdata.off })

/-! ## Runs -/

/-- A request at offset 0: the action and the size. -/
abbrev Request := IoAction × UInt64

def Request.at (q : Request) (offset : UInt64) : Io := ⟨q.1, offset, q.2⟩

/-- What a request has transferred: a failed one, nothing. -/
def transferred (ret : Int) (io : Io) : UInt64 := if ret < 0 then 0 else io.bufferSize

section

variable {σ : Type} (data : Handler σ)

/-- Requests through a slider: the answers, and what is left in the end. -/
def sliderRun : List Request → σ × SliderT → List (Int × Io) × σ × SliderT
  | [], s => ([], s)
  | q :: qs, s =>
      let r := sliderHandler data (q.at 0) s
      let rest := sliderRun qs r.2.2
      ((r.1, r.2.1) :: rest.1, rest.2)

/-- Requests at a cursor that moves on by what was transferred. -/
def cursorRun : List Request → σ × UInt64 → List (Int × Io) × σ × UInt64
  | [], s => ([], s)
  | q :: qs, s =>
      let r := data (q.at s.2) s.1
      let rest := cursorRun qs (r.2.2, s.2 + transferred r.1 r.2.1)
      ((r.1, r.2.1) :: rest.1, rest.2)

/-- On the way of a cursor the data leaves `buffer_size` at 0 where it fails. -/
def AllSettle : List Request → σ → UInt64 → Prop
  | [], _, _ => True
  | q :: qs, s, pos =>
      let r := data (q.at pos) s
      (r.1 < 0 → r.2.1.bufferSize = 0) ∧ AllSettle qs r.2.2 (pos + transferred r.1 r.2.1)

end

section

variable {σ : Type} {data : Handler σ}

theorem sliderHandler_at (q : Request) (s : σ) (off : UInt64) :
    sliderHandler data (q.at 0) (s, sliderAt off) =
      let r := data (q.at off) s
      (r.1, r.2.1, r.2.2, sliderAt (off + r.2.1.bufferSize)) := by
  simp only [sliderHandler, sliderAt, Request.at, ne_eq, not_true_eq_false, if_false,
    UInt64.zero_add, ge_iff_le, Nat.zero_le, if_true]

/-- It moves as a cursor does, unless a failure leaves a size. -/
theorem add_transferred_iff (off : UInt64) (ret : Int) (io : Io) :
    off + io.bufferSize = off + transferred ret io ↔ (ret < 0 → io.bufferSize = 0) := by
  rw [UInt64.add_right_inj, transferred]
  by_cases hret : ret < 0
  · rw [if_pos hret, forall_prop_of_true hret]
  · rw [if_neg hret]
    exact iff_of_true rfl fun h => absurd h hret

theorem sliderRun_eq {qs : List Request} {s : σ} {off : UInt64}
    (h : AllSettle data qs s off) : sliderRun data qs (s, sliderAt off) =
      let r := cursorRun data qs (s, off)
      (r.1, r.2.1, sliderAt r.2.2) := by
  induction qs generalizing s off with
  | nil => rfl
  | cons q qs ih =>
      obtain ⟨hsettle, hrest⟩ := h
      rw [sliderRun, sliderHandler_at]
      simp only [(add_transferred_iff off _ _).mpr hsettle, ih hrest]
      rfl

theorem AllSettle.take {qs : List Request} {s : σ} {off : UInt64}
    (h : AllSettle data qs s off) (k : Nat) : AllSettle data (qs.take k) s off := by
  induction qs generalizing s off k with
  | nil => rwa [List.take_nil]
  | cons q qs ih =>
      cases k with
      | zero => trivial
      | succ k => exact ⟨h.1, ih h.2 k⟩

end

section

variable {bytes buf : List UInt8} {pos : UInt64}

theorem toNat_add_le (pos n : UInt64) : (pos + n).toNat ≤ pos.toNat + n.toNat := by
  rw [UInt64.toNat_add]
  exact Nat.mod_le ..

/-- A transfer inside an object: of no byte it fails and leaves no size. -/
theorem transferred_clipped {size len : Nat} {io : Io} (hsize : size < 2 ^ 64)
    (hpos : pos.toNat ≤ len) :
    let n := min size (len - pos.toNat)
    let ret : Int := if n = 0 then -1 else 0
    (ret < 0 → UInt64.ofNat n = 0) ∧
    (pos + transferred ret { io with bufferSize := .ofNat n }).toNat ≤ len := by
  intro n ret
  have hn : (UInt64.ofNat n).toNat = n := by
    rw [UInt64.toNat_ofNat']
    exact Nat.mod_eq_of_lt (by omega)
  by_cases h0 : n = 0
  · have hret : ret = -1 := if_pos h0
    rw [hret, h0, transferred, if_pos (by decide), UInt64.add_zero]
    exact ⟨fun _ => rfl, hpos⟩
  · have hret : ret = 0 := if_neg h0
    rw [hret, transferred, if_neg (by decide)]
    refine ⟨fun h => absurd h (by decide), (toNat_add_le _ _).trans ?_⟩
    simp only [hn]
    omega

/-- One request inside a `raw_t`: a failure leaves no size, and the next
one is inside too. -/
theorem rawHandler_at (q : Request) (hne : bytes ≠ [])
    (hpos : pos.toNat ≤ bytes.length) (hroom : q.2.toNat ≤ buf.length) :
    let r := rawHandler (q.at pos) (bytes, buf)
    (r.1 < 0 → r.2.1.bufferSize = 0) ∧
    (pos + transferred r.1 r.2.1).toNat ≤ bytes.length ∧
      r.2.2.1.length = bytes.length ∧ r.2.2.2.length = buf.length := by
  obtain ⟨action, size⟩ := q
  change size.toNat ≤ buf.length at hroom
  have hlen : bytes.length ≠ 0 := (List.length_pos_of_ne_nil hne).ne'
  have hclip := @transferred_clipped pos size.toNat bytes.length
      (Request.at (action, size) pos) size.toNat_lt hpos
  set n := min size.toNat (bytes.length - pos.toNat) with hn
  cases action with
  | read =>
      have hread : defaultRead bytes pos.toNat size.toNat =
          (if n = 0 then -1 else 0, if n = 0 then []
            else (bytes.drop pos.toNat).take n, n) := by
        rw [defaultRead, if_neg hlen, if_neg (Nat.not_lt.mpr hpos)]
        simp only [← hn]
        by_cases h0 : n = 0
        · simp only [h0, if_true]
        · simp only [if_neg h0]
      have hdata : (if n = 0 then [] else (bytes.drop pos.toNat).take n).length
          ≤ buf.length := by
        split_ifs
        · exact Nat.zero_le _
        · rw [List.length_take, List.length_drop]
          omega
      simp only [rawHandler, Request.at, hread]
      refine ⟨hclip.1, hclip.2, trivial, ?_⟩
      rw [overlay, List.length_append, List.length_drop]
      omega
  | write =>
      have hwrite : defaultWrite bytes pos.toNat size.toNat (some buf) =
          (if n = 0 then -1 else 0,
            if n = 0 then bytes else bytes.take pos.toNat ++ buf.take n ++ bytes.drop
              (pos.toNat + n), n) := by
        rw [defaultWrite, if_neg hlen]
        simp only [if_neg (Nat.not_lt.mpr hpos), ← hn]
        by_cases h0 : n = 0
        · simp only [h0, if_true]
        · simp only [if_neg h0]
      simp only [rawHandler, Request.at, hwrite]
      refine ⟨hclip.1, hclip.2, ?_, trivial⟩
      split_ifs
      · rfl
      · simp only [List.length_append, List.length_take, List.length_drop]
        omega

/-- A `raw_t` settles all requests of a cursor exactly if it has a byte and the cursor
starts in it or at its end. -/
theorem raw_settles_iff (hbuf : buf ≠ []) :
    (∀ qs : List Request, (∀ q ∈ qs, q.2.toNat ≤ buf.length) →
      AllSettle rawHandler qs (bytes, buf) pos) ↔
      bytes ≠ [] ∧ pos.toNat ≤ bytes.length := by
  constructor
  · intro h
    have hone := (h [(.read, 1)] fun q hq => ?_).1
    · by_contra hno
      by_cases hnil : bytes = []
      · simp [rawHandler, Request.at, defaultRead, hnil] at hone
      · have hlen : bytes.length ≠ 0 := (List.length_pos_of_ne_nil hnil).ne'
        have hout : bytes.length < pos.toNat := Nat.not_le.mp fun hle => hno ⟨hnil, hle⟩
        have hread : defaultRead bytes pos.toNat (1 : UInt64).toNat
            = (-EINVAL, [], 1) := by
          rw [defaultRead, if_neg hlen, if_pos hout]
          rfl
        simp only [rawHandler, Request.at, hread] at hone
        exact absurd (hone (by decide : -EINVAL < 0)) (by decide)
    · rw [List.mem_singleton.mp hq]
      exact List.length_pos_of_ne_nil hbuf
  · rintro ⟨hne, hpos⟩ qs hroom
    induction qs generalizing bytes buf pos with
    | nil => trivial
    | cons q qs ih =>
        obtain ⟨hsettle, hnext, hlen, hlen'⟩ :=
          rawHandler_at q hne hpos (hroom q (List.mem_cons_self ..))
        refine ⟨hsettle, ih ?_ ?_ ?_ fun q' hq' => ?_⟩
        · exact List.ne_nil_of_length_pos (hlen' ▸ List.length_pos_of_ne_nil hbuf)
        · exact List.ne_nil_of_length_pos (hlen ▸ List.length_pos_of_ne_nil hne)
        · rw [hlen]
          exact hnext
        · rw [hlen']
          exact hroom q' (List.mem_cons_of_mem q hq')

end

/-! ## Pieces -/

/-- Reads of a holder; what they give is put behind what there is. -/
def Holder.gather (h : Holder) : Handler (List UInt8) := fun io s =>
  let r := h.read io.offset.toNat io.bufferSize.toNat
  (r.1, { io with bufferSize := .ofNat r.2.2 }, if r.1 < 0 then s else s ++ r.2.1)

section

variable {h : Holder} {c : List UInt8} {mute : Bool} {pos : UInt64}

theorem Holder.read_nothing {o : Nat} (hl : h.look o = .bytes c mute) :
    ∃ ret, h.read o 0 = (ret, [], 0) := by
  have hdefault : ∀ bytes : List UInt8, lookDefault bytes o = .bytes c mute →
      defaultRead bytes o 0 = (-1, [], 0) := by
    intro bytes hbytes
    obtain ⟨hne, hle, -, -⟩ := lookDefault_bytes hbytes
    rw [defaultRead, if_neg (List.length_pos_of_ne_nil hne).ne',
      if_neg (Nat.not_lt.mpr hle)]
    simp only [Nat.zero_min, if_true]
  cases h with
  | raw r =>
      cases hr : r.ptr with
      | none => simp [Holder.look, hr] at hl
      | some bytes =>
          simp only [Holder.look, Holder.read, hr] at hl ⊢
          exact ⟨-1, hdefault bytes hl⟩
  | string s => exact ⟨-1, hdefault s.text hl⟩
  | memory m => exact ⟨0, by simp [Holder.read]⟩
  | buffer bytes => exact ⟨0, by simp [Holder.read]⟩
  | slice off size data =>
      rw [Holder.look] at hl
      split_ifs at hl with hout hend
      · exact ⟨-1, by simp [Holder.read, hout]⟩
      · exact ⟨-1, by simp [Holder.read, hout]⟩

/-- A read where there are bytes gives the first of them, and nothing if it fails. -/
theorem Holder.read_front {o : Nat} (hl : h.look o = .bytes c mute) (n : Nat) :
    ∃ ret k, h.read o n = (ret, c.take k, k) ∧ k ≤ c.length ∧ k ≤ n ∧
      (ret < 0 → k = 0) := by
  rcases Nat.eq_zero_or_pos n with rfl | hn
  · obtain ⟨ret, hread⟩ := Holder.read_nothing hl
    exact ⟨ret, 0, by rw [hread, List.take_zero], Nat.zero_le _, le_rfl, fun _ => rfl⟩
  · refine ⟨if c = [] ∧ mute = false then -1 else 0, min n c.length, ?_,
      min_le_right .., min_le_left .., fun hret => ?_⟩
    · rw [Holder.read_of_bytes hl hn, ← List.take_eq_take_min]
    · by_cases hend : c = [] ∧ mute = false
      · rw [hend.1, List.length_nil, Nat.min_zero]
      · rw [if_neg hend] at hret
        exact absurd hret (by decide)

/-- **Pieces.**  The successful reads of a cursor are consecutive pieces of the data,
whatever failed between them, and the cursor is behind the last of them. -/
theorem reads_consecutive (hs : h.Sized) (sizes : List UInt64) :
    ∀ {c : List UInt8} {pos : UInt64} {got : List UInt8},
      h.look pos.toNat = .bytes c mute →
      AllSettle h.gather (sizes.map (IoAction.read, ·)) got pos ∧
        ∃ k ≤ c.length, (cursorRun h.gather (sizes.map (IoAction.read, ·))
          (got, pos)).2.1 = got ++ c.take k ∧
          (cursorRun h.gather (sizes.map (IoAction.read, ·)) (got, pos)).2.2.toNat
            = pos.toNat + k := by
  induction sizes with
  | nil =>
      intro c pos got hl
      exact ⟨trivial, 0, Nat.zero_le _, (List.append_nil got).symm, rfl⟩
  | cons n sizes ih =>
      intro c pos got hl
      obtain ⟨ret, k, hread, hk, hkn, hfail⟩ := Holder.read_front hl n.toNat
      have hn : (UInt64.ofNat k).toNat = k := by
        rw [UInt64.toNat_ofNat']
        exact Nat.mod_eq_of_lt (lt_of_le_of_lt hkn n.toNat_lt)
      have hsum : pos.toNat + k < 2 ^ 64 := by
        rcases Nat.eq_zero_or_pos k with rfl | hpos
        · exact pos.toNat_lt
        · exact lt_of_le_of_lt (Nat.add_le_add_left hk _)
            (hs.lt hl (List.ne_nil_of_length_pos (by omega)))
      have hstep : h.gather (Request.at (.read, n) pos) got =
          (ret, ⟨.read, pos, .ofNat k⟩, got ++ c.take k) := by
        simp only [Holder.gather, Request.at, hread]
        by_cases hret : ret < 0
        · rw [if_pos hret, hfail hret, List.take_zero, List.append_nil]
        · rw [if_neg hret]
      have hmoved : (pos + transferred ret ⟨.read, pos, .ofNat k⟩).toNat
          = pos.toNat + k := by
        rw [← (add_transferred_iff pos ret ⟨.read, pos, .ofNat k⟩).mpr
          fun hret => by rw [hfail hret]; rfl,
          UInt64.toNat_add, hn, Nat.mod_eq_of_lt hsum]
      have hlook : h.look (pos + transferred ret ⟨.read, pos, .ofNat k⟩).toNat
          = .bytes (c.drop k) mute := by
        rw [hmoved]
        exact Holder.look_add hs hl hk
      obtain ⟨hsettle, k', hk', hgot, hend⟩ := @ih _ _ (got ++ c.take k) hlook
      rw [List.length_drop] at hk'
      simp only [List.map_cons, AllSettle, cursorRun, hstep]
      refine ⟨⟨fun hret => by rw [hfail hret]; rfl, hsettle⟩, k + k', by omega, ?_, ?_⟩
      · rw [hgot, List.append_assoc, List.take_add]
      · rw [hend, hmoved, Nat.add_assoc]

theorem slider_reads_consecutive (hs : h.Sized) (hl : h.look pos.toNat = .bytes c mute)
    (sizes : List UInt64) : ∃ k ≤ c.length,
      (sliderRun h.gather (sizes.map (IoAction.read, ·)) ([], sliderAt pos)).2.1
        = c.take k ∧
      (sliderRun h.gather (sizes.map (IoAction.read, ·))
        ([], sliderAt pos)).2.2.off.toNat = pos.toNat + k := by
  obtain ⟨hsettle, k, hk, hgot, hend⟩ := @reads_consecutive h mute hs sizes c pos [] hl
  refine ⟨k, hk, ?_, ?_⟩
  · rw [sliderRun_eq hsettle]
    exact hgot
  · rw [sliderRun_eq hsettle]
    exact hend

end

end Frozen.Data
