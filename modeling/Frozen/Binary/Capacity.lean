/-
# `Frozen.Binary.Capacity` — packing into a buffer that is too small

`struct_pack` over values of any type that is converted through a slider, in the format
that each field names.  A handler hands its bytes over in pieces: an integer or a string
in one, a `raw_t` in `FORMAT(binary)` in two, and a type without a handler of its own
piece by piece, as it is read.  Hash keys, formats and data types know strings only and
answer `-ENOSYS`.

A buffer that is full answers `-1`, one that is not clips what it is given and answers
`0`.  So the packer hears of a lack of room only through the NEXT piece.  A field of a
type of its own is lost silently if the buffer ends inside its last piece; a piecewise
field always, since its loop takes `-1` of the destination for the end.  The next field
finds the buffer full, and says so unless it is piecewise too.
`structPack_complete_iff` is the exact condition.
-/
import Frozen.Binary.Struct

namespace Frozen.Binary.Capacity

open Lib

/-! ## Values and formats -/

/-- `FORMAT(...)`; `other` is any format that no handler below knows. -/
inductive Format where
  | clean | human | binary | other
deriving DecidableEq

/-- What a type without `ACTION_CONVERT_TO` gives to reads at ascending offsets: pieces,
then an answer below zero, `-1` at the end. -/
structure Stream where
  pieces : List (List UInt8)
  last : Int
  solid : ∀ c ∈ pieces, c ≠ []
  ends : last < 0

/-- A value of a field. -/
inductive Content where
  | data (d : Data)
  | stream (s : Stream)
  /-- `hash_key_t`, `format_t` and `datatype_t`. -/
  | name

/-- `ACTION_CONVERT_TO` of the integer types, of `string_t` and of `raw_t`. -/
def dataConvertTo (format : Format) (d : Data) (sl : Slider) (buf : List UInt8) :
    Int × List UInt8 × Slider :=
  match d with
  | .int t ptr =>
      match format with
      | .clean | .binary => intConvertTo t ptr sl buf
      | _ => (-ENOSYS, buf, sl)
  | .string none => (-EINVAL, buf, sl)
  | .string (some c) =>
      match format with
      | .binary => stringConvertTo (some c) sl buf
      | .clean | .human => sl.write buf 0 c.strlen (some (c.mem.take c.strlen))
      | .other => (-ENOSYS, buf, sl)
  | .raw none => (-EINVAL, buf, sl)
  | .raw (some r) =>
      match format with
      | .clean => sl.write buf 0 r.size r.ptr
      | .binary => rawConvertTo (some r) sl buf
      | _ => (-ENOSYS, buf, sl)

/-- The loop of `data_default_convert_to`, from its write on. -/
def convertLoop (last : Int) : Nat → List (List UInt8) → Slider → List UInt8 →
    Int × List UInt8 × Slider
  | _, [], sl, buf => (if last = -1 then 0 else last, buf, sl)
  | woffset, c :: cs, sl, buf =>
      let (wret, buf', sl') := sl.write buf woffset c.length (some c)
      if wret < -1 then (wret, buf', sl')
      else if wret = -1 then (0, buf', sl')
      else convertLoop last (woffset + (sl'.off - sl.off)) cs sl' buf'

/-- `data_default_convert_to`; the end of the file in the first read is an error. -/
def defaultConvertTo (s : Stream) (sl : Slider) (buf : List UInt8) :
    Int × List UInt8 × Slider :=
  match s.pieces with
  | [] => (s.last, buf, sl)
  | c :: cs => convertLoop s.last 0 (c :: cs) sl buf

/-- `data_query(value, ACTION_CONVERT_TO)`; `data_default_convert_to` has no formats. -/
def Content.convertTo (format : Format) :
    Content → Slider → List UInt8 → Int × List UInt8 × Slider
  | .data d, sl, buf => dataConvertTo format d sl buf
  | .stream s, sl, buf => defaultConvertTo s sl buf
  | .name, sl, buf => (-ENOSYS, buf, sl)

/-! ## The packer -/

/-- The parameters of a field.  Without `HK(format)` the format is `FORMAT(binary)`. -/
structure Params where
  format : Format := .binary
  default : Option Content := none

/-- `struct_iter_pack`; a field that is no hash has no parameters. -/
def structIterPack (values : Hash Content) (e : Entry (Option Params)) (ctx : PackCtx) :
    Except PackCtx PackCtx :=
  match e with
  | .item key (some params) =>
      match (values.find key).or params.default with
      | none => .error ctx
      | some value =>
          let (ret, buf, sl) := value.convertTo params.format ctx.sl.freeze ctx.buf
          if ret ≠ 0 then .error ⟨buf, sl⟩ else .ok ⟨buf, sl.unfreeze⟩
  | .item _ none => .error ctx
  | _ => .ok ctx

/-- `struct_pack`: the answer and the buffer. -/
def structPack (structure_ : Hash (Option Params)) (values : Hash Content)
    (buf : List UInt8) : Nat × List UInt8 :=
  match structure_.iter itemFlags (structIterPack values) ⟨buf, { off := 0 }⟩ with
  | .error ctx => (0, ctx.buf)
  | .ok ctx => (ctx.sl.off, ctx.buf)

/-- With `FORMAT(binary)` and integers, strings and raw data this is the packer of
`Frozen.Binary.Struct`. -/
theorem structPack_binary (structure_ : Hash Field) (values : Hash Data)
    (buf : List UInt8) :
    structPack (structure_.map fun f => some { default := f.default.map .data })
      (values.map .data) buf = Binary.structPack structure_ values buf := by
  have hdata : ∀ d : Data, dataConvertTo .binary d = d.convertTo := by
    intro d
    rcases d with _ | (_ | _) | (_ | _) <;> rfl
  have hstep : ∀ e : Entry Field,
      structIterPack (values.map .data)
        (e.map fun f => some { default := f.default.map .data })
        = Binary.structIterPack values e := by
    intro e
    funext ctx
    cases e with
    | item key field =>
        have hfind : ((values.map Content.data).find key).or (field.default.map .data)
            = ((values.find key).or field.default).map .data := by
          rw [Hash.find_map]
          cases values.find key <;> rfl
        simp only [Entry.map, structIterPack, Binary.structIterPack, hfind]
        cases (values.find key).or field.default with
        | none => rfl
        | some d => simp only [Option.map_some, Content.convertTo, hdata]
    | null => rfl
    | inline => rfl
    | last => rfl
  have hiter : (structure_.map fun f => some { default := f.default.map .data }).iter
      itemFlags (structIterPack (values.map .data)) ⟨buf, { off := 0 }⟩
        = structure_.iter itemFlags (Binary.structIterPack values)
          ⟨buf, { off := 0 }⟩ := by
    simp only [Hash.iter_eq_foldlM, Hash.entries_map, List.foldlM_map, hstep]
  rw [structPack, hiter]
  unfold Binary.structPack
  cases structure_.iter itemFlags (Binary.structIterPack values) ⟨buf, { off := 0 }⟩
    <;> rfl

/-! ## One piece -/

section Piece

variable {off x : Nat} {buf d : List UInt8}

/-- A slider frozen at `off` that has moved on to `x`. -/
def movedTo (off x : Nat) : Slider := { off := x, frozenOff := some off }

/-- The slider stands in the buffer, unless there is none. -/
def Placed (buf : List UInt8) (x : Nat) : Prop := x ≤ buf.length ∨ buf.length = 0

theorem write_fits {offset : Nat} (hd : d ≠ [])
    (h : offset + off + d.length ≤ buf.length) :
    (movedTo off x).write buf offset d.length (some d)
      = (0, patch buf (offset + off, d), movedTo off (x + d.length)) :=
  Slider.write_fits rfl (List.length_pos_iff.mpr hd) h

/-- The buffer ends inside the piece: it is clipped, and nothing is said. -/
theorem write_clipped {offset : Nat} (hin : offset + off < buf.length)
    (hend : buf.length < offset + off + d.length) :
    ∃ buf', (movedTo off x).write buf offset d.length (some d)
        = (0, buf', movedTo off (x + (buf.length - (offset + off)))) ∧
        buf'.length = buf.length := by
  have hmin : min d.length (buf.length - (offset + off))
      = buf.length - (offset + off) := by omega
  refine ⟨buf.take (offset + off) ++ d.take (buf.length - (offset + off))
    ++ buf.drop (offset + off + (buf.length - (offset + off))), ?_, ?_⟩
  · simp only [Slider.write, Slider.start, movedTo, Option.getD_some, defaultWrite, hmin]
    rw [if_neg (by omega), if_neg (by omega), if_neg (by omega)]
  · simp only [List.length_append, List.length_take, List.length_drop]
    omega

/-- The buffer is full: the write answers `-1` at its end, `-EINVAL` behind it. -/
theorem write_full {offset : Nat} (h : buf.length ≤ offset + off) :
    ∃ ret moved, (movedTo off x).write buf offset d.length (some d)
      = (ret, buf, movedTo off (x + moved)) ∧
      ret < 0 ∧ (Placed buf (offset + off) → ret = -1 ∧ moved = if buf.length = 0
        then d.length else 0) := by
  have hmin : min d.length (buf.length - (offset + off)) = 0 := by omega
  simp only [Slider.write, Slider.start, movedTo, Option.getD_some, defaultWrite,
    Placed, hmin, if_true]
  by_cases h0 : buf.length = 0
  · simp only [if_pos h0]
    exact ⟨-1, d.length, rfl, by decide, fun _ => ⟨rfl, rfl⟩⟩
  · by_cases hlt : buf.length < offset + off
    · simp only [if_neg h0, if_pos hlt]
      exact ⟨-EINVAL, d.length, rfl, by decide, fun hplaced => absurd hplaced (by omega)⟩
    · simp only [if_neg h0, if_neg hlt]
      exact ⟨-1, 0, rfl, by decide, fun _ => ⟨rfl, rfl⟩⟩

end Piece

/-! ## What a value wants to write -/

/-- The bytes of some pieces. -/
def total (pieces : List (List UInt8)) : Nat := (pieces.map List.length).sum

/-- Pieces, one behind the other from `x` on. -/
def piecesAt : Nat → List (List UInt8) → List (Nat × List UInt8)
  | _, [] => []
  | x, c :: cs => (x, c) :: piecesAt (x + c.length) cs

/-- The pieces of an integer, a string or raw data; none if the handler has nothing to
give or does not know the format. -/
def dataPieces (format : Format) : Data → List (List UInt8)
  | .int t (some v) =>
      match format with
      | .clean | .binary => [leBytes t.bytes v.toNat]
      | _ => []
  | .string (some c) =>
      match format with
      | .binary => [c.text ++ [0]]
      | .clean | .human => [c.text]
      | .other => []
  | .raw (some (.mem bytes)) =>
      match format with
      | .clean => [bytes]
      | .binary => [leBytes 8 bytes.length, bytes]
      | _ => []
  | _ => []

def Content.pieces (format : Format) : Content → List (List UInt8)
  | .data d => dataPieces format d
  | .stream s => s.pieces
  | .name => []

def Content.len (format : Format) (v : Content) : Nat := total (v.pieces format)

/-- The value is converted if there is room: there is something to write, no piece is
empty, and a piecewise value is read to its end. -/
def Content.Sound (format : Format) (v : Content) : Prop :=
  v.pieces format ≠ [] ∧ (∀ c ∈ v.pieces format, c ≠ []) ∧
    match v with
    | .stream s => s.last = -1
    | _ => True

/-- The handler answers zero although there is room for `room` bytes only: the
buffer ends inside the last piece, or the value is piecewise (and the reads do not
fail afterwards). -/
def Content.Swallows (format : Format) (room : Nat) (v : Content) : Prop :=
  room < v.len format ∧
    match v with
    | .stream s => s.last = -1 ∨ room ≤ total s.pieces.dropLast
    | v => total (v.pieces format).dropLast < room

/-! ## What a handler does -/

/-- What a handler does with its pieces, its slider standing at `x`: if there is room it
writes them, or answers an error because they are not sound; if there is not, it answers
zero only where it swallows that, and then the buffer is full. -/
structure Writes (pieces : List (List UInt8)) (sound : Prop) (swallows : Nat → Prop)
    (off x : Nat) (buf : List UInt8) (r : Int × List UInt8 × Slider) : Prop where
  fits : sound → x + total pieces ≤ buf.length →
    r = (0, patchAll buf (piecesAt x pieces), movedTo off (x + total pieces))
  unsound : ¬ sound → total pieces ≤ buf.length - x → r.1 ≠ 0
  short : buf.length - x < total pieces → (r.1 = 0 ↔ swallows (buf.length - x))
  full : buf.length - x < total pieces → r.1 = 0 → r.2.1.length = buf.length ∧
  0 < r.2.2.off ∧
    (buf.length = 0 ∨ r.2.2.off = buf.length)

section Handlers

variable {off x : Nat} {buf : List UInt8} {sound : Prop} {swallows : Nat → Prop}

@[simp] theorem total_nil : total [] = 0 := rfl

@[simp] theorem total_cons (c : List UInt8) (cs : List (List UInt8)) :
    total (c :: cs) = c.length + total cs := by
  simp [total]

/-- A handler that gives nothing answers an error. -/
theorem writes_refused {r : Int × List UInt8 × Slider} (hr : r.1 ≠ 0) (hs : ¬ sound) :
    Writes [] sound swallows off x buf r where
  fits := fun h => absurd h hs
  unsound := fun _ _ => hr
  short := fun h => absurd h (Nat.not_lt_zero _)
  full := fun h => absurd h (Nat.not_lt_zero _)

theorem writes_one {offset : Nat} (d : List UInt8) (hx : offset + off = x) :
    Writes [d] (d ≠ []) (fun room => 0 < room) off x buf
      ((movedTo off x).write buf offset d.length (some d)) := by
  subst hx
  by_cases hfull : buf.length ≤ offset + off
  · obtain ⟨ret, moved, hw, hneg, -⟩ := @write_full off (offset + off) buf d offset hfull
    rw [hw]
    refine ⟨fun hs h => ?_, fun _ _ => hneg.ne, fun h => iff_of_false hneg.ne (by omega),
      fun _ hret => absurd hret hneg.ne⟩
    have hpos := List.length_pos_iff.mpr hs
    rw [total_cons] at h
    omega
  · by_cases hd : d = []
    · have hw : defaultWrite buf (offset + off) 0 (some []) = (-1, buf, 0) := by
        simp only [defaultWrite, Nat.zero_min, if_true]
        rw [if_neg (by omega), if_neg (by omega)]
      subst hd
      simp only [Slider.write, Slider.start, movedTo, Option.getD_some,
        List.length_nil, hw]
      have hneg : (-1 : Int) ≠ 0 := by decide
      exact ⟨fun hs => absurd rfl hs, fun _ _ => hneg,
        fun h => absurd h (Nat.not_lt_zero _), fun h => absurd h (Nat.not_lt_zero _)⟩
    · by_cases hfits : offset + off + d.length ≤ buf.length
      · rw [write_fits hd hfits]
        refine ⟨fun _ _ => rfl, fun hs => absurd hd hs, fun h => ?_, fun h => ?_⟩ <;>
          rw [total_cons, total_nil] at h <;> omega
      · obtain ⟨buf', hw, hlen⟩ :=
          @write_clipped off (offset + off) buf d offset (by omega) (by omega)
        rw [hw]
        refine ⟨fun _ h => ?_, fun hs => absurd hd hs,
          fun h => iff_of_true rfl (by omega), fun _ _ => ?_⟩
        · rw [total_cons, total_nil] at h
          omega
        · refine ⟨hlen, ?_, Or.inr ?_⟩ <;> simp only [movedTo] <;> omega

/-- Where a piecewise handler answers zero. -/
def EndsEarly (last : Int) (cs : List (List UInt8)) (room : Nat) : Prop :=
  last = -1 ∨ room ≤ total cs.dropLast

theorem total_dropLast_cons (c : List UInt8) {cs : List (List UInt8)} (hne : cs ≠ []) :
    total (c :: cs).dropLast = c.length + total cs.dropLast := by
  rw [List.dropLast_cons_of_ne_nil hne, total_cons]

section Loop

variable {last : Int} {c : List UInt8} {cs : List (List UInt8)}
  {r : Int × List UInt8 × Slider}

/-- The first piece is written: what is done with the rest decides. -/
theorem Writes.of_fits (hc : x + c.length ≤ buf.length)
    (h : Writes cs (last = -1) (EndsEarly last cs) off (x + c.length)
      (patch buf (x, c)) r) :
    Writes (c :: cs) (last = -1) (EndsEarly last (c :: cs)) off x buf r := by
  obtain ⟨h₁, h₂, h₃, h₄⟩ := h
  rw [length_patch hc] at h₁ h₂ h₃ h₄
  refine ⟨fun hs h => ?_, fun hs h => h₂ hs ?_, fun h => ?_, fun h => h₄ ?_⟩
  all_goals rw [total_cons] at h
  · rw [h₁ hs (by omega), total_cons, piecesAt, patchAll_cons, Nat.add_assoc]
  · omega
  · have hne : cs ≠ [] := by
      rintro rfl
      rw [total_nil] at h
      omega
    rw [h₃ (by omega), EndsEarly, EndsEarly, total_dropLast_cons c hne]
    exact or_congr_right (by omega)
  · omega

/-- The buffer is full at the first piece, which is the end for the loop. -/
theorem Writes.of_full (hpos : 0 < c.length) (hfull : buf.length ≤ x)
    (hplaced : Placed buf x)
    (hr : r = (0, buf, movedTo off (x + if buf.length = 0 then c.length else 0))) :
    Writes (c :: cs) (last = -1) (EndsEarly last (c :: cs)) off x buf r := by
  subst hr
  refine ⟨fun _ h => ?_, fun _ h => ?_, fun _ => iff_of_true rfl (Or.inr ?_),
    fun _ _ => ⟨rfl, ?_, ?_⟩⟩
  · rw [total_cons] at h
    omega
  · rw [total_cons] at h
    omega
  · rw [Nat.sub_eq_zero_of_le hfull]
    exact Nat.zero_le _
  · simp only [movedTo]
    split <;> omega
  · simp only [movedTo]
    rcases hplaced with hplaced | hplaced <;> split <;> omega

/-- The first piece is clipped: the rest finds the buffer full. -/
theorem Writes.of_clipped {buf' : List UInt8} (hin : x < buf.length)
    (hend : buf.length < x + c.length) (hlen : buf'.length = buf.length)
    (hsolid : ∀ c' ∈ cs, c' ≠ [])
    (h : Writes cs (last = -1) (EndsEarly last cs) off buf.length buf' r) :
    Writes (c :: cs) (last = -1) (EndsEarly last (c :: cs)) off x buf r := by
  obtain ⟨h₁, h₂, h₃, h₄⟩ := h
  rw [hlen, Nat.sub_self] at h₂ h₃ h₄
  rw [hlen] at h₁
  have hshort : ¬ total (c :: cs) ≤ buf.length - x := by
    rw [total_cons]
    omega
  refine ⟨fun _ h => absurd h ?_, fun _ h => absurd h hshort, fun _ => ?_,
    fun _ hret => ?_⟩
  · rw [total_cons]
    omega
  · cases cs with
    | nil =>
        have hiff : r.1 = 0 ↔ last = -1 := by
          refine ⟨fun hret => ?_, fun hs => by rw [h₁ hs le_rfl]⟩
          by_contra hs
          exact h₂ hs (Nat.zero_le _) hret
        rw [hiff, EndsEarly, List.dropLast_singleton, total_nil, or_iff_left (by omega)]
    | cons c' cs =>
        have hc' := List.length_pos_iff.mpr (hsolid c' List.mem_cons_self)
        rw [h₃ (by rw [total_cons]; omega), EndsEarly, EndsEarly,
          total_dropLast_cons c (List.cons_ne_nil _ _)]
        exact or_congr_right (by omega)
  · cases cs with
    | nil =>
        have hs : last = -1 := by
          by_contra hs
          exact h₂ hs (Nat.zero_le _) hret
        rw [h₁ hs le_rfl]
        exact ⟨hlen, Nat.zero_lt_of_lt hin, Or.inr rfl⟩
    | cons c' cs =>
        have hc' := List.length_pos_iff.mpr (hsolid c' List.mem_cons_self)
        exact h₄ (by rw [total_cons]; omega) hret

/-- The loop of the default handler; its slider moves with its own offset. -/
theorem writes_loop (hlast : last < 0) (cs : List (List UInt8)) :
    ∀ {woffset x : Nat} {buf : List UInt8}, x = off + woffset → (∀ c ∈ cs, c ≠ []) →
      Placed buf x → Writes cs (last = -1) (EndsEarly last cs) off x buf
        (convertLoop last woffset cs (movedTo off x) buf) := by
  induction cs with
  | nil =>
      intro woffset x buf hx _ _
      refine ⟨fun hs _ => ?_, fun hs _ => ?_, fun h => absurd h (Nat.not_lt_zero _),
        fun h => absurd h (Nat.not_lt_zero _)⟩
      · rw [convertLoop, if_pos hs]
        rfl
      · rw [convertLoop, if_neg hs]
        exact hlast.ne
  | cons c cs ih =>
      intro woffset x buf hx hsolid hplaced
      obtain ⟨hc, hcs⟩ := List.forall_mem_cons.mp hsolid
      have hpos : woffset + off = x := by omega
      by_cases hfits : x + c.length ≤ buf.length
      · have hw := @write_fits off x buf c woffset hc (by omega)
        have hnext := @ih (woffset + (x + c.length - x)) (x + c.length)
            (patch buf (x, c)) (by omega) hcs
          (Or.inl (by rwa [length_patch hfits]))
        rw [hpos] at hw
        simp only [convertLoop, hw]
        rw [if_neg (by decide), if_neg (by decide)]
        exact hnext.of_fits hfits
      · by_cases hfull : buf.length ≤ x
        · obtain ⟨ret, moved, hw, -, hend⟩ := @write_full off x buf c woffset (by omega)
          obtain ⟨rfl, rfl⟩ := hend (by rwa [hpos])
          simp only [convertLoop, hw, if_true]
          rw [if_neg (by decide)]
          exact Writes.of_full (List.length_pos_iff.mpr hc) hfull hplaced rfl
        · obtain ⟨buf', hw, hlen⟩ :=
            @write_clipped off x buf c woffset (by omega) (by omega)
          rw [show x + (buf.length - (woffset + off)) = buf.length by omega] at hw
          have hnext := @ih (woffset + (buf.length - x)) buf.length buf' (by omega) hcs
              (Or.inl hlen.ge)
          simp only [convertLoop, hw]
          rw [if_neg (by decide), if_neg (by decide)]
          exact hnext.of_clipped (by omega) (by omega) hlen hcs

end Loop

theorem writes_raw (bytes : List UInt8) :
    Writes [leBytes 8 bytes.length, bytes] (bytes ≠ []) (fun room => 8 < room) off off buf
      (rawConvertTo (some (.mem bytes)) (movedTo off off) buf) := by
  have hlen8 : (leBytes 8 bytes.length).length = 8 := length_leBytes _ _
  have htotal : total [leBytes 8 bytes.length, bytes] = 8 + bytes.length := by
    rw [total_cons, total_cons, total_nil, hlen8, Nat.add_zero]
  rw [rawConvertTo]
  simp only [Raw.size, Raw.ptr]
  by_cases hfits : off + 8 ≤ buf.length
  · -- the length is written, and the bytes are the last piece
    have hw := @write_fits off off buf (leBytes 8 bytes.length) 0
      (List.ne_nil_of_length_pos (by rw [hlen8]; decide)) (by rw [hlen8]; omega)
    rw [hlen8, Nat.zero_add] at hw
    have hlen := @length_patch buf (off, leBytes 8 bytes.length) (by rwa [hlen8])
    obtain ⟨h₁, h₂, h₃, h₄⟩ :=
      @writes_one off (off + 8) (patch buf (off, leBytes 8 bytes.length)) 8 bytes
      (Nat.add_comm _ _)
    rw [total_cons, total_nil, hlen] at h₁ h₂ h₃ h₄
    simp only [hw, lt_self_iff_false, if_false]
    refine ⟨fun hs h => ?_, fun hs h => h₂ hs ?_, fun h => ?_, fun h => h₄ ?_⟩
      <;> rw [htotal] at h
    · have hpieces : piecesAt off [leBytes 8 bytes.length, bytes]
          = (off, leBytes 8 bytes.length) :: piecesAt (off + 8) [bytes] := by
        rw [piecesAt, hlen8]
      rw [h₁ hs (by omega), htotal, hpieces, patchAll_cons, Nat.add_assoc,
        Nat.add_zero bytes.length]
    · omega
    · rw [h₃ (by omega)]
      omega
    · omega
  · -- the second piece is behind the end of the buffer
    have hneg : (let (ret, buf1, sl1) :=
          (movedTo off off).write buf 0 8 (some (leBytes 8 bytes.length))
        if ret < 0 then (ret, buf1, sl1)
        else sl1.write buf1 8 bytes.length (some bytes)).1 < 0 := by
      by_cases hfull : buf.length ≤ off
      · obtain ⟨ret, moved, hw, hneg, -⟩ :=
          @write_full off off buf (leBytes 8 bytes.length) 0 (by omega)
        rw [hlen8] at hw
        simp only [hw, if_pos hneg]
        exact hneg
      · obtain ⟨buf', hw, hlen⟩ := @write_clipped off off buf (leBytes 8 bytes.length)
          0 (by omega) (by rw [hlen8]; omega)
        rw [hlen8] at hw
        obtain ⟨ret, moved, hw', hneg, -⟩ :=
          @write_full off (off + (buf.length - (0 + off))) buf' bytes 8 (by omega)
        simp only [hw, lt_self_iff_false, if_false, hw']
        exact hneg
    refine ⟨fun _ h => ?_, fun _ _ => hneg.ne, fun _ => iff_of_false hneg.ne ?_,
      fun _ hret => absurd hret hneg.ne⟩
    · rw [htotal] at h
      omega
    · omega

theorem Writes.congr {pieces : List (List UInt8)} {r : Int × List UInt8 × Slider}
    {sound' : Prop} {swallows' : Nat → Prop}
    (h : Writes pieces sound swallows off x buf r) (hs : sound' ↔ sound)
    (hw : ∀ room < total pieces, (swallows' room ↔ swallows room)) :
    Writes pieces sound' swallows' off x buf r where
  fits := fun h' => h.fits (hs.mp h')
  unsound := fun h' => h.unsound (mt hs.mpr h')
  short := fun h' => (h.short h').trans (hw _ h').symm
  full := h.full

theorem take_strlen (c : Chars) : c.mem.take c.strlen = c.text := by
  obtain ⟨rest, hrest⟩ := c.exists_mem_eq
  rw [hrest, Chars.strlen, List.take_append_of_le_length le_rfl, List.take_length]

theorem take_strlen_succ (c : Chars) : c.mem.take (c.strlen + 1) = c.text ++ [0] := by
  obtain ⟨rest, hrest⟩ := c.exists_mem_eq
  conv_lhs => rw [hrest]
  rw [Chars.strlen, List.take_length_add_append, List.take_succ_cons, List.take_zero]

theorem Writes.of_one {format : Format} {d : Data} {c : List UInt8}
    {r : Int × List UInt8 × Slider} (hpieces : dataPieces format d = [c])
    (h : Writes [c] (c ≠ []) (fun room => 0 < room) off off buf r) :
    Writes ((Content.data d).pieces format) ((Content.data d).Sound format)
      (fun room => (Content.data d).Swallows format room) off off buf r := by
  simp only [Content.Sound, Content.Swallows, Content.len, Content.pieces, hpieces]
  refine h.congr (by simp) fun room hroom => ?_
  simp only [List.dropLast_singleton, total_nil, hroom, true_and]

theorem Writes.of_none {format : Format} {d : Data} {r : Int × List UInt8 × Slider}
    (hpieces : dataPieces format d = []) (hr : r.1 < 0) :
    Writes ((Content.data d).pieces format) ((Content.data d).Sound format)
      (fun room => (Content.data d).Swallows format room) off off buf r := by
  simp only [Content.Sound, Content.pieces, hpieces]
  exact writes_refused hr.ne (by simp)

/-- NULL cannot be written. -/
theorem write_null_neg {size : Nat} {sl : Slider} (offset : Nat) :
    (sl.write buf offset size none).1 < 0 := by
  simp only [Slider.write, defaultWrite]
  split
  · exact (by decide : (-1 : Int) < 0)
  · exact (by decide : -EINVAL < 0)

theorem rawConvertTo_null_neg (size : Nat) (sl : Slider) :
    (rawConvertTo (some (.null size)) sl buf).1 < 0 := by
  rw [rawConvertTo]
  simp only [Raw.ptr]
  split
  · assumption
  · exact write_null_neg 8

theorem writes_piece (d : List UInt8) :
    Writes [d] (d ≠ []) (fun room => 0 < room) off off buf
    ((frozenAt off).write buf 0 d.length (some d)) := writes_one d (Nat.zero_add off)

section Types

variable (format : Format)

theorem Content.writes_int (t : IntType) (ptr : Option (BitVec (8 * t.bytes))) :
    Writes ((Content.data (.int t ptr)).pieces format)
      ((Content.data (.int t ptr)).Sound format)
      (fun room => (Content.data (.int t ptr)).Swallows format room) off off buf
      ((Content.data (.int t ptr)).convertTo format (frozenAt off) buf) := by
  have hnosys : -ENOSYS < 0 := by decide
  cases ptr with
  | none =>
      have hnull : (intConvertTo t none (frozenAt off) buf).1 < 0 := write_null_neg 0
      cases format
      · exact Writes.of_none rfl hnull
      · exact Writes.of_none rfl hnosys
      · exact Writes.of_none rfl hnull
      · exact Writes.of_none rfl hnosys
  | some v =>
      have hv := @writes_piece off buf (leBytes t.bytes v.toNat)
      rw [length_leBytes] at hv
      cases format
      · exact Writes.of_one rfl hv
      · exact Writes.of_none rfl hnosys
      · exact Writes.of_one rfl hv
      · exact Writes.of_none rfl hnosys

theorem Content.writes_string (ptr : Option Chars) :
    Writes ((Content.data (.string ptr)).pieces format)
      ((Content.data (.string ptr)).Sound format)
      (fun room => (Content.data (.string ptr)).Swallows format room) off off buf
      ((Content.data (.string ptr)).convertTo format (frozenAt off) buf) := by
  have hnosys : -ENOSYS < 0 := by decide
  have hinval : -EINVAL < 0 := by decide
  cases ptr with
  | none => exact Writes.of_none (by cases format <;> rfl) hinval
  | some c =>
      have htext : Writes [c.text] (c.text ≠ []) (fun room => 0 < room) off off buf
          ((frozenAt off).write buf 0 c.strlen (some (c.mem.take c.strlen))) := by
        rw [take_strlen]
        exact writes_piece c.text
      have hbinary : Writes [c.text ++ [0]] (c.text ++ [0] ≠ []) (fun room => 0 < room)
          off off buf (stringConvertTo (some c) (frozenAt off) buf) := by
        have h := @writes_piece off buf (c.text ++ [0])
        rw [List.length_append, List.length_singleton, ← take_strlen_succ] at h
        exact take_strlen_succ c ▸ h
      cases format
      · exact Writes.of_one rfl htext
      · exact Writes.of_one rfl htext
      · exact Writes.of_one rfl hbinary
      · exact Writes.of_none rfl hnosys

theorem Content.writes_rawData (ptr : Option Raw) :
    Writes ((Content.data (.raw ptr)).pieces format)
      ((Content.data (.raw ptr)).Sound format)
      (fun room => (Content.data (.raw ptr)).Swallows format room) off off buf
      ((Content.data (.raw ptr)).convertTo format (frozenAt off) buf) := by
  have hnosys : -ENOSYS < 0 := by decide
  have hinval : -EINVAL < 0 := by decide
  rcases ptr with _ | size | bytes
  · exact Writes.of_none (by cases format <;> rfl) hinval
  · cases format
    · exact Writes.of_none rfl (write_null_neg 0)
    · exact Writes.of_none rfl hnosys
    · exact Writes.of_none rfl (rawConvertTo_null_neg size _)
    · exact Writes.of_none rfl hnosys
  · cases format
    · exact Writes.of_one rfl (writes_piece bytes)
    · exact Writes.of_none rfl hnosys
    · refine (writes_raw bytes).congr ?_ fun room hroom => ?_
      · simp [Content.Sound, Content.pieces, dataPieces, List.ne_nil_of_length_pos]
      · have hroom' : room < 8 + bytes.length := by simpa using hroom
        simp [Content.Swallows, Content.len, Content.pieces, dataPieces, hroom']
    · exact Writes.of_none rfl hnosys

/-- Through `data_default_convert_to`. -/
theorem Content.writes_stream (s : Stream) (hplaced : Placed buf off) :
    Writes ((Content.stream s).pieces format) ((Content.stream s).Sound format)
      (fun room => (Content.stream s).Swallows format room) off off buf
      ((Content.stream s).convertTo format (frozenAt off) buf) := by
  cases hp : s.pieces with
  | nil =>
      simp only [Content.pieces, Content.Sound, hp, Content.convertTo, defaultConvertTo]
      exact writes_refused s.ends.ne (by simp)
  | cons c cs =>
      have h := @writes_loop off s.last s.ends s.pieces 0 off buf rfl s.solid hplaced
      have hto : Content.convertTo format (.stream s) (frozenAt off) buf
          = convertLoop s.last 0 s.pieces (movedTo off off) buf := by
        simp only [Content.convertTo, defaultConvertTo, hp]
        rfl
      rw [hto]
      refine h.congr ?_ fun room hroom => ?_
      · simp only [Content.Sound, Content.pieces]
        exact ⟨fun h => h.2.2,
          fun h => ⟨by rw [hp]; exact List.cons_ne_nil _ _, s.solid, h⟩⟩
      · simp only [Content.Swallows, Content.len, Content.pieces, EndsEarly,
          hroom, true_and]

end Types

/-- **Every handler** does with its pieces what `Writes` says. -/
theorem Content.writes (format : Format) (v : Content) (hplaced : Placed buf off) :
    Writes (v.pieces format) (v.Sound format) (fun room => v.Swallows format room)
      off off buf (v.convertTo format (frozenAt off) buf) := by
  cases v with
  | name => exact writes_refused (by decide : -ENOSYS ≠ 0) fun hs => hs.1 rfl
  | stream s => exact writes_stream format s hplaced
  | data d =>
      cases d with
      | int t ptr => exact writes_int format t ptr
      | string ptr => exact writes_string format ptr
      | raw ptr => exact writes_rawData format ptr

end Handlers

/-! ## The fields -/

/-- The format and the value of a field, if it has parameters and a value. -/
def fieldValue (values : Hash Content) (p : Key × Option Params) :
    Option (Format × Content) :=
  p.2.bind fun params => ((values.find p.1).or params.default).map fun v =>
    (params.format, v)

/-- The bytes of some fields. -/
def fieldsLen (fs : List (Format × Content)) : Nat := (fs.map fun p => p.2.len p.1).sum

/-- The fields, one behind the other from `x` on. -/
def fieldsAt : Nat → List (Format × Content) → List (Nat × List UInt8)
  | _, [] => []
  | x, (f, v) :: fs => piecesAt x (v.pieces f) ++ fieldsAt (x + v.len f) fs

/-- The answer of a packer that wrote every field: the bytes of all fields, which
lie in the buffer. -/
def Complete (fields : List (Option (Format × Content))) (buf : List UInt8)
    (r : Nat × List UInt8) : Prop :=
  ∃ fs, fields = fs.map some ∧ (∀ p ∈ fs, p.2.Sound p.1) ∧ fieldsLen fs ≤ buf.length ∧
    r = (fieldsLen fs, patchAll buf (fieldsAt 0 fs))

/-- A full buffer is not noticed by this field. -/
def SwallowsFull (field : Option (Format × Content)) : Prop :=
  ∃ p, field = some p ∧ p.2.Swallows p.1 0

/-- The lack of room is noticed: the first field that does not fit in what is left does
not swallow that, or one of the fields behind it does not swallow a full buffer, or a
field in front of it is refused. -/
def Noticed : Nat → List (Option (Format × Content)) → Prop
  | _, [] => True
  | _, none :: _ => True
  | room, some (f, v) :: rest =>
      if v.len f ≤ room then v.Sound f → Noticed (room - v.len f) rest
      else ¬ (v.Swallows f room ∧ ∀ x ∈ rest, SwallowsFull x)

/-- `struct_iter_pack` of a field with this value. -/
def packField (field : Option (Format × Content)) (ctx : PackCtx) :
    Except PackCtx PackCtx :=
  match field with
  | none => .error ctx
  | some (f, v) =>
      let (ret, buf, sl) := v.convertTo f ctx.sl.freeze ctx.buf
      if ret ≠ 0 then .error ⟨buf, sl⟩ else .ok ⟨buf, sl.unfreeze⟩

theorem structIterPack_item (values : Hash Content) (p : Key × Option Params)
    (ctx : PackCtx) :
    structIterPack values (.item p.1 p.2) ctx = packField (fieldValue values p) ctx := by
  obtain ⟨key, _ | params⟩ := p
  · rfl
  · simp only [structIterPack, fieldValue, Option.bind_some]
    cases (values.find key).or params.default <;> rfl

theorem foldlM_structIterPack (values : Hash Content)
    (structure_ : Hash (Option Params)) (ctx : PackCtx) :
    structure_.iter itemFlags (structIterPack values) ctx
      = (structure_.items.map (fieldValue values)).foldlM
        (fun ctx x => packField x ctx) ctx := by
  rw [Hash.iter_eq_foldlM, Hash.entries_itemFlags, List.foldlM_map, List.foldlM_map]
  simp only [structIterPack_item]

section Run

variable {off : Nat} {buf : List UInt8} {f : Format} {v : Content}

theorem packField_some : packField (some (f, v)) ⟨buf, { off := off }⟩ =
    (let r := v.convertTo f (frozenAt off) buf
    if r.1 ≠ 0 then .error ⟨r.2.1, r.2.2⟩ else .ok ⟨r.2.1, r.2.2.unfreeze⟩) := rfl

theorem packField_fits (hs : v.Sound f) (h : off + v.len f ≤ buf.length) :
    packField (some (f, v)) ⟨buf, { off := off }⟩
      = .ok ⟨patchAll buf (piecesAt off (v.pieces f)), { off := off + v.len f }⟩ := by
  rw [packField_some, (Content.writes f v (Or.inl (by omega))).fits hs h]
  rfl

theorem packField_unsound (hs : ¬ v.Sound f) (h : v.len f ≤ buf.length - off)
    (hplaced : Placed buf off) :
    ∃ ctx, packField (some (f, v)) ⟨buf, { off := off }⟩ = .error ctx := by
  rw [packField_some]
  exact ⟨_, if_pos ((Content.writes f v hplaced).unsound hs h)⟩

/-- A field that does not fit: an error, or the buffer is full and nobody knows. -/
theorem packField_short (h : buf.length - off < v.len f) (hplaced : Placed buf off) :
    (¬ v.Swallows f (buf.length - off) ∧ ∃ ctx,
      packField (some (f, v)) ⟨buf, { off := off }⟩ = .error ctx) ∨
      (v.Swallows f (buf.length - off) ∧ ∃ buf' off',
        packField (some (f, v)) ⟨buf, { off := off }⟩ = .ok ⟨buf', { off := off' }⟩ ∧
          buf'.length = buf.length ∧ 0 < off' ∧ buf'.length ≤ off' ∧
          Placed buf' off') := by
  have hw := Content.writes f v hplaced
  rw [packField_some]
  generalize v.convertTo f (frozenAt off) buf = r at hw
  have hiff := hw.short h
  by_cases hret : r.1 = 0
  · obtain ⟨hlen, hpos, hend⟩ := hw.full h hret
    refine Or.inr ⟨hiff.mp hret, r.2.1, r.2.2.off, if_neg (not_not.mpr hret), hlen,
      hpos, ?_, ?_⟩
    · omega
    · exact hend.elim (fun h0 => Or.inr (hlen.trans h0)) fun heq => Or.inl (by omega)
  · exact Or.inl ⟨mt hiff.mpr hret, _, if_pos hret⟩

/-- Packing into a full buffer goes on as long as the fields swallow that. -/
theorem foldlM_full (xs : List (Option (Format × Content))) :
    ∀ {off : Nat} {buf : List UInt8}, buf.length ≤ off → Placed buf off → 0 < off →
      ((∀ x ∈ xs, SwallowsFull x) ∧ ∃ ctx,
        xs.foldlM (fun ctx x => packField x ctx) ⟨buf, { off := off }⟩ = .ok ctx ∧
        0 < ctx.sl.off) ∨
      (¬ (∀ x ∈ xs, SwallowsFull x) ∧ ∃ ctx,
        xs.foldlM (fun ctx x => packField x ctx) ⟨buf, { off := off }⟩ = .error ctx) := by
  induction xs with
  | nil =>
      intro off buf _ _ hpos
      exact Or.inl ⟨fun x hx => absurd hx List.not_mem_nil, _, rfl, hpos⟩
  | cons x xs ih =>
      intro off buf hfull hplaced hpos
      have hroom : buf.length - off = 0 := Nat.sub_eq_zero_of_le hfull
      have hstop : ∀ ctx, packField x ⟨buf, { off := off }⟩ = .error ctx →
          ¬ SwallowsFull x → ¬ (∀ y ∈ x :: xs, SwallowsFull y) ∧ ∃ ctx,
            (x :: xs).foldlM (fun ctx x => packField x ctx) ⟨buf, { off := off }⟩
              = .error ctx := by
        intro ctx hctx hx
        refine ⟨fun hall => hx (hall x List.mem_cons_self), ctx, ?_⟩
        rw [List.foldlM_cons, hctx]
        rfl
      cases x with
      | none => exact Or.inr (hstop _ rfl fun ⟨p, hp, _⟩ => by cases hp)
      | some p =>
          obtain ⟨f, v⟩ := p
          have hswallows : SwallowsFull (some (f, v)) ↔ v.Swallows f 0 := by
            refine ⟨fun ⟨p, hp, h⟩ => ?_, fun h => ⟨_, rfl, h⟩⟩
            obtain rfl := Option.some.inj hp
            exact h
          by_cases hlen : v.len f = 0
          · have hs : ¬ v.Sound f := by
              intro hs
              obtain ⟨c, cs, hp⟩ := List.exists_cons_of_ne_nil hs.1
              have hc := List.length_pos_iff.mpr (hs.2.1 c (hp ▸ List.mem_cons_self))
              rw [Content.len, hp, total_cons] at hlen
              omega
            obtain ⟨ctx, hctx⟩ :=
              packField_unsound hs (by omega : v.len f ≤ buf.length - off) hplaced
            refine Or.inr (hstop ctx hctx (mt hswallows.mp fun h => ?_))
            exact absurd h.1 (by omega)
          · rcases packField_short (by omega : buf.length - off < v.len f) hplaced with
              ⟨hno, ctx, hctx⟩ | ⟨hyes, buf', off', hctx, -, hpos', hfull', hplaced'⟩
            · rw [hroom] at hno
              exact Or.inr (hstop ctx hctx (mt hswallows.mp hno))
            · rw [hroom] at hyes
              rw [List.foldlM_cons, hctx]
              refine (ih hfull' hplaced' hpos').imp (fun ⟨hall, hrun⟩ => ⟨?_, hrun⟩)
                fun ⟨hno, hrun⟩ => ⟨?_, hrun⟩
              · exact List.forall_mem_cons.mpr ⟨hswallows.mpr hyes, hall⟩
              · exact fun hall => hno (List.forall_mem_cons.mp hall).2

theorem length_piecesAt {pieces : List (List UInt8)} {x : Nat} {buf : List UInt8}
    (h : x + total pieces ≤ buf.length) :
    (patchAll buf (piecesAt x pieces)).length = buf.length := by
  induction pieces generalizing x buf with
  | nil => rfl
  | cons c cs ih =>
      rw [total_cons] at h
      have hlen : (patch buf (x, c)).length = buf.length :=
        length_patch (by simp only; omega)
      rw [piecesAt, patchAll_cons, ih (by omega), hlen]

theorem fieldsLen_cons (f : Format) (v : Content) (fs : List (Format × Content)) :
    fieldsLen ((f, v) :: fs) = v.len f + fieldsLen fs := by
  simp [fieldsLen]

theorem exists_of_cons_eq_map {xs : List (Option (Format × Content))}
    {fs : List (Format × Content)} (h : some (f, v) :: xs = fs.map some) :
    ∃ fs', fs = (f, v) :: fs' ∧ xs = fs'.map some := by
  obtain ⟨p, fs', rfl, hp, hfs⟩ := List.map_eq_cons_iff.mp h.symm
  obtain rfl := Option.some.inj hp
  exact ⟨fs', rfl, hfs.symm⟩

/-- **A run of the packer** ends in one of three ways: every field is written; or it
breaks; or it ends with success and a field that did not fit. -/
theorem foldlM_packField (xs : List (Option (Format × Content))) :
    ∀ {off : Nat} {buf : List UInt8}, off ≤ buf.length →
      (∃ fs, xs = fs.map some ∧ (∀ p ∈ fs, p.2.Sound p.1) ∧
        off + fieldsLen fs ≤ buf.length ∧
        Noticed (buf.length - off) xs ∧
        xs.foldlM (fun ctx x => packField x ctx) ⟨buf, { off := off }⟩
          = .ok ⟨patchAll buf (fieldsAt off fs), { off := off + fieldsLen fs }⟩) ∨
      (Noticed (buf.length - off) xs ∧
        ∃ ctx, xs.foldlM (fun ctx x => packField x ctx) ⟨buf, { off := off }⟩
          = .error ctx) ∨
      (¬ Noticed (buf.length - off) xs ∧
        (∀ fs, xs = fs.map some → buf.length < off + fieldsLen fs) ∧
        ∃ ctx, xs.foldlM (fun ctx x => packField x ctx) ⟨buf, { off := off }⟩
          = .ok ctx ∧ 0 < ctx.sl.off) := by
  induction xs with
  | nil =>
      intro off buf hoff
      exact Or.inl ⟨[], rfl, fun p hp => absurd hp List.not_mem_nil, hoff, trivial, rfl⟩
  | cons x xs ih =>
      intro off buf hoff
      have hplaced : Placed buf off := Or.inl hoff
      cases x with
      | none => exact Or.inr (Or.inl ⟨trivial, _, rfl⟩)
      | some p =>
          obtain ⟨f, v⟩ := p
          simp only [List.foldlM_cons]
          by_cases hfits : v.len f ≤ buf.length - off
          · rw [Noticed, if_pos hfits]
            by_cases hs : v.Sound f
            · -- the field is written, and the others follow behind it
              have hstep := packField_fits hs (by omega : off + v.len f ≤ buf.length)
              have hlen : (patchAll buf (piecesAt off (v.pieces f))).length
                  = buf.length :=
                length_piecesAt (by rw [← Content.len]; omega)
              have hrest := @ih (off + v.len f)
                  (patchAll buf (piecesAt off (v.pieces f))) (by omega)
              rw [hlen, ← Nat.sub_sub] at hrest
              rw [hstep]
              rcases hrest with ⟨fs, rfl, hsound, hroom, hno, hrun⟩ | ⟨hno, hrun⟩
                | ⟨hno, hlong, hrun⟩
              · refine Or.inl ⟨(f, v) :: fs, rfl,
                  List.forall_mem_cons.mpr ⟨hs, hsound⟩, ?_, fun _ => hno, ?_⟩
                · rw [fieldsLen_cons]
                  omega
                · rw [fieldsAt, patchAll_append, fieldsLen_cons, ← Nat.add_assoc]
                  exact hrun
              · exact Or.inr (Or.inl ⟨fun _ => hno, hrun⟩)
              · refine Or.inr (Or.inr ⟨fun h => hno (h hs), fun fs hfs => ?_, hrun⟩)
                obtain ⟨fs, rfl, hfs'⟩ := exists_of_cons_eq_map hfs
                have := hlong fs hfs'
                rw [fieldsLen_cons]
                omega
            · obtain ⟨ctx, hctx⟩ := packField_unsound hs hfits hplaced
              rw [hctx]
              exact Or.inr (Or.inl ⟨fun h => absurd h hs, ctx, rfl⟩)
          · rw [Noticed, if_neg hfits]
            rcases packField_short (by omega : buf.length - off < v.len f) hplaced with
              ⟨hno, ctx, hctx⟩ | ⟨hyes, buf', off', hctx, -, hpos', hfull', hplaced'⟩
            · rw [hctx]
              exact Or.inr (Or.inl ⟨fun h => hno h.1, ctx, rfl⟩)
            · rw [hctx]
              rcases foldlM_full xs hfull' hplaced' hpos' with ⟨hall, hrun⟩ | ⟨hno, hrun⟩
              · refine Or.inr (Or.inr ⟨not_not.mpr ⟨hyes, hall⟩, fun fs hfs => ?_, hrun⟩)
                obtain ⟨fs, rfl, -⟩ := exists_of_cons_eq_map hfs
                rw [fieldsLen_cons]
                omega
              · exact Or.inr (Or.inl ⟨fun h => hno h.2, hrun⟩)

end Run

/-- **Packing into a small buffer.**  An answer above zero means that every field was
written completely, exactly if a lack of room is noticed. -/
theorem structPack_complete_iff (structure_ : Hash (Option Params))
    (values : Hash Content) (buf : List UInt8) :
    ((structPack structure_ values buf).1 ≠ 0 →
        Complete (structure_.items.map (fieldValue values)) buf
          (structPack structure_ values buf)) ↔
      Noticed buf.length (structure_.items.map (fieldValue values)) := by
  rw [structPack, foldlM_structIterPack]
  generalize structure_.items.map (fieldValue values) = xs
  have hrun := @foldlM_packField xs 0 buf (Nat.zero_le _)
  rw [Nat.sub_zero] at hrun
  rcases hrun with ⟨fs, hfs, hsound, hroom, hno, hrun⟩ | ⟨hno, ctx, hrun⟩
    | ⟨hno, hlong, ctx, hrun, hpos⟩
  · rw [Nat.zero_add] at hroom hrun
    rw [hrun]
    exact iff_of_true (fun _ => ⟨fs, hfs, hsound, hroom, rfl⟩) hno
  · rw [hrun]
    exact iff_of_true (fun h => absurd rfl h) hno
  · rw [hrun]
    refine iff_of_false (fun h => ?_) hno
    obtain ⟨fs, hfs, -, hle, -⟩ := h hpos.ne'
    have := hlong fs hfs
    omega

/-- A number of four bytes, as `{ HK(number), { HK(default), ... } }`. -/
def oneNumber : Hash (Option Params) := .item ⟨1, regular_one⟩ (some {}) .stop

def oneNumberValues : Hash Content :=
  .item ⟨1, regular_one⟩ (.data (.int .uint32 (some 7))) .stop

/-- Half of a number is written, and the answer is two. -/
theorem half_a_number_is_packed :
    (structPack oneNumber oneNumberValues [0, 0]).1 ≠ 0 ∧
      ¬ Complete (oneNumber.items.map (fieldValue oneNumberValues)) [0, 0]
        (structPack oneNumber oneNumberValues [0, 0]) := by
  refine ⟨by decide, ?_⟩
  rintro ⟨fs, hfs, -, hle, -⟩
  have hitems : oneNumber.items.map (fieldValue oneNumberValues)
      = [some (.binary, .data (.int .uint32 (some 7)))] := rfl
  obtain ⟨fs', rfl, -⟩ := exists_of_cons_eq_map (hitems.symm.trans hfs)
  have hlen : Content.len .binary (.data (.int .uint32 (some 7))) = 4 := by decide
  rw [fieldsLen_cons, hlen] at hle
  have hbuf : ([0, 0] : List UInt8).length = 2 := rfl
  omega

end Frozen.Binary.Capacity
