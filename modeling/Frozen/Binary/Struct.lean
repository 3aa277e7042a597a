/-
# `Frozen.Binary.Struct` — packing values by a structure

`struct_pack` writes the value of each field one after the other, through a slider that
is frozen for the length of a field; `struct_unpack` reads them back into the
destinations of a second hash.  Nothing marks where a field ends: the unpacker is right
as long as every decoder consumes what its encoder wrote.

Integers always do.  A `raw_t` reads as many bytes as its DESTINATION has, a string as
many as its destination has characters, and a string field that comes twice finds the
text of the first time.  `Exact` says when all of them do; since fields may make up for
each other's mistakes, it is exact for all structures that begin alike.
-/
import Frozen.Binary.Restore

namespace Frozen.Binary

open Lib

/-! ## Pack and unpack -/

/-- The parameters of a field; the format is `FORMAT(binary)`. -/
structure Field where
  default : Option Data

structure PackCtx where
  buf : List UInt8
  sl : Slider

/-- `struct_iter_pack`. -/
def structIterPack (values : Hash Data) (e : Entry Field) (ctx : PackCtx) :
    Except PackCtx PackCtx :=
  match e with
  | .item key field =>
      match (values.find key).or field.default with
      | none => .error ctx
      | some value =>
          let (ret, buf, sl) := value.convertTo ctx.sl.freeze ctx.buf
          if ret ≠ 0 then .error ⟨buf, sl⟩ else .ok ⟨buf, sl.unfreeze⟩
  | _ => .ok ctx

/-- `struct_pack`: the answer and the buffer. -/
def structPack (structure_ : Hash Field) (values : Hash Data) (buf : List UInt8) :
    Nat × List UInt8 :=
  match structure_.iter itemFlags (structIterPack values) ⟨buf, { off := 0 }⟩ with
  | .error ctx => (0, ctx.buf)
  | .ok ctx => (ctx.sl.off, ctx.buf)

namespace Hash

variable {α : Type}

/-- Writing through the pointer `hash_data_find` returns. -/
def assign (key : Key) (a : α) : Hash α → Hash α
  | .stop => .stop
  | .next h => .next (assign key a h)
  | .null rest => .null (assign key a rest)
  | .inlineNull rest => .inlineNull (assign key a rest)
  | .inline sub rest =>
      if (sub.find key).isSome then .inline (assign key a sub) rest
      else .inline sub (assign key a rest)
  | .item k data rest =>
      if k = key then .item k a rest else .item k data (assign key a rest)

theorem find_assign_self {key : Key} (a : α) {h : Hash α} (hfind : (h.find key).isSome) :
    (h.assign key a).find key = some a := by
  induction h with
  | stop => cases hfind
  | next h ih => exact ih hfind
  | null rest ih => exact ih hfind
  | inlineNull rest ih => exact ih hfind
  | inline sub rest ihs ihr =>
      rw [assign]
      split
      · rename_i hsub
        rw [find, ihs hsub, Option.some_or]
      · rename_i hsub
        rw [Option.not_isSome_iff_eq_none] at hsub
        rw [find, hsub, Option.none_or] at hfind
        rw [find, hsub, Option.none_or, ihr hfind]
  | item k data rest ih =>
      rw [assign]
      split
      · rename_i hk
        rw [find, if_pos hk]
      · rename_i hk
        rw [find, if_neg hk] at hfind
        rw [find, if_neg hk, ih hfind]

theorem find_assign_of_ne {key key' : Key} (hne : key' ≠ key) (a : α) (h : Hash α) :
    (h.assign key a).find key' = h.find key' := by
  induction h with
  | stop => rfl
  | next h ih => exact ih
  | null rest ih => exact ih
  | inlineNull rest ih => exact ih
  | inline sub rest ihs ihr =>
      rw [assign]
      split
      · rw [find, find, ihs]
      · rw [find, find, ihr]
  | item k data rest ih =>
      rw [assign]
      split
      · rename_i hk
        rw [find, find, if_neg fun h => hne (h.symm.trans hk),
          if_neg fun h => hne (h.symm.trans hk)]
      · rw [find, find, ih]

end Hash

structure UnpackCtx where
  sl : Slider
  values : Hash Data

section

variable (fresh : Nat → Nat → UInt8)

/-- `struct_iter_unpack`.  A field without a destination is read into a copy of its
default, which is dropped again. -/
def structIterUnpack (buf : List UInt8) (e : Entry Field) (ctx : UnpackCtx) :
    Except UnpackCtx UnpackCtx :=
  match e with
  | .item key field =>
      match ctx.values.find key with
      | some value =>
          let (ret, data, sl) := value.convertFrom (fresh ctx.sl.off) ctx.sl.freeze buf
          let values := ctx.values.assign key data
          if ret < 0 then .error ⟨sl, values⟩ else .ok ⟨sl.unfreeze, values⟩
      | none =>
          match field.default with
          | none => .error ctx
          | some value =>
              let (ret, _, sl) := value.convertFrom (fresh ctx.sl.off) ctx.sl.freeze buf
              if ret < 0 then .error { ctx with sl := sl }
              else .ok { ctx with sl := sl.unfreeze }
  | _ => .ok ctx

/-- `struct_unpack`: the answer and the values. -/
def structUnpack (structure_ : Hash Field) (values : Hash Data) (buf : List UInt8) :
    Nat × Hash Data :=
  match structure_.iter itemFlags (structIterUnpack fresh buf) ⟨{ off := 0 }, values⟩ with
  | .error ctx => (0, ctx.values)
  | .ok ctx => (ctx.sl.off, ctx.values)

end

/-! ## One field -/

/-- A destination of the same type with at least the same capacity; NULL stands for memory
the decoder allocates. -/
def Data.Holds : Data → Value → Prop
  | .int t _, .int t' _ => t = t'
  | .string none, .string _ => True
  | .string (some c), .string s => s.chars.length + 1 ≤ c.mem.length
  | .raw (some (.mem old)), .raw bytes => bytes.length ≤ old.length
  | .raw _, .raw _ => True
  | _, _ => False

/-- The decoder of the destination consumes what the value wrote at `off`, in a buffer of
`size` bytes. -/
def Value.ReadsInto (size off : Nat) : Value → Data → Prop
  | .string s, .string none => min (size - 1) (size - off) = s.chars.length + 1
  | .string s, .string (some c) => min c.strlen (size - off) = s.chars.length + 1
  | .raw bytes, .raw (some (.mem old)) => old.length = bytes.length
  | _, _ => True

/-- A slider that was just frozen. -/
def frozenAt (off : Nat) : Slider := { off := off, frozenOff := some off }

section

variable {fresh : Nat → UInt8} {off : Nat} {buf : List UInt8}

theorem defaultRead_clipped {offset size : Nat} (hpos : 0 < size)
    (hoff : offset < buf.length) : defaultRead buf offset size
      = (0, (buf.drop offset).take size, min size (buf.length - offset)) := by
  have hmin : (buf.drop offset).take (min size (buf.length - offset))
      = (buf.drop offset).take size := by
    rw [← List.length_drop, ← List.take_take, List.take_length]
  simp only [defaultRead, hmin]
  rw [if_neg (by omega), if_neg (by omega), if_neg (by omega)]

theorem read_frozenAt (hoff : off < buf.length) {size : Nat} :
    (frozenAt off).read buf 0 size =
      (if size = 0 then -1 else 0, (buf.drop off).take size,
        { off := off + min size (buf.length - off), frozenOff := some off }) := by
  simp only [frozenAt, Slider.read, Slider.start, Option.getD_some, Nat.zero_add]
  by_cases h0 : size = 0
  · subst h0
    simp only [defaultRead, Nat.zero_min, if_true, List.take_zero]
    rw [if_neg (by omega), if_neg (by omega)]
  · rw [defaultRead_clipped (by omega) hoff, if_neg h0]

@[simp] theorem start_frozenAt : (frozenAt off).start = off := rfl

@[simp] theorem gap_frozenAt : (frozenAt off).gap = 8 := rfl

theorem takeWhile_overlay {s d mem : List UInt8} (hs : 0 ∉ s)
    (hd : ∃ rest, d = s ++ 0 :: rest) : (overlay d mem).takeWhile (· ≠ 0) = s := by
  obtain ⟨rest, rfl⟩ := hd
  rw [overlay, List.append_assoc, List.cons_append]
  exact takeWhile_append_zero hs

/-- A string field: where the slider stands, and what is read if it stands right. -/
theorem stringConvertFrom_frozenAt {s : Text} (ptr : Option Chars)
    (hmax : buf.length ≤ maxObject) (hst : (Value.string s).StoredAt (frozenAt off) buf) :
    let r := stringConvertFrom fresh ptr (frozenAt off) buf
    r.1 = 0 ∧ r.2.2.frozenOff = some off ∧
      (r.2.2.off = off + (s.chars.length + 1) ∧ r.2.1.value = some (.string s) ↔
        (Value.string s).ReadsInto buf.length off (.string ptr)) := by
  obtain ⟨hroom, hslice⟩ := hst _ (List.mem_singleton_self _)
  rw [List.length_append, List.length_singleton] at hroom hslice
  simp only [start_frozenAt] at hroom hslice
  have hoff : off < buf.length := by omega
  have hret : ∀ n : Nat, ¬ (if n = 0 then (-1 : Int) else 0) < -1 := by
    intro n
    split <;> decide
  -- what a read of at least the text and its zero gives
  have htext : ∀ n, s.chars.length + 1 ≤ n → ∃ rest,
      (buf.drop off).take n = s.chars ++ 0 :: rest := by
    intro n hn
    refine ⟨((buf.drop off).take n).drop (s.chars.length + 1), ?_⟩
    conv_lhs => rw [← List.take_append_drop (s.chars.length + 1) ((buf.drop off).take n)]
    rw [List.take_take, Nat.min_eq_left hn, hslice]
    simp
  cases ptr with
  | none =>
      simp only [stringConvertFrom, read_frozenAt hoff]
      rw [if_neg (by omega), if_neg (by omega), if_neg (hret _)]
      refine ⟨rfl, rfl, ?_⟩
      simp only [Value.ReadsInto, Nat.add_left_cancel_iff]
      refine ⟨fun h => h.1, fun h => ⟨h, ?_⟩⟩
      have hd := htext (buf.length - 1) (by omega)
      simp only [Data.value, Option.some.injEq, Value.string.injEq]
      have hchars : (overlay ((buf.drop off).take (buf.length - 1))
          (blank fresh (buf.length - 1)) ++ [0]).takeWhile (· ≠ 0) = s.chars := by
        obtain ⟨rest, hd⟩ := hd
        rw [overlay, hd, List.append_assoc, List.append_assoc, List.cons_append]
        exact takeWhile_append_zero s.clean
      exact Text.ext hchars
  | some c =>
      simp only [stringConvertFrom, read_frozenAt hoff]
      rw [if_neg (hret _)]
      refine ⟨rfl, rfl, ?_⟩
      simp only [Value.ReadsInto, Nat.add_left_cancel_iff]
      refine ⟨fun h => h.1, fun h => ⟨h, ?_⟩⟩
      have hd := htext c.strlen (by omega)
      simp only [Data.value, Option.some.injEq, Value.string.injEq]
      exact Text.ext (takeWhile_overlay s.clean hd)

theorem rawReadData_frozenAt {old : List UInt8} (hpos : 0 < old.length)
    (hroom : off + 8 < buf.length) :
    rawReadData old { frozenAt off with off := off + 8 } buf =
      (0, .raw (some (.mem (overlay ((buf.drop (8 + off)).take old.length) old))),
        { off := off + 8 + min old.length (buf.length - (8 + off)),
          frozenOff := some off }) := by
  have hread : defaultRead buf (8 + off) old.length = _ :=
    defaultRead_clipped hpos (by omega)
  simp only [rawReadData, frozenAt, Slider.read, Slider.start, Option.getD_some, hread,
    lt_self_iff_false, if_false]

theorem rawConvertFrom_frozenAt {bytes : List UInt8} {ptr : Option Raw}
    (hholds : (Data.raw ptr).Holds (.raw bytes)) (hne : bytes ≠ [])
    (hmax : buf.length ≤ maxObject)
    (hst : (Value.raw bytes).StoredAt (frozenAt off) buf) :
    let r := rawConvertFrom fresh ptr (frozenAt off) buf
    r.1 = 0 ∧ r.2.2.frozenOff = some off ∧
      (r.2.2.off = off + (8 + bytes.length) ∧ r.2.1.value = some (.raw bytes) ↔
        (Value.raw bytes).ReadsInto buf.length off (.raw ptr)) := by
  have hpos : 0 < bytes.length := List.length_pos_iff.mpr hne
  have hroom : off + 8 + bytes.length ≤ buf.length :=
    (hst (off + 8, bytes) (List.mem_cons_of_mem _ (List.mem_singleton_self _))).1
  rw [rawConvertFrom_stored (by omega) hst]
  cases ptr with
  | none =>
      rw [rawReadData_stored hne (length_blank _ _) hst]
      exact ⟨rfl, rfl, iff_of_true ⟨rfl, rfl⟩ trivial⟩
  | some r =>
      cases r with
      | null n =>
          rw [rawReadData_stored hne (length_blank _ _) hst]
          exact ⟨rfl, rfl, iff_of_true ⟨rfl, rfl⟩ trivial⟩
      | mem old =>
          have hle : bytes.length ≤ old.length := hholds
          simp only [if_neg (not_lt.mpr hle)]
          by_cases heq : old.length = bytes.length
          · rw [rawReadData_stored hne heq hst]
            exact ⟨rfl, rfl, iff_of_true ⟨rfl, rfl⟩ heq⟩
          · rw [show (frozenAt off).off + 8 = off + 8 from rfl,
              rawReadData_frozenAt (by omega) (by omega)]
            refine ⟨rfl, rfl, iff_of_false (fun h => heq ?_) heq⟩
            -- the size of the destination is not changed
            have hbytes := Value.raw.inj (Option.some.inj h.2)
            rw [← hbytes, overlay, List.length_append, List.length_drop, List.length_take]
            omega

variable (fresh) in
/-- **One field.**  Decoding it into its destination consumes what was written and gives
the value back exactly if the destination reads that much. -/
theorem Data.convertFrom_frozenAt {v : Value} {d : Data} (hholds : d.Holds v)
    (hsolid : v.Solid) (hmax : buf.length ≤ maxObject)
    (hst : v.StoredAt (frozenAt off) buf) :
    let r := d.convertFrom fresh (frozenAt off) buf
    r.1 = 0 ∧ r.2.2.frozenOff = some off ∧
      (r.2.2.off = off + v.len ∧ r.2.1.value = some v ↔
        v.ReadsInto buf.length off d) := by
  cases v with
  | int t v =>
      cases d with
      | int t' ptr =>
          obtain rfl : t' = t := hholds
          simp only [Data.convertFrom]
          rw [intConvertFrom_stored hst]
          exact ⟨rfl, rfl, iff_of_true ⟨rfl, rfl⟩ trivial⟩
      | string ptr => cases ptr <;> exact absurd hholds id
      | raw ptr => exact absurd hholds (by rcases ptr with _ | _ | _ <;> exact id)
  | string s =>
      cases d with
      | int t ptr => exact absurd hholds id
      | string ptr => exact stringConvertFrom_frozenAt ptr hmax hst
      | raw ptr => exact absurd hholds (by rcases ptr with _ | _ | _ <;> exact id)
  | raw bytes =>
      cases d with
      | int t ptr => exact absurd hholds id
      | string ptr => cases ptr <;> exact absurd hholds id
      | raw ptr => exact rawConvertFrom_frozenAt hholds hsolid hmax hst

theorem Data.holds_of_value {v : Value} {d : Data} (h : d.value = some v) :
    d.Holds v := by
  rcases d with ⟨t, _ | x⟩ | (_ | c) | (_ | _ | bytes)
  · cases h
  · cases h
    rfl
  · cases h
  · cases h
    change c.text.length + 1 ≤ c.mem.length
    obtain ⟨rest, hrest⟩ := c.exists_mem_eq
    have hlen := congrArg List.length hrest
    rw [List.length_append, List.length_cons] at hlen
    omega
  · cases h
  · cases h
  · cases h
    exact le_refl bytes.length

end

/-! ## All fields -/

/-- A hash with the given items. -/
def Hash.ofItems : List (Key × α) → Hash α
  | [] => .stop
  | p :: ps => .item p.1 p.2 (ofItems ps)

theorem Hash.items_ofItems (ps : List (Key × α)) : (Hash.ofItems ps).items = ps := by
  induction ps with
  | nil => rfl
  | cons p ps ih => rw [ofItems, items, ih]

theorem Hash.find_map (f : α → β) (key : Key) (h : Hash α) :
    (h.map f).find key = (h.find key).map f := by
  induction h with
  | stop => rfl
  | next h ih => exact ih
  | null rest ih => exact ih
  | inlineNull rest ih => exact ih
  | inline sub rest ihs ihr =>
      rw [map, find, find, ihs, ihr]
      cases sub.find key <;> rfl
  | item k data rest ih =>
      rw [map, find, find]
      split
      · rfl
      · exact ih

section

/-! The value of each key, and the fields as the keys they have. -/

variable (val : Key → Value)

/-- The bytes a run of fields takes. -/
def fieldsLen (ks : List Key) : Nat := total (ks.map val)

def packWrites : Nat → List Key → List (Nat × List UInt8)
  | _, [] => []
  | off, k :: ks => (val k).writes (frozenAt off) ++ packWrites (off + (val k).len) ks

/-- Every field is in the buffer, one behind the other. -/
def Packed (buf : List UInt8) : Nat → List Key → Prop
  | _, [] => True
  | off, k :: ks =>
      (val k).StoredAt (frozenAt off) buf ∧ Packed buf (off + (val k).len) ks

end

section

variable {val : Key → Value}

@[simp] theorem fieldsLen_cons (k : Key) (ks : List Key) :
    fieldsLen val (k :: ks) = (val k).len + fieldsLen val ks := rfl

theorem fieldsLen_append (ks ks' : List Key) :
    fieldsLen val (ks ++ ks') = fieldsLen val ks + fieldsLen val ks' := by
  simp [fieldsLen, total]

/-- Through a frozen slider a value writes its own bytes only. -/
theorem Value.mem_writes_frozenAt {v : Value} {off : Nat} {w : Nat × List UInt8}
    (h : w ∈ v.writes (frozenAt off)) : off ≤ w.1 ∧ w.1 + w.2.length ≤ off + v.len := by
  cases v with
  | int t v =>
      obtain rfl := List.mem_singleton.mp h
      simp [Value.len]
  | string s =>
      obtain rfl := List.mem_singleton.mp h
      simp [Value.len]
  | raw bytes =>
      simp only [Value.writes, start_frozenAt, gap_frozenAt, List.mem_cons,
        List.not_mem_nil, or_false] at h
      rcases h with rfl | rfl
      · simp [Value.len]
      · simp [Value.len]
        omega

theorem mem_packWrites {ks : List Key} {off : Nat} {w : Nat × List UInt8}
    (h : w ∈ packWrites val off ks) :
    off ≤ w.1 ∧ w.1 + w.2.length ≤ off + fieldsLen val ks := by
  induction ks generalizing off with
  | nil => cases h
  | cons k ks ih =>
      rw [fieldsLen_cons]
      rcases List.mem_append.mp h with h | h
      · have := Value.mem_writes_frozenAt h
        omega
      · have := ih h
        omega

theorem within_packWrites {ks : List Key} {off n : Nat} (h : off + fieldsLen val ks ≤ n) :
    Within n (packWrites val off ks) := by
  intro w hw
  have := mem_packWrites hw
  omega

theorem length_packWrites {ks : List Key} {off : Nat} {buf : List UInt8}
    (hroom : off + fieldsLen val ks ≤ buf.length) :
    (patchAll buf (packWrites val off ks)).length = buf.length :=
  length_patchAll (within_packWrites hroom)

theorem packed_patchAll {ks : List Key} {off : Nat} {buf : List UInt8}
    (hroom : off + fieldsLen val ks ≤ buf.length) :
    Packed val (patchAll buf (packWrites val off ks)) off ks := by
  induction ks generalizing off buf with
  | nil => trivial
  | cons k ks ih =>
      have hin : Within buf.length (packWrites val off (k :: ks)) :=
        within_packWrites hroom
      obtain ⟨hhere, hrest⟩ := List.forall_mem_append.mp hin
      have hlen := length_patchAll hhere
      rw [fieldsLen_cons] at hroom
      rw [packWrites, patchAll_append]
      refine ⟨fun w hw => ?_, ih (by rw [hlen]; omega)⟩
      refine (Value.storedAt_patchAll hhere w hw).patchAll (hlen ▸ hrest) fun u hu => ?_
      have h₁ := Value.mem_writes_frozenAt hw
      have h₂ := mem_packWrites hu
      omega

theorem packed_append {buf : List UInt8} {ks ks' : List Key} {off : Nat} :
    Packed val buf off (ks ++ ks') ↔
      Packed val buf off ks ∧ Packed val buf (off + fieldsLen val ks) ks' := by
  induction ks generalizing off with
  | nil => simp [Packed, fieldsLen, total]
  | cons k ks ih =>
      rw [List.cons_append, Packed, ih, Packed, fieldsLen_cons, and_assoc, Nat.add_assoc]

/-- **Packing.**  Solid values are packed one behind the other. -/
theorem foldlM_structIterPack {values : Hash Data} {fs : List (Key × Field)} {off : Nat}
    {buf : List UInt8} (hvalues : ∀ p ∈ fs, values.find p.1 = some (val p.1).data)
    (hsolid : ∀ p ∈ fs, (val p.1).Solid)
    (hroom : off + fieldsLen val (fs.map Prod.fst) ≤ buf.length) :
    (fs.map fun p => Entry.item p.1 p.2).foldlM (fun ctx e => structIterPack values e ctx)
        ⟨buf, { off := off }⟩
      = .ok ⟨patchAll buf (packWrites val off (fs.map Prod.fst)),
          { off := off + fieldsLen val (fs.map Prod.fst) }⟩ := by
  induction fs generalizing off buf with
  | nil => rfl
  | cons p fs ih =>
      have hin : Within buf.length (packWrites val off (p.1 :: fs.map Prod.fst)) :=
        within_packWrites hroom
      obtain ⟨hhere, -⟩ := List.forall_mem_append.mp hin
      have hlen := length_patchAll hhere
      obtain ⟨hvalue, hvalues'⟩ := List.forall_mem_cons.mp hvalues
      obtain ⟨hs, hsolid'⟩ := List.forall_mem_cons.mp hsolid
      rw [List.map_cons, fieldsLen_cons] at hroom
      have hstep : structIterPack values (.item p.1 p.2) ⟨buf, { off := off }⟩
          = .ok ⟨patchAll buf ((val p.1).writes (frozenAt off)),
            { off := off + (val p.1).len }⟩ := by
        have hto : (val p.1).data.convertTo (frozenAt off) buf = _ :=
          Value.convertTo_data hs hhere
        have hfreeze : ({ off := off } : Slider).freeze = frozenAt off := rfl
        simp only [structIterPack, hvalue, Option.some_or, hfreeze, hto, ne_eq,
          not_true, if_false]
        rfl
      rw [List.map_cons, List.foldlM_cons, hstep]
      refine (ih hvalues' hsolid' (by rw [hlen]; omega)).trans ?_
      rw [List.map_cons, packWrites, patchAll_append, fieldsLen_cons, Nat.add_assoc]

end

/-! ## The round trip -/

/-- The value a hash gives a key. -/
def Hash.valueOf (values : Hash Value) (key : Key) : Value :=
  (values.find key).getD (.raw [])

/-- What was packed is unpacked: the same length, and in every destination the value. -/
def Unpacks (fresh : Nat → Nat → UInt8) (values : Hash Value) (dst : Hash Data)
    (buf : List UInt8) (structure_ : Hash Field) : Prop :=
  ∀ n out, structPack structure_ (values.map Value.data) buf = (n, out) → 0 < n →
    (structUnpack fresh structure_ dst out).1 = n ∧
      ∀ p ∈ structure_.items,
        ((structUnpack fresh structure_ dst out).2.find p.1).bind Data.value
          = values.find p.1

/-- Every field before the first empty `raw_t`, at which `struct_pack` gives up, is read
to its end: a string field comes with a key of its own, and the destination of a key
consumes what was written for it, in a buffer of `size` bytes. -/
def Exact (size : Nat) (val : Key → Value) (dst : Hash Data) (ks : List Key) : Prop :=
  ∀ pre k post, ks = pre ++ k :: post → (∀ j ∈ pre ++ [k], (val j).Solid) →
    ((val k).type = .string → k ∉ pre) ∧
      (k ∉ pre → ∀ d, dst.find k = some d → (val k).ReadsInto size (fieldsLen val pre) d)

section

variable {val : Key → Value} {dst : Hash Data} {fresh : Nat → Nat → UInt8}

theorem Exact.of_append {size : Nat} {ks ks' : List Key}
    (h : Exact size val dst (ks ++ ks')) : Exact size val dst ks := by
  intro pre k post hks hsolid
  refine h pre k (post ++ ks') ?_ hsolid
  rw [hks, List.append_assoc, List.cons_append]

/-- The destinations after the fields `ks`: those have their values, the others
are as they were. -/
def Unpacked (val : Key → Value) (dst : Hash Data) (ks : List Key)
    (values : Hash Data) : Prop :=
  ∀ k, (k ∈ ks → ∃ d, values.find k = some d ∧ d.value = some (val k)) ∧
    (k ∉ ks → values.find k = dst.find k)

/-- A destination that has its value already consumes as much again, unless it is a
string. -/
theorem Value.readsInto_of_value {v : Value} {d : Data} (hd : d.value = some v)
    (size off : Nat) : v.type ≠ .string → v.ReadsInto size off d := by
  intro hne
  rcases d with ⟨t, _ | x⟩ | (_ | c) | (_ | _ | bytes)
  · cases hd
  · cases hd
    trivial
  · cases hd
  · cases hd
    exact absurd rfl hne
  · cases hd
  · cases hd
  · cases hd
    exact rfl

theorem Value.not_readsInto_string {s : Text} {d : Data} (hd : d.value = some (.string s))
    (size off : Nat) : ¬ (Value.string s).ReadsInto size off d := by
  rcases d with ⟨t, _ | x⟩ | (_ | c) | (_ | _ | bytes)
  · cases hd
  · cases hd
  · cases hd
  · cases hd
    change ¬ min c.strlen (size - off) = c.text.length + 1
    unfold Chars.strlen
    omega
  · cases hd
  · cases hd
  · cases hd

/-- One field of the unpacker, from destinations in which the fields before have their
values: it succeeds, and is right exactly if the current destination reads to the end. -/
theorem structIterUnpack_field (fresh : Nat → Nat → UInt8) (field : Field)
    {buf : List UInt8} {ks : List Key} {values : Hash Data} {k : Key}
    (hvalues : Unpacked val dst ks values)
    (hdst : ∃ d, dst.find k = some d ∧ d.Holds (val k)) (hsolid : (val k).Solid)
    (hmax : buf.length ≤ maxObject) {off : Nat}
    (hst : (val k).StoredAt (frozenAt off) buf) : ∃ d d' off', values.find k = some d ∧
      structIterUnpack fresh buf (.item k field) ⟨{ off := off }, values⟩
        = .ok ⟨{ off := off' }, values.assign k d'⟩ ∧
      (off' = off + (val k).len ∧ d'.value = some (val k) ↔
        (val k).ReadsInto buf.length off d) := by
  obtain ⟨d, hd, hholds⟩ : ∃ d, values.find k = some d ∧ d.Holds (val k) := by
    by_cases hk : k ∈ ks
    · obtain ⟨d, hd, hvalue⟩ := (hvalues k).1 hk
      exact ⟨d, hd, Data.holds_of_value hvalue⟩
    · rw [(hvalues k).2 hk]
      exact hdst
  obtain ⟨hret, hfrozen, hiff⟩ :=
    Data.convertFrom_frozenAt (fresh off) hholds hsolid hmax hst
  refine ⟨d, _, _, hd, ?_, hiff⟩
  have hfreeze : ({ off := off } : Slider).freeze = frozenAt off := rfl
  simp only [structIterUnpack, hd, hfreeze, hret, lt_self_iff_false, if_false]
  rfl

/-- The current destination of an exact field reads to its end. -/
theorem Exact.readsInto {size : Nat} {ks : List Key} {k : Key}
    (hexact : Exact size val dst (ks ++ [k])) (hsolid : ∀ j ∈ ks ++ [k], (val j).Solid)
    {values : Hash Data} (hvalues : Unpacked val dst ks values) {d : Data}
    (hd : values.find k = some d) : (val k).ReadsInto size (fieldsLen val ks) d := by
  obtain ⟨hstring, hreads⟩ := hexact ks k [] rfl hsolid
  by_cases hk : k ∈ ks
  · obtain ⟨d', hd', hvalue⟩ := (hvalues k).1 hk
    obtain rfl : d' = d := Option.some.inj (hd'.symm.trans hd)
    exact Value.readsInto_of_value hvalue _ _ fun h => hstring h hk
  · exact hreads hk d (((hvalues k).2 hk).symm.trans hd)

theorem Unpacked.assign {ks : List Key} {values : Hash Data}
    (hvalues : Unpacked val dst ks values) {k : Key} {d d' : Data}
    (hd : values.find k = some d) (hd' : d'.value = some (val k)) :
    Unpacked val dst (ks ++ [k]) (values.assign k d') := by
  intro j
  by_cases hj : j = k
  · subst hj
    refine ⟨fun _ => ⟨d', Hash.find_assign_self d' (by rw [hd]; rfl), hd'⟩, fun h => ?_⟩
    exact absurd (List.mem_append_right _ (List.mem_singleton_self _)) h
  · rw [Hash.find_assign_of_ne hj]
    refine ⟨fun h => (hvalues j).1 ?_, fun h => (hvalues j).2 fun hmem => ?_⟩
    · rcases List.mem_append.mp h with h | h
      · exact h
      · exact absurd (List.mem_singleton.mp h) hj
    · exact h (List.mem_append_left _ hmem)

variable (fresh) in
/-- **Unpacking.**  Exact fields are unpacked. -/
theorem foldlM_structIterUnpack {buf : List UInt8} (hmax : buf.length ≤ maxObject)
    (fs : List (Key × Field)) :
    (∀ p ∈ fs, ∃ d, dst.find p.1 = some d ∧ d.Holds (val p.1)) →
    (∀ j ∈ fs.map Prod.fst, (val j).Solid) → Packed val buf 0 (fs.map Prod.fst) →
    Exact buf.length val dst (fs.map Prod.fst) →
      ∃ values, (fs.map fun p => Entry.item p.1 p.2).foldlM
          (fun ctx e => structIterUnpack fresh buf e ctx) ⟨{ off := 0 }, dst⟩
            = .ok ⟨{ off := fieldsLen val (fs.map Prod.fst) }, values⟩ ∧
        Unpacked val dst (fs.map Prod.fst) values := by
  induction fs using List.reverseRecOn with
  | nil =>
      intro _ _ _ _
      exact ⟨dst, rfl, fun k => ⟨fun h => absurd h List.not_mem_nil, fun _ => rfl⟩⟩
  | append_singleton fs p ih =>
      intro hdst hsolid hpacked hexact
      simp only [List.map_append, List.map_singleton] at hsolid hpacked hexact ⊢
      obtain ⟨hpre, hlast⟩ := packed_append.mp hpacked
      obtain ⟨hdst', hp⟩ := List.forall_mem_append.mp hdst
      obtain ⟨hsolid', hsp⟩ := List.forall_mem_append.mp hsolid
      obtain ⟨values, hrun, hvalues⟩ := ih hdst' hsolid' hpre hexact.of_append
      obtain ⟨d, d', off', hd, hstep, hiff⟩ := structIterUnpack_field fresh p.2 hvalues
        (hp p (List.mem_singleton_self _)) (hsp _ (List.mem_singleton_self _))
        hmax hlast.1
      rw [Nat.zero_add] at hstep hiff
      obtain ⟨hoff, hvalue⟩ := hiff.mpr (hexact.readsInto hsolid hvalues hd)
      refine ⟨values.assign p.1 d', ?_, hvalues.assign hd hvalue⟩
      simp only [List.foldlM_append, List.foldlM_cons, List.foldlM_nil, bind_pure, hrun]
      refine hstep.trans ?_
      rw [hoff, fieldsLen_append, fieldsLen_cons]
      rfl

/-- The last of a run of fields that is unpacked was exact. -/
theorem exact_last {buf : List UInt8} (hmax : buf.length ≤ maxObject)
    {fs : List (Key × Field)} {p : Key × Field}
    (hdst : ∀ q ∈ fs ++ [p], ∃ d, dst.find q.1 = some d ∧ d.Holds (val q.1))
    (hsolid : ∀ j ∈ fs.map Prod.fst ++ [p.1], (val j).Solid)
    (hpacked : Packed val buf 0 (fs.map Prod.fst ++ [p.1]))
    (hexact : Exact buf.length val dst (fs.map Prod.fst)) {sl : Slider}
    {values : Hash Data} (hrun : ((fs ++ [p]).map fun q => Entry.item q.1 q.2).foldlM
      (fun ctx e => structIterUnpack fresh buf e ctx) ⟨{ off := 0 }, dst⟩
        = .ok ⟨sl, values⟩)
    (hoff : sl.off = fieldsLen val (fs.map Prod.fst ++ [p.1]))
    (hvalue : (values.find p.1).bind Data.value = some (val p.1)) :
    ((val p.1).type = .string → p.1 ∉ fs.map Prod.fst) ∧
      (p.1 ∉ fs.map Prod.fst → ∀ d, dst.find p.1 = some d →
        (val p.1).ReadsInto buf.length (fieldsLen val (fs.map Prod.fst)) d) := by
  obtain ⟨hpre, hlast⟩ := packed_append.mp hpacked
  obtain ⟨hdst', hp⟩ := List.forall_mem_append.mp hdst
  obtain ⟨hsolid', hsp⟩ := List.forall_mem_append.mp hsolid
  obtain ⟨values', hrun', hvalues⟩ :=
    foldlM_structIterUnpack fresh hmax fs hdst' hsolid' hpre hexact
  obtain ⟨d, d', off', hd, hstep, hiff⟩ := structIterUnpack_field fresh p.2 hvalues
    (hp p (List.mem_singleton_self _)) (hsp _ (List.mem_singleton_self _)) hmax hlast.1
  rw [Nat.zero_add] at hstep hiff
  simp only [List.map_append, List.map_singleton, List.foldlM_append, List.foldlM_cons,
    List.foldlM_nil, bind_pure, hrun'] at hrun
  -- the run ended where the field ends, with its value
  have hreads : (val p.1).ReadsInto buf.length (fieldsLen val (fs.map Prod.fst)) d := by
    have hctx := Except.ok.inj (hstep.symm.trans hrun)
    injection hctx with hsl hassign
    rw [← hassign, Hash.find_assign_self d' (by rw [hd]; rfl)] at hvalue
    rw [← hsl, fieldsLen_append] at hoff
    exact hiff.mp ⟨hoff, hvalue⟩
  refine ⟨fun hstring hmem => ?_, fun hmem d₀ hd₀ => ?_⟩
  · obtain ⟨d₀, hd₀, hv⟩ := (hvalues p.1).1 hmem
    obtain rfl : d₀ = d := Option.some.inj (hd₀.symm.trans hd)
    cases hval : val p.1 with
    | int t v => rw [hval] at hstring; cases hstring
    | string s =>
        rw [hval] at hv hreads
        exact Value.not_readsInto_string hv _ _ hreads
    | raw bytes => rw [hval] at hstring; cases hstring
  · rw [(hvalues p.1).2 hmem] at hd
    obtain rfl : d₀ = d := Option.some.inj (hd₀.symm.trans hd)
    exact hreads

theorem Exact.nil {size : Nat} : Exact size val dst [] := by
  intro ks k post hks _
  exact absurd hks.symm (List.append_ne_nil_of_right_ne_nil _ (List.cons_ne_nil _ _))

theorem Exact.snoc {size : Nat} {ks : List Key} {k : Key} (hexact : Exact size val dst ks)
    (hlast : (∀ j ∈ ks ++ [k], (val j).Solid) → ((val k).type = .string → k ∉ ks) ∧
      (k ∉ ks → ∀ d, dst.find k = some d → (val k).ReadsInto size (fieldsLen val ks) d)) :
    Exact size val dst (ks ++ [k]) := by
  intro pre j post hks hsolid
  rcases List.eq_nil_or_concat post with rfl | ⟨post, i, rfl⟩
  · obtain ⟨rfl, hkj⟩ := List.append_inj' hks rfl
    obtain rfl : k = j := List.singleton_inj.mp hkj
    exact hlast hsolid
  · rw [List.concat_eq_append, ← List.cons_append, ← List.append_assoc] at hks
    exact hexact pre j post (List.append_inj' hks rfl).1 hsolid

end

theorem solid_of_structIterPack {values : Hash Data} {key : Key}
    {field : Field} {v : Value} {ctx ctx' : PackCtx}
    (hfind : values.find key = some v.data)
    (h : structIterPack values (.item key field) ctx = .ok ctx') : v.Solid := by
  cases v with
  | int t v => trivial
  | string s => trivial
  | raw bytes =>
      intro hnil
      subst hnil
      simp only [structIterPack, hfind, Option.some_or] at h
      split at h
      · cases h
      · rename_i hzero
        have hneg := rawConvertTo_nil ctx.sl.freeze ctx.buf
        exact absurd (not_not.mp hzero) hneg.ne

section

variable {values : Hash Value}

variable {structure_ : Hash Field} {buf : List UInt8}

/-- `struct_pack` answers a length only if all values are solid. -/
theorem solid_of_structPack
    (hvalues : ∀ p ∈ structure_.items, values.find p.1 = some (values.valueOf p.1))
    (hpos : 0 < (structPack structure_ (values.map Value.data) buf).1) :
    ∀ j ∈ structure_.items.map Prod.fst, (values.valueOf j).Solid := by
  rw [List.forall_mem_map]
  intro p hp
  rw [structPack, Hash.iter_eq_foldlM, Hash.entries_itemFlags] at hpos
  split at hpos
  · exact absurd hpos (lt_irrefl _)
  · rename_i ctx hrun
    obtain ⟨s₁, s₂, hstep⟩ := exists_step_of_foldlM hrun _ (List.mem_map_of_mem hp)
    refine solid_of_structIterPack ?_ hstep
    rw [Hash.find_map, hvalues p hp]
    rfl

theorem structPack_eq
    (hvalues : ∀ p ∈ structure_.items, values.find p.1 = some (values.valueOf p.1))
    (hroom : fieldsLen values.valueOf (structure_.items.map Prod.fst) ≤ buf.length)
    (hsolid : ∀ j ∈ structure_.items.map Prod.fst, (values.valueOf j).Solid) :
    structPack structure_ (values.map Value.data) buf
      = (fieldsLen values.valueOf (structure_.items.map Prod.fst),
          patchAll buf
            (packWrites values.valueOf 0 (structure_.items.map Prod.fst))) := by
  have hfind : ∀ p ∈ structure_.items,
      (values.map Value.data).find p.1 = some (values.valueOf p.1).data := by
    intro p hp
    rw [Hash.find_map, hvalues p hp]
    rfl
  rw [structPack, Hash.iter_eq_foldlM, Hash.entries_itemFlags,
    foldlM_structIterPack hfind (fun p hp => hsolid p.1 (List.mem_map_of_mem hp))
      (by rwa [Nat.zero_add])]
  simp only [Nat.zero_add]

/-- `struct_unpack` of fields that are exact. -/
theorem structUnpack_exact (fresh : Nat → Nat → UInt8) {dst : Hash Data}
    (hdst : ∀ p ∈ structure_.items, ∃ d, dst.find p.1 = some d ∧
      d.Holds (values.valueOf p.1))
    (hsolid : ∀ j ∈ structure_.items.map Prod.fst, (values.valueOf j).Solid)
    (hpacked : Packed values.valueOf buf 0 (structure_.items.map Prod.fst))
    (hmax : buf.length ≤ maxObject)
    (hexact : Exact buf.length values.valueOf dst (structure_.items.map Prod.fst)) :
    ∃ dst', structUnpack fresh structure_ dst buf
        = (fieldsLen values.valueOf (structure_.items.map Prod.fst), dst') ∧
      Unpacked values.valueOf dst (structure_.items.map Prod.fst) dst' := by
  obtain ⟨dst', hrun, hvalues⟩ :=
    foldlM_structIterUnpack fresh hmax structure_.items hdst hsolid hpacked hexact
  refine ⟨dst', ?_, hvalues⟩
  rw [structUnpack, Hash.iter_eq_foldlM, Hash.entries_itemFlags, hrun]

/-- An answer above zero comes from a run to the end. -/
theorem structUnpack_pos {fresh : Nat → Nat → UInt8} {dst : Hash Data}
    (hpos : 0 < (structUnpack fresh structure_ dst buf).1) :
    ∃ sl, (structure_.items.map fun p => Entry.item p.1 p.2).foldlM
      (fun ctx e => structIterUnpack fresh buf e ctx) ⟨{ off := 0 }, dst⟩
        = .ok ⟨sl, (structUnpack fresh structure_ dst buf).2⟩ ∧
      sl.off = (structUnpack fresh structure_ dst buf).1 := by
  rw [structUnpack, Hash.iter_eq_foldlM, Hash.entries_itemFlags] at hpos ⊢
  split at hpos
  · exact absurd hpos (lt_irrefl _)
  · rename_i ctx hrun
    exact ⟨ctx.sl, hrun, rfl⟩

variable {dst : Hash Data} {fresh : Nat → Nat → UInt8}

variable (values dst) in
/-- Every field has a value and a destination that can hold it. -/
def Fits (ks : List Key) : Prop :=
  ∀ k ∈ ks, ∃ v d, values.find k = some v ∧ dst.find k = some d ∧ d.Holds v

theorem Fits.find_valueOf {ks : List Key} (h : Fits values dst ks) :
    ∀ k ∈ ks, values.find k = some (values.valueOf k) := by
  intro k hk
  obtain ⟨v, d, hv, -, -⟩ := h k hk
  rw [Hash.valueOf, hv]
  rfl

theorem Fits.holds {ks : List Key} (h : Fits values dst ks) :
    ∀ k ∈ ks, ∃ d, dst.find k = some d ∧ d.Holds (values.valueOf k) := by
  intro k hk
  obtain ⟨v, d, hv, hd, hholds⟩ := h k hk
  obtain rfl : v = values.valueOf k :=
    Option.some.inj (hv.symm.trans (h.find_valueOf k hk))
  exact ⟨d, hd, hholds⟩

variable (fresh) in
/-- Exact fields survive `struct_pack` and `struct_unpack`. -/
theorem Exact.unpacks
    (hexact : Exact buf.length values.valueOf dst (structure_.items.map Prod.fst))
    (hfits : Fits values dst (structure_.items.map Prod.fst))
    (hroom : fieldsLen values.valueOf (structure_.items.map Prod.fst) ≤ buf.length)
    (hmax : buf.length ≤ maxObject) : Unpacks fresh values dst buf structure_ := by
  have hvalues := List.forall_mem_map.mp hfits.find_valueOf
  have hholds := List.forall_mem_map.mp hfits.holds
  intro n out hpack hpos
  have hpos' : 0 < (structPack structure_ (values.map Value.data) buf).1 := by rwa [hpack]
  have hsolid := solid_of_structPack hvalues hpos'
  rw [structPack_eq hvalues hroom hsolid] at hpack
  obtain ⟨rfl, rfl⟩ := Prod.mk.inj hpack
  rw [← Nat.zero_add (fieldsLen _ _)] at hroom
  have hlen := length_packWrites hroom
  obtain ⟨dst', hunpack, hunpacked⟩ := structUnpack_exact fresh hholds hsolid
    (packed_patchAll hroom) (hlen.le.trans hmax) (by rwa [hlen])
  rw [hunpack]
  refine ⟨rfl, fun p hp => ?_⟩
  obtain ⟨d, hd, hvalue⟩ := (hunpacked p.1).1 (List.mem_map_of_mem hp)
  rw [hd, hvalues p hp]
  exact hvalue

/-- Fields that survive are exact at the last of them, if they are up to it. -/
theorem Unpacks.exact_concat {fs : List (Key × Field)} {p : Key × Field}
    (hitems : structure_.items = fs ++ [p])
    (hunpacks : Unpacks fresh values dst buf structure_)
    (hfits : Fits values dst (structure_.items.map Prod.fst))
    (hroom : fieldsLen values.valueOf (structure_.items.map Prod.fst) ≤ buf.length)
    (hmax : buf.length ≤ maxObject)
    (hexact : Exact buf.length values.valueOf dst (fs.map Prod.fst)) :
    Exact buf.length values.valueOf dst (structure_.items.map Prod.fst) := by
  have hks : structure_.items.map Prod.fst = fs.map Prod.fst ++ [p.1] := by
    rw [hitems, List.map_append, List.map_singleton]
  have hvalues := List.forall_mem_map.mp hfits.find_valueOf
  have hmem : p ∈ structure_.items := by
    rw [hitems]
    exact List.mem_append_right _ (List.mem_singleton_self _)
  rw [hks]
  refine hexact.snoc fun hsolid => ?_
  rw [← hks] at hsolid
  have hpos : 0 < fieldsLen values.valueOf (structure_.items.map Prod.fst) := by
    rw [hks, fieldsLen_append, fieldsLen_cons]
    have := (values.valueOf p.1).len_pos
    omega
  have hroom' := (Nat.zero_add _).trans_le hroom
  have hlen := length_packWrites hroom'
  have hpacked := packed_patchAll hroom'
  have hpack := structPack_eq hvalues hroom hsolid
  generalize patchAll buf _ = out at hlen hpacked hpack
  obtain ⟨hret, hfinds⟩ := hunpacks _ out hpack hpos
  obtain ⟨sl, hrun, hoff⟩ := structUnpack_pos (hret.symm ▸ hpos)
  rw [hret] at hoff
  have hvalue := hfinds p hmem
  rw [hvalues p hmem] at hvalue
  rw [hks] at hsolid hpacked hoff
  have hholds := List.forall_mem_map.mp hfits.holds
  rw [hitems] at hholds hrun
  have hlast := exact_last (hlen.le.trans hmax) hholds hsolid hpacked (by rwa [hlen])
      hrun hoff hvalue
  rwa [hlen] at hlast

/-- Fields all of whose beginnings survive are exact. -/
theorem exact_of_unpacks {fs : List (Key × Field)}
    (hunpacks : ∀ s : Hash Field, s.items <+: fs → Unpacks fresh values dst buf s)
    (hfits : Fits values dst (fs.map Prod.fst))
    (hroom : fieldsLen values.valueOf (fs.map Prod.fst) ≤ buf.length)
    (hmax : buf.length ≤ maxObject) :
    Exact buf.length values.valueOf dst (fs.map Prod.fst) := by
  induction fs using List.reverseRecOn with
  | nil => exact Exact.nil
  | append_singleton fs p ih =>
      have hitems : (Hash.ofItems (fs ++ [p])).items = fs ++ [p] := Hash.items_ofItems _
      have hpre : Exact buf.length values.valueOf dst (fs.map Prod.fst) := by
        rw [List.map_append] at hfits hroom
        rw [fieldsLen_append] at hroom
        refine ih (fun s hs => hunpacks s (hs.trans (List.prefix_append fs [p])))
          ?_ (by omega)
        exact fun k hk => hfits k (List.mem_append_left _ hk)
      have hself := hunpacks (Hash.ofItems (fs ++ [p])) (by rw [hitems])
      rw [← hitems] at hfits hroom ⊢
      exact hself.exact_concat hitems hfits hroom hmax hpre

/-- **Struct round trip.**  A structure and all that begin like it are unpacked as they
were packed exactly if every field is read to its end. -/
theorem structUnpack_iff (fresh : Nat → Nat → UInt8)
    (hfits : Fits values dst (structure_.items.map Prod.fst))
    (hroom : fieldsLen values.valueOf (structure_.items.map Prod.fst) ≤ buf.length)
    (hmax : buf.length ≤ maxObject) :
    (∀ s : Hash Field, s.items <+: structure_.items → Unpacks fresh values dst buf s) ↔
      Exact buf.length values.valueOf dst (structure_.items.map Prod.fst) := by
  refine ⟨fun h => exact_of_unpacks h hfits hroom hmax, fun hexact s hs => ?_⟩
  obtain ⟨rest, hrest⟩ := hs
  rw [← hrest, List.map_append] at hexact hfits hroom
  rw [fieldsLen_append] at hroom
  refine hexact.of_append.unpacks fresh (fun k hk => hfits k ?_) (by omega) hmax
  exact List.mem_append_left _ hk

end

/-- A name and a number, as `{ HK(name), ... }, { HK(number), ... }`. -/
def nameNumber : Hash Field :=
  .item ⟨1, regular_one⟩ ⟨none⟩ (.item ⟨2, regular_two⟩ ⟨none⟩ .stop)

def nameNumberValues : Hash Value :=
  .item ⟨1, regular_one⟩ (.string ⟨[97], clean_a⟩)
  (.item ⟨2, regular_two⟩ (.int .uint32 7) .stop)

/-- A string of `n` characters `x` to read the name into, and a number. -/
def nameNumberDst (n : Nat) : Hash Data :=
  .item ⟨1, regular_one⟩ (.string (some ⟨List.replicate n 120 ++ [0], by simp⟩))
    (.item ⟨2, regular_two⟩ (.int .uint32 (some 0)) .stop)

theorem nameNumber_fits (n : Nat) (hn : 1 ≤ n) :
    Fits nameNumberValues (nameNumberDst n) (nameNumber.items.map Prod.fst) := by
  intro k hk
  rcases List.mem_cons.mp hk with rfl | hk
  · refine ⟨_, _, rfl, rfl, ?_⟩
    simp [Data.Holds, hn]
  · obtain rfl := List.mem_singleton.mp hk
    exact ⟨_, _, rfl, rfl, rfl⟩

theorem structUnpack_iff_nameNumber :
    Fits nameNumberValues (nameNumberDst 2) (nameNumber.items.map Prod.fst) ∧
      Unpacks (fun _ _ => 0) nameNumberValues (nameNumberDst 2) (List.replicate 8 0)
        nameNumber := by
  have hfits := nameNumber_fits 2 (by decide)
  have hname : Exact (List.replicate 8 (0 : UInt8)).length nameNumberValues.valueOf
      (nameNumberDst 2) [⟨1, regular_one⟩] := by
    refine Exact.nil.snoc fun _ => ⟨fun _ => List.not_mem_nil, fun _ d hd => ?_⟩
    cases hd
    change min (Chars.strlen _) 8 = 2
    decide
  have hexact : Exact (List.replicate 8 (0 : UInt8)).length nameNumberValues.valueOf
      (nameNumberDst 2) (nameNumber.items.map Prod.fst) := by
    refine hname.snoc fun _ => ⟨fun h => absurd h (by decide), fun _ d hd => ?_⟩
    cases hd
    trivial
  exact ⟨hfits, (structUnpack_iff _ hfits (by decide) (by decide)).mpr hexact _
    List.prefix_rfl⟩

/-- A destination with room for three characters swallows a byte of the number behind a
name of one character. -/
theorem long_destination_shifts :
    Fits nameNumberValues (nameNumberDst 3) (nameNumber.items.map Prod.fst) ∧
      (structPack nameNumber (nameNumberValues.map Value.data) (List.replicate 8 0)).1
        = 6 ∧
      ¬ Unpacks (fun _ _ => 0) nameNumberValues (nameNumberDst 3) (List.replicate 8 0)
        nameNumber := by
  refine ⟨nameNumber_fits 3 (by decide), by decide, fun h => ?_⟩
  obtain ⟨hret, -⟩ := h _ _ rfl (by decide)
  revert hret
  decide

end Frozen.Binary
