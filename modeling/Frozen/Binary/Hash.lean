/-
# `Frozen.Binary.Hash` — hashes, their iteration and their binary form

A `hash_t` is an array of items; three reserved keys mark an empty item, an inline
hash and the end of the array, whose pointer may lead to a further array.  `Hash` is
that array read from left to right, one constructor for each kind of item, so a hash
with its inline hashes and further arrays is one finite tree.  It is generic in what
an item holds: values, places in memory, or the fields of a structure.

`data_hash_t_convert_to` writes two streams into one buffer: the items themselves
(HOLDERS, 24 bytes each, pointers included) from its front, and the values behind the
last holder.  `data_hash_t_convert_from` reads holders up to the first end mark and
then the values of the items among them.
-/
import Frozen.Binary.Buffer

namespace Frozen.Binary

open Lib

/-! ## Hashes -/

def hashPtrNull : UInt64 := 0xFFFFFFFFFFFFFFFF
def hashPtrEnd : UInt64 := 0xFFFFFFFFFFFFFFFE
def hashPtrInline : UInt64 := 0xFFFFFFFFFFFFFFFD

/-- A key of a regular item. -/
structure Key where
  id : UInt64
  regular : id ≠ hashPtrNull ∧ id ≠ hashPtrEnd ∧ id ≠ hashPtrInline
deriving DecidableEq

/-! The keys of the examples. -/

theorem regular_one :
    (1 : UInt64) ≠ hashPtrNull ∧ (1 : UInt64) ≠ hashPtrEnd ∧
      (1 : UInt64) ≠ hashPtrInline := by
  decide

theorem regular_two :
    (2 : UInt64) ≠ hashPtrNull ∧ (2 : UInt64) ≠ hashPtrEnd ∧
      (2 : UInt64) ≠ hashPtrInline := by
  decide

theorem regular_five :
    (5 : UInt64) ≠ hashPtrNull ∧ (5 : UInt64) ≠ hashPtrEnd ∧
      (5 : UInt64) ≠ hashPtrInline := by
  decide

inductive Hash (α : Type) where
  /-- `hash_end` -/
  | stop
  /-- `hash_next(h)` -/
  | next (h : Hash α)
  /-- `hash_null` -/
  | null (rest : Hash α)
  /-- `hash_inline(NULL)` -/
  | inlineNull (rest : Hash α)
  /-- `hash_inline(sub)` -/
  | inline (sub rest : Hash α)
  | item (key : Key) (data : α) (rest : Hash α)

/-- What the callback of `hash_iter` is called with. -/
inductive Entry (α : Type) where
  | null
  | inline
  | last
  | item (key : Key) (data : α)

/-- `hash_iter_flags`. -/
structure Flags where
  null : Bool
  last : Bool
  inline : Bool

namespace Hash

variable {α β σ ε : Type}

/-- `hash_iter`; an error is `ITER_BREAK`, with what the callback left behind. -/
def iter (flags : Flags) (func : Entry α → σ → Except ε σ) : Hash α → σ → Except ε σ
  | .stop, s => if flags.last then func .last s else .ok s
  | .next h, s => iter flags func h s
  | .null rest, s => do
      let s ← if flags.null then func .null s else .ok s
      iter flags func rest s
  | .inlineNull rest, s => iter flags func rest s
  | .inline sub rest, s => do
      let s ← if flags.inline then func .inline s else .ok s
      let s ← iter flags func sub s
      iter flags func rest s
  | .item key data rest, s => do
      let s ← func (.item key data) s
      iter flags func rest s

/-- The entries `hash_iter` visits, in its order. -/
def entries (flags : Flags) : Hash α → List (Entry α)
  | .stop => if flags.last then [.last] else []
  | .next h => entries flags h
  | .null rest => (if flags.null then [.null] else []) ++ entries flags rest
  | .inlineNull rest => entries flags rest
  | .inline sub rest =>
      (if flags.inline then [.inline] else []) ++ entries flags sub ++ entries flags rest
  | .item key data rest => .item key data :: entries flags rest

/-- The callback sees the entries one after the other until it breaks. -/
theorem iter_eq_foldlM (flags : Flags) (func : Entry α → σ → Except ε σ) (h : Hash α) :
    ∀ s, h.iter flags func s = (h.entries flags).foldlM (fun s e => func e s) s := by
  induction h with
  | stop =>
      intro s
      cases hf : flags.last <;> simp [iter, entries, hf]
      rfl
  | next h ih => exact ih
  | null rest ih =>
      intro s
      cases hf : flags.null <;> simp only [iter, entries, hf, ih, List.foldlM_append]
        <;> simp
      rfl
  | inlineNull rest ih => exact ih
  | inline sub rest ihs ihr =>
      intro s
      cases hf : flags.inline
        <;> simp only [iter, entries, hf, ihs, ihr, List.foldlM_append] <;> simp
      rfl
  | item key data rest ih =>
      intro s
      simp only [iter, entries, ih, List.foldlM_cons]

def map (f : α → β) : Hash α → Hash β
  | .stop => .stop
  | .next h => .next (map f h)
  | .null rest => .null (map f rest)
  | .inlineNull rest => .inlineNull (map f rest)
  | .inline sub rest => .inline (map f sub) (map f rest)
  | .item key data rest => .item key (f data) (map f rest)

end Hash

def Entry.map (f : α → β) : Entry α → Entry β
  | .null => .null
  | .inline => .inline
  | .last => .last
  | .item key data => .item key (f data)

def Entry.item? : Entry α → Option (Key × α)
  | .item key data => some (key, data)
  | _ => none

namespace Hash

variable {α β σ ε : Type}

theorem entries_map (flags : Flags) (f : α → β) (h : Hash α) :
    (h.map f).entries flags = (h.entries flags).map (Entry.map f) := by
  induction h with
  | stop => simp only [map, entries]; split <;> rfl
  | next h ih => exact ih
  | null rest ih => simp only [map, entries, ih, List.map_append]; split <;> rfl
  | inlineNull rest ih => exact ih
  | inline sub rest ihs ihr =>
      simp only [map, entries, ihs, ihr, List.map_append]; split <;> rfl
  | item key data rest ih => simp only [map, entries, ih, List.map_cons]; rfl

/-- The flattened list of items, in `hash_iter` order. -/
def items : Hash α → List (Key × α)
  | .stop => []
  | .next h => items h
  | .null rest => items rest
  | .inlineNull rest => items rest
  | .inline sub rest => items sub ++ items rest
  | .item key data rest => (key, data) :: items rest

/-- Flags decide on the marks only: the items visited are the same. -/
theorem filterMap_entries (flags : Flags) (h : Hash α) :
    (h.entries flags).filterMap Entry.item? = h.items := by
  induction h with
  | stop => simp only [entries, items]; split <;> rfl
  | next h ih => exact ih
  | null rest ih => simp only [entries, items, List.filterMap_append, ih]; split <;> rfl
  | inlineNull rest ih => exact ih
  | inline sub rest ihs ihr =>
      simp only [entries, items, List.filterMap_append, ihs, ihr]; split <;> rfl
  | item key data rest ih =>
      simp only [entries, items, List.filterMap_cons, Entry.item?, ih]

theorem items_map (f : α → β) (h : Hash α) :
    (h.map f).items = h.items.map fun p => (p.1, f p.2) := by
  induction h with
  | stop => rfl
  | next h ih => exact ih
  | null rest ih => exact ih
  | inlineNull rest ih => exact ih
  | inline sub rest ihs ihr => simp only [map, items, ihs, ihr, List.map_append]
  | item key data rest ih => simp only [map, items, ih, List.map_cons]

/-- `hash_find` of a regular key. -/
def find (key : Key) : Hash α → Option α
  | .stop => none
  | .next h => find key h
  | .null rest => find key rest
  | .inlineNull rest => find key rest
  | .inline sub rest => (find key sub).or (find key rest)
  | .item k data rest => if k = key then some data else find key rest

/-- `hash_find` of the end mark: the first one it comes across, given by the array its
pointer leads to. -/
def findEnd : Hash α → Option (Hash α)
  | .stop => none
  | .next h => some h
  | .null rest => findEnd rest
  | .inlineNull rest => findEnd rest
  | .inline sub _ => findEnd sub
  | .item _ _ rest => findEnd rest

/-- `hash_find` of the inline mark: the hash the first such item leads to, `none` when
there is no such item or it is empty. -/
def findInline : Hash α → Option (Hash α)
  | .stop => none
  | .next h => findInline h
  | .null rest => findInline rest
  | .inlineNull _ => none
  | .inline sub _ => some sub
  | .item _ _ rest => findInline rest

end Hash

/-! ## `data_hash_t_convert_to` -/

/-- `sizeof(hash_t)`: key, type and pointer. -/
def holderSize : Nat := 24

/-- The flags of both passes. -/
def binaryFlags : Flags := { null := true, last := true, inline := false }

def Entry.keyId : Entry Data → UInt64
  | .null => hashPtrNull
  | .inline => hashPtrInline
  | .last => hashPtrEnd
  | .item key _ => key.id

def Entry.typeId (tag : UInt64) : Entry Data → UInt64
  | .item _ data => data.type.id
  | _ => tag

structure ToCtx where
  buf : List UInt8
  slHolder : Slider
  slData : Slider

section

/-! What a holder has beside its key: the pointer, and the type of a mark, which
nothing sets.  Both are given by the place of the holder. -/

variable (addr tag : Nat → UInt64)

/-- The holder of an entry at `off`, as it lies in memory. -/
def Entry.holder (off : Nat) (e : Entry Data) : List UInt8 :=
  leBytes 8 e.keyId.toNat ++ leBytes 8 (e.typeId (tag off)).toNat ++ leBytes 8
    (addr off).toNat

/-- `data_hash_t_convert_to_iter`, step two. -/
def convertToIter (e : Entry Data) (ctx : ToCtx) : Except ToCtx ToCtx :=
  let (ret, buf, slHolder) :=
    ctx.slHolder.write ctx.buf 0 holderSize (some (e.holder addr tag ctx.slHolder.start))
  let ctx := { ctx with buf := buf, slHolder := slHolder }
  if ret < 0 then .error ctx
  else
    match e with
    | .item _ data =>
        let (ret, buf, slData) := data.convertTo ctx.slData ctx.buf
        let ctx := { ctx with buf := buf, slData := slData }
        if ret < 0 then .error ctx else .ok ctx
    | _ => .ok ctx

/-- `data_hash_t_convert_to`: the answer and the buffer. -/
def Hash.convertTo (h : Hash Data) (buf : List UInt8) : Int × List UInt8 :=
  -- step one: count all elements
  match h.iter binaryFlags (fun _ n => (.ok (n + holderSize) : Except Unit Nat)) 0 with
  | .error _ => (-EFAULT, buf)
  | .ok n =>
      match h.iter binaryFlags (convertToIter addr tag)
        ⟨buf, { off := 0 }, { off := n }⟩ with
      | .error ctx => (-EFAULT, ctx.buf)
      | .ok ctx => (0, ctx.buf)

end

/-! ## `data_hash_t_convert_from` -/

/-- How the decoder ends other than by its answer `0`. -/
inductive Fault where
  | code (ret : Int)
  /-- the C standard says nothing about what happens next, or the buffer names a type
  outside this model -/
  | undefined

/-- A holder as it was read; its pointer is replaced at once. -/
structure Holder where
  key : UInt64
  type : UInt64
deriving DecidableEq

def Holder.ofBytes (bs : List UInt8) : Holder where
  key := UInt64.ofNat (leNat (bs.take 8))
  type := UInt64.ofNat (leNat ((bs.drop 8).take 8))

/-- An element of `hash_new`: `hash_null` with `TYPE_VOIDT`. -/
def newElement : List UInt8 := leBytes 8 hashPtrNull.toNat ++ leBytes 8 20 ++ leBytes 8 0

/-- The loop over the holders, with `room` elements of the array left before the last.
When the last but one is filled the array is exchanged for a larger one, but
`curr = new_hash + (curr - hash)` is computed after `hash = new_hash`: `curr` stays in the
freed array. -/
def readHolders (buf : List UInt8) : Nat → Slider → Except Fault (List Holder × Slider)
  | 0, _ => .error .undefined
  | room + 1, sl =>
      let (ret, d, sl') := sl.read buf 0 holderSize
      if ret < 0 then .error (.code (-EFAULT))
      else
        let hd := Holder.ofBytes (overlay d newElement)
        if room = 0 then .error .undefined
        else if hd.key = hashPtrEnd then .ok ([hd], sl')
        else do
          let (hds, sl'') ← readHolders buf room sl'
          .ok (hd :: hds, sl'')

/-- `HASH_INITIAL_SIZE` -/
def hashInitialSize : Nat := 8

/-- A place in memory and the type of what it holds. -/
structure Place where
  type : DataType
  loc : Nat
deriving DecidableEq

/-- An item of the temporary hash: the type the holder names, and the pointer taken
over from the destination. -/
structure Slot where
  type : UInt64
  ptr : Option Nat

def Place.slot (p : Place) : Slot := ⟨p.type.id, some p.loc⟩

/-- The temporary hash: the holders with their pointers restored from the destination,
`none` for a destination that is NULL.  A mark takes over its pointer like any item. -/
def restore (dst : Option (Hash Place)) : List Holder → Hash Slot
  | [] => .stop
  | hd :: hds =>
      if hn : hd.key = hashPtrNull then .null (restore dst hds)
      else if he : hd.key = hashPtrEnd then
        match dst.bind Hash.findEnd with
        | none => .stop
        | some h => .next (h.map Place.slot)
      else if hi : hd.key = hashPtrInline then
        match dst.bind Hash.findInline with
        | none => .inlineNull (restore dst hds)
        | some h => .inline (h.map Place.slot) (restore dst hds)
      else
        let key : Key := ⟨hd.key, hn, he, hi⟩
        .item key ⟨hd.type, (dst.bind (Hash.find key)).map Place.loc⟩ (restore dst hds)

/-- `mem` is the memory of the destination, `made` the items with memory of their own,
in the order they were decoded. -/
structure FromCtx where
  sl : Slider
  mem : Nat → Data
  made : List (Key × Data)

section

/-! Fresh memory, by the offset of the slider when it is allocated. -/

variable (fresh : Nat → Nat → UInt8)

/-- `data_hash_t_convert_from_iter`. -/
def convertFromIter (buf : List UInt8) (e : Entry Slot) (ctx : FromCtx) :
    Except Fault FromCtx :=
  match e with
  | .item key slot =>
      match DataType.ofId slot.type with
      | none => .error .undefined
      | some type =>
          match slot.ptr with
          | none =>
              let (ret, data, sl) := type.null.convertFrom (fresh ctx.sl.off) ctx.sl buf
              if ret < 0 then .error (.code (-EFAULT))
              else .ok { ctx with sl := sl, made := ctx.made ++ [(key, data)] }
          | some loc =>
              if (ctx.mem loc).type = type then
                let (ret, data, sl) :=
                  (ctx.mem loc).convertFrom (fresh ctx.sl.off) ctx.sl buf
                if ret < 0 then .error (.code (-EFAULT))
                else .ok { ctx with sl := sl, mem := Function.update ctx.mem loc data }
              else .error .undefined
  | _ => .ok ctx

/-- `data_hash_t_convert_from`.  A result is the answer `0`: with no destination the
decoded hash has the items `made`, else the destination keeps its items and its
memory becomes `mem`.  A decode that fails frees the temporary hash and what its
holders point to, which is what the caller has there if it is in place; here that is
an error, without memory. -/
def hashConvertFrom (dst : Option (Hash Place)) (mem : Nat → Data) (buf : List UInt8) :
    Except Fault FromCtx := do
  let (hds, sl) ← readHolders buf (hashInitialSize - 1) { off := 0 }
  (restore dst hds).iter { null := false, last := false, inline := false }
    (convertFromIter fresh buf) ⟨sl, mem, []⟩

end

end Frozen.Binary
