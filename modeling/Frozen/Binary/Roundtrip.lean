/-
# `Frozen.Binary.Roundtrip` — which hashes survive the binary form

Encoding is a run of writes (`entryWrites`): each entry puts its holder into the first
stream and each item its value into the second.  Decoding needs two facts about the
buffer at the end of that run, that every holder is where it was put (`slice_holder`)
and that every value is where the decoder looks for it (`Stored`).

The first always holds.  The second fails when a later write lands on the bytes of a
`raw_t`, which the slider leaves eight bytes behind the place it has moved to, and the
decoder fails by itself on what a buffer cannot tell it: the length of a string that is
not the last value, and which end mark is the last.
-/
import Frozen.Binary.Hash

namespace Frozen.Binary

open Lib

/-! ## The writes of the encoder -/

def Value.type : Value → DataType
  | .int t _ => .int t
  | .string _ => .string
  | .raw _ => .raw

@[simp] theorem Value.type_data (v : Value) : v.data.type = v.type := by
  cases v <;> rfl

/-- The bytes a value and those behind it move the slider on by. -/
def total (vs : List Value) : Nat := (vs.map Value.len).sum

/-- How far behind its start a value writes through a slider that is not frozen. -/
def Value.extent : Value → Nat
  | .raw bytes => 16 + bytes.length
  | v => v.len

/-- How far behind its start a run of values writes. -/
def extent : List Value → Nat
  | [] => 0
  | v :: vs => max v.extent (v.len + extent vs)

@[simp] theorem total_cons (v : Value) (vs : List Value) :
    total (v :: vs) = v.len + total vs := rfl

/-- The values among the entries. -/
def valuesOf (es : List (Entry Value)) : List Value :=
  (es.filterMap Entry.item?).map Prod.snd

namespace Entry

def len : Entry Value → Nat
  | .item _ v => v.len
  | _ => 0

def extent : Entry Value → Nat
  | .item _ v => v.extent
  | _ => 0

/-- The writes of an entry into the second stream, at `p`. -/
def writes (p : Nat) : Entry Value → List (Nat × List UInt8)
  | .item _ v => v.writes { off := p }
  | _ => []

def Solid : Entry Value → Prop
  | .item _ v => v.Solid
  | _ => True

def isLast : Entry α → Bool
  | .last => true
  | _ => false

end Entry

theorem total_valuesOf_cons (e : Entry Value) (es : List (Entry Value)) :
    total (valuesOf (e :: es)) = e.len + total (valuesOf es) := by
  cases e <;> simp [valuesOf, Entry.item?, Entry.len, List.filterMap_cons]

theorem extent_valuesOf_cons (e : Entry Value) (es : List (Entry Value)) :
    extent (valuesOf (e :: es)) = max e.extent (e.len + extent (valuesOf es)) := by
  cases e <;> simp [valuesOf, Entry.item?, Entry.len, Entry.extent, extent,
    List.filterMap_cons]

section

variable (addr tag : Nat → UInt64)

/-- The writes of pass two, with the holder slider at `k` and the data slider at `p`. -/
def entryWrites : Nat → Nat → List (Entry Value) → List (Nat × List UInt8)
  | _, _, [] => []
  | k, p, e :: es =>
      (k, (e.map Value.data).holder addr tag k) ::
        (e.writes p ++ entryWrites (k + holderSize) (p + e.len) es)

end

section

variable {addr tag : Nat → UInt64}

@[simp] theorem Entry.length_holder (e : Entry Data) (k : Nat) :
    (e.holder addr tag k).length = holderSize := by
  simp [Entry.holder, holderSize]

theorem Value.mem_writes {v : Value} {p : Nat} {w : Nat × List UInt8}
    (h : w ∈ v.writes { off := p }) : p ≤ w.1 ∧ w.1 + w.2.length ≤ p + v.extent := by
  cases v with
  | int t v =>
      obtain rfl := List.mem_singleton.mp h
      simp [Slider.start, Value.extent, Value.len]
  | string s =>
      obtain rfl := List.mem_singleton.mp h
      simp [Slider.start, Value.extent, Value.len]
  | raw bytes =>
      simp only [Value.writes, Slider.start, Slider.gap, List.mem_cons, List.not_mem_nil,
        or_false] at h
      rcases h with rfl | rfl
      · simp [Value.extent]
        omega
      · simp [Value.extent]
        omega

theorem Value.len_pos (v : Value) : 0 < v.len := by
  cases v with
  | int t v => exact t.bytes_pos
  | string s => exact Nat.succ_pos _
  | raw bytes => exact Nat.add_pos_left (by omega) _

theorem Entry.mem_writes {e : Entry Value} {p : Nat} {w : Nat × List UInt8}
    (h : w ∈ e.writes p) : 0 < e.len ∧ p ≤ w.1 ∧ w.1 + w.2.length ≤ p + e.extent := by
  cases e with
  | item key v => exact ⟨v.len_pos, Value.mem_writes h⟩
  | null => cases h
  | inline => cases h
  | last => cases h

theorem mem_entryWrites {es : List (Entry Value)} {k p : Nat} {w : Nat × List UInt8}
    (h : w ∈ entryWrites addr tag k p es) :
    (k ≤ w.1 ∧ w.1 + w.2.length ≤ k + holderSize * es.length) ∨
      (0 < total (valuesOf es) ∧ p ≤ w.1 ∧
        w.1 + w.2.length ≤ p + extent (valuesOf es)) := by
  induction es generalizing k p with
  | nil => cases h
  | cons e es ih =>
      rw [List.length_cons, Nat.mul_succ, extent_valuesOf_cons, total_valuesOf_cons]
      rcases List.mem_cons.mp h with rfl | h
      · left
        rw [Entry.length_holder]
        omega
      rcases List.mem_append.mp h with h | h
      · have hw := Entry.mem_writes h
        omega
      · have hw := ih h
        omega

theorem within_entryWrites {es : List (Entry Value)} {k p n : Nat}
    (hk : k + holderSize * es.length ≤ n) (hp : p + extent (valuesOf es) ≤ n) :
    Within n (entryWrites addr tag k p es) := by
  intro w hw
  have := mem_entryWrites hw
  omega

theorem convertToIter_entry {e : Entry Value} {k p : Nat} {buf : List UInt8}
    (hsolid : e.Solid) (hk : k + holderSize ≤ buf.length)
    (hroom : Within buf.length (e.writes p)) :
    convertToIter addr tag (e.map Value.data) ⟨buf, { off := k }, { off := p }⟩
      = .ok ⟨patchAll (patch buf (k, (e.map Value.data).holder addr tag k)) (e.writes p),
          { off := k + holderSize }, { off := p + e.len }⟩ := by
  have hwrite : ({ off := k } : Slider).write buf 0 holderSize
      (some ((e.map Value.data).holder addr tag k))
        = (0, patch buf (k, (e.map Value.data).holder addr tag k),
          { off := k + holderSize }) :=
    Slider.write_front (Entry.length_holder _ _) (by decide) hk
  have hlen : (patch buf (k, (e.map Value.data).holder addr tag k)).length = buf.length :=
    length_patch (by rw [Entry.length_holder]; exact hk)
  have hstart : ({ off := k } : Slider).start = k := rfl
  simp only [convertToIter, hstart, hwrite, lt_self_iff_false, if_false]
  cases e with
  | item key v =>
      have hto : v.data.convertTo { off := p }
          (patch buf (k, ((Entry.item key v).map Value.data).holder addr tag k)) = _ :=
        Value.convertTo_data hsolid (hlen ▸ hroom)
      simp only [Entry.map] at hto ⊢
      simp only [hto, lt_self_iff_false, if_false]
      rfl
  | null => rfl
  | inline => rfl
  | last => rfl

/-- **The encoder's second pass.**  It performs its writes if no value is empty and the
buffer has room. -/
theorem foldlM_convertToIter {es : List (Entry Value)} {k p : Nat} {buf : List UInt8}
    (hsolid : ∀ e ∈ es, e.Solid)
    (hroom : Within buf.length (entryWrites addr tag k p es)) :
    (es.map (Entry.map Value.data)).foldlM (fun ctx e => convertToIter addr tag e ctx)
        ⟨buf, { off := k }, { off := p }⟩
      = .ok ⟨patchAll buf (entryWrites addr tag k p es),
        { off := k + holderSize * es.length },
          { off := p + total (valuesOf es) }⟩ := by
  induction es generalizing k p buf with
  | nil => rfl
  | cons e es ih =>
      obtain ⟨hk, hroom'⟩ := List.forall_mem_cons.mp hroom
      obtain ⟨hewrites, hrest⟩ := List.forall_mem_append.mp hroom'
      obtain ⟨hesolid, hsolid'⟩ := List.forall_mem_cons.mp hsolid
      have hlen := length_patch hk
      have hlen' := length_patchAll (hlen.symm ▸ hewrites :
        Within (patch buf (k, (e.map Value.data).holder addr tag k)).length (e.writes p))
      rw [Entry.length_holder] at hk
      rw [List.map_cons, List.foldlM_cons, convertToIter_entry hesolid hk hewrites]
      refine (ih hsolid' (by rw [hlen', hlen]; exact hrest)).trans ?_
      rw [entryWrites, patchAll_cons, patchAll_append, total_valuesOf_cons,
        List.length_cons,
        Nat.mul_succ, Nat.add_assoc, Nat.add_comm holderSize, Nat.add_assoc]

/-- The holders of the entries lie in the buffer, one after the other from `k` on. -/
def HoldersAt (addr tag : Nat → UInt64) (buf : List UInt8) :
    Nat → List (Entry Value) → Prop
  | _, [] => True
  | k, e :: es =>
      ReadsBack buf (k, (e.map Value.data).holder addr tag k) ∧
      HoldersAt addr tag buf (k + holderSize) es

/-- The first stream is never overwritten: the second starts behind it. -/
theorem holdersAt_entryWrites {es : List (Entry Value)} {k p : Nat} {buf : List UInt8}
    (hkp : k + holderSize * es.length ≤ p)
    (hroom : Within buf.length (entryWrites addr tag k p es)) :
    HoldersAt addr tag (patchAll buf (entryWrites addr tag k p es)) k es := by
  induction es generalizing k p buf with
  | nil => trivial
  | cons e es ih =>
      rw [List.length_cons, Nat.mul_succ] at hkp
      obtain ⟨hk, hroom'⟩ := List.forall_mem_cons.mp hroom
      obtain ⟨hewrites, hrest⟩ := List.forall_mem_append.mp hroom'
      have hlen := length_patch hk
      have hlen' := length_patchAll (hlen.symm ▸ hewrites :
        Within (patch buf (k, (e.map Value.data).holder addr tag k)).length (e.writes p))
      refine ⟨?_, ?_⟩
      · refine (readsBack_patch hk).patchAll (hlen ▸ hroom') ?_
        intro w hw
        rw [Entry.length_holder]
        rcases List.mem_append.mp hw with hw | hw
        · have := Entry.mem_writes hw
          omega
        · have := mem_entryWrites hw
          omega
      · rw [entryWrites, patchAll_cons, patchAll_append]
        exact ih (by omega) (by rw [hlen', hlen]; exact hrest)

end

/-! ## The buffer the encoder leaves -/

/-- The bytes the encoder touches. -/
def Hash.room (h : Hash Value) : Nat :=
  holderSize * (h.entries binaryFlags).length + extent (h.items.map Prod.snd)

theorem valuesOf_entries (h : Hash Value) :
    valuesOf (h.entries binaryFlags) = h.items.map Prod.snd := by
  rw [valuesOf, Hash.filterMap_entries]

theorem Hash.iter_count {α : Type} (h : Hash α) :
    h.iter binaryFlags (fun _ n => (.ok (n + holderSize) : Except Unit Nat)) 0
      = .ok (holderSize * (h.entries binaryFlags).length) := by
  have hfold : ∀ (es : List (Entry α)) (n : Nat),
      es.foldlM (fun n _ => (.ok (n + holderSize) : Except Unit Nat)) n
        = .ok (n + holderSize * es.length) := by
    intro es
    induction es with
    | nil => intro n; rfl
    | cons e es ih =>
        intro n
        rw [List.foldlM_cons]
        refine (ih _).trans ?_
        rw [List.length_cons, Nat.mul_succ, Nat.add_assoc, Nat.add_comm holderSize]
  rw [iter_eq_foldlM, hfold, Nat.zero_add]

section

variable (addr tag : Nat → UInt64)

/-- The buffer after the encoder's writes. -/
def Hash.encoded (h : Hash Value) (buf : List UInt8) : List UInt8 :=
  patchAll buf (entryWrites addr tag 0 (holderSize * (h.entries binaryFlags).length)
    (h.entries binaryFlags))

end

section

variable {addr tag : Nat → UInt64}

theorem within_of_room {h : Hash Value} {buf : List UInt8} (hroom : h.room ≤ buf.length) :
    Within buf.length
      (entryWrites addr tag 0 (holderSize * (h.entries binaryFlags).length)
      (h.entries binaryFlags)) := by
  unfold Hash.room at hroom
  refine within_entryWrites (by omega) ?_
  rw [valuesOf_entries]
  exact hroom

theorem Entry.solid_of_items {h : Hash Value} (hsolid : ∀ p ∈ h.items, p.2.Solid) :
    ∀ e ∈ h.entries binaryFlags, e.Solid := by
  intro e he
  cases e with
  | item key v =>
      refine hsolid (key, v) ?_
      rw [← Hash.filterMap_entries binaryFlags]
      exact List.mem_filterMap.mpr ⟨_, he, rfl⟩
  | null => trivial
  | inline => trivial
  | last => trivial

/-- **Encoding.**  Without empty values and with enough room it succeeds. -/
theorem Hash.convertTo_map_data {h : Hash Value} {buf : List UInt8}
    (hsolid : ∀ p ∈ h.items, p.2.Solid) (hroom : h.room ≤ buf.length) :
    (h.map Value.data).convertTo addr tag buf = (0, h.encoded addr tag buf) := by
  have hin : Within buf.length (entryWrites addr tag 0
      (holderSize * (h.entries binaryFlags).length)
      (h.entries binaryFlags)) := within_of_room hroom
  have hfold := foldlM_convertToIter (Entry.solid_of_items hsolid) hin
  have hcount := (h.map Value.data).iter_count
  rw [Hash.entries_map, List.length_map] at hcount
  rw [Hash.convertTo, hcount]
  simp only [Hash.iter_eq_foldlM, Hash.entries_map, hfold]
  rfl

theorem Hash.length_encoded {h : Hash Value} {buf : List UInt8}
    (hroom : h.room ≤ buf.length) :
    (h.encoded addr tag buf).length = buf.length := length_patchAll (within_of_room hroom)

theorem Hash.holdersAt_encoded {h : Hash Value} {buf : List UInt8}
    (hroom : h.room ≤ buf.length) :
    HoldersAt addr tag (h.encoded addr tag buf) 0 (h.entries binaryFlags) :=
  holdersAt_entryWrites (by omega) (within_of_room hroom)

end

/-! ## The decoder's first loop -/

/-- The holder of an entry, read back. -/
def Entry.read (tag : Nat → UInt64) (k : Nat) (e : Entry Value) : Holder :=
  ⟨(e.map Value.data).keyId, (e.map Value.data).typeId (tag k)⟩

/-- The holders of a run of entries, read back. -/
def readAll (tag : Nat → UInt64) : Nat → List (Entry Value) → List Holder
  | _, [] => []
  | k, e :: es => e.read tag k :: readAll tag (k + holderSize) es

theorem leNat_leBytes_uint64 (x : UInt64) :
    UInt64.ofNat (leNat (leBytes 8 x.toNat)) = x := by
  rw [leNat_leBytes, Nat.mod_eq_of_lt (lt_of_lt_of_eq x.toNat_lt (by norm_num)),
    UInt64.ofNat_toNat]

section

variable {addr tag : Nat → UInt64} {buf : List UInt8}

theorem Holder.ofBytes_holder (e : Entry Value) (k : Nat) :
    Holder.ofBytes (overlay ((e.map Value.data).holder addr tag k) newElement)
      = e.read tag k := by
  rw [overlay_of_length (by simp [newElement, holderSize])]
  simp [Holder.ofBytes, Entry.holder, Entry.read, leNat_leBytes_uint64]

theorem readHolders_succ {e : Entry Value} {es : List (Entry Value)} {k room : Nat}
    (h : HoldersAt addr tag buf k (e :: es)) :
    readHolders buf (room + 1) { off := k } =
      if room = 0 then .error .undefined
      else if (e.read tag k).key = hashPtrEnd then
        .ok ([e.read tag k], { off := k + holderSize })
      else (readHolders buf room { off := k + holderSize }).map
        fun r => (e.read tag k :: r.1, r.2) := by
  obtain ⟨⟨hk, hslice⟩, -⟩ := h
  rw [Entry.length_holder] at hk hslice
  have hread : ({ off := k } : Slider).read buf 0 holderSize
      = (0, (buf.drop k).take holderSize, { off := k + holderSize }) :=
    Slider.read_front (by decide) hk
  simp only [readHolders, hread, hslice, Holder.ofBytes_holder,
    lt_self_iff_false, if_false]
  rfl

theorem Entry.read_key_ne_end {e : Entry Value} (h : e.isLast = false) (k : Nat) :
    (e.read tag k).key ≠ hashPtrEnd := by
  cases e with
  | null => exact (by decide : hashPtrNull ≠ hashPtrEnd)
  | inline => exact (by decide : hashPtrInline ≠ hashPtrEnd)
  | last => cases h
  | item key v => exact key.regular.2.1

/-- The loop stops behind the first end mark if the array does not fill up before. -/
theorem readHolders_ok {es rest : List (Entry Value)} {k room : Nat}
    (h : HoldersAt addr tag buf k (es ++ .last :: rest))
    (hes : ∀ e ∈ es, e.isLast = false) (hroom : es.length + 1 < room) :
    readHolders buf room { off := k }
      = .ok (readAll tag k (es ++ [.last]),
        { off := k + holderSize * (es.length + 1) }) := by
  induction es generalizing k room with
  | nil =>
      obtain ⟨room, rfl⟩ : ∃ r, room = r + 1 := ⟨room - 1, by omega⟩
      have hkey : ((.last : Entry Value).read tag k).key = hashPtrEnd := rfl
      rw [readHolders_succ h, if_neg (by simp at hroom; omega), if_pos hkey]
      rfl
  | cons e es ih =>
      obtain ⟨room, rfl⟩ : ∃ r, room = r + 1 := ⟨room - 1, by omega⟩
      obtain ⟨he, hes'⟩ := List.forall_mem_cons.mp hes
      rw [List.length_cons] at hroom
      rw [readHolders_succ h, if_neg (by omega), if_neg (Entry.read_key_ne_end he k),
        ih h.2 hes' (by omega)]
      simp only [Except.map, readAll, List.cons_append, List.length_cons, Nat.mul_succ]
      congr 3
      omega

/-- If the array fills up before the first end mark is read, anything may happen. -/
theorem readHolders_undefined {es rest : List (Entry Value)} {k room : Nat}
    (h : HoldersAt addr tag buf k (es ++ .last :: rest))
    (hes : ∀ e ∈ es, e.isLast = false) (hroom : room ≤ es.length + 1) :
    readHolders buf room { off := k } = .error .undefined := by
  induction es generalizing k room with
  | nil =>
      rcases Nat.eq_zero_or_pos room with rfl | hpos
      · rfl
      · obtain rfl : room = 0 + 1 := by simp at hroom; omega
        rw [readHolders_succ h, if_pos rfl]
  | cons e es ih =>
      rcases Nat.eq_zero_or_pos room with rfl | hpos
      · rfl
      · obtain ⟨room, rfl⟩ : ∃ r, room = r + 1 := ⟨room - 1, by omega⟩
        obtain ⟨he, hes'⟩ := List.forall_mem_cons.mp hes
        rw [List.length_cons] at hroom
        rw [readHolders_succ h]
        split
        · rfl
        · rw [if_neg (Entry.read_key_ne_end he k), ih h.2 hes' (by omega)]
          rfl

end

/-- No inline hash with items of its own. -/
def Hash.Flat : Hash α → Prop
  | .stop => True
  | .next h => Flat h
  | .null rest => Flat rest
  | .inlineNull rest => Flat rest
  | .inline _ _ => False
  | .item _ _ rest => Flat rest

instance Hash.decidableFlat : (h : Hash α) → Decidable h.Flat
  | .stop => .isTrue trivial
  | .next h => decidableFlat h
  | .null rest => decidableFlat rest
  | .inlineNull rest => decidableFlat rest
  | .inline _ _ => .isFalse id
  | .item _ _ rest => decidableFlat rest

/-- The entries up to the first end mark, which is the last one exactly if the hash is
flat. -/
theorem Hash.entries_split (h : Hash α) :
    ∃ es rest, h.entries binaryFlags = es ++ .last :: rest ∧
      (∀ e ∈ es, e.isLast = false) ∧ (rest = [] ↔ h.Flat) := by
  induction h with
  | stop => exact ⟨[], [], rfl, by simp, by simp [Flat]⟩
  | next h ih => exact ih
  | null rest ih =>
      obtain ⟨es, r, hes, hlast, hflat⟩ := ih
      refine ⟨.null :: es, r, by simp [entries, binaryFlags, ← hes], ?_, hflat⟩
      exact List.forall_mem_cons.mpr ⟨rfl, hlast⟩
  | inlineNull rest ih => exact ih
  | inline sub rest ihs ihr =>
      obtain ⟨es, r, hes, hlast, -⟩ := ihs
      obtain ⟨es', r', hes', -, -⟩ := ihr
      refine ⟨es, r ++ (es' ++ .last :: r'), ?_, hlast, by simp [Flat]⟩
      rw [entries, hes, hes']
      simp [binaryFlags]
  | item key data rest ih =>
      obtain ⟨es, r, hes, hlast, hflat⟩ := ih
      refine ⟨.item key data :: es, r, by simp [entries, hes], ?_, hflat⟩
      exact List.forall_mem_cons.mpr ⟨rfl, hlast⟩

/-- The marks of inline hashes are not among the entries. -/
theorem Hash.inline_notMem_entries (h : Hash α) : .inline ∉ h.entries binaryFlags := by
  induction h with
  | stop => simp [entries, binaryFlags]
  | next h ih => exact ih
  | null rest ih => simpa [entries, binaryFlags] using ih
  | inlineNull rest ih => exact ih
  | inline sub rest ihs ihr => simpa [entries, binaryFlags] using ⟨ihs, ihr⟩
  | item key data rest ih => simpa [entries] using ih

/-! ## The decoder's second loop -/

/-- The flags of the second loop: regular items only. -/
def itemFlags : Flags := { null := false, last := false, inline := false }

/-- An item of the temporary hash when there is no destination. -/
def slotEntry (p : Key × Value) : Entry Slot := .item p.1 ⟨p.2.type.id, none⟩

/-- The items of the temporary hash: those that were read, each with the memory the
destination has for its key, and those the destination's end mark leads to. -/
def slotEntries (dst : Option (Hash Place)) (ps : List (Key × Value)) :
    List (Entry Slot) :=
  ps.map (fun p => .item p.1 ⟨p.2.type.id, (dst.bind (Hash.find p.1)).map Place.loc⟩) ++
    match dst.bind Hash.findEnd with
    | none => []
    | some h => h.items.map fun p => .item p.1 p.2.slot

theorem slotEntries_none (ps : List (Key × Value)) :
    slotEntries none ps = ps.map slotEntry := by
  simp only [slotEntries, Option.bind_none, Option.map_none, List.append_nil]
  rfl

/-- With `itemFlags` the entries are the items. -/
theorem Hash.entries_itemFlags (h : Hash α) :
    h.entries itemFlags = h.items.map fun p => .item p.1 p.2 := by
  induction h with
  | stop => rfl
  | next h ih => exact ih
  | null rest ih => exact ih
  | inlineNull rest ih => exact ih
  | inline sub rest ihs ihr =>
      simp only [entries, items, ihs, ihr, List.map_append]
      rfl
  | item key data rest ih => simp only [entries, items, ih, List.map_cons]

/-- The temporary hash has the items before the first end mark. -/
theorem entries_restore {tag : Nat → UInt64} (dst : Option (Hash Place))
    {es : List (Entry Value)} (hes : ∀ e ∈ es, e.isLast = false)
    (hinline : .inline ∉ es) (k : Nat) :
    (restore dst (readAll tag k (es ++ [.last]))).entries itemFlags
      = slotEntries dst (es.filterMap Entry.item?) := by
  induction es generalizing k with
  | nil =>
      have hkey : (.last : Entry Value).read tag k = ⟨hashPtrEnd, tag k⟩ := rfl
      rw [List.nil_append, readAll, restore, hkey,
        dif_neg (by decide : hashPtrEnd ≠ hashPtrNull), dif_pos rfl, slotEntries]
      cases dst.bind Hash.findEnd with
      | none => rfl
      | some h =>
          simp only [Hash.entries, Hash.entries_itemFlags, Hash.items_map, List.map_map]
          rfl
  | cons e es ih =>
      obtain ⟨he, hes'⟩ := List.forall_mem_cons.mp hes
      have ih := ih hes' (fun h => hinline (List.mem_cons_of_mem _ h)) (k + holderSize)
      cases e with
      | null => exact ih
      | inline => exact absurd (List.mem_cons_self ..) hinline
      | last => cases he
      | item key v =>
          have hkey : ((Entry.item key v).read tag k) = ⟨key.id, v.type.id⟩ := by
            simp [Entry.read, Entry.map, Entry.keyId, Entry.typeId]
          rw [List.cons_append, readAll, restore, hkey, dif_neg key.regular.1,
            dif_neg key.regular.2.1, dif_neg key.regular.2.2]
          simp only [Hash.entries, ih]
          rfl

/-- Every value of a run is where the decoder looks for it when its slider is at `p`. -/
def Stored (buf : List UInt8) : Nat → List Value → Prop
  | _, [] => True
  | p, v :: vs => v.StoredAt { off := p } buf ∧ Stored buf (p + v.len) vs

section

variable {fresh : Nat → Nat → UInt8} {buf : List UInt8}

/-- A string without memory of its own takes all the rest of the buffer. -/
theorem stringConvertFrom_rest (fresh : Nat → UInt8) {p : Nat} (hp : 0 < p)
    (hlt : p < buf.length) (hmax : buf.length ≤ maxObject) :
    stringConvertFrom fresh none { off := p } buf
      = (0, .string
        (some ⟨overlay (buf.drop p) (blank fresh (buf.length - 1)) ++ [0], by simp⟩),
          { off := buf.length }) := by
  have hread : ({ off := p } : Slider).read buf 0 (buf.length - 1)
      = (0, buf.drop p, { off := buf.length }) := by
    have hmin : min (buf.length - 1) (buf.length - p) = buf.length - p := by omega
    simp only [Slider.read, Slider.start, Option.getD_none, Nat.zero_add,
      defaultRead, hmin]
    rw [if_neg (by omega), if_neg (by omega), if_neg (by omega)]
    simp only [List.take_of_length_le (List.length_drop ..).le, Prod.mk.injEq,
      Slider.mk.injEq, true_and, and_true]
    omega
  simp only [stringConvertFrom, hread]
  rw [if_neg (by omega), if_neg (by omega), if_neg (by decide)]

theorem stringConvertFrom_stored (fresh : Nat → UInt8) {p : Nat} {s : Text} (hp : 0 < p)
    (hmax : buf.length ≤ maxObject) (h : (Value.string s).StoredAt { off := p } buf) :
    ∃ c : Chars, stringConvertFrom fresh none { off := p } buf
      = (0, .string (some c), { off := buf.length }) ∧ c.text = s.chars := by
  obtain ⟨hroom, hslice⟩ := h _ (List.mem_singleton_self _)
  change p + (s.chars ++ [0]).length ≤ buf.length at hroom
  change (buf.drop p).take (s.chars ++ [0]).length = s.chars ++ [0] at hslice
  rw [List.length_append, List.length_singleton] at hroom hslice
  refine ⟨_, stringConvertFrom_rest fresh hp (by omega) hmax, ?_⟩
  have hdrop : buf.drop p = s.chars ++ 0 :: (buf.drop p).drop (s.chars.length + 1) := by
    conv_lhs => rw [← List.take_append_drop (s.chars.length + 1) (buf.drop p), hslice]
    simp
  change (overlay (buf.drop p) (blank fresh (buf.length - 1)) ++ [0]).takeWhile (· ≠ 0)
    = s.chars
  rw [overlay, hdrop, List.append_assoc, List.append_assoc, List.cons_append]
  exact takeWhile_append_zero s.clean

/-- Decoding one value into memory of its own: only a string moves the slider on by
more than it wrote. -/
theorem convertFromIter_slotEntry (fresh : Nat → Nat → UInt8) (kv : Key × Value) {p : Nat}
    (mem : Nat → Data) (made : List (Key × Data)) (hp : 0 < p)
    (hmax : buf.length ≤ maxObject) (hsolid : kv.2.Solid)
    (h : kv.2.StoredAt { off := p } buf) :
    ∃ d q, convertFromIter fresh buf (slotEntry kv) ⟨{ off := p }, mem, made⟩
        = .ok ⟨{ off := q }, mem, made ++ [(kv.1, d)]⟩ ∧
      d.value = some kv.2 ∧ 0 < q ∧ (kv.2.type ≠ .string → q = p + kv.2.len) := by
  obtain ⟨key, v⟩ := kv
  cases v with
  | int t v =>
      have hfrom : intConvertFrom (fresh p) t none { off := p } buf = _ :=
        intConvertFrom_stored h
      refine ⟨.int t (some v), p + t.bytes, ?_, rfl, by omega, fun _ => rfl⟩
      simp only [convertFromIter, slotEntry, Value.type, DataType.ofId_id, DataType.null,
        Data.convertFrom, hfrom, lt_self_iff_false, if_false]
  | string s =>
      obtain ⟨c, hfrom, htext⟩ := stringConvertFrom_stored (fresh p) hp hmax h
      have hpos : 0 < buf.length := by
        have := (h _ (List.mem_singleton_self _)).1
        simp at this
        omega
      refine ⟨.string (some c), buf.length, ?_, ?_, hpos, fun hne => absurd rfl hne⟩
      · simp only [convertFromIter, slotEntry, Value.type, DataType.ofId_id,
          DataType.null, Data.convertFrom, hfrom, lt_self_iff_false, if_false]
      · simp only [Data.value, htext]
  | raw bytes =>
      have hlen : bytes.length ≤ maxObject := by
        have hroom :=
          (h (_, bytes) (List.mem_cons_of_mem _ (List.mem_singleton_self _))).1
        dsimp only at hroom
        omega
      have hread : rawReadData (blank (fresh p) bytes.length) _ buf = _ :=
        rawReadData_stored hsolid (length_blank _ _) h
      have hfrom : rawConvertFrom (fresh p) none { off := p } buf = _ :=
        rawConvertFrom_stored hlen h
      refine ⟨.raw (some (.mem bytes)), p + (8 + bytes.length), ?_, rfl, by omega,
        fun _ => rfl⟩
      simp only [convertFromIter, slotEntry, Value.type, DataType.ofId_id, DataType.null,
        Data.convertFrom, hfrom, hread, lt_self_iff_false, if_false]

end

/-! ## Values that survive -/

/-- The values come back: a string is the last one, and what follows a `raw_t`, which is
not empty, ends before its bytes begin. -/
def Laid : List Value → Prop
  | [] => True
  | .int _ _ :: vs => Laid vs
  | .string _ :: vs => vs = []
  | .raw bytes :: vs => bytes ≠ [] ∧ total vs ≤ 8 - bytes.length ∧ Laid vs

theorem Laid.head {v : Value} {vs : List Value} (h : Laid (v :: vs)) :
    v.Solid ∧ (v.type = .string → vs = []) := by
  cases v with
  | int t v => exact ⟨trivial, fun h => by cases h⟩
  | string s => exact ⟨trivial, fun _ => h⟩
  | raw bytes => exact ⟨h.1, fun h => by cases h⟩

theorem Laid.tail {v : Value} {vs : List Value} (h : Laid (v :: vs)) : Laid vs := by
  cases v with
  | int t v => exact h
  | string s =>
      have hnil : vs = [] := h
      rw [hnil]
      trivial
  | raw bytes => exact h.2.2

theorem Laid.solid {vs : List Value} (h : Laid vs) : ∀ v ∈ vs, v.Solid := by
  induction vs with
  | nil => intro v hv; cases hv
  | cons v vs ih => exact List.forall_mem_cons.mpr ⟨h.head.1, ih h.tail⟩

/-- **Decoding a run of values** that are where the decoder looks for them. -/
theorem foldlM_convertFromIter {fresh : Nat → Nat → UInt8} {buf : List UInt8}
    {ps : List (Key × Value)} {p : Nat} {mem : Nat → Data} (made : List (Key × Data))
    (hp : 0 < p) (hmax : buf.length ≤ maxObject) (hlaid : Laid (ps.map Prod.snd))
    (h : Stored buf p (ps.map Prod.snd)) :
    ∃ ctx, (ps.map slotEntry).foldlM (fun ctx e => convertFromIter fresh buf e ctx)
        ⟨{ off := p }, mem, made⟩ = .ok ctx ∧
      ctx.made.map (fun q => (q.1, q.2.value))
        = made.map (fun q => (q.1, q.2.value)) ++ ps.map fun q => (q.1, some q.2) := by
  induction ps generalizing p made with
  | nil => exact ⟨_, rfl, by simp⟩
  | cons q ps ih =>
      obtain ⟨hhere, hrest⟩ := h
      obtain ⟨hsolid, hstring⟩ := hlaid.head
      obtain ⟨d, p', hstep, hd, hp', hnext⟩ :=
        convertFromIter_slotEntry fresh q mem made hp hmax hsolid hhere
      have hrest' : Stored buf p' (ps.map Prod.snd) := by
        by_cases hs : q.2.type = .string
        · rw [hstring hs]
          trivial
        · rw [hnext hs]
          exact hrest
      obtain ⟨ctx, hrun, hmade⟩ := ih (made ++ [(q.1, d)]) hp' hlaid.tail hrest'
      refine ⟨ctx, ?_, ?_⟩
      · rw [List.map_cons, List.foldlM_cons, hstep]
        exact hrun
      · rw [hmade]
        simp [hd]

/-- Only a `raw_t` writes behind the place its slider moves to. -/
theorem extent_eq_total {vs : List Value} (h : ∀ v ∈ vs, v.type ≠ .raw) :
    extent vs = total vs := by
  induction vs with
  | nil => rfl
  | cons v vs ih =>
      obtain ⟨hv, hvs⟩ := List.forall_mem_cons.mp h
      cases v with
      | int t v =>
          simp only [extent, total_cons, Value.extent, ih hvs]
          omega
      | string s =>
          simp only [extent, total_cons, Value.extent, ih hvs]
          omega
      | raw bytes => exact absurd rfl hv

theorem type_ne_raw_of_total_lt {vs : List Value} (h : total vs < 8) :
    ∀ v ∈ vs, v.type ≠ .raw := by
  induction vs with
  | nil => intro v hv; cases hv
  | cons v vs ih =>
      rw [total_cons] at h
      refine List.forall_mem_cons.mpr ⟨?_, ih (by omega)⟩
      cases v with
      | int t v => exact fun h => by cases h
      | string s => exact fun h => by cases h
      | raw bytes =>
          simp only [Value.len] at h
          omega

theorem valuesOf_item (key : Key) (v : Value) (es : List (Entry Value)) :
    valuesOf (.item key v :: es) = v :: valuesOf es := rfl

section

variable {addr tag : Nat → UInt64}

/-- What follows a value keeps off everything it wrote if the values are laid out well. -/
theorem Laid.avoids {v : Value} {es : List (Entry Value)} {k p : Nat}
    (hlaid : Laid (v :: valuesOf es)) (hkp : k + holderSize * es.length ≤ p)
    {w : Nat × List UInt8} (hw : w ∈ v.writes { off := p }) :
    Avoids w.1 (w.1 + w.2.length) (entryWrites addr tag k (p + v.len) es) := by
  intro u hu
  have hu := mem_entryWrites hu
  cases v with
  | int t v =>
      obtain rfl := List.mem_singleton.mp hw
      simp only [Value.len, length_leBytes, Slider.start, Option.getD_none] at hu ⊢
      omega
  | string s =>
      obtain rfl := List.mem_singleton.mp hw
      simp only [Value.len, List.length_append, List.length_singleton, Slider.start,
        Option.getD_none] at hu ⊢
      omega
  | raw bytes =>
      obtain ⟨hne, htotal, -⟩ := hlaid
      have hpos : 0 < bytes.length := List.length_pos_iff.mpr hne
      rw [extent_eq_total (type_ne_raw_of_total_lt (by omega))] at hu
      simp only [Value.writes, Slider.gap, if_true, List.mem_cons, List.not_mem_nil,
        or_false] at hw
      rcases hw with rfl | rfl
      · simp only [Value.len, length_leBytes, Slider.start, Option.getD_none] at hu ⊢
        omega
      · simp only [Value.len, Slider.start, Option.getD_none] at hu ⊢
        omega

/-- **The second stream.**  Values that are laid out well are where the decoder looks. -/
theorem stored_entryWrites {es : List (Entry Value)} {k p : Nat} {buf : List UInt8}
    (hkp : k + holderSize * es.length ≤ p)
    (hroom : Within buf.length (entryWrites addr tag k p es))
    (hlaid : Laid (valuesOf es)) :
    Stored (patchAll buf (entryWrites addr tag k p es)) p (valuesOf es) := by
  induction es generalizing k p buf with
  | nil => trivial
  | cons e es ih =>
      rw [List.length_cons, Nat.mul_succ] at hkp
      obtain ⟨hk, hroom'⟩ := List.forall_mem_cons.mp hroom
      obtain ⟨hewrites, hrest⟩ := List.forall_mem_append.mp hroom'
      have hlen := length_patch hk
      have hlen' := length_patchAll (hlen.symm ▸ hewrites :
        Within (patch buf (k, (e.map Value.data).holder addr tag k)).length (e.writes p))
      rw [hlen] at hlen'
      have ih := ih (k := k + holderSize) (p := p + e.len) (by omega) (hlen'.symm ▸ hrest)
      rw [entryWrites, patchAll_cons, patchAll_append]
      cases e with
      | null => exact ih hlaid
      | inline => exact ih hlaid
      | last => exact ih hlaid
      | item key v =>
          rw [valuesOf_item] at hlaid ⊢
          refine ⟨fun w hw => ?_, ih hlaid.tail⟩
          have hhere := Value.storedAt_patchAll (hlen.symm ▸ hewrites :
            Within (patch buf (k,
              ((Entry.item key v).map Value.data).holder addr tag k)).length
              (v.writes { off := p }))
          exact (hhere w hw).patchAll (hlen'.symm ▸ hrest) (hlaid.avoids (by omega) hw)

end

/-! ## The decoder on the encoder's buffer -/

/-- The entries before the first end mark. -/
def Hash.front (h : Hash α) : List (Entry α) :=
  (h.entries binaryFlags).takeWhile fun e => !e.isLast

theorem Hash.exists_entries_eq (h : Hash α) :
    ∃ rest, h.entries binaryFlags = h.front ++ .last :: rest ∧ (rest = [] ↔ h.Flat) := by
  obtain ⟨es, rest, hes, hlast, hflat⟩ := h.entries_split
  refine ⟨rest, ?_, hflat⟩
  have hfront : h.front = es := by
    rw [front, hes, List.takeWhile_append_of_pos (by simpa using hlast),
      List.takeWhile_cons_of_neg (by simp [Entry.isLast]), List.append_nil]
  rw [hfront, hes]

theorem Hash.isLast_of_mem_front {h : Hash α} {e : Entry α} (he : e ∈ h.front) :
    e.isLast = false := by
  simpa using List.mem_takeWhile_imp he

theorem Hash.inline_notMem_front (h : Hash α) : .inline ∉ h.front := fun hmem =>
  h.inline_notMem_entries ((List.takeWhile_sublist _).subset hmem)

/-- The items of the front are the first ones of the hash. -/
theorem Hash.items_eq_front (h : Hash α) {rest : List (Entry α)}
    (hes : h.entries binaryFlags = h.front ++ .last :: rest) :
    h.items = h.front.filterMap Entry.item? ++ rest.filterMap Entry.item? := by
  rw [← filterMap_entries binaryFlags, hes, List.filterMap_append]
  rfl

section

variable {addr tag : Nat → UInt64} {h : Hash Value} {buf : List UInt8}

/-- **The decoder on the encoder's buffer.**  It decodes the items of the front, from
behind its own end mark on, unless the array fills up first. -/
theorem hashConvertFrom_encoded (fresh : Nat → Nat → UInt8) (dst : Option (Hash Place))
    (mem : Nat → Data) (hroom : h.room ≤ buf.length) :
    hashConvertFrom fresh dst mem (h.encoded addr tag buf) =
      if h.front.length ≤ 5 then
        (slotEntries dst (h.front.filterMap Entry.item?)).foldlM
          (fun ctx e => convertFromIter fresh (h.encoded addr tag buf) e ctx)
          ⟨{ off := holderSize * (h.front.length + 1) }, mem, []⟩
      else .error .undefined := by
  obtain ⟨rest, hes, -⟩ := h.exists_entries_eq
  have hholders : HoldersAt addr tag (h.encoded addr tag buf) 0 (h.entries binaryFlags) :=
    Hash.holdersAt_encoded hroom
  rw [hes] at hholders
  have hlast : ∀ e ∈ h.front, e.isLast = false := fun e he => Hash.isLast_of_mem_front he
  rw [hashConvertFrom, show hashInitialSize - 1 = 7 from rfl]
  by_cases hlen : h.front.length ≤ 5
  · rw [readHolders_ok hholders hlast (by omega), if_pos hlen]
    change Hash.iter itemFlags _ _ _ = _
    rw [Hash.iter_eq_foldlM, entries_restore dst hlast h.inline_notMem_front,
      Nat.zero_add]
  · rw [readHolders_undefined hholders hlast (by omega), if_neg hlen]
    rfl

/-- A flat hash has all its items in the front. -/
theorem Hash.items_eq_front_of_flat {g : Hash α} (hflat : g.Flat) :
    g.items = g.front.filterMap Entry.item? ∧
      g.front.length + 1 = (g.entries binaryFlags).length := by
  obtain ⟨rest, hes, hrest⟩ := g.exists_entries_eq
  obtain rfl := hrest.mpr hflat
  have hitems := g.items_eq_front hes
  rw [List.filterMap_nil, List.append_nil] at hitems
  exact ⟨hitems, by simp [hes]⟩

/-- In the buffer of a hash whose values are laid out well they are where the decoder
looks. -/
theorem Hash.stored_encoded (hroom : h.room ≤ buf.length)
    (hlaid : Laid (h.items.map Prod.snd)) :
    Stored (h.encoded addr tag buf) (holderSize * (h.entries binaryFlags).length)
      (h.items.map Prod.snd) := by
  rw [← valuesOf_entries] at hlaid ⊢
  exact stored_entryWrites (by omega) (within_of_room hroom) hlaid

end

/-- The round trip of a hash: encoded into a buffer that is large enough and decoded
with no destination, it has the items it had. -/
def Hash.RoundTrips (h : Hash Value) : Prop :=
  ∀ (addr tag : Nat → UInt64) (fresh : Nat → Nat → UInt8) (mem : Nat → Data)
    (buf : List UInt8), h.room ≤ buf.length → buf.length ≤ maxObject →
      ((h.map Value.data).convertTo addr tag buf).1 = 0 ∧
      ∃ ctx, hashConvertFrom fresh none mem
        ((h.map Value.data).convertTo addr tag buf).2 = .ok ctx ∧
        ctx.made.map (fun p => (p.1, p.2.value)) = h.items.map fun p => (p.1, some p.2)

/-- At most five entries before the first end mark, no inline hash if there is any item
at all, and values that are laid out well. -/
def Hash.Survives (h : Hash Value) : Prop :=
  h.front.length ≤ 5 ∧ (h.Flat ∨ h.items = []) ∧ Laid (h.items.map Prod.snd)

theorem Hash.Survives.roundTrips {h : Hash Value} (hs : h.Survives) : h.RoundTrips := by
  intro addr tag fresh mem buf hroom hmax
  obtain ⟨hfront, hflat, hlaid⟩ := hs
  have hsolid : ∀ p ∈ h.items, p.2.Solid := fun p hp =>
    hlaid.solid p.2 (List.mem_map_of_mem hp)
  rw [Hash.convertTo_map_data hsolid hroom]
  refine ⟨rfl, ?_⟩
  rw [hashConvertFrom_encoded fresh none mem hroom, if_pos hfront, slotEntries_none]
  rcases hflat with hflat | hnil
  · obtain ⟨hitems, hlen⟩ := Hash.items_eq_front_of_flat hflat
    have hpos : 0 < holderSize * (h.entries binaryFlags).length := by
      rw [← hlen]
      exact Nat.mul_pos (by decide) (by omega)
    rw [← hitems, hlen]
    obtain ⟨ctx, hrun, hmade⟩ := foldlM_convertFromIter [] hpos
      ((Hash.length_encoded hroom).le.trans hmax) hlaid (Hash.stored_encoded hroom hlaid)
    exact ⟨ctx, hrun, by simpa using hmade⟩
  · obtain ⟨rest, hes, -⟩ := h.exists_entries_eq
    have hempty : h.front.filterMap Entry.item? = [] :=
      (List.append_eq_nil_iff.mp ((h.items_eq_front hes).symm.trans hnil)).1
    rw [hempty, hnil]
    exact ⟨_, rfl, rfl⟩

end Frozen.Binary
