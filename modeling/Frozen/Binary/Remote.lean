/-
# `Frozen.Binary.Remote` — a request that is handled elsewhere

`request/implode` puts a request into the buffer of another one; `request/explode` makes
a request of a buffer, passes it on and writes what has become of it over the buffer.
In between the hash travels in its binary form, there with the values of the caller and
back with those of the handler.

Integers are written over every byte of the room that a hash takes (`encoded_eq`), so
what is sent does not depend on where it is written to, and from what is sent the
request is made again (`explodeHash_encoded`).  A handler changes the values of the
items where they are; the caller decodes them in place (`explode_answers`).
-/
import Frozen.Binary.Restore

namespace Frozen.Binary

open Lib

/-! ## `explode_request` -/

/-- The hash that a decoder without a destination has made: the holders, and
what was decoded. -/
def decoded : List Holder → List (Key × Data) → Hash Data
  | [], _ => .stop
  | hd :: hds, made =>
      if hd.key = hashPtrNull then .null (decoded hds made)
      else if hd.key = hashPtrEnd then .stop
      else if hd.key = hashPtrInline then .inlineNull (decoded hds made)
      else
        match made with
        | [] => decoded hds []
        | (key, data) :: made => .item key data (decoded hds made)

def explodeHash (fresh : Nat → Nat → UInt8) (buf : List UInt8) :
    Except Fault (Hash Data) := do
  let (hds, _) ← readHolders buf (hashInitialSize - 1) { off := 0 }
  let ctx ← hashConvertFrom fresh none (fun _ => .raw none) buf
  .ok (decoded hds ctx.made)

/-- `explode_request`: its answer and the buffer.  `handler` is `backend_pass`, with
what it makes of the request. -/
def explodeRequest (addr tag : Nat → UInt64) (fresh : Nat → Nat → UInt8)
    (handler : Hash Data → Int × Hash Data) (returnResult : Bool)
    (buffer : Option (List UInt8)) : Except Fault (Int × Option (List UInt8)) :=
  match buffer with
  | none => .ok (-EINVAL, none)
  | some buf =>
      match explodeHash fresh buf with
      | .error .undefined => .error .undefined
      | .error (.code _) => .ok (-EFAULT, some buf)
      | .ok request =>
          let (ret, request) := handler request
          let ret := if ret < 0 then ret else -EEXIST
          if returnResult then
            -- the answer of the conversion takes the place of the handler's
            let (ret, buf) := request.convertTo addr tag buf
            if ret < 0 then .ok (-EFAULT, some buf) else .ok (ret, some buf)
          else .ok (ret, some buf)

/-! ## The image of a hash -/

def Value.IsInt (v : Value) : Prop := ∃ t x, v = .int t x

theorem Value.IsInt.type_ne {v : Value} (h : v.IsInt) : v.type ≠ .raw := by
  obtain ⟨t, x, rfl⟩ := h
  exact fun h => nomatch h

section

variable {addr tag : Nat → UInt64}

/-- With integers no byte of the two streams is left out. -/
theorem touched_entryWrites {es : List (Entry Value)}
    (hints : ∀ v ∈ valuesOf es, v.IsInt) {k p q : Nat}
    (hq : (k ≤ q ∧ q < k + holderSize * es.length) ∨
      (p ≤ q ∧ q < p + total (valuesOf es))) :
    ∃ w ∈ entryWrites addr tag k p es, w.1 ≤ q ∧ q < w.1 + w.2.length := by
  induction es generalizing k p with
  | nil => simp [valuesOf, total] at hq; omega
  | cons e es ih =>
      rw [List.length_cons, Nat.mul_succ, total_valuesOf_cons] at hq
      have hrest : ∀ v ∈ valuesOf es, v.IsInt := by
        intro v hv
        refine hints v ?_
        cases e with
        | item key u => exact List.mem_cons_of_mem _ hv
        | _ => exact hv
      by_cases hhere : k ≤ q ∧ q < k + holderSize
      · exact ⟨_, List.mem_cons_self .., hhere.1, by simpa using hhere.2⟩
      by_cases hdata : p ≤ q ∧ q < p + e.len
      · cases e with
        | item key v =>
            obtain ⟨t, x, rfl⟩ := hints v (List.mem_cons_self ..)
            refine ⟨(p, leBytes t.bytes x.toNat), ?_,
              hdata.1, by simpa [Entry.len, Value.len] using hdata.2⟩
            exact List.mem_cons_of_mem _
              (List.mem_append_left _ (List.mem_singleton_self _))
        | null => simp [Entry.len] at hdata; omega
        | inline => simp [Entry.len] at hdata; omega
        | last => simp [Entry.len] at hdata; omega
      obtain ⟨w, hw, hwq⟩ := ih hrest (k := k + holderSize) (p := p + e.len) (by omega)
      exact ⟨w, List.mem_cons_of_mem _ (List.mem_append_right _ hw), hwq⟩

/-- What a hash is in binary form. -/
def Hash.image (addr tag : Nat → UInt64) (h : Hash Value) : List UInt8 :=
  h.encoded addr tag (List.replicate h.room 0)

section

variable {h : Hash Value} (hints : ∀ p ∈ h.items, p.2.IsInt)

theorem Hash.length_image : (h.image addr tag).length = h.room := by
  rw [image, length_encoded (by simp), List.length_replicate]

include hints

theorem Hash.room_eq_of_ints : h.room = holderSize * (h.entries binaryFlags).length +
    total (h.items.map Prod.snd) := by
  have htype : ∀ v ∈ h.items.map Prod.snd, v.type ≠ .raw := by
    intro v hv
    obtain ⟨p, hp, rfl⟩ := List.mem_map.mp hv
    exact (hints p hp).type_ne
  rw [room, extent_eq_total htype]

/-- What was in the room before does not matter. -/
theorem Hash.encoded_congr {bs cs : List UInt8} (hlen : bs.length = cs.length)
    (hroom : h.room ≤ bs.length) (hdrop : bs.drop h.room = cs.drop h.room) :
    h.encoded addr tag bs = h.encoded addr tag cs := by
  refine patchAll_congr hlen (within_of_room hroom) fun i => ?_
  by_cases hi : i < h.room
  · left
    refine touched_entryWrites ?_ ?_
    · rw [valuesOf_entries]
      intro v hv
      obtain ⟨p, hp, rfl⟩ := List.mem_map.mp hv
      exact hints p hp
    · rw [Hash.room_eq_of_ints hints] at hi
      rw [valuesOf_entries]
      omega
  · right
    have hat := congrArg (fun l => l[i - h.room]?) hdrop
    simpa [Nat.add_sub_cancel' (not_lt.mp hi)] using hat

theorem Hash.encoded_eq {buf : List UInt8} (hroom : h.room ≤ buf.length) :
    h.encoded addr tag buf = h.image addr tag ++ buf.drop h.room := by
  have hlen : (List.replicate h.room (0 : UInt8) ++ buf.drop h.room).length
      = buf.length := by
    simp [hroom]
  calc h.encoded addr tag buf = h.encoded addr tag
         (List.replicate h.room 0 ++ buf.drop h.room) :=
        Hash.encoded_congr hints hlen.symm hroom (by simp)
    _ = h.image addr tag ++ buf.drop h.room :=
      patchAll_append_right _ (within_of_room (by simp))

/-- A buffer that starts with the image is one that the hash has been encoded into. -/
theorem Hash.encoded_of_take {buf : List UInt8}
    (htake : buf.take h.room = h.image addr tag) : h.encoded addr tag buf = buf := by
  have hroom : h.room ≤ buf.length := by
    have hlen := congrArg List.length htake
    rw [Hash.length_image, List.length_take] at hlen
    omega
  rw [Hash.encoded_eq hints hroom, ← htake, List.take_append_drop]

end

end

/-! ## The request that arrives -/

/-- The entries in one array. -/
def Hash.ofEntries : List (Entry α) → Hash α
  | [] => .stop
  | .null :: es => .null (ofEntries es)
  | .inline :: es => .inlineNull (ofEntries es)
  | .last :: _ => .stop
  | .item key data :: es => .item key data (ofEntries es)

theorem Hash.entries_ofEntries {es : List (Entry α)} (hlast : ∀ e ∈ es, e.isLast = false)
    (hinline : .inline ∉ es) :
    (ofEntries (es ++ [.last])).entries binaryFlags = es ++ [.last] := by
  induction es with
  | nil => rfl
  | cons e es ih =>
      obtain ⟨he, hlast⟩ := List.forall_mem_cons.mp hlast
      rw [List.mem_cons, not_or] at hinline
      have ih := ih hlast hinline.2
      cases e with
      | null => simp [ofEntries, entries, binaryFlags] at ih ⊢; exact ih
      | inline => exact absurd rfl hinline.1
      | last => cases he
      | item key data => simp [ofEntries, entries, ih]

/-- What a handler gets of a hash. -/
def Hash.received (h : Hash Value) : Hash Data :=
  .ofEntries ((h.map Value.data).entries binaryFlags)

theorem Hash.entries_eq_front {h : Hash α} (hflat : h.Flat) :
    h.entries binaryFlags = h.front ++ [.last] := by
  obtain ⟨rest, hes, hrest⟩ := h.exists_entries_eq
  rw [hes, hrest.mpr hflat]

theorem Hash.entries_received {h : Hash Value} (hflat : h.Flat) :
    h.received.entries binaryFlags = (h.entries binaryFlags).map
      (Entry.map Value.data) := by
  have hentries := Hash.entries_eq_front ((flat_map Value.data h).mpr hflat)
  rw [received, hentries, Hash.entries_ofEntries (fun e he => isLast_of_mem_front he)
    (inline_notMem_front _), ← hentries, entries_map]

/-- The holders and what was decoded, together again. -/
theorem decoded_readAll {tag : Nat → UInt64} {es : List (Entry Value)}
    (hlast : ∀ e ∈ es, e.isLast = false) (hinline : .inline ∉ es) (k : Nat) :
    decoded (readAll tag k (es ++ [Entry.last]))
      ((es.filterMap Entry.item?).map fun p => (p.1, p.2.data))
      = .ofEntries ((es ++ [Entry.last]).map (Entry.map Value.data)) := by
  induction es generalizing k with
  | nil => rfl
  | cons e es ih =>
      obtain ⟨he, hlast⟩ := List.forall_mem_cons.mp hlast
      rw [List.mem_cons, not_or] at hinline
      have ih := ih hlast hinline.2 (k + holderSize)
      rw [List.cons_append, readAll, decoded.eq_def]
      cases e with
      | null => exact congrArg Hash.null ih
      | inline => exact absurd rfl hinline.1
      | last => cases he
      | item key v =>
          have hkey : ((Entry.item key v).read tag k).key = key.id := rfl
          obtain ⟨hn, he, hi⟩ := key.regular
          dsimp only
          rw [hkey, if_neg hn, if_neg he, if_neg hi]
          exact congrArg (Hash.item key v.data) ih

theorem Value.IsInt.data_eq {v : Value} (hint : v.IsInt) {d : Data}
    (h : d.value = some v) : d = v.data := by
  obtain ⟨t, x, rfl⟩ := hint
  cases d with
  | int t' ptr =>
      cases ptr with
      | none => cases h
      | some y =>
          cases h
          rfl
  | string ptr => cases ptr <;> cases h
  | raw ptr =>
      cases ptr with
      | none => cases h
      | some r => cases r <;> cases h

theorem made_eq {made : List (Key × Data)} {ps : List (Key × Value)}
    (hints : ∀ p ∈ ps, p.2.IsInt)
    (h : made.map (fun q => (q.1, q.2.value)) = ps.map fun q => (q.1, some q.2)) :
    made = ps.map fun p => (p.1, p.2.data) := by
  induction ps generalizing made with
  | nil => simpa using h
  | cons p ps ih =>
      obtain ⟨hint, hints⟩ := List.forall_mem_cons.mp hints
      cases made with
      | nil => cases h
      | cons q made =>
          obtain ⟨hq, hrest⟩ := List.cons.inj h
          have hkey : q.1 = p.1 := congrArg Prod.fst hq
          have hdata : q.2 = p.2.data := hint.data_eq (congrArg Prod.snd hq)
          rw [List.map_cons, ← ih hints hrest, ← hkey, ← hdata]

section

variable {addr tag : Nat → UInt64} {h : Hash Value} {buf : List UInt8}

/-- **The way there.**  What is decoded of the image of a hash is that
hash, in one array. -/
theorem explodeHash_encoded (fresh : Nat → Nat → UInt8) (hflat : h.Flat)
    (hshort : h.front.length ≤ 5) (hints : ∀ p ∈ h.items, p.2.IsInt)
    (hlaid : Laid (h.items.map Prod.snd))
    (hroom : h.room ≤ buf.length) (hmax : buf.length ≤ maxObject) :
    explodeHash fresh (h.encoded addr tag buf) = .ok h.received := by
  have hentries := Hash.entries_eq_front hflat
  obtain ⟨hitems, hlen⟩ := Hash.items_eq_front_of_flat hflat
  have hlast : ∀ e ∈ h.front, e.isLast = false := fun e he => Hash.isLast_of_mem_front he
  have hholders : HoldersAt addr tag (h.encoded addr tag buf) 0 (h.entries binaryFlags) :=
    Hash.holdersAt_encoded hroom
  rw [hentries] at hholders
  have hpos : 0 < holderSize * (h.entries binaryFlags).length := by
    rw [← hlen]
    exact Nat.mul_pos (by decide) (by omega)
  obtain ⟨ctx, hrun, hmade⟩ := @foldlM_convertFromIter fresh _ _ _
    (fun _ => .raw none) [] hpos
    ((Hash.length_encoded hroom).le.trans hmax) hlaid (Hash.stored_encoded hroom hlaid)
  have hctx : hashConvertFrom fresh none (fun _ => .raw none) (h.encoded addr tag buf)
      = .ok ctx := by
    rw [hashConvertFrom_encoded fresh none _ hroom, if_pos hshort, slotEntries_none,
      ← hitems, hlen]
    exact hrun
  have hread : readHolders (h.encoded addr tag buf) (hashInitialSize - 1) { off := 0 }
      = .ok (readAll tag 0 (h.front ++ [.last]),
        { off := 0 + holderSize * (h.front.length + 1) }) :=
    readHolders_ok hholders hlast (by simp [hashInitialSize]; omega)
  have hmade' : ctx.made = h.items.map fun p => (p.1, p.2.data) :=
    made_eq hints (by simpa using hmade)
  simp only [explodeHash, hread, hctx]
  change Except.ok (decoded _ ctx.made) = _
  rw [hmade', hitems, decoded_readAll hlast h.inline_notMem_front, ← hentries,
    ← Hash.entries_map]
  rfl

end

/-! ## What a handler may do -/

/-- The type of an integer. -/
def Data.intType : Data → Option IntType
  | .int t (some _) => some t
  | _ => none

/-- The same items, and the same types of integers. -/
def Hash.InPlace (g g' : Hash Data) : Prop := g'.map Data.intType = g.map Data.intType

/-- The binary form of a hash is that of its entries. -/
theorem Hash.convertTo_congr {g g' : Hash Data}
    (h : g.entries binaryFlags = g'.entries binaryFlags) (addr tag : Nat → UInt64)
    (buf : List UInt8) : g.convertTo addr tag buf = g'.convertTo addr tag buf := by
  simp only [Hash.convertTo, Hash.iter_eq_foldlM, h]

/-- Entries with the types of integers that some places have are those places
with other values. -/
theorem exists_values {vals : Nat → Value} {es : List (Entry Place)}
    {es' : List (Entry Data)} (hints : ∀ p ∈ es.filterMap Entry.item?, ∃ t v,
      p.2.type = .int t ∧ vals p.2.loc = .int t v)
    (hplaces : ((es.filterMap Entry.item?).map fun p => p.2.loc).Nodup)
    (h : es'.map (Entry.map Data.intType)
      = es.map (Entry.map fun p => (vals p.loc).data.intType)) :
    ∃ after : Nat → Value, es' = es.map (Entry.map fun p => (after p.loc).data) ∧
      ∀ p ∈ es.filterMap Entry.item?, ∃ t v, p.2.type = .int t ∧
      after p.2.loc = .int t v := by
  induction es generalizing es' with
  | nil => exact ⟨vals, by simpa using h, fun p hp => absurd hp List.not_mem_nil⟩
  | cons e es ih =>
      cases es' with
      | nil => cases h
      | cons e' es' =>
          obtain ⟨hhead, htail⟩ := List.cons.inj h
          cases e with
          | item key p =>
              obtain ⟨⟨t, v, htype, hval⟩, hints⟩ := List.forall_mem_cons.mp hints
              obtain ⟨hp, hplaces⟩ := List.nodup_cons.mp hplaces
              obtain ⟨after, rfl, hafter⟩ := ih hints hplaces htail
              have hint : (vals p.loc).data.intType = some t :=
                congrArg (fun v => v.data.intType) hval
              replace hhead : e'.map Data.intType = .item key (some t) := hint ▸ hhead
              cases e' with
              | item key' d =>
                  obtain ⟨rfl, hd⟩ := Entry.item.inj hhead
                  obtain ⟨x, rfl⟩ : ∃ x, d = .int t (some x) := by
                    cases d with
                    | int t' ptr =>
                        cases ptr with
                        | none => cases hd
                        | some x =>
                            obtain rfl := Option.some.inj hd
                            exact ⟨x, rfl⟩
                    | string ptr => cases hd
                    | raw ptr => cases hd
                  have hother : ∀ q ∈ es.filterMap Entry.item?, q.2.loc ≠ p.loc := by
                    rintro q hq heq
                    exact hp (List.mem_map.mpr ⟨q, hq, heq⟩)
                  refine ⟨Function.update after p.loc (.int t x), ?_, ?_⟩
                  · rw [List.map_cons]
                    refine congrArg₂ List.cons ?_ (List.map_congr_left fun e he => ?_)
                    · simp [Entry.map, Value.data]
                    · cases e with
                      | item key q =>
                          have hq := hother (key, q) (List.mem_filterMap.mpr ⟨_, he, rfl⟩)
                          simp [Entry.map, Function.update_of_ne hq]
                      | _ => rfl
                  · refine List.forall_mem_cons.mpr
                      ⟨⟨t, x, htype, Function.update_self ..⟩, fun q hq => ?_⟩
                    rw [Function.update_of_ne (hother q hq)]
                    exact hafter q hq
              | _ => cases hhead
          | _ =>
              obtain ⟨after, rfl, hafter⟩ := ih hints hplaces htail
              cases e' <;> cases hhead
              exact ⟨after, rfl, hafter⟩

/-! ## There and back -/

/-- A request of integers that `request/explode` can make again, and
its caller restore. -/
structure Callable (request : Hash Place) (vals : Nat → Value) : Prop where
  flat : request.Flat
  short : request.front.length ≤ 5
  single : ∀ t, request.findEnd = some t → t.items = []
  keys : (request.items.map Prod.fst).Nodup
  places : (request.items.map fun p => p.2.loc).Nodup
  ints : HoldsInts request vals

namespace Callable

variable {request : Hash Place} {vals : Nat → Value} (hcall : Callable request vals)
include hcall

theorem withValues_ints : ∀ p ∈ (request.withValues vals).items, p.2.IsInt := by
  intro p hp
  rw [Hash.items_withValues] at hp
  obtain ⟨q, hq, rfl⟩ := List.mem_map.mp hp
  obtain ⟨t, v, -, hval⟩ := hcall.ints q hq
  exact ⟨t, v, hval⟩

/-- What a handler makes of the request in place is the request with other values. -/
theorem exists_after {g : Hash Data}
    (hplace : (request.withValues vals).received.InPlace g) :
    ∃ after : Nat → Value, HoldsInts request after ∧
      g.entries binaryFlags = ((request.withValues after).map Value.data).entries
        binaryFlags := by
  have hflat : (request.withValues vals).Flat := (Hash.flat_map _ request).mpr hcall.flat
  have hentries := congrArg (Hash.entries binaryFlags) hplace
  rw [Hash.entries_map, Hash.entries_map, Hash.entries_received hflat,
    Hash.withValues, Hash.entries_map, List.map_map, List.map_map] at hentries
  have hmap : (Entry.map Data.intType ∘ Entry.map Value.data ∘
      Entry.map fun p : Place => vals p.loc)
      = Entry.map fun p => (vals p.loc).data.intType := by
    funext e
    cases e <;> rfl
  rw [Function.comp_assoc, hmap] at hentries
  have hfilter := Hash.filterMap_entries binaryFlags request
  obtain ⟨after, hes, hafter⟩ :=
    exists_values (hfilter ▸ hcall.ints) (hfilter ▸ hcall.places) hentries
  refine ⟨after, fun p hp => hafter p (hfilter.symm ▸ hp), ?_⟩
  rw [hes, Hash.entries_map, Hash.withValues, Hash.entries_map, List.map_map]
  refine List.map_congr_left fun e he => ?_
  cases e <;> rfl

end Callable

/-- **There and back.**  In a block that starts with the image of a request
`request/explode` answers 0, whatever the handler has answered, and leaves the request
as the handler has left it: decoded in place, every key of the caller's request has the
value of the handler's. -/
theorem explode_answers {request : Hash Place} {vals : Nat → Value}
    (hcall : Callable request vals) {addr tag : Nat → UInt64} {block : List UInt8}
    (hmax : block.length ≤ maxObject) (htake : block.take
      (request.withValues vals).room = (request.withValues vals).image addr tag)
    (addr' tag' : Nat → UInt64) (fresh : Nat → Nat → UInt8)
    (handler : Hash Data → Int × Hash Data)
    (hplace : (request.withValues vals).received.InPlace
      (handler (request.withValues vals).received).2) :
    ∃ block', explodeRequest addr' tag' fresh handler true (some block)
      = .ok (0, some block') ∧
      ∀ fresh', ∃ ctx, hashConvertFrom fresh' (some request) (fun l => (vals l).data)
        block' = .ok ctx ∧ ∀ key p, request.find key = some p →
          (ctx.mem p.loc).value = ((handler (request.withValues vals).received).2.find
            key).bind Data.value := by
  have hints := hcall.withValues_ints
  have hflat : (request.withValues vals).Flat := (Hash.flat_map _ request).mpr hcall.flat
  have hshort : (request.withValues vals).front.length ≤ 5 := by
    rw [Hash.withValues, Hash.length_front_map]
    exact hcall.short
  have hblock := Hash.encoded_of_take hints htake
  have hroom : (request.withValues vals).room ≤ block.length := by
    have hlen := congrArg List.length htake
    rw [Hash.length_image, List.length_take] at hlen
    omega
  have hexplode : explodeHash fresh ((request.withValues vals).encoded addr tag block)
      = .ok (request.withValues vals).received :=
    explodeHash_encoded fresh hflat hshort hints hcall.ints.laid hroom hmax
  rw [hblock] at hexplode
  generalize hg : handler (request.withValues vals).received = g at hplace ⊢
  obtain ⟨ret, g⟩ := g
  obtain ⟨after, hafter, hentries⟩ := hcall.exists_after hplace
  have hroom' : (request.withValues after).room ≤ block.length :=
    (hcall.ints.alike hafter).room_eq ▸ hroom
  have hconvert : ((request.withValues after).map Value.data).convertTo addr' tag' block
      = (0, (request.withValues after).encoded addr' tag' block) :=
    Hash.convertTo_map_data hafter.solid hroom'
  refine ⟨(request.withValues after).encoded addr' tag' block, ?_, fun fresh' => ?_⟩
  · simp only [explodeRequest, hexplode, hg]
    rw [if_pos trivial, Hash.convertTo_congr hentries, hconvert]
    rfl
  · have hrestores :=
      (Hash.restorable_of_nodup hcall.short hcall.single hcall.keys).restores
        hcall.flat
    obtain ⟨ctx, hctx, hvalues⟩ :=
      hrestores after vals hafter hcall.ints addr' tag' fresh' block _ hroom'
        hmax hconvert
    refine ⟨ctx, hctx, fun key p hfind => ?_⟩
    have hitems : g.items = request.items.map fun p => (p.1, (after p.2.loc).data) := by
      rw [← Hash.filterMap_entries binaryFlags, hentries, Hash.filterMap_entries,
        Hash.items_map, Hash.items_withValues, List.map_map]
      rfl
    rw [hvalues key p hfind, Hash.find_eq_find?, hitems, List.find?_map]
    rw [Hash.find_eq_find?] at hfind
    obtain ⟨q, hq, rfl⟩ := Option.map_eq_some_iff.mp hfind
    have hcomp : (fun p : Key × Data => decide (p.1 = key)) ∘
        (fun p : Key × Place => (p.1, (after p.2.loc).data))
        = fun p => decide (p.1 = key) := rfl
    rw [hcomp, hq]
    exact (Value.value_data _).symm

end Frozen.Binary
