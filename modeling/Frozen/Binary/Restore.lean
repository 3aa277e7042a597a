/-
# `Frozen.Binary.Restore` — decoding a hash in place

With a destination `data_hash_t_convert_from` builds a temporary hash whose items point
into the destination: each holder gets the pointer `hash_find` finds for its key.  Two
things follow.  An item is decoded into the FIRST item with its key, and the end mark
gets the pointer of the destination's first end mark, so the items of a linked array are
decoded a second time, from behind the values.

`sources` follows a value through the first loop: after it, memory at `l` holds the value
that was encoded from `sources l`.  The destination is restored exactly if that is `l`
itself wherever a key leads.
-/
import Frozen.Binary.Exact

namespace Frozen.Binary

open Lib

/-! ## Lookup -/

namespace Hash

variable {α : Type}

theorem find_eq_find? (key : Key) (h : Hash α) :
    h.find key = (h.items.find? fun p => p.1 = key).map Prod.snd := by
  induction h with
  | stop => rfl
  | next h ih => exact ih
  | null rest ih => exact ih
  | inlineNull rest ih => exact ih
  | inline sub rest ihs ihr =>
      rw [find, items, List.find?_append, ihs, ihr]
      cases List.find? (fun p => decide (p.1 = key)) sub.items <;> rfl
  | item k data rest ih =>
      rw [find, items, List.find?_cons]
      by_cases hk : k = key
      · simp [hk]
      · simp [hk, ih]

theorem exists_find {h : Hash α} {key : Key} {a : α} (hmem : (key, a) ∈ h.items) :
    ∃ b, h.find key = some b ∧ (key, b) ∈ h.items := by
  have hsome : (h.items.find? fun p => p.1 = key).isSome :=
    List.find?_isSome.mpr ⟨(key, a), hmem, by simp⟩
  obtain ⟨⟨k, b⟩, hkb⟩ := Option.isSome_iff_exists.mp hsome
  have hk : k = key := by simpa using List.find?_some hkb
  subst hk
  exact ⟨b, by rw [find_eq_find?, hkb]; rfl, List.mem_of_find?_eq_some hkb⟩

theorem map_congr {β : Type} {f g : α → β} {h : Hash α}
    (hfg : ∀ p ∈ h.items, f p.2 = g p.2) : h.map f = h.map g := by
  induction h with
  | stop => rfl
  | next h ih => simp only [map, ih hfg]
  | null rest ih => simp only [map, ih hfg]
  | inlineNull rest ih => simp only [map, ih hfg]
  | inline sub rest ihs ihr =>
      obtain ⟨hsub, hrest⟩ := List.forall_mem_append.mp hfg
      simp only [map, ihs hsub, ihr hrest]
  | item key data rest ih =>
      obtain ⟨hdata, hrest⟩ := List.forall_mem_cons.mp hfg
      simp only [map, hdata, ih hrest]

theorem items_findEnd_subset {h t : Hash α} (hflat : h.Flat) (ht : h.findEnd = some t) :
    ∀ p ∈ t.items, p ∈ h.items := by
  induction h with
  | stop => cases ht
  | next h _ =>
      cases ht
      exact fun p hp => hp
  | null rest ih => exact ih hflat ht
  | inlineNull rest ih => exact ih hflat ht
  | inline sub rest _ _ => exact absurd hflat id
  | item key data rest ih => exact fun p hp => List.mem_cons_of_mem _ (ih hflat ht p hp)

end Hash

/-! ## What the code restores -/

/-- The hash holds integers: every place has the type its item says. -/
def HoldsInts (h : Hash Place) (vals : Nat → Value) : Prop :=
  ∀ p ∈ h.items, ∃ t v, p.2.type = .int t ∧ vals p.2.loc = .int t v

/-- The hash as the encoder sees it. -/
def Hash.withValues (h : Hash Place) (vals : Nat → Value) : Hash Value :=
  h.map fun p => vals p.loc

/-- In place: encoded with the values `vals` and decoded when the memory holds `vals'`,
every key leads to the value it had. -/
def Hash.Restores (h : Hash Place) : Prop :=
  ∀ (vals vals' : Nat → Value), HoldsInts h vals → HoldsInts h vals' →
    ∀ (addr tag : Nat → UInt64) (fresh : Nat → Nat → UInt8) (buf out : List UInt8),
      (h.withValues vals).room ≤ buf.length → buf.length ≤ maxObject →
      ((h.withValues vals).map Value.data).convertTo addr tag buf = (0, out) →
        ∃ ctx, hashConvertFrom fresh (some h) (fun l => (vals' l).data) out = .ok ctx ∧
          ∀ key p, h.find key = some p → (ctx.mem p.loc).value = some (vals p.loc)

/-- One item of the first loop: its value goes where its key leads. -/
def Hash.record (h : Hash Place) (f : Nat → Option Nat) (p : Key × Place) :
    Nat → Option Nat :=
  match h.find p.1 with
  | some q => Function.update f q.loc (some p.2.loc)
  | none => f

/-- The place each place gets its value from. -/
def Hash.sources (h : Hash Place) : Nat → Option Nat :=
  h.items.foldl h.record fun _ => none

/-- At most five entries, none of the items behind the first array, keys that lead to
memory of the item's type, and every place a key leads to gets its own value. -/
structure Hash.Restorable (h : Hash Place) : Prop where
  short : h.front.length ≤ 5
  single : ∀ t, h.findEnd = some t → t.items = []
  typed : ∀ p ∈ h.items, ∀ q, h.find p.1 = some q → q.type = p.2.type
  owned : ∀ p ∈ h.items, ∀ q, h.find p.1 = some q → h.sources q.loc = some q.loc

/-! ## The first loop, in place -/

/-- Memory while the first loop runs. -/
def inPlace (vals vals' : Nat → Value) (f : Nat → Option Nat) (l : Nat) : Data :=
  match f l with
  | some s => (vals s).data
  | none => (vals' l).data

/-- An item of the temporary hash, by the item it was encoded from. -/
def Hash.slotAt (h : Hash Place) (p : Key × Place) : Entry Slot :=
  .item p.1 ⟨p.2.type.id, (h.find p.1).map Place.loc⟩

section

variable {h : Hash Place} {vals vals' : Nat → Value} (hints : HoldsInts h vals)
  (hints' : HoldsInts h vals')

include hints in
theorem HoldsInts.type_eq {p : Key × Place} (hp : p ∈ h.items) :
    (vals p.2.loc).type = p.2.type := by
  obtain ⟨t, v, htype, hval⟩ := hints p hp
  rw [hval, htype]
  rfl

/-- A place gets values of its own type only. -/
def WellTyped (vals : Nat → Value) (f : Nat → Option Nat) : Prop :=
  ∀ l s, f l = some s → (vals s).type = (vals l).type

include hints hints' in
theorem type_inPlace {f : Nat → Option Nat} (hf : WellTyped vals f) {p : Key × Place}
    (hp : p ∈ h.items) : (inPlace vals vals' f p.2.loc).type = p.2.type := by
  unfold inPlace
  cases hs : f p.2.loc with
  | none => rw [Value.type_data, hints'.type_eq hp]
  | some s => rw [Value.type_data, hf _ _ hs, hints.type_eq hp]

theorem Data.eq_int_of_type {d : Data} {t : IntType} (h : d.type = .int t) :
    ∃ ptr, d = .int t ptr := by
  cases d with
  | int t' ptr =>
      cases h
      exact ⟨ptr, rfl⟩
  | string ptr => cases h
  | raw ptr => cases h

theorem Hash.record_eq {f : Nat → Option Nat} {p : Key × Place} {q : Place}
    (hq : h.find p.1 = some q) :
    h.record f p = Function.update f q.loc (some p.2.loc) := by
  simp only [Hash.record, hq]

theorem inPlace_record {f : Nat → Option Nat} {p : Key × Place} {q : Place}
    (hq : h.find p.1 = some q) :
    inPlace vals vals' (h.record f p)
      = Function.update (inPlace vals vals' f) q.loc (vals p.2.loc).data := by
  funext l
  rw [inPlace, Hash.record_eq hq]
  by_cases hl : l = q.loc
  · subst hl
    simp
  · simp [hl, inPlace]

include hints hints' in
/-- One step of the first loop: it is undefined when the key leads to memory of another
type, else it stores the value there. -/
theorem convertFromIter_slotAt {fresh : Nat → Nat → UInt8} {buf : List UInt8}
    {f : Nat → Option Nat} (hf : WellTyped vals f) {p : Key × Place}
    (hp : p ∈ h.items) {q : Place} (hq : h.find p.1 = some q) {off : Nat}
    {made : List (Key × Data)} (hstored : (vals p.2.loc).StoredAt { off := off } buf) :
    convertFromIter fresh buf (h.slotAt p) ⟨{ off := off }, inPlace vals vals' f, made⟩ =
      if q.type = p.2.type then
        .ok ⟨{ off := off + (vals p.2.loc).len }, inPlace vals vals' (h.record f p), made⟩
      else .error .undefined := by
  obtain ⟨q', hq', hqmem⟩ := Hash.exists_find hp
  obtain rfl : q' = q := Option.some.inj (hq'.symm.trans hq)
  obtain ⟨t, v, htype, hval⟩ := hints p hp
  have hmem := type_inPlace hints hints' hf hqmem
  simp only [Hash.slotAt, convertFromIter, DataType.ofId_id, hq, Option.map_some, hmem]
  by_cases hqp : q'.type = p.2.type
  · rw [if_pos hqp, if_pos hqp]
    obtain ⟨ptr, hptr⟩ := Data.eq_int_of_type (hmem.trans (hqp.trans htype))
    rw [hval] at hstored
    have hfrom : intConvertFrom (fresh off) t ptr { off := off } buf = _ :=
      intConvertFrom_stored hstored
    rw [inPlace_record hq, hval]
    simp only [hptr, Data.convertFrom, hfrom, lt_self_iff_false, if_false]
    rfl
  · rw [if_neg hqp, if_neg hqp]

include hints in
theorem WellTyped.record {f : Nat → Option Nat} (hf : WellTyped vals f) {p : Key × Place}
    (hp : p ∈ h.items) {q : Place} (hq : h.find p.1 = some q) (hqp : q.type = p.2.type) :
    WellTyped vals (h.record f p) := by
  obtain ⟨q', hq', hqmem⟩ := Hash.exists_find hp
  obtain rfl : q' = q := Option.some.inj (hq'.symm.trans hq)
  intro l s hs
  rw [Hash.record_eq hq] at hs
  by_cases hl : l = q'.loc
  · subst hl
    rw [Function.update_self] at hs
    cases hs
    rw [hints.type_eq hp, hints.type_eq hqmem, hqp]
  · rw [Function.update_of_ne hl] at hs
    exact hf l s hs

include hints hints' in
/-- **The first loop.**  If it ends well no key leads to memory of another type, and every
value is where `record` puts it. -/
theorem foldlM_slotAt_ok {fresh : Nat → Nat → UInt8} {buf : List UInt8}
    {ps : List (Key × Place)} (hps : ∀ p ∈ ps, p ∈ h.items) {f : Nat → Option Nat}
    (hf : WellTyped vals f) {off : Nat} {made : List (Key × Data)} {ctx : FromCtx}
    (hstored : Stored buf off (ps.map fun p => vals p.2.loc))
    (hrun : (ps.map h.slotAt).foldlM (fun ctx e => convertFromIter fresh buf e ctx)
        ⟨{ off := off }, inPlace vals vals' f, made⟩ = .ok ctx) :
    (∀ p ∈ ps, ∀ q, h.find p.1 = some q → q.type = p.2.type) ∧
      ctx = ⟨{ off := off + total (ps.map fun p => vals p.2.loc) },
        inPlace vals vals' (ps.foldl h.record f), made⟩ := by
  induction ps generalizing f off with
  | nil =>
      cases hrun
      exact ⟨fun p hp => absurd hp List.not_mem_nil, rfl⟩
  | cons p ps ih =>
      obtain ⟨hp, hps'⟩ := List.forall_mem_cons.mp hps
      obtain ⟨hhere, hrest⟩ := hstored
      obtain ⟨q, hq, -⟩ := Hash.exists_find hp
      obtain ⟨ctx₁, hstep, hrun₁⟩ := foldlM_cons_ok hrun
      rw [convertFromIter_slotAt hints hints' hf hp hq hhere] at hstep
      split at hstep
      · rename_i hqp
        cases hstep
        obtain ⟨htyped, hctx⟩ := ih hps' (hf.record hints hp hq hqp) hrest hrun₁
        refine ⟨List.forall_mem_cons.mpr ⟨fun q' hq' => ?_, htyped⟩, ?_⟩
        · cases hq.symm.trans hq'
          exact hqp
        · rw [hctx, List.map_cons, total_cons, List.foldl_cons, Nat.add_assoc]
      · cases hstep

include hints hints' in
/-- If no key leads to memory of another type the first loop ends well. -/
theorem exists_foldlM_slotAt (fresh : Nat → Nat → UInt8) (made : List (Key × Data))
    {buf : List UInt8} {ps : List (Key × Place)} (hps : ∀ p ∈ ps, p ∈ h.items)
    {f : Nat → Option Nat} (hf : WellTyped vals f) {off : Nat}
    (hstored : Stored buf off (ps.map fun p => vals p.2.loc))
    (htyped : ∀ p ∈ ps, ∀ q, h.find p.1 = some q → q.type = p.2.type) :
    ∃ ctx, (ps.map h.slotAt).foldlM (fun ctx e => convertFromIter fresh buf e ctx)
        ⟨{ off := off }, inPlace vals vals' f, made⟩ = .ok ctx := by
  induction ps generalizing f off with
  | nil => exact ⟨_, rfl⟩
  | cons p ps ih =>
      obtain ⟨hp, hps'⟩ := List.forall_mem_cons.mp hps
      obtain ⟨hhere, hrest⟩ := hstored
      obtain ⟨q, hq, -⟩ := Hash.exists_find hp
      have hqp := htyped p (List.mem_cons_self ..) q hq
      rw [List.map_cons, List.foldlM_cons,
        convertFromIter_slotAt hints hints' hf hp hq hhere, if_pos hqp]
      exact ih hps' (hf.record hints hp hq hqp) hrest fun p' hp' =>
        htyped p' (List.mem_cons_of_mem _ hp')

/-- An item of the destination itself, as the temporary hash leads to it. -/
def linkEntry (p : Key × Place) : Entry Slot := .item p.1 p.2.slot

/-- The items the first end mark of the destination leads to. -/
def Hash.linked (h : Hash Place) : List (Key × Place) :=
  match h.findEnd with
  | none => []
  | some t => t.items

theorem Hash.linked_eq_nil_iff : h.linked = [] ↔ ∀ t, h.findEnd = some t →
    t.items = [] := by
  unfold Hash.linked
  cases h.findEnd with
  | none => simp
  | some t => simp

theorem Hash.items_withValues :
    (h.withValues vals).items = h.items.map fun p => (p.1, vals p.2.loc) := h.items_map _

include hints in
theorem slotEntries_withValues :
    slotEntries (some h) (h.withValues vals).items
      = h.items.map h.slotAt ++ h.linked.map linkEntry := by
  have hfront : (h.withValues vals).items.map (fun p => (.item p.1 ⟨p.2.type.id,
      ((some h).bind (Hash.find p.1)).map Place.loc⟩ : Entry Slot))
        = h.items.map h.slotAt := by
    rw [Hash.items_withValues, List.map_map]
    refine List.map_congr_left fun p hp => ?_
    simp only [Function.comp, Hash.slotAt, hints.type_eq hp, Option.bind_some]
  rw [slotEntries, hfront, Hash.linked, Option.bind_some]
  cases h.findEnd <;> rfl

include hints in
theorem HoldsInts.solid : ∀ p ∈ (h.withValues vals).items, p.2.Solid := by
  intro p hp
  rw [Hash.items_withValues] at hp
  obtain ⟨q, hq, rfl⟩ := List.mem_map.mp hp
  obtain ⟨t, v, -, hval⟩ := hints q hq
  simp only [hval]
  trivial

include hints in
theorem HoldsInts.laid : Laid ((h.withValues vals).items.map Prod.snd) := by
  have hall : ∀ ps : List (Key × Place), (∀ p ∈ ps, ∃ t v, vals p.2.loc = .int t v) →
      Laid (ps.map fun p => vals p.2.loc) := by
    intro ps
    induction ps with
    | nil => exact fun _ => trivial
    | cons p ps ih =>
        intro hps
        obtain ⟨⟨t, v, hval⟩, hps'⟩ := List.forall_mem_cons.mp hps
        rw [List.map_cons, hval]
        exact ih hps'
  rw [Hash.items_withValues, List.map_map]
  refine hall h.items fun p hp => ?_
  obtain ⟨t, v, -, hval⟩ := hints p hp
  exact ⟨t, v, hval⟩

include hints hints' in
/-- Integer values take the same room whatever they are. -/
theorem HoldsInts.alike : (h.withValues vals).Alike (h.withValues vals') := by
  unfold Hash.Alike Hash.withValues
  rw [Hash.map_map, Hash.map_map]
  refine Hash.map_congr fun p hp => ?_
  obtain ⟨t, v, htype, hval⟩ := hints p hp
  obtain ⟨t', v', htype', hval'⟩ := hints' p hp
  obtain rfl : t = t' := DataType.int.inj (htype.symm.trans htype')
  simp only [Function.comp, hval, hval']
  rfl

include hints in
/-- **Decoding in place.** -/
theorem hashConvertFrom_inPlace {addr tag : Nat → UInt64} (fresh : Nat → Nat → UInt8)
    (hflat : h.Flat) {buf : List UInt8} (hroom : (h.withValues vals).room ≤ buf.length) :
    hashConvertFrom fresh (some h) (fun l => (vals' l).data)
        ((h.withValues vals).encoded addr tag buf) =
      if h.front.length ≤ 5 then
        (h.items.map h.slotAt ++ h.linked.map linkEntry).foldlM
          (fun ctx e => convertFromIter fresh
            ((h.withValues vals).encoded addr tag buf) e ctx)
          ⟨{ off := holderSize * ((h.withValues vals).entries binaryFlags).length },
            inPlace vals vals' fun _ => none, []⟩
      else .error .undefined := by
  have hflat' : (h.withValues vals).Flat := (Hash.flat_map _ h).mpr hflat
  obtain ⟨hitems, hlen⟩ := Hash.items_eq_front_of_flat hflat'
  have hfront : (h.withValues vals).front.length = h.front.length := h.length_front_map _
  rw [hashConvertFrom_encoded fresh (some h) _ hroom, ← hitems,
    slotEntries_withValues hints, hlen, hfront]
  rfl

include hints in
theorem stored_inPlace {addr tag : Nat → UInt64} {buf : List UInt8}
    (hroom : (h.withValues vals).room ≤ buf.length) :
    Stored ((h.withValues vals).encoded addr tag buf)
      (holderSize * ((h.withValues vals).entries binaryFlags).length)
      (h.items.map fun p => vals p.2.loc) := by
  have hstored : Stored ((h.withValues vals).encoded addr tag buf) _ _ :=
    Hash.stored_encoded hroom hints.laid
  rw [Hash.items_withValues, List.map_map] at hstored
  exact hstored

theorem wellTyped_none : WellTyped vals fun _ => none := fun _ _ hs => by cases hs

end

theorem Hash.mem_of_find {h : Hash α} {key : Key} {a : α} (hfind : h.find key = some a) :
    (key, a) ∈ h.items := by
  rw [find_eq_find?] at hfind
  obtain ⟨⟨k, b⟩, hkb, rfl⟩ := Option.map_eq_some_iff.mp hfind
  have hk : k = key := by simpa using List.find?_some hkb
  subst hk
  exact List.mem_of_find?_eq_some hkb

/-- **The condition is enough.** -/
theorem Hash.Restorable.restores {h : Hash Place} (hflat : h.Flat) (hr : h.Restorable) :
    h.Restores := by
  intro vals vals' hints hints' addr tag fresh buf out hroom hmax hout
  rw [Hash.convertTo_map_data hints.solid hroom] at hout
  obtain rfl : (h.withValues vals).encoded addr tag buf = out := (Prod.mk.inj hout).2
  have hlinked : h.linked = [] := Hash.linked_eq_nil_iff.mpr hr.single
  rw [hashConvertFrom_inPlace hints fresh hflat hroom, if_pos hr.short, hlinked,
    List.map_nil, List.append_nil]
  have hstored : Stored ((h.withValues vals).encoded addr tag buf) _ _ :=
    stored_inPlace hints hroom
  have hends := exists_foldlM_slotAt hints hints' fresh [] (fun p hp => hp)
      wellTyped_none hstored
    hr.typed
  obtain ⟨ctx, hrun⟩ := hends
  refine ⟨ctx, hrun, fun key p hfind => ?_⟩
  obtain ⟨-, rfl⟩ :=
    foldlM_slotAt_ok hints hints' (fun p hp => hp) wellTyped_none hstored hrun
  have howned := hr.owned (key, p) (Hash.mem_of_find hfind) p hfind
  rw [Hash.sources] at howned
  simp only [inPlace, howned, Value.value_data]

/-- A place some key leads to gets a value. -/
theorem Hash.foldl_record_isSome {h : Hash Place} {ps : List (Key × Place)}
    {f : Nat → Option Nat} {q : Place}
    (hq : (f q.loc).isSome ∨ ∃ p ∈ ps, h.find p.1 = some q) :
    (ps.foldl h.record f q.loc).isSome := by
  induction ps generalizing f with
  | nil => simpa using hq
  | cons p ps ih =>
      refine ih ?_
      by_cases hp : ∃ p' ∈ ps, h.find p'.1 = some q
      · exact Or.inr hp
      · left
        unfold Hash.record
        cases hfind : h.find p.1 with
        | none =>
            rcases hq with hq | ⟨p', hp', hq'⟩
            · exact hq
            · rcases List.mem_cons.mp hp' with rfl | hp'
              · rw [hfind] at hq'
                cases hq'
              · exact absurd ⟨p', hp', hq'⟩ hp
        | some q' =>
            by_cases hl : q.loc = q'.loc
            · simp [hl]
            · rcases hq with hq | ⟨p', hp', hq'⟩
              · simpa [hl] using hq
              · rcases List.mem_cons.mp hp' with rfl | hp'
                · rw [hfind] at hq'
                  cases hq'
                  exact absurd rfl hl
                · exact absurd ⟨p', hp', hq'⟩ hp

theorem Hash.find_of_nodup {h : Hash α} (hkeys : (h.items.map Prod.fst).Nodup)
    {key : Key} {a b : α} (ha : (key, a) ∈ h.items) (hb : h.find key = some b) :
    b = a := by
  have hmem := Hash.mem_of_find hb
  have hinj := List.inj_on_of_nodup_map hkeys hmem ha rfl
  exact (Prod.mk.inj hinj).2

/-- Distinct keys are enough for the last two clauses. -/
theorem Hash.restorable_of_nodup {h : Hash Place} (hshort : h.front.length ≤ 5)
    (hsingle : ∀ t, h.findEnd = some t → t.items = [])
    (hkeys : (h.items.map Prod.fst).Nodup) : h.Restorable := by
  refine ⟨hshort, hsingle, fun p hp q hq => ?_, fun p hp q hq => ?_⟩
  · rw [Hash.find_of_nodup hkeys hp hq]
  · have hself : ∀ ps : List (Key × Place), (∀ p ∈ ps, p ∈ h.items) →
        ∀ f : Nat → Option Nat,
        (∀ l s, f l = some s → s = l) → ∀ l s, ps.foldl h.record f l = some s →
        s = l := by
      intro ps
      induction ps with
      | nil => exact fun _ f hf => hf
      | cons p ps ih =>
          intro hps f hf
          obtain ⟨hp, hps'⟩ := List.forall_mem_cons.mp hps
          refine ih hps' _ fun l s hs => ?_
          obtain ⟨q, hq, -⟩ := Hash.exists_find hp
          rw [Hash.record_eq hq, Hash.find_of_nodup hkeys hp hq] at hs
          by_cases hl : l = p.2.loc
          · subst hl
            rw [Function.update_self] at hs
            exact (Option.some.inj hs).symm
          · rw [Function.update_of_ne hl] at hs
            exact hf l s hs
    have hsome : (h.sources q.loc).isSome := Hash.foldl_record_isSome (Or.inr ⟨p, hp, hq⟩)
    obtain ⟨s, hs⟩ := Option.isSome_iff_exists.mp hsome
    rw [hs, hself h.items (fun p hp => hp) _ (fun l s h => by cases h) _ _ hs]

/-! ## The condition is exact -/

/-- Zero or one, of the same integer type. -/
def Value.bit (b : Bool) : Value → Value
  | .int t _ => .int t (if b then 1 else 0)
  | v => v

theorem HoldsInts.bit {h : Hash Place} {vals : Nat → Value} (hints : HoldsInts h vals)
    (b : Nat → Bool) : HoldsInts h fun l => (vals l).bit (b l) := by
  intro p hp
  obtain ⟨t, v, htype, hval⟩ := hints p hp
  refine ⟨t, if b p.2.loc then 1 else 0, htype, ?_⟩
  simp only [hval]
  rfl

theorem Value.bit_ne {v w : Value} {t : IntType} {x : BitVec (8 * t.bytes)}
    (hv : v = .int t x) : v.bit false ≠ w.bit true := by
  subst hv
  intro h
  cases w with
  | int t' y =>
      obtain rfl : t = t' := (Value.int.inj h).1
      have hbits := eq_of_heq (Value.int.inj h).2
      cases t <;> exact absurd hbits (by decide)
  | string s => cases h
  | raw bytes => cases h

/-- At the end of the buffer no integer is decoded. -/
theorem convertFromIter_linkEntry_end {fresh : Nat → Nat → UInt8} {buf : List UInt8}
    (hpos : 0 < buf.length) {p : Key × Place} {t : IntType} (htype : p.2.type = .int t)
    {mem : Nat → Data} {made : List (Key × Data)} {ctx : FromCtx} :
    convertFromIter fresh buf (linkEntry p) ⟨{ off := buf.length }, mem, made⟩
      ≠ .ok ctx := by
  intro h
  simp only [convertFromIter, linkEntry, Place.slot, htype, DataType.ofId_id] at h
  split at h
  · rename_i hmem
    obtain ⟨ptr, hptr⟩ := Data.eq_int_of_type hmem
    have hneg : ((mem p.2.loc).convertFrom (fresh buf.length) { off := buf.length } buf).1
        = -EFAULT := by
      simp only [hptr, Data.convertFrom, intConvertFrom, Slider.read_end hpos]
      rw [if_pos (by decide)]
    rw [if_pos (by rw [hneg]; decide)] at h
    cases h
  · cases h

section

variable {h : Hash Place} {vals : Nat → Value} (hints : HoldsInts h vals) (hflat : h.Flat)
  (hroom : (h.withValues vals).room ≤ maxObject) (hr : h.Restores)

include hints hflat hroom hr

/-- The decoder ends well on a buffer of exactly the length needed. -/
theorem Hash.Restores.run :
    h.front.length ≤ 5 ∧
      ∃ ctx, (h.items.map h.slotAt ++ h.linked.map linkEntry).foldlM
          (fun ctx e => convertFromIter (fun _ _ => 0)
            ((h.withValues vals).encoded (fun _ => 0) (fun _ => 0)
              (h.withValues vals).tight) e ctx)
          ⟨{ off := holderSize * ((h.withValues vals).entries binaryFlags).length },
            inPlace vals vals fun _ => none, []⟩ = .ok ctx ∧
        ∀ key p, h.find key = some p → (ctx.mem p.loc).value = some (vals p.loc) := by
  have htight := (h.withValues vals).room_le_tight
  obtain ⟨ctx, hctx, hvalues⟩ := hr vals vals hints hints (fun _ => 0) (fun _ => 0)
    (fun _ _ => 0)
    (h.withValues vals).tight _ htight (by simpa [Hash.tight] using hroom)
    (Hash.convertTo_map_data hints.solid htight)
  rw [hashConvertFrom_inPlace hints _ hflat htight] at hctx
  split at hctx
  · rename_i hshort
    exact ⟨hshort, ctx, hctx, hvalues⟩
  · cases hctx

theorem Hash.Restores.typed : ∀ p ∈ h.items, ∀ q, h.find p.1 = some q →
    q.type = p.2.type := by
  obtain ⟨-, ctx, hrun, -⟩ := hr.run hints hflat hroom
  obtain ⟨ctx₁, hrun₁, -⟩ := foldlM_append_ok hrun
  exact (foldlM_slotAt_ok hints hints (fun p hp => hp) wellTyped_none
    (stored_inPlace hints (h.withValues vals).room_le_tight) hrun₁).1

/-- Behind the values there is nothing left to decode. -/
theorem Hash.Restores.linked_eq_nil : h.linked = [] := by
  by_contra hne
  obtain ⟨p, ps, hps⟩ := List.exists_cons_of_ne_nil hne
  obtain ⟨-, ctx, hrun, -⟩ := hr.run hints hflat hroom
  obtain ⟨ctx₁, hrun₁, hrun₂⟩ := foldlM_append_ok hrun
  obtain ⟨-, rfl⟩ := foldlM_slotAt_ok hints hints (fun p hp => hp) wellTyped_none
    (stored_inPlace hints (h.withValues vals).room_le_tight) hrun₁
  rw [hps, List.map_cons] at hrun₂
  obtain ⟨ctx₂, hstep, -⟩ := foldlM_cons_ok hrun₂
  have hlen : ((h.withValues vals).encoded (fun _ => 0) (fun _ => 0)
      (h.withValues vals).tight).length = _ := Hash.length_encoded
        (h.withValues vals).room_le_tight
  have hraw : ∀ v ∈ (h.withValues vals).items.map Prod.snd, v.type ≠ .raw := by
    intro v hv
    rw [Hash.items_withValues, List.map_map] at hv
    obtain ⟨q, hq, rfl⟩ := List.mem_map.mp hv
    obtain ⟨t, x, -, hval⟩ := hints q hq
    simp only [Function.comp, hval]
    exact fun h => by cases h
  have hend : holderSize * ((h.withValues vals).entries binaryFlags).length
      + total (h.items.map fun p => vals p.2.loc)
        = ((h.withValues vals).encoded (fun _ => 0) (fun _ => 0)
          (h.withValues vals).tight).length := by
    rw [hlen, Hash.tight, List.length_replicate, Hash.room, extent_eq_total hraw,
      Hash.items_withValues, List.map_map]
    rfl
  rw [hend] at hstep
  have hmem : p ∈ h.items := by
    have hp : p ∈ h.linked := by rw [hps]; exact List.mem_cons_self ..
    unfold Hash.linked at hp
    cases ht : h.findEnd with
    | none => rw [ht] at hp; cases hp
    | some t =>
        rw [ht] at hp
        exact Hash.items_findEnd_subset hflat ht p hp
  obtain ⟨t, x, htype, -⟩ := hints p hmem
  refine convertFromIter_linkEntry_end ?_ htype hstep
  have hflat' : (h.withValues vals).Flat := (Hash.flat_map _ h).mpr hflat
  rw [← hend, ← (Hash.items_eq_front_of_flat hflat').2]
  unfold holderSize
  omega

/-- Every place a key leads to gets its own value. -/
theorem Hash.Restores.owned :
    ∀ p ∈ h.items, ∀ q, h.find p.1 = some q → h.sources q.loc = some q.loc := by
  intro p hp q hq
  have hsome : (h.sources q.loc).isSome := Hash.foldl_record_isSome (Or.inr ⟨p, hp, hq⟩)
  obtain ⟨s, hs⟩ := Option.isSome_iff_exists.mp hsome
  rw [hs]
  by_contra hne
  -- zero at the place, one everywhere else
  have hbits := hints.bit fun l => decide (l ≠ q.loc)
  have hlinked := hr.linked_eq_nil hints hflat hroom
  obtain ⟨-, ctx, hrun, hvalues⟩ :=
    hr.run hbits hflat ((hints.alike hbits).room_eq ▸ hroom)
  rw [hlinked, List.map_nil, List.append_nil] at hrun
  obtain ⟨-, rfl⟩ := foldlM_slotAt_ok hbits hbits (fun p hp => hp) wellTyped_none
    (stored_inPlace hbits (h.withValues _).room_le_tight) hrun
  have hvalue := hvalues p.1 q hq
  rw [Hash.sources] at hs
  simp only [inPlace, hs, Value.value_data, Option.some.injEq] at hvalue
  have hsq : s ≠ q.loc := fun h => hne (by rw [h])
  obtain ⟨t, x, -, hval⟩ := hints (p.1, q) (Hash.mem_of_find hq)
  rw [decide_eq_true hsq, decide_eq_false (not_not.mpr rfl)] at hvalue
  exact Value.bit_ne hval hvalue.symm

end

/-- **Decoding in place.**  A hash of integers, linked or not, gets back the values it was
encoded with exactly if it is restorable. -/
theorem Hash.restores_iff {h : Hash Place} {vals : Nat → Value} (hints : HoldsInts h vals)
    (hflat : h.Flat) (hroom : (h.withValues vals).room ≤ maxObject) :
    h.Restores ↔ h.Restorable := by
  constructor
  · intro hr
    exact ⟨(hr.run hints hflat hroom).1,
      Hash.linked_eq_nil_iff.mp (hr.linked_eq_nil hints hflat hroom),
      hr.typed hints hflat hroom, hr.owned hints hflat hroom⟩
  · exact fun hr => hr.restores hflat

/-- Two integers in one array. -/
def pairSample : Hash Place :=
  .item ⟨1, regular_one⟩ ⟨.int .uint, 0⟩ (.item ⟨2, regular_two⟩ ⟨.int .uint32, 1⟩ .stop)

/-- The values of a hash with a `uint_t` at `0` and a `uint32_t` at `1`. -/
def pairValues (l : Nat) : Value := if l = 0 then .int .uint 5 else .int .uint32 6

theorem pairSample_holdsInts : HoldsInts pairSample pairValues := by
  intro p hp
  rcases List.mem_cons.mp hp with rfl | hp
  · exact ⟨.uint, 5, rfl, rfl⟩
  · obtain rfl := List.mem_singleton.mp hp
    exact ⟨.uint32, 6, rfl, rfl⟩

theorem restores_iff_pair : HoldsInts pairSample pairValues ∧ pairSample.Restores :=
  ⟨pairSample_holdsInts, (Hash.restores_iff pairSample_holdsInts trivial (by decide)).mpr
    (Hash.restorable_of_nodup (by decide) (fun t ht => by cases ht) (by decide))⟩

/-- The same two integers in two arrays: `{ HK(1), DATA_UINTT(5) }, hash_next(second)`. -/
def linkedPair : Hash Place :=
  .item ⟨1, regular_one⟩ ⟨.int .uint, 0⟩
  (.next (.item ⟨2, regular_two⟩ ⟨.int .uint32, 1⟩ .stop))

/-- A linked hash is not restored: the item behind `hash_next` is decoded twice. -/
theorem linked_not_restored :
    HoldsInts linkedPair pairValues ∧ linkedPair.Flat ∧ ¬ linkedPair.Restores := by
  have hints : HoldsInts linkedPair pairValues := pairSample_holdsInts
  refine ⟨hints, trivial, fun hr => ?_⟩
  have hnil := hr.linked_eq_nil hints trivial (by decide)
  cases hnil

end Frozen.Binary
