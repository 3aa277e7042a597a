/-
# `Frozen.Binary.Exact` — the condition of the round trip is exact

`Hash.Survives` speaks of keys, types and lengths only.  A hash that violates it may
still come back when its values happen to agree with the bytes that take their place,
so the converse is about all values of the same types and lengths (`Hash.Alike`): if
all of them come back, the condition holds.

Each clause has its own reason.  An empty `raw_t` stops the encoder; a seventh holder
exhausts the decoder's array; an inline hash makes the decoder stop at an inner end
mark and read a value out of the next holder; a string swallows what follows it; and of
two hashes that differ in an overwritten byte of a `raw_t` the encoder makes the SAME
buffer.
-/
import Frozen.Binary.Roundtrip

namespace Frozen.Binary

open Lib

/-! ## Hashes of one shape -/

def Value.shape (v : Value) : DataType × Nat := (v.type, v.len)

/-- The same keys, marks, types and lengths. -/
def Hash.Alike (h h' : Hash Value) : Prop := h.map Value.shape = h'.map Value.shape

namespace Hash

variable {α β : Type}

theorem map_map {γ : Type} (f : α → β) (g : β → γ) (h : Hash α) :
    (h.map f).map g = h.map (g ∘ f) := by
  induction h with
  | stop => rfl
  | next h ih => simp only [map, ih]
  | null rest ih => simp only [map, ih]
  | inlineNull rest ih => simp only [map, ih]
  | inline sub rest ihs ihr => simp only [map, ihs, ihr]
  | item key data rest ih => simp only [map, ih, Function.comp]

theorem flat_map (f : α → β) (h : Hash α) : (h.map f).Flat ↔ h.Flat := by
  induction h with
  | stop => exact Iff.rfl
  | next h ih => exact ih
  | null rest ih => exact ih
  | inlineNull rest ih => exact ih
  | inline sub rest _ _ => exact Iff.rfl
  | item key data rest ih => exact ih

theorem length_front_map (f : α → β) (h : Hash α) :
    (h.map f).front.length = h.front.length := by
  have hlast : (fun e : Entry β => !e.isLast) ∘ Entry.map f = fun e : Entry α =>
      !e.isLast := by
    funext e
    cases e <;> rfl
  rw [front, entries_map, List.takeWhile_map, List.length_map, hlast]
  rfl

theorem Alike.map_shape {h h' : Hash Value} (hs : h.Alike h') :
    h.items.map (fun p => p.2.shape) = h'.items.map fun p => p.2.shape := by
  have hitems := congrArg items hs
  rw [items_map, items_map] at hitems
  have hsnd := congrArg (List.map Prod.snd) hitems
  rw [List.map_map, List.map_map] at hsnd
  exact hsnd

end Hash

theorem total_of_shape {vs vs' : List Value}
    (h : vs.map Value.shape = vs'.map Value.shape) : total vs = total vs' := by
  have hlen : ∀ us : List Value,
      us.map Value.len = (us.map Value.shape).map Prod.snd := by
    intro us
    rw [List.map_map]
    rfl
  rw [total, total, hlen, hlen, h]

theorem Laid.of_shape {vs vs' : List Value} (hlaid : Laid vs)
    (h : vs.map Value.shape = vs'.map Value.shape) : Laid vs' := by
  induction vs generalizing vs' with
  | nil =>
      obtain rfl : vs' = [] := by simpa using h.symm
      trivial
  | cons v vs ih =>
      cases vs' with
      | nil => cases h
      | cons v' vs' =>
          obtain ⟨hhead, htail⟩ := List.cons.inj h
          have htype : v.type = v'.type := congrArg Prod.fst hhead
          have hlen : v.len = v'.len := congrArg Prod.snd hhead
          have ih := ih hlaid.tail htail
          cases v with
          | int t v =>
              cases v' with
              | int t' v' => exact ih
              | string s => cases htype
              | raw bytes => cases htype
          | string s =>
              cases v' with
              | int t' v' => cases htype
              | string s' =>
                  have hnil : vs = [] := hlaid
                  subst hnil
                  exact List.map_eq_nil_iff.mp htail.symm
              | raw bytes => cases htype
          | raw bytes =>
              cases v' with
              | int t' v' => cases htype
              | string s' => cases htype
              | raw bytes' =>
                  have hbytes : bytes.length = bytes'.length := Nat.add_left_cancel hlen
                  refine ⟨?_, ?_, ih⟩
                  · rw [← List.length_pos_iff, ← hbytes, List.length_pos_iff]
                    exact hlaid.1
                  · rw [← hbytes, ← total_of_shape htail]
                    exact hlaid.2.1

theorem extent_of_shape {vs vs' : List Value}
    (h : vs.map Value.shape = vs'.map Value.shape) : extent vs = extent vs' := by
  have hextent : ∀ v : Value, v.extent = if v.shape.1 = .raw then v.shape.2 + 8
      else v.shape.2 := by
    intro v
    cases v with
    | int t v => rfl
    | string s => rfl
    | raw bytes =>
        simp only [Value.extent, Value.shape, Value.type, Value.len, if_true]
        omega
  induction vs generalizing vs' with
  | nil =>
      obtain rfl : vs' = [] := by simpa using h.symm
      rfl
  | cons v vs ih =>
      cases vs' with
      | nil => cases h
      | cons v' vs' =>
          obtain ⟨hhead, htail⟩ := List.cons.inj h
          have hlen : v.len = v'.len := congrArg Prod.snd hhead
          rw [extent, extent, ih htail, hextent v, hextent v', hhead, hlen]

theorem Hash.Alike.room_eq {h h' : Hash Value} (ha : h.Alike h') : h.room = h'.room := by
  have hlen : ∀ g : Hash Value,
      (g.entries binaryFlags).length
        = ((g.map Value.shape).entries binaryFlags).length := by
    intro g
    rw [entries_map, List.length_map]
  have hextent : extent (h.items.map Prod.snd) = extent (h'.items.map Prod.snd) := by
    refine extent_of_shape ?_
    rw [List.map_map, List.map_map]
    exact ha.map_shape
  rw [room, room, hlen, hlen, ha, hextent]

/-- The condition speaks of the shape only. -/
theorem Hash.Survives.of_alike {h h' : Hash Value} (hs : h.Survives) (ha : h.Alike h') :
    h'.Survives := by
  obtain ⟨hfront, hflat, hlaid⟩ := hs
  refine ⟨?_, ?_, ?_⟩
  · rw [← Hash.length_front_map Value.shape, ← ha, Hash.length_front_map]
    exact hfront
  · refine hflat.imp (fun hf => ?_) fun hnil => ?_
    · rw [← Hash.flat_map Value.shape, ← ha, Hash.flat_map]
      exact hf
    · have hshape := ha.map_shape
      rw [hnil] at hshape
      exact List.map_eq_nil_iff.mp hshape.symm
  · refine hlaid.of_shape ?_
    rw [List.map_map, List.map_map]
    exact ha.map_shape

/-! ## The encoder needs solid values -/

section

variable {σ ε τ : Type} {f : σ → τ → Except ε σ} {s s' : σ}

theorem foldlM_cons_ok {e : τ} {es : List τ} (h : (e :: es).foldlM f s = .ok s') :
    ∃ s₁, f s e = .ok s₁ ∧ es.foldlM f s₁ = .ok s' := by
  rw [List.foldlM_cons] at h
  cases hstep : f s e with
  | error x => rw [hstep] at h; cases h
  | ok s₁ =>
      rw [hstep] at h
      exact ⟨s₁, rfl, h⟩

theorem foldlM_append_ok {es es' : List τ} (h : (es ++ es').foldlM f s = .ok s') :
    ∃ s₁, es.foldlM f s = .ok s₁ ∧ es'.foldlM f s₁ = .ok s' := by
  rw [List.foldlM_append] at h
  cases hrun : es.foldlM f s with
  | error x => rw [hrun] at h; cases h
  | ok s₁ =>
      rw [hrun] at h
      exact ⟨s₁, rfl, h⟩

theorem exists_step_of_foldlM {es : List τ} (h : es.foldlM f s = .ok s') :
    ∀ e ∈ es, ∃ s₁ s₂, f s₁ e = .ok s₂ := by
  induction es generalizing s with
  | nil => intro e he; cases he
  | cons e es ih =>
      obtain ⟨s₁, hstep, hrest⟩ := foldlM_cons_ok h
      exact List.forall_mem_cons.mpr ⟨⟨s, s₁, hstep⟩, ih hrest⟩

end

theorem rawConvertTo_nil (sl : Slider) (buf : List UInt8) :
    (rawConvertTo (some (.mem [])) sl buf).1 < 0 := by
  have hwrite : ∀ sl : Slider, ∀ buf, (sl.write buf 8 0 (some [])).1 < 0 := by
    intro sl buf
    simp only [Slider.write, defaultWrite]
    split
    · exact (by decide : (-1 : Int) < 0)
    · split
      · exact (by decide : -EINVAL < 0)
      · simp
  unfold rawConvertTo
  simp only
  split
  · assumption
  · exact hwrite _ _

section

variable {addr tag : Nat → UInt64}

theorem solid_of_convertToIter {key : Key} {v : Value} {ctx ctx' : ToCtx}
    (h : convertToIter addr tag (.item key v.data) ctx = .ok ctx') : v.Solid := by
  cases v with
  | int t v => trivial
  | string s => trivial
  | raw bytes =>
      intro hnil
      subst hnil
      simp only [convertToIter] at h
      split at h
      · cases h
      · split at h
        · cases h
        · rename_i hnneg
          exact hnneg (rawConvertTo_nil _ _)

/-- An encoder that answers `0` met no empty value. -/
theorem Hash.solid_of_convertTo {h : Hash Value} {buf : List UInt8}
    (hret : ((h.map Value.data).convertTo addr tag buf).1 = 0) :
    ∀ p ∈ h.items, p.2.Solid := by
  intro p hp
  rw [Hash.convertTo, Hash.iter_count] at hret
  simp only at hret
  split at hret
  · cases hret
  · rename_i ctx hiter
    rw [Hash.iter_eq_foldlM, Hash.entries_map] at hiter
    rw [← Hash.filterMap_entries binaryFlags] at hp
    obtain ⟨e, he, hep⟩ := List.mem_filterMap.mp hp
    cases e with
    | item key v =>
        cases hep
        obtain ⟨s₁, s₂, hstep⟩ := exists_step_of_foldlM hiter _ (List.mem_map_of_mem he)
        exact solid_of_convertToIter hstep
    | null => cases hep
    | inline => cases hep
    | last => cases hep

end

/-! ## A string swallows what follows it -/

theorem Slider.read_slider (sl : Slider) (buf : List UInt8) (offset size : Nat) :
    (sl.read buf offset size).2.2.frozenOff = sl.frozenOff ∧
      sl.off ≤ (sl.read buf offset size).2.2.off := ⟨rfl, Nat.le_add_right _ _⟩

/-- No decoder moves the slider back or freezes it. -/
theorem DataType.convertFrom_null_slider (t : DataType) (fresh : Nat → UInt8)
    (sl : Slider) (buf : List UInt8) :
    (t.null.convertFrom fresh sl buf).2.2.frozenOff = sl.frozenOff ∧
      sl.off ≤ (t.null.convertFrom fresh sl buf).2.2.off := by
  cases t with
  | int t =>
      simp only [DataType.null, Data.convertFrom, intConvertFrom]
      split <;> exact sl.read_slider ..
  | string =>
      simp only [DataType.null, Data.convertFrom, stringConvertFrom]
      split
      · exact ⟨rfl, le_refl _⟩
      · split
        · exact ⟨rfl, le_refl _⟩
        · split <;> exact sl.read_slider ..
  | raw =>
      have hsize := sl.read_slider buf 0 8
      have hdata : ∀ (bytes : List UInt8) (sl' : Slider),
          (rawReadData bytes sl' buf).2.2.frozenOff = sl'.frozenOff ∧
            sl'.off ≤ (rawReadData bytes sl' buf).2.2.off := by
        intro bytes sl'
        simp only [rawReadData]
        split <;> exact sl'.read_slider ..
      simp only [DataType.null, Data.convertFrom, rawConvertFrom]
      split
      · exact hsize
      · split
        · exact hsize
        · exact ⟨(hdata _ _).1.trans hsize.1, hsize.2.trans (hdata _ _).2⟩

section

variable {fresh : Nat → Nat → UInt8} {buf : List UInt8}

theorem convertFromIter_ok {kv : Key × Value} {ctx ctx' : FromCtx}
    (h : convertFromIter fresh buf (slotEntry kv) ctx = .ok ctx') :
    let r := kv.2.type.null.convertFrom (fresh ctx.sl.off) ctx.sl buf
    0 ≤ r.1 ∧ ctx' = ⟨r.2.2, ctx.mem, ctx.made ++ [(kv.1, r.2.1)]⟩ := by
  simp only [convertFromIter, slotEntry, DataType.ofId_id] at h
  split at h
  · cases h
  · rename_i hneg
    refine ⟨not_lt.mp hneg, ?_⟩
    cases h
    rfl

theorem foldlM_convertFromIter_ok {ps : List (Key × Value)} {ctx ctx' : FromCtx}
    (h : (ps.map slotEntry).foldlM (fun ctx e => convertFromIter fresh buf e ctx) ctx
      = .ok ctx') :
    (∃ l, ctx'.made = ctx.made ++ l ∧ l.length = ps.length) ∧
      ctx'.sl.frozenOff = ctx.sl.frozenOff ∧ ctx.sl.off ≤ ctx'.sl.off := by
  induction ps generalizing ctx with
  | nil =>
      cases h
      exact ⟨⟨[], by simp⟩, rfl, le_refl _⟩
  | cons kv ps ih =>
      obtain ⟨ctx₁, hstep, hrest⟩ := foldlM_cons_ok h
      obtain ⟨-, rfl⟩ := convertFromIter_ok hstep
      obtain ⟨⟨l, hl, hlen⟩, hfrozen, hoff⟩ := ih hrest
      have hsl := kv.2.type.convertFrom_null_slider (fresh ctx.sl.off) ctx.sl buf
      refine ⟨⟨_ :: l, by rw [hl, List.append_assoc]; rfl, by simp [hlen]⟩, ?_, ?_⟩
      · exact hfrozen.trans hsl.1
      · exact hsl.2.trans hoff

theorem Slider.read_end {size : Nat} (hpos : 0 < buf.length) :
    ({ off := buf.length } : Slider).read buf 0 size
      = (-1, [], { off := buf.length }) := by
  simp only [Slider.read, Slider.start, Option.getD_none, Nat.zero_add, defaultRead,
    Nat.sub_self, Nat.min_zero, lt_self_iff_false, if_false, if_true]
  rw [if_neg (by omega)]
  rfl

/-- A string that was read leaves the slider at the end of the buffer. -/
theorem stringConvertFrom_slider {sl : Slider} {fresh : Nat → UInt8} (hoff : 0 < sl.off)
    (hfrozen : sl.frozenOff = none) (hs : 0 ≤ (stringConvertFrom fresh none sl buf).1) :
    0 < buf.length ∧ buf.length ≤ maxObject ∧
      (stringConvertFrom fresh none sl buf).2.2 = { off := buf.length } := by
  obtain ⟨off, frozenOff⟩ := sl
  obtain rfl : frozenOff = none := hfrozen
  have hsl : ∀ size, buf.length ≠ 0 → off ≤ buf.length → buf.length - 1 = size →
      (({ off := off } : Slider).read buf 0 size).2.2 = { off := buf.length } := by
    intro size h0 hle hsize
    have hmin : min size (buf.length - off) = buf.length - off := by
      simp only at hoff; omega
    simp only [Slider.read, Slider.start, Option.getD_none, Nat.zero_add,
      defaultRead, hmin]
    rw [if_neg h0, if_neg (by omega)]
    split
    · simp only [Slider.mk.injEq, and_true]
      omega
    · simp only [Slider.mk.injEq, and_true]
      omega
  simp only [stringConvertFrom] at hs ⊢
  split
  · rename_i h0
    rw [if_pos h0] at hs
    exact absurd hs (by decide : ¬ (0 : Int) ≤ -EINVAL)
  · rename_i h0
    rw [if_neg h0] at hs
    split
    · rename_i hmax
      rw [if_pos hmax] at hs
      exact absurd hs (by decide : ¬ (0 : Int) ≤ -ENOMEM)
    · rename_i hmax
      rw [if_neg hmax] at hs
      have hle : off ≤ buf.length := by
        by_contra hlt
        have hread : (({ off := off } : Slider).read buf 0 (buf.length - 1)).1
            = -EINVAL := by
          simp only [Slider.read, Slider.start, Option.getD_none, Nat.zero_add,
            defaultRead]
          rw [if_neg h0, if_pos (by omega)]
        rw [hread, if_pos (by decide)] at hs
        exact absurd hs (by decide : ¬ (0 : Int) ≤ -EINVAL)
      refine ⟨by omega, by omega, ?_⟩
      split
      · exact hsl _ h0 hle rfl
      · exact hsl _ h0 hle rfl

/-- After a string only a string can follow, and it is made of fresh memory. -/
theorem convertFrom_at_end {v : Value} {fresh : Nat → UInt8} (hpos : 0 < buf.length)
    (hmax : buf.length ≤ maxObject)
    (hv : 0 ≤ (v.type.null.convertFrom fresh { off := buf.length } buf).1)
    (hvalue : (v.type.null.convertFrom fresh { off := buf.length } buf).2.1.value
      = some v) :
    ∃ s, v = .string s ∧ s.chars = (blank fresh (buf.length - 1) ++ [0]).takeWhile
      (· ≠ 0) := by
  cases v with
  | int t v =>
      simp only [Value.type, DataType.null, Data.convertFrom, intConvertFrom,
        Slider.read_end hpos] at hv
      rw [if_pos (by decide)] at hv
      exact absurd hv (by decide : ¬ (0 : Int) ≤ -EFAULT)
  | raw bytes =>
      simp only [Value.type, DataType.null, Data.convertFrom, rawConvertFrom,
        Slider.read_end hpos] at hv
      rw [if_pos (by decide)] at hv
      exact absurd hv (by decide : ¬ (0 : Int) ≤ -1)
  | string s =>
      refine ⟨s, rfl, ?_⟩
      simp only [Value.type, DataType.null, Data.convertFrom, stringConvertFrom,
        Slider.read_end hpos] at hvalue
      rw [if_neg (by omega), if_neg (by omega), if_neg (by decide)] at hvalue
      have hs := Value.string.inj (Option.some.inj hvalue)
      rw [← hs]
      rfl

/-- In a successful run the item behind a string is made of fresh memory. -/
theorem foldlM_convertFromIter_string {pre post : List (Key × Value)}
    {key : Key} {s : Text} {kv : Key × Value} {q : Nat} {mem : Nat → Data}
    {ctx : FromCtx} (hq : 0 < q)
    (h : ((pre ++ (key, .string s) :: kv :: post).map slotEntry).foldlM
      (fun ctx e => convertFromIter fresh buf e ctx) ⟨{ off := q }, mem, []⟩ = .ok ctx)
    (hmade : ctx.made.map (fun p => (p.1, p.2.value))
      = (pre ++ (key, .string s) :: kv :: post).map fun p => (p.1, some p.2)) :
    ∃ t, kv.2 = .string t ∧
      t.chars = (blank (fresh buf.length) (buf.length - 1) ++ [0]).takeWhile (· ≠ 0) := by
  rw [List.map_append] at h
  obtain ⟨ctx₁, hpre, h₁⟩ := foldlM_append_ok h
  obtain ⟨ctx₂, hstring, h₂⟩ := foldlM_cons_ok h₁
  obtain ⟨ctx₃, hnext, h₃⟩ := foldlM_cons_ok h₂
  obtain ⟨⟨l, hl, hlen⟩, hfrozen, hoff⟩ := foldlM_convertFromIter_ok hpre
  obtain ⟨hs, rfl⟩ := convertFromIter_ok hstring
  obtain ⟨hpos, hmax, hsl⟩ := stringConvertFrom_slider (lt_of_lt_of_le hq hoff) hfrozen hs
  obtain ⟨hv, rfl⟩ := convertFromIter_ok hnext
  obtain ⟨⟨l', hl', -⟩, -⟩ := foldlM_convertFromIter_ok h₃
  simp only [Value.type, DataType.null, Data.convertFrom, hsl] at hv hl'
  refine convertFrom_at_end hpos hmax hv ?_
  -- the item behind the string is the one the run made in its place
  rw [hl', hl] at hmade
  simp only [List.nil_append, List.append_assoc, List.map_append, List.map_cons,
    List.singleton_append, List.map_nil] at hmade
  have htail := (List.append_inj hmade (by simpa using hlen)).2
  exact (Prod.mk.inj (List.cons.inj (List.cons.inj htail).2).1).2

end

/-! ## An inner end mark puts the decoder before the values -/

/-- A value of the same shape that does not look like a mark. -/
def Value.settle : Value → Value
  | .int t _ => .int t 0
  | .string s => .string ⟨List.replicate s.chars.length 1, by simp [List.mem_replicate]⟩
  | .raw bytes => .raw bytes

theorem Value.shape_settle (v : Value) : v.settle.shape = v.shape := by
  cases v with
  | int t v => rfl
  | string s => simp [Value.settle, Value.shape, Value.type, Value.len]
  | raw bytes => rfl

theorem Value.settle_settle (v : Value) : v.settle.settle = v.settle := by
  cases v with
  | int t v => rfl
  | string s => simp [Value.settle]
  | raw bytes => rfl

section

variable {buf : List UInt8}

/-- The key of a mark is no value: decoded, it gives nothing a settled value could be. -/
theorem not_convertFrom_mark {v : Value} (hv : v.settle = v) {q : Nat}
    (fresh : Nat → UInt8) (hq : 0 < q) (hroom : q + 8 ≤ buf.length)
    (hmax : buf.length ≤ maxObject) {x : UInt64}
    (hx : x = hashPtrNull ∨ x = hashPtrEnd)
    (hslice : (buf.drop q).take 8 = leBytes 8 x.toNat)
    (hret : 0 ≤ (v.type.null.convertFrom fresh { off := q } buf).1) :
    (v.type.null.convertFrom fresh { off := q } buf).2.1.value ≠ some v := by
  cases v with
  | int t v =>
      obtain rfl : 0 = v := by simpa [Value.settle] using hv
      have hbytes : (buf.drop q).take t.bytes = (leBytes 8 x.toNat).take t.bytes := by
        rw [← hslice, List.take_take, Nat.min_eq_left t.bytes_le]
      have hread : ({ off := q } : Slider).read buf 0 t.bytes
          = (0, (buf.drop q).take t.bytes, { off := q + t.bytes }) :=
        Slider.read_front t.bytes_pos (by have := t.bytes_le; simp [Slider.start]; omega)
      simp only [Value.type, DataType.null, Data.convertFrom, intConvertFrom, hread,
        hbytes, ne_eq, not_true, if_false, Data.value, Option.some.injEq]
      rcases hx with rfl | rfl <;> cases t <;> decide
  | string s =>
      have hs : List.replicate s.chars.length 1 = s.chars :=
        congrArg Text.chars (Value.string.inj hv)
      have hdrop : buf.drop q = leBytes 8 x.toNat ++ (buf.drop q).drop 8 := by
        rw [← hslice, List.take_append_drop]
      simp only [Value.type, DataType.null, Data.convertFrom,
        stringConvertFrom_rest fresh hq (by omega) hmax, Data.value]
      intro hvalue
      have htext : (overlay (buf.drop q) (blank fresh (buf.length - 1)) ++
          [0]).takeWhile (· ≠ 0)
          = s.chars := congrArg Text.chars (Value.string.inj (Option.some.inj hvalue))
      rw [overlay, hdrop, ← hs] at htext
      have hhead : ∃ b bs, leBytes 8 x.toNat = b :: bs ∧ b ≠ 0 ∧ b ≠ 1 := by
        rcases hx with rfl | rfl
        · exact ⟨0xFF, _, rfl, by decide, by decide⟩
        · exact ⟨0xFE, _, rfl, by decide, by decide⟩
      obtain ⟨b, bs, hb, h0, h1⟩ := hhead
      rw [hb, List.cons_append, List.cons_append, List.cons_append,
        List.takeWhile_cons_of_pos (by simpa using h0)] at htext
      have hmem : b ∈ List.replicate s.chars.length 1 := by
        rw [← htext]
        exact List.mem_cons_self ..
      exact h1 (List.eq_of_mem_replicate hmem)
  | raw bytes =>
      exfalso
      have hread : ({ off := q } : Slider).read buf 0 8
          = (0, (buf.drop q).take 8, { off := q + 8 }) :=
        Slider.read_front (by omega) hroom
      have hsize : leNat (overlay (leBytes 8 x.toNat) (blank fresh 8)) = x.toNat := by
        rw [overlay_of_length (by simp), leNat_leBytes,
          Nat.mod_eq_of_lt (lt_of_lt_of_eq x.toNat_lt (by norm_num))]
      have hlarge : maxObject < x.toNat := by
        rcases hx with rfl | rfl <;> decide
      simp only [Value.type, DataType.null, Data.convertFrom, rawConvertFrom, hread,
        hslice, hsize, lt_self_iff_false, if_false, if_pos hlarge] at hret
      exact absurd hret (by decide : ¬ (0 : Int) ≤ -ENOMEM)

theorem HoldersAt.drop {addr tag : Nat → UInt64} {es es' : List (Entry Value)} {k : Nat}
    (h : HoldersAt addr tag buf k (es ++ es')) :
    HoldersAt addr tag buf (k + holderSize * es.length) es' := by
  induction es generalizing k with
  | nil => exact h
  | cons e es ih =>
      have := ih h.2
      rwa [Nat.add_assoc, Nat.add_comm holderSize, ← Nat.mul_succ] at this

end

/-! ## What a round trip tells -/

/-- A buffer of exactly the length the encoder needs. -/
def Hash.tight (h : Hash Value) : List UInt8 := List.replicate h.room 0

theorem Hash.room_le_tight (h : Hash Value) : h.room ≤ h.tight.length := by
  simp [tight]

section

variable {h : Hash Value} (hr : h.RoundTrips) (hroom : h.room ≤ maxObject)

include hr hroom

theorem Hash.RoundTrips.solid : ∀ p ∈ h.items, p.2.Solid := by
  have hrun := hr (fun _ => 0) (fun _ => 0) (fun _ _ => 0) (fun _ => .raw none) h.tight
    h.room_le_tight (by simpa [tight] using hroom)
  exact Hash.solid_of_convertTo hrun.1

/-- The decoder's second loop ends well, on every fresh memory. -/
theorem Hash.RoundTrips.run (fresh : Nat → Nat → UInt8) :
    h.front.length ≤ 5 ∧
      ∃ ctx, ((h.front.filterMap Entry.item?).map slotEntry).foldlM
          (fun ctx e => convertFromIter fresh
            (h.encoded (fun _ => 0) (fun _ => 0) h.tight) e ctx)
          ⟨{ off := holderSize * (h.front.length + 1) }, fun _ => .raw none, []⟩
            = .ok ctx ∧
        ctx.made.map (fun p => (p.1, p.2.value)) = h.items.map fun p =>
          (p.1, some p.2) := by
  have hrun := hr (fun _ => 0) (fun _ => 0) fresh (fun _ => .raw none) h.tight
    h.room_le_tight (by simpa [tight] using hroom)
  rw [Hash.convertTo_map_data (hr.solid hroom) h.room_le_tight] at hrun
  obtain ⟨ctx, hctx, hmade⟩ := hrun.2
  rw [hashConvertFrom_encoded _ _ _ h.room_le_tight, slotEntries_none] at hctx
  split at hctx
  · rename_i hfront
    exact ⟨hfront, ctx, hctx, hmade⟩
  · cases hctx

/-- Everything the decoder decodes is in the front. -/
theorem Hash.RoundTrips.items_eq : h.items = h.front.filterMap Entry.item? := by
  obtain ⟨-, ctx, hrun, hmade⟩ := hr.run hroom fun _ _ => 0
  obtain ⟨⟨l, hl, hlen⟩, -⟩ := foldlM_convertFromIter_ok hrun
  obtain ⟨rest, hes, -⟩ := h.exists_entries_eq
  have hitems := h.items_eq_front hes
  have hlength := congrArg List.length hmade
  rw [hl, hitems, List.nil_append, List.length_map, List.length_map, hlen,
    List.length_append] at hlength
  have hnil : rest.filterMap Entry.item? = [] := List.eq_nil_of_length_eq_zero (by omega)
  rw [hitems, hnil, List.append_nil]

/-- A settled hash that comes back has no inline hash, or no items. -/
theorem Hash.RoundTrips.flat_or_nil (hsettle : ∀ p ∈ h.items, p.2.settle = p.2) :
    h.Flat ∨ h.items = [] := by
  by_contra hnot
  obtain ⟨hflat, hne⟩ := not_or.mp hnot
  have hfront := hr.items_eq hroom
  obtain ⟨-, ctx, hrun, hmade⟩ := hr.run hroom fun _ _ => 0
  obtain ⟨rest, hes, hrest⟩ := h.exists_entries_eq
  rw [← hfront] at hrun
  obtain ⟨kv, ps, hps⟩ := List.exists_cons_of_ne_nil hne
  obtain ⟨e, rest', rfl⟩ := List.exists_cons_of_ne_nil (fun hnil => hflat (hrest.mp hnil))
  -- the entry behind the first end mark is a mark
  have hmark : e.item? = none ∧ e ≠ .inline := by
    constructor
    · have hnil : (e :: rest').filterMap Entry.item? = [] := by
        have hitems := h.items_eq_front hes
        rw [← hfront] at hitems
        exact List.self_eq_append_right.mp hitems
      exact List.filterMap_eq_nil_iff.mp hnil e (List.mem_cons_self ..)
    · rintro rfl
      exact h.inline_notMem_entries (by rw [hes]; simp)
  have hholder : HoldersAt (fun _ => 0) (fun _ => 0)
      (h.encoded (fun _ => 0) (fun _ => 0) h.tight) 0
      (h.entries binaryFlags) := Hash.holdersAt_encoded h.room_le_tight
  rw [hes, show h.front ++ .last :: e :: rest' = (h.front ++ [.last]) ++ e ::
    rest' by simp] at hholder
  obtain ⟨⟨hin, hread⟩, -⟩ := hholder.drop
  rw [Entry.length_holder] at hin hread
  rw [Nat.zero_add, List.length_append, List.length_singleton] at hin hread
  have hkey : ∃ x, (x = hashPtrNull ∨ x = hashPtrEnd) ∧ (e.map Value.data).keyId = x := by
    cases e with
    | null => exact ⟨_, Or.inl rfl, rfl⟩
    | inline => exact absurd rfl hmark.2
    | last => exact ⟨_, Or.inr rfl, rfl⟩
    | item key v => cases hmark.1
  obtain ⟨x, hx, hkey⟩ := hkey
  -- so the first value is decoded from its key
  rw [hps, List.map_cons] at hrun
  obtain ⟨ctx₁, hstep, hrest₁⟩ := foldlM_cons_ok hrun
  obtain ⟨hret, rfl⟩ := convertFromIter_ok hstep
  obtain ⟨⟨l, hl, -⟩, -⟩ := foldlM_convertFromIter_ok hrest₁
  rw [hl, hps] at hmade
  simp only [List.nil_append, List.singleton_append, List.map_cons] at hmade
  refine not_convertFrom_mark (hsettle kv (by rw [hps]; exact List.mem_cons_self ..)) _
    (Nat.mul_pos (by decide) (Nat.succ_pos _)) (by unfold holderSize at hin ⊢; omega)
    ?_ hx ?_ hret (Prod.mk.inj (List.cons.inj hmade).1).2
  · rw [Hash.length_encoded h.room_le_tight]
    simpa [tight] using hroom
  · have htake := congrArg (List.take 8) hread
    rw [List.take_take] at htake
    rw [show min 8 holderSize = 8 from rfl] at htake
    rw [htake, ← hkey]
    simp [Entry.holder]

/-- No value follows a string. -/
theorem Hash.RoundTrips.string_last {pre post : List (Key × Value)} {key : Key} {s : Text}
    (hsplit : h.items = pre ++ (key, .string s) :: post) : post = [] := by
  by_contra hne
  obtain ⟨kv, post, rfl⟩ := List.exists_cons_of_ne_nil hne
  have hchars : ∀ fresh : Nat → Nat → UInt8, ∃ t, kv.2 = .string t ∧ t.chars
      = (blank (fresh h.room) (h.room - 1) ++ [0]).takeWhile (· ≠ 0) := by
    intro fresh
    obtain ⟨-, ctx, hrun, hmade⟩ := hr.run hroom fresh
    rw [← hr.items_eq hroom, hsplit] at hrun
    rw [hsplit] at hmade
    have ht := foldlM_convertFromIter_string (Nat.mul_pos (by decide) (Nat.succ_pos _))
        hrun hmade
    rw [Hash.length_encoded h.room_le_tight,
      show h.tight.length = h.room by simp [tight]] at ht
    exact ht
  have hlarge : 2 ≤ h.room := by
    obtain ⟨rest, hes, -⟩ := h.exists_entries_eq
    rw [Hash.room, hes, List.length_append, List.length_cons]
    unfold holderSize
    omega
  obtain ⟨t, ht, htext⟩ := hchars fun _ _ => 0
  obtain ⟨t', ht', htext'⟩ := hchars fun _ _ => 1
  obtain rfl : t = t' := Value.string.inj (ht.symm.trans ht')
  obtain ⟨n, hn⟩ : ∃ n, h.room - 1 = n + 1 := ⟨h.room - 2, by omega⟩
  rw [htext, hn] at htext'
  simp [blank, List.range_succ_eq_map] at htext'

end

/-! ## Two hashes, one buffer -/

theorem Hash.exists_replace (h : Hash Value) {pre post : List (Entry Value)}
    {key : Key} {v v' : Value}
    (hes : h.entries binaryFlags = pre ++ .item key v :: post)
    (hshape : v.shape = v'.shape) :
    ∃ h' : Hash Value, h.Alike h' ∧
      h'.entries binaryFlags = pre ++ .item key v' :: post := by
  induction h generalizing pre post with
  | stop =>
      cases pre with
      | nil => cases hes
      | cons e pre => simp [entries, binaryFlags] at hes
  | next h ih =>
      obtain ⟨h', ha, hes'⟩ := ih hes
      exact ⟨.next h', congrArg Hash.next ha, hes'⟩
  | null rest ih =>
      cases pre with
      | nil => cases hes
      | cons e pre =>
          obtain ⟨rfl, hrest⟩ := List.cons.inj hes
          obtain ⟨h', ha, hes'⟩ := ih hrest
          exact ⟨.null h', congrArg Hash.null ha, congrArg (Entry.null :: ·) hes'⟩
  | inlineNull rest ih =>
      obtain ⟨h', ha, hes'⟩ := ih hes
      exact ⟨.inlineNull h', congrArg Hash.inlineNull ha, hes'⟩
  | inline sub rest ihs ihr =>
      have hes' : sub.entries binaryFlags ++ rest.entries binaryFlags
          = pre ++ .item key v :: post := by simpa [entries, binaryFlags] using hes
      rcases List.append_eq_append_iff.mp hes' with ⟨as, hpre, hrest⟩ | ⟨cs, hsub, hpost⟩
      · obtain ⟨h', ha, hes''⟩ := ihr hrest
        refine ⟨.inline sub h', congrArg (Hash.inline _) ha, ?_⟩
        change sub.entries binaryFlags ++ h'.entries binaryFlags = _
        rw [hes'', hpre, List.append_assoc]
      · cases cs with
        | nil =>
            have hrest : rest.entries binaryFlags = [] ++ .item key v :: post :=
              hpost.symm
            obtain ⟨h', ha, hes''⟩ := ihr hrest
            refine ⟨.inline sub h', congrArg (Hash.inline _) ha, ?_⟩
            change sub.entries binaryFlags ++ h'.entries binaryFlags = _
            rw [hes'', hsub, List.append_nil, List.nil_append]
        | cons c cs =>
            obtain ⟨rfl, hcs⟩ := List.cons.inj hpost
            obtain ⟨h', ha, hes''⟩ := ihs hsub
            refine ⟨.inline h' rest, congrArg (fun x => Hash.inline x _) ha, ?_⟩
            change h'.entries binaryFlags ++ rest.entries binaryFlags = _
            rw [hes'', hcs, List.append_assoc, List.cons_append]
            rfl
  | item k w rest ih =>
      cases pre with
      | nil =>
          obtain ⟨hitem, hrest⟩ := List.cons.inj hes
          cases hitem
          refine ⟨.item key v' rest, ?_, by rw [← hrest]; rfl⟩
          simp only [Alike, map, hshape]
      | cons e pre =>
          obtain ⟨rfl, hrest⟩ := List.cons.inj hes
          obtain ⟨h', ha, hes'⟩ := ih hrest
          exact ⟨.item k w h', congrArg (Hash.item k _) ha,
            congrArg (Entry.item k w :: ·) hes'⟩

section

variable {addr tag : Nat → UInt64}

theorem entryWrites_append (es es' : List (Entry Value)) (k p : Nat) :
    entryWrites addr tag k p (es ++ es') = entryWrites addr tag k p es
      ++ entryWrites addr tag (k + holderSize * es.length) (p + total (valuesOf es))
        es' := by
  induction es generalizing k p with
  | nil => rfl
  | cons e es ih =>
      rw [List.cons_append, entryWrites, ih, entryWrites, total_valuesOf_cons,
        List.length_cons,
        Nat.mul_succ, Nat.add_assoc k, Nat.add_comm holderSize, Nat.add_assoc p,
        List.cons_append, List.append_assoc]

/-- The first bytes behind a place are written by the values that follow it. -/
theorem exists_cover {es : List (Entry Value)} {k p q : Nat} (hp : p ≤ q)
    (hq : q < p + total (valuesOf es)) (h8 : q < p + 8) :
    ∃ w ∈ entryWrites addr tag k p es, w.1 ≤ q ∧ q < w.1 + w.2.length := by
  induction es generalizing k p with
  | nil => exact absurd hq (by simp [valuesOf, total]; omega)
  | cons e es ih =>
      rw [total_valuesOf_cons] at hq
      by_cases hlt : q < p + e.len
      · have hwrite : ∃ w ∈ e.writes p, w.1 ≤ q ∧ q < w.1 + w.2.length := by
          cases e with
          | null => simp only [Entry.len] at hlt; omega
          | inline => simp only [Entry.len] at hlt; omega
          | last => simp only [Entry.len] at hlt; omega
          | item key v =>
              cases v with
              | int t v =>
                  refine ⟨_, List.mem_singleton_self _, hp, ?_⟩
                  rw [length_leBytes]
                  exact hlt
              | string s =>
                  refine ⟨_, List.mem_singleton_self _, hp, ?_⟩
                  rw [List.length_append, List.length_singleton]
                  exact hlt
              | raw bytes =>
                  refine ⟨_, List.mem_cons_self .., hp, ?_⟩
                  rw [length_leBytes]
                  exact h8
        obtain ⟨w, hw, hcover⟩ := hwrite
        exact ⟨w, List.mem_cons_of_mem _ (List.mem_append_left _ hw), hcover⟩
      · obtain ⟨w, hw, hcover⟩ := ih (k := k + holderSize) (p := p + e.len)
          (by omega) (by omega) (by omega)
        exact ⟨w, List.mem_cons_of_mem _ (List.mem_append_right _ hw), hcover⟩

/-- The writes of a run with a `raw_t` in it: what is before and what is behind does not
depend on its bytes. -/
theorem entryWrites_raw (pre post : List (Entry Value)) (key : Key) (bytes : List UInt8)
    (k p : Nat) :
    entryWrites addr tag k p (pre ++ .item key (.raw bytes) :: post)
      = entryWrites addr tag k p pre ++
          [(k + holderSize * pre.length,
            leBytes 8 key.id.toNat ++ leBytes 8 DataType.raw.id.toNat
            ++ leBytes 8 (addr (k + holderSize * pre.length)).toNat),
            (p + total (valuesOf pre), leBytes 8 bytes.length)]
          ++ (p + total (valuesOf pre) + 16, bytes) ::
            entryWrites addr tag (k + holderSize * pre.length + holderSize)
              (p + total (valuesOf pre) + (8 + bytes.length)) post := by
  rw [entryWrites_append, entryWrites, List.append_assoc]
  rfl

/-- When more follows a `raw_t` than its gap has room for, one of its bytes is
overwritten: changing it changes nothing in the buffer. -/
theorem patchAll_entryWrites_set {pre post : List (Entry Value)} {key : Key}
    {bytes : List UInt8} (hpos : 0 < bytes.length)
    (htotal : 8 - bytes.length < total (valuesOf post)) {k p : Nat}
    {buf : List UInt8} (b : UInt8) (hin : Within buf.length
      (entryWrites addr tag k p (pre ++ .item key (.raw bytes) :: post))) :
    patchAll buf (entryWrites addr tag k p
        (pre ++ .item key (.raw (bytes.set (bytes.length - 8) b)) :: post))
      = patchAll buf
        (entryWrites addr tag k p (pre ++ .item key (.raw bytes) :: post)) := by
  rw [entryWrites_raw] at hin
  rw [entryWrites_raw, entryWrites_raw, List.length_set,
    patchAll_append buf _ ((_, bytes.set _ _) :: _),
    patchAll_append buf _ ((_, bytes) :: _)]
  obtain ⟨hbefore, hafter⟩ := List.forall_mem_append.mp hin
  refine patchAll_cons_set b ?_ ?_
  · rw [length_patchAll hbefore]
    exact hafter
  · exact exists_cover (by omega) (by omega) (by omega)

/-- **One buffer for two hashes.** -/
theorem exists_same_encoded (addr tag : Nat → UInt64) {h : Hash Value}
    {pre post : List (Entry Value)} {key : Key} {bytes : List UInt8}
    (hes : h.entries binaryFlags = pre ++ .item key (.raw bytes) :: post)
    (hne : bytes ≠ []) (htotal : 8 - bytes.length < total (valuesOf post))
    {buf : List UInt8} (hroom : h.room ≤ buf.length) :
    ∃ (h' : Hash Value) (bytes' : List UInt8), h.Alike h' ∧ bytes' ≠ bytes ∧
      h'.entries binaryFlags = pre ++ .item key (.raw bytes') :: post ∧
      h'.encoded addr tag buf = h.encoded addr tag buf := by
  have hpos : 0 < bytes.length := List.length_pos_iff.mpr hne
  have hj : bytes.length - 8 < bytes.length := by omega
  have hshape : (Value.raw bytes).shape
      = (Value.raw
        (bytes.set (bytes.length - 8) (bytes[bytes.length - 8] + 1))).shape := by
    simp [Value.shape, Value.type, Value.len]
  obtain ⟨h', ha, hes'⟩ := h.exists_replace hes hshape
  refine ⟨h', _, ha, ?_, hes', ?_⟩
  · intro heq
    have hget := congrArg (fun l => l[bytes.length - 8]?) heq
    simp [hj] at hget
  · have hin : Within buf.length (entryWrites addr tag 0
        (holderSize * (h.entries binaryFlags).length) (h.entries binaryFlags)) :=
      within_of_room hroom
    have hcount : (h'.entries binaryFlags).length = (h.entries binaryFlags).length := by
      rw [hes, hes', List.length_append, List.length_append]
      rfl
    rw [Hash.encoded, Hash.encoded, hcount, hes']
    generalize holderSize * (h.entries binaryFlags).length = p at hin ⊢
    rw [hes] at hin ⊢
    exact patchAll_entryWrites_set hpos htotal _ hin

end

/-! ## The condition is exact -/

theorem laid_of_forall_split {vs : List Value} (hsolid : ∀ v ∈ vs, v.Solid)
    (hstring : ∀ pre s post, vs = pre ++ .string s :: post → post = [])
    (hraw : ∀ pre bytes post, vs = pre ++ .raw bytes :: post →
      total post ≤ 8 - bytes.length) :
    Laid vs := by
  induction vs with
  | nil => trivial
  | cons v vs ih =>
      obtain ⟨hv, hvs⟩ := List.forall_mem_cons.mp hsolid
      have hlaid : Laid vs := by
        refine ih hvs (fun pre s post heq => ?_) fun pre bytes post heq => ?_
        · exact hstring (v :: pre) s post (by rw [heq]; rfl)
        · exact hraw (v :: pre) bytes post (by rw [heq]; rfl)
      cases v with
      | int t v => exact hlaid
      | string s => exact hstring [] s vs rfl
      | raw bytes => exact ⟨hv, hraw [] bytes vs rfl, hlaid⟩

/-- A split of the values comes from a split of the items, and of the entries. -/
theorem Hash.exists_items_split {h : Hash Value} {pre post : List Value} {v : Value}
    (hvs : h.items.map Prod.snd = pre ++ v :: post) :
    ∃ pre' key post', h.items = pre' ++ (key, v) :: post' ∧
      post = post'.map Prod.snd := by
  obtain ⟨l₁, l₂, hl, hl₁, hl₂⟩ := List.map_eq_append_iff.mp hvs
  obtain ⟨p, l₃, rfl, hp, hl₃⟩ := List.map_eq_cons_iff.mp hl₂
  obtain ⟨key, w⟩ := p
  cases hp
  exact ⟨l₁, key, l₃, hl, hl₃.symm⟩

theorem Hash.exists_entries_split {h : Hash Value} {pre post : List (Key × Value)}
    {key : Key} {v : Value} (hitems : h.items = pre ++ (key, v) :: post) :
    ∃ es es', h.entries binaryFlags = es ++ .item key v :: es' ∧
      es.filterMap Entry.item? = pre ∧ es'.filterMap Entry.item? = post := by
  rw [← filterMap_entries binaryFlags] at hitems
  obtain ⟨l₁, l₂, hes, hl₁, hl₂⟩ := List.filterMap_eq_append_iff.mp hitems
  obtain ⟨l₃, e, l₄, rfl, hnone, he, hl₄⟩ := List.filterMap_eq_cons_iff.mp hl₂
  have hitem : e = .item key v := by
    cases e with
    | item k w => cases he; rfl
    | null => cases he
    | inline => cases he
    | last => cases he
  subst hitem
  refine ⟨l₁ ++ l₃, l₄, by rw [hes, List.append_assoc], ?_, hl₄⟩
  rw [List.filterMap_append, hl₁, List.filterMap_eq_nil_iff.mpr hnone, List.append_nil]

/-- All values that fill a `raw_t`'s shape come back only if what follows fits its gap. -/
theorem Hash.raw_gap {h : Hash Value} (hroom : h.room ≤ maxObject)
    (hall : ∀ h', h.Alike h' → h'.RoundTrips) {pre post : List (Key × Value)} {key : Key}
    {bytes : List UInt8} (hitems : h.items = pre ++ (key, .raw bytes) :: post) :
    total (post.map Prod.snd) ≤ 8 - bytes.length := by
  by_contra hlt
  have hr := hall h rfl
  have hsolid := hr.solid hroom
  have hne : bytes ≠ [] := hsolid (key, .raw bytes) (by rw [hitems]; simp)
  obtain ⟨es, es', hes, hpre, hpost⟩ := Hash.exists_entries_split hitems
  have htotal : 8 - bytes.length < total (valuesOf es') := by
    rw [valuesOf, hpost]
    omega
  obtain ⟨h', bytes', ha, hne', hes', hsame⟩ :=
    exists_same_encoded (fun _ => 0) (fun _ => 0) hes hne htotal h.room_le_tight
  have hr' := hall h' ha
  have hroom' := ha.room_eq ▸ h.room_le_tight
  have hsolid' := hr'.solid (ha.room_eq ▸ hroom)
  have htight : h.tight.length ≤ maxObject := by simpa [tight] using hroom
  -- both come back from the one buffer, so they are the same hash
  obtain ⟨-, ctx, hctx, hmade⟩ := hr (fun _ => 0) (fun _ => 0) (fun _ _ => 0)
    (fun _ => .raw none) h.tight h.room_le_tight htight
  obtain ⟨-, ctx', hctx', hmade'⟩ := hr' (fun _ => 0) (fun _ => 0) (fun _ _ => 0)
    (fun _ => .raw none) h.tight hroom' htight
  rw [Hash.convertTo_map_data hsolid h.room_le_tight] at hctx
  rw [Hash.convertTo_map_data hsolid' hroom', hsame] at hctx'
  obtain rfl : ctx = ctx' := Except.ok.inj (hctx.symm.trans hctx')
  have hinj : Function.Injective fun p : Key × Value => (p.1, some p.2) := by
    rintro ⟨k, v⟩ ⟨k', v'⟩ hkv
    cases hkv
    rfl
  have hsameitems : h.items = h'.items :=
    List.map_injective_iff.mpr hinj (hmade.symm.trans hmade')
  have hitems' : h'.items = pre ++ (key, .raw bytes') :: post := by
    rw [← filterMap_entries binaryFlags, hes', List.filterMap_append, hpre,
      List.filterMap_cons, Entry.item?, hpost]
  rw [hitems, hitems'] at hsameitems
  have hraw := (List.cons.inj (List.append_cancel_left hsameitems)).1
  cases hraw
  exact hne' rfl

/-- **The round trip.**  All hashes of one shape come back exactly if the shape has
at most five entries before its first end mark, no inline hash next to items, no
string before another item, no empty `raw_t`, and no more bytes behind a `raw_t`
than its gap holds. -/
theorem Hash.roundTrips_iff {h : Hash Value} (hroom : h.room ≤ maxObject) :
    (∀ h', h.Alike h' → h'.RoundTrips) ↔ h.Survives := by
  constructor
  · intro hall
    have hr := hall h rfl
    refine ⟨(hr.run hroom fun _ _ => 0).1, ?_, ?_⟩
    · have ha : h.Alike (h.map Value.settle) := by
        rw [Hash.Alike, Hash.map_map, show Value.shape ∘ Value.settle = Value.shape from
          funext Value.shape_settle]
      have hflat := (hall _ ha).flat_or_nil (ha.room_eq ▸ hroom) (by
        intro p hp
        rw [Hash.items_map] at hp
        obtain ⟨q, -, rfl⟩ := List.mem_map.mp hp
        exact q.2.settle_settle)
      rw [Hash.flat_map, Hash.items_map, List.map_eq_nil_iff] at hflat
      exact hflat
    · refine laid_of_forall_split ?_ ?_ ?_
      · intro v hv
        obtain ⟨p, hp, rfl⟩ := List.mem_map.mp hv
        exact hr.solid hroom p hp
      · intro pre s post hvs
        obtain ⟨pre', key, post', hitems, rfl⟩ := Hash.exists_items_split hvs
        rw [hr.string_last hroom hitems]
        rfl
      · intro pre bytes post hvs
        obtain ⟨pre', key, post', hitems, rfl⟩ := Hash.exists_items_split hvs
        exact Hash.raw_gap hroom hall hitems
  · intro hs h' ha
    exact (hs.of_alike ha).roundTrips

/-- Two arrays with an integer, an empty item, a short `raw_t` and an empty string. -/
def linkedSample : Hash Value :=
  .item ⟨1, regular_one⟩ (.int .uint32 100) (.null (.next
    (.item ⟨2, regular_two⟩ (.raw [7, 8])
      (.item ⟨3, by decide⟩ (.string ⟨[], by decide⟩) .stop))))

theorem roundTrips_iff_linked :
    linkedSample.room ≤ maxObject ∧ ∀ h', linkedSample.Alike h' → h'.RoundTrips :=
  ⟨by decide, (Hash.roundTrips_iff (by decide)).mpr
    ⟨by decide, Or.inl trivial, by decide, by decide, rfl⟩⟩

/-- Two strings: `{ HK(1), "a" }, { HK(2), "b" }, hash_end`. -/
def twoStrings : Hash Value :=
  .item ⟨1, regular_one⟩ (.string ⟨[97], clean_a⟩)
    (.item ⟨2, regular_two⟩ (.string ⟨[98], by decide⟩) .stop)

/-- The first string swallows the second: two strings do not come back. -/
theorem two_strings_lost : twoStrings.room ≤ maxObject ∧ ¬ twoStrings.RoundTrips := by
  refine ⟨by decide, fun hr => ?_⟩
  have hitems : twoStrings.items = [] ++ (⟨1, regular_one⟩, .string ⟨[97], clean_a⟩) ::
      [(⟨2, regular_two⟩, .string ⟨[98], by decide⟩)] := rfl
  cases hr.string_last (by decide) hitems

end Frozen.Binary
