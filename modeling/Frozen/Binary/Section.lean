/-
# `Frozen.Binary.Section` — the holders of an encoded hash

The encoder goes through a hash twice with one callback and the same flags: to count the
holders, so that it knows where the values begin, and to write holders and values.  What
`hash_iter` reports under these flags does not depend on the values, so both times it is
the same, whatever the types of the values write behind the holders.

It reports an end mark for every hash it comes to the end of.  An inline hash with
items is one more hash, so its end mark stands in the middle, and that is where
the decoder stops.
-/
import Frozen.Binary.Roundtrip
import Frozen.Lib.Fuel

namespace Frozen.Binary

open Lib

/-! ## The encoder, for values of any type -/

section Encoder

variable {α : Type} (addr tag : Nat → UInt64)

/-- The type of a value, and `ACTION_CONVERT_TO` of it with a slider as
the destination. -/
structure Values (α : Type) where
  typeId : α → UInt64
  convertTo : α → Slider → List UInt8 → Int × List UInt8 × Slider

variable (vals : Values α)

def Entry.key : Entry α → UInt64
  | .null => hashPtrNull
  | .inline => hashPtrInline
  | .last => hashPtrEnd
  | .item key _ => key.id

def Values.type (tag : UInt64) : Entry α → UInt64
  | .item _ v => vals.typeId v
  | _ => tag

/-- The holder of an entry at `off`. -/
def Values.holder (off : Nat) (e : Entry α) : List UInt8 :=
  leBytes 8 e.key.toNat ++ leBytes 8 (vals.type (tag off) e).toNat ++ leBytes 8
    (addr off).toNat

/-- `data_hash_t_convert_to_iter`, step one. -/
def countIter (_ : Entry α) (n : Nat) : Except Unit Nat := .ok (n + holderSize)

/-- `data_hash_t_convert_to_iter`, step two. -/
def Values.iter (e : Entry α) (ctx : ToCtx) : Except ToCtx ToCtx :=
  let (ret, buf, slHolder) :=
    ctx.slHolder.write ctx.buf 0 holderSize
      (some (vals.holder addr tag ctx.slHolder.start e))
  let ctx := { ctx with buf := buf, slHolder := slHolder }
  if ret < 0 then .error ctx
  else
    match e with
    | .item _ v =>
        let (ret, buf, slData) := vals.convertTo v ctx.slData ctx.buf
        let ctx := { ctx with buf := buf, slData := slData }
        if ret < 0 then .error ctx else .ok ctx
    | _ => .ok ctx

/-- `data_hash_t_convert_to`: the answer and the buffer. -/
def Values.encode (h : Hash α) (buf : List UInt8) : Int × List UInt8 :=
  match h.iter binaryFlags countIter 0 with
  | .error _ => (-EFAULT, buf)
  | .ok n =>
      match h.iter binaryFlags (vals.iter addr tag) ⟨buf, { off := 0 }, { off := n }⟩ with
      | .error ctx => (-EFAULT, ctx.buf)
      | .ok ctx => (0, ctx.buf)

/-- Nothing in front of the place of the slider has changed, and the
slider has moved on. -/
structure Behind (sl : Slider) (buf : List UInt8) (r : Int × List UInt8 × Slider) :
    Prop where
  length : r.2.1.length = buf.length
  front : r.2.1.take sl.off = buf.take sl.off
  frozen : r.2.2.frozenOff = none
  off : sl.off ≤ r.2.2.off

/-- What a value writes, it writes behind the place of the slider. -/
def Values.Behind : Prop :=
  ∀ v sl buf, sl.frozenOff = none → Binary.Behind sl buf (vals.convertTo v sl buf)

/-- Integers, strings and raw data. -/
def plainValues : Values Data := ⟨fun d => d.type.id, Data.convertTo⟩

end Encoder

/-! ## Integers, strings and raw data -/

section Plain

variable {sl : Slider} {buf : List UInt8} {src : Option (List UInt8)} {size : Nat}

theorem defaultWrite_behind (offset : Nat) (hd : ∀ d, src = some d → d.length = size) :
    (defaultWrite buf offset size src).2.1.length = buf.length ∧
      ∀ k ≤ offset, (defaultWrite buf offset size src).2.1.take k = buf.take k := by
  unfold defaultWrite
  cases src with
  | none => split_ifs <;> exact ⟨rfl, fun _ _ => rfl⟩
  | some d =>
      have hlen := hd d rfl
      simp only
      split_ifs
      · exact ⟨rfl, fun _ _ => rfl⟩
      · exact ⟨rfl, fun _ _ => rfl⟩
      · exact ⟨rfl, fun _ _ => rfl⟩
      · refine ⟨?_, fun k hk => ?_⟩
        · simp only [List.length_append, List.length_take, List.length_drop]
          omega
        · rw [List.append_assoc,
            List.take_append_of_le_length (by rw [List.length_take]; omega),
            List.take_take, Nat.min_eq_left hk]

theorem write_behind (offset : Nat) (hd : ∀ d, src = some d → d.length = size)
    (hsl : sl.frozenOff = none) : Behind sl buf (sl.write buf offset size src) := by
  have hstart : sl.start = sl.off := by rw [Slider.start, hsl, Option.getD_none]
  obtain ⟨hlen, htake⟩ := @defaultWrite_behind buf src size (offset + sl.start) hd
  exact ⟨hlen, htake _ (by omega), hsl, Nat.le_add_right _ _⟩

theorem Behind.trans {r r' : Int × List UInt8 × Slider} (h : Behind sl buf r)
    (h' : Behind r.2.2 r.2.1 r') : Behind sl buf r' := by
  have hle := h.off
  refine ⟨h'.length.trans h.length, ?_, h'.frozen, hle.trans h'.off⟩
  rw [← Nat.min_eq_left hle, ← List.take_take, h'.front, List.take_take,
    Nat.min_eq_left hle, h.front]

theorem rawConvertTo_behind (r : Raw) (hsl : sl.frozenOff = none) :
    Behind sl buf (rawConvertTo (some r) sl buf) := by
  have hsize : Behind sl buf (sl.write buf 0 8 (some (leBytes 8 r.size))) :=
    write_behind 0 (fun d hd => by cases hd; exact length_leBytes _ _) hsl
  rw [rawConvertTo]
  simp only
  split_ifs
  · exact hsize
  · refine hsize.trans (write_behind 8 (fun d hd => ?_) hsize.frozen)
    cases r with
    | null size => cases hd
    | mem bytes =>
        cases hd
        rfl

theorem plainValues_behind : plainValues.Behind := by
  intro v sl buf hsl
  cases v with
  | int t ptr =>
      refine write_behind 0 (fun d hd => ?_) hsl
      obtain ⟨v, -, rfl⟩ := Option.map_eq_some_iff.mp hd
      exact length_leBytes _ _
  | string ptr =>
      cases ptr with
      | none => exact ⟨rfl, rfl, hsl, le_rfl⟩
      | some c =>
          show Behind sl buf
            (sl.write buf 0 (c.strlen + 1) (some (c.mem.take (c.strlen + 1))))
          refine write_behind 0 (fun d hd => ?_) hsl
          cases hd
          obtain ⟨rest, hrest⟩ := c.exists_mem_eq
          rw [List.length_take, hrest, Chars.strlen, List.length_append, List.length_cons]
          omega
  | raw ptr =>
      cases ptr with
      | none => exact ⟨rfl, rfl, hsl, le_rfl⟩
      | some r => exact rawConvertTo_behind r hsl

end Plain

/-- The encoder of integers, strings and raw data is this one. -/
theorem plainValues_encode (addr tag : Nat → UInt64) (h : Hash Data) (buf : List UInt8) :
    plainValues.encode addr tag h buf = h.convertTo addr tag buf := by
  have hiter : plainValues.iter addr tag = convertToIter addr tag := by
    funext e ctx
    cases e <;> rfl
  rw [Values.encode, hiter]
  rfl

/-! ## Two passes over the same entries -/

section Passes

variable {α : Type} {addr tag : Nat → UInt64} {vals : Values α}

/-- The holders of the entries lie in the buffer, one after the other from `k` on. -/
def Values.HoldersAt (vals : Values α) (addr tag : Nat → UInt64) (buf : List UInt8) :
    Nat → List (Entry α) → Prop
  | _, [] => True
  | k, e :: es => (buf.drop k).take holderSize = vals.holder addr tag k e ∧
      HoldersAt vals addr tag buf (k + holderSize) es

theorem length_holder (k : Nat) (e : Entry α) :
    (vals.holder addr tag k e).length = holderSize := by
  simp [Values.holder, holderSize]

/-- One call of the callback that works: the holder is written at its place, and what
the value writes is behind it. -/
theorem iter_ok (hb : vals.Behind) {e : Entry α} {k : Nat} {sl : Slider}
    {buf : List UInt8} {ctx : ToCtx} (hsl : sl.frozenOff = none)
    (hroom : k + holderSize ≤ buf.length)
    (h : vals.iter addr tag e ⟨buf, { off := k }, sl⟩ = .ok ctx) :
    ctx.slHolder = { off := k + holderSize } ∧
      Behind sl (patch buf (k, vals.holder addr tag k e)) (0, ctx.buf, ctx.slData) := by
  have hwrite : ({ off := k } : Slider).write buf 0 holderSize
      (some (vals.holder addr tag k e))
      = (0, patch buf (k, vals.holder addr tag k e), { off := k + holderSize }) :=
    Slider.write_front (length_holder k e) (by decide) hroom
  have hstart : ({ off := k } : Slider).start = k := rfl
  simp only [Values.iter, hstart, hwrite, lt_self_iff_false, if_false] at h
  cases e with
  | item key v =>
      simp only at h
      split_ifs at h
      cases h
      obtain ⟨hlen, hfront, hfrozen, hoff⟩ :=
        hb v sl (patch buf (k, vals.holder addr tag k (.item key v))) hsl
      exact ⟨rfl, hlen, hfront, hfrozen, hoff⟩
  | null =>
      cases h
      exact ⟨rfl, rfl, rfl, hsl, le_rfl⟩
  | inline =>
      cases h
      exact ⟨rfl, rfl, rfl, hsl, le_rfl⟩
  | last =>
      cases h
      exact ⟨rfl, rfl, rfl, hsl, le_rfl⟩

theorem take_patch {buf d : List UInt8} {k : Nat} (hroom : k + d.length ≤ buf.length) :
    (patch buf (k, d)).take k = buf.take k ∧
      ((patch buf (k, d)).take (k + d.length)).drop k = d := by
  have hk : (buf.take k).length = k := by
    rw [List.length_take]
    omega
  have hpatch : patch buf (k, d) = buf.take k ++ (d ++ buf.drop (k + d.length)) := by
    rw [patch, List.append_assoc]
  constructor
  · rw [hpatch, List.take_append_of_le_length hk.ge, List.take_take, Nat.min_self]
  · rw [hpatch, ← List.append_assoc,
      List.take_append_of_le_length (by rw [List.length_append, hk]),
      List.take_of_length_le (by rw [List.length_append, hk]), List.drop_left' hk]

/-- **The second pass** writes the holders the first one counted. -/
theorem second_pass (hb : vals.Behind) :
    ∀ {es : List (Entry α)} {k : Nat} {sl : Slider} {buf : List UInt8}
    {ctx : ToCtx}, sl.frozenOff = none → k + holderSize * es.length ≤ sl.off →
    k + holderSize * es.length ≤ buf.length →
    es.foldlM (fun ctx e => vals.iter addr tag e ctx) ⟨buf, { off := k }, sl⟩ = .ok ctx →
    ctx.slHolder.off = k + holderSize * es.length ∧ ctx.buf.take k = buf.take k ∧
      vals.HoldersAt addr tag ctx.buf k es
  | [], _, _, _, _, _, _, _, h => by
      cases h
      exact ⟨rfl, rfl, trivial⟩
  | e :: es, k, sl, buf, ctx, hsl, hoff, hroom, h => by
      rw [List.length_cons, Nat.mul_succ] at hoff hroom ⊢
      rw [List.foldlM_cons] at h
      obtain ⟨⟨buf₁, slHolder, sl₁⟩, hstep, hrest⟩ := ok_of_bind h
      obtain ⟨rfl, hlen, hfront, hfrozen, hle⟩ := iter_ok hb hsl (by omega) hstep
      simp only at hlen hfront hfrozen hle
      have hd : k + (vals.holder addr tag k e).length ≤ buf.length := by
        rw [length_holder]
        omega
      rw [length_patch hd] at hlen
      obtain ⟨hend, htake, hholders⟩ := second_pass hb hfrozen (by omega) (by omega) hrest
      obtain ⟨hbefore, hat⟩ := take_patch hd
      rw [length_holder] at hat
      -- what is in front of the values stays as this step left it
      have hkept : ctx.buf.take (k + holderSize)
          = (patch buf (k, vals.holder addr tag k e)).take (k + holderSize) := by
        rw [htake]
        have hcut := congrArg (List.take (k + holderSize)) hfront
        rwa [List.take_take, List.take_take, Nat.min_eq_left (by omega)] at hcut
      refine ⟨by omega, ?_, ?_, hholders⟩
      · have hcut := congrArg (List.take k) hkept
        rwa [List.take_take, List.take_take, Nat.min_eq_left (by omega), hbefore] at hcut
      · have hslice := congrArg (List.drop k) hkept
        rw [hat, List.drop_take, Nat.add_sub_cancel_left] at hslice
        exact hslice

/-! ## End marks -/

/-- The keys of `n` holders in the buffer, from `k` on. -/
def sectionKeys (buf : List UInt8) : Nat → Nat → List UInt64
  | _, 0 => []
  | k, n + 1 =>
      UInt64.ofNat (leNat ((buf.drop k).take 8)) :: sectionKeys buf (k + holderSize) n

theorem Values.HoldersAt.keys : ∀ {es : List (Entry α)} {buf : List UInt8} {k : Nat},
    vals.HoldersAt addr tag buf k es → sectionKeys buf k es.length = es.map Entry.key
  | [], _, _, _ => rfl
  | e :: es, buf, k, ⟨hhere, hrest⟩ => by
      have hkey : (buf.drop k).take 8 = leBytes 8 e.key.toNat := by
        have hcut := congrArg (List.take 8) hhere
        rw [List.take_take, Nat.min_eq_left (by decide), Values.holder, List.append_assoc,
          List.take_left' (length_leBytes _ _)] at hcut
        exact hcut
      rw [List.length_cons, sectionKeys, hkey, leNat_leBytes_uint64,
        Values.HoldersAt.keys hrest, List.map_cons]

theorem Entry.key_ne_end {e : Entry α} (h : e.isLast = false) : e.key ≠ hashPtrEnd := by
  cases e with
  | item key v => exact key.regular.2.1
  | null => exact (by decide : hashPtrNull ≠ hashPtrEnd)
  | inline => exact (by decide : hashPtrInline ≠ hashPtrEnd)
  | last => cases h

/-- The end mark of the hash itself is the last entry. -/
theorem Hash.getLast_entries (h : Hash α) :
    (h.entries binaryFlags).getLast? = some .last := by
  have hne : ∀ g : Hash α, (g.entries binaryFlags).getLast? = some .last →
      g.entries binaryFlags ≠ [] := by
    intro g hg hnil
    rw [hnil] at hg
    cases hg
  induction h with
  | stop => rfl
  | next h ih => exact ih
  | null rest ih => rw [entries, List.getLast?_append_of_ne_nil _ (hne rest ih), ih]
  | inlineNull rest ih => exact ih
  | inline sub rest ihs ihr =>
      rw [entries, List.getLast?_append_of_ne_nil _ (hne rest ihr), ihr]
  | item key v rest ih =>
      rw [entries, ← List.singleton_append,
        List.getLast?_append_of_ne_nil _ (hne rest ih), ih]

/-- One end mark, and it is the last one of the holders. -/
def OneEnd (keys : List UInt64) : Prop :=
  keys.count hashPtrEnd = 1 ∧ keys.getLast? = some hashPtrEnd

theorem oneEnd_iff (h : Hash α) : OneEnd ((h.entries binaryFlags).map Entry.key) ↔
    h.Flat := by
  obtain ⟨rest, hes, hflat⟩ := h.exists_entries_eq
  have hlast : ((h.entries binaryFlags).map Entry.key).getLast? = some hashPtrEnd := by
    rw [List.getLast?_map, h.getLast_entries]
    rfl
  have hfront : (h.front.map Entry.key).count hashPtrEnd = 0 := by
    rw [List.count_eq_zero]
    intro hmem
    obtain ⟨e, he, hkey⟩ := List.mem_map.mp hmem
    exact Entry.key_ne_end (Hash.isLast_of_mem_front he) hkey
  have hcount : ((h.entries binaryFlags).map Entry.key).count hashPtrEnd
      = (rest.map Entry.key).count hashPtrEnd + 1 := by
    rw [hes, List.map_append, List.count_append, hfront, List.map_cons, Nat.zero_add]
    exact List.count_cons_self
  rw [OneEnd, hcount, ← hflat]
  constructor
  · rintro ⟨hone, -⟩
    by_contra hne
    -- behind the first end mark the last one is a second
    have hin : hashPtrEnd ∈ rest.map Entry.key := by
      have hend := h.getLast_entries
      rw [hes, ← List.singleton_append, ← List.append_assoc,
        List.getLast?_append_of_ne_nil _ hne] at hend
      exact List.mem_map.mpr ⟨.last, List.mem_of_getLast? hend, rfl⟩
    have hpos := List.count_pos_iff.mpr hin
    omega
  · rintro rfl
    exact ⟨rfl, hlast⟩

end Passes

/-- **The holder section** of an encoder that answers 0: the second pass writes as many
holders as the first one counts, so the values begin behind the last of them; they are
those of the entries, and there is one end mark, the last holder, exactly if no inline
hash has items. -/
theorem encode_section {α : Type} (addr tag : Nat → UInt64) (vals : Values α)
    (hb : vals.Behind) (h : Hash α) (buf : List UInt8)
    (hroom : holderSize * (h.entries binaryFlags).length ≤ buf.length)
    (hret : (vals.encode addr tag h buf).1 = 0) :
    ∃ n ctx, h.iter binaryFlags countIter 0 = .ok (holderSize * n) ∧
      h.iter binaryFlags (vals.iter addr tag)
        ⟨buf, { off := 0 }, { off := holderSize * n }⟩ = .ok ctx ∧
      (vals.encode addr tag h buf).2 = ctx.buf ∧ ctx.slHolder.off = holderSize * n ∧
      sectionKeys ctx.buf 0 n = (h.entries binaryFlags).map Entry.key ∧
      (OneEnd (sectionKeys ctx.buf 0 n) ↔ h.Flat) := by
  have hcount : h.iter binaryFlags countIter 0 = _ := h.iter_count
  cases hpass : h.iter binaryFlags (vals.iter addr tag)
      ⟨buf, { off := 0 }, { off := holderSize * (h.entries binaryFlags).length }⟩ with
  | error ctx =>
      rw [Values.encode, hcount] at hret
      simp only [hpass] at hret
      exact absurd hret (by decide)
  | ok ctx =>
      have hfold := hpass
      rw [Hash.iter_eq_foldlM] at hfold
      obtain ⟨hoff, -, hholders⟩ := second_pass hb rfl (by rw [Nat.zero_add])
        (by rw [Nat.zero_add]; exact hroom) hfold
      refine ⟨_, ctx, hcount, hpass, ?_, by rw [hoff, Nat.zero_add], hholders.keys, ?_⟩
      · rw [Values.encode, hcount]
        simp only [hpass]
      · rw [hholders.keys]
        exact oneEnd_iff h

/-- A key and a value behind an inline hash with one item. -/
def nested : Hash Data :=
  .inline (.item ⟨5, regular_five⟩ (.int .uint8 (some 1)) .stop) .stop

def unnested : Hash Data :=
  .null (.inlineNull (.item ⟨5, regular_five⟩ (.int .uint8 (some 1)) (.next .stop)))

theorem encode_section_unnested :
    OneEnd (sectionKeys
      (unnested.convertTo (fun _ => 0) (fun _ => 0) (List.replicate 80 0)).2 0 3) := by
  obtain ⟨n, ctx, hcount, -, hbuf, -, -, hiff⟩ :=
    encode_section (fun _ => 0) (fun _ => 0) plainValues
    plainValues_behind unnested (List.replicate 80 0) (by decide) (by decide)
  obtain rfl : n = 3 := by
    have hn : 72 = 24 * n := Except.ok.inj hcount
    omega
  rw [← plainValues_encode, hbuf]
  exact hiff.mpr (by decide)

/-- Two end marks: the decoder stops at the first. -/
theorem inline_end_in_the_middle :
    (nested.convertTo (fun _ => 0) (fun _ => 0) (List.replicate 80 0)).1 = 0 ∧
      sectionKeys (nested.convertTo (fun _ => 0) (fun _ => 0) (List.replicate 80 0)).2 0 3
        = [5, hashPtrEnd, hashPtrEnd] := by
  decide

end Frozen.Binary
