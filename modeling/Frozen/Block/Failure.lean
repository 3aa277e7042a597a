/-
# `Frozen.Block.Failure` — what is left after a failed grow

`memory_resize` stores the new size before it knows whether there will be room for it,
and on a failure it frees the whole memory: the block, both sizes, the policy.
`realloc` had left the old block alone; its pointer was overwritten by the NULL.  So a
failure keeps what was there only where nothing was there, or where it is `memory_grow`
that refuses the size.

The cache hands this on: a CREATE that does not get its memory empties the cache.  One
whose buffer has no byte fails as well, but after the memory has grown, so that reads
behind the old end now find zeros.
-/
import Frozen.Block.Memory
import Frozen.Cache.Sane

namespace Frozen.Block

open Lib

/-! ## The memory -/

/-- The same size, and the same bytes to read. -/
def Same (m m' : Memory) : Prop :=
  memorySize m' = memorySize m ∧ ∀ offset size,
    memoryRead m' offset size = memoryRead m offset size

section

variable {realloc : Realloc} {n : Nat} {m : Memory}

/-- A failure of `memory_resize` loses nothing: the block is kept or `realloc` gives
one, or there is nothing to lose; a freed memory is asked for the size it has. -/
def ResizeKeeps (realloc : Realloc) (n : Nat) (m : Memory) (newSize : Nat) : Prop :=
  (m.type = .freed → newSize = m.exactSize) ∧
    (m.type ≠ .freed → ∀ t, m.blockSize n newSize = .ok t →
      (m.type.Keeps ∧ t = m.ptrSize) ∨
      (m.alloc = .malloc ∧ (realloc.call m.ptr t).isSome) ∨
        m.exactSize = 0)

/-- `memory_grow` refuses sizes that an `uintmax_t` cannot count, and then
changes nothing. -/
def GrowKeeps (realloc : Realloc) (n : Nat) (m : Memory) (size : Nat) : Prop :=
  2 ^ 64 - 1 - size ≤ m.exactSize ∨ ResizeKeeps realloc n m (m.exactSize + size)

theorem memoryRead_nothing (h : m.exactSize = 0) (offset size : Nat) :
    memoryRead m offset size = (0, []) := by
  have herr : ∃ ret, memoryTranslate m offset size = .error ret := by
    unfold memoryTranslate
    rw [h]
    cases m.alloc with
    | malloc =>
        simp only [Nat.zero_sub, Nat.min_zero, if_true]
        split <;> exact ⟨_, rfl⟩
    | freed => exact ⟨_, rfl⟩
    | other => exact ⟨_, rfl⟩
  obtain ⟨ret, hret⟩ := herr
  rw [memoryRead, hret]

/-- Freeing a memory loses all that there was. -/
theorem same_zeroed_iff : Same m zeroed ↔ m.exactSize = 0 := by
  refine ⟨fun h => h.1.symm, fun h => ⟨h.symm, fun offset size => ?_⟩⟩
  rw [memoryRead_nothing h, memoryRead_nothing rfl]

theorem reallocate_ok {m : Memory}
    (h : m.alloc = .malloc ∧ (realloc.call m.ptr m.ptrSize).isSome) :
    (reallocate realloc m).1 = 0 := by
  obtain ⟨block, hblock⟩ := Option.isSome_iff_exists.mp h.2
  simp only [reallocate, h.1, hblock]

theorem reallocate_failed {m : Memory}
    (h : ¬ (m.alloc = .malloc ∧ (realloc.call m.ptr m.ptrSize).isSome)) :
    reallocate realloc m = (-EFAULT, zeroed) := by
  unfold reallocate
  cases halloc : m.alloc with
  | freed => rfl
  | other => rfl
  | malloc =>
      cases hcall : realloc.call m.ptr m.ptrSize with
      | none => rfl
      | some block => exact absurd ⟨halloc, by rw [hcall]; rfl⟩ h

theorem memoryResize_cases {newSize : Nat} {r : Int × Memory}
    (h : memoryResize realloc n m newSize = .ok r) :
    (m.type = .freed ∧ r = (-EFAULT, { m with exactSize := newSize })) ∨
      (m.type ≠ .freed ∧ ∃ t, m.blockSize n newSize = .ok t ∧
        ((m.type.Keeps ∧ t = m.ptrSize ∧ r.1 = 0) ∨
          (m.alloc = .malloc ∧ (realloc.call m.ptr t).isSome ∧ r.1 = 0) ∨
          (¬ (m.type.Keeps ∧ t = m.ptrSize) ∧
            ¬ (m.alloc = .malloc ∧ (realloc.call m.ptr t).isSome) ∧
            r = (-EFAULT, zeroed)))) := by
  obtain ⟨t, ht, hr⟩ := ok_of_bind h
  obtain rfl := Except.ok.inj hr
  by_cases hfreed : m.type = .freed
  · exact .inl ⟨hfreed, by rw [settle, hfreed]⟩
  · refine .inr ⟨hfreed, t, ht, ?_⟩
    by_cases hskip : m.type.Keeps ∧ t = m.ptrSize
    · obtain ⟨hkeeps, rfl⟩ := hskip
      exact .inl ⟨hkeeps, rfl, by rw [settle_kept hkeeps]⟩
    · rw [settle_called hfreed hskip]
      by_cases hcall : m.alloc = .malloc ∧ (realloc.call m.ptr t).isSome
      · exact .inr (.inl ⟨hcall.1, hcall.2, reallocate_ok hcall⟩)
      · exact .inr (.inr ⟨hskip, hcall, reallocate_failed hcall⟩)

theorem resize_atomic_iff (newSize : Nat) :
    (∀ ret m', memoryResize realloc n m newSize = .ok (ret, m') → ret ≠ 0 → Same m m') ↔
      ResizeKeeps realloc n m newSize := by
  constructor
  · intro h
    refine ⟨fun hfreed => ?_, fun hfreed t ht => ?_⟩
    · have hrun : memoryResize realloc n m newSize
          = .ok (-EFAULT, { m with exactSize := newSize }) := by
        simp only [memoryResize, Memory.blockSize, hfreed, settle]
        rfl
      exact (h _ _ hrun (by decide)).1
    · by_contra hno
      obtain ⟨hskip, hcall, hsize⟩ := by simpa only [not_or] using hno
      have hrun : memoryResize realloc n m newSize = .ok (-EFAULT, zeroed) := by
        rw [memoryResize, ht]
        refine congrArg Except.ok ?_
        rw [settle_called hfreed hskip]
        exact reallocate_failed hcall
      exact hsize (same_zeroed_iff.mp (h _ _ hrun (by decide)))
  · rintro ⟨hfreed, hlive⟩ ret m' hrun hret
    rcases memoryResize_cases hrun with ⟨hf, hr⟩
      | ⟨hf, t, ht, ⟨-, -, h0⟩ | ⟨-, -, h0⟩ | ⟨hskip, hcall, hr⟩⟩
    · obtain ⟨rfl, rfl⟩ := Prod.mk.inj hr
      rw [hfreed hf]
      exact ⟨rfl, fun _ _ => rfl⟩
    · exact absurd h0 hret
    · exact absurd h0 hret
    · obtain ⟨rfl, rfl⟩ := Prod.mk.inj hr
      exact same_zeroed_iff.mpr (((hlive hf t ht).resolve_left hskip).resolve_left hcall)

theorem grow_atomic_iff (size : Nat) :
    (∀ ret pointer m', memoryGrow realloc n m size = .ok (ret, pointer, m') → ret ≠ 0 →
      Same m m') ↔ GrowKeeps realloc n m size := by
  by_cases hrefused : 2 ^ 64 - 1 - size ≤ m.exactSize
  · refine iff_of_true (fun ret pointer m' hrun _ => ?_) (.inl hrefused)
    rw [memoryGrow, if_pos hrefused] at hrun
    cases hrun
    exact ⟨rfl, fun _ _ => rfl⟩
  · rw [GrowKeeps, or_iff_right hrefused, ← resize_atomic_iff]
    constructor
    · intro h ret m' hrun hret
      have hkept : (if ret = 0 ∧ m'.zero = true then clear m' m.exactSize size else m')
        = m' :=
        if_neg fun h => hret h.1
      refine h ret (some m.exactSize) m' ?_ hret
      rw [memoryGrow, if_neg hrefused, hrun]
      exact congrArg (fun m' => Except.ok (ret, some m.exactSize, m')) hkept
    · intro h ret pointer m' hrun hret
      rw [memoryGrow, if_neg hrefused] at hrun
      obtain ⟨⟨ret₁, m₁⟩, hresize, heq⟩ := ok_of_bind hrun
      simp only [Except.ok.injEq, Prod.mk.injEq] at heq
      obtain ⟨rfl, -, rfl⟩ := heq
      rw [if_neg fun h => hret h.1]
      exact h ret₁ m₁ hresize hret

end

/-! ## The cache -/

/-- The memory as the cache sees it: the bytes in use. -/
def Memory.view (m : Memory) : Cache.Memory :=
  match m.alloc with
  | .malloc => .held m.ptrSize ((m.ptr.getD []).take m.exactSize)
  | _ => .freed m.exactSize

/-- `data_memory_t_read` is the read of `memory_t`. -/
theorem memoryRead_view (m : Memory) :
    Cache.memoryRead m.view = fun offset size =>
      .ok (0, (memoryRead m offset size).2) := by
  funext offset size
  refine congrArg (fun bytes => Except.ok ((0 : Int), bytes)) ?_
  unfold Memory.view memoryRead memoryTranslate
  cases m.alloc with
  | freed => simp [Cache.Memory.bytes]
  | other => simp [Cache.Memory.bytes]
  | malloc =>
      simp only [Cache.Memory.bytes]
      rw [List.drop_take, List.take_take]
      by_cases hlt : m.exactSize < offset
      · have h0 : min size (m.exactSize - offset) = 0 := by omega
        rw [if_pos hlt, h0, List.take_zero]
      · by_cases h0 : min size (m.exactSize - offset) = 0
        · rw [if_neg hlt, if_pos h0, h0, List.take_zero]
        · rw [if_neg hlt, if_neg h0]

/-- `data_memory_t_write`. -/
def memoryWriter : Cache.Writer Memory := fun offset bytes m =>
  let r := memoryWrite m offset bytes
  .ok (0, r.1, r.2)

/-- `cache_backend_write`, for a raw buffer. -/
def cacheBackendWrite (m : Memory) (offset size : Nat) (buffer : Option (List UInt8)) :
    Except OutOfFuel (Int × Memory) :=
  match buffer with
  | none => .ok (-EINVAL, m)
  | some buf => do
      let (ret, _, m) ← Cache.rawTransfer buf
        (Cache.sliceWrite offset size memoryWriter) m
      .ok (ret, m)

/-- `cache_backend_create`: its answer and the memory. -/
def cacheBackendCreate (realloc : Realloc) (n : Nat) (m : Memory) (size : Option UInt64)
    (buffer : Option (List UInt8)) : Except Stop (Int × Memory) :=
  match size with
  | none => .ok (errorCode Cache.CACHE_EMODULE 165, m)
  | some sz => do
      let (ret, _, m') ← memoryGrow realloc n m sz.toNat
      -- `cache_fast_create` answers the size, or 0
      if (if ret = 0 then sz.toNat else 0) ≠ sz.toNat
        then .ok (errorCode Cache.CACHE_EMODULE 168, m')
      else
        match cacheBackendWrite m' m.exactSize sz.toNat buffer with
        | .ok (wret, m'') => .ok (if wret ≠ -EINVAL then wret else 0, m'')
        | .error _ => .error .outOfFuel

/-- Every READ is answered alike. -/
def ReadsAlike (m m' : Memory) : Prop :=
  ∀ n offset size buffer, Cache.cacheBackendRead n m'.view offset size buffer
    = Cache.cacheBackendRead n m.view offset size buffer

/-- A memory of the cache in use: whole pages for what it holds. -/
structure Live (m : Memory) (a : List UInt8) : Prop where
  holds : Holds .page Cache.CACHE_PAGE_SIZE m a
  pages : m.ptrSize = Cache.pages a.length
  small : m.ptrSize ≤ Binary.maxObject

/-- The memory of an enabled cache, which may have been lost. -/
def Enabled (m : Memory) : Prop := (∃ a, Live m a) ∨ (m.type = .freed ∧ m.alloc = .freed)

/-- `realloc` has no empty blocks, and none that are larger than an object. -/
def Realloc.Sane (realloc : Realloc) : Prop :=
  ∀ ptr size, (realloc.call ptr size).isSome → 0 < size ∧ size ≤ Binary.maxObject

/-- A failed CREATE changes nothing: no size, or none; a lost memory; a size that is
refused; there is room for it, and the buffer has a byte, if there is one; or there is
none and the memory is empty. -/
def CreateKeeps (realloc : Realloc) (m : Memory) (size : Option UInt64)
    (buffer : Option (List UInt8)) : Prop :=
  ∀ sz, size = some sz → sz ≠ 0 → m.type = .page → m.exactSize < 2 ^ 64 - 1 - sz.toNat →
    if Cache.pages (m.exactSize + sz.toNat) = m.ptrSize ∨
        (realloc.call m.ptr (Cache.pages (m.exactSize + sz.toNat))).isSome
          then buffer ≠ some []
    else m.exactSize = 0

section

variable {realloc : Realloc} {n : Nat} {m m' : Memory} {a : List UInt8}

/-- A write of no bytes answers `-1`, any other 0. -/
theorem cacheBackendWrite_some (m : Memory) (offset size : Nat) (buf : List UInt8) :
    cacheBackendWrite m offset size (some buf) =
      .ok (if min buf.length size = 0 then (-1, m)
        else (0, (memoryWrite m ((0 + offset) % 2 ^ 64) (buf.take size)).2)) := by
  simp only [cacheBackendWrite, Cache.rawTransfer, Cache.sliceWrite,
    if_neg (Nat.not_lt_zero size), Nat.sub_zero]
  by_cases h0 : min buf.length size = 0
  · rw [if_pos h0, if_pos h0]
    rfl
  · rw [if_neg h0, if_neg h0]
    rfl

theorem toNat_eq_zero {sz : UInt64} : sz.toNat = 0 ↔ sz = 0 := by
  rw [← UInt64.toNat_inj]
  rfl

theorem cacheBackendCreate_of_grow {sz : UInt64} {ret : Int} {pointer : Option Nat}
    (hgrow : memoryGrow realloc n m sz.toNat = .ok (ret, pointer, m'))
    (buffer : Option (List UInt8)) : cacheBackendCreate realloc n m (some sz) buffer =
      if ret ≠ 0 ∧ sz ≠ 0 then .ok (errorCode Cache.CACHE_EMODULE 168, m')
      else
        match buffer with
        | none => .ok (0, m')
        | some buf => .ok (if min buf.length sz.toNat = 0 then (-1, m')
            else (0, (memoryWrite m' ((0 + m.exactSize) % 2 ^ 64)
              (buf.take sz.toNat)).2)) := by
  have hfail : (if ret = 0 then sz.toNat else 0) ≠ sz.toNat ↔ ret ≠ 0 ∧ sz ≠ 0 := by
    by_cases hret : ret = 0
    · simp [hret]
    · rw [if_neg hret, and_iff_right hret, ne_eq, ne_eq, ← toNat_eq_zero]
      exact not_congr eq_comm
  rw [cacheBackendCreate, hgrow]
  change (if (if ret = 0 then sz.toNat else 0) ≠ sz.toNat then _ else _) = _
  by_cases h : ret ≠ 0 ∧ sz ≠ 0
  · rw [if_pos (hfail.mpr h), if_pos h]
  · rw [if_neg (mt hfail.mp h), if_neg h]
    cases buffer with
    | none => rfl
    | some buf =>
        rw [cacheBackendWrite_some]
        by_cases h0 : min buf.length sz.toNat = 0
        · simp only [if_pos h0]
          exact congrArg (fun r => Except.ok (r, m'))
            (if_pos (by decide : (-1 : Int) ≠ -EINVAL))
        · simp only [if_neg h0]
          exact congrArg (fun r => Except.ok (r, _))
            (if_pos (by decide : (0 : Int) ≠ -EINVAL))

theorem Live.view (h : Live m a) : m.view = .held m.ptrSize a := by
  rw [Memory.view, h.holds.alloc, h.holds.bytes]

theorem view_of_freed (h : m.alloc = .freed) : m.view.bytes = [] := by
  rw [Memory.view, h]
  rfl

/-! ## Reads -/

theorem cacheBackendRead_congr {m m' : Cache.Memory} (h : m'.bytes = m.bytes) (n : Nat)
    (offset size : Option UInt64) (buffer : Option (List UInt8)) :
    Cache.cacheBackendRead n m' offset size buffer = Cache.cacheBackendRead n m offset
      size buffer := by
  have hread : Cache.memoryRead m' = Cache.memoryRead m := by
    funext offset size
    rw [Cache.memoryRead, h]
    rfl
  unfold Cache.cacheBackendRead
  rw [hread]

theorem cacheBackendRead_one {m : Cache.Memory} (hlen : m.bytes.length < 2 ^ 64 - 1)
    {i : Nat} (hi : i ≤ m.bytes.length) (x : UInt8) :
    Returns (fun n => Cache.cacheBackendRead n m (some (.ofNat i)) none (some [x]))
      ⟨0, none, some [(m.bytes[i]?).getD x], none⟩ := by
  have hoff : Cache.offsetOr (some (.ofNat i)) = i := by
    simp only [Cache.offsetOr, Option.map_some, Option.getD_some, UInt64.toNat_ofNat']
    exact Nat.mod_eq_of_lt (by omega)
  have hserved :=
    Cache.served_slice (Cache.holds_memoryRead m) (.inr rfl) (by omega) (2 ^ 64 - 1) hi
  have heof : ¬ 2 ^ 64 - 1 ≤ m.bytes.length - i := by omega
  rw [if_neg heof] at hserved
  have hdata : ((m.bytes.drop i).take (2 ^ 64 - 1))[0]? = m.bytes[i]? := by
    rw [List.getElem?_take_of_lt (by decide), List.getElem?_drop, Nat.add_zero]
  have hfill : Cache.fillFront ((m.bytes.drop i).take (2 ^ 64 - 1)) [x]
      (min ((m.bytes.drop i).take (2 ^ 64 - 1)).length [x].length)
        = [(m.bytes[i]?).getD x] := by
    rw [← hdata]
    cases (m.bytes.drop i).take (2 ^ 64 - 1) with
    | nil => rfl
    | cons b bs => simp [Cache.fillFront]
  refine ⟨((m.bytes.drop i).take (2 ^ 64 - 1)).length + 1, fun n hn => ?_⟩
  have hrun := Cache.convertTo_buffer hserved [x] hn (.inr rfl)
  rw [hfill] at hrun
  have hsize : Cache.sizeOr none = 2 ^ 64 - 1 := rfl
  simp only [Cache.cacheBackendRead, hoff, hsize, hrun]
  rfl

theorem bytes_eq_of_readsAlike (h : m.view.bytes.length < 2 ^ 64 - 1)
    (h' : m'.view.bytes.length < 2 ^ 64 - 1) (hreads : ReadsAlike m m') :
    m'.view.bytes = m.view.bytes := by
  -- up to the shorter length, and at it, both give the same byte, whatever was in the
  -- buffer
  have hbyte : ∀ i ≤ min m.view.bytes.length m'.view.bytes.length, ∀ x,
      (m'.view.bytes[i]?).getD x = (m.view.bytes[i]?).getD x := by
    intro i hi x
    have hread := cacheBackendRead_one h (hi.trans (min_le_left _ _)) x
    have hread' := cacheBackendRead_one h' (hi.trans (min_le_right _ _)) x
    simp only [hreads _ _ _ _] at hread'
    have heq := congrArg Cache.Reply.buffer (hread'.unique hread)
    exact List.singleton_inj.mp (Option.some.inj heq)
  have hget : ∀ i ≤ min m.view.bytes.length m'.view.bytes.length,
      m'.view.bytes[i]? = m.view.bytes[i]? := by
    intro i hi
    have h0 := hbyte i hi 0
    have h1 := hbyte i hi 1
    cases hb : m.view.bytes[i]? with
    | none =>
        cases hb' : m'.view.bytes[i]? with
        | none => rfl
        | some b' =>
            simp only [hb, hb', Option.getD_none, Option.getD_some] at h0 h1
            exact absurd (h0.symm.trans h1) (by decide)
    | some b =>
        cases hb' : m'.view.bytes[i]? with
        | none =>
            simp only [hb, hb', Option.getD_none, Option.getD_some] at h0 h1
            exact absurd (h0.trans h1.symm) (by decide)
        | some b' =>
            simp only [hb, hb', Option.getD_some] at h0
            rw [h0]
  have hlen : m'.view.bytes.length = m.view.bytes.length := by
    have hmin := hget _ le_rfl
    rcases Nat.lt_trichotomy m.view.bytes.length m'.view.bytes.length with hlt | heq | hlt
    · rw [Nat.min_eq_left hlt.le, List.getElem?_eq_none le_rfl,
        List.getElem?_eq_getElem hlt] at hmin
      cases hmin
    · exact heq.symm
    · rw [Nat.min_eq_right hlt.le, List.getElem?_eq_getElem hlt,
        List.getElem?_eq_none le_rfl] at hmin
      cases hmin
  apply List.ext_getElem?
  intro i
  by_cases hi : i ≤ min m.view.bytes.length m'.view.bytes.length
  · exact hget i hi
  · rw [List.getElem?_eq_none (by omega), List.getElem?_eq_none (by omega)]

/-! ## Creating -/

theorem pages_lt {s : Nat} (hs : s < 2 ^ 64) (hpos : Cache.pages s ≠ 0) :
    s < Cache.pages s := by
  have hdiv := Nat.div_add_mod s Cache.CACHE_PAGE_SIZE
  have hmod := Nat.mod_lt s (by decide : 0 < Cache.CACHE_PAGE_SIZE)
  unfold Cache.pages Cache.CACHE_PAGE_SIZE at *
  omega

theorem blockSize_page (h : m.type = .page)
    (hpage : m.pageSize = Cache.CACHE_PAGE_SIZE) (newSize : Nat) :
    m.blockSize n newSize = .ok (Cache.pages newSize) := by
  simp only [Memory.blockSize, h, hpage]
  exact if_neg (by decide)

theorem Live.length_lt (h : Live m a) : a.length < 2 ^ 63 := by
  have hroom := h.holds.room
  have hsmall := h.small
  rw [h.holds.length]
  unfold Binary.maxObject at hsmall
  omega

theorem Live.grow (h : Live m a) (hsane : realloc.Sane) {size : Nat}
    (hpass : a.length < 2 ^ 64 - 1 - size)
    (hroom : Cache.pages (a.length + size) = m.ptrSize ∨
      (realloc.call m.ptr (Cache.pages (a.length + size))).isSome) :
    ∃ m', memoryGrow realloc n m size = .ok (0, some a.length, m') ∧
      Live m' (a ++ List.replicate size 0) := by
  have hsize : 0 < Cache.pages (a.length + size) ∧
      Cache.pages (a.length + size) ≤ Binary.maxObject := by
    rcases hroom with hroom | hroom
    · rw [hroom]
      refine ⟨?_, h.small⟩
      have hlt := h.length_lt
      rw [h.pages]
      unfold Cache.pages Cache.CACHE_PAGE_SIZE
      omega
    · exact hsane _ _ hroom
  have hle := (pages_lt (by omega : a.length + size < 2 ^ 64) hsize.1.ne').le
  obtain ⟨m', hm', ht, hgrow⟩ := h.holds.grow_settled (by decide) (by omega)
    hle fun hno =>
    hroom.resolve_left fun heq => hno ⟨.inl h.holds.typeEq, heq⟩
  refine ⟨m', hgrow n (blockSize_page h.holds.typeEq h.holds.pageEq _), hm', ?_,
    ht.trans_le hsize.2⟩
  rw [ht, List.length_append, List.length_replicate]

/-- A live memory is lost, if `realloc` is asked for a block and does not give one. -/
theorem Live.grow_failed (h : Live m a) {size : Nat}
    (hpass : a.length < 2 ^ 64 - 1 - size)
    (hroom : ¬ (Cache.pages (a.length + size) = m.ptrSize ∨
      (realloc.call m.ptr (Cache.pages (a.length + size))).isSome)) :
    memoryGrow realloc n m size = .ok (-EFAULT, some a.length, zeroed) := by
  obtain ⟨hkept, hcall⟩ := not_or.mp hroom
  have hfreed : m.type ≠ .freed := by
    rw [h.holds.typeEq]
    decide
  have hresize : memoryResize realloc n m (a.length + size) = .ok (-EFAULT, zeroed) := by
    rw [memoryResize, blockSize_page h.holds.typeEq h.holds.pageEq]
    refine congrArg Except.ok ?_
    rw [settle_called hfreed fun hkeep => hkept hkeep.2]
    exact reallocate_failed fun hok => hcall hok.2
  rw [h.holds.length] at hresize hpass ⊢
  rw [memoryGrow, if_neg (by omega), hresize]
  rfl

theorem grow_freed (h : m.type = .freed) (size : Nat) :
    ∃ ret pointer m', memoryGrow realloc n m size = .ok (ret, pointer, m') ∧
      m'.type = m.type ∧ m'.alloc = m.alloc := by
  by_cases hpass : 2 ^ 64 - 1 - size ≤ m.exactSize
  · exact ⟨-EINVAL, none, m, by rw [memoryGrow, if_pos hpass], rfl, rfl⟩
  · refine ⟨-EFAULT, some m.exactSize, { m with exactSize := m.exactSize + size },
      ?_, rfl, rfl⟩
    have hresize : memoryResize realloc n m (m.exactSize + size)
        = .ok (-EFAULT, { m with exactSize := m.exactSize + size }) := by
      simp only [memoryResize, Memory.blockSize, h, settle]
      rfl
    rw [memoryGrow, if_neg hpass, hresize]
    rfl

/-- A CREATE that leaves the bytes as they are changes no read. -/
theorem readsAlike_create {sz : UInt64} {ret : Int} {pointer : Option Nat}
    {buffer : Option (List UInt8)}
    (hgrow : memoryGrow realloc n m sz.toNat = .ok (ret, pointer, m'))
    (hbytes : m'.view.bytes = m.view.bytes) {r : Int × Memory}
    (hrun : cacheBackendCreate realloc n m (some sz) buffer = .ok r) (hneg : r.1 < 0) :
    ReadsAlike m r.2 := by
  have hkept : r.2 = m' := by
    rw [cacheBackendCreate_of_grow hgrow] at hrun
    split_ifs at hrun with hfail
    · exact (congrArg Prod.snd (Except.ok.inj hrun)).symm
    · cases buffer with
      | none => exact (congrArg Prod.snd (Except.ok.inj hrun)).symm
      | some buf =>
          obtain rfl := Except.ok.inj hrun
          split_ifs at hneg ⊢ with h0
          · rfl
          · exact absurd hneg (lt_irrefl 0)
  rw [hkept]
  exact fun n offset size buffer => cacheBackendRead_congr hbytes n offset size buffer

section

variable {sz : UInt64} {buffer : Option (List UInt8)}

/-- The memory has grown: CREATE fails if it has an empty buffer to write, and there are
more bytes then. -/
theorem create_grown_iff (ha : Live m a) (hsane : realloc.Sane) (hsz : sz ≠ 0)
    (hpass : a.length < 2 ^ 64 - 1 - sz.toNat)
    (hroom : Cache.pages (a.length + sz.toNat) = m.ptrSize ∨
      (realloc.call m.ptr (Cache.pages (a.length + sz.toNat))).isSome) :
    (∀ ret m', cacheBackendCreate realloc n m (some sz) buffer = .ok (ret, m') →
      ret < 0 → ReadsAlike m m') ↔ buffer ≠ some [] := by
  obtain ⟨m', hgrow, hm'⟩ := ha.grow (n := n) hsane hpass hroom
  have hcreate := cacheBackendCreate_of_grow hgrow buffer
  rw [if_neg fun h => h.1 rfl] at hcreate
  rcases buffer with _ | _ | ⟨b, bs⟩
  · refine iff_of_true (fun ret m₁ hrun hneg => ?_) (by simp)
    cases hcreate.symm.trans hrun
    exact absurd hneg (lt_irrefl 0)
  · -- nothing is written, but the memory has grown
    refine iff_of_false (fun h => ?_) (not_not.mpr rfl)
    have halike := h (-1) m' hcreate (by decide)
    have hbytes := bytes_eq_of_readsAlike (ha.view ▸ lt_trans ha.length_lt (by decide))
      (hm'.view ▸ lt_trans hm'.length_lt (by decide)) halike
    rw [ha.view, hm'.view] at hbytes
    have hlen := congrArg List.length hbytes
    simp only [Cache.Memory.bytes, List.length_append, List.length_replicate] at hlen
    exact hsz (toNat_eq_zero.mp (by omega))
  · refine iff_of_true (fun ret m₁ hrun hneg => ?_) (by simp)
    have hpos : min (b :: bs).length sz.toNat ≠ 0 := by
      have hne := mt toNat_eq_zero.mp hsz
      rw [List.length_cons]
      omega
    simp only [if_neg hpos] at hcreate
    cases hcreate.symm.trans hrun
    exact absurd hneg (lt_irrefl 0)

/-- The memory is lost: that is no change if there was nothing in it. -/
theorem create_lost_iff (ha : Live m a) (hsz : sz ≠ 0)
    (hpass : a.length < 2 ^ 64 - 1 - sz.toNat)
    (hroom : ¬ (Cache.pages (a.length + sz.toNat) = m.ptrSize ∨
      (realloc.call m.ptr (Cache.pages (a.length + sz.toNat))).isSome)) :
    (∀ ret m', cacheBackendCreate realloc n m (some sz) buffer = .ok (ret, m') →
      ret < 0 → ReadsAlike m m') ↔ a.length = 0 := by
  have hgrow := ha.grow_failed (n := n) hpass hroom
  have hcreate := cacheBackendCreate_of_grow hgrow buffer
  rw [if_pos ⟨by decide, hsz⟩] at hcreate
  constructor
  · intro h
    have halike := h _ _ hcreate (lt_of_le_of_lt (errorCode_lt _ _) (by decide))
    have hbytes := bytes_eq_of_readsAlike (ha.view ▸ lt_trans ha.length_lt (by decide))
        (by decide) halike
    rw [ha.view] at hbytes
    exact (congrArg List.length hbytes).symm
  · rintro h ret m₁ hrun -
    cases hcreate.symm.trans hrun
    refine fun n offset size buffer => cacheBackendRead_congr ?_ n offset size buffer
    rw [ha.view]
    exact (List.length_eq_zero_iff.mp h).symm

/-- Nothing is asked for, the new size has no room in its type, or the memory
was lost before. -/
theorem create_alike (hm : Enabled m) (hsane : realloc.Sane)
    (hno : ¬ (sz ≠ 0 ∧ m.type = .page ∧ m.exactSize < 2 ^ 64 - 1 - sz.toNat))
    {ret : Int} {m' : Memory}
    (hrun : cacheBackendCreate realloc n m (some sz) buffer = .ok (ret, m'))
    (hneg : ret < 0) : ReadsAlike m m' := by
  rcases hm with ⟨a, ha⟩ | ⟨htype, halloc⟩
  · by_cases hpass : 2 ^ 64 - 1 - sz.toNat ≤ m.exactSize
    · have hgrow : memoryGrow realloc n m sz.toNat = .ok (-EINVAL, none, m) :=
        if_pos hpass
      exact readsAlike_create hgrow rfl hrun hneg
    · have hsz : sz = 0 := by
        by_contra hsz
        exact hno ⟨hsz, ha.holds.typeEq, by omega⟩
      subst hsz
      have hpass₀ : a.length < 2 ^ 64 - 1 - (0 : UInt64).toNat :=
        lt_trans ha.length_lt (by decide)
      obtain ⟨m₁, hgrow, hm₁⟩ := ha.grow (n := n) hsane hpass₀ (.inl ha.pages.symm)
      refine readsAlike_create hgrow ?_ hrun hneg
      rw [hm₁.view, ha.view]
      exact List.append_nil a
  · obtain ⟨ret₁, pointer, m₁, hgrow, -, halloc₁⟩ :=
      @grow_freed realloc n m htype sz.toNat
    refine readsAlike_create hgrow ?_ hrun hneg
    rw [view_of_freed halloc, view_of_freed (halloc₁.trans halloc)]

end

theorem create_atomic_iff (hm : Enabled m) (hsane : realloc.Sane) (size : Option UInt64)
    (buffer : Option (List UInt8)) :
    (∀ ret m', cacheBackendCreate realloc n m size buffer = .ok (ret, m') → ret < 0 →
      ReadsAlike m m') ↔ CreateKeeps realloc m size buffer := by
  have hfreed : m.type = .freed → m.type ≠ .page := fun h => by
    rw [h]
    decide
  cases size with
  | none =>
      refine iff_of_true (fun ret m' hrun _ => ?_) fun sz hsz => by cases hsz
      cases hrun
      exact fun _ _ _ _ => rfl
  | some sz =>
      by_cases hkept : sz ≠ 0 ∧ m.type = .page ∧ m.exactSize < 2 ^ 64 - 1 - sz.toNat
      · obtain ⟨hsz, htype, hpass⟩ := hkept
        obtain ⟨a, ha⟩ : ∃ a, Live m a := hm.resolve_right fun h => hfreed h.1 htype
        have hkeeps : CreateKeeps realloc m (some sz) buffer ↔
            if Cache.pages (a.length + sz.toNat) = m.ptrSize ∨
              (realloc.call m.ptr (Cache.pages (a.length + sz.toNat))).isSome
                then buffer ≠ some []
            else a.length = 0 := by
          rw [ha.holds.length]
          exact ⟨fun h => h sz rfl hsz htype hpass,
            fun h s hs _ _ _ => by cases hs; exact h⟩
        rw [hkeeps]
        rw [← ha.holds.length] at hpass
        split_ifs with hroom
        · exact create_grown_iff ha hsane hsz hpass hroom
        · exact create_lost_iff ha hsz hpass hroom
      · refine iff_of_true (fun ret m' hrun hneg =>
          create_alike hm hsane hkept hrun hneg) fun s hs h₁ h₂ h₃ => ?_
        cases hs
        exact absurd ⟨h₁, h₂, h₃⟩ hkept

theorem Enabled.write (h : Enabled m) (offset : Nat) (bytes : List UInt8) :
    Enabled (memoryWrite m offset bytes).2 := by
  rcases h with ⟨a, ha⟩ | ⟨htype, halloc⟩
  · obtain ⟨m', hwrite, hm'⟩ := ha.holds.write offset bytes
    have hptr : (memoryWrite m offset bytes).2.ptrSize = m.ptrSize := by
      unfold memoryWrite
      split <;> rfl
    rw [hwrite] at hptr ⊢
    refine .inl ⟨_, hm', ?_, hptr.trans_le ha.small⟩
    rw [hptr, ha.pages]
    simp [overwrite]
  · have htranslate : memoryTranslate m offset bytes.length = .error (-EFAULT) := by
      rw [memoryTranslate, halloc]
    rw [memoryWrite, htranslate]
    exact .inr ⟨htype, halloc⟩

theorem Enabled.grow (h : Enabled m) (hsane : realloc.Sane) (size : Nat) :
    ∃ ret pointer m', memoryGrow realloc n m size = .ok (ret, pointer, m') ∧
      Enabled m' := by
  rcases h with ⟨a, ha⟩ | ⟨htype, halloc⟩
  · by_cases hpass : a.length < 2 ^ 64 - 1 - size
    · by_cases hroom : Cache.pages (a.length + size) = m.ptrSize ∨
          (realloc.call m.ptr (Cache.pages (a.length + size))).isSome
      · obtain ⟨m', hgrow, hm'⟩ := ha.grow (n := n) hsane hpass hroom
        exact ⟨_, _, m', hgrow, .inl ⟨_, hm'⟩⟩
      · exact ⟨_, _, zeroed, ha.grow_failed hpass hroom, .inr ⟨rfl, rfl⟩⟩
    · rw [ha.holds.length] at hpass
      exact ⟨_, _, m, if_pos (Nat.not_lt.mp hpass), .inl ⟨a, ha⟩⟩
  · obtain ⟨ret, pointer, m', hgrow, htype', halloc'⟩ :=
      @grow_freed realloc n m htype size
    exact ⟨ret, pointer, m', hgrow, .inr ⟨htype'.trans htype, halloc'.trans halloc⟩⟩

theorem Enabled.create (h : Enabled m) (hsane : realloc.Sane) (size : Option UInt64)
    (buffer : Option (List UInt8)) :
    ∃ ret m', cacheBackendCreate realloc n m size buffer = .ok (ret, m') ∧
      Enabled m' := by
  cases size with
  | none => exact ⟨_, m, rfl, h⟩
  | some sz =>
      obtain ⟨ret, pointer, m', hgrow, hm'⟩ := h.grow (n := n) hsane sz.toNat
      rw [cacheBackendCreate_of_grow hgrow]
      by_cases hfail : ret ≠ 0 ∧ sz ≠ 0
      · exact ⟨_, m', if_pos hfail, hm'⟩
      · rw [if_neg hfail]
        cases buffer with
        | none => exact ⟨0, m', rfl, hm'⟩
        | some buf =>
            by_cases h0 : min buf.length sz.toNat = 0
            · exact ⟨-1, m', congrArg Except.ok (if_pos h0), hm'⟩
            · exact ⟨0, _, congrArg Except.ok (if_neg h0), hm'.write _ _⟩

end

/-- **Atomicity.**  When a failed resize, a failed grow and a failed
CREATE lose nothing. -/
theorem failure_atomic_iff (realloc : Realloc) (n : Nat) (m : Memory) :
    (∀ newSize, (∀ ret m', memoryResize realloc n m newSize = .ok (ret, m') → ret ≠ 0 →
      Same m m') ↔
        ResizeKeeps realloc n m newSize) ∧
      (∀ size, (∀ ret pointer m',
        memoryGrow realloc n m size = .ok (ret, pointer, m') → ret ≠ 0 → Same m m') ↔
        GrowKeeps realloc n m size) ∧
      (Enabled m → realloc.Sane → ∀ size buffer,
        (∀ ret m', cacheBackendCreate realloc n m size buffer = .ok (ret, m') →
          ret < 0 → ReadsAlike m m') ↔ CreateKeeps realloc m size buffer) :=
  ⟨resize_atomic_iff, grow_atomic_iff, create_atomic_iff⟩

/-- A `realloc` that gives nothing. -/
def noMemory : Realloc where
  call _ _ := none
  length h := by cases h
  keeps h := by cases h

/-- A page with three bytes in use. -/
def threeBytes : Memory where
  ptr := some ([1, 2, 3] ++ List.replicate 4093 0)
  ptrSize := 4096
  exactSize := 3
  pageSize := 4096
  zero := true
  type := .page
  alloc := .malloc

theorem live_threeBytes : Live threeBytes [1, 2, 3] where
  holds := by
    refine ⟨rfl, rfl, rfl, rfl, ?_, by decide, rfl⟩
    change (([1, 2, 3] : List UInt8) ++ List.replicate 4093 0).length = 4096
    rw [List.length_append, List.length_replicate]
    rfl
  pages := rfl
  small := by decide

/-- With no memory left, growing by a page loses the three bytes. -/
theorem grow_loses_bytes :
    ∃ m', memoryGrow noMemory 0 threeBytes 4096 = .ok (-EFAULT, some 3, m') ∧
      memorySize threeBytes = 3 ∧ memoryRead threeBytes 0 3 = (3, [1, 2, 3]) ∧
      memorySize m' = 0 ∧ memoryRead m' 0 3 = (0, []) :=
  ⟨zeroed, rfl, rfl, rfl, rfl, rfl⟩

/-- With no memory left, a CREATE that fits into the page keeps what there is, unless
its buffer has no byte. -/
theorem failure_atomic_iff_threeBytes :
    Enabled threeBytes ∧ noMemory.Sane ∧ ∀ size buffer,
      (∀ ret m', cacheBackendCreate noMemory 0 threeBytes size buffer = .ok (ret, m') →
        ret < 0 →
        ReadsAlike threeBytes m') ↔ CreateKeeps noMemory threeBytes size buffer :=
  have hm : Enabled threeBytes := .inl ⟨[1, 2, 3], live_threeBytes⟩
  have hsane : noMemory.Sane := fun _ _ h => by cases h
  ⟨hm, hsane, (failure_atomic_iff noMemory 0 threeBytes).2.2 hm hsane⟩

end Frozen.Block
