/-
# `Frozen.Cache.Flush` — what `cache_disable` leaves in the file

The transfer of the memory to the file ends: `memory_t` never says that it is at its
end, but a write of no bytes to the file does.  It writes over the front of the file and
never makes it shorter, so the file has the bytes of the cache exactly if the cache has
not become shorter than the file.
-/
import Frozen.Cache.Transparent

namespace Frozen.Cache

open Lib

/-! ## Memory that is written to a file -/

/-- Memory in pages that exist, with room behind the last byte. -/
def Roomy : Memory → Prop
  | .freed _ => True
  | .held ptrSize bytes => bytes.length < ptrSize ∧ ptrSize ≤ Binary.maxObject

theorem lt_pages {size : Nat} (hsize : size < 2 ^ 64) (h : pages size ≠ 0) :
    size < pages size := by
  have hdiv := Nat.div_add_mod size CACHE_PAGE_SIZE
  have hmod : size % CACHE_PAGE_SIZE < CACHE_PAGE_SIZE := Nat.mod_lt _ (by decide)
  unfold pages CACHE_PAGE_SIZE at *
  omega

theorem Roomy.resize (junk : Nat → UInt8) {m : Memory} (h : Roomy m) {size : Nat}
    (hsize : size < 2 ^ 64) : Roomy (m.resize junk size).2 := by
  cases m with
  | freed exactSize => trivial
  | held ptrSize bytes =>
      simp only [Memory.resize]
      split_ifs with hsame hrefused
      · have hpos : pages size ≠ 0 := by
          have hroom := h.1
          omega
        exact ⟨by rw [length_refit, ← hsame]; exact lt_pages hsize hpos, h.2⟩
      · trivial
      · obtain ⟨hpos, hfit⟩ := not_or.mp hrefused
        exact ⟨by rw [length_refit]; exact lt_pages hsize hpos, Nat.le_of_not_lt hfit⟩

theorem Memory.resize_held {junk : Nat → UInt8} {m : Memory} {size p : Nat}
    {bytes : List UInt8} {ret : Int} (h : m.resize junk size = (ret, .held p bytes)) :
    bytes.length = size := by
  cases m with
  | freed exactSize => cases h
  | held ptrSize old =>
      simp only [Memory.resize] at h
      split_ifs at h <;> cases h <;> exact length_refit

theorem Roomy.grow (junk : Nat → UInt8) {m : Memory} (h : Roomy m) (size : Nat) :
    Roomy (m.grow junk size).2 := by
  unfold Memory.grow
  split
  · exact h
  · next hguard =>
      have hroomy := h.resize junk (show m.size + size < _ by omega)
      split
      · next p bytes hresize =>
          rw [hresize] at hroomy
          have hlen := Memory.resize_held hresize
          refine ⟨?_, hroomy.2⟩
          have hlt := hroomy.1
          simp only [List.length_append, List.length_take, List.length_replicate,
            List.length_drop]
          omega
      · exact hroomy

theorem Roomy.write {m : Memory} (h : Roomy m) (offset size : Option UInt64)
    (buffer : Option (List UInt8)) :
    ∃ reply m', cacheBackendWrite m offset size buffer = .ok (reply, m') ∧ Roomy m' := by
  have hwrite : ∀ off bytes, ∃ k m', memoryWrite off bytes m = .ok (0, k, m') ∧
      Roomy m' := by
    intro off bytes
    cases m with
    | freed exactSize => exact ⟨_, _, rfl, trivial⟩
    | held p mem =>
        refine ⟨_, _, rfl, ?_, h.2⟩
        have hlt := h.1
        simp only [patch, List.length_append, List.length_take, List.length_drop]
        omega
  cases buffer with
  | none => exact ⟨_, m, rfl, h⟩
  | some buf =>
      simp only [cacheBackendWrite, rawTransfer, sliceWrite, if_neg (Nat.not_lt_zero _)]
      by_cases hnone : min buf.length (sizeOr size - 0) = 0
      · rw [if_pos hnone]
        exact ⟨_, m, rfl, h⟩
      · obtain ⟨k, m', hrun, hroomy⟩ :=
          hwrite ((0 + offsetOr offset) % 2 ^ 64) (buf.take (sizeOr size - 0))
        rw [if_neg hnone, hrun]
        exact ⟨_, m', rfl, hroomy⟩

/-! ## Requests that the cache keeps to itself -/

/-- `CREATE`, `WRITE` and `DELETE`. -/
def Request.Stores : Request → Prop
  | .create _ _ _ | .write _ _ _ | .delete _ _ _ => True
  | .read _ _ _ | .move _ _ _ | .count _ => False

section

variable {junk : Nat → UInt8} {bufferSize : Nat} {m : Memory} {f : File}

theorem stores_step (h : Roomy m) {request : Request} (hstores : request.Stores) :
    ∃ reply m', Returns (fun n => cacheQuery junk bufferSize n ⟨some m, f⟩ request)
      (reply, ⟨some m', f⟩) ∧ Roomy m' := by
  cases request with
  | create size buffer offsetOut =>
      cases size with
      | none => exact ⟨_, m, .of_forall fun n => rfl, h⟩
      | some sz =>
          have hgrow := h.grow junk sz.toNat
          obtain ⟨reply, m', hwrite, hroomy⟩ :=
            hgrow.write (some (.ofNat m.size)) (some sz) buffer
          simp only [cacheQuery, cacheBackendCreate]
          by_cases hfailed : (if (m.grow junk sz.toNat).1 = 0 then sz.toNat else 0)
            ≠ sz.toNat
          · simp only [if_pos hfailed]
            exact ⟨_, _, .of_forall fun n => rfl, hgrow⟩
          · simp only [if_neg hfailed, hwrite]
            exact ⟨_, m', .of_forall fun n => rfl, hroomy⟩
  | write offset size buffer =>
      obtain ⟨reply, m', hwrite, hroomy⟩ := h.write offset size buffer
      refine ⟨reply, m', .of_forall fun n => ?_, hroomy⟩
      simp only [cacheQuery, hwrite]
      rfl
  | delete offset size forced =>
      refine ⟨_, _, .of_forall fun n => rfl, ?_⟩
      unfold cacheBackendDelete
      split
      · exact h
      · exact h
      · next o s =>
          have hfast : Roomy (cacheFastDelete junk m o.toNat s.toNat).2 := by
            have hresize := h.resize junk o.toNat_lt
            simp only [cacheFastDelete]
            split_ifs
            · exact h
            · exact hresize
            · exact hresize
          simp only
          split <;> exact hfast
  | read offset size buffer => cases hstores
  | move offsetFrom offsetTo size => cases hstores
  | count buffer => cases hstores

theorem stores_run (h : Roomy m) {requests : List Request}
    (hstores : ∀ r ∈ requests, r.Stores) :
    ∃ replies m', Returns
      (fun n => answers (cacheQuery junk bufferSize n) ⟨some m, f⟩ requests)
      (replies, ⟨some m', f⟩) ∧ Roomy m' := by
  induction requests generalizing m with
  | nil => exact ⟨[], m, .of_forall fun n => rfl, h⟩
  | cons request requests ih =>
      obtain ⟨hfirst, hrest⟩ := List.forall_mem_cons.mp hstores
      obtain ⟨reply, m₁, hquery, hroomy⟩ := stores_step h hfirst
      obtain ⟨replies, m', hrun, hroomy'⟩ := ih hroomy hrest
      exact ⟨reply :: replies, m', answers_cons hquery hrun, hroomy'⟩

/-! ## The flush -/

theorem served_memoryRead (m : Memory) : Served (memoryRead m) m.bytes 0 := by
  refine ⟨fun o _ => ⟨DEF_BUFFER_SIZE, by decide, rfl⟩, ?_, .inr rfl⟩
  rw [memoryRead, List.drop_length, List.take_nil]

/-- Bytes that follow those that are there, written to the file. -/
theorem backendWrite_next {data old : List UInt8} {stat : Option Nat} {w k : Nat}
    (hdata : data.length < OFF_MAX) (hw : w < data.length) (hk : 0 < k) :
    backendWrite w ((data.drop w).take k) ⟨fillFront data old w, stat⟩ =
      .ok (0, ((data.drop w).take k).length,
        ⟨fillFront data old (w + ((data.drop w).take k).length), none⟩) := by
  have hlen : ((data.drop w).take k).length = min k (data.length - w) := by
    rw [List.length_take, List.length_drop]
  have hsize : sizeOr (some (.ofNat ((data.drop w).take k).length))
      = ((data.drop w).take k).length := by
    refine Nat.mod_eq_of_lt ?_
    unfold OFF_MAX at hdata
    omega
  have hoff : (0 + offsetOr (some (.ofNat w))) % 2 ^ 64 = w := by
    have hlt : w < 2 ^ 64 := by
      unfold OFF_MAX at hdata
      omega
    have hoffset : offsetOr (some (.ofNat w)) = w := Nat.mod_eq_of_lt hlt
    rw [Nat.zero_add, hoffset, Nat.mod_eq_of_lt hlt]
  have hpos : 0 < ((data.drop w).take k).length := by omega
  have htake : (data.drop w).take ((data.drop w).take k).length
      = (data.drop w).take k := by
    rw [List.length_take, ← List.take_take, List.take_length]
  have hnext := fillFront_next data old (w := w)
    (k := ((data.drop w).take k).length) (by omega)
  rw [htake] at hnext
  have hfront : w ≤ (fillFront data old w).length := by
    simp only [fillFront, List.length_append, List.length_take]
    omega
  have hwrite : pwrite (fillFront data old w) w ((data.drop w).take k) =
      .ok (((data.drop w).take k).length,
        fillFront data old (w + ((data.drop w).take k).length)) := by
    rw [pwrite_inside (List.ne_nil_of_length_pos hpos) hfront (by omega), patch]
    exact congrArg _ (congrArg _ hnext)
  simp only [backendWrite, fileWrite, rawTransfer, sliceWrite,
    if_neg (Nat.not_lt_zero _), hsize, hoff,
    Nat.sub_zero, min_self, if_neg hpos.ne', List.take_length, fileIoWrite, hwrite]
  rfl

theorem backendWrite_nil (w : Nat) (f : File) :
    backendWrite w [] f = .ok (-1, 0, { f with stat := none }) := by
  simp [backendWrite, fileWrite, rawTransfer, sliceWrite]
  rfl

/-- The memory is written over the front of the file. -/
theorem cacheDisable_returns (h : Roomy m) (f : File) :
    Returns (fun n => cacheDisable n ⟨some m, f⟩)
      ⟨none, ⟨m.bytes ++ f.bytes.drop m.bytes.length, none⟩⟩ := by
  have hdata : m.bytes.length < OFF_MAX := by
    cases m with
    | freed exactSize => exact Nat.sub_pos_of_lt (Nat.one_lt_two_pow (by decide))
    | held p bytes => exact lt_of_lt_of_le h.1 h.2
  have hcarried : Carried m.bytes 0 backendWrite
      (fun r w s => r ≤ m.bytes.length ∧ w = r ∧ s.bytes = fillFront m.bytes f.bytes r)
      (fun _ s => s = ⟨m.bytes ++ f.bytes.drop m.bytes.length, none⟩) := by
    refine ⟨?_, fun _ _ _ heof => absurd heof (by decide), ?_⟩
    · rintro r w ⟨bytes, stat⟩ k ⟨hr, rfl, rfl⟩ hlt hk
      refine .inr ⟨_, _, backendWrite_next hdata hlt hk, ?_, rfl, rfl⟩
      rw [List.length_take, List.length_drop]
      omega
    · rintro w s ⟨-, rfl, hs⟩ -
      refine ⟨0, _, backendWrite_nil _ s, ?_⟩
      rw [hs, fillFront, List.take_length]
  have hstart : f.bytes = fillFront m.bytes f.bytes 0 := by simp [fillFront]
  refine ⟨m.bytes.length + 1, fun n hn => ?_⟩
  obtain ⟨t, s, hrun, rfl⟩ :=
    convertTo_rule (served_memoryRead m) hcarried ⟨Nat.zero_le _, rfl, hstart⟩
      hn (.inr rfl)
  simp only [cacheDisable, hrun]
  rfl

end

/-- `cache_disable` ends, and the file has what the cache held exactly if that is not
shorter than the file was. -/
theorem cacheDisable_iff (junk : Nat → UInt8) (bufferSize : Nat)
    (content : { bs : List UInt8 // bs.length ≤ OFF_MAX }) (requests : List Request)
    (hstores : ∀ r ∈ requests, r.Stores) :
    ∃ c replies c' d, Returns (fun n => cacheEnable junk n ⟨content.val, none⟩) c ∧
      Returns (fun n => answers (cacheQuery junk bufferSize n) c requests) (replies, c') ∧
      Returns (fun n => cacheDisable n c') d ∧
      (c'.memory.isSome ↔ Cacheable content.val.length) ∧
      ∀ m, c'.memory = some m → ((d.file.bytes.length = m.size ∧ d.file.bytes = m.bytes) ↔
        content.val.length ≤ m.bytes.length) := by
  have hsane : Sane ⟨content.val, none⟩ := ⟨content.property, .inl rfl⟩
  have henable := cacheEnable_returns junk hsane
  by_cases hcacheable : Cacheable content.val.length
  · rw [if_pos hcacheable] at henable
    have hroomy : Roomy (.held (pages content.val.length) content.val) := by
      have hfit := (pages_fit content.property).mpr hcacheable.2
      refine ⟨lt_pages ?_ (pages_pos content.property), hfit⟩
      exact lt_of_le_of_lt content.property (by decide)
    obtain ⟨replies, m, hrun, hroomy'⟩ := stores_run hroomy hstores
    refine ⟨_, replies, _, _, henable, hrun, cacheDisable_returns hroomy' _,
      iff_of_true rfl hcacheable, ?_⟩
    intro m' hm'
    cases hm'
    constructor
    · rintro ⟨-, hbytes⟩
      have hlen := congrArg List.length hbytes
      simp only [List.length_append, List.length_drop] at hlen
      omega
    · intro hle
      have hbytes : m.bytes ++ content.val.drop m.bytes.length = m.bytes := by
        rw [List.drop_eq_nil_of_le hle, List.append_nil]
      have hsize : m.bytes.length = m.size := by
        cases m with
        | freed exactSize => exact absurd hcacheable.1 (Nat.not_lt.mpr hle)
        | held p bytes => rfl
      exact ⟨(congrArg List.length hbytes).trans hsize, hbytes⟩
  · rw [if_neg hcacheable] at henable
    obtain ⟨replies, f', c', -, hrun, hnone⟩ :=
      passing_run junk bufferSize hsane (sane_updated content.property) rfl requests
    refine ⟨_, replies, c', c', henable, hrun, .of_forall fun n => ?_, ?_, ?_⟩
    · rw [cacheDisable, hnone]
    · rw [hnone]
      exact iff_of_false Bool.false_ne_true hcacheable
    · intro m hm
      rw [hnone] at hm
      cases hm

/-- Three bytes, and two more. -/
theorem cacheDisable_iff_grown :
    ∃ c replies c' d, Returns
      (fun n => cacheEnable (fun _ => 0) n ⟨[97, 98, 99], none⟩) c ∧
      Returns (fun n => answers (cacheQuery (fun _ => 0) 1024 n) c
        [.create (some 2) (some [120, 121]) true]) (replies, c') ∧
      Returns (fun n => cacheDisable n c') d ∧
      (c'.memory.isSome ↔ Cacheable 3) ∧
      ∀ m, c'.memory = some m → ((d.file.bytes.length = m.size ∧ d.file.bytes = m.bytes) ↔
        3 ≤ m.bytes.length) := by
  refine cacheDisable_iff (fun _ => 0) 1024 ⟨[97, 98, 99], by decide⟩ _ ?_
  intro r hr
  cases List.mem_singleton.mp hr
  trivial

/-- Two of three bytes deleted: they are in the file still. -/
theorem cacheDisable_keeps_tail :
    ¬∀ (junk : Nat → UInt8) (bufferSize : Nat)
      (content : { bs : List UInt8 // bs.length ≤ OFF_MAX })
      (requests : List Request), (∀ r ∈ requests, r.Stores) →
      ∃ c replies c' d, Returns (fun n => cacheEnable junk n ⟨content.val, none⟩) c ∧
        Returns (fun n => answers (cacheQuery junk bufferSize n) c requests)
          (replies, c') ∧
        Returns (fun n => cacheDisable n c') d ∧
        ∀ m, c'.memory = some m → d.file.bytes.length = m.size ∧
        d.file.bytes = m.bytes := by
  intro hall
  obtain ⟨c, replies, c', d, henable, hrun, hdisable, hsame⟩ :=
    hall (fun _ => 0) 1024 ⟨[97, 98, 99], by decide⟩ [.delete (some 1) (some 2) none]
      (fun r hr => by cases List.mem_singleton.mp hr; trivial)
  have hsane : Sane ⟨[97, 98, 99], none⟩ := ⟨by decide, .inl rfl⟩
  cases henable.unique (cacheEnable_returns (fun _ => 0) hsane)
  have hrun' : Returns (fun n => answers (cacheQuery (fun _ => 0) 1024 n)
      ⟨some (.held (pages 3) [97, 98, 99]), ⟨[97, 98, 99], some 3⟩⟩
      [.delete (some 1) (some 2) none])
      ([⟨0, some 2, none, none⟩],
        ⟨some (.held (pages 1) [97]), ⟨[97, 98, 99], some 3⟩⟩) :=
    .of_forall fun n => rfl
  cases hrun.unique hrun'
  have hdisable' := cacheDisable_returns (m := .held (pages 1) [97])
      ⟨by decide, by decide⟩
    ⟨[97, 98, 99], some 3⟩
  cases hdisable.unique hdisable'
  have hlength := (hsame _ rfl).1
  exact absurd hlength (by decide)

end Frozen.Cache
