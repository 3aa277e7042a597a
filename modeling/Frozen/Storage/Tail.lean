/-
# `Frozen.Storage.Tail` — CREATE and DELETE

Both work at the end of a file.

`file_new_offset` takes the size of a new item as an `unsigned int`.  An item of 2^32
bytes or more gets what is left of its size modulo 2^32, and the write behind it makes
up for that only if the buffer is as long as the item (`Fits`).

`file_delete` sets `ret` where it refuses, and returns 0 all the same (`Deletes`).
-/
import Frozen.Storage.Handle

namespace Frozen.Storage

open Lib Cache

/-! ## CREATE -/

theorem errorCode_neg (emodule line : Nat) : errorCode emodule line < 0 :=
  lt_of_le_of_lt (errorCode_lt emodule line) (by decide)

/-- A CREATE request. -/
structure CreateRequest where
  size : Option UInt64
  buffer : Option (List UInt8)
  offsetOut : Bool

/-- The size that is asked for: `HK(size)`, or the length of the buffer. -/
def CreateRequest.want (r : CreateRequest) : Option Nat :=
  (r.size.map UInt64.toNat).or (r.buffer.map List.length)

/-- What a new item of `w` bytes has to be: the front of the buffer, and zeros. -/
def item (buffer : Option (List UInt8)) (w : Nat) : List UInt8 :=
  (buffer.getD []).take w ++ List.replicate (w - (buffer.getD []).length) 0

theorem length_item (buffer : Option (List UInt8)) (w : Nat) :
    (item buffer w).length = w := by
  rw [item, List.length_append, List.length_take, List.length_replicate]
  omega

/-- The bytes that a CREATE request writes, at the end of a file of `len` bytes. -/
def CreateRequest.written (len : Nat) (r : CreateRequest) : List UInt8 :=
  ((r.buffer.getD []).take (sizeOr r.size)).take (OFF_MAX - len)

/-- The request fails, on a file of `len` bytes: there is no size, no room for what
`ftruncate` is asked for, nothing to write or no room to write it. -/
def CreateRequest.Fails (len : Nat) (r : CreateRequest) : Prop :=
  ∀ w, r.want = some w → OFF_MAX < len + w % 2 ^ 32 ∨ r.buffer ≠ none ∧ r.written len = []

theorem fileWrite_end {bs : List UInt8} (hbs : bs.length ≤ OFF_MAX) (z : Nat)
    (size : Option UInt64) (buf : List UInt8) :
    ∃ reply f', fileWrite ⟨bs ++ List.replicate z 0, none⟩ (some (.ofNat bs.length))
      size (some buf) =
        .ok (reply, f') ∧ f'.stat = none ∧ reply.ret ≠ -EINVAL ∧
      if (buf.take (sizeOr size)).take (OFF_MAX - bs.length) = [] then
        reply.ret < 0 ∧ f'.bytes = bs ++ List.replicate z 0
      else reply.ret = 0 ∧
      f'.bytes = bs ++ ((buf.take (sizeOr size)).take (OFF_MAX - bs.length) ++
        List.replicate
          (z - ((buf.take (sizeOr size)).take (OFF_MAX - bs.length)).length) 0) := by
  have hoffset : (0 + offsetOr (some (.ofNat bs.length))) % 2 ^ 64 = bs.length := by
    change (0 + (UInt64.ofNat bs.length).toNat) % 2 ^ 64 = _
    rw [UInt64.toNat_ofNat', Nat.zero_add, Nat.mod_mod,
      Nat.mod_eq_of_lt (lt_of_le_of_lt hbs (by decide))]
  have hlen : (buf.take (sizeOr size)).length = min buf.length (sizeOr size) := by
    rw [List.length_take, min_comm]
  simp only [fileWrite, rawTransfer, sliceWrite, if_neg (Nat.not_lt_zero _),
    Nat.sub_zero, hoffset, ← hlen]
  have heof : (-1 : Int) ≠ -EINVAL := by decide
  have hbig : -EFBIG ≠ -EINVAL := by decide
  by_cases hnone : (buf.take (sizeOr size)).length = 0
  · rw [if_pos hnone, List.length_eq_zero_iff.mp hnone]
    exact ⟨_, _, rfl, rfl, heof, by simp⟩
  · have hne : buf.take (sizeOr size) ≠ [] := fun h => hnone (by rw [h]; rfl)
    rw [if_neg hnone, fileIoWrite, pwrite, if_neg (Nat.not_lt.mpr hbs), if_neg hne]
    by_cases hfull : bs.length = OFF_MAX
    · rw [if_pos hfull, hfull, Nat.sub_self, List.take_zero]
      exact ⟨_, _, rfl, rfl, hbig, by simp [EFBIG]⟩
    · have hroom : (buf.take (sizeOr size)).take (OFF_MAX - bs.length) ≠ [] := by
        intro h
        have h0 := congrArg List.length h
        rw [List.length_take, List.length_nil] at h0
        omega
      have hzero : (0 : Int) ≠ -EINVAL := by decide
      rw [if_neg hfull]
      refine ⟨_, _, rfl, rfl, hzero, ?_⟩
      rw [if_neg hroom]
      refine ⟨rfl, ?_⟩
      change putAt (bs ++ List.replicate z 0) bs.length _ = _
      rw [putAt, Nat.sub_eq_zero_of_le (by simp), List.replicate_zero, List.append_nil,
        List.take_left',
        List.drop_append, List.drop_eq_nil_of_le (Nat.le_add_right _ _), List.nil_append,
        Nat.add_sub_cancel_left, List.drop_replicate, List.append_assoc]
      rfl

theorem fileCreate_eq {f : File} (hf : Sane f) (r : CreateRequest) :
    ∃ reply f', fileCreate f r.size r.buffer r.offsetOut = .ok (reply, f') ∧
      f.bytes.length ≤ f'.bytes.length ∧ Sane f' ∧
      (reply.ret < 0 ↔ r.Fails f.bytes.length) ∧ ∀ w, r.want = some w → 0 ≤ reply.ret →
        reply.offsetOut = (if r.offsetOut then some f.bytes.length else none) ∧
        f'.bytes = f.bytes ++ (r.written f.bytes.length ++
          List.replicate (w % 2 ^ 32 - (r.written f.bytes.length).length) 0) := by
  have hmax : f.bytes.length ≤ OFF_MAX := hf.length
  have hcode := errorCode_neg FILE_EMODULE
  simp only [fileCreate]
  cases hw : (r.size.map UInt64.toNat).or (r.buffer.map List.length) with
  | none =>
      refine ⟨_, _, rfl, le_refl _, hf, iff_of_true (hcode 474) fun w h => ?_,
        fun w h => ?_⟩
      · cases hw.symm.trans h
      · cases hw.symm.trans h
  | some w =>
      simp only [fileNewOffset]
      by_cases hroom : OFF_MAX < f.bytes.length + w % 2 ^ 32
      · have hnew : ftruncate f.bytes (f.bytes.length + w % 2 ^ 32) = none := if_pos hroom
        simp only [hnew, Option.map_none]
        refine ⟨_, _, rfl, le_refl _, hf, iff_of_true (hcode 484) fun w' h => ?_,
          fun w' _ hret => ?_⟩
        · cases hw.symm.trans h
          exact .inl hroom
        · exact absurd (hcode 484) (not_lt.mpr hret)
      · have hnew : ftruncate f.bytes (f.bytes.length + w % 2 ^ 32) =
            some (f.bytes ++ List.replicate (w % 2 ^ 32) 0) := by
          rw [ftruncate, if_neg hroom, List.take_of_length_le (Nat.le_add_right _ _),
            Nat.add_sub_cancel_left]
        simp only [hnew, Option.map_some]
        cases hbuf : r.buffer with
        | none =>
            refine ⟨_, _, rfl, ?_, ⟨?_, .inl rfl⟩,
              iff_of_false (lt_irrefl 0) fun hfails => ?_, fun w' h _ => ⟨rfl, ?_⟩⟩
            · rw [List.length_append]
              exact Nat.le_add_right _ _
            · rw [List.length_append, List.length_replicate]
              omega
            · rcases hfails w hw with h | ⟨hne, -⟩
              · exact hroom h
              · exact hne hbuf
            · cases hw.symm.trans h
              simp [CreateRequest.written, hbuf]
        | some buf =>
            obtain ⟨reply, f', hwrite, hstat, hret, hcases⟩ :=
              fileWrite_end hmax (w % 2 ^ 32) r.size buf
            have hwritten : (buf.take (sizeOr r.size)).take (OFF_MAX - f.bytes.length)
                = r.written f.bytes.length := by
              rw [CreateRequest.written, hbuf]
              rfl
            rw [hwritten] at hcases
            rw [hwrite]
            have hwrote : (r.written f.bytes.length ++
                List.replicate (w % 2 ^ 32 - (r.written f.bytes.length).length)
                  0).length =
                max (r.written f.bytes.length).length (w % 2 ^ 32) := by
              rw [List.length_append, List.length_replicate]
              omega
            have hle : (r.written f.bytes.length).length ≤ OFF_MAX - f.bytes.length := by
              rw [CreateRequest.written, List.length_take]
              exact min_le_left _ _
            have hret' : (if reply.ret ≠ -EINVAL then reply.ret else 0) = reply.ret :=
              if_pos hret
            split_ifs at hcases with hnil
            · obtain ⟨hneg, hbytes⟩ := hcases
              refine ⟨_, f', rfl, ?_, ⟨?_, .inl hstat⟩, iff_of_true ?_ fun w' h => ?_,
                fun w' _ h => ?_⟩
              · rw [hbytes, List.length_append]
                exact Nat.le_add_right _ _
              · rw [hbytes, List.length_append, List.length_replicate]
                omega
              · change (if reply.ret ≠ -EINVAL then reply.ret else 0) < 0
                rw [hret']
                exact hneg
              · exact .inr ⟨by rw [hbuf]; exact Option.some_ne_none buf, hnil⟩
              · change 0 ≤ (if reply.ret ≠ -EINVAL then reply.ret else 0) at h
                rw [hret'] at h
                exact absurd hneg (not_lt.mpr h)
            · obtain ⟨hzero, hbytes⟩ := hcases
              have hlen : f'.bytes.length = f.bytes.length + max
                  (r.written f.bytes.length).length (w % 2 ^ 32) := by
                rw [hbytes, List.length_append, hwrote]
              refine ⟨_, f', rfl, by omega, ⟨by omega, .inl hstat⟩,
                iff_of_false ?_ fun hfails => ?_, fun w' h _ => ⟨rfl, ?_⟩⟩
              · change ¬ (if reply.ret ≠ -EINVAL then reply.ret else 0) < 0
                rw [hret', hzero]
                exact lt_irrefl 0
              · rcases hfails w hw with h | ⟨-, h⟩
                · exact hroom h
                · exact hnil h
              · cases hw.symm.trans h
                exact hbytes

/-- One CREATE of a run. -/
structure Creation where
  request : CreateRequest
  before : File
  reply : Reply
  after : File

/-- A run of CREATE requests. -/
def creations : File → List CreateRequest → Except OutOfFuel (List Creation)
  | _, [] => .ok []
  | f, r :: rs => do
      let (reply, f') ← fileCreate f r.size r.buffer r.offsetOut
      let rest ← creations f' rs
      .ok (⟨r, f, reply, f'⟩ :: rest)

namespace Creation

/-- A CREATE that succeeds returns the end of the file, and puts the item there. -/
def Allocates (c : Creation) : Prop :=
  0 ≤ c.reply.ret → ∃ w, c.request.want = some w ∧
    c.reply.offsetOut = (if c.request.offsetOut then some c.before.bytes.length
      else none) ∧
    c.after.bytes = c.before.bytes ++ item c.request.buffer w

/-- The region of the item, if there is one. -/
def region (c : Creation) : Finset Nat :=
  if 0 ≤ c.reply.ret then
    Finset.Ico c.before.bytes.length (c.before.bytes.length + c.request.want.getD 0)
  else ∅

end Creation

/-- The request fails, or the size is kept whole: it fits an `unsigned int`, or the
buffer that is written is as long and the file has room for it. -/
def CreateRequest.Fits (len : Nat) (r : CreateRequest) : Prop :=
  r.Fails len ∨ ∀ w, r.want = some w →
    w < 2 ^ 32 ∨ ∃ buf, r.buffer = some buf ∧ w ≤ buf.length ∧ len + w ≤ OFF_MAX

theorem CreateRequest.written_eq {len w : Nat} {r : CreateRequest} (hw : r.want = some w)
    (hroom : len + w ≤ OFF_MAX) : r.written len = (r.buffer.getD []).take w := by
  rw [written]
  cases hsize : r.size with
  | some size =>
      have hsz : sizeOr (some size) = w := by
        rw [want, hsize] at hw
        exact Option.some.inj hw
      rw [hsz, List.take_take, min_eq_right (by omega)]
  | none =>
      cases hbuf : r.buffer with
      | none => simp
      | some buf =>
          have hlen : buf.length = w := by
            rw [want, hsize, hbuf] at hw
            exact Option.some.inj hw
          have hmax : OFF_MAX ≤ sizeOr none := by decide
          have hall : buf.take (sizeOr none) = buf := List.take_of_length_le (by omega)
          change (buf.take (sizeOr none)).take (OFF_MAX - len) = buf.take w
          rw [hall, List.take_of_length_le (by omega), List.take_of_length_le (by omega)]

theorem CreateRequest.length_written_le (len : Nat) (r : CreateRequest) :
    (r.written len).length ≤ OFF_MAX - len ∧
      (r.written len).length ≤ (r.buffer.getD []).length := by
  rw [written, List.length_take, List.length_take]
  omega

theorem written_eq_item_iff {len w : Nat} {r : CreateRequest} (hw : r.want = some w)
    (hok : ¬ r.Fails len) :
    r.written len ++ List.replicate (w % 2 ^ 32 - (r.written len).length) 0
      = item r.buffer w ↔ r.Fits len := by
  have hmod : len + w % 2 ^ 32 ≤ OFF_MAX := by
    by_contra hlt
    refine hok fun w' hw' => ?_
    cases hw.symm.trans hw'
    exact .inl (Nat.not_le.mp hlt)
  constructor
  · intro heq
    refine .inr fun w' hw' => ?_
    cases hw.symm.trans hw'
    have hlen := congrArg List.length heq
    obtain ⟨hmax, hbuf⟩ := r.length_written_le len
    rw [length_item, List.length_append, List.length_replicate] at hlen
    by_cases hsmall : w < 2 ^ 32
    · exact .inl hsmall
    · have hall : (r.written len).length = w := by
        have hlt := Nat.mod_lt w (show 0 < 2 ^ 32 by decide)
        omega
      cases hb : r.buffer with
      | none =>
          rw [hb] at hbuf
          change _ ≤ 0 at hbuf
          omega
      | some buf =>
          rw [hb] at hbuf
          change _ ≤ buf.length at hbuf
          exact .inr ⟨buf, rfl, by omega, by omega⟩
  · intro hfits
    rcases hfits.resolve_left hok w hw with hsmall | ⟨buf, hb, hle, hroom⟩
    · rw [Nat.mod_eq_of_lt hsmall] at hmod ⊢
      rw [CreateRequest.written_eq hw hmod, item, List.length_take]
      congr 2
      omega
    · rw [CreateRequest.written_eq hw hroom, item, hb]
      rw [Option.getD_some, List.length_take, min_eq_left hle,
        Nat.sub_eq_zero_of_le (Nat.mod_le _ _), Nat.sub_eq_zero_of_le hle]

/-- One CREATE: the file does not get shorter, and the item is where it has to be
exactly if its size fits. -/
theorem fileCreate_allocates {f : File} (hf : Sane f) (r : CreateRequest) :
    ∃ reply f', fileCreate f r.size r.buffer r.offsetOut = .ok (reply, f') ∧ Sane f' ∧
      f.bytes.length ≤ f'.bytes.length ∧
      (Creation.Allocates ⟨r, f, reply, f'⟩ ↔ r.Fits f.bytes.length) := by
  obtain ⟨reply, f', hcreate, hle, hsane, hfails, hok⟩ := fileCreate_eq hf r
  refine ⟨reply, f', hcreate, hsane, hle, ?_⟩
  by_cases hret : reply.ret < 0
  · exact iff_of_true (fun h => absurd hret (not_lt.mpr h)) (.inl (hfails.mp hret))
  · have hno : ¬ r.Fails f.bytes.length := fun h => hret (hfails.mpr h)
    cases hw : r.want with
    | none => exact absurd (fun w h => by cases hw.symm.trans h) hno
    | some w =>
        obtain ⟨hout, hbytes⟩ := hok w hw (not_lt.mp hret)
        rw [← written_eq_item_iff hw hno]
        constructor
        · intro hall
          obtain ⟨w', hw', -, heq⟩ := hall (not_lt.mp hret)
          cases hw.symm.trans hw'
          exact List.append_cancel_left (hbytes.symm.trans heq)
        · exact fun heq _ => ⟨w, hw, hout, by rw [← heq]; exact hbytes⟩

/-- **The regions of a run.**  Every CREATE that succeeds returns the length before it
and puts exactly the item there, and so no two regions overlap: this holds exactly if
every size fits. -/
theorem creations_allocate_iff (f : File) (hf : Sane f) (rs : List CreateRequest) :
    ∃ cs, creations f rs = .ok cs ∧
      (((∀ c ∈ cs, c.Allocates) ∧ cs.Pairwise fun c d => Disjoint c.region d.region) ↔
        ∀ c ∈ cs, c.request.Fits c.before.bytes.length) := by
  have hrun : ∃ cs, creations f rs = .ok cs ∧
    (∀ c ∈ cs, f.bytes.length ≤ c.before.bytes.length) ∧
      (∀ c ∈ cs, c.Allocates ↔ c.request.Fits c.before.bytes.length) ∧
      ((∀ c ∈ cs, c.Allocates) → cs.Pairwise fun c d => Disjoint c.region d.region) := by
    induction rs generalizing f with
    | nil => exact ⟨[], rfl, by simp, by simp, fun _ => List.Pairwise.nil⟩
    | cons r rs ih =>
        obtain ⟨reply, f', hcreate, hsane, hle, hiff⟩ := fileCreate_allocates hf r
        obtain ⟨cs, hcs, hbehind, hall, hpairs⟩ := ih f' hsane
        refine ⟨⟨r, f, reply, f'⟩ :: cs, ?_, ?_, ?_, fun halloc => ?_⟩
        · rw [creations, hcreate]
          change (creations f' rs >>= _) = _
          rw [hcs]
          rfl
        · exact List.forall_mem_cons.mpr ⟨le_refl _, fun c hc => hle.trans (hbehind c hc)⟩
        · exact List.forall_mem_cons.mpr ⟨hiff, hall⟩
        · obtain ⟨hfirst, hrest⟩ := List.forall_mem_cons.mp halloc
          refine List.pairwise_cons.mpr ⟨fun d hd => ?_, hpairs hrest⟩
          by_cases hret : 0 ≤ reply.ret
          · obtain ⟨w, hw, -, hbytes⟩ := hfirst hret
            have hend : f'.bytes.length = f.bytes.length + r.want.getD 0 := by
              have hlen := congrArg List.length hbytes
              rw [List.length_append, length_item] at hlen
              have hwant : r.want.getD 0 = w := by
                rw [hw]
                rfl
              rw [hwant]
              exact hlen
            have hlater := hbehind d hd
            rw [Finset.disjoint_left]
            intro i hi hi'
            simp only [Creation.region, if_pos hret, Finset.mem_Ico] at hi
            unfold Creation.region at hi'
            split at hi'
            · rw [Finset.mem_Ico] at hi'
              omega
            · exact absurd hi' (Finset.notMem_empty i)
          · have hnone : Creation.region ⟨r, f, reply, f'⟩ = ∅ := if_neg hret
            rw [hnone]
            exact Finset.disjoint_empty_left _
  obtain ⟨cs, hcs, -, hiff, hpairs⟩ := hrun
  refine ⟨cs, hcs, fun h c hc => (hiff c hc).mp (h.1 c hc), fun h => ?_⟩
  have hall : ∀ c ∈ cs, c.Allocates := fun c hc => (hiff c hc).mpr (h c hc)
  exact ⟨hall, hpairs hall⟩

/-- Two items of 2^32 bytes in an empty file, which stays empty: neither side holds. -/
theorem creations_allocate_iff_twice :
    ∃ cs, creations ⟨[], none⟩
      [⟨some (.ofNat (2 ^ 32)), none, true⟩, ⟨some (.ofNat (2 ^ 32)), none, true⟩] =
        .ok cs ∧
      (((∀ c ∈ cs, c.Allocates) ∧ cs.Pairwise fun c d => Disjoint c.region d.region) ↔
        ∀ c ∈ cs, c.request.Fits c.before.bytes.length) :=
  creations_allocate_iff ⟨[], none⟩ ⟨by decide, .inl rfl⟩ _

/-- The two items of 2^32 bytes are both at offset 0. -/
theorem creations_overlap :
    ¬∀ (f : File) (rs : List CreateRequest), Sane f → ∃ cs, creations f rs = .ok cs ∧
      (∀ c ∈ cs, c.Allocates) ∧ cs.Pairwise fun c d => Disjoint c.region d.region := by
  intro hall
  let r : CreateRequest := ⟨some (.ofNat (2 ^ 32)), none, true⟩
  obtain ⟨cs, hcs, -, hpairs⟩ := hall ⟨[], none⟩ [r, r] ⟨by decide, .inl rfl⟩
  let c : Creation := ⟨r, ⟨[], none⟩, ⟨0, some (2 ^ 32), none, some 0⟩, ⟨[], none⟩⟩
  have hrun : creations ⟨[], none⟩ [r, r] = .ok [c, c] := rfl
  obtain rfl := Except.ok.inj (hcs.symm.trans hrun)
  have hdisjoint := (List.pairwise_cons.mp hpairs).1 c (List.mem_singleton_self c)
  have hregion : 0 ∈ c.region := by decide
  exact Finset.disjoint_left.mp hdisjoint hregion hregion

/-! ## DELETE -/

/-- Which calls of the system succeed. -/
structure Calls where
  opens : Bool
  fstat : Bool
  ftruncate : Bool

/-- `file_update_count`; `none` is `STAT_ERROR`. -/
def updateCount (c : Calls) (f : File) : Option File :=
  if f.stat = none ∧ c.fstat = false then none else some (fileUpdateCount f)

/-- `file_delete`. -/
def delete (c : Calls) (u : Userdata) (offset size forced : Option UInt64) :
    Reply × Userdata :=
  let reply (ret : Int) : Reply := ⟨ret, size.map UInt64.toNat, none, none⟩
  let (ret, u) := filePrepare c.opens u
  if ret < 0 then (reply ret, u)
  else
    match offset, size with
    | none, _ => (reply (errorCode FILE_EMODULE 513), u)
    | _, none => (reply (errorCode FILE_EMODULE 514), u)
    | some key, some size =>
        -- from here on `ret` is set and not returned
        match updateCount c u.file with
        | none => (reply 0, u)
        | some f =>
            if (key.toNat + size.toNat) % 2 ^ 64 ≠ f.stat.getD 0 ∧ forced.getD 0 = 0 then
              (reply 0, { u with file := f })
            else
              match if c.ftruncate then ftruncate f.bytes key.toNat else none with
              | none => (reply 0, { u with file := f })
              | some bs => (reply 0, { u with file := ⟨bs, none⟩ })

/-- Where no call fails it is the handler of a run. -/
theorem delete_eq_fileDelete (u : Userdata) (hpath : u.path = true)
    (offset size forced : Option UInt64) :
    delete ⟨true, true, true⟩ u offset size forced =
      ((fileDelete u.file offset size forced).1,
        { u with handle := true, file := (fileDelete u.file offset size forced).2 }) := by
  have hcount : updateCount ⟨true, true, true⟩ u.file = some (fileUpdateCount u.file) :=
    if_neg fun h => absurd h.2 (by decide)
  rw [delete, filePrepare_of_path hpath]
  simp only [fileDelete, lt_irrefl, if_false]
  cases offset with
  | none => rfl
  | some key =>
      cases size with
      | none => rfl
      | some size =>
          simp only [hcount, if_true]
          split_ifs
          · rfl
          · cases ftruncate (fileUpdateCount u.file).bytes key.toNat <;> rfl

/-- The handler is past its parameters: the file is open and the offset and
the size are there. -/
def Accepted (c : Calls) (u : Userdata) (offset size : Option UInt64) : Prop :=
  u.path = true ∧ (u.handle = true ∨ c.opens = true) ∧ offset ≠ none ∧ size ≠ none

/-- The file is to be truncated to the offset, and can be. -/
def Deletes (c : Calls) (u : Userdata) (offset size forced : Option UInt64) : Prop :=
  Accepted c u offset size ∧ (u.file.stat ≠ none ∨ c.fstat = true) ∧
    (offsetOr offset + offsetOr size = u.file.bytes.length ∨ forced.getD 0 ≠ 0) ∧
    c.ftruncate = true ∧ offsetOr offset ≤ OFF_MAX

/-- The handler says what it did. -/
def Reports (c : Calls) (u : Userdata) (offset size forced : Option UInt64)
    (reply : Reply) (u' : Userdata) : Prop :=
  (0 ≤ reply.ret ↔ Deletes c u offset size forced) ∧
    (Deletes c u offset size forced →
      ftruncate u.file.bytes (offsetOr offset) = some u'.file.bytes) ∧
    (¬ Deletes c u offset size forced → u'.file.bytes = u.file.bytes)

theorem filePrepare_opens {opens : Bool} {u : Userdata} (hpath : u.path = true)
    (hopen : u.handle = true ∨ opens = true) :
    ∃ u', filePrepare opens u = (0, u') ∧ u'.file = u.file := by
  rw [filePrepare, if_neg (by rw [hpath]; decide)]
  by_cases hhandle : u.handle = true
  · rw [if_neg (by rw [hhandle]; decide)]
    exact ⟨_, rfl, rfl⟩
  · rw [if_pos (Bool.eq_false_iff.mpr hhandle), if_pos (hopen.resolve_left hhandle)]
    exact ⟨_, rfl, rfl⟩

theorem delete_refused {c : Calls} {u : Userdata} {offset size : Option UInt64}
    (forced : Option UInt64) (hno : ¬ Accepted c u offset size) :
    (delete c u offset size forced).1.ret < 0 ∧
      (delete c u offset size forced).2.file = u.file := by
  have hcode := errorCode_neg FILE_EMODULE
  unfold delete
  by_cases hpath : u.path = true
  · by_cases hopen : u.handle = true ∨ c.opens = true
    · obtain ⟨u', hu', hfile⟩ := filePrepare_opens hpath hopen
      rw [hu']
      simp only [lt_irrefl, if_false]
      cases offset with
      | none => exact ⟨hcode 513, hfile⟩
      | some key =>
          cases size with
          | none => exact ⟨hcode 514, hfile⟩
          | some size =>
              exact absurd
                ⟨hpath, hopen, Option.some_ne_none key, Option.some_ne_none size⟩ hno
    · obtain ⟨hhandle, hopens⟩ := not_or.mp hopen
      have hprepare : filePrepare c.opens u = (errorCode FILE_EMODULE 174, u) := by
        rw [filePrepare, if_neg (by rw [hpath]; decide),
          if_pos (Bool.eq_false_iff.mpr hhandle), if_neg hopens]
      rw [hprepare]
      simp only [hcode, if_true, and_self]
  · rw [filePrepare_none _ (Bool.eq_false_iff.mpr hpath)]
    simp only [hcode, if_true, and_self]

theorem delete_accepted {c : Calls} {u : Userdata} {offset size : Option UInt64}
    (forced : Option UInt64) (hu : Sane u.file) (h : Accepted c u offset size) :
    (delete c u offset size forced).1.ret = 0 ∧ (Deletes c u offset size forced →
      ftruncate u.file.bytes (offsetOr offset)
        = some (delete c u offset size forced).2.file.bytes) := by
  obtain ⟨hpath, hopen, hoffset, hsize⟩ := h
  obtain ⟨key, rfl⟩ := Option.ne_none_iff_exists'.mp hoffset
  obtain ⟨sz, rfl⟩ := Option.ne_none_iff_exists'.mp hsize
  obtain ⟨u', hu', hfile⟩ := filePrepare_opens hpath hopen
  unfold delete
  rw [hu']
  simp only [lt_irrefl, if_false, updateCount, hfile, hu.updateCount]
  by_cases hstat : u.file.stat = none ∧ c.fstat = false
  · rw [if_pos hstat]
    refine ⟨rfl, fun ⟨_, hknown, _⟩ => ?_⟩
    rcases hknown with hne | htrue
    · exact absurd hstat.1 hne
    · exact absurd hstat.2 (by rw [htrue]; decide)
  · rw [if_neg hstat]
    simp only [Option.getD_some]
    by_cases hcheck : (key.toNat + sz.toNat) % 2 ^ 64 ≠ u.file.bytes.length ∧
      forced.getD 0 = 0
    · rw [if_pos hcheck]
      refine ⟨rfl, fun ⟨_, _, hend, _⟩ => ?_⟩
      rcases hend with hend | hforced
      · have hlt : key.toNat + sz.toNat < 2 ^ 64 := by
          change key.toNat + sz.toNat = _ at hend
          rw [hend]
          exact lt_of_le_of_lt hu.length (by decide)
        exact absurd ((Nat.mod_eq_of_lt hlt).trans hend) hcheck.1
      · exact absurd hcheck.2 hforced
    · rw [if_neg hcheck]
      have hkey : offsetOr (some key) = key.toNat := rfl
      cases htrunc : c.ftruncate with
      | false =>
          refine ⟨rfl, fun ⟨_, _, _, hok, _⟩ => ?_⟩
          exact absurd hok (by rw [htrunc]; decide)
      | true =>
          simp only [if_true]
          by_cases hmax : OFF_MAX < key.toNat
          · have hnone : ftruncate u.file.bytes key.toNat = none := if_pos hmax
            rw [hnone]
            exact ⟨rfl, fun ⟨_, _, _, _, hle⟩ => absurd hmax (Nat.not_lt.mpr hle)⟩
          · obtain ⟨bs, hbs⟩ : ∃ bs, ftruncate u.file.bytes key.toNat = some bs :=
              ⟨_, if_neg hmax⟩
            rw [hkey, hbs]
            exact ⟨rfl, fun _ => rfl⟩

/-- **DELETE says what it did** exactly if it is refused for its
parameters, or deletes. -/
theorem delete_reports_iff (c : Calls) (u : Userdata) (hu : Sane u.file)
    (offset size forced : Option UInt64) :
    Reports c u offset size forced (delete c u offset size forced).1
      (delete c u offset size forced).2 ↔
      (Accepted c u offset size → Deletes c u offset size forced) := by
  constructor
  · intro hreports hacc
    have hzero := (delete_accepted forced hu hacc).1
    exact hreports.1.mp (by rw [hzero])
  · intro hcond
    by_cases hacc : Accepted c u offset size
    · have hdeletes := hcond hacc
      obtain ⟨hzero, hbytes⟩ := delete_accepted forced hu hacc
      exact ⟨iff_of_true (by rw [hzero]) hdeletes, hbytes, fun hno => absurd hdeletes hno⟩
    · have hno : ¬ Deletes c u offset size forced := fun hdeletes => hacc hdeletes.1
      obtain ⟨hneg, hfile⟩ := delete_refused forced hacc
      exact ⟨iff_of_false (not_le.mpr hneg) hno, fun hdeletes => absurd hdeletes hno,
        fun _ => by rw [hfile]⟩

/-- The first byte of three is not at the end: neither side holds. -/
theorem delete_reports_iff_inside :
    Reports ⟨true, true, true⟩ ⟨true, true, ⟨[1, 2, 3], none⟩⟩ (some 0) (some 1) none
        (delete ⟨true, true, true⟩ ⟨true, true, ⟨[1, 2, 3], none⟩⟩ (some 0)
          (some 1) none).1
        (delete ⟨true, true, true⟩ ⟨true, true, ⟨[1, 2, 3], none⟩⟩ (some 0)
          (some 1) none).2 ↔
      (Accepted ⟨true, true, true⟩ ⟨true, true, ⟨[1, 2, 3], none⟩⟩ (some 0) (some 1) →
        Deletes ⟨true, true, true⟩ ⟨true, true, ⟨[1, 2, 3], none⟩⟩ (some 0)
          (some 1) none) :=
  delete_reports_iff _ _ ⟨by decide, .inl rfl⟩ _ _ _

/-- A byte that is not at the end is not deleted, and the handler returns 0. -/
theorem delete_hides_refusal :
    ¬∀ (c : Calls) (u : Userdata) (offset size forced : Option UInt64), Sane u.file →
      Reports c u offset size forced (delete c u offset size forced).1
        (delete c u offset size forced).2 := by
  intro hall
  obtain ⟨hret, -⟩ := hall ⟨true, true, true⟩ ⟨true, true, ⟨[1, 2, 3], none⟩⟩ (some 0)
    (some 1) none ⟨by decide, .inl rfl⟩
  obtain ⟨-, -, hend, -⟩ := hret.mp (by decide)
  rcases hend with hend | hforced
  · exact absurd hend (by decide)
  · exact absurd rfl hforced

end Frozen.Storage
