/-
# `Frozen.Storage.Allocator` — `data/allocator`

DELETE does not free anything: it writes over the record, in blocks of at most 255
bytes.  The child puts into `HK(size)` how many bytes it has taken, and the loop goes on
by that.  A child that takes what is inside of it takes whole blocks (`Accepting`), so
the record is covered, and nothing else is.

`resize` is a CUSTOM request from which four requests are made: CREATE, MOVE, DELETE and
WRITE.  The last one gets no action of its own, so it is the CUSTOM request again, and a
file passes that on to the childs it does not have.

    allocator_delete_marks   DELETE fills the record and leaves the rest
    resize_never_moves       no request to resize is answered with 0
-/
import Frozen.Storage.Handle

namespace Frozen.Storage

open Lib Cache

def ALLOCATOR_EMODULE : Nat := 7

/-! ## DELETE -/

/-- `sizeof(fill_buffer)`. -/
def FILL_BUFFER : UInt64 := 255

/-- `MIN(size, 255)`. -/
def fillSize (size : UInt64) : UInt64 := if size < FILL_BUFFER then size else FILL_BUFFER

/-- `fill_buffer`, as far as it is used. -/
def fillBuffer (currSize : UInt64) : List UInt8 :=
  List.replicate currSize.toNat currSize.toUInt8

section

variable {σ : Type} (query : σ → Request → Except OutOfFuel (Reply × σ))

/-- The loop; a child that takes nothing and does not fail keeps it going. -/
def deleteLoop : Nat → UInt64 → UInt64 → σ → Except OutOfFuel (Int × σ)
  | 0, _, _, _ => .error .outOfFuel
  | n + 1, offset, size, s =>
      if size = 0 then .ok (0, s)
      else do
        let currSize := fillSize size
        let (reply, s) ← query s
          (.write (some offset) (some currSize) (some (fillBuffer currSize)))
        if reply.ret < 0 then .ok (reply.ret, s)
        else
          let currSize := UInt64.ofNat (reply.size.getD 0)
          deleteLoop n (offset + currSize) (size - currSize) s

/-- `allocator_backend_delete`. -/
def allocatorBackendDelete (n : Nat) (offset size : Option UInt64) (s : σ) :
    Except OutOfFuel (Int × σ) :=
  match offset, size with
  | none, _ => .ok (errorCode ALLOCATOR_EMODULE 24, s)
  | _, none => .ok (errorCode ALLOCATOR_EMODULE 25, s)
  | some offset, some size => deleteLoop query n offset size s

end

/-! ## Childs -/

/-- The child of an allocator: a file, or a cache that has a file. -/
inductive Child where
  | file (f : File)
  | cache (c : CacheUserdata)

def Child.query (junk : Nat → UInt8) (bufferSize n : Nat) :
    Child → Request → Except OutOfFuel (Reply × Child)
  | .file f, request => do
      let (reply, f) ← fileQuery bufferSize n f request
      .ok (reply, .file f)
  | .cache c, request => do
      let (reply, c) ← cacheQuery junk bufferSize n c request
      .ok (reply, .cache c)

/-- What is in the store. -/
def Child.bytes : Child → List UInt8
  | .file f => f.bytes
  | .cache c =>
      match c.memory with
      | none => c.file.bytes
      | some m => m.bytes

/-- A child takes what is written inside of it, and says how much that was. -/
def Accepting {σ : Type} (query : σ → Request → Except OutOfFuel (Reply × σ))
    (bytes : σ → List UInt8) : Prop :=
  ∀ (s : σ) (offset size : UInt64) (d : List UInt8), (bytes s).length ≤ OFF_MAX →
  d.length = size.toNat → d ≠ [] →
    offset.toNat + d.length ≤ (bytes s).length →
    ∃ reply s', query s (.write (some offset) (some size) (some d)) = .ok (reply, s') ∧
    reply.ret = 0 ∧
      reply.size = some d.length ∧ bytes s' = patch (bytes s) (offset.toNat, d)

section

variable {offset size : UInt64} {d : List UInt8}

theorem sliceWrite_whole {σ : Type} {write : Writer σ} {s : σ}
    (hsize : d.length = size.toNat) (hd : d ≠ []) :
    sliceWrite (offsetOr (some offset)) (sizeOr (some size)) write 0 d s
      = write offset.toNat d s := by
  have hpos : 0 < d.length := List.length_pos_of_ne_nil hd
  have hoffset : (0 + offsetOr (some offset)) % 2 ^ 64 = offset.toNat := by
    change (0 + offset.toNat) % 2 ^ 64 = _
    rw [Nat.zero_add, Nat.mod_eq_of_lt offset.toNat_lt]
  have hsz : sizeOr (some size) = d.length := hsize.symm
  rw [sliceWrite, if_neg (Nat.not_lt_zero _), hsz, Nat.sub_zero, Nat.min_self,
    if_neg (by omega), hoffset, List.take_length]

theorem fileWrite_inside {f : File} (hmax : f.bytes.length ≤ OFF_MAX)
    (hsize : d.length = size.toNat) (hd : d ≠ [])
    (hin : offset.toNat + d.length ≤ f.bytes.length) :
    fileWrite f (some offset) (some size) (some d)
      = .ok (⟨0, some d.length, none, none⟩,
        ⟨patch f.bytes (offset.toNat, d), none⟩) := by
  simp only [fileWrite, rawTransfer, sliceWrite_whole hsize hd, fileIoWrite]
  rw [pwrite_inside hd (by omega) (by omega)]
  rfl

theorem cacheBackendWrite_inside {m : Memory} (hsize : d.length = size.toNat)
    (hd : d ≠ []) (hin : offset.toNat + d.length ≤ m.bytes.length) :
    ∃ m', cacheBackendWrite m (some offset) (some size) (some d)
      = .ok (⟨0, some d.length, none, none⟩, m') ∧
      m'.bytes = patch m.bytes (offset.toNat, d) := by
  have hpos : 0 < d.length := List.length_pos_of_ne_nil hd
  cases m with
  | freed exactSize =>
      simp only [Memory.bytes, List.length_nil] at hin
      omega
  | held ptrSize mem =>
      simp only [Memory.bytes] at hin
      simp only [cacheBackendWrite, rawTransfer, sliceWrite_whole hsize hd, memoryWrite]
      have hmin : min d.length (mem.length - offset.toNat) = d.length := by omega
      rw [hmin, List.take_of_length_le (by omega)]
      exact ⟨_, rfl, rfl⟩

end

theorem child_accepting (junk : Nat → UInt8) (bufferSize n : Nat) :
    Accepting (Child.query junk bufferSize n) Child.bytes := by
  intro c offset size d hmax hsize hd hin
  cases c with
  | file f =>
      have hwrite := fileWrite_inside hmax hsize hd hin
      simp only [Child.query, fileQuery, hwrite]
      exact ⟨_, _, rfl, rfl, rfl, rfl⟩
  | cache c =>
      obtain ⟨memory, f⟩ := c
      cases memory with
      | none =>
          have hwrite := fileWrite_inside (f := f) hmax hsize hd hin
          simp only [Child.query, cacheQuery, fileQuery, hwrite]
          exact ⟨_, _, rfl, rfl, rfl, rfl⟩
      | some m =>
          obtain ⟨m', hwrite, hbytes⟩ := cacheBackendWrite_inside (m := m) hsize hd hin
          simp only [Child.query, cacheQuery, hwrite]
          exact ⟨_, _, rfl, rfl, rfl, hbytes⟩

/-! ## The loop -/

/-- What is written to a record of `size` bytes, at `j`: how long its block is. -/
def fillByte (size j : Nat) : UInt8 := UInt8.ofNat (min (size - j / 255 * 255) 255)

theorem toNat_fillSize (size : UInt64) : (fillSize size).toNat = min size.toNat 255 := by
  have h255 : FILL_BUFFER.toNat = 255 := rfl
  rw [fillSize]
  split_ifs with hlt
  · have hsmall := UInt64.lt_iff_toNat_lt.mp hlt
    omega
  · have hlarge := UInt64.le_iff_toNat_le.mp (UInt64.not_lt.mp hlt)
    omega

theorem fillByte_first {size : UInt64} {j : Nat} (hj : j < min size.toNat 255) :
    (fillBuffer (fillSize size))[j]? = some (fillByte size.toNat j) := by
  have hzero : j / 255 = 0 := Nat.div_eq_of_lt (by omega)
  have hbyte : (fillSize size).toUInt8 = UInt8.ofNat (min size.toNat 255) := by
    rw [← toNat_fillSize]
    exact (UInt8.ofNat_uInt64ToNat _).symm
  rw [fillBuffer, List.getElem?_replicate, if_pos (by rwa [toNat_fillSize]), fillByte,
    hzero, hbyte, Nat.zero_mul, Nat.sub_zero]

theorem fillByte_rest {size j : Nat} (hj : 255 ≤ j) :
    fillByte (size - 255) (j - 255) = fillByte size j := by
  have hblock : size - 255 - (j - 255) / 255 * 255 = size - j / 255 * 255 := by omega
  rw [fillByte, fillByte, hblock]

/-- The bytes of the record are filled, the others are what they were. -/
def Filled (offset size : Nat) (bs bs' : List UInt8) : Prop :=
  ∀ i : Nat, bs'[i]? = if offset ≤ i ∧ i < offset + size
    then some (fillByte size (i - offset)) else bs[i]?

section

variable {σ : Type} {query : σ → Request → Except OutOfFuel (Reply × σ)}
  {bytes : σ → List UInt8}

theorem deleteLoop_round (hquery : Accepting query bytes) {s : σ}
    {offset size : UInt64} (hsize : size ≠ 0) (hmax : (bytes s).length ≤ OFF_MAX)
    (hin : offset.toNat + size.toNat ≤ (bytes s).length) :
    ∃ s', bytes s' = patch (bytes s) (offset.toNat, fillBuffer (fillSize size)) ∧ ∀ n,
      deleteLoop query (n + 1) offset size s = deleteLoop query n
        (offset + fillSize size) (size - fillSize size) s' := by
  have hpos : size.toNat ≠ 0 := fun h => hsize (UInt64.toNat_inj.mp h)
  have hblock := toNat_fillSize size
  have hlen : (fillBuffer (fillSize size)).length = (fillSize size).toNat :=
    List.length_replicate
  have hne : fillBuffer (fillSize size) ≠ [] := fun h => by
    rw [h, List.length_nil] at hlen
    omega
  obtain ⟨reply, s', hrun, hret, htaken, hbytes⟩ :=
    hquery s offset (fillSize size) _ hmax hlen hne (by omega)
  refine ⟨s', hbytes, fun n => ?_⟩
  have hstep : deleteLoop query (n + 1) offset size s
      = if reply.ret < 0 then .ok (reply.ret, s')
        else deleteLoop query n (offset + UInt64.ofNat (reply.size.getD 0))
          (size - UInt64.ofNat (reply.size.getD 0)) s' := by
    rw [deleteLoop, if_neg hsize]
    simp only [hrun]
    rfl
  rw [hstep, hret, if_neg (lt_irrefl _), htaken, Option.getD_some, hlen,
    UInt64.ofNat_toNat]

theorem deleteLoop_fills (hquery : Accepting query bytes) :
    ∀ (N : Nat) {s : σ} {offset size : UInt64},
    size.toNat ≤ N → (bytes s).length ≤ OFF_MAX →
      offset.toNat + size.toNat ≤ (bytes s).length →
    ∃ s', Returns (fun n => deleteLoop query n offset size s) (0, s') ∧
      Filled offset.toNat size.toNat (bytes s) (bytes s')
  | 0, s, offset, size, hN, _, _ => by
      have hzero : size = 0 := UInt64.toNat_inj.mp (Nat.le_zero.mp hN)
      subst hzero
      refine ⟨s, Returns.of_succ
        (Returns.of_forall fun n => by rw [deleteLoop, if_pos rfl]), fun i => ?_⟩
      rw [UInt64.toNat_zero, if_neg (by omega)]
  | N + 1, s, offset, size, hN, hmax, hin => by
      by_cases hzero : size = 0
      · subst hzero
        exact deleteLoop_fills hquery 0 le_rfl hmax hin
      · have hpos : size.toNat ≠ 0 := fun h => hzero (UInt64.toNat_inj.mp h)
        have hblock := toNat_fillSize size
        obtain ⟨s₁, hbytes, hround⟩ := deleteLoop_round hquery hzero hmax hin
        have hlen : (fillBuffer (fillSize size)).length = min size.toNat 255 := by
          rw [fillBuffer, List.length_replicate, hblock]
        have hwithin : offset.toNat + (fillBuffer (fillSize size)).length
            ≤ (bytes s).length := by omega
        have hsame : (bytes s₁).length = (bytes s).length := by
          rw [hbytes, length_patch hwithin]
        have hoffset : (offset + fillSize size).toNat = offset.toNat + min
            size.toNat 255 := by
          rw [UInt64.toNat_add, hblock, Nat.mod_eq_of_lt]
          unfold OFF_MAX at hmax
          omega
        have hleft : (size - fillSize size).toNat = size.toNat - min size.toNat 255 := by
          rw [UInt64.toNat_sub_of_le _ _ (UInt64.le_iff_toNat_le.mpr (by omega)), hblock]
        obtain ⟨s', hrun, hfilled⟩ :=
          @deleteLoop_fills hquery N s₁ (offset + fillSize size) (size - fillSize size)
          (by omega) (by omega) (by omega)
        refine ⟨s', Returns.of_succ (by simpa only [hround] using hrun), fun i => ?_⟩
        rw [hfilled i, hoffset, hleft, hbytes,
          getElem?_writeAt (writeAt_eq_patch hwithin), hlen]
        by_cases hrest : offset.toNat + min size.toNat 255 ≤ i ∧
            i < offset.toNat + min size.toNat 255 + (size.toNat - min size.toNat 255)
        · rw [if_pos hrest, if_pos (by omega)]
          have h255 : min size.toNat 255 = 255 := by omega
          rw [h255, ← Nat.sub_sub, fillByte_rest (by omega)]
        · rw [if_neg hrest]
          by_cases hfirst : offset.toNat ≤ i ∧ i < offset.toNat + min size.toNat 255
          · rw [if_pos hfirst, if_pos (by omega), fillByte_first (by omega)]
          · rw [if_neg hfirst, if_neg (by omega)]

end

/-- **DELETE marks the record**: whatever the child is, the request returns 0, every
byte of the record is filled, and no other byte is changed. -/
theorem allocator_delete_marks (junk : Nat → UInt8) (bufferSize m : Nat) (c : Child)
    (offset size : UInt64) (hmax : c.bytes.length ≤ OFF_MAX)
    (hin : offset.toNat + size.toNat ≤ c.bytes.length) :
    ∃ c', Returns (fun n => allocatorBackendDelete (Child.query junk bufferSize m) n
      (some offset) (some size) c)
        (0, c') ∧ Filled offset.toNat size.toNat c.bytes c'.bytes :=
  deleteLoop_fills (child_accepting junk bufferSize m) size.toNat le_rfl hmax hin

/-- Two blocks in the memory of a cache. -/
def sevens : Child := .cache ⟨some (.held 0x1000 (List.replicate 300 7)), ⟨[], none⟩⟩

theorem allocator_delete_marks_sevens :
    ∃ c', Returns (fun n => allocatorBackendDelete (Child.query (fun _ => 0) 1024 0) n
      (some 10) (some 256) sevens)
        (0, c') ∧ Filled 10 256 sevens.bytes c'.bytes := by
  have hlen : sevens.bytes.length = 300 := List.length_replicate
  exact allocator_delete_marks (fun _ => 0) 1024 0 sevens 10 256 (by rw [hlen]; decide)
    (by rw [hlen]; decide)

/-! ## Requests with inherited items -/

/-- The items that a file looks for.  To prepend an item is to set it: the
first one counts. -/
structure Items where
  action : Action
  function : Option String
  offset : Option UInt64
  offsetFrom : Option UInt64
  offsetTo : Option UInt64
  size : Option UInt64
  sizeOld : Option UInt64
  forced : Option UInt64
  buffer : Option (List UInt8)
  /-- whether there is `HK(offset_out)` -/
  offsetOut : Bool

/-- A handler of a file that begins with `file_prepare`. -/
def prepared (opens : Bool) (bufferSize n : Nat) (u : Userdata) (r : Request) :
    Except OutOfFuel (Reply × Userdata) :=
  let (ret, u) := filePrepare opens u
  if ret < 0 then .ok (refused ret r, u)
  else do
    let (reply, f) ← fileQuery bufferSize n u.file r
    .ok (reply, { u with file := f })

/-- `file_custom` of a file without childs. -/
def fileCustom (u : Userdata) (r : Items) : Except OutOfFuel (Reply × Userdata) :=
  let reply (ret : Int) : Reply := ⟨ret, r.size.map UInt64.toNat, r.buffer, none⟩
  if r.function = some "file_suspend" then .ok (reply 0, { u with handle := false })
  else if r.function = some "file_running" then
    match r.buffer with
    | none => .ok (reply (errorCode FILE_EMODULE 669), u)
    | some buf => do
        let reply ← countReply (if u.handle then 1 else 0) buf
        .ok (reply, u)
  else .ok (reply (-ENOSYS), u)

/-- What `backend_query` of a file returns, and `HK(ret)`, which was `qRet`. -/
structure Answer where
  ret : Int
  qRet : Int
  reply : Reply
  file : Userdata

/-- `-EBADF` is returned, `-EEXIST` says that `HK(ret)` is set. -/
def answer (qRet : Int) (reply : Reply) (u : Userdata) : Answer :=
  if reply.ret = -EBADF then ⟨reply.ret, qRet, reply, u⟩
  else if reply.ret = -EEXIST then ⟨0, qRet, reply, u⟩
  else ⟨0, reply.ret, reply, u⟩

/-- `backend_query` of a file. -/
def fileBackendQuery (opens : Bool) (bufferSize n : Nat) (qRet : Int) (u : Userdata)
    (r : Items) : Except OutOfFuel Answer := do
  let handled (r : Request) : Except OutOfFuel Answer := do
    let (reply, u) ← prepared opens bufferSize n u r
    .ok (answer qRet reply u)
  match r.action with
  | .create => handled (.create r.size r.buffer r.offsetOut)
  | .read => handled (.read r.offset r.size r.buffer)
  | .write => handled (.write r.offset r.size r.buffer)
  | .delete => handled (.delete r.offset r.size r.forced)
  | .move => handled (.move r.offsetFrom r.offsetTo r.size)
  | .count => handled (.count r.buffer)
  | .custom => do
      let (reply, u) ← fileCustom u r
      .ok (answer qRet reply u)
  | .rebuild | .other _ =>
      .ok ⟨-EINVAL, qRet, ⟨-EINVAL, r.size.map UInt64.toNat, r.buffer, none⟩, u⟩

/-- `(ret = backend_pass(..)) < 0 || (ret = q_ret) < 0`. -/
def Answer.failed (a : Answer) : Option Int :=
  if a.ret < 0 then some a.ret else if a.qRet < 0 then some a.qRet else none

/-! ## `resize` -/

/-- What `resize` returns, what it puts into `HK(offset_out)`, and the file. -/
structure Outcome where
  ret : Int
  offsetOut : Option UInt64
  file : Userdata

/-- `allocator_backend_custom` of a file, if the function is `resize`; `qRet` is what
happens to be in `q_ret`. -/
def allocatorResize (opens : Bool) (bufferSize n : Nat) (qRet : Int) (u : Userdata)
    (request : Items) : Except OutOfFuel Outcome :=
  match request.offset, request.size, request.sizeOld with
  | none, _, _ => .ok ⟨errorCode ALLOCATOR_EMODULE 62, none, u⟩
  | _, none, _ => .ok ⟨errorCode ALLOCATOR_EMODULE 63, none, u⟩
  | _, _, none => .ok ⟨errorCode ALLOCATOR_EMODULE 64, none, u⟩
  | some recOldOffset, some _, some recOldSize => do
      let create ← fileBackendQuery opens bufferSize n qRet u
        { request with action := .create, offsetOut := true }
      match create.failed with
      | some ret => .ok ⟨ret, none, create.file⟩
      | none => do
          let recNewOffset := UInt64.ofNat (create.reply.offsetOut.getD 0)
          -- a write from the buffer has put into `HK(size)` how much it was
          let request := { request with size := create.reply.size.map UInt64.ofNat }
          let move ← fileBackendQuery opens bufferSize n create.qRet create.file
            { request with
              action := .move, offsetFrom := some recOldOffset
              offsetTo := some recNewOffset, size := some recOldSize }
          match move.failed with
          | some ret => .ok ⟨ret, none, move.file⟩
          | none => do
              let delete ← fileBackendQuery opens bufferSize n move.qRet move.file
                { request with action := .delete, size := some recOldSize }
              match delete.failed with
              | some ret => .ok ⟨ret, none, delete.file⟩
              | none => do
                  let write ← fileBackendQuery opens bufferSize n delete.qRet delete.file
                    { request with offset := some recNewOffset }
                  if write.ret < 0 then .ok ⟨write.ret, none, write.file⟩
                  else if write.qRet ≠ -EINVAL then .ok ⟨write.qRet, none, write.file⟩
                  else .ok ⟨0, if request.offsetOut then some recNewOffset
                    else none, write.file⟩

/-- A request to resize, as it comes to the allocator. -/
structure ResizeRequest where
  offset : UInt64
  size : UInt64
  sizeOld : UInt64
  forced : Option UInt64
  buffer : Option (List UInt8)

def ResizeRequest.items (r : ResizeRequest) : Items :=
  { action := .custom, function := some "resize", offset := some r.offset,
    offsetFrom := none, offsetTo := none
    size := some r.size, sizeOld := some r.sizeOld, forced := r.forced, buffer :=
      r.buffer, offsetOut := true }

/-- What a resize should come to: a new region with the old bytes, behind those of the
buffer, and the old one marked; `bs` and `bs'` are the file before and after. -/
structure Resized (r : ResizeRequest) (bs : List UInt8) (o : Outcome)
    (bs' : List UInt8) : Prop where
  ret : o.ret = 0
  region : ∃ new, o.offsetOut = some new ∧ bs.length ≤ new.toNat ∧
  new.toNat + r.size.toNat ≤ bs'.length ∧
    (∀ j < r.size.toNat, j < (r.buffer.getD []).length →
      bs'[new.toNat + j]? = (r.buffer.getD [])[j]?) ∧
    ∀ j < min r.sizeOld.toNat r.size.toNat, (r.buffer.getD []).length ≤ j →
      bs'[new.toNat + j]? = bs[r.offset.toNat + j]?
  others : ∀ i < bs.length,
    ¬ (r.offset.toNat ≤ i ∧ i < r.offset.toNat + r.sizeOld.toNat) → bs'[i]? = bs[i]?
  marked : ∀ i, r.offset.toNat ≤ i → i < r.offset.toNat + r.sizeOld.toNat →
    bs'[i]? = some (fillByte r.sizeOld.toNat (i - r.offset.toNat))

/-! ## What it does -/

theorem answer_failed_neg {a : Answer} {ret : Int} (h : a.failed = some ret) :
    ret < 0 := by
  unfold Answer.failed at h
  split_ifs at h with hret hq
  · exact Option.some_inj.mp h ▸ hret
  · exact Option.some_inj.mp h ▸ hq

/-- A file without childs does not know the function. -/
theorem fileBackendQuery_custom (opens : Bool) (bufferSize n : Nat) (qRet : Int)
    (u : Userdata) {r : Items} (haction : r.action = .custom)
    (hfunction : r.function = some "resize") :
    ∃ reply, fileBackendQuery opens bufferSize n qRet u r
      = .ok ⟨0, -ENOSYS, reply, u⟩ := by
  have hsuspend : r.function ≠ some "file_suspend" := by rw [hfunction]; decide
  have hrunning : r.function ≠ some "file_running" := by rw [hfunction]; decide
  simp only [fileBackendQuery, haction, fileCustom, if_neg hsuspend, if_neg hrunning]
  exact ⟨_, rfl⟩

theorem allocatorResize_neg {opens : Bool} {bufferSize n : Nat} {qRet : Int}
    {u : Userdata} {r : ResizeRequest} {o : Outcome}
    (h : allocatorResize opens bufferSize n qRet u r.items = .ok o) : o.ret < 0 := by
  obtain ⟨create, -, h⟩ := ok_of_bind h
  cases hcreate : create.failed with
  | some ret =>
      simp only [hcreate, Except.ok.injEq] at h
      exact h ▸ answer_failed_neg hcreate
  | none =>
      simp only [hcreate] at h
      obtain ⟨move, -, h⟩ := ok_of_bind h
      cases hmove : move.failed with
      | some ret =>
          simp only [hmove, Except.ok.injEq] at h
          exact h ▸ answer_failed_neg hmove
      | none =>
          simp only [hmove] at h
          obtain ⟨delete, -, h⟩ := ok_of_bind h
          cases hdelete : delete.failed with
          | some ret =>
              simp only [hdelete, Except.ok.injEq] at h
              exact h ▸ answer_failed_neg hdelete
          | none =>
              simp only [hdelete] at h
              obtain ⟨write, hwrite, h⟩ := ok_of_bind h
              -- the action and the function are those of the request to resize
              obtain ⟨reply, hcustom⟩ := fileBackendQuery_custom opens bufferSize n
                delete.qRet delete.file
                (r := { r.items with size := create.reply.size.map UInt64.ofNat
                                     offset := some (UInt64.ofNat
                                       (create.reply.offsetOut.getD 0)) }) rfl rfl
              obtain rfl := Except.ok.inj (hwrite.symm.trans hcustom)
              have hanswer : -ENOSYS ≠ -EINVAL := by decide
              simp only [if_neg (lt_irrefl (0 : Int)), if_pos hanswer, Except.ok.injEq]
                at h
              have hneg : -ENOSYS < 0 := by decide
              rw [← h]
              exact hneg

/-- **No request to resize is done**: whatever the file, its handle and the request, the
answer is negative. -/
theorem resize_never_moves (opens : Bool) (bufferSize n : Nat) (qRet : Int)
    (u : Userdata) (r : ResizeRequest) :
    ¬ ∃ o, allocatorResize opens bufferSize n qRet u r.items = .ok o ∧
      Resized r u.file.bytes o o.file.file.bytes := by
  rintro ⟨o, hrun, hresized⟩
  have hneg := allocatorResize_neg hrun
  rw [hresized.ret] at hneg
  exact lt_irrefl 0 hneg

/-- A record of two bytes is to have three. -/
def growRecord : ResizeRequest :=
  { offset := 0, size := 3, sizeOld := 2, forced := none, buffer := none }

/-- The bytes are moved, and the rest is not done: the old record is not marked, there
is no offset. -/
theorem resize_half : ∃ o, allocatorResize true 1024 0 0
    ⟨true, true, ⟨[1, 2, 3, 4], none⟩⟩ growRecord.items = .ok o ∧
    o.ret = -ENOSYS ∧ o.offsetOut = none ∧ o.file.file.bytes = [1, 2, 3, 4, 1, 2, 0] ∧
    ¬ Resized growRecord [1, 2, 3, 4] o o.file.file.bytes :=
  ⟨_, rfl, rfl, rfl, rfl, fun h => absurd h.ret (by decide)⟩

end Frozen.Storage
