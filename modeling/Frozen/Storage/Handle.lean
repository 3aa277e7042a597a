/-
# `Frozen.Storage.Handle` — the handle of `storage/file`

`file_suspend` closes the handle of a file; `file_prepare`, with which every handler
begins, opens it again.  A suspended file keeps what `file_stat` remembers of it.

Between two requests the size that is remembered is the size of the file (`Sane`), and
what a request answers depends on the bytes alone (`alike`).  So a run answers the same
whether or not the file is suspended in between, and in each state that it reaches
COUNT, DELETE and MOVE use the length that the bytes have (`SeesLength`):
`suspend_transparent`.
-/
import Frozen.Cache.Transparent

namespace Frozen.Storage

open Lib Cache

/-! ## Requests -/

/-- `file_userdata`: whether there is a path and a handle, and the file behind them. -/
structure Userdata where
  /-- not `NULL`, as it is for a file with `fork_only` -/
  path : Bool
  /-- not `-1` -/
  handle : Bool
  file : File

/-- The requests of a run, and `file_suspend` of `file_custom`. -/
inductive FileRequest where
  | request (r : Request)
  | suspend

/-- The reply of a handler that returns at once. -/
def refused (ret : Int) : Request → Reply
  | .create size _ _ => ⟨ret, size.map UInt64.toNat, none, none⟩
  | .read _ size buffer => ⟨ret, size.map UInt64.toNat, buffer, none⟩
  | .write _ size _ => ⟨ret, size.map UInt64.toNat, none, none⟩
  | .delete _ size _ => ⟨ret, size.map UInt64.toNat, none, none⟩
  | .move _ _ size => ⟨ret, size.map UInt64.toNat, none, none⟩
  | .count buffer => ⟨ret, none, buffer, none⟩

/-- `file_prepare`; `opens` says whether the path can be opened. -/
def filePrepare (opens : Bool) (u : Userdata) : Int × Userdata :=
  if u.path = false then (errorCode FILE_EMODULE 165, u)
  else if u.handle = false then
    if opens then (0, { u with handle := true }) else (errorCode FILE_EMODULE 174, u)
  else (0, u)

/-- A request to a file whose path can be opened; no reply is kept of `file_suspend`. -/
def handle (bufferSize n : Nat) (u : Userdata) :
    FileRequest → Except OutOfFuel (List Reply × Userdata)
  | .suspend => .ok ([], { u with handle := false })
  | .request r =>
      let (ret, u) := filePrepare true u
      if ret < 0 then .ok ([refused ret r], u)
      else do
        let (reply, f) ← fileQuery bufferSize n u.file r
        .ok ([reply], { u with file := f })

/-- The replies to a run of requests. -/
def handleAll (bufferSize n : Nat) :
    Userdata → List FileRequest → Except OutOfFuel (List Reply × Userdata)
  | u, [] => .ok ([], u)
  | u, r :: rs => do
      let (replies, u) ← handle bufferSize n u r
      let (rest, u) ← handleAll bufferSize n u rs
      .ok (replies ++ rest, u)

/-- A run without its `file_suspend` requests. -/
def unsuspended (rs : List FileRequest) : List FileRequest :=
  rs.filter fun r => match r with
    | .request _ => true
    | .suspend => false

/-! ## Runs -/

/-- Two files that differ in their handle, and in what they remember of the size. -/
structure SameFile (u v : Userdata) : Prop where
  path : u.path = v.path
  bytes : u.file.bytes = v.file.bytes
  left : Sane u.file
  right : Sane v.file

theorem SameFile.suspend {u v : Userdata} (h : SameFile u v) :
    SameFile { u with handle := false } v :=
  ⟨h.path, h.bytes, h.left, h.right⟩

theorem filePrepare_of_path {u : Userdata} (h : u.path = true) :
    filePrepare true u = (0, { u with handle := true }) := by
  cases u with
  | mk path running file =>
      cases h
      cases running <;> rfl

theorem filePrepare_none {u : Userdata} (opens : Bool) (h : u.path = false) :
    filePrepare opens u = (errorCode FILE_EMODULE 165, u) := by
  rw [filePrepare, if_pos h]

theorem handle_same (bufferSize : Nat) {u v : Userdata} (h : SameFile u v) (r : Request) :
    ∃ reply u' v', Returns (fun n => handle bufferSize n u (.request r)) ([reply], u') ∧
      Returns (fun n => handle bufferSize n v (.request r)) ([reply], v') ∧
      SameFile u' v' ∧ u'.path = u.path := by
  cases hpath : v.path with
  | false =>
      have hneg : errorCode FILE_EMODULE 165 < 0 := by decide
      refine ⟨refused (errorCode FILE_EMODULE 165) r, u, v, .of_forall fun n => ?_,
        .of_forall fun n => ?_, h, rfl⟩
      · rw [handle, filePrepare_none _ (h.path.trans hpath)]
        exact if_pos hneg
      · rw [handle, filePrepare_none _ hpath]
        exact if_pos hneg
  | true =>
      obtain ⟨reply, f, g, hf, hg, hfs, hgs, hfg⟩ :=
        alike bufferSize h.left h.right h.bytes r
      refine ⟨reply, { u with handle := true, file := f },
        { v with handle := true, file := g }, ?_, ?_, ⟨h.path, hfg, hfs, hgs⟩, rfl⟩
      · simp only [handle, filePrepare_of_path (h.path.trans hpath)]
        exact hf.bind (.of_forall fun n => rfl)
      · simp only [handle, filePrepare_of_path hpath]
        exact hg.bind (.of_forall fun n => rfl)

theorem handleAll_cons {bufferSize : Nat} {u u' u'' : Userdata} {r : FileRequest}
    {rs : List FileRequest} {replies rest : List Reply}
    (hfirst : Returns (fun n => handle bufferSize n u r) (replies, u'))
    (hrest : Returns (fun n => handleAll bufferSize n u' rs) (rest, u'')) :
    Returns (fun n => handleAll bufferSize n u (r :: rs)) (replies ++ rest, u'') := by
  simp only [handleAll]
  exact hfirst.bind (hrest.bind (.of_forall fun n => rfl))

/-- The runs with and without `file_suspend`, from files that are the same. -/
theorem handleAll_same (bufferSize : Nat) (rs : List FileRequest) {u v : Userdata}
    (h : SameFile u v) :
    ∃ replies u' v', Returns (fun n => handleAll bufferSize n u rs) (replies, u') ∧
      Returns (fun n => handleAll bufferSize n v (unsuspended rs)) (replies, v') ∧
      SameFile u' v' ∧ u'.path = u.path := by
  induction rs generalizing u v with
  | nil => exact ⟨[], u, v, .of_forall fun n => rfl, .of_forall fun n => rfl, h, rfl⟩
  | cons r rs ih =>
      cases r with
      | suspend =>
          obtain ⟨replies, u', v', hu, hv, hsame, hpath⟩ := ih h.suspend
          have hsuspend : Returns (fun n => handle bufferSize n u .suspend)
              ([], { u with handle := false }) :=
            .of_forall fun n => rfl
          exact ⟨replies, u', v', handleAll_cons hsuspend hu, hv, hsame, hpath⟩
      | request r =>
          obtain ⟨reply, u₁, v₁, hu₁, hv₁, hsame₁, hpath₁⟩ := handle_same bufferSize h r
          obtain ⟨replies, u', v', hu, hv, hsame, hpath⟩ := ih hsame₁
          exact ⟨[reply] ++ replies, u', v', handleAll_cons hu₁ hu,
            handleAll_cons hv₁ hv, hsame, hpath.trans hpath₁⟩

/-! ## The length -/

/-- The requests that use the length of a file use that of its bytes. -/
structure SeesLength (bufferSize : Nat) (u : Userdata) : Prop where
  /-- COUNT writes it to the buffer, as far as that goes. -/
  count : ∀ buf : List UInt8, ∃ u',
    Returns (fun n => handle bufferSize n u (.request (.count (some buf))))
      ([⟨if buf = [] then -1 else 0, none,
        some ((leBytes 8 u.file.bytes.length).take buf.length ++ buf.drop 8), none⟩],
          u') ∧
    u'.file.bytes = u.file.bytes
  /-- DELETE cuts the file off where what is deleted ends with the file, or
  if it is forced. -/
  delete : ∀ (offset size : UInt64) (forced : Option UInt64), ∃ u',
    Returns (fun n => handle bufferSize n u
        (.request (.delete (some offset) (some size) forced)))
      ([⟨0, some size.toNat, none, none⟩], u') ∧
    u'.file.bytes =
      if (offset.toNat + size.toNat) % 2 ^ 64 = u.file.bytes.length ∨
        forced.getD 0 ≠ 0 then
        (ftruncate u.file.bytes offset.toNat).getD u.file.bytes
      else u.file.bytes
  /-- MOVE without a size is the MOVE of all bytes from the offset to the end. -/
  move : ∀ (offsetFrom offsetTo : UInt64) (size : Option UInt64),
  sizeOr size = 2 ^ 64 - 1 →
    ∃ ret u₁ u₂,
      Returns (fun n => handle bufferSize n u
          (.request (.move (some offsetFrom) (some offsetTo) size)))
        ([⟨ret, size.map UInt64.toNat, none, none⟩], u₁) ∧
      Returns (fun n => handle bufferSize n u
        (.request (.move (some offsetFrom) (some offsetTo)
          (some (.ofNat u.file.bytes.length - offsetFrom)))))
        ([⟨ret, some (UInt64.ofNat u.file.bytes.length - offsetFrom).toNat, none,
          none⟩], u₂) ∧
      u₁.file.bytes = u₂.file.bytes

theorem countReply_eq (count : Nat) (buf : List UInt8) :
    countReply count buf = .ok ⟨if buf = [] then -1 else 0, none,
      some ((leBytes 8 count).take buf.length ++ buf.drop 8), none⟩ := by
  have hlen : (leBytes 8 count).length = 8 := length_leBytes 8 count
  cases buf with
  | nil => rfl
  | cons b bs =>
      have htake : (leBytes 8 count).take (min 8 (bs.length + 1))
          = (leBytes 8 count).take (bs.length + 1) := by
        rw [List.take_eq_take_iff, hlen]
        omega
      have hdrop : (b :: bs).drop (min 8 (bs.length + 1)) = (b :: bs).drop 8 := by
        rw [List.drop_eq_drop_iff, List.length_cons]
        omega
      have hpos : ¬ min 8 (bs.length + 1) = 0 := by omega
      simp only [countReply, rawWrite, Binary.defaultWrite, hlen, List.length_cons,
        Nat.sub_zero,
        Nat.zero_add, htake, hdrop, if_neg hpos, if_neg (Nat.succ_ne_zero _),
        if_neg (Nat.not_lt_zero _), if_neg (List.cons_ne_nil b bs), List.take_zero,
        List.nil_append]
      rfl

theorem fileDelete_eq {f : File} (hf : Sane f) (offset size : UInt64)
    (forced : Option UInt64) :
    (fileDelete f (some offset) (some size) forced).1 = ⟨0, some size.toNat, none, none⟩ ∧
    (fileDelete f (some offset) (some size) forced).2.bytes =
      if (offset.toNat + size.toNat) % 2 ^ 64 = f.bytes.length ∨ forced.getD 0 ≠ 0 then
        (ftruncate f.bytes offset.toNat).getD f.bytes
      else f.bytes := by
  simp only [fileDelete, hf.updateCount, Option.getD_some]
  by_cases hlast : (offset.toNat + size.toNat) % 2 ^ 64 = f.bytes.length ∨
    forced.getD 0 ≠ 0
  · rw [if_pos hlast, if_neg (by tauto)]
    cases ftruncate f.bytes offset.toNat with
    | none => exact ⟨rfl, rfl⟩
    | some bs => exact ⟨rfl, rfl⟩
  · rw [if_neg hlast, if_pos (by tauto)]
    exact ⟨rfl, rfl⟩

theorem toNat_behind (length : Nat) (o : UInt64) :
    (((length : Int) - o.toBitVec.toInt) % 2 ^ 64).toNat
      = (UInt64.ofNat length - o).toNat := by
  have ho := o.toNat_lt
  have hint : o.toBitVec.toInt = if 2 * o.toNat < 2 ^ 64 then (o.toNat : Int)
      else o.toNat - 2 ^ 64 := by
    rw [BitVec.toInt_eq_toNat_cond]
    rfl
  rw [hint, UInt64.toNat_sub, UInt64.toNat_ofNat']
  split <;> omega

theorem fileMove_reply (bufferSize : Nat) (f : File) (offsetFrom offsetTo : UInt64)
    (size : Option UInt64) :
    (fileMove bufferSize f (some offsetFrom) (some offsetTo) size).1 =
      ⟨(fileMove bufferSize f (some offsetFrom) (some offsetTo) size).1.ret,
        size.map UInt64.toNat, none, none⟩ := by
  simp only [fileMove]
  split_ifs <;> rfl

theorem fileMove_size {f : File} (hf : Sane f) (bufferSize : Nat)
    (offsetFrom offsetTo : UInt64) {size : Option UInt64}
    (hsize : sizeOr size = 2 ^ 64 - 1) :
    (fileMove bufferSize f (some offsetFrom) (some offsetTo) size).1.ret
      = (fileMove bufferSize f (some offsetFrom) (some offsetTo)
          (some (.ofNat f.bytes.length - offsetFrom))).1.ret ∧
    (fileMove bufferSize f (some offsetFrom) (some offsetTo) size).2.bytes
      = (fileMove bufferSize f (some offsetFrom) (some offsetTo)
          (some (.ofNat f.bytes.length - offsetFrom))).2.bytes := by
  have hsome : sizeOr (some (.ofNat f.bytes.length - offsetFrom))
      = (UInt64.ofNat f.bytes.length - offsetFrom).toNat := rfl
  by_cases hall : (UInt64.ofNat f.bytes.length - offsetFrom).toNat = 2 ^ 64 - 1
  · simp only [fileMove, hsize, hsome, hall, if_true, hf.updateCount]
    split_ifs <;> exact ⟨rfl, rfl⟩
  · simp only [fileMove, hsize, hsome, if_true, if_neg hall, hf.updateCount,
      Option.getD_some, toNat_behind]
    split_ifs <;> exact ⟨rfl, rfl⟩

theorem handle_move {bufferSize : Nat} {u : Userdata} (hpath : u.path = true)
    (offsetFrom offsetTo : UInt64) (size : Option UInt64) :
    Returns (fun n => handle bufferSize n u
        (.request (.move (some offsetFrom) (some offsetTo) size)))
      ([⟨(fileMove bufferSize u.file (some offsetFrom) (some offsetTo) size).1.ret,
        size.map UInt64.toNat, none, none⟩],
        ⟨u.path, true,
          (fileMove bufferSize u.file (some offsetFrom) (some offsetTo) size).2⟩) := by
  rw [← fileMove_reply]
  refine .of_forall fun n => ?_
  simp only [handle, filePrepare_of_path hpath, fileQuery]
  rfl

theorem seesLength_of_sane {bufferSize : Nat} {u : Userdata} (hpath : u.path = true)
    (hu : Sane u.file) : SeesLength bufferSize u where
  count buf := by
    refine ⟨⟨u.path, true, u.file.bytes, some u.file.bytes.length⟩,
      .of_forall fun n => ?_, rfl⟩
    simp only [handle, filePrepare_of_path hpath, fileQuery, fileCount, hu.updateCount,
      Option.getD_some, countReply_eq]
    rfl
  delete offset size forced := by
    obtain ⟨hreply, hbytes⟩ := fileDelete_eq hu offset size forced
    refine ⟨⟨u.path, true, (fileDelete u.file (some offset) (some size) forced).2⟩,
      .of_forall fun n => ?_, hbytes⟩
    simp only [handle, filePrepare_of_path hpath, fileQuery, ← hreply]
    rfl
  move offsetFrom offsetTo size hsize := by
    obtain ⟨hret, hbytes⟩ := fileMove_size hu bufferSize offsetFrom offsetTo hsize
    have hall := @handle_move bufferSize u hpath offsetFrom offsetTo size
    rw [hret] at hall
    exact ⟨_, _, _, hall, handle_move hpath offsetFrom offsetTo _, hbytes⟩

/-! ## Every run -/

/-- **The stat cache and `file_suspend`**: after every run the size that is remembered
is that of the file, and COUNT, DELETE and MOVE use it; and the other requests answer as
they do in the run without `file_suspend`. -/
theorem suspend_transparent (bufferSize : Nat) (u : Userdata) (hu : Sane u.file)
    (rs : List FileRequest) :
    ∃ replies u' v', Returns (fun n => handleAll bufferSize n u rs) (replies, u') ∧
      Returns (fun n => handleAll bufferSize n u (unsuspended rs)) (replies, v') ∧
      v'.file.bytes = u'.file.bytes ∧
      (∀ size, u'.file.stat = some size → size = u'.file.bytes.length) ∧
      (fileUpdateCount u'.file).stat = some u'.file.bytes.length ∧
      (u.path = true → SeesLength bufferSize u') := by
  obtain ⟨replies, u', v', hrun, hrun', hsame, hpath⟩ :=
    handleAll_same bufferSize rs ⟨rfl, rfl, hu, hu⟩
  refine ⟨replies, u', v', hrun, hrun', hsame.bytes.symm, fun size hsize => ?_, ?_,
    fun h => ?_⟩
  · rcases hsame.left.stat with hstat | hstat
    · cases hstat.symm.trans hsize
    · exact Option.some.inj (hsize.symm.trans hstat)
  · rw [hsame.left.updateCount]
  · exact seesLength_of_sane (hpath.trans h) hsame.left

/-- A file of three bytes that is counted, suspended and shortened. -/
def shortened : List FileRequest :=
  [.request (.count (some (List.replicate 8 0))), .suspend,
    .request (.delete (some 2) (some 1) none), .suspend]

/-- It is counted again as it is then. -/
theorem suspend_transparent_three :
    ∃ replies u' v',
      Returns (fun n => handleAll 1024 n ⟨true, true, ⟨[1, 2, 3], none⟩⟩ shortened)
        (replies, u') ∧
      Returns (fun n => handleAll 1024 n ⟨true, true, ⟨[1, 2, 3], none⟩⟩
        (unsuspended shortened)) (replies, v') ∧
      v'.file.bytes = u'.file.bytes ∧
      (∀ size, u'.file.stat = some size → size = u'.file.bytes.length) ∧
      (fileUpdateCount u'.file).stat = some u'.file.bytes.length ∧
      SeesLength 1024 u' := by
  obtain ⟨replies, u', v', hrun, hrun', hbytes, hstat, hcount, hsees⟩ :=
    suspend_transparent 1024 ⟨true, true, ⟨[1, 2, 3], none⟩⟩ ⟨by decide, .inl rfl⟩
      shortened
  exact ⟨replies, u', v', hrun, hrun', hbytes, hstat, hcount, hsees rfl⟩

end Frozen.Storage
