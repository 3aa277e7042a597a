/-
# `Frozen.Cache.File` — `storage/file`

The six requests of the file backend, on a file that is a list of bytes.  The file
system has room for every file that an `off_t` can measure and its calls are not
interrupted; what they refuse is an offset that is negative as an `off_t`, and a file
that is too long.

Two things differ from what one expects: `file_new_offset` takes the size of a new item
as an `unsigned int`, and `file_delete` returns 0 also where it has refused to delete.
-/
import Frozen.Cache.Transfer

namespace Frozen.Cache

open Lib

/-! ## Requests -/

/-- A request with the items that the handlers look for; buffers are `raw_t`. -/
inductive Request where
  | create (size : Option UInt64) (buffer : Option (List UInt8)) (offsetOut : Bool)
  | read (offset size : Option UInt64) (buffer : Option (List UInt8))
  | write (offset size : Option UInt64) (buffer : Option (List UInt8))
  | delete (offset size forced : Option UInt64)
  | move (offsetFrom offsetTo size : Option UInt64)
  | count (buffer : Option (List UInt8))

/-- `HK(ret)`, and the items that a handler may write to: what they are in the end. -/
structure Reply where
  ret : Int
  size : Option Nat
  buffer : Option (List UInt8)
  offsetOut : Option Nat

/-- `~0`, where there is no `HK(size)`. -/
def sizeOr (size : Option UInt64) : Nat := (size.map UInt64.toNat).getD (2 ^ 64 - 1)

def offsetOr (offset : Option UInt64) : Nat := (offset.map UInt64.toNat).getD 0

/-! ## Files -/

structure File where
  bytes : List UInt8
  /-- `file_stat.st_size`, if the status is `STAT_UPDATED` -/
  stat : Option Nat

/-- The largest `off_t`. -/
def OFF_MAX : Nat := 2 ^ 63 - 1

def EFBIG : Int := 27

/-- Bytes put at an offset; a gap is filled with zeros. -/
def putAt (bs : List UInt8) (offset : Nat) (d : List UInt8) : List UInt8 :=
  (bs ++ List.replicate (offset - bs.length) 0).take offset ++ d ++ bs.drop
  (offset + d.length)

/-- `pwrite`; no bytes written is an error, with `-errno`. -/
def pwrite (bs : List UInt8) (offset : Nat) (d : List UInt8) :
    Except Int (Nat × List UInt8) :=
  if OFF_MAX < offset then .error (-EINVAL)
  else if d = [] then .ok (0, bs)
  else if offset = OFF_MAX then .error (-EFBIG)
  else .ok (min d.length (OFF_MAX - offset), putAt bs offset (d.take (OFF_MAX - offset)))

/-- `ftruncate`. -/
def ftruncate (bs : List UInt8) (length : Nat) : Option (List UInt8) :=
  if OFF_MAX < length then none
  else some (bs.take length ++ List.replicate (length - bs.length) 0)

/-- `file_io_handler`, `ACTION_READ`. -/
def fileIoRead (f : File) : Reader := fun offset bufferSize =>
  if OFF_MAX < offset then .ok (-EINVAL, [])
  else if (f.bytes.drop offset).take bufferSize = [] ∧ bufferSize ≠ 0 then .ok (-1, [])
  else .ok (0, (f.bytes.drop offset).take bufferSize)

/-- `file_io_handler`, `ACTION_WRITE`. -/
def fileIoWrite : Writer File := fun offset bytes f =>
  match pwrite f.bytes offset bytes with
  | .error e => .ok (e, bytes.length, f)
  | .ok (k, bs) => .ok (0, k, { f with bytes := bs })

/-- `file_update_count`. -/
def fileUpdateCount (f : File) : File :=
  { f with stat := some (f.stat.getD f.bytes.length) }

def FILE_EMODULE : Nat := 1

/-! ## Handlers -/

def fileRead (n : Nat) (f : File) (offset size : Option UInt64)
    (buffer : Option (List UInt8)) : Except OutOfFuel Reply :=
  match buffer with
  | none => .ok ⟨-EINVAL, size.map UInt64.toNat, none, none⟩
  | some buf => do
      let (ret, transfered, buf) ←
        convertTo (sliceRead (offsetOr offset) (sizeOr size) (fileIoRead f))
          rawWrite n buf
      .ok ⟨ret, size.map fun _ => transfered, some buf, none⟩

def fileWrite (f : File) (offset size : Option UInt64) (buffer : Option (List UInt8)) :
    Except OutOfFuel (Reply × File) :=
  let f := { f with stat := none }
  match buffer with
  | none => .ok (⟨-EINVAL, size.map UInt64.toNat, none, none⟩, f)
  | some buf => do
      let (ret, transfered, f) ←
        rawTransfer buf (sliceWrite (offsetOr offset) (sizeOr size) fileIoWrite) f
      .ok (⟨ret, size.map fun _ => transfered, none, none⟩, f)

/-- `file_new_offset`; the size is an `unsigned int`. -/
def fileNewOffset (f : File) (size : Nat) : Option (Nat × File) :=
  (ftruncate f.bytes (f.bytes.length + size % 2 ^ 32)).map fun bs =>
    (f.bytes.length, ⟨bs, none⟩)

def fileCreate (f : File) (size : Option UInt64) (buffer : Option (List UInt8))
    (offsetOut : Bool) : Except OutOfFuel (Reply × File) :=
  let failed (line : Nat) : Reply × File :=
    (⟨errorCode FILE_EMODULE line, size.map UInt64.toNat, none, none⟩, f)
  match (size.map UInt64.toNat).or (buffer.map List.length) with
  | none => .ok (failed 474)
  | some sz =>
      match fileNewOffset f sz with
      | none => .ok (failed 484)
      | some (offset, f) => do
          let (reply, f) ← fileWrite f (some (.ofNat offset)) size buffer
          let out := if offsetOut then some offset else none
          .ok ({ reply with
              ret := if reply.ret ≠ -EINVAL then reply.ret else 0
              offsetOut := out }, f)

def fileDelete (f : File) (offset size forced : Option UInt64) : Reply × File :=
  let reply (ret : Int) : Reply := ⟨ret, size.map UInt64.toNat, none, none⟩
  match offset, size with
  | none, _ => (reply (errorCode FILE_EMODULE 513), f)
  | _, none => (reply (errorCode FILE_EMODULE 514), f)
  | some key, some size =>
      let f := fileUpdateCount f
      -- `ret` is set and not returned
      if (key.toNat + size.toNat) % 2 ^ 64 ≠ f.stat.getD 0 ∧ forced.getD 0 = 0
        then (reply 0, f)
      else
        match ftruncate f.bytes key.toNat with
        | none => (reply 0, f)
        | some bs => (reply 0, ⟨bs, none⟩)

/-- An `off_t` after an addition. -/
def offT (n : Int) : Int := Int.bmod n (2 ^ 64)

/-- The loop of `file_move`; every round takes at least a byte of `moveSize`. -/
def moveLoop (maxSize : Nat) (direction : Int) :
    Nat → Nat → Nat → Int → Int → List UInt8 → Int × List UInt8
  | 0, _, _, _, _, bs => (0, bs)
  | n + 1, moveSize, size, start, target, bs =>
      if moveSize = 0 then (0, bs)
      else if start < 0 then (-EINVAL, bs)
      else
        let buff := (bs.drop start.toNat).take size
        if buff = [] then (errorCode FILE_EMODULE 598, bs)
        else if target < 0 then (-EINVAL, bs)
        else
          match pwrite bs target.toNat buff with
          | .error e => (e, bs)
          | .ok (_, bs) =>
              moveLoop maxSize direction n (moveSize - size)
                (min maxSize (moveSize - size))
                (offT (start + direction * size)) (offT (target + direction * size)) bs

def fileMove (bufferSize : Nat) (f : File) (offsetFrom offsetTo size : Option UInt64) :
    Reply × File :=
  let reply (ret : Int) : Reply := ⟨ret, size.map UInt64.toNat, none, none⟩
  match offsetFrom, offsetTo with
  | none, _ => (reply (errorCode FILE_EMODULE 556), f)
  | _, none => (reply (errorCode FILE_EMODULE 557), f)
  | some offsetFrom, some offsetTo =>
      let start := offsetFrom.toBitVec.toInt
      let target := offsetTo.toBitVec.toInt
      -- `-1` is no size
      let f := if sizeOr size = 2 ^ 64 - 1 then fileUpdateCount f else f
      let moveSize :=
        if sizeOr size = 2 ^ 64 - 1 then ((f.stat.getD 0 - start) % 2 ^ 64).toNat
        else sizeOr size
      if start = target ∨ moveSize = 0 then (reply 0, f)
      else
        let maxSize := min (target - start).natAbs bufferSize
        let size := min maxSize moveSize
        if size = 0 then (reply (errorCode FILE_EMODULE 585), f)
        else
          let ahead : Int := if start < target then (moveSize - size : Nat) else 0
          let r := moveLoop maxSize (if start < target then -1 else 1) moveSize
            moveSize size (offT (start + ahead)) (offT (target + ahead)) f.bytes
          (reply r.1, ⟨r.2, none⟩)

/-- The count as it is written to a buffer: 8 bytes. -/
def countReply (count : Nat) (buf : List UInt8) : Except OutOfFuel Reply := do
  let (ret, _, buf) ← rawWrite 0 (leBytes 8 count) buf
  .ok ⟨ret, none, some buf, none⟩

def fileCount (f : File) (buffer : Option (List UInt8)) :
    Except OutOfFuel (Reply × File) :=
  match buffer with
  | none => .ok (⟨errorCode FILE_EMODULE 633, none, none, none⟩, f)
  | some buf => do
      let f := fileUpdateCount f
      let reply ← countReply (f.stat.getD 0) buf
      .ok (reply, f)

/-- A request to the file backend, which moves with a buffer of this size. -/
def fileQuery (bufferSize n : Nat) (f : File) : Request → Except OutOfFuel (Reply × File)
  | .create size buffer offsetOut => fileCreate f size buffer offsetOut
  | .read offset size buffer => do
      let reply ← fileRead n f offset size buffer
      .ok (reply, f)
  | .write offset size buffer => fileWrite f offset size buffer
  | .delete offset size forced => .ok (fileDelete f offset size forced)
  | .move offsetFrom offsetTo size => .ok (fileMove bufferSize f offsetFrom offsetTo size)
  | .count buffer => fileCount f buffer

end Frozen.Cache
