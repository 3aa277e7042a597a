/-
# `Frozen.Cache.Backend` — `cache/cache` over a file

The cache reads the file into a `memory_t` when it is configured, and serves five of the
six requests from there; `MOVE` has no handler and is passed to the file.  When it is
disabled it transfers the memory to the file.

`memory_t` answers a read behind its end with no bytes, never with an end, and a write
there with no bytes taken.  The transfers of `cache_backend_read` ask for their answer
in three arguments, so the number of bytes is not among them.
-/
import Frozen.Cache.File

namespace Frozen.Cache

open Lib

/-! ## Memory -/

/-- `memory_t` in pages.  After a failed allocation it is `MEMORY_FREED`, and has an
`exact_size` still. -/
inductive Memory where
  | freed (exactSize : Nat)
  /-- `ptr_size`, and the `exact_size` bytes in use -/
  | held (ptrSize : Nat) (bytes : List UInt8)

def CACHE_PAGE_SIZE : Nat := 0x1000

/-- The bytes in use. -/
def Memory.bytes : Memory → List UInt8
  | .freed _ => []
  | .held _ bytes => bytes

/-- `memory_size`. -/
def Memory.size : Memory → Nat
  | .freed exactSize => exactSize
  | .held _ bytes => bytes.length

/-- `ptr_size` for an `exact_size`. -/
def pages (size : Nat) : Nat := (size / CACHE_PAGE_SIZE + 1) * CACHE_PAGE_SIZE % 2 ^ 64

/-- The first bytes of a memory; `junk` is what a larger one has behind the old bytes. -/
def refit (junk : Nat → UInt8) (bytes : List UInt8) (size : Nat) : List UInt8 :=
  bytes.take size ++ Binary.blank junk (size - bytes.length)

/-- `memory_resize`; `realloc` refuses nothing and what is larger than an object. -/
def Memory.resize (junk : Nat → UInt8) (m : Memory) (newSize : Nat) : Int × Memory :=
  match m with
  | .freed _ => (-EFAULT, .freed newSize)
  | .held ptrSize bytes =>
      if pages newSize = ptrSize then (0, .held ptrSize (refit junk bytes newSize))
      else if pages newSize = 0 ∨ Binary.maxObject < pages newSize
        then (-EFAULT, .freed 0)
      else (0, .held (pages newSize) (refit junk bytes newSize))

/-- `memory_grow`, with `zero` set: what it answers, and the old size. -/
def Memory.grow (junk : Nat → UInt8) (m : Memory) (size : Nat) : Int × Memory :=
  if 2 ^ 64 - 1 - size ≤ m.size then (-EINVAL, m)
  else
    match m.resize junk (m.size + size) with
    | (0, .held ptrSize bytes) =>
        (0, .held ptrSize (bytes.take m.size ++ List.replicate size 0 ++ bytes.drop
          (m.size + size)))
    | r => r

/-- `data_memory_t_read`. -/
def memoryRead (m : Memory) : Reader := fun offset bufferSize =>
  .ok (0, (m.bytes.drop offset).take bufferSize)

/-- `data_memory_t_write`. -/
def memoryWrite : Writer Memory := fun offset bytes m =>
  match m with
  | .freed exactSize => .ok (0, 0, .freed exactSize)
  | .held ptrSize mem =>
      .ok (0, min bytes.length (mem.length - offset),
        .held ptrSize (patch mem (offset, bytes.take (mem.length - offset))))

/-! ## Handlers -/

def CACHE_EMODULE : Nat := 3

/-- The transfer is asked with three arguments: it does not say how much it was. -/
def cacheBackendRead (n : Nat) (m : Memory) (offset size : Option UInt64)
    (buffer : Option (List UInt8)) : Except OutOfFuel Reply :=
  match buffer with
  | none => .ok ⟨-EINVAL, size.map UInt64.toNat, none, none⟩
  | some buf => do
      let (ret, _, buf) ←
        convertTo (sliceRead (offsetOr offset) (sizeOr size) (memoryRead m))
          rawWrite n buf
      .ok ⟨ret, size.map fun _ => 0, some buf, none⟩

def cacheBackendWrite (m : Memory) (offset size : Option UInt64)
    (buffer : Option (List UInt8)) : Except OutOfFuel (Reply × Memory) :=
  match buffer with
  | none => .ok (⟨-EINVAL, size.map UInt64.toNat, none, none⟩, m)
  | some buf => do
      let (ret, transfered, m) ←
        rawTransfer buf (sliceWrite (offsetOr offset) (sizeOr size) memoryWrite) m
      .ok (⟨ret, size.map fun _ => transfered, none, none⟩, m)

def cacheBackendCreate (junk : Nat → UInt8) (m : Memory) (size : Option UInt64)
    (buffer : Option (List UInt8)) (offsetOut : Bool) :
    Except OutOfFuel (Reply × Memory) :=
  let failed (line : Nat) (m : Memory) : Reply × Memory :=
    (⟨errorCode CACHE_EMODULE line, size.map UInt64.toNat, none, none⟩, m)
  match size with
  | none => .ok (failed 165 m)
  | some sz =>
      let offset := m.size
      let r := m.grow junk sz.toNat
      -- `cache_fast_create` returns the size, or 0
      if (if r.1 = 0 then sz.toNat else 0) ≠ sz.toNat then .ok (failed 168 r.2)
      else do
        let (reply, m) ← cacheBackendWrite r.2 (some (.ofNat offset)) size buffer
        let out := if offsetOut then some offset else none
        .ok ({ reply with
            ret := if reply.ret ≠ -EINVAL then reply.ret else 0
            offsetOut := out }, m)

/-- `cache_fast_delete`: the size, or 0. -/
def cacheFastDelete (junk : Nat → UInt8) (m : Memory) (offset size : Nat) :
    Nat × Memory :=
  if (offset + size) % 2 ^ 64 ≠ m.size then (0, m)
  else
    let r := m.resize junk offset
    if r.1 ≠ 0 then (0, r.2) else (size, r.2)

def cacheBackendDelete (junk : Nat → UInt8) (m : Memory) (offset size : Option UInt64) :
    Reply × Memory :=
  let reply (ret : Int) : Reply := ⟨ret, size.map UInt64.toNat, none, none⟩
  match offset, size with
  | none, _ => (reply (errorCode CACHE_EMODULE 192), m)
  | _, none => (reply (errorCode CACHE_EMODULE 193), m)
  | some offset, some size =>
      let r := cacheFastDelete junk m offset.toNat size.toNat
      if r.1 ≠ size.toNat then (reply (errorCode CACHE_EMODULE 196), r.2)
      else (reply 0, r.2)

def cacheBackendCount (m : Memory) (buffer : Option (List UInt8)) :
    Except OutOfFuel Reply :=
  match buffer with
  | none => .ok ⟨-EINVAL, none, none, none⟩
  | some buf => countReply m.size buf

/-! ## The backend -/

/-- The memory of the cache, if it is enabled, and the file behind it. -/
structure CacheUserdata where
  memory : Option Memory
  file : File

/-- A request to the cache. -/
def cacheQuery (junk : Nat → UInt8) (bufferSize n : Nat) (c : CacheUserdata)
    (request : Request) : Except OutOfFuel (Reply × CacheUserdata) :=
  match c.memory with
  | none => do
      let (reply, f) ← fileQuery bufferSize n c.file request
      .ok (reply, { c with file := f })
  | some m =>
      match request with
      | .create size buffer offsetOut => do
          let (reply, m) ← cacheBackendCreate junk m size buffer offsetOut
          .ok (reply, { c with memory := some m })
      | .read offset size buffer => do
          let reply ← cacheBackendRead n m offset size buffer
          .ok (reply, c)
      | .write offset size buffer => do
          let (reply, m) ← cacheBackendWrite m offset size buffer
          .ok (reply, { c with memory := some m })
      | .delete offset size _ =>
          let r := cacheBackendDelete junk m offset size
          .ok (r.1, { c with memory := some r.2 })
      | .move offsetFrom offsetTo size =>
          let r := fileMove bufferSize c.file offsetFrom offsetTo size
          .ok (r.1, { c with file := r.2 })
      | .count buffer => do
          let reply ← cacheBackendCount m buffer
          .ok (reply, c)

/-- A read of the cache before it is enabled: the request is passed to the file. -/
def backendRead (n : Nat) (f : File) : Reader := fun offset bufferSize => do
  let reply ← fileRead n f (some (.ofNat offset)) (some (.ofNat bufferSize))
    (some (List.replicate bufferSize 0))
  .ok (reply.ret, (reply.buffer.getD []).take (reply.size.getD 0))

/-- `cache_get_filesize`. -/
def cacheGetFilesize (f : File) : Except OutOfFuel (Nat × File) := do
  let (reply, f) ← fileCount f (some (List.replicate 8 0))
  .ok (if reply.ret < 0 then 0 else leNat (reply.buffer.getD []), f)

/-- `cache_enable`. -/
def cacheEnable (junk : Nat → UInt8) (n : Nat) (f : File) :
    Except OutOfFuel CacheUserdata := do
  let (fileSize, f) ← cacheGetFilesize f
  match (Memory.held 0 []).resize junk fileSize with
  | (0, m) => do
      let (ret, _, m) ← convertTo (backendRead n f) memoryWrite n m
      if ret < 0 then .ok ⟨none, f⟩ else .ok ⟨some m, f⟩
  | _ => .ok ⟨none, f⟩

/-- A write to the file behind the cache, as a request. -/
def backendWrite : Writer File := fun offset bytes f => do
  let (reply, f) ← fileWrite f (some (.ofNat offset)) (some (.ofNat bytes.length))
    (some bytes)
  .ok (reply.ret, reply.size.getD 0, f)

/-- `cache_disable`: the file behind it. -/
def cacheDisable (n : Nat) (c : CacheUserdata) : Except OutOfFuel CacheUserdata :=
  match c.memory with
  | none => .ok c
  | some m => do
      let (_, _, f) ← convertTo (memoryRead m) backendWrite n c.file
      .ok ⟨none, f⟩

end Frozen.Cache
