/-
# `Frozen.Chunked.Buffer` — buffers made of chunks

A `buffer_t` is a chain of chunks.  A chunk is a header with a size and the next
chunk; its bytes follow the header, or lie in memory that the caller owns (a bare
chunk).  Every walk over the chain is the macro `buffer_process`, with a body for
each chunk, clipped to what is still to process, and a new chunk at the end if the
caller asks for one.

The bytes of all chunks, and those that reads and writes copy from and to, are in one
memory.  Where `malloc` puts a chunk is part of the operation, as is what the rest of the
program does to memory that is not in the buffer.
-/
import Frozen.Lib.Fuel

namespace Frozen.Chunked

/-! ## Chunks -/

inductive ChunkType where
  | allocated
  | bare
deriving DecidableEq

/-- `chunk_t`. -/
structure Chunk where
  type : ChunkType
  size : Nat
  cnext : Option Nat
  barePtr : Nat

/-- `buffer_t` of type `BUFF_TYPE_CHUNKED`. -/
structure Buffer where
  size : Nat
  head : Option Nat
  tail : Option Nat

/-- A chunk is known by the address behind its header; a header that was freed is none. -/
structure State where
  chunks : Nat → Option Chunk
  mem : Nat → UInt8
  buffer : Buffer

inductive Stop where
  | outOfFuel
  /-- access to a chunk that is not there -/
  | wild
deriving DecidableEq

/-- `chunk_get_ptr`. -/
def chunkGetPtr (chunk : Nat) (c : Chunk) : Nat :=
  match c.type with
  | .allocated => chunk
  | .bare => c.barePtr

/-- `memcpy`. -/
def memcpy (mem : Nat → UInt8) (dst src n : Nat) : Nat → UInt8 :=
  fun a => if dst ≤ a ∧ a < dst + n then mem (src + (a - dst)) else mem a

namespace State

def header (st : State) (chunk : Nat) : Except Stop Chunk :=
  match st.chunks chunk with
  | some c => .ok c
  | none => .error .wild

def setHeader (st : State) (chunk : Nat) (c : Option Chunk) : State :=
  { st with chunks := Function.update st.chunks chunk c }

/-- `chunk_data_alloc`. -/
def chunkDataAlloc (st : State) (chunk size : Nat) : State :=
  st.setHeader chunk (some ⟨.allocated, size, none, 0⟩)

/-- `chunk_bare_alloc`. -/
def chunkBareAlloc (st : State) (chunk ptr size : Nat) : State :=
  st.setHeader chunk (some ⟨.bare, size, none, ptr⟩)

/-- `buffer_init`. -/
def init (st : State) : State := { st with buffer := ⟨0, none, none⟩ }

/-! ## The chain -/

/-- `buffer_add_head_any`. -/
def addHeadAny (st : State) (chunk : Nat) : Except Stop State := do
  let c ← st.header chunk
  let size := st.buffer.size + c.size
  match st.buffer.head with
  | none => .ok { st with buffer := ⟨size, some chunk, some chunk⟩ }
  | some head =>
      let st := st.setHeader chunk (some { c with cnext := some head })
      .ok { st with buffer := ⟨size, some chunk, st.buffer.tail⟩ }

/-- `buffer_add_tail_any`. -/
def addTailAny (st : State) (chunk : Nat) : Except Stop State := do
  let c ← st.header chunk
  let size := st.buffer.size + c.size
  match st.buffer.tail with
  | none => .ok { st with buffer := ⟨size, some chunk, some chunk⟩ }
  | some tail => do
      let t ← st.header tail
      let st := st.setHeader tail (some { t with cnext := some chunk })
      .ok { st with buffer := ⟨size, st.buffer.head, some chunk⟩ }

/-- `buffer_add_head_chunk`, with the memory from `malloc`. -/
def addHeadChunk (st : State) (chunk size : Nat) : Except Stop State :=
  (st.chunkDataAlloc chunk size).addHeadAny chunk

/-- `buffer_add_tail_chunk`. -/
def addTailChunk (st : State) (chunk size : Nat) : Except Stop State :=
  (st.chunkDataAlloc chunk size).addTailAny chunk

/-- `buffer_add_head_raw`. -/
def addHeadRaw (st : State) (chunk ptr size : Nat) : Except Stop State :=
  (st.chunkBareAlloc chunk ptr size).addHeadAny chunk

/-- `buffer_add_tail_raw`. -/
def addTailRaw (st : State) (chunk ptr size : Nat) : Except Stop State :=
  (st.chunkBareAlloc chunk ptr size).addTailAny chunk

/-! ## `buffer_process` -/

section

variable {α : Type}

/-- The loop of `buffer_process`: `create` is the chunk `malloc` gives if one is asked
for, and `func` gets the offset, the size and the place of the bytes. -/
def process (create : Option Nat) (func : Nat → Nat → Nat → State → α → State × α) :
    Nat → Nat → Nat → Option Nat → State → α → Except Stop (State × α)
  | 0, _, _, _, _, _ => .error .outOfFuel
  | n + 1, toProcess, offset, sChunk, st, x =>
      if toProcess = 0 then .ok (st, x)
      else
        match sChunk, create with
        | none, none => .ok (st, x)
        | none, some chunk => do
            let st ← st.addTailChunk chunk toProcess
            let c ← st.header chunk
            let size := if c.size > toProcess then toProcess else c.size
            let r := func offset size (chunkGetPtr chunk c) st x
            process create func n (toProcess - size) (offset + size) c.cnext r.1 r.2
        | some chunk, _ => do
            let c ← st.header chunk
            let size := if c.size > toProcess then toProcess else c.size
            let r := func offset size (chunkGetPtr chunk c) st x
            process create func n (toProcess - size) (offset + size) c.cnext r.1 r.2

end

/-- The body of `buffer_write`. -/
def writeBody (writeOffset buf : Nat) (offset size chunk : Nat) (st : State) (_ : Unit) :
    State × Unit :=
  if writeOffset ≥ offset ∧ offset + size > writeOffset then
    let offsetDiff := writeOffset - offset
    ({ st with mem := memcpy st.mem (chunk + offsetDiff) buf (size - offsetDiff) }, ())
  else if offset ≥ writeOffset then
    ({ st with mem := memcpy st.mem chunk (buf + (offset - writeOffset)) size }, ())
  else (st, ())

/-- `buffer_write`, with the chunk from `malloc` if one is needed. -/
def write (fuel : Nat) (st : State) (writeOffset buf bufSize chunk : Nat) :
    Except Stop (State × Nat) := do
  let r ← process (some chunk) (writeBody writeOffset buf) fuel (writeOffset + bufSize) 0
    st.buffer.head st ()
  .ok (r.1, writeOffset + bufSize)

/-- The body of `buffer_read`. -/
def readBody (readOffset buf : Nat) (offset size chunk : Nat) (st : State)
    (processed : Nat) : State × Nat :=
  if readOffset ≥ offset ∧ offset + size > readOffset then
    let offsetDiff := readOffset - offset
    ({ st with mem := memcpy st.mem buf (chunk + offsetDiff) (size - offsetDiff) },
      processed + (size - offsetDiff))
  else if offset ≥ readOffset then
    ({ st with mem := memcpy st.mem (buf + (offset - readOffset)) chunk size },
      processed + size)
  else (st, processed)

/-- `buffer_read`. -/
def read (fuel : Nat) (st : State) (readOffset buf bufSize : Nat) :
    Except Stop (State × Nat) :=
  process none (readBody readOffset buf) fuel (readOffset + bufSize) 0 st.buffer.head st 0

/-- The loop of `buffer_cleanup`. -/
def freeChunks : Nat → Option Nat → State → Except Stop State
  | 0, _, _ => .error .outOfFuel
  | _ + 1, none, st => .ok st
  | n + 1, some chunk, st => do
      let c ← st.header chunk
      freeChunks n c.cnext (st.setHeader chunk none)

/-- `buffer_cleanup`. -/
def cleanup (fuel : Nat) (st : State) : Except Stop State := do
  let st ← freeChunks fuel st.buffer.head st
  .ok st.init

/-- `buffer_defragment`, with the chunk from `malloc`. -/
def defragment (fuel : Nat) (st : State) (chunk : Nat) : Except Stop (State × Nat) := do
  if st.buffer.head = st.buffer.tail then
    match st.buffer.head with
    | none => .error .wild
    | some head => do
        let c ← st.header head
        .ok (st, chunkGetPtr head c)
  else do
    let size := st.buffer.size
    let r ← (st.chunkDataAlloc chunk size).read fuel 0 chunk size
    let st ← r.1.cleanup fuel
    let st ← st.addTailAny chunk
    .ok (st, chunk)

end State

/-! ## Operations -/

/-- What is done with a buffer; `chunk` is where `malloc` puts a new one. -/
inductive Op where
  | addHeadChunk (chunk size : Nat)
  | addTailChunk (chunk size : Nat)
  | addHeadRaw (chunk ptr size : Nat)
  | addTailRaw (chunk ptr size : Nat)
  | write (offset buf bufSize chunk : Nat)
  | read (offset buf bufSize : Nat)
  | defragment (chunk : Nat)
  /-- the rest of the program uses its memory -/
  | other (mem : Nat → UInt8)

def step (fuel : Nat) (st : State) : Op → Except Stop (State × Nat)
  | .addHeadChunk chunk size => do .ok (← st.addHeadChunk chunk size, 0)
  | .addTailChunk chunk size => do .ok (← st.addTailChunk chunk size, 0)
  | .addHeadRaw chunk ptr size => do .ok (← st.addHeadRaw chunk ptr size, 0)
  | .addTailRaw chunk ptr size => do .ok (← st.addTailRaw chunk ptr size, 0)
  | .write offset buf bufSize chunk => st.write fuel offset buf bufSize chunk
  | .read offset buf bufSize => st.read fuel offset buf bufSize
  | .defragment chunk => st.defragment fuel chunk
  | .other mem => .ok ({ st with mem := mem }, 0)

end Frozen.Chunked
