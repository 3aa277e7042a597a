/-
# `Frozen.Ipc.Shmem` — requests through shared memory

`backends/communication/ipc/ipc_shmem.c`.  Clients and one server share a segment: a
header with two semaphores, `nitems` blocks with a status word and a semaphore of
their own, and `nitems` data areas of `item_size` bytes.  A request takes its block
round a cycle of states:

    FREE -> WRITING -> WRITTEN -> EXECUTING -> EXEC_DONE -> FREE   (synchronous)
    FREE -> WRITING -> WRITTEN -> EXECUTING -> FREE                (asynchronous)

Clients run `ipc_shmem_query` and the server runs `ipc_shmem_listen`, in any
interleaving.  A step below is one access to the segment: a semaphore operation, one
compare-and-swap, or one transfer of data.  `shmem_block_status` is therefore TWO
steps, the swap and, if it succeeded, the post; the loop of `shmem_get_block` is one
step per block.

Each call of `ipc_shmem_query` has a program counter of its own (a client that calls
twice is two calls).  What the backend behind the server does with a request is up
to it, so the bytes it leaves in the block are part of the scheduler's choice.
-/
import Frozen.Core.Base
import Frozen.Lib.Bytes
import Frozen.Lib.Machine

namespace Frozen.Ipc

open Frozen.Lib

def EMODULE : Nat := 9

/-- The largest value of a semaphore, from the C library. -/
def SEM_VALUE_MAX : Nat := 2147483647

/-- `block_status`. -/
inductive Status where
  | free | writing | written | executing | execDone
deriving DecidableEq, Repr

/-- `forced_states`. -/
inductive ForcedState where
  | async | sync | none
deriving DecidableEq, Repr

/-! ## Requests -/

/-- The item of a request under the configured buffer key.  Of a data type other than
`raw_t` only its conversion counts: the bytes it writes and whether it succeeds. -/
inductive Buffer where
  | missing
  | raw (bytes : List UInt8)
  | other (written : List UInt8) (ok : Bool)

/-- `data_query(buffer, ACTION_CONVERT_TO)` to an area of `itemSize` bytes in the binary
format: what is written at the start of the area, and whether the answer is not
negative.  A `raw_t` writes its size, then its bytes; a write is cut off at the end
of the area, and one of no bytes at all is an error. -/
def convertTo (itemSize : Nat) : Buffer → List UInt8 × Bool
  | .missing => ([], false)
  | .raw bytes =>
      let header := leBytes 8 bytes.length
      if itemSize = 0 then ([], false)
      else if itemSize < 8 then (header.take itemSize, false)
      else (header ++ bytes.take (itemSize - 8), min bytes.length (itemSize - 8) ≠ 0)
  | .other written ok => (written.take itemSize, ok)

/-- One call: the client's configuration and its request. -/
structure Call where
  forcedState : ForcedState
  returnResult : UInt64
  async : Option UInt64
  buffer : Buffer

/-- `f_async` after the switch. -/
def Call.fAsync (call : Call) : UInt64 :=
  match call.forcedState with
  | .sync => 0
  | .async => 1
  | .none => call.async.getD 0

/-- The conversion of the call's buffer succeeds. -/
def Call.Converts (itemSize : Nat) (call : Call) : Prop :=
  (convertTo itemSize call.buffer).2 = true

/-! ## The segment -/

/-- Header, blocks and data; a block is an index below `nitems`. -/
structure Shm where
  itemSize : Nat
  nitems : Nat
  semFree : Nat
  semWritten : Nat
  status : Nat → Status
  /-- `return_result`, as far as it is not 0. -/
  returnResult : Nat → Bool
  dataRelPtr : Nat → Nat
  semDone : Nat → Nat
  data : Nat → UInt8

/-- `sem_init`: the value is an `unsigned int`, and one that is too large leaves the
semaphore as it was. -/
def semInit (old value : Nat) : Nat :=
  if value % 2 ^ 32 ≤ SEM_VALUE_MAX then value % 2 ^ 32 else old

/-- One round of the loop of `shmem_init`; `data_rel_ptr` is an `unsigned int`. -/
def shmemInitBlock (m : Shm) (i : Nat) : Shm :=
  { m with
    semDone := Function.update m.semDone i (semInit (m.semDone i) 0)
    dataRelPtr := Function.update m.dataRelPtr i (i * m.itemSize % 2 ^ 32) }

def shmemInit (m : Shm) : Shm :=
  (List.range m.nitems).foldl shmemInitBlock
    { m with semWritten := semInit m.semWritten 0, semFree := semInit m.semFree m.nitems }

/-- A fresh segment is all zeros but for the two fields the server sets first. -/
def zeroed (nitems itemSize : Nat) : Shm :=
  { itemSize, nitems, semFree := 0, semWritten := 0, status := fun _ => .free
    returnResult := fun _ => false, dataRelPtr := fun _ => 0, semDone := fun _ => 0
    data := fun _ => 0 }

/-! ## Parties -/

/-- Where a call of `ipc_shmem_query` stands. -/
inductive Pc where
  | start
  | scan (i : Nat)
  | convert (i : Nat)
  | setResult (i : Nat)
  | casWritten (i : Nat)
  | postWritten (i : Nat)
  | waitDone (i : Nat)
  | readBack (i : Nat)
  | casFree (i : Nat)
  | postFree (i : Nat)
  | returned (ret : Int)
deriving DecidableEq, Repr

/-- Where `ipc_shmem_listen` stands. -/
inductive Listen where
  | wait
  | scan (i : Nat)
  | exec (i : Nat)
  | readResult (i : Nat)
  | casDone (i : Nat) (new : Status)
  | post (i : Nat) (new : Status)
  | dead
deriving DecidableEq, Repr

structure State extends Shm where
  client : Nat → Pc
  server : Listen

/-- What a step does that an observer of the protocol can see. -/
inductive Label where
  | tau
  | acquire (c i : Nat)
  | send (c : Nat) (content : Nat → UInt8)
  | publish (c i : Nat)
  | execute (i : Nat) (input output : Nat → UInt8)
  | readBack (c i : Nat) (content : Nat → UInt8)
  | release (i : Nat)
  | null

/-- Who takes the next step; for the server, with what its backend would leave in the
block if this is the step that runs a request. -/
inductive Act where
  | client (c : Nat)
  | server (output : Nat → UInt8)

/-- The calls of a scenario: `call c` for `c < ncalls`. -/
structure Calls where
  ncalls : Nat
  call : Nat → Call

/-! ## Steps -/

namespace State

/-- The data area of a block. -/
def content (s : State) (i : Nat) : Nat → UInt8 := fun k => s.data (s.dataRelPtr i + k)

/-- Write `n` bytes at the start of the data area of block `i`. -/
def write (s : State) (i n : Nat) (bytes : Nat → UInt8) : State :=
  { s with data := fun a =>
      if s.dataRelPtr i ≤ a ∧ a < s.dataRelPtr i + n then bytes (a - s.dataRelPtr i)
      else s.data a }

@[simp] def setStatus (s : State) (i : Nat) (new : Status) : State :=
  { s with status := Function.update s.status i new }

@[simp] def setClient (s : State) (c : Nat) (pc : Pc) : State :=
  { s with client := Function.update s.client c pc }

@[simp] def setServer (s : State) (pc : Listen) : State := { s with server := pc }

/-- `__sync_bool_compare_and_swap` on a status word. -/
def cas (s : State) (i : Nat) (old new : Status) : Option State :=
  if s.status i = old then some (s.setStatus i new) else none

/-- The `sem_post` of `shmem_block_status`. -/
def semPost (s : State) (i : Nat) : Status → State
  | .free => { s with semFree := s.semFree + 1 }
  | .written => { s with semWritten := s.semWritten + 1 }
  | .execDone => { s with semDone := Function.update s.semDone i (s.semDone i + 1) }
  | _ => s

end State

/-- One step of call `c`; `none` if it waits or has returned. -/
def clientStep (call : Call) (c : Nat) (s : State) : Option (State × Label) :=
  match s.client c with
  | .start =>
      if 0 < s.semFree then some
        ({ s with semFree := s.semFree - 1 }.setClient c (.scan 0), .tau)
      else none
  | .scan i =>
      if i < s.nitems then
        match s.cas i .free .writing with
        | some s' => some (s'.setClient c (.convert i), .acquire c i)
        | none => some (s.setClient c (.scan (i + 1)), .tau)
      else some (s.setClient c (.returned (errorCode EMODULE 257)), .null)
  | .convert i =>
      let bytes := (convertTo s.itemSize call.buffer).1
      let s' := s.write i bytes.length fun k => bytes.getD k 0
      if (convertTo s.itemSize call.buffer).2 then
        some (s'.setClient c (.setResult i), .send c (s'.content i))
      else some (s'.setClient c (.returned (errorCode EMODULE 263)), .tau)
  | .setResult i =>
      some ({ s with returnResult := Function.update s.returnResult i (call.fAsync == 0) }.setClient
        c (.casWritten i), .tau)
  | .casWritten i =>
      match s.cas i .writing .written with
      | some s' => some (s'.setClient c (.postWritten i), .publish c i)
      | none => some (s.setClient c (.returned (-EFAULT)), .tau)
  | .postWritten i =>
      some ((s.semPost i .written).setClient c
        (if call.fAsync = 0 then .waitDone i else .returned 0), .tau)
  | .waitDone i =>
      if 0 < s.semDone i then
        some ({ s with semDone := Function.update s.semDone i (s.semDone i - 1)
          }.setClient c
          (if call.returnResult ≠ 0 then .readBack i else .casFree i), .tau)
      else none
  | .readBack i => some (s.setClient c (.casFree i), .readBack c i (s.content i))
  | .casFree i =>
      match s.cas i .execDone .free with
      | some s' => some (s'.setClient c (.postFree i), .release i)
      | none => some (s.setClient c (.returned (errorCode EMODULE 283)), .tau)
  | .postFree i => some ((s.semPost i .free).setClient c (.returned (-EEXIST)), .tau)
  | .returned _ => none

/-- One step of the server; `none` if it waits or is dead. -/
def serverStep (output : Nat → UInt8) (s : State) : Option (State × Label) :=
  match s.server with
  | .wait =>
      if 0 < s.semWritten then
        some ({ s with semWritten := s.semWritten - 1 }.setServer (.scan 0), .tau)
      else none
  | .scan i =>
      if i < s.nitems then
        match s.cas i .written .executing with
        | some s' => some (s'.setServer (.exec i), .tau)
        | none => some (s.setServer (.scan (i + 1)), .tau)
      else some (s.setServer .dead, .null)
  | .exec i =>
      some ((s.write i s.itemSize output).setServer (.readResult i),
        .execute i (s.content i) output)
  | .readResult i =>
      some (s.setServer (.casDone i (if s.returnResult i then .execDone else .free)),
        .tau)
  | .casDone i new =>
      match s.cas i .executing new with
      | some s' =>
          some (s'.setServer (.post i new), if new = .free then .release i else .tau)
      | none => some (s.setServer .dead, .tau)
  | .post i new => some ((s.semPost i new).setServer .wait, .tau)
  | .dead => none

def step (calls : Calls) (s : State) : Act → Option (State × Label)
  | .client c => if c < calls.ncalls then clientStep (calls.call c) c s else none
  | .server output => serverStep output s

/-- All calls before their first step, over a fresh segment the server has initialised. -/
def initial (nitems itemSize : Nat) : State :=
  { shmemInit (zeroed nitems itemSize) with client := fun _ => .start, server := .wait }

end Frozen.Ipc
