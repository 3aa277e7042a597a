/-
# `Frozen.Mphf.Chm` — the `chm_imp` index, function by function

`backends/index/mphf/mphf_chm_imp.c`.  An index maps a 64-bit key to two vertices
of a graph and stores one value per VERTEX, so that the values of a key's two
vertices add up to the key's value.  Three byte stores hold it:

    be_g   the saved parameters (32 bytes), then one g-value per vertex
    be_v   per vertex, the id of the first edge of its list (0: none)
    be_e   per edge, its two vertices and, for each of them, the next edge

An insert appends an edge, and if both its vertices already had edges it has to
re-value one of the two components (`graph_recalc`) and finds out on the way
whether the edge closes a cycle.

Everything below follows the C text.  A store is a reliable byte array: it grows
at its end, an access inside it succeeds and an access outside it fails.  A
function that answers a negative code keeps the changes it made before, so the
monad is `EStateM`; `Stop.loop` stands for a C loop that does not come back.
Machine arithmetic that wraps does so here: keys, values, hashes, g-values and
the parameters are `UInt64`, sizes and vertex numbers are naturals.
-/
import Frozen.Core.Base
import Frozen.Lib.Bytes

namespace Frozen.Mphf

open Frozen.Lib

/-- The three storage backends. -/
inductive Be where
  | g | v | e
deriving DecidableEq, Repr

structure ChmImpParams where
  capacity : UInt64
  nelements : UInt64
  hash1 : UInt64
  hash2 : UInt64
deriving DecidableEq, Repr, Inhabited

structure ChmImp where
  /-- `status & WRITEABLE`. -/
  writeable : Bool
  be : Be → Option (List UInt8)
  params : ChmImpParams
  nelementsMin : UInt64
  nelementsStep : UInt64
  nelementsMul : UInt64
  nvertex : Nat
  biValue : Nat
  btValue : Nat
  btVertex : Nat
  biVertex : Nat
deriving Inhabited

structure GraphEdge where
  vertex0 : Nat
  vertex1 : Nat
  next0 : Nat
  next1 : Nat
deriving DecidableEq, Repr

/-- How a call can end other than by returning its result. -/
inductive Stop where
  | ret (code : Int)
  | loop
deriving DecidableEq, Repr

abbrev ChmM := EStateM Stop ChmImp

def EMODULE : Nat := 11
def CHM_CONST : UInt64 := 209
def REBUILD_CONST : UInt64 := 80
def CAPACITY_MIN_DEFAULT : UInt64 := 256
def CAPACITY_STEP_DEFAULT : UInt64 := 256
def CAPACITY_MUL_DEFAULT : UInt64 := 1
def VALUE_BITS_DEFAULT : UInt64 := 32

/-- `return error(...)` at a line of `mphf_chm_imp.c`. -/
def chmError {α : Type} (line : Nat) : ChmM α := throw (.ret (errorCode EMODULE line))

/-- `BITS_TO_BYTES`, on a `uintmax_t`. -/
def bitsToBytes (x : Nat) : Nat := (x + (2 ^ 64 - 1)) % 2 ^ 64 / 8 + 1

/-- The loop of `log_any`.  `t` is multiplied modulo `2 ^ 64`; for base 2 it is 0
after 64 rounds and stays so, hence 64 rounds decide whether the loop ends. -/
def logAnyLoop (x power : Nat) : Nat → Nat → Nat → Option Nat
  | 0, t, res => if t ≤ x then none else some (res + 1)
  | n + 1, t, res =>
      if t ≤ x then logAnyLoop x power n (t * power % 2 ^ 64) (res + 1)
      else some (res + 1)

def logAny (x power : Nat) : Option Nat := logAnyLoop x power 64 power 0

/-! ## Fast requests to a store -/

def setBe (b : Be) (st : List UInt8) : ChmM Unit :=
  modify fun s => { s with be := Function.update s.be b (some st) }

def fastRead (b : Be) (off n : Nat) : ChmM (Option (List UInt8)) := do
  return ((← get).be b).bind fun st => readAt st off n

def fastWrite (b : Be) (off : Nat) (d : List UInt8) : ChmM Bool := do
  match ((← get).be b).bind fun st => writeAt st off d with
  | none => return false
  | some st => setBe b st; return true

/-- Grow by `size` bytes; the answer is the offset of the new bytes. -/
def fastCreate (b : Be) (size : Nat) : ChmM (Option Nat) := do
  match (← get).be b with
  | none => return none
  | some st => setBe b (st ++ List.replicate size 0); return some st.length

/-- `nelements` stays 0 when the backend does not answer. -/
def fastCount (b : Be) : ChmM Nat := do
  return (((← get).be b).map List.length).getD 0

/-- A store gives up its last bytes only. -/
def fastDelete (b : Be) (off size : Nat) : ChmM Bool := do
  match (← get).be b with
  | none => return false
  | some st =>
      if off + size = st.length then setBe b (st.take off); return true
      else return false

/-! ## Parameters and files -/

def paramsBytes (p : ChmImpParams) : List UInt8 :=
  leWords 8 [p.capacity.toNat, p.nelements.toNat, p.hash1.toNat, p.hash2.toNat]

def paramsOfBytes (bs : List UInt8) : ChmImpParams :=
  { capacity := .ofNat (wordAt bs 0 8 0), nelements := .ofNat (wordAt bs 0 8 1)
    hash1 := .ofNat (wordAt bs 0 8 2), hash2 := .ofNat (wordAt bs 0 8 3) }

def sizeofParams : Nat := 32

/-- Answers whether the parameters could be read. -/
def chmImpParamRead : ChmM Bool := do
  match ← fastRead .g 0 sizeofParams with
  | none =>
      modify fun s => { s with params := ⟨0, 0, 0, 0⟩ }
      return false
  | some bs =>
      modify fun s => { s with params := paramsOfBytes bs }
      return true

def chmImpParamWrite : ChmM Unit := do
  if !(← fastWrite .g 0 (paramsBytes (← get).params)) then chmError 110

/-- One of the three "kill" blocks of `chm_imp_file_wipe`. -/
def chmImpKill (b : Be) (line : Nat) : ChmM Unit := do
  let nelements ← fastCount b
  if nelements ≠ 0 then
    if !(← fastDelete b 0 nelements) then chmError line

def chmImpFileWipe : ChmM Unit := do
  chmImpKill .g 125
  chmImpKill .e 134
  chmImpKill .v 143

/-- `sizeof(clean)`. -/
def sizeofClean : Nat := 100

/-- The `do … while(size > 0)` of `chm_imp_file_one_init`: at most `n` further rounds. -/
def chmImpFillLoop (b : Be) : Nat → Nat → Nat → ChmM Bool
  | 0, _, _ => throw .loop
  | n + 1, offset, size => do
      let fillSize := min size sizeofClean
      if !(← fastWrite b offset (List.replicate fillSize 0)) then return false
      if 0 < size - fillSize then chmImpFillLoop b n (offset + fillSize) (size - fillSize)
      else return true

def chmImpFileOneInit (b : Be) (size : Nat) : ChmM Bool := do
  match ← fastCreate b size with
  | none => return false
  | some offset =>
      if offset ≠ 0 then return false
      chmImpFillLoop b (size + 1) offset size

def chmImpFileInit : ChmM Unit := do
  chmImpFileWipe
  let data ← get
  if !(← chmImpFileOneInit .g (sizeofParams + data.nvertex * data.btValue))
    then chmError 178
  if !(← chmImpFileOneInit .v (data.nvertex * data.btVertex)) then chmError 182

/-- The number of vertices for a capacity: 2.09 times as many, in two ways of
rounding depending on whether `capacity * 209` fits. -/
def chmNvertex (capacity : UInt64) : Option UInt64 :=
  (safeMul capacity CHM_CONST <|> (safeDiv capacity 100).bind (safeMul · CHM_CONST)).bind
    (safeDiv · 100)

def chmImpConfigureR (capacity : UInt64) : ChmM Unit := do
  let capacity := if capacity = 0 then 1 else capacity
  match chmNvertex capacity with
  | none => chmError 270
  | some nvertex =>
      modify fun s => { s with nvertex := nvertex.toNat, params.capacity := capacity }
      match logAny nvertex.toNat 2 with
      | none => throw .loop
      | some bits => modify fun s =>
          { s with biVertex := bits, btVertex := bitsToBytes bits }

/-! ## Edges -/

def sizeofEdge (data : ChmImp) : Nat := 4 * data.btVertex

def graphNewEdgeId : ChmM Nat := do
  let data ← get
  match ← fastCreate .e (sizeofEdge data) with
  | none => chmError 335
  | some offset => return offset / sizeofEdge data + 1

/-- `graph_get_first` and the three functions like it take an array of vertices;
here one vertex, and the calls with two are two calls. -/
def graphGetFirst (vertex : Nat) : ChmM Nat := do
  let data ← get
  match ← fastRead .v (vertex * data.btVertex) data.btVertex with
  | none => chmError 353
  | some bs => return leNat bs

def graphSetFirst (vertex edgeId : Nat) : ChmM Unit := do
  let data ← get
  if !(← fastWrite .v (vertex * data.btVertex) (leBytes data.btVertex edgeId))
    then chmError 368

/-- `((uintmax_t)1 << (bt_vertex << 3)) - 1`; the shift counts modulo 64. -/
def vertexMask (btVertex : Nat) : Nat :=
  (((1 : UInt64) <<< UInt64.ofNat (8 * btVertex)) - 1).toNat

/-- `*(uintmax_t *)(buffer + off)`. -/
def peek64 (buffer : List UInt8) (off : Nat) : Nat := leNat ((buffer.drop off).take 8)

/-- `*(uintmax_t *)(buffer + off) = x`. -/
def poke64 (buffer : List UInt8) (off x : Nat) : List UInt8 :=
  buffer.take off ++ leBytes 8 x ++ buffer.drop (off + 8)

/-- `char buffer[4 * sizeof(uintmax_t)]`.  The C buffer starts with arbitrary
bytes; those the code does not overwrite are cut off by length or by mask. -/
def edgeBuffer : List UInt8 := List.replicate 32 0

/-- `(id - 1) * sizeof_edge` on `uintmax_t`: id 0 gives an offset no store has. -/
def edgeOffset (data : ChmImp) (id : Nat) : Nat :=
  (id + (2 ^ 64 - 1)) % 2 ^ 64 * sizeofEdge data % 2 ^ 64

def graphGetEdge (id : Nat) : ChmM GraphEdge := do
  let data ← get
  match ← fastRead .e (edgeOffset data id) (sizeofEdge data) with
  | none => throw (.ret (-ENOENT))
  | some bs =>
      let buffer := bs ++ edgeBuffer.drop bs.length
      let word := fun k => peek64 buffer (k * data.btVertex) &&& vertexMask data.btVertex
      return { vertex0 := word 0, vertex1 := word 1, next0 := word 2, next1 := word 3 }

/-- The four overlapping eight-byte stores of `graph_set_edge`. -/
def edgeBytes (btVertex : Nat) (edge : GraphEdge) : List UInt8 :=
  let buffer := poke64 edgeBuffer 0 edge.vertex0
  let buffer := poke64 buffer btVertex edge.vertex1
  let buffer := poke64 buffer (2 * btVertex) edge.next0
  let buffer := poke64 buffer (3 * btVertex) edge.next1
  buffer.take (4 * btVertex)

def graphSetEdge (id : Nat) (edge : GraphEdge) : ChmM Unit := do
  let data ← get
  if !(← fastWrite .e (edgeOffset data id) (edgeBytes data.btVertex edge))
    then chmError 413

def graphGetg (vertex : Nat) : ChmM UInt64 := do
  let data ← get
  match ← fastRead .g (sizeofParams + vertex * data.btValue) data.btValue with
  | none => chmError 458
  | some bs => return .ofNat (leNat bs)

def graphSetg (vertex : Nat) (newG : UInt64) : ChmM Unit := do
  let data ← get
  if !(← fastWrite .g (sizeofParams + vertex * data.btValue)
    (leBytes data.btValue newG.toNat)) then
    chmError 474

/-- The number of edges the store holds: no list of it can be longer. -/
def edgeCount (data : ChmImp) : Nat :=
  ((data.be .e).map List.length).getD 0 / sizeofEdge data

/-- The `do … while` of `graph_find_edge`. -/
def graphFindEdgeLoop (vertex0 vertex1 : Nat) : Nat → Nat → ChmM (Option Nat)
  | 0, _ => throw .loop
  | n + 1, currEdgeId => do
      let currEdge ← graphGetEdge currEdgeId
      if vertex0 = currEdge.vertex0 ∧ vertex1 = currEdge.vertex1
        then return some currEdgeId
      let next ←
        if currEdge.vertex0 = vertex0 then pure currEdge.next0
        else if currEdge.vertex1 = vertex0 then pure currEdge.next1
        else chmError 440
      if next ≠ 0 then graphFindEdgeLoop vertex0 vertex1 n next else return none

/-- `none` is `-ENOENT` after the whole list; an error of a callee is thrown. -/
def graphFindEdge (vertex0 vertex1 : Nat) : ChmM (Option Nat) := do
  let currEdgeId ← graphGetFirst vertex0
  graphFindEdgeLoop vertex0 vertex1 (edgeCount (← get) + 1) currEdgeId

/-- The loop of `graph_recalc` over the edges of `vertex`; `recalc` is the
recursive call, on a vertex and the linked list of the vertices above it. -/
def graphRecalcLoop (recalc : Nat → List Nat → UInt64 → UInt64 → Nat → ChmM Unit)
    (vertex : Nat) (path : List Nat) (gOld gNew : UInt64) (skipEdge : Nat) :
    Nat → Nat → ChmM Unit
  | 0, _ => throw .loop
  | n + 1, edgeId => do
      if edgeId = 0 then return
      let edge ← graphGetEdge edgeId
      let (frn, next) ←
        if edge.vertex0 = vertex then pure (edge.vertex1, edge.next0)
        else if edge.vertex1 = vertex then pure (edge.vertex0, edge.next1)
        else chmError 504
      if skipEdge ≠ edgeId then
        let frnGOld ← graphGetg frn
        recalc frn (vertex :: path) frnGOld (gOld + frnGOld - gNew) edgeId
      graphRecalcLoop recalc vertex path gOld gNew skipEdge n next

/-- `graph_recalc`.  `len` bounds the length of an edge list, the second argument
the depth of the recursion; `path` is what `vertex->next` leads to. -/
def graphRecalc (len : Nat) : Nat → Nat → List Nat → UInt64 → UInt64 → Nat → ChmM Unit
  | 0, _, _, _, _, _ => throw .loop
  | depth + 1, vertex, path, gOld, gNew, skipEdge => do
      if vertex ∈ path then throw (.ret (-EBADF))
      let edgeId ← graphGetFirst vertex
      graphRecalcLoop (graphRecalc len depth) vertex path gOld gNew skipEdge len edgeId
      graphSetg vertex gNew

/-- `graph_recalc` as its callers start it: `vertex_new.next = NULL`. -/
def graphRecalcFrom (vertex : Nat) (gOld gNew : UInt64) (skipEdge : Nat) : ChmM Unit := do
  let data ← get
  graphRecalc (edgeCount data + 1) (data.nvertex + 1) vertex [] gOld gNew skipEdge

def graphAddEdge (vertex0 vertex1 : Nat) (value : UInt64) : ChmM Unit := do
  let newEdgeId ← graphNewEdgeId
  let next0 ← graphGetFirst vertex0
  let next1 ← graphGetFirst vertex1
  graphSetEdge newEdgeId { vertex0, vertex1, next0, next1 }
  graphSetFirst vertex0 newEdgeId
  graphSetFirst vertex1 newEdgeId
  if next0 = 0 then
    let g1 ← graphGetg vertex1
    graphSetg vertex0 (value - g1)
  else if next1 = 0 then
    let g0 ← graphGetg vertex0
    graphSetg vertex1 (value - g0)
  else
    let g0 ← graphGetg vertex0
    let g1 ← graphGetg vertex1
    graphRecalcFrom vertex1 g1 (value - g0) newEdgeId
  modify fun s => { s with params.nelements := s.params.nelements + 1 }

/-! ## The algorithm's entry points -/

/-- The new capacity of a rebuild. -/
def rebuildCapacity (data : ChmImp) : UInt64 :=
  let capacityCurr :=
    ((safeDiv data.params.capacity 100).bind (safeMul · REBUILD_CONST)).getD
    data.params.capacity
  if capacityCurr ≤ data.params.nelements then
    (max (max data.params.capacity data.nelementsMin) data.params.nelements
      + data.nelementsStep) * data.nelementsMul
  else data.params.capacity

/-- `mphf_chm_imp_rebuild`; `r1` and `r2` are what `random()` answers. -/
def mphfChmImpRebuild (r1 r2 : UInt64) : ChmM Unit := do
  let nelements := rebuildCapacity (← get)
  modify fun s => { s with params.hash1 := r1, params.hash2 := r2, params.nelements := 0 }
  chmImpConfigureR nelements
  chmImpFileInit
  chmImpParamWrite

/-- `chm_imp_load` after `chm_imp_configure`. -/
def chmImpLoad (r1 r2 : UInt64) : ChmM Unit := do
  if !(← chmImpParamRead) then mphfChmImpRebuild r1 r2
  else
    chmImpConfigureR (← get).params.capacity
    let data ← get
    if data.params.capacity < data.nelementsMin then mphfChmImpRebuild r1 r2

/-- `chm_imp_unload`: only the parameters are saved. -/
def chmImpUnload : ChmM Unit := do
  let _ ← fastWrite .g 0 (paramsBytes (← get).params)

def chmImpCheckWriteable : ChmM Unit := do
  if !(← get).writeable then chmError 308

def ChmImp.vertex0 (data : ChmImp) (key : UInt64) : Nat :=
  (key ^^^ data.params.hash1).toNat % data.nvertex

def ChmImp.vertex1 (data : ChmImp) (key : UInt64) : Nat :=
  (key ^^^ data.params.hash2).toNat % data.nvertex

def mphfChmImpInsert (key value : UInt64) : ChmM Unit := do
  chmImpCheckWriteable
  let data ← get
  if data.vertex0 key = data.vertex1 key then throw (.ret (-EBADF))
  graphAddEdge (data.vertex0 key) (data.vertex1 key) value

/-- Run `m`, and `handler` from where it stopped if it answered a negative code. -/
def onError {α : Type} (m : ChmM α) (handler : ChmM α) : ChmM α := fun s =>
  match m s with
  | .error (.ret _) s' => handler s'
  | r => r

def mphfChmImpUpdate (key value : UInt64) : ChmM Unit := do
  chmImpCheckWriteable
  let data ← get
  let vertex0 := data.vertex0 key
  let vertex1 := data.vertex1 key
  if vertex0 = vertex1 then mphfChmImpInsert key value
  else
    match ← onError (graphFindEdge vertex0 vertex1) (pure none) with
    | none => mphfChmImpInsert key value
    | some edgeId =>
        match ← onError (some <$> graphGetg vertex1) (pure none) with
        | none => mphfChmImpInsert key value
        | some gOld =>
            let gNew := value - gOld
            graphRecalcFrom vertex1 gOld gNew edgeId
            graphSetg vertex1 gNew

/-- `mphf_chm_imp_query`: `none` is `MPHF_QUERY_NOTFOUND`. -/
def mphfChmImpQuery (key : UInt64) : ChmM (Option UInt64) := do
  let data ← get
  let vertex0 := data.vertex0 key
  let vertex1 := data.vertex1 key
  if vertex0 = vertex1 then return none
  onError
    (do
      let g0 ← graphGetg vertex0
      let g1 ← graphGetg vertex1
      return some ((g0 + g1) &&& ((1 <<< UInt64.ofNat data.biValue) - 1)))
    (pure none)

def mphfChmImpDelete (_key : UInt64) : ChmM Unit := chmError 751

end Frozen.Mphf
