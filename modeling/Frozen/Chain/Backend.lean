/-
# `Frozen.Chain.Backend` — backends that pass requests on

`backend_query` and `backend_pass` of `core/backend.c`, and the handlers of the classes
that pass a request to their child: data/list, data/incapsulate, data/split,
index/lookup, index/fill, request/switch, request/balancer and request/rewrite.

A handler answers with a code.  `backend_query` stores the code under HK(ret) and
returns 0, with two exceptions: `-EBADF` is returned as it is (the backend is dead) and
`-EEXIST` leaves HK(ret) alone.  A handler that passes the request on therefore has to
translate its child's answer by hand: an error is returned, success becomes `-EEXIST`.

What is at the ends of a chain, the leaf and the indexes, is any handler at all.  The
state of a run is theirs, and with it a list of EVENTS: each answer of the leaf, each
time a backend of the chain fails by itself, and each time a backend has its child's
answer.  The events after an answer of the leaf are its way back up.
-/
import Frozen.Chain.Request

namespace Frozen.Chain

/-! ## Runs -/

/-- The classes on the way of a request.  A switch that sends it to the backend
of a rule is told from one that passes it on, and request/rewrite without a
script from one with. -/
inductive Class where
  | list | incapsulate | lookup | fill | switch | switchRule | balancer | rewrite
  | rewriteNone | split
deriving DecidableEq, Repr

inductive Event where
  | answer (ret : Int)
  | failure (ret : Int)
  | via (c : Class)
deriving DecidableEq, Repr

structure State (W : Type) where
  world : W
  events : List Event

/-- What comes back from a query: the code, the caller's request as it
is now, the state. -/
structure Out (D W : Type) where
  ret : Int
  request : Request D
  state : State W

/-- Anything that takes a request: a handler, `backend_pass` or `backend_query`. -/
abbrev Sem (D W : Type) := Request D → State W → Out D W

/-- A handler that is not part of the chain: its code, what it leaves in the items of the
request, and what it does to the world. -/
structure Handler (D W : Type) where
  run : Request D → W → Int × List (Key × D) × W

section Model

variable {D W : Type}

def State.note (s : State W) (e : Event) : State W := { s with events := s.events ++ [e] }

/-- A handler gives up by itself. -/
def fail (ret : Int) : Sem D W := fun request s => ⟨ret, request, s.note (.failure ret)⟩

/-- The query of a child, and back in a backend of this class. -/
def via (c : Class) (q : Sem D W) : Sem D W := fun request s =>
  let o := q request s
  { o with state := o.state.note (.via c) }

/-- `( (ret = …) < 0) ? ret : -EEXIST`. -/
def orExist (o : Out D W) : Out D W := if o.ret < 0 then o else { o with ret := -EEXIST }

/-- `if( (ret = …) < 0) return ret;` and on with the rest. -/
def andThen (q q' : Sem D W) : Sem D W := fun request s =>
  let o := q request s
  if o.ret < 0 then o else q' o.request o.state

/-- Query with an array of items in front of the request. -/
def withFront (front : Request D) (q : Sem D W) : Sem D W := fun request s =>
  let o := q (front ++ request) s
  { o with request := o.request.drop front.length }

def Handler.call (h : Handler D W) : Sem D W := fun request s =>
  let (ret, items, w) := h.run request s.world
  ⟨ret, request.assign items, { s with world := w }⟩

/-! ## `backend_query` and `backend_pass` -/

/-- `backend_pass` to a list of childs: all get the request, the last error counts. -/
def backendPass : List (Sem D W) → Sem D W
  | [] => fail (-ENOSYS)
  | childs => fun request s =>
      childs.foldl
        (fun o child =>
          let o' := child o.request o.state
          { o' with ret := if o'.ret < 0 then o'.ret else o.ret })
        ⟨0, request, s⟩

/-- The table of handlers of a class. -/
inductive Api (D W : Type) where
  | hash (handler : Sem D W)
  | crwd (func : Action → Option (Sem D W))

/-- The actions API_CRWD knows. -/
def Action.isCrwd : Action → Bool
  | .create | .read | .write | .delete | .move | .count | .custom => true
  | _ => false

variable (L : DataLayer D)

/-- What `backend_query` makes of the handler's code. -/
def override (o : Out D W) : Out D W :=
  if o.ret = -EBADF then o
  else if o.ret = -EEXIST then { o with ret := 0 }
  else { o with ret := 0, request := o.request.modify .ret (L.transfer o.ret) }

def backendQuery (api : Api D W) (childs : List (Sem D W)) : Sem D W := fun request s =>
  match api with
  | .hash handler => override L (handler request s)
  | .crwd func =>
      match (request.find .action).bind L.getAction with
      | none => fail (-ENOSYS) request s
      | some action =>
          if Action.isCrwd action then
            match func action with
            | none => backendPass childs request s
            | some handler => override L (handler request s)
          else fail (-EINVAL) request s

/-- The query of a backend outside the chain. -/
def Handler.query (h : Handler D W) : Sem D W := backendQuery L (.hash h.call) []

/-- The query of the leaf, whose answers count as events. -/
def leafQuery (h : Handler D W) : Sem D W :=
  backendQuery L (.hash fun request s =>
    let o := h.call request s
    { o with state := o.state.note (.answer o.ret) }) []

/-! ## data/list -/

/-- `lists_set`: before an insert everything from the offset on moves one unit up. -/
def listsSet (pass : Sem D W) : Sem D W := fun request s =>
  let last : Sem D W := fun request s => orExist (pass request s)
  match request.find .insert with
  | none => last request s
  | some _ =>
      match (request.find .offset).bind L.getOfft with
      | none => fail (errorCode 2 46) request s
      | some offset =>
          andThen (withFront [(.action, L.action .move), (.offsetFrom, L.offt offset),
            (.offsetTo, L.offt (offset + 1)), (.size, L.void)] pass) last request s

def listsDelete (pass : Sem D W) : Sem D W := fun request s =>
  match (request.find .size).bind L.getSizet with
  | none => fail (errorCode 2 70) request s
  | some size =>
      match (request.find .offset).bind L.getOfft with
      | none => fail (errorCode 2 71) request s
      | some offset =>
          orExist (withFront
            [(.action, L.action .move), (.offsetFrom, L.offt (offset + size.toNat)),
            (.offsetTo, L.offt offset), (.size, L.void)] pass request s)

def listQuery (child : Sem D W) : Sem D W :=
  backendQuery L (.crwd fun
    | .write => some (listsSet L (backendPass [child]))
    | .delete => some (listsDelete L (backendPass [child]))
    | _ => none) [child]

/-! ## data/incapsulate -/

structure IncapUserdata where
  key : Key
  keyOut : Key
  keyTo : Key
  keyFrom : Key
  count : Key
  size : Key
  multiply : Int
  /-- What `size` is on the stack if the item cannot be read. -/
  stack : UInt64

/-- Round up to whole records. -/
def incapRound (multiply size : UInt64) : UInt64 :=
  if size % multiply ≠ 0 then size / multiply * multiply + multiply
  else size / multiply * multiply

def incapHandler (u : IncapUserdata) (pass : Sem D W) : Sem D W := fun request s =>
  let rounded := match request.find u.size with
    | none => request
    | some d =>
        request.modify u.size
          (L.write (incapRound (UInt64.ofInt u.multiply) ((L.getUintt d).getD u.stack)))
  let scaled := ((rounded.modify u.key (L.multiply u.multiply)).modify u.keyTo
    (L.multiply u.multiply)).modify u.keyFrom (L.multiply u.multiply)
  let o := pass scaled s
  -- `ret = (ret = backend_pass(backend, request) < 0) ? ret : -EEXIST`: the comparison
  -- binds
  -- tighter than the assignment, so `ret` is its outcome
  let less : Int := if o.ret < 0 then 1 else 0
  { o with
    ret := if less ≠ 0 then less else -EEXIST
    request := (o.request.modify u.keyOut (L.divide u.multiply)).modify u.count
      (L.divide u.multiply) }

def incapsulateQuery (u : IncapUserdata) (child : Sem D W) : Sem D W :=
  backendQuery L (.hash (incapHandler L u (backendPass [child]))) [child]

/-! ## index/lookup -/

structure LookupUserdata where
  forceQuery : UInt64
  output : Key
  outputType : Nat

def lookupHandler (u : LookupUserdata) (index : Sem D W) (pass : Sem D W) :
    Sem D W := fun request s =>
  if u.forceQuery ≠ 0 ∨ (request.find u.output).isNone then
    match L.alloc u.outputType with
    | none => fail (-ENOMEM) request s
    | some output =>
        let o := index ([(.action, L.action .read), (u.output, output)] ++ request) s
        if o.ret = 0 then
          orExist (withFront [(u.output, (o.request.find u.output).getD L.void)] pass
            (o.request.drop 2) o.state)
        else if o.ret = -ENOENT then
          orExist (withFront [(u.output, L.void)] pass (o.request.drop 2) o.state)
        else orExist (fail o.ret (o.request.drop 2) o.state)
  else orExist (pass request s)

def lookupQuery (u : LookupUserdata) (index : Handler D W) (child : Sem D W) : Sem D W :=
  backendQuery L (.hash (lookupHandler L u (index.query L) (backendPass [child]))) [child]

/-! ## index/fill -/

structure FillUserdata where
  fatal : UInt64
  before : UInt64
  action : Action
  /-- What `ret3` is on the stack before the index is queried. -/
  stack : Int

/-- The query of the index, with an item of its own for the code. -/
def fillUpdate (u : FillUserdata) (index : Sem D W) :
    Request D → State W → Out D W × Int :=
  fun request s =>
    let o := index ([(.action, L.action u.action), (.ret, L.ret u.stack)] ++ request) s
    ({ o with request := o.request.drop 2 },
      ((o.request.find .ret).bind L.getRet).getD u.stack)

/-- The error of the index that is fatal, if any: the query's, or the one stored. -/
def fillFatal (u : FillUserdata) (ret2 ret3 : Int) : Option Int :=
  if u.fatal = 0 then none
  else if ret2 ≠ 0 then some ret2
  else if ret3 ≠ 0 then some ret3
  else none

def fillHandler (u : FillUserdata) (index : Sem D W) (pass : Sem D W) :
    Sem D W := fun request s =>
  if u.before = 0 then
    let o := pass request s
    let (i, ret3) := fillUpdate L u index o.request o.state
    match fillFatal u i.ret ret3 with
    | some ret => fail ret i.request i.state
    | none => orExist { i with ret := o.ret }
  else
    let (i, ret3) := fillUpdate L u index request s
    match fillFatal u i.ret ret3 with
    | some ret => fail ret i.request i.state
    | none => orExist (pass i.request i.state)

def fillQuery (u : FillUserdata) (index : Handler D W) (child : Sem D W) : Sem D W :=
  backendQuery L (.hash (fillHandler L u (index.query L) (backendPass [child]))) [child]

/-! ## request/switch -/

/-- A rule: the items a request must have (none at all: any request matches), and which
of the rules' backends gets it, if one is named. -/
structure SwitchRule (D : Type) where
  request : Option (Request D)
  backend : Option Nat

def SwitchRule.matches (rule : SwitchRule D) (request : Request D) : Bool :=
  match rule.request with
  | none => true
  | some r => L.compare r request

def switchHandler (rules : List (SwitchRule D)) (backends : Nat → Sem D W)
    (pass : Sem D W) : Sem D W := fun request s =>
  match rules.find? (·.matches L request) with
  | none => orExist (pass request s)
  | some rule =>
      match rule.backend with
      | some k => backends k request s
      | none =>
          let o := pass request s
          if o.ret ≠ 0 then o else { o with ret := -EEXIST }

def switchQuery (rules : List (SwitchRule D)) (backends : Nat → Sem D W)
    (child : Sem D W) : Sem D W :=
  backendQuery L (.hash (switchHandler L rules backends (backendPass [child]))) [child]

/-! ## request/balancer -/

/-- The modes of `balancer_request_rest`. -/
inductive BalancerMode where
  | random | counting
deriving DecidableEq, Repr

structure BalancerUserdata where
  mode : BalancerMode
  counter : Nat
  clone : UInt64
  /-- What `random()` returns. -/
  random : Nat → Nat

/-- The index of round `k`, before the remainder. -/
def BalancerUserdata.index (u : BalancerUserdata) (k : Nat) : Nat :=
  match u.mode with
  | .random => u.random k
  | .counting => (u.counter + k) % 2 ^ 64

/-- `redo`, for `n` rounds more. -/
def balancerLoop (u : BalancerUserdata) (pool : List (Sem D W)) : Nat → Nat → Sem D W
  | 0, _ => fun request s => ⟨-EEXIST, request, s⟩
  | n + 1, k =>
      andThen (pool.getD (u.index k % pool.length) (fail (errorCode 14 283)))
        (balancerLoop u pool n (k + 1))

/-- `clone_i` is counted down after each round, so 0 comes round. -/
def BalancerUserdata.rounds (u : BalancerUserdata) : Nat :=
  if u.clone = 0 then 2 ^ 64 else u.clone.toNat

def balancerRequestRest (u : BalancerUserdata) (pool : List (Sem D W)) : Sem D W :=
  if pool.length = 0 then fail (errorCode 14 283) else balancerLoop u pool u.rounds 0

def balancerQuery (u : BalancerUserdata) (child : Sem D W) : Sem D W :=
  backendQuery L (.crwd fun
    | .create | .write | .read | .delete | .move | .count =>
        some (balancerRequestRest u [child])
    | _ => none) [child]

/-! ## request/rewrite -/

/-- A script, unrolled on a request: what it does to its request one after the other,
until it gives up or comes to its last statement, `ret = pass(request)`.  Conditions and
variables are in the functions: what follows a call may depend on the value it gave and
on the request. -/
inductive Script (D W : Type) where
  /-- `request['key'] = value`. -/
  | set (key : Key) (value : D) (next : Script D W)
  /-- `data_query(request['key'], …)`. -/
  | update (key : Key) (value : D) (next : Script D W)
  | pass (next : Int → Request D → Script D W)
  | query (backend : Handler D W) (next : Int → Request D → Script D W)
  | exit (ret : Int)
  | last

/-- The value of `pass(request)`.  `action_ret` is a `size_t`, so it is
never less than 0. -/
def rewritePass (ret : Int) : Int :=
  let actionRet := ret % 2 ^ 64
  if actionRet < 0 then actionRet else -EEXIST

/-- `rewrite_func_ablock`. -/
def rewriteFuncAblock (pass : Sem D W) : Script D W → Sem D W
  | .set key value next => fun request s => rewriteFuncAblock pass
    next ((key, value) :: request) s
  | .update key value next => fun request s =>
      rewriteFuncAblock pass next (request.modify key fun _ => value) s
  | .pass next => fun request s =>
      let o := pass request s
      rewriteFuncAblock pass (next (rewritePass o.ret) o.request) o.request o.state
  | .query backend next => fun request s =>
      let o := backend.query L request s
      rewriteFuncAblock pass (next o.ret o.request) o.request o.state
  | .exit ret => fail ret
  | .last => fun request s =>
      let o := pass request s
      { o with ret := rewritePass o.ret }

/-- `rewrite_func`; a script without statements just passes. -/
def rewriteFunc (script : Option (Request D → Script D W)) (pass : Sem D W) :
    Sem D W := fun request s =>
  match script with
  | none => pass request s
  | some script =>
      let o := rewriteFuncAblock L pass (script request) request s
      { o with request := o.request.drop (o.request.length - request.length) }

def rewriteQuery (script : Option (Request D → Script D W)) (child : Sem D W) : Sem D W :=
  backendQuery L (.hash (rewriteFunc L script (backendPass [child]))) [child]

/-! ## data/split -/

/-- Where the input is cut does not matter here: `cuts` gives the offsets behind the
separators that the scan of an input finds, whatever they are. -/
structure SplitUserdata (D : Type) where
  input : Key
  cuts : D → List Nat

/-- The slices between the cuts, then the rest; each is queried with the
request behind it. -/
def splitLoop (u : SplitUserdata D) (input : D) (pass : Sem D W) :
    Nat → List Nat → Sem D W
  | start, [] =>
      andThen (withFront [(u.input, L.slice input start none)] pass) fun request s =>
        ⟨0, request, s⟩
  | start, cut :: cuts =>
      andThen (withFront [(u.input, L.slice input start (some (cut - start)))] pass)
        (splitLoop u input pass cut cuts)

def splitHandler (u : SplitUserdata D) (pass : Sem D W) : Sem D W := fun request s =>
  match request.find u.input with
  | none => fail (errorCode 35 90) request s
  | some input => splitLoop L u input pass 0 (u.cuts input) request s

def splitQuery (u : SplitUserdata D) (child : Sem D W) : Sem D W :=
  backendQuery L (.hash (splitHandler L u (backendPass [child]))) [child]

/-! ## Chains -/

/-- Backends with one child each, down to a leaf.  The backends of a switch's rules are
chains of their own: where they end, `backend_add_terminators` connects them to the
switch's child. -/
inductive Backend (D W : Type) where
  | leaf (handler : Handler D W)
  | list (child : Backend D W)
  | incapsulate (u : IncapUserdata) (child : Backend D W)
  | lookup (u : LookupUserdata) (index : Handler D W) (child : Backend D W)
  | fill (u : FillUserdata) (index : Handler D W) (child : Backend D W)
  | switch (rules : List (SwitchRule D)) (backends : Nat → Backend D W)
      (child : Backend D W)
  | balancer (u : BalancerUserdata) (child : Backend D W)
  | rewrite (script : Option (Request D → Script D W)) (child : Backend D W)
  | split (u : SplitUserdata D) (child : Backend D W)

/-- `backend_query` on the top of a chain. -/
def Backend.query : Backend D W → Sem D W
  | .leaf handler => leafQuery L handler
  | .list child => listQuery L (via .list child.query)
  | .incapsulate u child => incapsulateQuery L u (via .incapsulate child.query)
  | .lookup u index child => lookupQuery L u index (via .lookup child.query)
  | .fill u index child => fillQuery L u index (via .fill child.query)
  | .switch rules backends child =>
      switchQuery L rules (fun k => via .switchRule (backends k).query)
        (via .switch child.query)
  | .balancer u child => balancerQuery L u (via .balancer child.query)
  | .rewrite none child => rewriteQuery L none (via .rewriteNone child.query)
  | .rewrite (some script) child =>
      rewriteQuery L (some script) (via .rewrite child.query)
  | .split u child => splitQuery L u (via .split child.query)

/-- The statements before the last one never make the script give up. -/
def Script.Ends : Script D W → Prop
  | .set _ _ next | .update _ _ next => next.Ends
  | .pass next | .query _ next => ∀ ret request, (next ret request).Ends
  | .exit _ => False
  | .last => True

/-- Every script of the chain comes to its `ret = pass(request)`. -/
def Backend.Ends : Backend D W → Prop
  | .leaf _ => True
  | .list child | .incapsulate _ child | .lookup _ _ child | .fill _ _ child
  | .balancer _ child |
    .split _ child => child.Ends
  | .switch _ backends child => (∀ k, (backends k).Ends) ∧ child.Ends
  | .rewrite script child => (∀ f ∈ script, ∀ request, (f request).Ends) ∧ child.Ends

end Model

end Frozen.Chain
