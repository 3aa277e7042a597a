/-
# `Frozen.Graph.Backend` — the graph of backends

`core/backend.c` keeps the backends in a graph: every backend has a list of the backends
it sends its requests to and a list of those that send to it, and two global lists name
the backends without a parent and the backends that have a name.  This module embeds the
functions that change the graph:

    connect, disconnect          one link
    destroy                      a backend with all it leads to
    addTerminators, insert       a graph spliced in behind a backend
    forkRec, fork                a copy
    newIterator, new             a graph built from a configuration

The heap maps addresses to backends and never hands out an address twice; a call that
reads or writes a backend that was freed stops with `Stop.freed`.  Recursion and loops
that the source does not bound take fuel, and stop with `Stop.deep` when it is used up.

Callbacks of classes are the outside world: `Env` says which classes there are and what
each callback answers for the backend at an address.  They do not touch the graph.
Memory is never exhausted.
-/
import Frozen.Graph.List
import Frozen.Binary.Hash

namespace Frozen.Graph

open Binary (Hash Entry Flags)

/-! ## The heap -/

/-- A class, and which of the callbacks it has. -/
structure Class where
  name : String
  init : Bool
  configure : Bool
  fork : Bool
deriving DecidableEq

/-- `backend_t`, with a configuration in `κ`. -/
structure Backend (κ : Type) where
  cls : Class
  name : Option String
  config : Option κ
  refs : UInt64
  childs : Slots Nat
  parents : Slots Nat

/-- The heap, `backends_top` and `backends_names`. -/
structure State (κ : Type) where
  heap : Nat → Option (Backend κ)
  /-- the address of the next backend -/
  next : Nat
  fresh : ∀ a, next ≤ a → heap a = none
  tops : Slots Nat
  names : Slots Nat

/-- Why a call does not return. -/
inductive Stop where
  /-- a backend was touched that is not there -/
  | freed
  /-- the fuel of the model is used up -/
  | deep
deriving DecidableEq

/-- What the code depends on: strings of a configuration, `hash_copy`, `class_find`, and
the answers of the callbacks for the backend at an address. -/
structure Env (κ : Type) where
  string : κ → String → Option String
  copy : κ → Option κ
  classFind : String → Option Class
  init : Nat → Int
  configure : Nat → Int
  fork : Nat → Nat → Int

namespace State

variable {κ : Type}

def empty : State κ where
  heap := fun _ => none
  next := 0
  fresh := fun _ _ => rfl
  tops := []
  names := []

def Live (s : State κ) (a : Nat) : Prop := (s.heap a).isSome

instance (s : State κ) (a : Nat) : Decidable (s.Live a) :=
  inferInstanceAs (Decidable (_ = true))

/-- Follow a pointer. -/
def backend (s : State κ) (a : Nat) : Except Stop (Backend κ) :=
  match s.heap a with
  | some x => .ok x
  | none => .error .freed

def modify (s : State κ) (a : Nat) (f : Backend κ → Backend κ) : State κ :=
  { s with
    heap := fun x => if x = a then (s.heap a).map f else s.heap x
    fresh := by
      intro x hx
      split
      · rename_i hxa
        rw [← hxa, s.fresh x hx]
        rfl
      · exact s.fresh x hx }

def alloc (s : State κ) (b : Backend κ) : State κ :=
  { s with
    heap := fun x => if x = s.next then some b else s.heap x
    next := s.next + 1
    fresh := by
      intro x hx
      rw [if_neg (by omega)]
      exact s.fresh x (by omega) }

def free (s : State κ) (a : Nat) : State κ :=
  { s with
    heap := fun x => if x = a then none else s.heap x
    fresh := by
      intro x hx
      split
      · rfl
      · exact s.fresh x hx }

/-- `backend_top`; the backend is there. -/
def top (s : State κ) (a : Nat) : State κ :=
  match s.heap a with
  | none => s
  | some x =>
      if x.parents.isEmpty
        then { s with tops := (s.tops.delete (some a)).add (some a) } else s

/-- `backend_untop`. -/
def untop (s : State κ) (a : Nat) : State κ := { s with tops := s.tops.delete (some a) }

end State

section

variable {κ : Type}

/-! ## Links -/

/-- `backend_connect`; the child may be `LIST_FREE_ITEM`. -/
def connect (parent : Nat) (child : Option Nat) (s : State κ) :
    Except Stop (State κ) := do
  let _ ← s.backend parent
  let s := s.modify parent fun x => { x with childs := x.childs.add child }
  let s := s.top parent
  match child with
  | none => .ok s
  | some child => do
      let s := s.untop child
      let _ ← s.backend child
      .ok (s.modify child fun x => { x with parents := x.parents.add (some parent) })

/-- `backend_disconnect`. -/
def disconnect (parent : Nat) (child : Option Nat) (s : State κ) :
    Except Stop (State κ) := do
  let s := s.untop parent
  let _ ← s.backend parent
  let s := s.modify parent fun x => { x with childs := x.childs.delete child }
  match child with
  | none => .ok s
  | some child => do
      let _ ← s.backend child
      let s :=
        s.modify child fun x => { x with parents := x.parents.delete (some parent) }
      .ok (s.top child)

/-- `backend_free_skeleton`. -/
def freeSkeleton (b : Nat) (s : State κ) : Except Stop (State κ) := do
  let s := s.untop b
  let x ← s.backend b
  let s := if x.name.isSome then { s with names := s.names.delete (some b) } else s
  .ok (s.free b)

inductive Side where
  | childs
  | parents
deriving DecidableEq

def Backend.list (x : Backend κ) : Side → Slots Nat
  | .childs => x.childs
  | .parents => x.parents

def Backend.put (x : Backend κ) (l : Slots Nat) : Side → Backend κ
  | .childs => { x with childs := l }
  | .parents => { x with parents := l }

/-- `while( (curr = list_pop(&backend->side)) != NULL) func(curr)`. -/
def whilePop (side : Side) (func : Nat → State κ → Except Stop (State κ)) (b : Nat) :
    Nat → State κ → Except Stop (State κ)
  | 0, _ => .error .deep
  | n + 1, s => do
      let x ← s.backend b
      match (x.list side).pop with
      | (none, _) => .ok s
      | (some curr, l) => do
          let s ← func curr (s.modify b fun x => x.put l side)
          whilePop side func b n s

/-- `backend_destroy`. -/
def destroy : Nat → Nat → State κ → Except Stop (State κ)
  | 0, _, _ => .error .deep
  | n + 1, b, s => do
      let x ← s.backend b
      let s := s.modify b fun x => { x with refs := x.refs - 1 }
      if x.refs - 1 ≠ 0 then .ok s
      else
        let s ← whilePop .childs (destroy n) b n s
        let s ← whilePop .parents (fun curr => disconnect curr (some b)) b n s
        freeSkeleton b s

/-! ## Splicing -/

/-- `backend_add_terminators`.  A list of children that is not empty is not changed
while it is run through: only backends without children get new ones. -/
def addTerminators (newChilds : List Nat) : Nat → Nat → State κ → Except Stop (State κ)
  | 0, _, _ => .error .deep
  | n + 1, b, s => do
      let x ← s.backend b
      if x.childs.items ≠ [] then
        x.childs.items.foldlM (fun s child => addTerminators newChilds n child s) s
      else newChilds.foldlM (fun s child => connect b (some child) s) s

/-- `backend_insert`. -/
def insert (n : Nat) (parent newChild : Nat) (s : State κ) : Except Stop (State κ) := do
  let x ← s.backend parent
  let s ← addTerminators x.childs.items n newChild s
  let s ← whilePop .childs (fun child => disconnect parent (some child)) parent n s
  connect parent (some newChild) s

/-! ## Copies -/

variable (env : Env κ)

/-- `backend_clone`, with the name dropped as `backend_fork_rec` does. -/
def Backend.clone (x : Backend κ) : Backend κ :=
  { x with name := none, config := x.config.bind env.copy, refs := 1, childs := [], parents := [] }

/-- A callback of a forked backend answers an error. -/
def forkFails (cls : Class) (curr orig : Nat) : Bool :=
  cls.init && env.init curr ≠ 0 ||
    if cls.fork then env.fork curr orig ≠ 0 else cls.configure && env.configure curr ≠ 0

/-- The first loop of `backend_fork_rec`: fork the children, or destroy the copies made so
far, the last one first. -/
def forkChilds (fork : Nat → State κ → Except Stop (Option Nat × State κ))
    (destroy : Nat → State κ → Except Stop (State κ)) :
    List Nat → List Nat → State κ → Except Stop (Option (List Nat) × State κ)
  | [], done, s => .ok (some done.reverse, s)
  | child :: childs, done, s => do
      match ← fork child s with
      | (none, s) => do
          let s ← done.foldlM (fun s copy => destroy copy s) s
          .ok (none, s)
      | (some copy, s) => forkChilds fork destroy childs (copy :: done) s

/-- `backend_fork_rec`; `none` is `NULL`. -/
def forkRec : Nat → Nat → State κ → Except Stop (Option Nat × State κ)
  | 0, _, _ => .error .deep
  | n + 1, b, s => do
      let x ← s.backend b
      match ← forkChilds (forkRec n) (destroy n) x.childs.items [] s with
      | (none, s) => .ok (none, s)
      | (some copies, s) => do
          let curr := s.next
          let s := s.alloc (x.clone env)
          let s ← copies.foldlM (fun s copy => connect curr (some copy) s) s
          if forkFails env x.cls curr b then do
            let s ← copies.foldlM (fun s copy => disconnect curr (some copy) s) s
            let s ← freeSkeleton curr s
            .ok (none, s)
          else .ok (some curr, s)

/-- `backend_fork`; the request is passed to the callbacks. -/
def fork (n : Nat) (b : Nat) (s : State κ) : Except Stop (Option Nat × State κ) :=
  forkRec env n b s

/-! ## Construction -/

/-- `backend_find`. -/
def findIn (name : String) (s : State κ) : List Nat → Except Stop (Option Nat)
  | [] => .ok none
  | b :: bs => do
      let x ← s.backend b
      if x.name = some name then .ok (some b) else findIn name s bs

def find (name : String) (s : State κ) : Except Stop (Option Nat) :=
  findIn name s s.names.items

/-- `backend_acquire`. -/
def acquire (name : String) (s : State κ) : Except Stop (Option Nat × State κ) := do
  match ← find name s with
  | none => .ok (none, s)
  | some b => .ok (some b, s.modify b fun x => { x with refs := x.refs + 1 })

/-- `backend_new_skeleton`. -/
def newSkeleton (name : Option String) (cls : String) (config : κ) (s : State κ) :
    Except Stop (Option Nat × State κ) :=
  match env.classFind cls with
  | none => .ok (none, s)
  | some cls => do
      let b := s.next
      let s := s.alloc
        { cls := cls, name := name, config := env.copy config, refs := 1, childs := [],
          parents := [] }
      let s := if name.isSome then { s with names := s.names.add (some b) } else s
      if (env.copy config).isSome then .ok (some b, s)
      else do
        let s ← freeSkeleton b s
        .ok (none, s)

/-- The data of an item of a configuration: a hash, or something else. -/
inductive ItemData (κ : Type) where
  | hash (config : κ)
  | other

/-- `backend_new_ctx`, and the graph. -/
structure NewCtx (κ : Type) where
  state : State κ
  backends : Slots Nat
  prev : Option Nat

/-- Why `hash_iter` ends early: the callback breaks, or the call does not return. -/
inductive Halt (κ : Type) where
  | broke (ctx : NewCtx κ)
  | stop (why : Stop)

/-- A callback of a new backend answers an error. -/
def newFails (cls : Class) (b : Nat) : Bool :=
  cls.init && env.init b ≠ 0 || cls.configure && env.configure b ≠ 0

/-- The body of `backend_new_iterator`; the flag says whether to go on. -/
def newItem (name cls : Option String) (config : κ) (ctx : NewCtx κ) :
    Except Stop (Bool × NewCtx κ) :=
  match cls, name with
  | none, none => .ok (false, ctx)
  | none, some name => do
      match ← find name ctx.state with
      | none => .ok (false, ctx)
      | some b => do
          let s ← connect b ctx.prev ctx.state
          .ok (true, { ctx with state := s, prev := some b })
  | some cls, name => do
      match ← newSkeleton env name cls config ctx.state with
      | (none, s) => .ok (false, { ctx with state := s })
      | (some b, s) => do
          let s ← connect b ctx.prev s
          let x ← s.backend b
          if newFails env x.cls b then do
            let s ← disconnect b ctx.prev s
            let s ← freeSkeleton b s
            .ok (false, { ctx with state := s })
          else .ok (true, { state := s, backends := ctx.backends.add (some b), prev := some b })

/-- `backend_new_iterator`. -/
def newIterator (e : Entry (ItemData κ)) (ctx : NewCtx κ) : Except (Halt κ) (NewCtx κ) :=
  match e with
  | .null => .ok { ctx with prev := none }
  | .item _ (.hash config) =>
      match newItem env (env.string config "name") (env.string config "class")
        config ctx with
      | .error why => .error (.stop why)
      | .ok (false, ctx) => .error (.broke ctx)
      | .ok (true, ctx) => .ok ctx
  | _ => .ok ctx

/-- `HASH_ITER_NULL`. -/
def nullFlags : Flags := { null := true, last := false, inline := false }

/-- The clean-up of one backend in `backend_new`. -/
def undo (n : Nat) (b : Nat) (s : State κ) : Except Stop (State κ) := do
  let s ← whilePop .childs (fun child => disconnect b (some child)) b n s
  freeSkeleton b s

/-- `backend_new`; `none` is `NULL`. -/
def new (n : Nat) (config : Hash (ItemData κ)) (s : State κ) :
    Except Stop (Option Nat × State κ) :=
  match config.iter nullFlags (newIterator env)
    { state := s, backends := [], prev := none } with
  | .ok ctx => .ok (ctx.prev, ctx.state)
  | .error (.stop why) => .error why
  | .error (.broke ctx) => do
      let s ← ctx.backends.items.foldlM (fun s b => undo n b s) ctx.state
      .ok (none, s)

end

end Frozen.Graph
