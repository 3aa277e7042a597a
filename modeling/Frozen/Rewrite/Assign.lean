/-
# `Frozen.Rewrite.Assign` — the environment of a script, and assignments

Constants, variables and request elements are data holders: a type and a pointer.  An
assignment copies the holder.  The result of a function is in a local of the loop,
`action_ret`, and `ret` in a local of the function; holders may point to either.

Each action of the loop leaves in `to` what is to be assigned and in `from` the
holder; the assignment follows the switch.  A condition sets `from` only, and when its
block is not taken the loop comes to the assignment with the `to` that the last action
left on the stack.

    quiet_iff   in which executions no condition has an effect when its block is not taken
-/
import Frozen.Rewrite.Points
import Frozen.Core.Base

namespace Frozen.Rewrite

open Lib Relation

/-! ## Environment -/

/-- `TYPE_…`, as far as the interpreter knows them. -/
inductive TypeId where
  | invalid | voidt | sizet | backendt
  | other (n : Nat)
deriving DecidableEq, Repr

/-- `data_t.ptr`: the two locals, or an object somewhere else. -/
inductive Ptr where
  | null | ret | actionRet
  | object (a : Nat)
deriving DecidableEq, Repr

/-- `data_t`. -/
structure Holder where
  type : TypeId
  ptr : Ptr
deriving DecidableEq, Repr

/-- `temp_any`. -/
def tempAny : Holder := ⟨.voidt, .null⟩

/-- `action_ret_data`. -/
def actionRetData : Holder := ⟨.sizet, .actionRet⟩

/-- `rewrite_script_env_t`, with the locals that holders point to and the objects
elsewhere.  A request is the list of its items as a lookup goes through them. -/
structure Env (β : Type) where
  constants : Nat → Holder
  vars : Nat → Holder
  requests : Nat → List (UInt64 × Holder)
  retData : Holder
  ret : BitVec 64
  actionRet : BitVec 64
  heap : Nat → β

/-- `hash_data_find`. -/
def dataFind (request : List (UInt64 × Holder)) (key : UInt64) : Option Holder :=
  (request.find? fun item => item.1 = key).map Prod.snd

section

variable {β : Type}

/-- `rewrite_thing_get_data`. -/
def Env.holder (env : Env β) : Thing → Option Holder
  | .hashElement arrayKey id => dataFind (env.requests id) arrayKey
  | .const id => some (env.constants id)
  | .variable id => some (env.vars id)
  | .ret => some env.retData
  | .hasht _ => none

/-- What the handlers of data and of backends do: they get pointers, and may change
whatever they reach. -/
structure World (β : Type) where
  /-- `ACTION_IS_NULL` is answered, with 0 -/
  notNull : Holder → Env β → Bool
  /-- what `ACTION_READ` into `ret` leaves there -/
  read : Holder → Env β → BitVec 64
  /-- `data_get` of an action -/
  getAction : Option Holder → Env β → Option UInt64
  backendQuery : Ptr → Nat → Env β → BitVec 64 × Env β
  backendPass : Nat → Env β → BitVec 64 × Env β
  dataQuery : Thing → UInt64 → List Thing → Env β → BitVec 64 × Env β

variable (w : World β)

/-! ## One action -/

/-- The switch, for an action that is no condition: `to`, `from`, and the environment. -/
def switch (a : Simple) (env : Env β) :
    Except Exit (Option Thing × Option Holder × Env β) :=
  match a.action with
  | .langSet =>
      match a.params with
      | dst :: param1 :: _ => .ok (some dst, env.holder param1, env)
      | _ => .error .crash
  | .backendQuery =>
      match a.params with
      | param1 :: .hasht id :: _ =>
          match env.holder param1 with
          -- `from->type` of a key that the request does not have
          | none => .error .crash
          | some src =>
              if src.type ≠ .backendt then .error (.ret (-EINVAL))
              else
                let (actionRet, env) := w.backendQuery src.ptr id env
                .ok (a.ret, some actionRetData, { env with actionRet := actionRet })
      | _ => .error (.ret (-EINVAL))
  | .backendPass =>
      match a.params with
      | .hasht id :: _ =>
          let (_, env) := w.backendPass id env
          -- `action_ret` has no sign, so it is never less than 0
          .ok (a.ret, some actionRetData, { env with actionRet := .ofInt 64 (-EEXIST) })
      | _ => .error (.ret (errorCode 12 205))
  | .dataQuery =>
      -- the `ret` of this case hides that of the function, which is what is returned
      match a.params with
      | param1 :: param2 :: params =>
          match w.getAction (env.holder param2) env with
          | none => .error (.ret env.ret.toInt)
          | some action =>
              let (actionRet, env) := w.dataQuery param1 action params env
              .ok (a.ret, some actionRetData, { env with actionRet := actionRet })
      | _ => .error (.ret env.ret.toInt)

/-- What follows the switch. -/
def assign (dst : Option Thing) (src : Option Holder) (env : Env β) : Env β :=
  let src := src.getD tempAny
  match dst with
  | none => env
  | some (.hashElement arrayKey id) =>
      { env with requests := Function.update env.requests id ((arrayKey, src) :: env.requests id) }
  | some .ret => { env with ret := w.read src env }
  | some (.variable id) => { env with vars := Function.update env.vars id src }
  | some _ => env

/-- The environment, and what is on the stack in the place of `to`. -/
structure Locals (β : Type) where
  env : Env β
  dst : Option Thing

def perform (a : Simple) (s : Locals β) : Except Exit (Locals β) :=
  match switch w a s.env with
  | .error exit => .error exit
  | .ok (dst, src, env) => .ok ⟨assign w dst src env, dst⟩

/-- `is_not_null`. -/
def isNotNull (param1 : Thing) (s : Locals β) : Bool :=
  match s.env.holder param1 with
  | none => false
  | some src => w.notNull src s.env

/-- The actions of the loop; behind a condition `from` is what it has looked at. -/
def effects : Effects (Locals β) where
  perform := perform w
  isNotNull param1 s := (isNotNull w param1 s, s)
  skip param1 s := { s with env := assign w s.dst (s.env.holder param1) s.env }

/-! ## What a skipped condition does -/

/-- `ret`, the variables and the requests are the same. -/
def Untouched (env env' : Env β) : Prop :=
  env'.ret = env.ret ∧ env'.vars = env.vars ∧ env'.requests = env.requests

/-- No condition of an execution has an effect when its block is not taken. -/
def Quiet (script : List Action) (s : Locals β) : Prop :=
  ∀ c rest t param1, Reaches (effects w) script s (c :: rest, t) →
  Skips (effects w) t param1 c →
    Untouched t.state.env (t.skip (effects w) param1).state.env

/-- What an action assigns to. -/
def Simple.target (a : Simple) : Option Thing :=
  match a.action with
  | .langSet => a.params.head?
  | _ => a.ret

/-- The call that an action makes: its result, and what it leaves of the environment. -/
inductive Calls (env : Env β) (a : Simple) : BitVec 64 × Env β → Prop
  | query {param1 : Thing} {id : Nat} {params : List Thing} {src : Holder} :
      a.action = .backendQuery → a.params = param1 :: .hasht id :: params →
      env.holder param1 = some src →
        Calls env a (w.backendQuery src.ptr id env)
  | pass {id : Nat} {params : List Thing} :
      a.action = .backendPass → a.params = .hasht id :: params →
      Calls env a (w.backendPass id env)
  | data {param1 param2 : Thing} {params : List Thing} {action : UInt64} :
      a.action = .dataQuery → a.params = param1 :: param2 :: params →
        w.getAction (env.holder param2) env = some action →
        Calls env a (w.dataQuery param1 action params env)

/-- What the last action assigned to; before the first one the stack has what it has. -/
def lastTarget (stale : Option Thing) (executed : List Simple) : Option Thing :=
  (executed.getLast?.map Simple.target).getD stale

/-- Assigning what the condition looks at to that target again changes nothing: there is
no target, or it is a variable with this holder, or `ret` and reading leaves it as it
is; a request always gets another item. -/
def Harmless (dst : Option Thing) (param1 : Thing) (env : Env β) : Prop :=
  let src := (env.holder param1).getD tempAny
  match dst with
  | none => True
  | some (.hashElement _ _) => False
  | some .ret => w.read src env = env.ret
  | some (.variable id) => env.vars id = src
  | some _ => True

variable {w}

theorem update_eq_self {γ : Type} {f : Nat → γ} {i : Nat} {x : γ} :
    Function.update f i x = f ↔ f i = x := by
  rw [Function.update_eq_self_iff]
  exact eq_comm

theorem assign_of_harmless {dst : Option Thing} {param1 : Thing} {env : Env β}
    (h : Harmless w dst param1 env) : assign w dst (env.holder param1) env = env := by
  cases dst with
  | none => rfl
  | some dst =>
      cases dst with
      | hasht i => rfl
      | const i => rfl
      | hashElement arrayKey i => exact h.elim
      | «variable» i =>
          exact congrArg (fun vars => { env with vars := vars }) (update_eq_self.mpr h)
      | ret => exact congrArg (fun ret => { env with ret := ret }) h

theorem untouched_assign_iff {dst : Option Thing} {param1 : Thing} {env : Env β} :
    Untouched env (assign w dst (env.holder param1) env) ↔ Harmless w dst param1 env := by
  constructor
  · rintro ⟨hret, hvars, hrequests⟩
    cases dst with
    | none => trivial
    | some dst =>
        cases dst with
        | hasht i => trivial
        | const i => trivial
        | hashElement arrayKey i =>
            have hlength := congrArg List.length (update_eq_self.mp hrequests)
            rw [List.length_cons] at hlength
            exact absurd hlength (by omega)
        | «variable» i => exact update_eq_self.mp hvars
        | ret => exact hret
  · intro h
    rw [assign_of_harmless h]
    exact ⟨rfl, rfl, rfl⟩

theorem execute_ok {a : Simple} {t t' : Trace (Locals β)}
    (h : execute (effects w) a t = .ok t') :
    t'.executed = t.executed ++ [a] ∧ perform w a t.state = .ok t'.state := by
  rw [execute] at h
  have hperform : (effects w).perform a t.state = perform w a t.state := rfl
  cases hrun : perform w a t.state with
  | error ret =>
      rw [hperform, hrun] at h
      cases h
  | ok s =>
      rw [hperform, hrun] at h
      cases h
      exact ⟨rfl, rfl⟩

/-- What the switch does, if it does not leave the function: an assignment looks its
value up, and a call is made and its result is in `action_ret`. -/
theorem switch_cases {a : Simple} {env env' : Env β} {dst : Option Thing}
    {src : Option Holder} (h : switch w a env = .ok (dst, src, env')) :
    dst = a.target ∧
      (env' = env ∨ ∃ r x, Calls w env a r ∧ src = some actionRetData ∧
        env' = { r.2 with actionRet := x }) := by
  unfold switch at h
  unfold Simple.target
  split at h
  · next hset =>
      rw [hset]
      split at h
      · next hparams =>
          cases h
          rw [hparams]
          exact ⟨rfl, .inl rfl⟩
      · cases h
  · next hquery =>
      rw [hquery]
      split at h
      · next hparams =>
          split at h
          · cases h
          · next hsrc =>
              split_ifs at h
              cases h
              exact ⟨rfl, .inr ⟨_, _, .query hquery hparams hsrc, rfl, rfl⟩⟩
      · cases h
  · next hpass =>
      rw [hpass]
      split at h
      · next hparams =>
          cases h
          exact ⟨rfl, .inr ⟨_, _, .pass hpass hparams, rfl, rfl⟩⟩
      · cases h
  · next hdata =>
      rw [hdata]
      split at h
      · next hparams =>
          split at h
          · cases h
          · next haction =>
              cases h
              exact ⟨rfl, .inr ⟨_, _, .data hdata hparams haction, rfl, rfl⟩⟩
      · cases h

theorem lastTarget_append (stale : Option Thing) (executed : List Simple) (a : Simple) :
    lastTarget stale (executed ++ [a]) = a.target := by
  rw [lastTarget, List.getLast?_append]
  rfl

/-- What is on the stack is what the last action left there. -/
theorem dst_eq_lastTarget {script : List Action} {s : Locals β} {p : Point (Locals β)}
    (h : Reaches (effects w) script s p) :
    p.2.state.dst = lastTarget s.dst p.2.executed := by
  induction h with
  | refl => rfl
  | tail _ hstep ih =>
      cases hstep with
      | simple hexec =>
          obtain ⟨hexecuted, hperform⟩ := execute_ok hexec
          unfold perform at hperform
          split at hperform
          · cases hperform
          · next hswitch =>
              rw [hexecuted, lastTarget_append, ← (switch_cases hswitch).1,
                ← Except.ok.inj hperform]
      | ifTaken _ => exact ih
      | ifSkipped _ => exact ih
      | ifnotTaken _ => exact ih
      | ifnotSkipped _ => exact ih

/-- **No condition has an effect** when its block is not taken, exactly if at each of
them it is harmless to assign to the last target again. -/
theorem quiet_iff (w : World β) (script : List Action) (s : Locals β) :
    Quiet w script s ↔
      ∀ c rest t param1, Reaches (effects w) script s (c :: rest, t) →
      Skips (effects w) t param1 c →
        Harmless w (lastTarget s.dst t.executed) param1 t.state.env := by
  refine forall₄_congr fun c rest t param1 => forall₂_congr fun hreach _ => ?_
  rw [← dst_eq_lastTarget hreach]
  exact untouched_assign_iff

/-- `rewrite_func`: where a script starts.  The locals that are not set have what
is on the stack. -/
def start (constants : Nat → Holder) (request : List (UInt64 × Holder))
    (heap : Nat → β) (actionRet : BitVec 64) (stale : Option Thing) : Locals β where
  env :=
    { constants := constants
      vars := fun _ => ⟨.invalid, .null⟩
      requests := fun id => if id = 0 then request else []
      retData := ⟨.sizet, .ret⟩
      ret := .ofInt 64 (-EEXIST)
      actionRet := actionRet
      heap := heap }
  dst := stale

end

/-! ## Numbers -/

/-- Objects that are numbers; a backend answers with the error of that
number, or with 0. -/
def numbers : World Nat where
  notNull h env :=
    match h.ptr with
    | .null => false
    | .ret => env.ret != 0
    | .actionRet => env.actionRet != 0
    | .object a => env.heap a != 0
  read h env :=
    match h.ptr with
    | .null => env.ret
    | .ret => env.ret
    | .actionRet => env.actionRet
    | .object a => .ofNat 64 (env.heap a)
  getAction _ _ := none
  backendQuery p _ env :=
    match p with
    | .object a => (.ofInt 64 (-(env.heap a : Int)), env)
    | _ => (.ofInt 64 (-EINVAL), env)
  backendPass _ env := (0, env)
  dataQuery _ _ _ env := (0, env)

/-- `var_t x; x = (size_t)'5'; if( (size_t)'0' ){ };` -/
def assignThenAsk : List Action :=
  [.simple ⟨.langSet, [.variable 0, .const 0], none⟩, .langIf (.const 1) []]

/-- The constants 5 and 0. -/
def fiveAndZero : Locals Nat :=
  start (fun id => ⟨.sizet, .object id⟩) [] (fun a => if a = 0 then 5 else 0) 0 none

/-- The variable has the 5 before the condition, and the 0 behind it. -/
theorem skip_assigns : ¬ Quiet numbers assignThenAsk fiveAndZero := by
  intro hquiet
  obtain ⟨-, hvars, -⟩ := hquiet _ _ _ (.const 1) (.single (.simple rfl)) (.langIf rfl)
  exact absurd (congrFun hvars 0) (by decide)

end Frozen.Rewrite
