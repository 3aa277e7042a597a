/-
# `Frozen.Rewrite.Blocks` — control flow of the rewrite interpreter

A script is a block of actions; `if` and `ifnot` carry a block of their own.
`rewrite_func_ablock` runs it in one function: a `for` over the actions of the current
block, a jump to `ablock_enter` with a new frame when a condition holds, and a jump back
to `ablock_continue` with the saved frame when a block is finished.  What the other
actions do, and when a condition holds, is left open: both are functions of the state,
which stands for the environment of the script and the variables of the loop.

    runActions          the same script, by recursion over its blocks
    simulates_actions   the loop between two returns to one frame
    ablock_eq_run       the loop is the recursion
-/
import Frozen.Lib.Fuel

namespace Frozen.Rewrite

open Lib

/-- `rewrite_actions` without the conditions. -/
inductive SimpleAction where
  | langSet
  | backendQuery
  | backendPass
  | dataQuery
deriving DecidableEq

/-- `rewrite_thing_t`, as parameters have it. -/
inductive Thing where
  | hasht (id : Nat)
  | hashElement (arrayKey : UInt64) (id : Nat)
  | const (id : Nat)
  | variable (id : Nat)
  | ret
deriving DecidableEq

/-- An action that is not a condition. -/
structure Simple where
  action : SimpleAction
  params : List Thing
  ret : Option Thing
deriving DecidableEq

/-- `rewrite_action_t`.  The parser builds a condition with two parameters, what it
looks at and its block, so the checks for missing ones do not apply. -/
inductive Action where
  | simple (a : Simple)
  | langIf (param1 : Thing) (block : List Action)
  | langIfnot (param1 : Thing) (block : List Action)

/-- How the function is left before the end of the script. -/
inductive Exit where
  | ret (n : Int)
  /-- a null pointer is followed, and the process ends -/
  | crash
deriving DecidableEq

/-- What the actions do to the state; an error leaves the function. -/
structure Effects (σ : Type) where
  /-- a simple action with the assignment that follows the switch -/
  perform : Simple → σ → Except Exit σ
  /-- `is_not_null` of a parameter, and what asking for it leaves behind -/
  isNotNull : Thing → σ → Bool × σ
  /-- the assignment that follows a condition whose block is not taken -/
  skip : Thing → σ → σ

/-- The state, and the simple actions that were executed, in order. -/
structure Trace (σ : Type) where
  state : σ
  executed : List Simple

/-- An action has left the function, and these are the actions up to it. -/
abbrev Left := Exit × List Simple

/-- How a script ends: at an action that leaves the function, or after its last action. -/
abbrev Outcome (σ : Type) := Except Left (Trace σ)

/-- Where a run of the loop ends early. -/
inductive Stop where
  | outOfFuel
  /-- a pointer to an action or a frame that is not there -/
  | wild
deriving DecidableEq

section

variable {σ : Type} (fx : Effects σ)

/-- A condition is looked at. -/
def Trace.ask (param1 : Thing) (t : Trace σ) : Trace σ :=
  { t with state := (fx.isNotNull param1 t.state).2 }

/-- Its block is not taken. -/
def Trace.skip (param1 : Thing) (t : Trace σ) : Trace σ :=
  { t with state := fx.skip param1 (fx.isNotNull param1 t.state).2 }

def execute (a : Simple) (t : Trace σ) : Outcome σ :=
  match fx.perform a t.state with
  | .error exit => .error (exit, t.executed ++ [a])
  | .ok state => .ok ⟨state, t.executed ++ [a]⟩

/-! ## Recursion over the blocks -/

mutual

def runAction : Action → Trace σ → Outcome σ
  | .simple a, t => execute fx a t
  | .langIf param1 block, t =>
      if (fx.isNotNull param1 t.state).1 then runActions block (t.ask fx param1)
      else .ok (t.skip fx param1)
  | .langIfnot param1 block, t =>
      if (fx.isNotNull param1 t.state).1 then .ok (t.skip fx param1)
      else runActions block (t.ask fx param1)

def runActions : List Action → Trace σ → Outcome σ
  | [], t => .ok t
  | a :: rest, t =>
      match runAction a t with
      | .error exit => .error exit
      | .ok t => runActions rest t

end

/-! ## The loop -/

/-- `rewrite_stack_frame_t`; the saved pointer is an index into the
actions of the block. -/
structure Frame where
  ablock : List Action
  action : Nat
  actionId : Nat

/-- `ablock_call` and `ablock_enter`: save where to go on, and add a frame. -/
def ablockCall (stack : List Frame) (frameId action actionId : Nat)
    (block : List Action) : List Frame :=
  let stack := stack.modify frameId fun frame =>
    { frame with action := action + 1, actionId := actionId + 1 }
  stack ++ [⟨block, 0, 0⟩]

/-- From the head of the `for` of `rewrite_func_ablock` on. -/
def forLoop : Nat → List Frame → Nat → List Action → Nat → Nat → Trace σ →
    Except Stop (Outcome σ)
  | 0, _, _, _, _, _, _ => .error .outOfFuel
  | n + 1, stack, frameId, ablock, actionId, action, t =>
      if actionId < ablock.length then
        match ablock[action]? with
        | none => .error .wild
        | some (.simple a) =>
            match execute fx a t with
            | .error exit => .ok (.error exit)
            | .ok t => forLoop n stack frameId ablock (actionId + 1) (action + 1) t
        | some (.langIf param1 block) =>
            if (fx.isNotNull param1 t.state).1 then
              let stack := ablockCall stack frameId action actionId block
              forLoop n stack (frameId + 1) block 0 0 (t.ask fx param1)
            else forLoop n stack frameId ablock (actionId + 1) (action + 1)
              (t.skip fx param1)
        | some (.langIfnot param1 block) =>
            if (fx.isNotNull param1 t.state).1 then
              forLoop n stack frameId ablock (actionId + 1) (action + 1)
                (t.skip fx param1)
            else
              let stack := ablockCall stack frameId action actionId block
              forLoop n stack (frameId + 1) block 0 0 (t.ask fx param1)
      else
        -- ablock_leave
        let stackItems := stack.length - 1
        if stackItems = 0 then .ok (.ok t)
        else
          let stack := stack.take stackItems
          let frameId := stackItems - 1
          match stack[frameId]? with
          | none => .error .wild
          | some frame =>
              forLoop n stack frameId frame.ablock frame.actionId frame.action t

/-- `rewrite_func_ablock`. -/
def rewriteFuncAblock (n : Nat) (ablock : List Action) (s : σ) :
    Except Stop (Outcome σ) :=
  forLoop fx n [⟨ablock, 0, 0⟩] 0 ablock 0 0 ⟨s, []⟩

end

/-! ## Simulation -/

section

variable {σ : Type} {fx : Effects σ}

/-- The loop at an action of a block, in the frame above the saved ones. -/
def Loops (fx : Effects σ) (saved : List Frame) (top : Frame) (i : Nat) (t : Trace σ)
    (res : Outcome σ) : Prop :=
  Returns (fun n => forLoop fx n (saved ++ [top]) saved.length top.ablock i i t) res

theorem ablockCall_eq (saved : List Frame) (top : Frame) (i : Nat) (block : List Action) :
    ablockCall (saved ++ [top]) saved.length i i block =
      (saved ++ [⟨top.ablock, i + 1, i + 1⟩]) ++ [⟨block, 0, 0⟩] := by
  have hmodify : ∀ f : Frame → Frame,
      (saved ++ [top]).modify saved.length f = saved ++ [f top] := by
    intro f
    rw [List.modify_eq_take_cons_drop (by simp)]
    simp
  simp [ablockCall, hmodify]

/-- A finished block resumes the frame below it where that was left. -/
theorem Loops.leave {saved : List Frame} {ablock : List Action} {i : Nat} {top : Frame}
    {t : Trace σ} {res : Outcome σ} (h : Loops fx saved ⟨ablock, i, i⟩ i t res) :
    Loops fx (saved ++ [⟨ablock, i, i⟩]) top top.ablock.length t res := by
  refine .of_succ ?_
  have htake : ∀ frame : Frame,
      (saved ++ [frame, top]).take (saved.length + 1) = saved ++ [frame] := by
    intro frame
    simp [List.take_append]
  simpa [forLoop, htake, Loops] using h

/-- Entering a block, running it and leaving it. -/
theorem Loops.of_block {saved : List Frame} {top : Frame} {i : Nat} {block : List Action}
    {t : Trace σ} {res : Outcome σ}
    (h : Loops fx (saved ++ [⟨top.ablock, i + 1, i + 1⟩]) ⟨block, 0, 0⟩ 0 t res) :
    Returns (fun n => forLoop fx n (ablockCall (saved ++ [top]) saved.length i i block)
      (saved.length + 1) block 0 0 t) res := by
  simpa [Loops, ablockCall_eq] using h

/-- From one action of a block to a later one, whatever the loop does from there on,
unless an action leaves the function before. -/
def Simulates (fx : Effects σ) (saved : List Frame) (top : Frame) (i j : Nat)
    (t : Trace σ) : Outcome σ → Prop
  | .error exit => Loops fx saved top i t (.error exit)
  | .ok t' => ∀ res, (∀ top', top'.ablock = top.ablock → Loops fx saved top' j t' res) →
      Loops fx saved top i t res

theorem simulates_block {saved : List Frame} {top : Frame} {i : Nat} {block : List Action}
    {t t' : Trace σ} {out : Outcome σ}
    (hblock : Simulates fx (saved ++ [⟨top.ablock, i + 1, i + 1⟩]) ⟨block, 0, 0⟩ 0
      block.length t' out)
    (hstep : ∀ n, forLoop fx (n + 1) (saved ++ [top]) saved.length top.ablock i i t =
      forLoop fx n (ablockCall (saved ++ [top]) saved.length i i block)
    (saved.length + 1) block 0 0 t') : Simulates fx saved top i (i + 1) t out := by
  have henter :
    ∀ res, Loops fx (saved ++ [⟨top.ablock, i + 1, i + 1⟩]) ⟨block, 0, 0⟩ 0 t' res →
      Loops fx saved top i t res := by
    intro res h
    refine .of_succ ?_
    simpa only [hstep] using h.of_block
  cases out with
  | error exit => exact henter _ hblock
  | ok t'' =>
      intro res hres
      refine henter res (hblock res ?_)
      rintro ⟨_, a, b⟩ rfl
      exact (hres ⟨top.ablock, i + 1, i + 1⟩ rfl).leave

/-- The loop goes on at the next action. -/
theorem simulates_next {saved : List Frame} {top : Frame} {i : Nat} {t t' : Trace σ}
    (hstep : ∀ n, forLoop fx (n + 1) (saved ++ [top]) saved.length top.ablock i i t =
      forLoop fx n (saved ++ [top]) saved.length top.ablock (i + 1) (i + 1) t') :
    Simulates fx saved top i (i + 1) t (.ok t') := by
  intro res hres
  refine .of_succ ?_
  simpa only [hstep, Loops] using hres top rfl

theorem Simulates.trans {saved : List Frame} {top : Frame} {i j k : Nat} {t t' : Trace σ}
    {out : Outcome σ} (hfirst : Simulates fx saved top i j t (.ok t'))
    (hrest : ∀ top', top'.ablock = top.ablock → Simulates fx saved top' j k t' out) :
    Simulates fx saved top i k t out := by
  cases out with
  | error exit => exact hfirst _ hrest
  | ok t'' =>
      intro res hres
      refine hfirst res fun top' htop => ?_
      exact hrest top' htop res fun top'' htop' => hres top'' (htop'.trans htop)

mutual

theorem simulates_action : ∀ (a : Action) (saved : List Frame) (top : Frame)
    (before rest : List Action) (t : Trace σ), top.ablock = before ++ a :: rest →
    Simulates fx saved top before.length (before.length + 1) t (runAction fx a t)
  | .simple a, saved, top, before, rest, t, hblock => by
      rw [runAction]
      cases hexec : execute fx a t with
      | error exit =>
          refine .of_succ (.of_forall fun n => ?_)
          simp [forLoop, hblock, hexec]
      | ok t' =>
          refine simulates_next fun n => ?_
          simp [forLoop, hblock, hexec]
  | .langIf param1 block, saved, top, before, rest, t, hblock => by
      rw [runAction]
      split
      · next hnull =>
          refine simulates_block (simulates_actions block _ _ [] _ rfl) fun n => ?_
          simp [forLoop, hblock, hnull]
      · next hnull =>
          refine simulates_next fun n => ?_
          simp [forLoop, hblock, hnull]
  | .langIfnot param1 block, saved, top, before, rest, t, hblock => by
      rw [runAction]
      split
      · next hnull =>
          refine simulates_next fun n => ?_
          simp [forLoop, hblock, hnull]
      · next hnull =>
          refine simulates_block (simulates_actions block _ _ [] _ rfl) fun n => ?_
          simp [forLoop, hblock, hnull]

theorem simulates_actions : ∀ (rest : List Action) (saved : List Frame) (top : Frame)
    (before : List Action) (t : Trace σ), top.ablock = before ++ rest →
    Simulates fx saved top before.length top.ablock.length t (runActions fx rest t)
  | [], saved, top, before, t, hblock => by
      intro res hres
      have hlen : before.length = top.ablock.length := by simp [hblock]
      rw [hlen]
      exact hres top rfl
  | a :: rest, saved, top, before, t, hblock => by
      have hfirst := simulates_action a saved top before rest t hblock
      rw [runActions]
      cases hrun : runAction fx a t with
      | error exit =>
          rw [hrun] at hfirst
          exact hfirst
      | ok t' =>
          rw [hrun] at hfirst
          refine hfirst.trans fun top' htop => ?_
          have h := simulates_actions rest saved top' (before ++ [a]) t'
              (by simp [htop, hblock])
          simpa [htop] using h

end

/-- The outermost block, from any trace on. -/
theorem loops_run (fx : Effects σ) (script : List Action) (t : Trace σ) :
    Loops fx [] ⟨script, 0, 0⟩ 0 t (runActions fx script t) := by
  have hsim := @simulates_actions σ fx script [] ⟨script, 0, 0⟩ [] t rfl
  cases hrun : runActions fx script t with
  | error exit =>
      rw [hrun] at hsim
      exact hsim
  | ok t' =>
      rw [hrun] at hsim
      refine hsim (.ok t') ?_
      rintro ⟨_, action, actionId⟩ rfl
      refine .of_succ (.of_forall fun n => ?_)
      simp [forLoop]

/-- The explicit-stack loop is the recursion over the blocks: it executes the same
actions in the same order, and it ends when the outermost block does. -/
theorem ablock_eq_run (fx : Effects σ) (script : List Action) (s : σ) :
    Returns (fun n => rewriteFuncAblock fx n script s) (runActions fx script ⟨s, []⟩) :=
  loops_run fx script ⟨s, []⟩

end

end Frozen.Rewrite
