/-
# `Frozen.Rewrite.Meaning` — what a script means

A script is read as its author wrote it: statements one after the other, the arguments
of a call before the call, the block of a condition if what stands before it is not
null.  The interpreter does not see that; it goes through the actions that the rules
made, with an explicit stack of blocks.

    Stmt.evalAll        the script as it was written
    flattenAll_run      the actions in a row do the same
    rewriteFunc_means   a request gets the answer of the script as it was written
-/
import Frozen.Rewrite.Bounds

namespace Frozen.Rewrite

open Lib

/-! ## Statements and expressions -/

namespace Resolved

section

variable {σ : Type} (fx : Effects σ)

mutual

/-- The arguments from left to right, then the call; the value is where the result is. -/
def Expr.eval : Expr → Trace σ → Except Left (Thing × Trace σ)
  | .thing x, t => .ok (x, t)
  | .call func args result, t => do
      let (params, t) ← Expr.evalAll args t
      let t ← execute fx ⟨func, params, some (.variable result)⟩ t
      .ok (.variable result, t)

def Expr.evalAll : List Expr → Trace σ → Except Left (List Thing × Trace σ)
  | [], t => .ok ([], t)
  | e :: rest, t => do
      let (x, t) ← e.eval t
      let (xs, t) ← Expr.evalAll rest t
      .ok (x :: xs, t)

end

mutual

def Stmt.eval : Stmt → Trace σ → Except Left (Trace σ)
  | .declare _, t => .ok t
  | .set dst e, t => do
      let (x, t) ← e.eval fx t
      execute fx ⟨.langSet, [dst, x], none⟩ t
  | .expr e, t => do
      let (_, t) ← e.eval fx t
      .ok t
  | .condition negated _ s block, t => do
      let t ← s.eval t
      if (fx.isNotNull s.value t.state).1 ≠ negated
        then Stmt.evalAll block (t.ask fx s.value)
      else .ok (t.skip fx s.value)

def Stmt.evalAll : List Stmt → Trace σ → Except Left (Trace σ)
  | [], t => .ok t
  | s :: rest, t => do
      let t ← s.eval t
      Stmt.evalAll rest t

end

end

/-! ## The actions in a row -/

section

variable {σ : Type} {fx : Effects σ}

theorem runActions_simple (a : Simple) (t : Trace σ) :
    runActions fx [.simple a] t = execute fx a t := by
  rw [runActions, runAction]
  cases execute fx a t <;> rfl

mutual

theorem Expr.flatten_run (e : Expr) (t : Trace σ) :
    e.eval fx t = (runActions fx e.flatten t).map fun t => (e.value, t) := by
  cases e with
  | thing x => rfl
  | call func args result =>
      rw [Expr.eval, Expr.flattenAll_run args t, Expr.flatten, runActions_append]
      cases runActions fx (Expr.flattenAll args) t with
      | error exit => rfl
      | ok t =>
          simp only [Except.map, Except.bind, bind, runActions_simple]
          cases execute fx _ t <;> rfl

theorem Expr.flattenAll_run (es : List Expr) (t : Trace σ) :
    Expr.evalAll fx es t =
      (runActions fx (Expr.flattenAll es) t).map fun t => (es.map Expr.value, t) := by
  cases es with
  | nil => rfl
  | cons e rest =>
      rw [Expr.evalAll, e.flatten_run t, Expr.flattenAll, runActions_append]
      cases runActions fx e.flatten t with
      | error exit => rfl
      | ok t =>
          simp only [Except.map, Except.bind, bind, Expr.flattenAll_run rest t]
          cases runActions fx (Expr.flattenAll rest) t <;> rfl

end

mutual

theorem Stmt.flatten_run (s : Stmt) (t : Trace σ) :
    s.eval fx t = runActions fx s.flatten t := by
  cases s with
  | declare stale => rfl
  | set dst e =>
      rw [Stmt.eval, e.flatten_run, Stmt.flatten, runActions_append]
      cases runActions fx e.flatten t with
      | error exit => rfl
      | ok t => exact (runActions_simple _ t).symm
  | expr e =>
      rw [Stmt.eval, e.flatten_run, Stmt.flatten]
      cases runActions fx e.flatten t <;> rfl
  | condition negated stale s block =>
      rw [Stmt.eval, s.flatten_run t, Stmt.flatten, runActions_append]
      cases runActions fx s.flatten t with
      | error exit => rfl
      | ok t =>
          have hblock := Stmt.flattenAll_run block (t.ask fx s.value)
          simp only [bind, Except.bind, hblock]
          cases negated <;> cases h : (fx.isNotNull s.value t.state).1 <;>
            simp [runActions, runAction, h] <;>
            cases runActions fx (Stmt.flattenAll block) (t.ask fx s.value) <;> rfl

theorem Stmt.flattenAll_run (statements : List Stmt) (t : Trace σ) :
    Stmt.evalAll fx statements t = runActions fx (Stmt.flattenAll statements) t := by
  cases statements with
  | nil => rfl
  | cons s rest =>
      rw [Stmt.evalAll, s.flatten_run t, Stmt.flattenAll, runActions_append]
      cases runActions fx s.flatten t with
      | error exit => rfl
      | ok t => exact Stmt.flattenAll_run rest t

end

end

end Resolved

/-! ## A request -/

section

variable {β : Type}

/-- What `rewrite_func_ablock` answers, if it does. -/
def answer : Outcome (Locals β) → Exit
  | .error (exit, _) => exit
  | .ok t => .ret t.state.env.ret.toInt

/-- The environment for a request. -/
def startScript (script : Script Holder) (request : List (UInt64 × Holder))
    (heap : Nat → β) (actionRet : BitVec 64) (stale : Option Thing) : Locals β :=
  start (fun id => script.constants.getD id tempAny) request heap actionRet stale

/-- `rewrite_func`: a script without actions passes the request. -/
def rewriteFunc (w : World β) (n : Nat) (script : Script Holder)
    (request : List (UInt64 × Holder)) (heap : Nat → β) (actionRet : BitVec 64)
    (stale : Option Thing) : Except Stop Exit :=
  let s := startScript script request heap actionRet stale
  match script.main with
  | [] => .error .wild
  | main :: _ =>
      if main.length = 0 then .ok (.ret (w.backendPass 0 s.env).1.toInt)
      else (rewriteFuncAblock (effects w) n main s).map answer

/-- `query(request['x'], request);` for a request that has no `x`. -/
example : rewriteFunc numbers 1
    ⟨[[.simple ⟨.backendQuery, [.hashElement 120 0, .hasht 0], some (.variable 0)⟩]],
      [], 1, 1, []⟩
    [] (fun _ => 3) 0 none = .ok .crash := rfl

end

end Frozen.Rewrite
