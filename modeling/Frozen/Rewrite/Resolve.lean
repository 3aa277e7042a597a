/-
# `Frozen.Rewrite.Resolve` — names resolved, then calls put in a row

The rules do two things at once.  One is to say what the names stand for and to number
what has none: the tree stays, with a thing in the place of each name and a variable
beside each call.  The other is to write the calls that stand inside one another down in
a row, each with its variable in the place where it stood.

    Expr.resolve, Stmt.resolve     the first
    flatten                        the second
    compileScript_eq               the rules do both, and nothing else
-/
import Frozen.Rewrite.Script

namespace Frozen.Rewrite

/-! ## Resolved trees -/

namespace Resolved

/-- An expression: a thing, or a call and the variable for its result. -/
inductive Expr where
  | thing (x : Thing)
  | call (func : SimpleAction) (args : List Expr) (result : Nat)

/-- A statement; a declaration is over when the script is read. -/
inductive Stmt where
  | declare (stale : Thing)
  | set (dst : Thing) (e : Expr)
  | expr (e : Expr)
  | condition (negated : Bool) (stale : Thing) (s : Stmt) (block : List Stmt)

/-- Where the value of an expression is. -/
def Expr.value : Expr → Thing
  | .thing x => x
  | .call _ _ result => .variable result

/-- What a condition on a statement looks at. -/
def Stmt.value : Stmt → Thing
  | .declare stale => stale
  | .set dst _ => dst
  | .expr e => e.value
  | .condition _ stale _ _ => stale

mutual

/-- The calls of an expression, the inner ones first. -/
def Expr.flatten : Expr → List Action
  | .thing _ => []
  | .call func args result =>
      Expr.flattenAll args ++
        [.simple ⟨func, args.map Expr.value, some (.variable result)⟩]

def Expr.flattenAll : List Expr → List Action
  | [] => []
  | e :: rest => e.flatten ++ Expr.flattenAll rest

end

mutual

def Stmt.flatten : Stmt → List Action
  | .declare _ => []
  | .set dst e => e.flatten ++ [.simple ⟨.langSet, [dst, e.value], none⟩]
  | .expr e => e.flatten
  | .condition negated _ s block =>
      s.flatten ++
        [if negated then .langIfnot s.value (Stmt.flattenAll block)
         else .langIf s.value (Stmt.flattenAll block)]

def Stmt.flattenAll : List Stmt → List Action
  | [] => []
  | s :: rest => s.flatten ++ Stmt.flattenAll rest

end

theorem Expr.flattenAll_append (es fs : List Expr) :
    Expr.flattenAll (es ++ fs) = Expr.flattenAll es ++ Expr.flattenAll fs := by
  induction es with
  | nil => rfl
  | cons e es ih =>
      rw [List.cons_append, Expr.flattenAll, Expr.flattenAll, ih, List.append_assoc]

end Resolved

/-! ## Names -/

section

variable {τ γ : Type} (conv : Conversions τ γ)

mutual

def Expr.resolve : Expr → Script γ → Except Reject (Resolved.Expr × Script γ)
  | .call name args, script => do
      let (args, script) ← args.resolve script
      match getFunction name with
      | none => .error .error
      | some func => .ok (.call func args script.variablesCount, script.newVariable)
  | .constant type string, script => do
      let (x, script) ← ruleConstant conv type string script
      .ok (.thing x, script)
  | .target t, script => do
      let (x, script) ← t.compile conv script
      .ok (.thing x, script)

def Args.resolve : Args → Script γ → Except Reject (List Resolved.Expr × Script γ)
  | .empty, script => .ok ([], script)
  | .first e, script => do
      let (e, script) ← e.resolve script
      .ok ([e], script)
  | .comma args e, script => do
      let (args, script) ← args.resolve script
      let (e, script) ← e.resolve script
      match args with
      | [] => .error .wild
      | args => .ok (args ++ [e], script)

end

mutual

def Stmt.resolve : Stmt → Script γ → Except Reject (Resolved.Stmt × Script γ)
  | .paren s, script => s.resolve script
  | .request stale name, script => .ok (.declare stale, script.newRequest name)
  | .var stale name, script => .ok (.declare stale, script.newNamedVariable name)
  | .set dst e, script => do
      let (dst, script) ← dst.compile conv script
      let (e, script) ← e.resolve conv script
      .ok (.set dst e, script)
  | .expr e, script => do
      let (e, script) ← e.resolve conv script
      .ok (.expr e, script)
  | .condition negated stale s block, script => do
      let (s, script) ← s.resolve script
      let (block, script) ← Stmt.resolveAll block script
      .ok (.condition negated stale s block, script)

def Stmt.resolveAll : List Stmt → Script γ → Except Reject (List Resolved.Stmt × Script γ)
  | [], script => .ok ([], script)
  | s :: rest, script => do
      let (s, script) ← s.resolve script
      let (rest, script) ← Stmt.resolveAll rest script
      .ok (s :: rest, script)

end

end

/-! ## The open blocks -/

section

variable {τ γ : Type} {conv : Conversions τ γ}

/-- The blocks that are open, changed. -/
def Script.mapMain (f : List (List Action) → List (List Action)) (script : Script γ) :
    Script γ :=
  { script with main := f script.main }

/-- `rewrite_new_action`, many times. -/
def Script.append (script : Script γ) (actions : List Action) : Script γ :=
  script.mapMain fun main => main.modifyHead (· ++ actions)

@[simp] theorem Script.append_append (script : Script γ) (as bs : List Action) :
    (script.append as).append bs = script.append (as ++ bs) := by
  obtain ⟨main, constants, variablesCount, requestsCount, names⟩ := script
  cases main <;> simp [Script.append, Script.mapMain]

@[simp] theorem Script.append_nil (script : Script γ) : script.append [] = script := by
  obtain ⟨main, constants, variablesCount, requestsCount, names⟩ := script
  cases main <;> simp [Script.append, Script.mapMain]

theorem Script.newAction_eq (script : Script γ) (a : Action) :
    script.newAction a = script.append [a] := rfl

theorem Script.newVariable_append (script : Script γ) (as : List Action) :
    (script.append as).newVariable = script.newVariable.append as := rfl

/-- Entering a block, and leaving it with what it has got. -/
theorem Script.leaveActionBlock_enter (script : Script γ) (block : List Action) :
    (script.enterActionBlock.append block).leaveActionBlock = .ok (block, script) := by
  obtain ⟨main, constants, variablesCount, requestsCount, names⟩ := script
  rfl

/-- Something, and a script with its open blocks changed. -/
def onMain {α : Type} (f : List (List Action) → List (List Action))
    (r : α × Script γ) : α × Script γ :=
  (r.1, r.2.mapMain f)

/-! Names do not depend on what the blocks have. -/

section

variable (f : List (List Action) → List (List Action))

theorem Target.compile_mapMain (t : Target) (script : Script γ) :
    t.compile conv (script.mapMain f) = (t.compile conv script).map (onMain f) := by
  cases t with
  | arrayKey name key =>
      simp only [Target.compile, ruleArrayKey, Script.findName, Script.mapMain]
      split
      · split <;> rfl
      · rfl
  | label name =>
      simp only [Target.compile, ruleLabel, Script.findName, Script.mapMain]
      split
      · rfl
      · split <;> rfl

theorem ruleConstant_mapMain (type string : List UInt8) (script : Script γ) :
    ruleConstant conv type string (script.mapMain f) =
      (ruleConstant conv type string script).map (onMain f) := by
  unfold ruleConstant
  split <;> rfl

mutual

theorem Expr.resolve_mapMain (e : Expr) (script : Script γ) :
    e.resolve conv (script.mapMain f) = (e.resolve conv script).map (onMain f) := by
  cases e with
  | constant type string =>
      simp only [Expr.resolve, ruleConstant_mapMain]
      cases ruleConstant conv type string script <;> rfl
  | target t =>
      simp only [Expr.resolve, t.compile_mapMain]
      cases t.compile conv script <;> rfl
  | call name args =>
      simp only [Expr.resolve, args.resolve_mapMain]
      cases args.resolve conv script with
      | error e => rfl
      | ok r => cases h : getFunction name <;> rfl

theorem Args.resolve_mapMain (args : Args) (script : Script γ) :
    args.resolve conv (script.mapMain f) = (args.resolve conv script).map (onMain f) := by
  cases args with
  | empty => rfl
  | first e =>
      simp only [Args.resolve, e.resolve_mapMain]
      cases e.resolve conv script <;> rfl
  | comma args e =>
      simp only [Args.resolve, args.resolve_mapMain]
      cases args.resolve conv script with
      | error e => rfl
      | ok r =>
          have he := e.resolve_mapMain r.2
          simp only [Except.map, onMain, bind, Except.bind, he]
          cases e.resolve conv r.2 with
          | error e => rfl
          | ok x => cases r.1 <;> rfl

end

mutual

theorem Stmt.resolve_mapMain (s : Stmt) (script : Script γ) :
    s.resolve conv (script.mapMain f) = (s.resolve conv script).map (onMain f) := by
  cases s with
  | paren s => exact s.resolve_mapMain script
  | request stale name => rfl
  | var stale name => rfl
  | set dst e =>
      simp only [Stmt.resolve, dst.compile_mapMain]
      cases dst.compile conv script with
      | error e => rfl
      | ok r =>
          simp only [Except.map, onMain, bind, Except.bind, e.resolve_mapMain]
          cases e.resolve conv r.2 <;> rfl
  | expr e =>
      simp only [Stmt.resolve, e.resolve_mapMain]
      cases e.resolve conv script <;> rfl
  | condition negated stale s block =>
      simp only [Stmt.resolve, s.resolve_mapMain]
      cases s.resolve conv script with
      | error e => rfl
      | ok r =>
          have hblock := Stmt.resolveAll_mapMain block r.2
          simp only [Except.map, onMain, bind, Except.bind, hblock]
          cases Stmt.resolveAll conv block r.2 <;> rfl

theorem Stmt.resolveAll_mapMain (statements : List Stmt) (script : Script γ) :
    Stmt.resolveAll conv statements (script.mapMain f) =
      (Stmt.resolveAll conv statements script).map (onMain f) := by
  cases statements with
  | nil => rfl
  | cons s rest =>
      simp only [Stmt.resolveAll, s.resolve_mapMain]
      cases s.resolve conv script with
      | error e => rfl
      | ok r =>
          have hrest := Stmt.resolveAll_mapMain rest r.2
          simp only [Except.map, onMain, bind, Except.bind, hrest]
          cases Stmt.resolveAll conv rest r.2 <;> rfl

end

end

theorem Expr.resolve_append (e : Expr) (script : Script γ) (as : List Action) :
    e.resolve conv (script.append as) =
      (e.resolve conv script).map fun r => (r.1, r.2.append as) :=
  e.resolve_mapMain _ script

theorem Stmt.resolveAll_append (statements : List Stmt) (script : Script γ)
    (as : List Action) : Stmt.resolveAll conv statements (script.append as) =
      (Stmt.resolveAll conv statements script).map fun r => (r.1, r.2.append as) :=
  Stmt.resolveAll_mapMain _ statements script

theorem Stmt.resolveAll_enter (statements : List Stmt) (script : Script γ) :
    Stmt.resolveAll conv statements script.enterActionBlock =
      (Stmt.resolveAll conv statements script).map fun r => (r.1, r.2.enterActionBlock) :=
  Stmt.resolveAll_mapMain (fun main => [] :: main) statements script

/-! ## The rules -/

mutual

theorem Expr.compile_eq (e : Expr) (script : Script γ) :
    e.compile conv script =
      (e.resolve conv script).map fun r => (r.1.value, r.2.append r.1.flatten) := by
  cases e with
  | constant type string =>
      simp only [Expr.compile, Expr.resolve]
      cases ruleConstant conv type string script with
      | error e => rfl
      | ok r => simp [Except.map, bind, Except.bind, Resolved.Expr.value,
          Resolved.Expr.flatten]
  | target t =>
      simp only [Expr.compile, Expr.resolve]
      cases t.compile conv script with
      | error e => rfl
      | ok r => simp [Except.map, bind, Except.bind, Resolved.Expr.value,
          Resolved.Expr.flatten]
  | call name args =>
      simp only [Expr.compile, Expr.resolve, args.compile_eq]
      cases args.resolve conv script with
      | error e => rfl
      | ok r =>
          simp only [Except.map, bind, Except.bind, ruleFunction]
          cases getFunction name with
          | none => rfl
          | some func =>
              simp only [Script.newVariable_append, Script.newAction_eq,
                Script.append_append, Resolved.Expr.flatten, Resolved.Expr.value]
              rfl

theorem Args.compile_eq (args : Args) (script : Script γ) :
    args.compile conv script =
      (args.resolve conv script).map fun r =>
        (r.1.map Resolved.Expr.value, r.2.append (Resolved.Expr.flattenAll r.1)) := by
  cases args with
  | empty => simp [Args.compile, Args.resolve, Except.map, Resolved.Expr.flattenAll]
  | first e =>
      simp only [Args.compile, Args.resolve, e.compile_eq]
      cases e.resolve conv script with
      | error e => rfl
      | ok r =>
          simp [Except.map, bind, Except.bind, Resolved.Expr.flattenAll]
  | comma args e =>
      simp only [Args.compile, Args.resolve, args.compile_eq]
      cases args.resolve conv script with
      | error e => rfl
      | ok r =>
          simp only [Except.map, bind, Except.bind, e.compile_eq, e.resolve_append]
          cases e.resolve conv r.2 with
          | error e => rfl
          | ok x =>
              obtain ⟨args, script⟩ := r
              cases args with
              | nil => rfl
              | cons a args =>
                  simp [ruleArgs, Resolved.Expr.flattenAll_append,
                    Resolved.Expr.flattenAll]

end

mutual

theorem Stmt.compile_eq (s : Stmt) (script : Script γ) :
    s.compile conv script =
      (s.resolve conv script).map fun r => (r.1.value, r.2.append r.1.flatten) := by
  cases s with
  | paren s => exact s.compile_eq script
  | request stale name | var stale name =>
      simp [Stmt.compile, Stmt.resolve, Except.map, Resolved.Stmt.value,
        Resolved.Stmt.flatten]
  | set dst e =>
      simp only [Stmt.compile, Stmt.resolve]
      cases dst.compile conv script with
      | error e => rfl
      | ok d =>
          simp only [Except.map, bind, Except.bind, e.compile_eq]
          cases e.resolve conv d.2 with
          | error e => rfl
          | ok r =>
              simp only [ruleSet, Script.newAction_eq, Script.append_append,
                Resolved.Stmt.value, Resolved.Stmt.flatten]
  | expr e =>
      simp only [Stmt.compile, Stmt.resolve, e.compile_eq]
      cases e.resolve conv script <;> rfl
  | condition negated stale s block =>
      simp only [Stmt.compile, Stmt.resolve, s.compile_eq]
      cases s.resolve conv script with
      | error e => rfl
      | ok r =>
          simp only [Except.map, bind, Except.bind, Stmt.compileAll_eq block,
            Stmt.resolveAll_enter, Stmt.resolveAll_append]
          cases Stmt.resolveAll conv block r.2 with
          | error e => rfl
          | ok b =>
              simp only [Script.leaveActionBlock_enter, ruleCondition,
                Script.newAction_eq,
                Script.append_append, Resolved.Stmt.value, Resolved.Stmt.flatten]

theorem Stmt.compileAll_eq (statements : List Stmt) (script : Script γ) :
    Stmt.compileAll conv statements script =
      (Stmt.resolveAll conv statements script).map fun r =>
        r.2.append (Resolved.Stmt.flattenAll r.1) := by
  cases statements with
  | nil => simp [Stmt.compileAll, Stmt.resolveAll, Except.map, Resolved.Stmt.flattenAll]
  | cons s rest =>
      simp only [Stmt.compileAll, Stmt.resolveAll, s.compile_eq]
      cases s.resolve conv script with
      | error e => rfl
      | ok r =>
          simp only [Except.map, bind, Except.bind, Stmt.compileAll_eq rest,
            Stmt.resolveAll_append]
          cases Stmt.resolveAll conv rest r.2 with
          | error e => rfl
          | ok b => simp [Resolved.Stmt.flattenAll]

end

/-- **One pass of the rules** resolves the names and puts the calls in a row. -/
theorem compileScript_eq (statements : List Stmt) :
    compileScript conv statements =
      (Stmt.resolveAll conv statements Script.empty).map fun r =>
        { r.2 with main := [Resolved.Stmt.flattenAll r.1] } := by
  rw [compileScript, Stmt.compileAll_eq, Stmt.resolveAll_enter]
  cases Stmt.resolveAll conv statements Script.empty with
  | error e => rfl
  | ok r => simp only [Except.map, bind, Except.bind, Script.leaveActionBlock_enter]

end

end Frozen.Rewrite
