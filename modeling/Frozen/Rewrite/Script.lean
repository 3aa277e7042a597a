/-
# `Frozen.Rewrite.Script` — what the rules of the script parser do

`rule_parser.y` makes a script out of its text in one pass: the actions of the rules
number constants, variables and requests, keep the names, and append to the block that
is open.  Here are these actions under their names, the syntax trees of the grammar, and
what the actions make of a tree when they are done in the order of its reductions.

No rule sets the value of a statement that declares a name, or of a condition, so it is
that of the keyword in front (`$$ = $1`).  The scanner gives a keyword no value either:
`yylval` has what is left in it.  The trees have that beside the keyword, and a
condition on such a statement looks at it.
-/
import Frozen.Config.Lexer
import Frozen.Rewrite.Blocks

namespace Frozen.Rewrite

/-! ## The script -/

/-- `rewrite_name_t.type`. -/
inductive NameType where
  | hasht
  | variable
  | ret
deriving DecidableEq

/-- `rewrite_name_t`; `ret` has no number. -/
structure Name where
  name : List UInt8
  type : NameType
  id : Nat

/-- `rewrite_script_t`: the blocks that are open, the innermost one first, and the
names, the last one first.  The number of constants is their length. -/
structure Script (γ : Type) where
  main : List (List Action)
  constants : List γ
  variablesCount : Nat
  requestsCount : Nat
  names : List Name

/-- What the rules ask other parts of the library for. -/
structure Conversions (τ γ : Type) where
  /-- `ACTION_INIT` of a `datatype_t` -/
  initDatatype : List UInt8 → Option τ
  /-- `ACTION_INIT` of a value of that type -/
  initData : τ → List UInt8 → Option γ
  /-- `ACTION_INIT` of a `hash_key_t` -/
  initKey : List UInt8 → Option UInt64
  /-- `request_str_to_action`, unless it is `ACTION_INVALID` -/
  strToAction : List UInt8 → Option UInt32
  /-- `ACTION_COPY` of a `DATA_UINT32T` -/
  uint32 : UInt32 → γ

/-- Why a rule ends the parser. -/
inductive Reject where
  /-- `YYERROR` -/
  | error
  /-- a null pointer is followed -/
  | wild
deriving DecidableEq

section

variable {τ γ : Type}

/-- `rewrite_find_name`. -/
def Script.findName (script : Script γ) (name : List UInt8) : Option Name :=
  script.names.find? fun curr => curr.name == name

/-- `rewrite_new_name`. -/
def Script.newName (script : Script γ) (name : Name) : Script γ :=
  { script with names := name :: script.names }

/-- `rewrite_new_request`. -/
def Script.newRequest (script : Script γ) (reqName : List UInt8) : Script γ :=
  { script.newName ⟨reqName, .hasht, script.requestsCount⟩ with
    requestsCount := script.requestsCount + 1 }

/-- `rewrite_new_variable`: the count is the number of the next one. -/
def Script.newVariable (script : Script γ) : Script γ :=
  { script with variablesCount := script.variablesCount + 1 }

/-- `rewrite_new_named_variable`. -/
def Script.newNamedVariable (script : Script γ) (varName : List UInt8) : Script γ :=
  (script.newName ⟨varName, .variable, script.variablesCount⟩).newVariable

/-- `rewrite_new_constant`, with its data. -/
def Script.newConstant (script : Script γ) (data : γ) : Script γ :=
  { script with constants := script.constants ++ [data] }

/-- `rewrite_enter_action_block`. -/
def Script.enterActionBlock (script : Script γ) : Script γ :=
  { script with main := [] :: script.main }

/-- `rewrite_leave_action_block`, with the block that is left. -/
def Script.leaveActionBlock (script : Script γ) :
    Except Reject (List Action × Script γ) :=
  match script.main with
  | [] => .error .error
  | leaved :: next => .ok (leaved, { script with main := next })

/-- `rewrite_new_action`: one more in the innermost block.  A rule makes an action only
while there is a block. -/
def Script.newAction (script : Script γ) (action : Action) : Script γ :=
  { script with main := script.main.modifyHead (· ++ [action]) }

/-- `rewrite_script_parse`, up to the parser: the request that comes
in, and the result. -/
def Script.empty : Script γ :=
  let script : Script γ := ⟨[], [], 0, 0, []⟩
  -- "request", "ret"
  let script := script.newRequest [114, 101, 113, 117, 101, 115, 116]
  script.newName ⟨[114, 101, 116], .ret, 0⟩

/-! ## Rules -/

/-- `rewrite_get_function`. -/
def getFunction (string : List UInt8) : Option SimpleAction :=
  -- "query", "pass", "data_query"
  if Config.strcasecmp string [113, 117, 101, 114, 121] then some .backendQuery
  else if Config.strcasecmp string [112, 97, 115, 115] then some .backendPass
  else if Config.strcasecmp string [100, 97, 116, 97, 95, 113, 117, 101, 114, 121]
    then some .dataQuery
  else none

/-- `function`: a variable for the result, and the action. -/
def ruleFunction (name : List UInt8) (params : List Thing) (script : Script γ) :
    Except Reject (Thing × Script γ) :=
  match getFunction name with
  | none => .error .error
  | some func =>
      let result := Thing.variable script.variablesCount
      .ok (result, script.newVariable.newAction (.simple ⟨func, params, some result⟩))

/-- `constant`. -/
def ruleConstant (conv : Conversions τ γ) (type string : List UInt8) (script : Script γ) :
    Except Reject (Thing × Script γ) :=
  match (conv.initDatatype type).bind fun type => conv.initData type string with
  | none => .error .error
  | some data => .ok (.const script.constants.length, script.newConstant data)

/-- `array_key`: an element of a request. -/
def ruleArrayKey (conv : Conversions τ γ) (name key : List UInt8) (script : Script γ) :
    Except Reject (Thing × Script γ) :=
  match script.findName name with
  | some ⟨_, .hasht, id⟩ =>
      match conv.initKey key with
      | none => .error .error
      | some key => .ok (.hashElement key id, script)
  | _ => .error .error

def Name.thing (name : Name) : Thing :=
  match name.type with
  | .hasht => .hasht name.id
  | .variable => .variable name.id
  | .ret => .ret

/-- `label`: what has the name, or else an action, which is a constant. -/
def ruleLabel (conv : Conversions τ γ) (name : List UInt8) (script : Script γ) :
    Except Reject (Thing × Script γ) :=
  match script.findName name with
  | some curr => .ok (curr.thing, script)
  | none =>
      match conv.strToAction name with
      | none => .error .error
      | some action =>
          .ok (.const script.constants.length, script.newConstant (conv.uint32 action))

/-- `args_list ',' any_target`; with nothing in front of the comma the list is `NULL`,
and its end is looked for there. -/
def ruleArgs (args : List Thing) (x : Thing) : Except Reject (List Thing) :=
  match args with
  | [] => .error .wild
  | args => .ok (args ++ [x])

/-- `dst_target '=' any_target`. -/
def ruleSet (dst x : Thing) (script : Script γ) : Script γ :=
  script.newAction (.simple ⟨.langSet, [dst, x], none⟩)

/-- `IF statement '{' action_block '}'`, and `IFNOT`. -/
def ruleCondition (negated : Bool) (x : Thing) (block : List Action)
    (script : Script γ) : Script γ :=
  script.newAction (if negated then .langIfnot x block else .langIf x block)

/-! ## Syntax trees -/

/-- `dst_target`. -/
inductive Target where
  | arrayKey (name key : List UInt8)
  | label (name : List UInt8)

mutual

/-- `any_target`. -/
inductive Expr where
  | call (name : List UInt8) (args : Args)
  | constant (type string : List UInt8)
  | target (t : Target)

/-- `args_list`. -/
inductive Args where
  | empty
  | first (e : Expr)
  | comma (args : Args) (e : Expr)

end

/-- `statement`; `statements` are a list of them.  What is left in `yylval` at a
keyword is any thing; one of a type that `rewrite_thing_get_data` does not know has no
data, as a `hasht`. -/
inductive Stmt where
  | paren (s : Stmt)
  | request (stale : Thing) (name : List UInt8)
  | var (stale : Thing) (name : List UInt8)
  | set (dst : Target) (e : Expr)
  | expr (e : Expr)
  | condition (negated : Bool) (stale : Thing) (s : Stmt) (block : List Stmt)

section

variable (conv : Conversions τ γ)

def Target.compile : Target → Script γ → Except Reject (Thing × Script γ)
  | .arrayKey name key, script => ruleArrayKey conv name key script
  | .label name, script => ruleLabel conv name script

mutual

def Expr.compile : Expr → Script γ → Except Reject (Thing × Script γ)
  | .call name args, script => do
      let (params, script) ← args.compile script
      ruleFunction name params script
  | .constant type string, script => ruleConstant conv type string script
  | .target t, script => t.compile conv script

def Args.compile : Args → Script γ → Except Reject (List Thing × Script γ)
  | .empty, script => .ok ([], script)
  | .first e, script => do
      let (x, script) ← e.compile script
      .ok ([x], script)
  | .comma args e, script => do
      let (args, script) ← args.compile script
      let (x, script) ← e.compile script
      let args ← ruleArgs args x
      .ok (args, script)

end

mutual

/-- The value of a statement is what a condition on it looks at. -/
def Stmt.compile : Stmt → Script γ → Except Reject (Thing × Script γ)
  | .paren s, script => s.compile script
  | .request stale name, script => .ok (stale, script.newRequest name)
  | .var stale name, script => .ok (stale, script.newNamedVariable name)
  | .set dst e, script => do
      let (dst, script) ← dst.compile conv script
      let (x, script) ← e.compile conv script
      .ok (dst, ruleSet dst x script)
  | .expr e, script => do
      let (x, script) ← e.compile conv script
      .ok (x, script)
  | .condition negated stale s block, script => do
      let (x, script) ← s.compile script
      let script ← Stmt.compileAll block script.enterActionBlock
      let (block, script) ← script.leaveActionBlock
      .ok (stale, ruleCondition negated x block script)

def Stmt.compileAll : List Stmt → Script γ → Except Reject (Script γ)
  | [], script => .ok script
  | s :: rest, script => do
      let (_, script) ← s.compile script
      Stmt.compileAll rest script

end

/-- `start`: the outermost block is the main procedure. -/
def compileScript (statements : List Stmt) : Except Reject (Script γ) := do
  let script ← Stmt.compileAll conv statements Script.empty.enterActionBlock
  let (block, script) ← script.leaveActionBlock
  .ok { script with main := [block] }

end

end

end Frozen.Rewrite
