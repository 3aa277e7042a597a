/-
# `Frozen.Config.Parser` — the parser of configuration texts

`config_parser.tab.c` is the parser bison made of `config_parser.y`: a stack of states,
the packed tables that say what to do at a state and a token, and the actions of the
rules.  Where a state and a token have no entry the default reduction of the state is
taken, the end of the text or not; `start : hash_items` is such a default, and its
action sets the result.  The stack holds 10000 entries at most.

A key, an action and a value of a named type are made by other parts of the library,
which are the environment here.
-/
import Frozen.Config.Lexer
import Frozen.Binary.Hash
import Frozen.Lib.Fuel

namespace Frozen.Config

open Lib

/-! ## Results -/

/-- An array of items, from its first to `hash_end`, with the values a
configuration has. -/
inductive Items (τ : Type) where
  | done
  /-- an item with the key `hash_ptr_null` -/
  | null (rest : Items τ)
  | string (key : UInt64) (s : List UInt8) (rest : Items τ)
  | hash (key : UInt64) (sub rest : Items τ)
  | action (key : UInt64) (action : UInt32) (rest : Items τ)
  /-- a value of a type that the text names -/
  | typed (key : UInt64) (v : τ) (rest : Items τ)

/-- The value of `hash_value`. -/
inductive Data (τ : Type) where
  | string (s : List UInt8)
  | hash (sub : Items τ)
  | action (action : UInt32)
  | typed (v : τ)

/-- The value of `hash_item`. -/
inductive Item (τ : Type) where
  | null
  | item (key : UInt64) (data : Data τ)

/-- `memmove` by one, and the item at the front. -/
def Item.cons {τ : Type} : Item τ → Items τ → Items τ
  | .null, rest => .null rest
  | .item key (.string s), rest => .string key s rest
  | .item key (.hash sub), rest => .hash key sub rest
  | .item key (.action a), rest => .action key a rest
  | .item key (.typed v), rest => .typed key v rest

/-- What the actions of the rules use. -/
structure Env (τ : Type) where
  /-- `ACTION_INIT` of a `hash_key_t`; an unknown key is 0 -/
  initKey : List UInt8 → Option UInt64
  /-- no key of the table is a mark -/
  regular : ∀ s key, initKey s = some key →
    key ≠ Binary.hashPtrNull ∧ key ≠ Binary.hashPtrEnd ∧ key ≠ Binary.hashPtrInline
  /-- `request_str_to_action` -/
  strToAction : List UInt8 → Option UInt32
  /-- `ACTION_INIT` of the named type, from a string -/
  initData : List UInt8 → List UInt8 → Option τ
  /-- `ACTION_CONVERT_FROM` of the named type, from a hash -/
  convertData : List UInt8 → Items τ → Option τ

/-! ## Tables -/

/-- `yytoken`. -/
def Token.symbol : Token → Nat
  | .undefined => 2
  | .name _ => 3
  | .string _ => 4
  | .assign => 5
  | .tnull => 6
  | .comma => 7
  | .lbrace => 8
  | .rbrace => 9
  | .lparen => 10
  | .rparen => 11

def yydefact : List Nat :=
  [8, 0, 7, 0, 2, 4, 0, 10, 9, 1,
   8, 15, 11, 8, 0, 6, 5, 0, 0, 12,
   0, 13, 8, 0, 14]

def yypact : List Int :=
  [1, -3, -2, 13, 20, -14, 2, -14, -14, -14,
   15, -14, -14, 8, 19, -14, -14, 16, 18, -14,
   12, -14, 8, 17, -14]

def yytable : List Int :=
  [17, -3, 7, 8, 1, 11, 12, 2, -3, 23,
   13, 1, 14, 9, 2, -3, 21, -3, 1, 16,
   22, 2, 18, 10, 10, 19, 24, 10, 0, 20]

def yycheck : List Int :=
  [13, 0, 5, 5, 3, 3, 4, 6, 7, 22,
   8, 3, 10, 0, 6, 7, 4, 9, 3, 10,
   8, 6, 3, 7, 7, 9, 9, 7, -1, 11]

def yydefgoto : List Int := [-1, 3, 4, 5, 6, 15]

def yypgoto : List Int := [-14, -14, -13, 9, -14, -14]

def yyr1 : List Nat := [0, 12, 13, 14, 14, 14, 15, 15, 16, 16, 16, 17, 17, 17, 17, 17]

def yyr2 : List Nat := [0, 2, 1, 0, 1, 3, 2, 1, 0, 2, 2, 1, 3, 4, 6, 1]

def YYFINAL : Nat := 9
def YYMAXDEPTH : Nat := 10000
def YYPACT_NINF : Int := -14
def YYNTOKENS : Nat := 12

/-- What `yybackup` and `yydefault` decide. -/
inductive Act where
  | shift (state : Nat)
  | reduce (rule : Nat)
  | error
deriving DecidableEq

def yydefault (state : Nat) : Act :=
  match yydefact.getD state 0 with
  | 0 => .error
  | rule => .reduce rule

/-- An entry of the packed tables at an index. -/
def yyentry (i symbol : Int) : Option Int :=
  if 0 ≤ i ∧ i < yytable.length ∧ yycheck.getD i.toNat 0 = symbol
    then some (yytable.getD i.toNat 0)
  else none

def yyaction (state symbol : Nat) : Act :=
  let yyn := yypact.getD state 0
  if yyn = YYPACT_NINF then yydefault state
  else
    match yyentry (yyn + symbol) symbol with
    | none => yydefault state
    | some yyn => if yyn ≤ 0 then .reduce (-yyn).toNat else .shift yyn.toNat

/-- The state after a reduction, from the one under the symbols of the rule. -/
def yygoto (state rule : Nat) : Nat :=
  let lhs := yyr1.getD rule 0 - YYNTOKENS
  match yyentry (yypgoto.getD lhs 0 + state) state with
  | some next => next.toNat
  | none => (yydefgoto.getD lhs 0).toNat

/-! ## The loop -/

/-- `YYSTYPE`. -/
inductive Value (τ : Type) where
  | none
  | name (s : List UInt8)
  | items (c : Items τ)
  | item (it : Item τ)
  | key (key : UInt64)
  | data (d : Data τ)

def Token.value {τ : Type} : Token → Value τ
  | .name s => .name s
  | .string s => .name s
  | _ => .none

/-- The action of a rule, from the values of its symbols (the last one first); no value is
`YYERROR`. -/
def ruleValue {τ : Type} (env : Env τ) : Nat → List (Value τ) → Option (Value τ)
  | 2, _ => some .none
  | 3, _ => some (.items .done)
  | 4, [.item it] => some (.items (it.cons .done))
  | 5, [.item it, _, .items c] => some (.items (it.cons c))
  | 6, [.data d, .key key] => some (.item (.item key d))
  | 7, _ => some (.item .null)
  | 8, _ => some (.key 0)
  | 9, _ => some (.key 0)
  | 10, [_, .name s] =>
      match env.initKey s with
      | none => none
      | some key => if key = 0 then none else some (.key key)
  | 11, [.name s] => some (.data (.string s))
  | 12, [_, .items c, _] => some (.data (.hash c))
  | 13, [.name s, _, .name type, _] => (env.initData type s).map fun v => .data (.typed v)
  | 14, [_, .items c, _, _, .name type, _] =>
      (env.convertData type c).map fun v => .data (.typed v)
  | 15, [.name s] => (env.strToAction s).map fun a => .data (.action a)
  | _, _ => none

/-- A stack of states with their values, the last one first. -/
abbrev Stack (τ : Type) := List (Nat × Value τ)

def Stack.state {τ : Type} (stack : Stack τ) : Nat := (stack.head?.map Prod.fst).getD 0

/-- The symbol of the lookahead token; 0 is the end. -/
def lookahead : List Token → Nat
  | [] => 0
  | t :: _ => t.symbol

/-- `*hash = $1`, if that is what the rule does. -/
def ruleResult {τ : Type} (rule : Nat) (values : List (Value τ))
    (hash : Option (Items τ)) : Option (Items τ) :=
  match rule, values with
  | 2, [.items c] => some c
  | _, _ => hash

/-- `yyparse`, from `yysetstate` on; the result is what `hash` points to in the end, as
the return value is not looked at. -/
def yyparse {τ : Type} (env : Env τ) :
    Nat → Stack τ → List Token → Option (Items τ) → Except OutOfFuel (Option (Items τ))
  | 0, _, _, _ => .error .outOfFuel
  | n + 1, stack, ts, hash =>
      if YYMAXDEPTH ≤ stack.length then .ok hash
      else if stack.state = YYFINAL then .ok hash
      else
        match yyaction stack.state (lookahead ts) with
        | .error => .ok hash
        | .shift state =>
            yyparse env n ((state, (ts.head?.map Token.value).getD .none) :: stack)
              ts.tail hash
        | .reduce rule =>
            let values := (stack.take (yyr2.getD rule 0)).map Prod.snd
            let below := stack.drop (yyr2.getD rule 0)
            match ruleValue env rule values with
            | none => .ok hash
            | some v =>
                yyparse env n ((yygoto (Stack.state below) rule, v) :: below) ts
                  (ruleResult rule values hash)

/-- `configs_string_parse`; a C string ends at its first zero. -/
def configsStringParse {τ : Type} (env : Env τ) (n : Nat) (string : List UInt8) :
    Except OutOfFuel (Option (Items τ)) :=
  yyparse env n [(0, .none)] (lex (string.takeWhile (· ≠ 0))) none

end Frozen.Config
