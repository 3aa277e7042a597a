/-
# `Frozen.Rewrite.Rules` — the scanner and the parser of scripts

`rule_parser.l` has eight rules; the keywords are names that the earlier rules take.  A
string ends on its line.  Every byte that starts nothing else is a token of its own, and
one above 127 is the end of the script, because the scanner returns it as a `char`.

`rule_parser.tab.c` is the parser bison made of `rule_parser.y`.  Two of its conflicts
show: a name in parentheses is the type of a constant, whatever follows, and a call that
is a statement is no `any_target`.
-/
import Frozen.Core.Base
import Frozen.Lib.Lr
import Frozen.Rewrite.Script

namespace Frozen.Rewrite

open Lib

/-! ## Tokens -/

/-- A keyword has no value, and what is left in `yylval` is that of its token. -/
inductive Token where
  | tif (stale : Thing)
  | ifnot (stale : Thing)
  | telse
  | name (s : List UInt8)
  | string (s : List UInt8)
  | request (stale : Thing)
  | var (stale : Thing)
  | semicolon
  | lparen
  | rparen
  | assign
  | lbrace
  | rbrace
  | lbracket
  | rbracket
  | comma
  /-- a byte that the grammar does not have -/
  | undefined
deriving DecidableEq

/-- `yytoken`; nothing makes a `DIGITS`, which is 6. -/
def Token.symbol : Token → Nat
  | .undefined => 2
  | .tif _ => 3
  | .ifnot _ => 4
  | .telse => 5
  | .name _ => 7
  | .string _ => 8
  | .request _ => 9
  | .var _ => 10
  | .semicolon => 11
  | .lparen => 12
  | .rparen => 13
  | .assign => 14
  | .lbrace => 15
  | .rbrace => 16
  | .lbracket => 17
  | .rbracket => 18
  | .comma => 19

/-- A keyword or a name. -/
def wordToken (stale : Thing) (s : List UInt8) : Token :=
  -- "request_t", "var_t", "if", "ifnot", "else"
  if Config.strcasecmp s [114, 101, 113, 117, 101, 115, 116, 95, 116] then .request stale
  else if Config.strcasecmp s [118, 97, 114, 95, 116] then .var stale
  else if Config.strcasecmp s [105, 102] then .tif stale
  else if Config.strcasecmp s [105, 102, 110, 111, 116] then .ifnot stale
  else if Config.strcasecmp s [101, 108, 115, 101] then .telse
  else .name s

/-- The token of a byte that is one by itself. -/
def byteToken (b : UInt8) : Token :=
  if b = 59 then .semicolon
  else if b = 40 then .lparen
  else if b = 41 then .rparen
  else if b = 61 then .assign
  else if b = 123 then .lbrace
  else if b = 125 then .rbrace
  else if b = 91 then .lbracket
  else if b = 93 then .rbracket
  else if b = 44 then .comma
  else .undefined

/-- What starts at a byte, and what follows it. -/
inductive Scan where
  | token (t : Token) (rest : List UInt8)
  | blank (rest : List UInt8)
  | stop

/-- What a string has up to its other delimiter, if that is on the line. -/
def stringBody (delimiter : UInt8) (bs : List UInt8) : Option (List UInt8) :=
  let body := bs.takeWhile fun b => b != delimiter && b != 10 && b != 13
  if bs[body.length]? = some delimiter then some body else none

def scan (stale : Thing) (b : UInt8) (bs : List UInt8) : Scan :=
  if Config.isLetter b then
    .token (wordToken stale (b :: bs.takeWhile Config.isNameByte))
    (bs.dropWhile Config.isNameByte)
  else
    match if b = 39 ∨ b = 34 then stringBody b bs else none with
    | some body => .token (.string body) (bs.drop (body.length + 1))
    | none =>
        if Config.isBlank b then .blank (bs.dropWhile Config.isBlank)
        else if 128 ≤ b then .stop
        else .token (byteToken b) bs

def lexAux (junk : Nat → Thing) : Nat → List UInt8 → List Token
  | 0, _ => []
  | _ + 1, [] => []
  | n + 1, b :: bs =>
      match scan (junk bs.length) b bs with
      | .token t rest => t :: lexAux junk n rest
      | .blank rest => lexAux junk n rest
      | .stop => []

/-- The tokens of a script; `junk` is what is left in `yylval`, by how much of the text
is to come. -/
def lex (junk : Nat → Thing) (text : List UInt8) : List Token :=
  lexAux junk text.length text

/-! ## Tables -/

def packed : Lr.Packed where
  yypact :=
    [-30, 5, -30, -30, -30, 7, 7, 7, 1, 14,
     15, 23, 17, -30, -30, 20, -30, -30, -30, -30,
     -30, -30, 16, 25, 8, 21, -30, -30, 24, 29,
     -30, 8, -30, -30, 37, -30, -30, -30, -7, 27,
     38, -30, -30, 31, 33, 35, -30, 8, -30, -30,
     -30, -30, -30]
  yytable :=
    [35, 36, 37, 43, 44, 4, 46, 35, 42, 37,
     6, 7, 47, 24, 8, 8, 9, 10, 25, 11,
     34, 26, 27, 35, 52, 37, 6, 7, 30, 39,
     28, 32, 9, 10, 31, 11, 24, 40, 22, 23,
     33, 25, 41, 29, 45, 48, 49, 50, 40, 51]
  yycheck :=
    [24, 24, 24, 32, 33, 0, 13, 31, 31, 31,
     3, 4, 19, 12, 7, 7, 9, 10, 17, 12,
     12, 7, 7, 47, 47, 47, 3, 4, 11, 8,
     7, 15, 9, 10, 14, 12, 12, 13, 6, 7,
     15, 17, 13, 11, 7, 18, 8, 16, 13, 16]
  yydefact :=
    [3, 0, 2, 5, 1, 4, 0, 0, 27, 0,
     0, 0, 0, 8, 9, 23, 22, 14, 13, 19,
     17, 18, 0, 0, 28, 0, 10, 11, 27, 0,
     6, 0, 3, 3, 0, 23, 29, 20, 0, 0,
     0, 7, 12, 0, 0, 0, 24, 0, 26, 25,
     15, 16, 30]
  yypgoto :=
    [-30, -30, -29, -30, -30, 32, -30, -30, -24, -30,
     -23, -22, -30, -30, -30, -30]
  yydefgoto := [-1, 1, 2, 3, 5, 12, 13, 14, 15, 16, 17, 18, 19, 20, 21, 38]
  yyr1 :=
    [0, 20, 21, 23, 22, 24, 24, 25, 25, 25,
     26, 26, 27, 27, 27, 27, 27, 28, 28, 29,
     29, 29, 30, 30, 31, 32, 33, 34, 35, 35,
     35]
  yyr2 :=
    [0, 2, 1, 0, 2, 0, 3, 3, 1, 1,
     2, 2, 3, 1, 1, 5, 5, 1, 1, 1,
     1, 1, 1, 1, 4, 4, 4, 1, 0, 1,
     3]
  pactNinf := -30
  ntokens := 20
  final := 4
  maxDepth := 10000

def tables : Lr.Tables := packed.tables

/-! ## The parser -/

/-- `YYSTYPE`. -/
inductive Value where
  | none
  | string (s : List UInt8)
  | thing (x : Thing)
  | list (args : List Thing)
  | block (block : List Action)

def Token.value : Option Token → Value
  | some (.name s) => .string s
  | some (.string s) => .string s
  | some (.tif stale) => .thing stale
  | some (.ifnot stale) => .thing stale
  | some (.request stale) => .thing stale
  | some (.var stale) => .thing stale
  | _ => .none

section

variable {τ γ : Type} (conv : Conversions τ γ)

/-- The action of a rule, from the values of its symbols (the last one first).  The
block that a `THING_ACTION_BLOCK` points to is the innermost one when it is left. -/
def ruleValue : Nat → List Value → Script γ → Except Reject (Value × Script γ)
  | 2, [.block block], script => .ok (.none, { script with main := [block] })
  | 3, _, script => .ok (.none, script.enterActionBlock)
  | 4, _, script => script.leaveActionBlock.map fun r => (.block r.1, r.2)
  | 5, _, script => .ok (.none, script)
  | 6, _, script => .ok (.none, script)
  | 7, [_, .thing x, _], script => .ok (.thing x, script)
  | 8, [.thing x], script => .ok (.thing x, script)
  | 9, [.thing x], script => .ok (.thing x, script)
  -- the value of these two, and of a condition, is that of the keyword
  | 10, [.string name, .thing stale], script => .ok (.thing stale, script.newRequest name)
  | 11, [.string name, .thing stale], script =>
      .ok (.thing stale, script.newNamedVariable name)
  | 12, [.thing x, _, .thing dst], script => .ok (.thing dst, ruleSet dst x script)
  | 13, [.thing x], script => .ok (.thing x, script)
  | 14, [.thing x], script => .ok (.thing x, script)
  | 15, [_, .block block, _, .thing x, .thing stale], script =>
      .ok (.thing stale, ruleCondition false x block script)
  | 16, [_, .block block, _, .thing x, .thing stale], script =>
      .ok (.thing stale, ruleCondition true x block script)
  | 17, [.thing x], script => .ok (.thing x, script)
  | 18, [.thing x], script => .ok (.thing x, script)
  | 19, [.thing x], script => .ok (.thing x, script)
  | 20, [.thing x], script => .ok (.thing x, script)
  | 21, [.thing x], script => .ok (.thing x, script)
  | 22, [.thing x], script => .ok (.thing x, script)
  | 23, [.thing x], script => .ok (.thing x, script)
  | 24, [_, .list params, _, .string name], script =>
      (ruleFunction name params script).map fun r => (.thing r.1, r.2)
  | 25, [.string string, _, .string type, _], script =>
      (ruleConstant conv type string script).map fun r => (.thing r.1, r.2)
  | 26, [_, .string key, _, .string name], script =>
      (ruleArrayKey conv name key script).map fun r => (.thing r.1, r.2)
  | 27, [.string name], script => (ruleLabel conv name script).map fun r =>
      (.thing r.1, r.2)
  | 28, _, script => .ok (.list [], script)
  | 29, [.thing x], script => .ok (.list [x], script)
  | 30, [.thing x, _, .list args], script => (ruleArgs args x).map fun args =>
      (.list args, script)
  | _, _, _ => .error .error

def actions : Lr.Actions Token Value (Script γ) Reject where
  symbol := Token.symbol
  value := Token.value
  reduce := ruleValue conv

def ENOMEM : Int := 12

/-- What `rewrite_script_parse` returns: 0 and the script, or an error.  Nothing is said
of a run that follows a null pointer. -/
inductive Parsed (γ : Type) where
  | script (script : Script γ)
  | failed (ret : Int)
  | wild

def parsed {γ : Type} : Lr.Result (Script γ) Reject → Parsed γ
  | .accept script => .script script
  | .abort => .failed (-EINVAL)
  | .reject .error => .failed (-EINVAL)
  | .reject .wild => .wild
  | .exhausted => .failed (-ENOMEM)

/-- `rewrite_script_parse`; a C string ends at its first zero. -/
def rewriteScriptParse (junk : Nat → Thing) (n : Nat) (string : List UInt8) :
    Except OutOfFuel (Parsed γ) :=
  (Lr.parse tables (actions conv) n
    ⟨[], lex junk (string.takeWhile (· ≠ 0)), Script.empty⟩).map parsed

end

end Frozen.Rewrite
