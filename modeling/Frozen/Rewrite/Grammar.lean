/-
# `Frozen.Rewrite.Grammar` — what the parser takes is a script

The rules of `rule_parser.y` as words of the syntax trees.  A statement in
parentheses is no bare name there: the parser takes a name in parentheses for a type
and waits for a string.

    certify_tables   the tables are those of the grammar
    exists_stmts     what is accepted is the word of statements, and is what they compile to
-/
import Frozen.Rewrite.Rules

namespace Frozen.Rewrite

open Lib

/-! ## Words -/

def Target.word : Target → List Token
  | .arrayKey name key => [.name name, .lbracket, .string key, .rbracket]
  | .label name => [.name name]

mutual

def Expr.word : Expr → List Token
  | .call name args => .name name :: .lparen :: (args.word ++ [.rparen])
  | .constant type string => [.lparen, .name type, .rparen, .string string]
  | .target t => t.word

def Args.word : Args → List Token
  | .empty => []
  | .first e => e.word
  | .comma args e => args.word ++ .comma :: e.word

end

mutual

def Stmt.word : Stmt → List Token
  | .paren s => .lparen :: (s.word ++ [.rparen])
  | .request stale name => [.request stale, .name name]
  | .var stale name => [.var stale, .name name]
  | .set dst e => dst.word ++ .assign :: e.word
  | .expr e => e.word
  | .condition negated stale s block =>
      (if negated then .ifnot stale else .tif stale) ::
        (s.word ++ .lbrace :: (Stmt.wordAll block ++ [.rbrace]))

def Stmt.wordAll : List Stmt → List Token
  | [] => []
  | s :: rest => s.word ++ .semicolon :: Stmt.wordAll rest

end

def Target.isName : Target → Bool
  | .label _ => true
  | _ => false

def Expr.isName : Expr → Bool
  | .target t => t.isName
  | _ => false

/-- A statement that is a name, and nothing but that. -/
def Stmt.isName : Stmt → Bool
  | .expr e => e.isName
  | _ => false

mutual

/-- No name stands in parentheses by itself. -/
def Stmt.Shifted : Stmt → Prop
  | .paren s => s.isName = false ∧ s.Shifted
  | .condition _ _ s block => s.Shifted ∧ Stmt.AllShifted block
  | _ => True

def Stmt.AllShifted : List Stmt → Prop
  | [] => True
  | s :: rest => s.Shifted ∧ Stmt.AllShifted rest

end

theorem Stmt.wordAll_append (ss ts : List Stmt) :
    Stmt.wordAll (ss ++ ts) = Stmt.wordAll ss ++ Stmt.wordAll ts := by
  induction ss with
  | nil => rfl
  | cons s ss ih => simp [wordAll, ih]

theorem Stmt.allShifted_append (ss ts : List Stmt) :
    Stmt.AllShifted (ss ++ ts) ↔ Stmt.AllShifted ss ∧ Stmt.AllShifted ts := by
  induction ss with
  | nil => simp [AllShifted]
  | cons s ss ih => simp [AllShifted, ih, and_assoc]

/-! ## The automaton -/

/-- `yystos`, from where a state is reached, and the rules; the first two
are not reduced. -/
def automaton : Lr.Automaton where
  states := 53
  symbols := 20
  symbolOf q :=
    [0, 21, 22, 23, 0, 24, 3, 4, 7, 9,
     10, 12, 25, 26, 27, 28, 29, 30, 31, 32,
     33, 34, 25, 25, 12, 17, 7, 7, 7, 25,
     11, 14, 15, 15, 12, 28, 30, 31, 35, 8,
     13, 13, 30, 22, 22, 7, 13, 19, 18, 8,
     16, 16, 30].getD q 0
  preds q :=
    [[], [0], [0], [0, 32, 33], [1], [3], [5, 6, 7, 11], [5, 6, 7, 11],
      [5, 6, 7, 24, 31, 47], [5, 6, 7, 11],
     [5, 6, 7, 11], [5, 6, 7, 11], [5], [5, 6, 7, 11], [5, 6, 7, 11], [5, 6, 7, 11],
     [5, 6, 7, 11, 24, 31, 47],
     [5, 6, 7, 11], [5, 6, 7, 11], [5, 6, 7, 11, 24, 31, 47], [5, 6, 7, 11, 24, 31, 47],
     [5, 6, 7, 11, 24, 31, 47], [6], [7], [8, 28], [8, 28], [9], [10], [11], [11],
     [12], [15], [22], [23],
     [24, 31, 47], [24, 31, 47], [24], [24, 31, 47], [24], [25], [28, 45], [29], [31],
     [32], [33], [34], [38], [38], [39], [40], [43], [44], [47]].getD q []
  isRule r := 2 ≤ r && r ≤ 30
  lhs r := packed.yyr1.getD r 0
  rhs r :=
    [[], [], [22], [], [23, 24], [], [24, 25, 11], [12, 25, 13], [26], [27],
     [9, 7], [10, 7], [28, 14, 30], [31], [30], [3, 25, 15, 22, 16],
     [4, 25, 15, 22, 16], [33], [34], [32],
     [31], [34], [29], [28], [7, 12, 35, 13], [12, 7, 13, 8], [7, 17, 8, 18],
     [7], [], [30], [35, 19, 30]].getD r []

/-- The check of the tables, some states at a time. -/
theorem certify_states {q : Nat} (hq : q < 53) (hfinal : q ≠ 4) {a : Nat} (ha : a < 20) :
    Lr.certifyAct tables automaton q a := by
  have certify_1 : ∀ q < 14, q ≠ 4 → ∀ a < 20, Lr.certifyAct tables automaton q a := by
    decide +kernel
  have certify_2 : ∀ q < 27, 14 ≤ q → ∀ a < 20,
      Lr.certifyAct tables automaton q a := by decide +kernel
  have certify_3 : ∀ q < 40, 27 ≤ q → ∀ a < 20,
      Lr.certifyAct tables automaton q a := by decide +kernel
  have certify_4 : ∀ q < 53, 40 ≤ q → ∀ a < 20,
      Lr.certifyAct tables automaton q a := by decide +kernel
  rcases Nat.lt_or_ge q 14 with h₁ | h₁
  · exact certify_1 q h₁ hfinal a ha
  rcases Nat.lt_or_ge q 27 with h₂ | h₂
  · exact certify_2 q h₂ h₁ a ha
  rcases Nat.lt_or_ge q 40 with h₃ | h₃
  · exact certify_3 q h₃ h₂ a ha
  · exact certify_4 q hq h₃ a ha

theorem certify_tables : Lr.certify tables automaton := by
  simp only [Lr.certify, List.all_eq_true, List.mem_range, Bool.or_eq_true, beq_iff_eq]
  intro q hq
  by_cases hfinal : q = 4
  · exact .inl hfinal
  · exact .inr fun a ha => certify_states hq hfinal ha

/-! ## Symbols -/

/-- The symbols of the grammar with their trees. -/
inductive Symbol where
  | token (t : Option Token)
  | start (block : List Stmt)
  | actionBlock (block : List Stmt)
  /-- `@1`, where a block is entered -/
  | enter
  | statements (block : List Stmt)
  | statement (s : Stmt)
  | define (s : Stmt)
  | action (s : Stmt)
  | dstTarget (t : Target)
  | srcTarget (e : Expr)
  | anyTarget (e : Expr)
  | function (name : List UInt8) (args : Args)
  | constant (type string : List UInt8)
  | arrayKey (name key : List UInt8)
  | label (name : List UInt8)
  | argsList (args : Args)

namespace Symbol

def kind : Symbol → Nat
  | token t => (t.map Token.symbol).getD 0
  | start _ => 21
  | actionBlock _ => 22
  | enter => 23
  | statements _ => 24
  | statement _ => 25
  | define _ => 26
  | action _ => 27
  | dstTarget _ => 28
  | srcTarget _ => 29
  | anyTarget _ => 30
  | function _ _ => 31
  | constant _ _ => 32
  | arrayKey _ _ => 33
  | label _ => 34
  | argsList _ => 35

def word : Symbol → List Token
  | token t => t.toList
  | start block => Stmt.wordAll block
  | actionBlock block => Stmt.wordAll block
  | enter => []
  | statements block => Stmt.wordAll block
  | statement s => s.word
  | define s => s.word
  | action s => s.word
  | dstTarget t => t.word
  | srcTarget e => e.word
  | anyTarget e => e.word
  | function name args => (Expr.call name args).word
  | constant type string => (Expr.constant type string).word
  | arrayKey name key => (Target.arrayKey name key).word
  | label name => (Target.label name).word
  | argsList args => args.word

/-- The rules: their right sides, the last symbol first, and what stands for them. -/
inductive Node : Nat → List Symbol → Symbol → Prop
  | start {block} : Node 2 [actionBlock block] (start block)
  | enter : Node 3 [] enter
  | actionBlock {block} : Node 4 [statements block, Symbol.enter] (actionBlock block)
  | nil : Node 5 [] (statements [])
  | snoc {block s} :
      Node 6 [token (some .semicolon), statement s, statements block]
        (statements (block ++ [s]))
  | paren {s} : Node 7 [token (some .rparen), statement s, token (some .lparen)]
      (statement (.paren s))
  | define {s} : Node 8 [define s] (statement s)
  | action {s} : Node 9 [action s] (statement s)
  | request {stale name} :
      Node 10 [token (some (.name name)), token (some (.request stale))]
        (define (.request stale name))
  | var {stale name} : Node 11 [token (some (.name name)), token (some (.var stale))]
      (define (.var stale name))
  | set {dst e} : Node 12 [anyTarget e, token (some .assign), dstTarget dst]
      (action (.set dst e))
  | call {name args} : Node 13 [function name args] (action (.expr (.call name args)))
  | expr {e} : Node 14 [anyTarget e] (action (.expr e))
  | langIf {stale s block} :
      Node 15
        [token (some .rbrace), Symbol.actionBlock block, token (some .lbrace),
          statement s, token (some (.tif stale))]
        (action (.condition false stale s block))
  | langIfnot {stale s block} :
      Node 16
        [token (some .rbrace), Symbol.actionBlock block, token (some .lbrace),
          statement s, token (some (.ifnot stale))]
        (action (.condition true stale s block))
  | dstArrayKey {name key} : Node 17 [arrayKey name key] (dstTarget (.arrayKey name key))
  | dstLabel {name} : Node 18 [label name] (dstTarget (.label name))
  | srcConstant {type string} : Node 19 [constant type string]
      (srcTarget (.constant type string))
  | srcFunction {name args} : Node 20 [function name args] (srcTarget (.call name args))
  | srcLabel {name} : Node 21 [label name] (srcTarget (.target (.label name)))
  | anySrc {e} : Node 22 [srcTarget e] (anyTarget e)
  | anyDst {t} : Node 23 [dstTarget t] (anyTarget (.target t))
  | function {name args} :
      Node 24 [token (some .rparen), argsList args, token (some .lparen),
        token (some (.name name))] (function name args)
  | constant {type string} :
      Node 25 [token (some (.string string)), token (some .rparen),
        token (some (.name type)), token (some .lparen)] (constant type string)
  | arrayKey {name key} :
      Node 26 [token (some .rbracket), token (some (.string key)),
        token (some .lbracket), token (some (.name name))] (arrayKey name key)
  | label {name} : Node 27 [token (some (.name name))] (label name)
  | argsEmpty : Node 28 [] (argsList .empty)
  | argsFirst {e} : Node 29 [anyTarget e] (argsList (.first e))
  | argsComma {args e} : Node 30 [anyTarget e, token (some .comma), argsList args]
      (argsList (.comma args e))

section

variable {τ γ : Type} (conv : Conversions τ γ)

/-- What the actions of the parser make of a symbol. -/
def eval : Symbol → Script γ → Except Reject (Value × Script γ)
  | token t, script => .ok (Token.value t, script)
  | start block, script => do
      let script ← Stmt.compileAll conv block script.enterActionBlock
      let (block, script) ← script.leaveActionBlock
      .ok (.none, { script with main := [block] })
  | actionBlock block, script => do
      let script ← Stmt.compileAll conv block script.enterActionBlock
      let (block, script) ← script.leaveActionBlock
      .ok (.block block, script)
  | enter, script => .ok (.none, script.enterActionBlock)
  | statements block, script => (Stmt.compileAll conv block script).map fun script =>
      (.none, script)
  | statement s, script => (s.compile conv script).map fun r => (.thing r.1, r.2)
  | define s, script => (s.compile conv script).map fun r => (.thing r.1, r.2)
  | action s, script => (s.compile conv script).map fun r => (.thing r.1, r.2)
  | dstTarget t, script => (t.compile conv script).map fun r => (.thing r.1, r.2)
  | srcTarget e, script => (e.compile conv script).map fun r => (.thing r.1, r.2)
  | anyTarget e, script => (e.compile conv script).map fun r => (.thing r.1, r.2)
  | function name args, script =>
      ((Expr.call name args).compile conv script).map fun r => (.thing r.1, r.2)
  | constant type string, script =>
      ((Expr.constant type string).compile conv script).map fun r => (.thing r.1, r.2)
  | arrayKey name key, script =>
      ((Target.arrayKey name key).compile conv script).map fun r => (.thing r.1, r.2)
  | label name, script => ((Target.label name).compile conv script).map fun r =>
      (.thing r.1, r.2)
  | argsList args, script => (args.compile conv script).map fun r => (.list r.1, r.2)

end

end Symbol

section

variable {τ γ : Type}

def symbols (conv : Conversions τ γ) :
    Lr.Symbols Token Value (Script γ) Reject Symbol where
  leaf := Symbol.token
  node := Symbol.Node
  kind := Symbol.kind
  word := Symbol.word
  eval := Symbol.eval conv

variable {conv : Conversions τ γ}

theorem Stmt.compileAll_append (ss ts : List Stmt) (script : Script γ) :
    Stmt.compileAll conv (ss ++ ts) script =
      (Stmt.compileAll conv ss script).bind (Stmt.compileAll conv ts) := by
  induction ss generalizing script with
  | nil => rfl
  | cons s ss ih =>
      simp only [List.cons_append, Stmt.compileAll, bind, Except.bind]
      cases s.compile conv script with
      | error e => rfl
      | ok r => exact ih r.2

theorem Symbol.Node.word_eq {r : Nat} {xs : List Symbol} {x : Symbol}
    (h : Symbol.Node r xs x) : x.word = xs.reverse.flatMap Symbol.word := by
  cases h <;>
    simp [Symbol.word, Stmt.word, Stmt.wordAll, Stmt.wordAll_append, Expr.word,
      Args.word, Target.word]

/-- A rule that hands the value of its only symbol on. -/
theorem eval_unit {α : Type} {script : Script γ} {c : Except Reject (α × Script γ)}
    {f g : α → Value} {r : Nat} {x y : Symbol}
    (hx : x.eval conv script = c.map fun r => (f r.1, r.2))
    (hy : y.eval conv script = c.map fun r => (g r.1, r.2))
    (hr : ∀ a s, ruleValue conv r [f a] s = .ok (g a, s)) :
    y.eval conv script = ((symbols conv).evalAll [x].reverse script).bind fun vs =>
      ruleValue conv r vs.1.reverse vs.2 := by
  have heval : (symbols conv).eval x script = c.map fun r => (f r.1, r.2) := hx
  rw [hy, List.reverse_singleton, Lr.Symbols.evalAll, heval]
  cases c with
  | error e => rfl
  | ok r => exact (hr r.1 r.2).symm

theorem ruleArgs_map (args : List Thing) (x : Thing) (script : Script γ) :
    ((ruleArgs args x).bind fun args => .ok (args, script)).map
      (fun r => (Value.list r.1, r.2)) =
      (ruleArgs args x).map fun args => (.list args, script) := by
  cases ruleArgs args x <;> rfl

/-- The rules do to the values what their trees compile to. -/
theorem Symbol.Node.eval_eq {r : Nat} {xs : List Symbol} {x : Symbol} (script : Script γ)
    (h : Symbol.Node r xs x) :
    x.eval conv script = ((symbols conv).evalAll xs.reverse script).bind fun vs =>
      ruleValue conv r vs.1.reverse vs.2 := by
  have hsymbols : (symbols conv).eval = Symbol.eval conv := rfl
  cases h with
  | enter | nil | request | var | argsEmpty | constant | arrayKey | label => rfl
  | define | action | dstArrayKey | dstLabel | srcConstant | srcFunction | srcLabel
  | anySrc | anyDst =>
      exact eval_unit rfl rfl fun _ _ => rfl
  | @call name args =>
      refine eval_unit (c := (Expr.call name args).compile conv script) (f := .thing)
        (g := .thing) rfl ?_ fun _ _ => rfl
      simp only [Symbol.eval, Stmt.compile]
      cases (Expr.call name args).compile conv script <;> rfl
  | @expr e =>
      refine eval_unit (c := e.compile conv script) (f := .thing)
        (g := .thing) rfl ?_ fun _ _ => rfl
      simp only [Symbol.eval, Stmt.compile]
      cases e.compile conv script <;> rfl
  | @argsFirst e =>
      refine eval_unit (c := e.compile conv script) (f := .thing)
        (g := fun x => .list [x]) rfl ?_ fun _ _ => rfl
      simp only [Symbol.eval, Args.compile]
      cases e.compile conv script <;> rfl
  | @start block =>
      simp only [List.reverse_singleton, Lr.Symbols.evalAll, hsymbols, Symbol.eval,
        bind, Except.bind]
      cases Stmt.compileAll conv block script.enterActionBlock with
      | error e => rfl
      | ok script =>
          simp only []
          cases script.leaveActionBlock <;> rfl
  | @actionBlock block =>
      simp only [List.reverse_cons, List.reverse_nil, List.nil_append, List.cons_append,
        Lr.Symbols.evalAll, hsymbols, Symbol.eval, bind, Except.bind]
      cases Stmt.compileAll conv block script.enterActionBlock with
      | error e => rfl
      | ok script =>
          have hrule : ∀ vs, ruleValue conv 4 vs script = script.leaveActionBlock.map
              fun r => (.block r.1, r.2) :=
            fun _ => rfl
          simp only [Except.map, hrule]
  | @snoc block s =>
      simp only [List.reverse_cons, List.reverse_nil, List.nil_append, List.cons_append,
        Lr.Symbols.evalAll, hsymbols, Symbol.eval, bind, Except.bind,
        Stmt.compileAll_append]
      cases Stmt.compileAll conv block script with
      | error e => rfl
      | ok script =>
          simp only [Except.map, Except.bind, Stmt.compileAll, bind]
          cases s.compile conv script <;> rfl
  | @paren s =>
      simp only [List.reverse_cons, List.reverse_nil, List.nil_append, List.cons_append,
        Lr.Symbols.evalAll, hsymbols, Symbol.eval, bind, Except.bind, Stmt.compile]
      cases s.compile conv script <;> rfl
  | @set dst e =>
      simp only [List.reverse_cons, List.reverse_nil, List.nil_append, List.cons_append,
        Lr.Symbols.evalAll, hsymbols, Symbol.eval, bind, Except.bind, Stmt.compile]
      cases dst.compile conv script with
      | error e => rfl
      | ok r =>
          simp only [Except.map]
          cases e.compile conv r.2 <;> rfl
  | @langIf stale s block | @langIfnot stale s block =>
      simp only [List.reverse_cons, List.reverse_nil, List.nil_append, List.cons_append,
        Lr.Symbols.evalAll, hsymbols, Symbol.eval, bind, Except.bind, Stmt.compile]
      cases s.compile conv script with
      | error e => rfl
      | ok r =>
          simp only [Except.map]
          cases Stmt.compileAll conv block r.2.enterActionBlock with
          | error e => rfl
          | ok script =>
              simp only []
              cases script.leaveActionBlock <;> rfl
  | @function name args =>
      simp only [List.reverse_cons, List.reverse_nil, List.nil_append, List.cons_append,
        Lr.Symbols.evalAll, hsymbols, Symbol.eval, bind, Except.bind, Expr.compile]
      cases args.compile conv script <;> rfl
  | @argsComma args e =>
      simp only [List.reverse_cons, List.reverse_nil, List.nil_append, List.cons_append,
        Lr.Symbols.evalAll, hsymbols, Symbol.eval, bind, Except.bind, Args.compile]
      cases args.compile conv script with
      | error e => rfl
      | ok r =>
          simp only [Except.map]
          cases e.compile conv r.2 with
          | error e => rfl
          | ok x => exact ruleArgs_map _ _ _

end

/-! ## Every rule has its symbols -/

namespace Symbol

/-- What a symbol of a kind is. -/
def Shape : Nat → Symbol → Prop
  | 0, x => x = token none
  | 3, x => ∃ stale, x = token (some (.tif stale))
  | 4, x => ∃ stale, x = token (some (.ifnot stale))
  | 7, x => ∃ name, x = token (some (.name name))
  | 8, x => ∃ string, x = token (some (.string string))
  | 9, x => ∃ stale, x = token (some (.request stale))
  | 10, x => ∃ stale, x = token (some (.var stale))
  | 11, x => x = token (some .semicolon)
  | 12, x => x = token (some .lparen)
  | 13, x => x = token (some .rparen)
  | 14, x => x = token (some .assign)
  | 15, x => x = token (some .lbrace)
  | 16, x => x = token (some .rbrace)
  | 17, x => x = token (some .lbracket)
  | 18, x => x = token (some .rbracket)
  | 19, x => x = token (some .comma)
  | 21, x => ∃ block, x = start block
  | 22, x => ∃ block, x = actionBlock block
  | 23, x => x = enter
  | 24, x => ∃ block, x = statements block
  | 25, x => ∃ s, x = statement s
  | 26, x => ∃ s, x = define s
  | 27, x => ∃ s, x = action s
  | 28, x => ∃ t, x = dstTarget t
  | 29, x => ∃ e, x = srcTarget e
  | 30, x => ∃ e, x = anyTarget e
  | 31, x => ∃ name args, x = function name args
  | 32, x => ∃ type string, x = constant type string
  | 33, x => ∃ name key, x = arrayKey name key
  | 34, x => ∃ name, x = label name
  | 35, x => ∃ args, x = argsList args
  | _, _ => True

theorem shape (x : Symbol) : Shape x.kind x := by
  cases x with
  | token t =>
      cases t with
      | none => rfl
      | some t => cases t <;> first | rfl | exact ⟨_, rfl⟩ | trivial
  | enter => rfl
  | function name args => exact ⟨name, args, rfl⟩
  | constant type string => exact ⟨type, string, rfl⟩
  | arrayKey name key => exact ⟨name, key, rfl⟩
  | _ => exact ⟨_, rfl⟩

theorem shapes {ks : List Nat} {xs : List Symbol} (h : xs.map kind = ks) :
    List.Forall₂ Shape ks xs := by
  subst h
  induction xs with
  | nil => exact .nil
  | cons x xs ih => exact .cons x.shape ih

/-- A rule makes a symbol of whatever has the kinds of its right side. -/
theorem exists_node {r : Nat} {xs : List Symbol} (hr : automaton.isRule r)
    (h : xs.map kind = (automaton.rhs r).reverse) :
    ∃ x, Node r xs x ∧ x.kind = automaton.lhs r := by
  simp only [automaton, Bool.and_eq_true, decide_eq_true_eq] at hr
  have hshapes := shapes h
  obtain ⟨hle, hge⟩ := hr
  interval_cases r
  case «2» =>
    obtain _ | ⟨⟨_, rfl⟩, ⟨⟩⟩ := (hshapes : List.Forall₂ Shape [22] xs)
    exact ⟨_, .start, rfl⟩
  case «3» =>
    obtain ⟨⟩ := (hshapes : List.Forall₂ Shape [] xs)
    exact ⟨_, .enter, rfl⟩
  case «4» =>
    obtain _ | ⟨⟨_, rfl⟩, _ | ⟨rfl, ⟨⟩⟩⟩ := (hshapes : List.Forall₂ Shape [24, 23] xs)
    exact ⟨_, .actionBlock, rfl⟩
  case «5» =>
    obtain ⟨⟩ := (hshapes : List.Forall₂ Shape [] xs)
    exact ⟨_, .nil, rfl⟩
  case «6» =>
    obtain _ | ⟨rfl, _ | ⟨⟨_, rfl⟩, _ | ⟨⟨_, rfl⟩, ⟨⟩⟩⟩⟩ :=
      (hshapes : List.Forall₂ Shape [11, 25, 24] xs)
    exact ⟨_, .snoc, rfl⟩
  case «7» =>
    obtain _ | ⟨rfl, _ | ⟨⟨_, rfl⟩, _ | ⟨rfl, ⟨⟩⟩⟩⟩ :=
      (hshapes : List.Forall₂ Shape [13, 25, 12] xs)
    exact ⟨_, .paren, rfl⟩
  case «8» =>
    obtain _ | ⟨⟨_, rfl⟩, ⟨⟩⟩ := (hshapes : List.Forall₂ Shape [26] xs)
    exact ⟨_, .define, rfl⟩
  case «9» =>
    obtain _ | ⟨⟨_, rfl⟩, ⟨⟩⟩ := (hshapes : List.Forall₂ Shape [27] xs)
    exact ⟨_, .action, rfl⟩
  case «10» =>
    obtain _ | ⟨⟨_, rfl⟩, _ | ⟨⟨_, rfl⟩, ⟨⟩⟩⟩ := (hshapes : List.Forall₂ Shape [7, 9] xs)
    exact ⟨_, .request, rfl⟩
  case «11» =>
    obtain _ | ⟨⟨_, rfl⟩, _ | ⟨⟨_, rfl⟩, ⟨⟩⟩⟩ := (hshapes : List.Forall₂ Shape [7, 10] xs)
    exact ⟨_, .var, rfl⟩
  case «12» =>
    obtain _ | ⟨⟨_, rfl⟩, _ | ⟨rfl, _ | ⟨⟨_, rfl⟩, ⟨⟩⟩⟩⟩ :=
      (hshapes : List.Forall₂ Shape [30, 14, 28] xs)
    exact ⟨_, .set, rfl⟩
  case «13» =>
    obtain _ | ⟨⟨_, _, rfl⟩, ⟨⟩⟩ := (hshapes : List.Forall₂ Shape [31] xs)
    exact ⟨_, .call, rfl⟩
  case «14» =>
    obtain _ | ⟨⟨_, rfl⟩, ⟨⟩⟩ := (hshapes : List.Forall₂ Shape [30] xs)
    exact ⟨_, .expr, rfl⟩
  case «15» =>
    obtain _ | ⟨rfl, _ | ⟨⟨_, rfl⟩, _ | ⟨rfl, _ | ⟨⟨_, rfl⟩, _ | ⟨⟨_, rfl⟩, ⟨⟩⟩⟩⟩⟩⟩ :=
      (hshapes : List.Forall₂ Shape [16, 22, 15, 25, 3] xs)
    exact ⟨_, .langIf, rfl⟩
  case «16» =>
    obtain _ | ⟨rfl, _ | ⟨⟨_, rfl⟩, _ | ⟨rfl, _ | ⟨⟨_, rfl⟩, _ | ⟨⟨_, rfl⟩, ⟨⟩⟩⟩⟩⟩⟩ :=
      (hshapes : List.Forall₂ Shape [16, 22, 15, 25, 4] xs)
    exact ⟨_, .langIfnot, rfl⟩
  case «17» =>
    obtain _ | ⟨⟨_, _, rfl⟩, ⟨⟩⟩ := (hshapes : List.Forall₂ Shape [33] xs)
    exact ⟨_, .dstArrayKey, rfl⟩
  case «18» =>
    obtain _ | ⟨⟨_, rfl⟩, ⟨⟩⟩ := (hshapes : List.Forall₂ Shape [34] xs)
    exact ⟨_, .dstLabel, rfl⟩
  case «19» =>
    obtain _ | ⟨⟨_, _, rfl⟩, ⟨⟩⟩ := (hshapes : List.Forall₂ Shape [32] xs)
    exact ⟨_, .srcConstant, rfl⟩
  case «20» =>
    obtain _ | ⟨⟨_, _, rfl⟩, ⟨⟩⟩ := (hshapes : List.Forall₂ Shape [31] xs)
    exact ⟨_, .srcFunction, rfl⟩
  case «21» =>
    obtain _ | ⟨⟨_, rfl⟩, ⟨⟩⟩ := (hshapes : List.Forall₂ Shape [34] xs)
    exact ⟨_, .srcLabel, rfl⟩
  case «22» =>
    obtain _ | ⟨⟨_, rfl⟩, ⟨⟩⟩ := (hshapes : List.Forall₂ Shape [29] xs)
    exact ⟨_, .anySrc, rfl⟩
  case «23» =>
    obtain _ | ⟨⟨_, rfl⟩, ⟨⟩⟩ := (hshapes : List.Forall₂ Shape [28] xs)
    exact ⟨_, .anyDst, rfl⟩
  case «24» =>
    obtain _ | ⟨rfl, _ | ⟨⟨_, rfl⟩, _ | ⟨rfl, _ | ⟨⟨_, rfl⟩, ⟨⟩⟩⟩⟩⟩ :=
      (hshapes : List.Forall₂ Shape [13, 35, 12, 7] xs)
    exact ⟨_, .function, rfl⟩
  case «25» =>
    obtain _ | ⟨⟨_, rfl⟩, _ | ⟨rfl, _ | ⟨⟨_, rfl⟩, _ | ⟨rfl, ⟨⟩⟩⟩⟩⟩ :=
      (hshapes : List.Forall₂ Shape [8, 13, 7, 12] xs)
    exact ⟨_, .constant, rfl⟩
  case «26» =>
    obtain _ | ⟨rfl, _ | ⟨⟨_, rfl⟩, _ | ⟨rfl, _ | ⟨⟨_, rfl⟩, ⟨⟩⟩⟩⟩⟩ :=
      (hshapes : List.Forall₂ Shape [18, 8, 17, 7] xs)
    exact ⟨_, .arrayKey, rfl⟩
  case «27» =>
    obtain _ | ⟨⟨_, rfl⟩, ⟨⟩⟩ := (hshapes : List.Forall₂ Shape [7] xs)
    exact ⟨_, .label, rfl⟩
  case «28» =>
    obtain ⟨⟩ := (hshapes : List.Forall₂ Shape [] xs)
    exact ⟨_, .argsEmpty, rfl⟩
  case «29» =>
    obtain _ | ⟨⟨_, rfl⟩, ⟨⟩⟩ := (hshapes : List.Forall₂ Shape [30] xs)
    exact ⟨_, .argsFirst, rfl⟩
  case «30» =>
    obtain _ | ⟨⟨_, rfl⟩, _ | ⟨rfl, _ | ⟨⟨_, rfl⟩, ⟨⟩⟩⟩⟩ :=
      (hshapes : List.Forall₂ Shape [30, 19, 35] xs)
    exact ⟨_, .argsComma, rfl⟩

/-! ## Names in parentheses -/

/-- A name, and nothing but that. -/
def isName : Symbol → Bool
  | label _ => true
  | dstTarget t => t.isName
  | srcTarget e => e.isName
  | anyTarget e => e.isName
  | define s => s.isName
  | action s => s.isName
  | statement s => s.isName
  | _ => false

def Shifted : Symbol → Prop
  | start block => Stmt.AllShifted block
  | actionBlock block => Stmt.AllShifted block
  | statements block => Stmt.AllShifted block
  | statement s => s.Shifted
  | define s => s.Shifted
  | action s => s.Shifted
  | _ => True

theorem Node.shifted {r : Nat} {xs : List Symbol} {x : Symbol} (h : Node r xs x)
    (hxs : ∀ y ∈ xs, y.Shifted) (hname : r = 7 → ∀ y ∈ xs, y.isName = false) :
    x.Shifted := by
  cases h with
  | @paren s => exact ⟨hname rfl (statement s) (by simp), hxs (statement s) (by simp)⟩
  | @snoc block s =>
      have hblock : Stmt.AllShifted block := hxs (statements block) (by simp)
      have hs : s.Shifted := hxs (statement s) (by simp)
      exact (Stmt.allShifted_append block [s]).mpr ⟨hblock, hs, trivial⟩
  | @langIf stale s block | @langIfnot stale s block =>
      exact ⟨hxs (statement s) (by simp), hxs (Symbol.actionBlock block) (by simp)⟩
  | @start block => exact hxs (Symbol.actionBlock block) (by simp)
  | @actionBlock block => exact hxs (statements block) (by simp)
  | @define s => exact hxs (Symbol.define s) (by simp)
  | @action s => exact hxs (Symbol.action s) (by simp)
  | _ => trivial

/-- Only a name makes a symbol that is one. -/
theorem Node.isName {r : Nat} {xs : List Symbol} {x : Symbol} (h : Node r xs x)
    (hx : x.isName) : r = 27 ∨ ∃ y, xs = [y] ∧ y.isName := by
  cases h with
  | label => exact .inl rfl
  | dstLabel | srcLabel | anySrc | anyDst | expr | define | action =>
      exact .inr ⟨_, rfl, hx⟩
  | _ => cases hx

end Symbol

section

variable {τ γ : Type} {conv : Conversions τ γ}

theorem symbols_agree : (symbols conv).Agrees (actions conv) where
  leaf_kind _ := rfl
  leaf_word _ := rfl
  leaf_eval _ _ := rfl
  node_word _ _ _ h := h.word_eq
  node_eval _ _ _ script h := h.eval_eq script

/-! ## What the parser keeps -/

/-- The symbols on the stack, and the tokens behind them: a name right behind a
parenthesis is not all that stands in it. -/
structure Parens (conv : Conversions τ γ) (l : List (Nat × Symbol)) (ts : List Token) :
    Prop where
  shifted : ∀ a ∈ l, a.2.Shifted
  behind : ∀ q x below, l = (q, x) :: below → Lr.topState below = 11 → x.isName →
    Lr.lookahead (actions conv) ts ≠ 13
  closed : ∀ t a below, l = (41, t) :: a :: below → a.2.isName = false

/-! Facts about the tables. -/

theorem table_facts :
    (∀ r < 31, automaton.isRule r → tables.arity r = (automaton.rhs r).length) ∧
      (∀ a < 20, tables.action 4 a ≠ .shift 41 ∧ tables.action 4 a ≠ .reduce 7) ∧
      (∀ q < 53, automaton.symbolOf q = 13 → q ∈ [40, 41, 46]) ∧
      (∀ q ∈ [40, 41, 46], ∀ a < 20, tables.action q a = .reduce 7 → q = 41) ∧
      (∀ q < 53, automaton.edge 11 q → automaton.symbolOf q = 7 → q = 28) ∧
      (∀ p < 53, ∀ r < 31, automaton.isRule r → tables.goto p r ≠ 41) ∧
      ∀ p < 53, automaton.edge p 29 → p = 11 := by
  decide +kernel

theorem arity_eq : ∀ r < 31, automaton.isRule r →
    tables.arity r = (automaton.rhs r).length := table_facts.1

theorem action_final : ∀ a < 20, tables.action 4 a ≠ .shift 41 ∧
    tables.action 4 a ≠ .reduce 7 := table_facts.2.1

theorem action_41 : ∀ q < 53, ∀ a < 20, tables.action q a = .shift 41 → q = 29 := by
  intro q hq a ha h
  by_cases hfinal : q = 4
  · subst hfinal
    exact absurd h (action_final a ha).1
  · have hact := certify_states hq hfinal ha
    simp only [Lr.certifyAct, h, Lr.Automaton.edge, Bool.and_eq_true] at hact
    simpa [automaton] using hact.1.1.2

/-- Before the reduction there is a closing parenthesis. -/
theorem action_reduce_7 : ∀ q < 53, ∀ a < 20, tables.action q a = .reduce 7 → q = 41 := by
  obtain ⟨-, -, hsymbol, hclosed, -⟩ := table_facts
  intro q hq a ha h
  by_cases hfinal : q = 4
  · subst hfinal
    exact absurd h (action_final a ha).2
  · have hact := certify_states hq hfinal ha
    have hrhs : (automaton.rhs 7).reverse = [13, 25, 12] := rfl
    simp only [Lr.certifyAct, h, hrhs, Lr.Automaton.spells, Bool.and_eq_true,
      beq_iff_eq] at hact
    exact hclosed q (hsymbol q hq hact.2.1.2) a ha h

theorem name_behind : ∀ q < 53, automaton.edge 11 q → automaton.symbolOf q = 7 →
    q = 28 := table_facts.2.2.2.2.1

theorem goto_ne_41 : ∀ p < 53, ∀ r < 31, automaton.isRule r → tables.goto p r ≠ 41 :=
  table_facts.2.2.2.2.2.1

theorem preds_29 : ∀ p < 53, automaton.edge p 29 → p = 11 := table_facts.2.2.2.2.2.2

theorem symbol_bounds (t : Token) : t.symbol ≠ 0 ∧ t.symbol < 20 := by
  cases t <;> exact ⟨by simp [Token.symbol], by simp [Token.symbol]⟩

theorem lookahead_lt (ts : List Token) : Lr.lookahead (actions conv) ts < 20 := by
  cases ts with
  | nil => exact Nat.zero_lt_succ 19
  | cons t ts => exact (symbol_bounds t).2

theorem parens_shift {l : List (Nat × Symbol)} {ts : List Token} {q : Nat}
    (hlinked : Lr.Linked automaton (symbols conv) l) (h : Parens conv l ts)
    (hshift : tables.action (Lr.topState l) (Lr.lookahead (actions conv) ts) = .shift q)
    (hsymbol : automaton.symbolOf q = Lr.lookahead (actions conv) ts) :
    Parens conv ((q, .token ts.head?) :: l) ts.tail where
  shifted := List.forall_mem_cons.mpr ⟨trivial, h.shifted⟩
  behind := by
    rintro q' x below heq - hname
    cases heq
    cases hname
  closed := by
    rintro t ⟨q', x⟩ below heq
    obtain ⟨htop, rfl⟩ := List.cons.inj heq
    obtain ⟨rfl, -⟩ := Prod.mk.inj htop
    obtain ⟨-, hedge, hbelow⟩ := hlinked
    have hlt : q' < 53 := by
      simp only [Lr.Automaton.edge, Bool.and_eq_true, decide_eq_true_eq] at hedge
      exact hedge.1
    obtain rfl : q' = 29 := action_41 q' hlt _ (lookahead_lt ts) hshift
    have hbehind := preds_29 _ (hbelow.topState_lt (by decide)) hedge
    by_contra hne
    have hname : x.isName := by simpa using hne
    exact h.behind 29 x below rfl hbehind hname hsymbol.symm

theorem exists_cons_of_take {α β : Type} {l : List (α × β)} {k : Nat} {y : β}
    {ys : List β} (h : (l.take (k + 1)).map Prod.snd = y :: ys) :
    ∃ a rest, l = a :: rest ∧ a.2 = y ∧ (rest.take k).map Prod.snd = ys := by
  cases l with
  | nil => cases h
  | cons a l =>
      obtain ⟨ha, hrest⟩ := List.cons.inj h
      exact ⟨a, l, rfl, ha, hrest⟩

theorem parens_reduce {l : List (Nat × Symbol)} {ts : List Token} {r : Nat}
    (hlinked : Lr.Linked automaton (symbols conv) l) (h : Parens conv l ts)
    (hreduce : tables.action (Lr.topState l) (Lr.lookahead (actions conv) ts) = .reduce r)
    (hrule : automaton.isRule r)
    (hkinds : (l.take (tables.arity r)).map (fun a => a.2.kind)
      = (automaton.rhs r).reverse) :
    ∃ x, Symbol.Node r ((l.take (tables.arity r)).map Prod.snd) x ∧
      x.kind = automaton.lhs r ∧
      Parens conv ((tables.goto (Lr.topState (l.drop (tables.arity r))) r, x) :: l.drop
        (tables.arity r)) ts := by
  have hr : r < 31 := by
    simp only [automaton, Bool.and_eq_true, decide_eq_true_eq] at hrule
    omega
  have hstate := hlinked.topState_lt (M := automaton) (by decide)
  have hkinds' : ((l.take (tables.arity r)).map Prod.snd).map Symbol.kind
      = (automaton.rhs r).reverse := by
    rw [List.map_map]
    exact hkinds
  obtain ⟨x, hnode, hkind⟩ := Symbol.exists_node hrule hkinds'
  refine ⟨x, hnode, hkind, ?_, ?_, ?_⟩
  · refine List.forall_mem_cons.mpr
      ⟨hnode.shifted ?_ ?_, fun a ha => h.shifted a (List.mem_of_mem_drop ha)⟩
    · intro y hy
      obtain ⟨a, ha, rfl⟩ := List.mem_map.mp hy
      exact h.shifted a (List.mem_of_mem_take ha)
    · rintro rfl y hy
      have hclosed : Lr.topState l = 41 :=
        action_reduce_7 _ hstate _ (lookahead_lt ts) hreduce
      generalize hxs : (l.take (tables.arity 7)).map Prod.snd = xs at hnode hy
      cases hnode
      obtain ⟨a, l, rfl, ha, hxs⟩ := exists_cons_of_take hxs
      obtain ⟨b, l, rfl, hb, -⟩ := exists_cons_of_take hxs
      have hname := h.closed a.2 b l (by rw [← show a.1 = 41 from hclosed])
      simp only [List.mem_cons, List.not_mem_nil, or_false] at hy
      rcases hy with rfl | rfl | rfl
      · rfl
      · rwa [hb] at hname
      · rfl
  · rintro q y below heq hbehind hname
    obtain ⟨htop, hbelow⟩ := List.cons.inj heq
    obtain ⟨-, rfl⟩ := Prod.mk.inj htop
    rw [← hbelow] at hbehind
    rcases hnode.isName hname with rfl | ⟨y, hxs, hy⟩
    · generalize hxs : (l.take (tables.arity 27)).map Prod.snd = xs at hnode
      cases hnode
      obtain ⟨⟨q', y⟩, l, rfl, rfl, -⟩ := exists_cons_of_take hxs
      obtain ⟨hsymbol, hedge, -⟩ := hlinked
      have hbehind : Lr.topState l = 11 := hbehind
      rw [hbehind] at hedge
      obtain rfl := name_behind q' hstate hedge hsymbol.symm
      intro hlook
      rw [hlook] at hreduce
      have hreduce : tables.action 28 13 = .reduce 27 := hreduce
      exact absurd hreduce (by decide)
    · have hone : tables.arity r = 1 := by
        have hlen := congrArg List.length hkinds
        have hlen' := congrArg List.length hxs
        simp only [List.length_map, List.length_reverse, List.length_singleton]
          at hlen hlen'
        rw [arity_eq r hr hrule, ← hlen, hlen']
      rw [hone] at hxs hbehind
      obtain ⟨⟨q', y'⟩, l, rfl, rfl, -⟩ := exists_cons_of_take hxs
      exact h.behind q' y' l rfl hbehind hy
  · rintro t a below heq
    obtain ⟨htop, -⟩ := List.cons.inj heq
    obtain ⟨hgoto, -⟩ := Prod.mk.inj htop
    exact absurd hgoto
      (goto_ne_41 _ ((hlinked.drop _).topState_lt (by decide)) r hr hrule)

theorem certified :
    Lr.Certified tables automaton (actions conv) (symbols conv) (Parens conv) where
  tables := certify_tables
  states_pos := by decide
  symbols_pos := by decide
  symbol := symbol_bounds
  agrees := symbols_agree
  start _ := ⟨by simp, by rintro q x below ⟨⟩, by rintro t a below ⟨⟩⟩
  shift _ _ _ hlinked h hshift hsymbol := parens_shift hlinked h hshift hsymbol
  reduce _ _ _ hlinked h hreduce hrule hkinds :=
    parens_reduce hlinked h hreduce hrule hkinds

/-! ## What is accepted -/

theorem preds_final : ∀ p < 53, automaton.edge p 4 → p = 1 := by decide

theorem preds_start : ∀ p < 53, automaton.edge p 1 → p = 0 := by decide

theorem preds_zero : ∀ p < 53, automaton.edge p 0 = false := by decide

/-- The path to the final state is `start` and the end of the tokens. -/
theorem exists_start {l : List (Nat × Symbol)} (h : Lr.Linked automaton (symbols conv) l)
    (htop : Lr.topState l = tables.final) :
    ∃ block, l.map Prod.snd = [.token none, .start block] := by
  cases l with
  | nil => exact absurd htop (by decide)
  | cons a l =>
      obtain ⟨q, x⟩ := a
      obtain ⟨hkind, hedge, hlinked⟩ := h
      obtain rfl : q = 4 := htop
      have htop : Lr.topState l = 1 :=
        preds_final _ (hlinked.topState_lt (by decide)) hedge
      cases l with
      | nil => exact absurd htop (by decide)
      | cons a l =>
          obtain ⟨q, y⟩ := a
          obtain rfl : q = 1 := htop
          obtain ⟨hkind', hedge, hlinked⟩ := hlinked
          have hbottom : Lr.topState l = 0 :=
            preds_start _ (hlinked.topState_lt (by decide)) hedge
          have hx := x.shape
          have hy := y.shape
          have hkind : x.kind = 0 := hkind
          have hkind' : y.kind = 21 := hkind'
          rw [hkind] at hx
          rw [hkind'] at hy
          obtain rfl := hx
          obtain ⟨block, rfl⟩ := hy
          cases l with
          | nil => exact ⟨block, rfl⟩
          | cons a l =>
              obtain ⟨q, z⟩ := a
              obtain rfl : q = 0 := hbottom
              obtain ⟨-, hedge, hlinked⟩ := hlinked
              exact absurd hedge
                (by simp [preds_zero _ (hlinked.topState_lt (by decide))])

/-- **What is accepted** is the word of statements, and is what they compile to. -/
theorem exists_stmts {n : Nat} {ts : List Token} {script : Script γ}
    (h : Lr.parse tables (actions conv) n ⟨[], ts, Script.empty⟩ = .ok (.accept script)) :
    ∃ block, Stmt.wordAll block = ts ∧ Stmt.AllShifted block ∧
      compileScript conv block = .ok script := by
  obtain ⟨l, vs, hlinked, hkeeps, htop, hword, heval⟩ :=
    Lr.accept_symbols certified (Lr.holds_start certified ts Script.empty (by decide)) h
  obtain ⟨block, hl⟩ := exists_start hlinked htop
  rw [List.map_reverse, hl] at hword heval
  refine ⟨block, by simpa [symbols, Symbol.word] using hword, ?_, ?_⟩
  · have hmem : Symbol.start block ∈ l.map Prod.snd := by simp [hl]
    obtain ⟨a, ha, hstart⟩ := List.mem_map.mp hmem
    have hshifted := hkeeps.shifted a ha
    rwa [hstart] at hshifted
  · simp only [List.reverse_cons, List.reverse_nil, List.nil_append, List.cons_append,
      Lr.Symbols.evalAll] at heval
    obtain ⟨⟨v, script'⟩, hstart, hend⟩ := ok_of_bind heval
    obtain ⟨⟨v', script''⟩, htoken, hend⟩ := ok_of_bind hend
    cases htoken
    cases hend
    obtain ⟨script₁, hblock, hstart⟩ := ok_of_bind hstart
    obtain ⟨⟨b, script₂⟩, hleave, hstart⟩ := ok_of_bind hstart
    cases hstart
    simp only [compileScript, bind, Except.bind, hblock, hleave]

end

end Frozen.Rewrite
