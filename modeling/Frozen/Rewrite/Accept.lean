/-
# `Frozen.Rewrite.Accept` — the parser takes every script

The other direction of `Rewrite.Grammar`, along the trees.  The parser keeps the symbols
of every open construct on its stack, at most `YYMAXDEPTH` of them; what a tree needs is
its height, and this is the only reason for which a script that compiles is not taken.

    Stmt.leads        a statement is read, and is what it compiles to
    accepts_iff       what the parser accepts, and with which script
    parse_ends        it ends, after a number of turns that the tokens bound
-/
import Frozen.Rewrite.Grammar

namespace Frozen.Rewrite

open Lib

/-! ## Heights -/

/-- How many symbols stand on the stack for a tree at the same time. -/
def Target.height : Target → Nat
  | .arrayKey _ _ => 4
  | .label _ => 1

mutual

def Expr.height : Expr → Nat
  | .call _ args => max 4 (2 + args.height)
  | .constant _ _ => 4
  | .target t => t.height

def Args.height : Args → Nat
  | .empty => 0
  | .first e => e.height
  | .comma args e => max args.height (2 + e.height)

end

mutual

def Stmt.height : Stmt → Nat
  | .paren s => max 3 (1 + s.height)
  | .request _ _ => 2
  | .var _ _ => 2
  | .set dst e => max dst.height (2 + e.height)
  | .expr e => e.height
  | .condition _ _ s block => max (1 + s.height) (5 + Stmt.heightAll block)

def Stmt.heightAll : List Stmt → Nat
  | [] => 0
  | s :: rest => max (max 2 s.height) (Stmt.heightAll rest)

end

theorem Target.height_pos (t : Target) : 0 < t.height := by
  cases t <;> exact Nat.succ_pos _

theorem Expr.height_pos (e : Expr) : 0 < e.height := by
  cases e with
  | call name args => exact lt_of_lt_of_le (Nat.succ_pos 3) (le_max_left ..)
  | constant type string => exact Nat.succ_pos 3
  | target t => exact t.height_pos

/-! ## States -/

/-- Where a statement starts. -/
def stmtStates : List Nat := [5, 6, 7, 11]

/-- Where an expression starts that is an argument or the right side of an assignment. -/
def exprStates : List Nat := [24, 31, 47]

theorem name_state : ∀ q ∈ stmtStates ++ exprStates, ∃ p ∈ [8, 28],
    tables.action q 7 = .shift p ∧ (p = 28 → q = 11) := by
  decide

theorem name_shifts : ∀ p ∈ [8, 28], p ≠ 4 ∧ tables.action p 12 = .shift 24 ∧
    tables.action p 17 = .shift 25 := by
  decide

theorem name_reduces : ∀ p ∈ [8, 28], ∀ a ∈ [11, 13, 14, 15, 19], (p = 28 → a ≠ 13) →
    tables.action p a = .reduce 27 := by
  decide

theorem empty_reduces : ∀ a ∈ [13, 19], tables.action 24 a = .reduce 28 := by decide

theorem paren_state :
    ∀ q ∈ stmtStates ++ exprStates, ∃ p p', tables.action q 12 = .shift p ∧
    tables.action p 7 = .shift p' ∧ tables.action p' 13 = .shift 40 ∧ p ≠ 4 ∧ p' ≠ 4 := by
  have hexpr : ∀ q ∈ exprStates, tables.action q 12 = .shift 34 := by decide
  have hstmt : ∀ q ∈ stmtStates, tables.action q 12 = .shift 11 := by decide
  intro q hq
  rcases List.mem_append.mp hq with hq | hq
  · exact ⟨11, 28, hstmt q hq, by decide, by decide, by decide, by decide⟩
  · exact ⟨34, 45, hexpr q hq, by decide, by decide, by decide, by decide⟩

theorem goto_start : ∀ q ∈ stmtStates ++ exprStates, q ≠ 4 ∧ tables.goto q 27 = 21 ∧
    tables.goto q 26 = 20 ∧ tables.goto q 25 = 19 ∧ tables.goto q 19 = 16 := by
  decide

theorem goto_expr :
    ∀ q ∈ exprStates, tables.goto q 17 = 35 ∧ tables.goto q 24 = 37 := by decide

theorem goto_stmt : ∀ q ∈ stmtStates, tables.goto q 17 = 15 ∧ tables.goto q 24 = 18 ∧
    tables.goto q 22 = 17 ∧ tables.goto q 12 = 14 ∧ tables.goto q 10 = 13 := by
  decide

section

variable {τ γ : Type} {conv : Conversions τ γ} {stack : List (Nat × Value)}
  {ts : List Token} {script script' : Script γ} {x : Thing} {q : Nat}

/-- A run of the parser, with the largest stack on the way. -/
abbrev Reads (conv : Conversions τ γ) := Lr.Leads tables (actions conv)

theorem reads_shift (q p : Nat) {t : Token} (hq : Lr.topState stack = q) (hnot : q ≠ 4)
    (h : tables.action q t.symbol = .shift p) :
    Reads conv ⟨stack, t :: ts, script⟩
      ⟨(p, Token.value (some t)) :: stack, ts, script⟩ stack.length := by
  subst hq
  exact Lr.Leads.shift hnot h

theorem reads_reduce (top : List (Nat × Value)) (q r p : Nat) (v : Value)
    (hq : Lr.topState (top ++ stack) = q) (hnot : q ≠ 4)
    (h : tables.action q (Lr.lookahead (actions conv) ts) = .reduce r)
    (hlen : top.length = tables.arity r) (hp : tables.goto (Lr.topState stack) r = p)
    (hv : ruleValue conv r (top.map Prod.snd) script = .ok (v, script')) :
    Reads conv ⟨top ++ stack, ts, script⟩ ⟨(p, v) :: stack, ts, script'⟩
      (top.length + stack.length) := by
  subst hp hq
  exact Lr.Leads.reduce top hnot h hlen hv

theorem map_ok {ε α β σ : Type} {c : Except ε (α × σ)} {a : α} {s : σ} (f : α → β)
    (h : c = .ok (a, s)) : (c.map fun r => (f r.1, r.2)) = .ok (f a, s) := by
  rw [h]
  rfl

theorem map_list {args xs : List Thing} (h : ruleArgs args x = .ok xs)
    (script : Script γ) :
    ((ruleArgs args x).map fun args => (Value.list args, script))
      = .ok (.list xs, script) := by
  rw [h]
  rfl

/-! ## Expressions -/

/-- A name that starts something; behind a parenthesis it is in a state of its own. -/
theorem reads_name (name : List UInt8) (hq : q ∈ stmtStates ++ exprStates)
    (hstack : Lr.topState stack = q) : ∃ p ∈ [8, 28], (p = 28 → q = 11) ∧
      Reads conv ⟨stack, .name name :: ts, script⟩
        ⟨(p, .string name) :: stack, ts, script⟩ stack.length := by
  obtain ⟨p, hp, hshift, hp'⟩ := name_state q hq
  exact ⟨p, hp, hp', reads_shift q p (t := .name name) hstack (goto_start q hq).1 hshift⟩

theorem Target.leads (t : Target) (hq : q ∈ stmtStates ++ exprStates)
    (hstack : Lr.topState stack = q)
    (hts : Lr.lookahead (actions conv) ts ∈ [11, 13, 14, 15, 19])
    (hname : q = 11 → t.isName → Lr.lookahead (actions conv) ts ≠ 13)
    (h : t.compile conv script = .ok (x, script')) :
    Reads conv ⟨stack, t.word ++ ts, script⟩
      ⟨(tables.goto q 17, .thing x) :: stack, ts, script'⟩
      (stack.length + t.height) := by
  obtain ⟨hnot, hlabel, harray, -⟩ := goto_start q hq
  subst hstack
  cases t with
  | label name =>
      obtain ⟨p, hp, hp', hread⟩ := reads_name name hq rfl
      have hreduce := name_reduces p hp _ hts fun h => hname (hp' h) rfl
      refine .cast (hread.trans (.trans
        (reads_reduce [_] p 27 21 (.thing x) rfl (name_shifts p hp).1 hreduce rfl
          hlabel (map_ok Value.thing h))
        (reads_reduce [_] 21 18 _ (.thing x) rfl (by decide) rfl rfl rfl rfl))) ?_
      simp only [List.length_cons, List.length_nil, Target.height]
      omega
  | arrayKey name key =>
      obtain ⟨p, hp, -, hread⟩ := reads_name name hq rfl
      refine .cast (hread.trans (.trans
        (reads_shift p 25 rfl (name_shifts p hp).1 (name_shifts p hp).2.2) (.trans
        (reads_shift 25 39 rfl (by decide) rfl) (.trans
        (reads_shift 39 48 rfl (by decide) rfl) (.trans
        (reads_reduce [_, _, _, _] 48 26 20 (.thing x) rfl (by decide) rfl rfl harray
          (map_ok Value.thing h))
        (reads_reduce [_] 20 17 _ (.thing x) rfl (by decide) rfl rfl rfl rfl)))))) ?_
      simp only [List.length_cons, List.length_nil, Target.height]
      omega

theorem constant_leads (type string : List UInt8) (hq : q ∈ stmtStates ++ exprStates)
    (hstack : Lr.topState stack = q)
    (h : ruleConstant conv type string script = .ok (x, script')) :
    Reads conv ⟨stack, (Expr.constant type string).word ++ ts, script⟩
      ⟨(tables.goto q 22, .thing x) :: stack, ts, script'⟩ (stack.length + 4) := by
  obtain ⟨hnot, -, -, hconstant, hsrc⟩ := goto_start q hq
  obtain ⟨p, p', hopen, hname, hclose, hp, hp'⟩ := paren_state q hq
  subst hstack
  refine .cast (.trans
    (reads_shift _ p rfl hnot hopen) (.trans
    (reads_shift p p' rfl hp hname) (.trans
    (reads_shift p' 40 rfl hp' hclose) (.trans
    (reads_shift 40 49 rfl (by decide) rfl) (.trans
    (reads_reduce [_, _, _, _] 49 25 19 (.thing x) rfl (by decide) rfl rfl hconstant
      (map_ok Value.thing h)) (.trans
    (reads_reduce [_] 19 19 16 (.thing x) rfl (by decide) rfl rfl hsrc rfl)
    (reads_reduce [_] 16 22 _ (.thing x) rfl (by decide) rfl rfl rfl rfl))))))) ?_
  simp only [List.length_cons, List.length_nil]
  omega

/-- Arguments are read behind the parenthesis of their call. -/
def Args.Read (conv : Conversions τ γ) (args : Args) : Prop :=
  ∀ {stack : List (Nat × Value)} {ts : List Token} {script script' : Script γ}
    {xs : List Thing},
    Lr.topState stack = 24 → Lr.lookahead (actions conv) ts ∈ [13, 19] →
      args.compile conv script = .ok (xs, script') →
      Reads conv ⟨stack, args.word ++ ts, script⟩ ⟨(38, .list xs) :: stack, ts, script'⟩
        (stack.length + args.height)

theorem call_leads {args : Args} (name : List UInt8) (hargs : args.Read conv)
    (hq : q ∈ stmtStates ++ exprStates) (hstack : Lr.topState stack = q)
    (h : (Expr.call name args).compile conv script = .ok (x, script')) :
    Reads conv ⟨stack, (Expr.call name args).word ++ ts, script⟩
      ⟨(tables.goto q 24, .thing x) :: stack, ts, script'⟩
      (stack.length + (Expr.call name args).height) := by
  obtain ⟨⟨xs, script₁⟩, hcompile, hfunction⟩ := ok_of_bind h
  subst hstack
  obtain ⟨p, hp, -, hread⟩ := reads_name name hq rfl
  simp only [Expr.word, List.cons_append, List.append_assoc, List.nil_append]
  refine .cast (hread.trans (.trans
    (reads_shift p 24 rfl (name_shifts p hp).1 (name_shifts p hp).2.1) (.trans
    (hargs rfl (by show 13 ∈ [13, 19]; decide) hcompile) (.trans
    (reads_shift 38 46 rfl (by decide) rfl)
    (reads_reduce [_, _, _, _] 46 24 _ (.thing x) rfl (by decide) rfl rfl rfl
      (map_ok Value.thing hfunction)))))) ?_
  simp only [List.length_cons, List.length_nil, Expr.height]
  omega

mutual

/-- An argument, or the right side of an assignment. -/
theorem Expr.leads (e : Expr) {q : Nat} {stack : List (Nat × Value)} {ts : List Token}
    {script script' : Script γ} {x : Thing} (hq : q ∈ exprStates)
    (hstack : Lr.topState stack = q)
    (hts : Lr.lookahead (actions conv) ts ∈ [11, 13, 15, 19])
    (h : e.compile conv script = .ok (x, script')) :
    Reads conv ⟨stack, e.word ++ ts, script⟩
      ⟨(tables.goto q 22, .thing x) :: stack, ts, script'⟩
      (stack.length + e.height) := by
  have hstart : q ∈ stmtStates ++ exprStates := List.mem_append_right _ hq
  obtain ⟨hdst, hfunction⟩ := goto_expr q hq
  cases e with
  | call name args =>
      subst hstack
      refine .cast (.trans
        (call_leads name args.leads hstart rfl h) (.trans
        (reads_reduce [_] 37 20 16 (.thing x) hfunction (by decide) rfl rfl
          (goto_start _ hstart).2.2.2.2 rfl)
        (reads_reduce [_] 16 22 _ (.thing x) rfl (by decide) rfl rfl rfl rfl))) ?_
      simp only [List.length_cons, List.length_nil, Expr.height]
      omega
  | constant type string => exact constant_leads type string hstart hstack h
  | target t =>
      have hmem : Lr.lookahead (actions conv) ts ∈ [11, 13, 14, 15, 19] := by
        simp only [List.mem_cons, List.not_mem_nil, or_false] at hts ⊢
        omega
      have hname : q ≠ 11 := by
        rintro rfl
        exact absurd hq (by decide)
      have hpos := t.height_pos
      subst hstack
      refine .cast (.trans
        (t.leads hstart rfl hmem (fun h => absurd h hname) h)
        (reads_reduce [_] 35 23 _ (.thing x) hdst (by decide) rfl rfl rfl rfl)) ?_
      simp only [List.length_cons, List.length_nil, Expr.height]
      omega

theorem Args.leads (args : Args) : args.Read conv := by
  intro stack ts script script' xs hstack hts h
  have hmem : Lr.lookahead (actions conv) ts ∈ [11, 13, 15, 19] := by
    simp only [List.mem_cons, List.not_mem_nil, or_false] at hts ⊢
    omega
  have hgoto : tables.goto (Lr.topState stack) 29 = 38 := by
    rw [hstack]
    rfl
  cases args with
  | empty =>
      cases h
      exact .cast (reads_reduce [] 24 28 38 (.list []) hstack (by decide)
        (empty_reduces _ hts) rfl hgoto rfl) (Nat.add_comm ..)
  | first e =>
      obtain ⟨⟨x, script₁⟩, hcompile, hend⟩ := ok_of_bind h
      cases hend
      have hpos := e.height_pos
      refine .cast (.trans
        (e.leads (q := 24) (by decide) hstack hmem hcompile)
        (reads_reduce [_] 36 29 38 (.list [x]) rfl (by decide) rfl rfl hgoto rfl)) ?_
      simp only [List.length_cons, List.length_nil, Args.height]
      omega
  | comma args e =>
      obtain ⟨⟨ys, script₁⟩, hargs, hrest⟩ := ok_of_bind h
      obtain ⟨⟨x, script₂⟩, hcompile, hrest⟩ := ok_of_bind hrest
      obtain ⟨xs', happend, hend⟩ := ok_of_bind hrest
      cases hend
      have hpos := e.height_pos
      simp only [Args.word, List.append_assoc, List.cons_append]
      refine .cast (.trans
        (args.leads hstack (by show 19 ∈ [13, 19]; decide) hargs) (.trans
        (reads_shift 38 47 rfl (by decide) rfl) (.trans
        (e.leads (q := 47) (by decide) rfl hmem hcompile)
        (reads_reduce [_, _, _] 52 30 38 (.list xs) rfl (by decide) rfl rfl hgoto
          (map_list happend script'))))) ?_
      simp only [List.length_cons, List.length_nil, Args.height]
      omega

end

/-! ## Statements -/

theorem stmt_shifts : ∀ q ∈ stmtStates, q ≠ 4 ∧ tables.action q 3 = .shift 6 ∧
    tables.action q 4 = .shift 7 ∧
    tables.action q 9 = .shift 9 ∧ tables.action q 10 = .shift 10 ∧
      tables.action q 12 = .shift 11 := by
  decide

theorem dst_reduces : ∀ a ∈ [11, 13, 15], tables.action 15 a = .reduce 23 := by decide

theorem block_ends : ∀ a ∈ [0, 16], tables.action 5 a = .reduce 4 := by decide

/-- Where a block starts. -/
theorem block_states : ∀ q ∈ [0, 32, 33], q ≠ 4 ∧ tables.goto q 3 = 3 ∧ ∀ a < 20,
    tables.action q a = .reduce 3 := by
  decide +kernel

/-- What is left of a block, behind the statements before it. -/
def ReadAll (conv : Conversions τ γ) (block : List Stmt) : Prop :=
  ∀ {stack : List (Nat × Value)} {ts : List Token} {script script' script₁ : Script γ}
    {b : List Action},
    Lr.lookahead (actions conv) ts ∈ [0, 16] → Stmt.AllShifted block →
      Stmt.compileAll conv block script = .ok script₁ →
      script₁.leaveActionBlock = .ok (b, script') →
      Reads conv ⟨(5, .none) :: (3, .none) :: stack, Stmt.wordAll block ++ ts, script⟩
        ⟨(tables.goto (Lr.topState stack) 4, .block b) :: stack, ts, script'⟩
        (stack.length + 2 + Stmt.heightAll block)

/-- A block from its start. -/
theorem block_leads {block : List Stmt} {script₁ : Script γ} {b : List Action}
    (hblock : ReadAll conv block) (hq : Lr.topState stack ∈ [0, 32, 33])
    (hts : Lr.lookahead (actions conv) ts ∈ [0, 16]) (hshifted : Stmt.AllShifted block)
    (h : Stmt.compileAll conv block script.enterActionBlock = .ok script₁)
    (hleave : script₁.leaveActionBlock = .ok (b, script')) :
    Reads conv ⟨stack, Stmt.wordAll block ++ ts, script⟩
      ⟨(tables.goto (Lr.topState stack) 4, .block b) :: stack, ts, script'⟩
      (stack.length + 2 + Stmt.heightAll block) := by
  obtain ⟨hnot, hgoto, henter⟩ := block_states _ hq
  refine .cast (.trans
    (reads_reduce [] _ 3 3 .none rfl hnot (henter _ (lookahead_lt _)) rfl hgoto rfl)
    (.trans (reads_reduce [] 3 5 5 .none rfl (by decide) rfl rfl rfl rfl)
    (hblock hts hshifted h hleave))) ?_
  simp only [List.length_cons, List.length_nil]
  omega

mutual

theorem Stmt.leads (s : Stmt) {q : Nat} {stack : List (Nat × Value)} {ts : List Token}
    {script script' : Script γ} {x : Thing} (hq : q ∈ stmtStates)
    (hstack : Lr.topState stack = q) (hts : Lr.lookahead (actions conv) ts ∈ [11, 13, 15])
    (hname : q = 11 → s.isName → Lr.lookahead (actions conv) ts ≠ 13)
    (hshifted : s.Shifted) (h : s.compile conv script = .ok (x, script')) :
    Reads conv ⟨stack, s.word ++ ts, script⟩
      ⟨(tables.goto q 9, .thing x) :: stack, ts, script'⟩
      (stack.length + s.height) := by
  obtain ⟨hnot, hif, hifnot, hrequest, hvar, hparen⟩ := stmt_shifts q hq
  obtain ⟨hdst, hfunction, hany, haction, hdefine⟩ := goto_stmt q hq
  have hstart : q ∈ stmtStates ++ exprStates := List.mem_append_left _ hq
  have hfollow : Lr.lookahead (actions conv) ts ∈ [11, 13, 15, 19] := by
    simp only [List.mem_cons, List.not_mem_nil, or_false] at hts ⊢
    omega
  subst hstack
  cases s with
  | request stale name =>
      cases h
      refine .cast (.trans
        (reads_shift _ 9 rfl hnot hrequest) (.trans
        (reads_shift 9 26 rfl (by decide) rfl) (.trans
        (reads_reduce [_, _] 26 10 13 (.thing x) rfl (by decide) rfl rfl hdefine rfl)
        (reads_reduce [_] 13 8 _ (.thing x) rfl (by decide) rfl rfl rfl rfl)))) ?_
      simp only [List.length_cons, List.length_nil, Stmt.height]
      omega
  | var stale name =>
      cases h
      refine .cast (.trans
        (reads_shift _ 10 rfl hnot hvar) (.trans
        (reads_shift 10 27 rfl (by decide) rfl) (.trans
        (reads_reduce [_, _] 27 11 13 (.thing x) rfl (by decide) rfl rfl hdefine rfl)
        (reads_reduce [_] 13 8 _ (.thing x) rfl (by decide) rfl rfl rfl rfl)))) ?_
      simp only [List.length_cons, List.length_nil, Stmt.height]
      omega
  | paren s =>
      have hnot' : 11 = 11 → s.isName → 13 ≠ 13 := fun _ hs => by simp [hshifted.1] at hs
      simp only [Stmt.word, List.append_assoc, List.cons_append, List.nil_append]
      refine .cast (.trans
        (reads_shift _ 11 rfl hnot hparen) (.trans
        (s.leads (q := 11) (by decide) rfl (by show 13 ∈ [11, 13, 15]; decide) hnot'
          hshifted.2 h) (.trans
        (reads_shift 29 41 rfl (by decide) rfl)
        (reads_reduce [_, _, _] 41 7 _ (.thing x) rfl (by decide) rfl rfl rfl rfl)))) ?_
      simp only [List.length_cons, List.length_nil, Stmt.height]
      omega
  | set dst e =>
      obtain ⟨⟨d, script₁⟩, hcompile, hrest⟩ := ok_of_bind h
      obtain ⟨⟨y, script₂⟩, hsource, hend⟩ := ok_of_bind hrest
      cases hend
      have hpos := e.height_pos
      simp only [Stmt.word, List.append_assoc, List.cons_append]
      refine .cast (.trans
        (dst.leads hstart rfl (by show 14 ∈ [11, 13, 14, 15, 19]; decide)
          (fun _ _ => by show 14 ≠ 13; decide) hcompile) (.trans
        (reads_shift 15 31 hdst (by decide) rfl) (.trans
        (e.leads (q := 31) (by decide) rfl hfollow hsource) (.trans
        (reads_reduce [_, _, _] 42 12 14 (.thing x) rfl (by decide) rfl rfl haction rfl)
        (reads_reduce [_] 14 9 _ (.thing x) rfl (by decide) rfl rfl rfl rfl))))) ?_
      simp only [List.length_cons, List.length_nil, Stmt.height]
      omega
  | expr e =>
      obtain ⟨⟨y, script₁⟩, hcompile, hend⟩ := ok_of_bind h
      cases hend
      have hpos := e.height_pos
      cases e with
      | call name args =>
          refine .cast (.trans
            (call_leads name args.leads hstart rfl hcompile) (.trans
            (reads_reduce [_] 18 13 14 (.thing x) hfunction (by decide) rfl rfl
              haction rfl)
            (reads_reduce [_] 14 9 _ (.thing x) rfl (by decide) rfl rfl rfl rfl))) ?_
          simp only [List.length_cons, List.length_nil, Stmt.height]
          omega
      | constant type string =>
          refine .cast (.trans
            (constant_leads type string hstart rfl hcompile) (.trans
            (reads_reduce [_] 17 14 14 (.thing x) hany (by decide) rfl rfl haction rfl)
            (reads_reduce [_] 14 9 _ (.thing x) rfl (by decide) rfl rfl rfl rfl))) ?_
          simp only [List.length_cons, List.length_nil, Stmt.height, Expr.height]
          omega
      | target t =>
          have hmem : Lr.lookahead (actions conv) ts ∈ [11, 13, 14, 15, 19] := by
            simp only [List.mem_cons, List.not_mem_nil, or_false] at hts ⊢
            omega
          refine .cast (.trans
            (t.leads hstart rfl hmem hname hcompile) (.trans
            (reads_reduce [_] 15 23 17 (.thing x) hdst (by decide) (dst_reduces _ hts)
              rfl hany rfl) (.trans
            (reads_reduce [_] 17 14 14 (.thing x) rfl (by decide) rfl rfl haction rfl)
            (reads_reduce [_] 14 9 _ (.thing x) rfl (by decide) rfl rfl rfl rfl)))) ?_
          simp only [List.length_cons, List.length_nil, Stmt.height, Expr.height]
            at hpos ⊢
          omega
  | condition negated stale s block =>
      obtain ⟨⟨y, script₁⟩, hcompile, hrest⟩ := ok_of_bind h
      obtain ⟨script₂, hblock, hrest⟩ := ok_of_bind hrest
      obtain ⟨⟨b, script₃⟩, hleave, hend⟩ := ok_of_bind hrest
      cases hend
      have hbrace : Lr.lookahead (actions conv)
          (.lbrace :: (Stmt.wordAll block ++ .rbrace :: ts)) ∈ [11, 13, 15] := by
        show 15 ∈ [11, 13, 15]
        decide
      have hclose : Lr.lookahead (actions conv) (.rbrace :: ts) ∈ [0, 16] := by
        show 16 ∈ [0, 16]
        decide
      simp only [Stmt.word, List.append_assoc, List.cons_append, List.nil_append]
      cases negated with
      | false =>
          refine .cast (.trans
            (reads_shift _ 6 rfl hnot hif) (.trans
            (s.leads (q := 6) (by decide) rfl hbrace (fun h => absurd h (by decide))
              hshifted.1 hcompile) (.trans
            (reads_shift 22 32 rfl (by decide) rfl) (.trans
            (block_leads (Stmt.leadsAll block) (by show 32 ∈ [0, 32, 33]; decide)
              hclose hshifted.2 hblock hleave) (.trans
            (reads_shift 43 50 rfl (by decide) rfl) (.trans
            (reads_reduce [_, _, _, _, _] 50 15 14 (.thing x) rfl (by decide) rfl rfl
              haction rfl)
            (reads_reduce [_] 14 9 _ (.thing x) rfl (by decide) rfl rfl rfl rfl))))))) ?_
          simp only [List.length_cons, List.length_nil, Stmt.height]
          omega
      | true =>
          refine .cast (.trans
            (reads_shift _ 7 rfl hnot hifnot) (.trans
            (s.leads (q := 7) (by decide) rfl hbrace (fun h => absurd h (by decide))
              hshifted.1 hcompile) (.trans
            (reads_shift 23 33 rfl (by decide) rfl) (.trans
            (block_leads (Stmt.leadsAll block) (by show 33 ∈ [0, 32, 33]; decide)
              hclose hshifted.2 hblock hleave) (.trans
            (reads_shift 44 51 rfl (by decide) rfl) (.trans
            (reads_reduce [_, _, _, _, _] 51 16 14 (.thing x) rfl (by decide) rfl rfl
              haction rfl)
            (reads_reduce [_] 14 9 _ (.thing x) rfl (by decide) rfl rfl rfl rfl))))))) ?_
          simp only [List.length_cons, List.length_nil, Stmt.height]
          omega

theorem Stmt.leadsAll (block : List Stmt) : ReadAll conv block := by
  intro stack ts script script' script₁ b hts hshifted h hleave
  cases block with
  | nil =>
      cases h
      exact .cast (reads_reduce [_, _] 5 4 _ (.block b) rfl (by decide)
        (block_ends _ hts) rfl rfl (map_ok Value.block hleave)) (Nat.add_comm ..)
  | cons s rest =>
      obtain ⟨⟨x, script₂⟩, hcompile, hrest⟩ := ok_of_bind h
      simp only [Stmt.wordAll, List.append_assoc, List.cons_append]
      refine .cast (.trans
        (s.leads (q := 5) (by decide) rfl (by show 11 ∈ [11, 13, 15]; decide)
          (fun h => absurd h (by decide)) hshifted.1 hcompile) (.trans
        (reads_shift 12 30 rfl (by decide) rfl) (.trans
        (reads_reduce [_, _, _] 30 6 5 .none rfl (by decide) rfl rfl rfl rfl)
        (Stmt.leadsAll rest hts hshifted.2 hrest hleave)))) ?_
      simp only [List.length_cons, List.length_nil, Stmt.heightAll]
      omega

end

/-! ## Scripts -/

/-- The whole script, and the end of its tokens. -/
theorem script_leads {block : List Stmt} (hshifted : Stmt.AllShifted block)
    (h : compileScript conv block = .ok script) :
    Reads conv ⟨[], Stmt.wordAll block, Script.empty⟩
      ⟨[(4, .none), (1, .none)], [], script⟩ (2 + Stmt.heightAll block) := by
  obtain ⟨script₁, hcompile, hrest⟩ := ok_of_bind h
  obtain ⟨⟨b, script₂⟩, hleave, hend⟩ := ok_of_bind hrest
  cases hend
  have hend : Lr.lookahead (actions conv) [] ∈ [0, 16] := by
    show 0 ∈ [0, 16]
    decide
  have hblock : Reads conv ⟨[], Stmt.wordAll block ++ [], Script.empty⟩
      ⟨[(2, .block b)], [], script₂⟩ _ :=
    block_leads (Stmt.leadsAll block) (by decide) hend hshifted hcompile hleave
  rw [List.append_nil] at hblock
  have hstart : Reads conv ⟨[(2, .block b)], [], script₂⟩
      ⟨[(4, .none), (1, .none)], [], { script₂ with main := [b] }⟩ 1 :=
    .trans (reads_reduce [_] 2 2 1 .none rfl (by decide) rfl rfl rfl rfl)
      (.single (A := actions conv) rfl)
  refine .cast (hblock.trans hstart) ?_
  simp only [List.length_nil]
  omega

/-- **What the parser accepts**, and with which script. -/
theorem accepts_iff :
    Returns (fun n => Lr.parse tables (actions conv) n ⟨[], ts, Script.empty⟩)
      (.accept script) ↔
      ∃ block, Stmt.wordAll block = ts ∧ Stmt.AllShifted block ∧
      compileScript conv block = .ok script ∧
        Stmt.heightAll block + 3 < 10000 := by
  constructor
  · rintro ⟨n, hn⟩
    obtain ⟨block, hword, hshifted, hcompile⟩ := exists_stmts (hn n le_rfl)
    refine ⟨block, hword, hshifted, hcompile, ?_⟩
    by_contra hheight
    have hleads := script_leads hshifted hcompile
    rw [hword] at hleads
    have hexhausted := Lr.exhausted_of_leads hleads
      (by show 10000 ≤ 2 + Stmt.heightAll block + 1; omega) (by decide)
    have hresult := Returns.unique ⟨n, hn⟩ hexhausted
    cases hresult
  · rintro ⟨block, rfl, hshifted, hcompile, hheight⟩
    refine Lr.returns_of_leads (script_leads hshifted hcompile) ?_ ?_
    · show 2 + Stmt.heightAll block + 1 < 10000
      omega
    · exact Lr.parse_accept rfl rfl (by show 3 < 10000; decide)

theorem parsed_eq_script {r : Lr.Result (Script γ) Reject} :
    parsed r = .script script ↔ r = .accept script := by
  cases r with
  | accept s => simp [parsed]
  | abort => simp [parsed]
  | reject e => cases e <;> simp [parsed]
  | exhausted => simp [parsed]

/-- **`rewrite_script_parse` takes** the texts whose tokens are statements that compile,
are not nested too deep, and have no name alone in parentheses. -/
theorem rewriteScriptParse_script {junk : Nat → Thing} {string : List UInt8} :
    Returns (fun n => rewriteScriptParse conv junk n string) (.script script) ↔
      ∃ block, Stmt.wordAll block = lex junk (string.takeWhile (· ≠ 0)) ∧
      Stmt.AllShifted block ∧
        compileScript conv block = .ok script ∧ Stmt.heightAll block + 3 < 10000 := by
  rw [← accepts_iff]
  exact returns_map_iff fun _ => parsed_eq_script

/-! ## The end -/

/-- How long a state can go on without a token. -/
def rank (q : Nat) : Nat :=
  [5, 0, 1, 3, 0, 1, 0, 0, 5, 0,
   0, 0, 0, 1, 1, 3, 3, 2, 2, 4,
   4, 4, 0, 0, 2, 0, 1, 1, 5, 0,
   0, 0, 5, 5, 0, 2, 1, 4, 0, 0,
   0, 0, 0, 0, 0, 0, 2, 0, 2, 2,
   0, 0, 0].getD q 0

theorem descends_tables : Lr.descends tables automaton 1 5 rank := by
  have descends_1 : ∀ q < 14, q ≠ 4 → ∀ a < 20,
      Lr.descendsAct tables automaton 1 5 rank q a := by decide +kernel
  have descends_2 : ∀ q < 27, 14 ≤ q → ∀ a < 20,
      Lr.descendsAct tables automaton 1 5 rank q a := by decide +kernel
  have descends_3 : ∀ q < 40, 27 ≤ q → ∀ a < 20,
      Lr.descendsAct tables automaton 1 5 rank q a := by decide +kernel
  have descends_4 : ∀ q < 53, 40 ≤ q → ∀ a < 20,
      Lr.descendsAct tables automaton 1 5 rank q a := by decide +kernel
  simp only [Lr.descends, List.all_eq_true, List.mem_range, Bool.or_eq_true, beq_iff_eq]
  intro q hq
  by_cases hfinal : q = 4
  · exact .inl hfinal
  refine .inr fun a ha => ?_
  rcases Nat.lt_or_ge q 14 with h₁ | h₁
  · exact descends_1 q h₁ hfinal a ha
  rcases Nat.lt_or_ge q 27 with h₂ | h₂
  · exact descends_2 q h₂ h₁ a ha
  rcases Nat.lt_or_ge q 40 with h₃ | h₃
  · exact descends_3 q h₃ h₂ a ha
  · exact descends_4 q hq h₃ a ha

theorem lexAux_length (junk : Nat → Thing) (n : Nat) (text : List UInt8) :
    (lexAux junk n text).length ≤ n := by
  induction n generalizing text with
  | zero => exact le_rfl
  | succ n ih =>
      cases text with
      | nil => exact Nat.zero_le _
      | cons b bs =>
          rw [lexAux]
          split
          · exact Nat.succ_le_succ (ih _)
          · exact (ih _).trans (Nat.le_succ n)
          · exact Nat.zero_le _

/-- **`rewrite_script_parse` ends** on every text, after a number of turns that
its length bounds. -/
theorem rewriteScriptParse_ends (conv : Conversions τ γ) (junk : Nat → Thing)
    (string : List UInt8) :
    ∃ r, ∀ n, 7 * (string.length + 1) ≤ n →
      rewriteScriptParse conv junk n string = .ok r := by
  have hlength : (lex junk (string.takeWhile (· ≠ 0))).length ≤ string.length :=
    (lexAux_length _ _ _).trans (List.takeWhile_sublist _).length_le
  have hstart := Lr.holds_start (A := actions conv) certified
      (lex junk (string.takeWhile (· ≠ 0))) Script.empty
    (by decide)
  obtain ⟨r, hr⟩ := Lr.parse_returns certified descends_tables hstart le_rfl
  refine ⟨parsed r, fun n hn => ?_⟩
  have hturns : Lr.turns 1 5 rank
      (⟨[], lex junk (string.takeWhile (· ≠ 0)), Script.empty⟩ :
      Lr.Config Token Value (Script γ)) + 2 ≤ n := by
    show (1 + 5 + 1) * (lex junk (string.takeWhile (· ≠ 0))).length + 1 * 0 + 5 + 2 ≤ n
    omega
  rw [rewriteScriptParse, Lr.parse_mono hr hturns]
  rfl

end

end Frozen.Rewrite
