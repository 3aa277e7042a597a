/-
# `Frozen.Lib.Lr` — parsers with a stack of states

A generated parser keeps a stack of states with a value each.  A table says at a state
and a symbol whether the next token goes on the stack, or the values of a rule come off
it and make one; what they make, and what that does to the state of the caller, is left
to the actions.

Which words such a parser takes is a matter of its tables alone.  If every path of
states that ends in a reduction spells the right side of its rule, which is a finite
check, then the stack spells what has been read, in every run.

    Leads              a run that goes on, with the deepest stack on the way
    returns_of_leads   what the parser returns from its end it returns from its start
    certify            the check of the tables
    accept_symbols     what is accepted is spelled by symbols, and is what they make
    parse_returns      the parser ends, after a number of turns that the tokens bound
-/
import Frozen.Lib.Fuel

namespace Frozen.Lib.Lr

/-! ## The parser -/

/-- What a table says. -/
inductive Act where
  | shift (state : Nat)
  | reduce (rule : Nat)
  | error
deriving DecidableEq

/-- `action` at a state and a symbol, 0 for the end; `goto` from the
state under a rule. -/
structure Tables where
  action : Nat → Nat → Act
  goto : Nat → Nat → Nat
  arity : Nat → Nat
  final : Nat
  maxDepth : Nat

/-- Tokens, their values, and what the rules make of the values of their symbols, the
last one first. -/
structure Actions (τ υ σ ε : Type) where
  symbol : τ → Nat
  value : Option τ → υ
  reduce : Nat → List υ → σ → Except ε (υ × σ)

/-- The stack without the state 0 at its bottom, the last symbol first. -/
structure Config (τ υ σ : Type) where
  stack : List (Nat × υ)
  input : List τ
  state : σ

inductive Result (σ ε : Type) where
  | accept (s : σ)
  | abort
  | reject (e : ε)
  | exhausted

def topState {α : Type} (stack : List (Nat × α)) : Nat :=
  (stack.head?.map Prod.fst).getD 0

section

variable {τ υ σ ε : Type} (T : Tables) (A : Actions τ υ σ ε)

def lookahead : List τ → Nat
  | [] => 0
  | t :: _ => A.symbol t

/-- One turn of the loop, behind the check of the depth. -/
def advance (c : Config τ υ σ) : Except (Result σ ε) (Config τ υ σ) :=
  if topState c.stack = T.final then .error (.accept c.state)
  else
    match T.action (topState c.stack) (lookahead A c.input) with
    | .error => .error .abort
    | .shift state =>
        .ok ⟨(state, A.value c.input.head?) :: c.stack, c.input.tail, c.state⟩
    | .reduce rule =>
        match A.reduce rule ((c.stack.take (T.arity rule)).map Prod.snd) c.state with
        | .error e => .error (.reject e)
        | .ok (v, s) =>
            let below := c.stack.drop (T.arity rule)
            .ok ⟨(T.goto (topState below) rule, v) :: below, c.input, s⟩

def parse : Nat → Config τ υ σ → Except OutOfFuel (Result σ ε)
  | 0, _ => .error .outOfFuel
  | n + 1, c =>
      if T.maxDepth ≤ c.stack.length + 1 then .ok .exhausted
      else
        match advance T A c with
        | .error r => .ok r
        | .ok c => parse n c

/-! ## Runs -/

/-- From one configuration to a later one; the number is the size of the largest stack
that the turns on the way have started with. -/
inductive Leads : Config τ υ σ → Config τ υ σ → Nat → Prop
  | refl (c : Config τ υ σ) : Leads c c 0
  | step {c c' c'' : Config τ υ σ} {p : Nat} :
      advance T A c = .ok c' → Leads c' c'' p → Leads c c'' (max c.stack.length p)

end

section

variable {τ υ σ ε : Type} {T : Tables} {A : Actions τ υ σ ε} {c c' c'' : Config τ υ σ}
  {p p' : Nat}

theorem Leads.single (h : advance T A c = .ok c') : Leads T A c c' c.stack.length := by
  simpa using Leads.step h (.refl c')

theorem Leads.cast (h : Leads T A c c' p) (hp : p = p') : Leads T A c c' p' := hp ▸ h

/-- A token goes on the stack. -/
theorem Leads.shift {stack : List (Nat × υ)} {t : τ} {ts : List τ} {s : σ} {q : Nat}
    (hnot : topState stack ≠ T.final)
    (h : T.action (topState stack) (A.symbol t) = .shift q) :
    Leads T A ⟨stack, t :: ts, s⟩ ⟨(q, A.value (some t)) :: stack, ts, s⟩
      stack.length := by
  refine .single ?_
  rw [advance, if_neg hnot]
  simp only [lookahead, h, List.head?_cons, List.tail_cons]

/-- The values of a rule come off it. -/
theorem Leads.reduce (top : List (Nat × υ)) {below : List (Nat × υ)} {ts : List τ}
    {s s' : σ} {r : Nat} {v : υ} (hnot : topState (top ++ below) ≠ T.final)
    (h : T.action (topState (top ++ below)) (lookahead A ts) = .reduce r)
    (hlen : top.length = T.arity r) (hv : A.reduce r (top.map Prod.snd) s = .ok (v, s')) :
    Leads T A ⟨top ++ below, ts, s⟩ ⟨(T.goto (topState below) r, v) :: below, ts, s'⟩
      (top.length + below.length) := by
  refine (Leads.single ?_).cast (List.length_append ..)
  rw [advance, if_neg hnot]
  simp only [h, ← hlen, List.take_left, List.drop_left, hv]

theorem Leads.trans (h : Leads T A c c' p) (h' : Leads T A c' c'' p') :
    Leads T A c c'' (max p p') := by
  induction h with
  | refl c => simpa using h'
  | step hstep _ ih =>
      rw [max_assoc]
      exact .step hstep (ih h')

theorem parse_advance {n : Nat} (hdepth : c.stack.length + 1 < T.maxDepth)
    (h : advance T A c = .ok c') : parse T A (n + 1) c = parse T A n c' := by
  rw [parse, if_neg (Nat.not_le.mpr hdepth), h]

/-- A result stays. -/
theorem parse_mono {m n : Nat} {r : Result σ ε} (h : parse T A m c = .ok r)
    (hmn : m ≤ n) : parse T A n c = .ok r := by
  induction m generalizing c n with
  | zero => cases h
  | succ m ih =>
      obtain ⟨k, rfl, hk⟩ := exists_fuel hmn
      rw [parse] at h ⊢
      by_cases hdepth : T.maxDepth ≤ c.stack.length + 1
      · rwa [if_pos hdepth] at h ⊢
      · rw [if_neg hdepth] at h ⊢
        cases hstep : advance T A c with
        | error r' => rwa [hstep] at h
        | ok c' =>
            rw [hstep] at h
            exact ih h hk

/-- As long as the stack has room, the parser returns what it returns later. -/
theorem returns_of_leads {r : Result σ ε} (h : Leads T A c c' p) (hp : p + 1 < T.maxDepth)
    (hr : Returns (fun n => parse T A n c') r) : Returns (fun n => parse T A n c) r := by
  induction h with
  | refl c => exact hr
  | step hstep _ ih =>
      refine .of_succ ?_
      have hdepth := lt_of_le_of_lt (Nat.succ_le_succ (le_max_left _ _)) hp
      have hrest := lt_of_le_of_lt (Nat.succ_le_succ (le_max_right _ _)) hp
      simpa only [parse_advance hdepth hstep] using ih hrest hr

/-- And else it runs out of it. -/
theorem exhausted_of_leads (h : Leads T A c c' p) (hp : T.maxDepth ≤ p + 1)
    (hpos : 1 < T.maxDepth) : Returns (fun n => parse T A n c) .exhausted := by
  induction h with
  | refl c => omega
  | @step c c₁ c₂ p hstep _ ih =>
      refine .of_succ ?_
      by_cases hdepth : c.stack.length + 1 < T.maxDepth
      · have hrest : T.maxDepth ≤ p + 1 := by
          rcases max_cases c.stack.length p with ⟨heq, _⟩ | ⟨heq, _⟩ <;> omega
        simpa only [parse_advance hdepth hstep] using ih hrest
      · exact .of_forall fun n => by rw [parse, if_pos (Nat.not_lt.mp hdepth)]

theorem parse_accept {s : σ} (hfinal : topState c.stack = T.final) (hs : c.state = s)
    (hdepth : c.stack.length + 1 < T.maxDepth) :
    Returns (fun n => parse T A n c) (.accept s) := by
  refine .of_succ (.of_forall fun n => ?_)
  rw [parse, if_neg (Nat.not_le.mpr hdepth), advance, if_pos hfinal, hs]

end

/-! ## Symbols -/

/-- Symbols of a grammar: a kind each, a word, and what the actions make of them. -/
structure Symbols (τ υ σ ε S : Type) where
  leaf : Option τ → S
  /-- what a rule makes of its symbols, the last one first -/
  node : Nat → List S → S → Prop
  kind : S → Nat
  word : S → List τ
  eval : S → σ → Except ε (υ × σ)

section

variable {τ υ σ ε S : Type} (G : Symbols τ υ σ ε S)

/-- Symbols one after the other. -/
def Symbols.evalAll : List S → σ → Except ε (List υ × σ)
  | [], s => .ok ([], s)
  | x :: rest, s => do
      let (v, s) ← G.eval x s
      let (vs, s) ← Symbols.evalAll rest s
      .ok (v :: vs, s)

theorem Symbols.evalAll_append (xs ys : List S) (s : σ) :
    G.evalAll (xs ++ ys) s = (G.evalAll xs s).bind fun r =>
      (G.evalAll ys r.2).map fun r' => (r.1 ++ r'.1, r'.2) := by
  induction xs generalizing s with
  | nil =>
      simp only [List.nil_append, evalAll, Except.bind]
      cases G.evalAll ys s <;> rfl
  | cons x xs ih =>
      simp only [List.cons_append, evalAll, bind, Except.bind]
      cases G.eval x s with
      | error e => rfl
      | ok r =>
          simp only [ih]
          cases G.evalAll xs r.2 with
          | error e => rfl
          | ok r' =>
              simp only [Except.bind]
              cases G.evalAll ys r'.2 <;> rfl

theorem Symbols.evalAll_length {xs : List S} {s s' : σ} {vs : List υ}
    (h : G.evalAll xs s = .ok (vs, s')) : vs.length = xs.length := by
  induction xs generalizing s vs with
  | nil =>
      cases h
      rfl
  | cons x xs ih =>
      obtain ⟨⟨v, s₁⟩, -, h⟩ := ok_of_bind h
      obtain ⟨⟨ws, s₂⟩, hrest, h⟩ := ok_of_bind h
      cases h
      rw [List.length_cons, List.length_cons, ih hrest]

/-- The values of two words are those of the first and those of the second. -/
theorem Symbols.evalAll_split {xs ys : List S} {vs ws : List υ} {s s' : σ}
    (hlen : vs.length = xs.length) (h : G.evalAll (xs ++ ys) s = .ok (vs ++ ws, s')) :
    ∃ s₁, G.evalAll xs s = .ok (vs, s₁) ∧ G.evalAll ys s₁ = .ok (ws, s') := by
  rw [G.evalAll_append] at h
  obtain ⟨⟨vs', s₁⟩, hxs, h⟩ := ok_of_bind h
  cases hys : G.evalAll ys s₁ with
  | error e => simp [hys, Except.map] at h
  | ok r =>
      simp only [hys, Except.map, Except.ok.injEq, Prod.mk.injEq] at h
      obtain ⟨happend, rfl⟩ := h
      have hlen' := G.evalAll_length hxs
      obtain ⟨rfl, rfl⟩ := List.append_inj happend (hlen'.trans hlen.symm)
      exact ⟨s₁, hxs, hys⟩

/-- The rules put words together, and their actions are those of the parser. -/
structure Symbols.Agrees (A : Actions τ υ σ ε) : Prop where
  leaf_kind : ∀ t, G.kind (G.leaf t) = (t.map A.symbol).getD 0
  leaf_word : ∀ t, G.word (G.leaf t) = t.toList
  leaf_eval : ∀ t s, G.eval (G.leaf t) s = .ok (A.value t, s)
  node_word : ∀ rule xs x, G.node rule xs x → G.word x = xs.reverse.flatMap G.word
  node_eval : ∀ rule xs x s, G.node rule xs x →
    G.eval x s = (G.evalAll xs.reverse s).bind fun r => A.reduce rule r.1.reverse r.2

end

/-! ## Tables -/

/-- The symbol that leads to a state, the states that it is reached
from, and the rules. -/
structure Automaton where
  states : Nat
  symbols : Nat
  symbolOf : Nat → Nat
  preds : Nat → List Nat
  isRule : Nat → Bool
  lhs : Nat → Nat
  rhs : Nat → List Nat

/-- All paths to a state spell the symbols, the last one first, and start
where `good` holds. -/
def Automaton.spells (M : Automaton) (good : Nat → Bool) : List Nat → Nat → Bool
  | [], q => good q
  | k :: ks, q => q != 0 && M.symbolOf q == k && (M.preds q).all (M.spells good ks)

/-- A state can follow another one. -/
def Automaton.edge (M : Automaton) (q q' : Nat) : Bool :=
  q' < M.states && (M.preds q').contains q

/-- What a table says at a state and a symbol is right. -/
def certifyAct (T : Tables) (M : Automaton) (q a : Nat) : Bool :=
  match T.action q a with
  | .error => true
  | .shift q' => M.edge q q' && M.symbolOf q' == a && (q' != T.final || a == 0)
  | .reduce r =>
      M.isRule r && T.arity r == (M.rhs r).length &&
        M.spells (fun p => M.edge p (T.goto p r) && M.symbolOf (T.goto p r)
          == M.lhs r && T.goto p r != T.final) (M.rhs r).reverse q

/-- In its final state the parser does not ask the table. -/
def certify (T : Tables) (M : Automaton) : Bool :=
  (List.range M.states).all fun q =>
    q == T.final || (List.range M.symbols).all fun a => certifyAct T M q a

section

variable {τ υ σ ε S : Type} {T : Tables} {M : Automaton} {A : Actions τ υ σ ε}
  {G : Symbols τ υ σ ε S}

/-- A stack with symbols is a path from the state 0. -/
def Linked (M : Automaton) (G : Symbols τ υ σ ε S) : List (Nat × S) → Prop
  | [] => True
  | (q, x) :: below => G.kind x = M.symbolOf q ∧ M.edge (topState below) q ∧
      Linked M G below

theorem Linked.drop {l : List (Nat × S)} (h : Linked M G l) (k : Nat) :
    Linked M G (l.drop k) := by
  induction k generalizing l with
  | zero => exact h
  | succ k ih =>
      cases l with
      | nil => trivial
      | cons a l => exact ih h.2.2

theorem Linked.topState_lt {l : List (Nat × S)} (h : Linked M G l) (hpos : 0 < M.states) :
    topState l < M.states := by
  cases l with
  | nil => exact hpos
  | cons a l =>
      have hedge := h.2.1
      simp only [Automaton.edge, Bool.and_eq_true, decide_eq_true_eq] at hedge
      exact hedge.1

/-- The top of a stack spells what all paths to its state spell. -/
theorem Linked.spells {good : Nat → Bool} {ks : List Nat} {l : List (Nat × S)}
    (h : Linked M G l) (hspells : M.spells good ks (topState l)) :
    (l.take ks.length).map (fun a => G.kind a.2) = ks ∧
      good (topState (l.drop ks.length)) := by
  induction ks generalizing l with
  | nil => exact ⟨rfl, hspells⟩
  | cons k ks ih =>
      simp only [Automaton.spells, Bool.and_eq_true, bne_iff_ne, beq_iff_eq,
        List.all_eq_true] at hspells
      obtain ⟨⟨hne, hsymbol⟩, hpreds⟩ := hspells
      cases l with
      | nil => exact absurd rfl hne
      | cons a below =>
          obtain ⟨hkind, hedge, hbelow⟩ := h
          simp only [Automaton.edge, Bool.and_eq_true, List.contains_iff_mem] at hedge
          obtain ⟨htake, hgood⟩ := ih hbelow (hpreds _ hedge.2)
          refine ⟨?_, hgood⟩
          rw [List.length_cons, List.take_succ_cons, List.map_cons, htake, hkind]
          exact congrArg (· :: ks) hsymbol

/-! ## Every run -/

/-- What has been read is the word of a path of symbols, and the values
are what they make. -/
structure Holds (T : Tables) (M : Automaton) (G : Symbols τ υ σ ε S)
    (P : List (Nat × S) → List τ → Prop) (input : List τ) (s₀ : σ) (c : Config τ υ σ)
    (l : List (Nat × S)) : Prop where
  states : l.map Prod.fst = c.stack.map Prod.fst
  linked : Linked M G l
  word : (l.reverse.map Prod.snd).flatMap G.word ++ c.input = input
  eval : G.evalAll (l.reverse.map Prod.snd) s₀
    = .ok (c.stack.reverse.map Prod.snd, c.state)
  final : topState c.stack = T.final → c.input = []
  keeps : P l c.input

theorem topState_congr {α β : Type} {l : List (Nat × α)} {m : List (Nat × β)}
    (h : l.map Prod.fst = m.map Prod.fst) : topState l = topState m := by
  have hhead := congrArg List.head? h
  rw [List.head?_map, List.head?_map] at hhead
  rw [topState, topState, hhead]

/-- What the parser and its grammar are asked for, and what every turn keeps of the
symbols on the stack and the tokens behind them. -/
structure Certified (T : Tables) (M : Automaton) (A : Actions τ υ σ ε)
    (G : Symbols τ υ σ ε S) (P : List (Nat × S) → List τ → Prop) : Prop where
  tables : certify T M
  states_pos : 0 < M.states
  symbols_pos : 0 < M.symbols
  symbol : ∀ t, A.symbol t ≠ 0 ∧ A.symbol t < M.symbols
  agrees : G.Agrees A
  start : ∀ ts, P [] ts
  shift : ∀ l ts q, Linked M G l → P l ts →
  T.action (topState l) (lookahead A ts) = .shift q →
    M.symbolOf q = lookahead A ts → P ((q, G.leaf ts.head?) :: l) ts.tail
  /-- the grammar makes a symbol of whatever a rule has on its right side -/
  reduce : ∀ l ts r, Linked M G l → P l ts →
  T.action (topState l) (lookahead A ts) = .reduce r →
    M.isRule r → (l.take (T.arity r)).map (fun a => G.kind a.2) = (M.rhs r).reverse →
    ∃ x, G.node r ((l.take (T.arity r)).map Prod.snd) x ∧ G.kind x = M.lhs r ∧
      P ((T.goto (topState (l.drop (T.arity r))) r, x) :: l.drop (T.arity r)) ts

variable {P : List (Nat × S) → List τ → Prop} {input : List τ} {s₀ : σ}
  {c c' : Config τ υ σ} {l : List (Nat × S)}

theorem Certified.lookahead_lt (h : Certified T M A G P) (ts : List τ) :
    lookahead A ts < M.symbols := by
  cases ts with
  | nil => exact h.symbols_pos
  | cons t ts => exact (h.symbol t).2

theorem Certified.act (h : Certified T M A G P) {q : Nat} (hq : q < M.states)
    (hfinal : q ≠ T.final) (ts : List τ) : certifyAct T M q (lookahead A ts) := by
  have htables := h.tables
  simp only [certify, List.all_eq_true, List.mem_range, Bool.or_eq_true, beq_iff_eq]
    at htables
  exact (htables q hq).resolve_left hfinal _ (h.lookahead_lt ts)

/-- A token goes on the stack. -/
theorem Holds.shift (hcert : Certified T M A G P) (h : Holds T M G P input s₀ c l)
    {q : Nat} (hnot : topState l ≠ T.final)
    (hshift : T.action (topState l) (lookahead A c.input) = .shift q) :
    Holds T M G P input s₀ ⟨(q, A.value c.input.head?) :: c.stack, c.input.tail, c.state⟩
      ((q, G.leaf c.input.head?) :: l) := by
  have hact := hcert.act (h.linked.topState_lt hcert.states_pos) hnot c.input
  simp only [certifyAct, hshift, Bool.and_eq_true, beq_iff_eq, Bool.or_eq_true,
    bne_iff_ne, ne_eq] at hact
  obtain ⟨⟨hedge, hsymbol⟩, hend⟩ := hact
  have hkind : G.kind (G.leaf c.input.head?) = lookahead A c.input := by
    rw [hcert.agrees.leaf_kind]
    cases c.input <;> rfl
  constructor
  · simp [h.states]
  · exact ⟨hkind.trans hsymbol.symm, hedge, h.linked⟩
  · rw [← h.word]
    simp only [List.reverse_cons, List.map_append, List.map_cons, List.map_nil,
      List.flatMap_append, List.flatMap_cons, List.flatMap_nil, List.append_nil,
      List.append_assoc, hcert.agrees.leaf_word]
    cases c.input <;> rfl
  · simp only [List.reverse_cons, List.map_append, List.map_cons, List.map_nil]
    rw [G.evalAll_append, h.eval]
    simp [Except.bind, Except.map, Symbols.evalAll, hcert.agrees.leaf_eval, bind]
  · intro hfinal
    have hzero := hend.resolve_left (not_not.mpr hfinal)
    cases hinput : c.input with
    | nil => rfl
    | cons t ts =>
        rw [hinput] at hzero
        exact absurd hzero (hcert.symbol t).1
  · exact hcert.shift l c.input q h.linked h.keeps hshift hsymbol

/-- The symbols of a rule make one. -/
theorem Holds.reduce (hcert : Certified T M A G P) (h : Holds T M G P input s₀ c l)
    {r : Nat} {v : υ} {s : σ} (hnot : topState l ≠ T.final)
    (hreduce : T.action (topState l) (lookahead A c.input) = .reduce r)
    (hv : A.reduce r ((c.stack.take (T.arity r)).map Prod.snd) c.state = .ok (v, s)) :
    ∃ l', Holds T M G P input s₀
      ⟨(T.goto (topState (c.stack.drop (T.arity r))) r, v) :: c.stack.drop (T.arity r),
        c.input, s⟩ l' := by
  have hact := hcert.act (h.linked.topState_lt hcert.states_pos) hnot c.input
  simp only [certifyAct, hreduce, Bool.and_eq_true, beq_iff_eq] at hact
  obtain ⟨⟨hrule, harity⟩, hspells⟩ := hact
  obtain ⟨hkinds, hgood⟩ := h.linked.spells hspells
  rw [List.length_reverse, ← harity] at hkinds hgood
  simp only [Bool.and_eq_true, beq_iff_eq, bne_iff_ne, ne_eq] at hgood
  obtain ⟨⟨hedge, hsymbol⟩, hfinal⟩ := hgood
  obtain ⟨x, hx, hkind, hkeeps⟩ :=
    hcert.reduce l c.input r h.linked h.keeps hreduce hrule hkinds
  have hbelow : topState (l.drop (T.arity r)) = topState (c.stack.drop (T.arity r)) := by
    apply topState_congr
    rw [List.map_drop, List.map_drop, h.states]
  have hlength : l.length = c.stack.length := by simpa using congrArg List.length h.states
  -- what is under the rule has made the state in which its symbols start
  have hsplit : ∃ s₁, G.evalAll ((l.drop (T.arity r)).reverse.map Prod.snd) s₀ =
        .ok ((c.stack.drop (T.arity r)).reverse.map Prod.snd, s₁) ∧
      G.evalAll ((l.take (T.arity r)).reverse.map Prod.snd) s₁ =
        .ok ((c.stack.take (T.arity r)).reverse.map Prod.snd, c.state) := by
    apply G.evalAll_split
    · simp [hlength]
    · rw [← List.map_append, ← List.map_append, ← List.reverse_append,
        ← List.reverse_append, List.take_append_drop, List.take_append_drop]
      exact h.eval
  obtain ⟨s₁, hunder, htop⟩ := hsplit
  have heval : G.eval x s₁ = .ok (v, s) := by
    rw [hcert.agrees.node_eval r _ x s₁ hx, ← List.map_reverse, htop]
    simpa [Except.bind] using hv
  refine ⟨(T.goto (topState (c.stack.drop (T.arity r))) r, x) :: l.drop (T.arity r),
    ?_, ?_, ?_, ?_, ?_, ?_⟩
  · simp [List.map_drop, h.states]
  · rw [hbelow] at hedge hsymbol
    exact ⟨hkind.trans hsymbol.symm, hbelow ▸ hedge, h.linked.drop _⟩
  · have hwords : l.reverse.map Prod.snd =
        (l.drop (T.arity r)).reverse.map Prod.snd ++ (l.take (T.arity r)).reverse.map
        Prod.snd := by
      rw [← List.map_append, ← List.reverse_append, List.take_append_drop]
    have hword := hcert.agrees.node_word r _ x hx
    rw [← List.map_reverse] at hword
    rw [← h.word, hwords]
    simp only [List.reverse_cons, List.map_append, List.map_cons, List.map_nil,
      List.flatMap_append, List.flatMap_cons, List.flatMap_nil, List.append_nil, hword]
  · simp only [List.reverse_cons, List.map_append, List.map_cons, List.map_nil]
    rw [G.evalAll_append, hunder]
    simp [Except.bind, Except.map, Symbols.evalAll, heval, bind]
  · intro htop
    rw [hbelow] at hfinal
    exact absurd htop hfinal
  · rw [← hbelow]
    exact hkeeps

/-- One turn of the parser. -/
theorem Holds.advance (hcert : Certified T M A G P) (h : Holds T M G P input s₀ c l)
    (hstep : advance T A c = .ok c') : ∃ l', Holds T M G P input s₀ c' l' := by
  have htop : topState l = topState c.stack := topState_congr h.states
  unfold Lr.advance at hstep
  rw [← htop] at hstep
  split at hstep
  · cases hstep
  · next hnot =>
    split at hstep
    · cases hstep
    · next hshift =>
        cases hstep
        exact ⟨_, h.shift hcert hnot hshift⟩
    · next hreduce =>
        split at hstep
        · cases hstep
        · next hv =>
            cases hstep
            exact h.reduce hcert hnot hreduce hv

/-- **What is accepted is spelled** by the symbols on a path to the final state, and the
state of the caller is what they make. -/
theorem accept_symbols (hcert : Certified T M A G P) {n : Nat} {s : σ}
    (h : Holds T M G P input s₀ c l) (hparse : parse T A n c = .ok (.accept s)) :
    ∃ l vs, Linked M G l ∧ P l [] ∧ topState l = T.final ∧
      (l.reverse.map Prod.snd).flatMap G.word = input ∧
      G.evalAll (l.reverse.map Prod.snd) s₀ = .ok (vs, s) := by
  induction n generalizing c l with
  | zero => cases hparse
  | succ n ih =>
      rw [parse] at hparse
      split at hparse
      · cases hparse
      · cases hstep : Lr.advance T A c with
        | ok c' =>
            rw [hstep] at hparse
            obtain ⟨l', h'⟩ := h.advance hcert hstep
            exact ih h' hparse
        | error r =>
            rw [hstep] at hparse
            obtain rfl := Except.ok.inj hparse
            unfold Lr.advance at hstep
            split at hstep
            · next hfinal =>
                cases hstep
                have hword := h.word
                have hkeeps := h.keeps
                rw [h.final hfinal] at hword hkeeps
                rw [List.append_nil] at hword
                exact ⟨l, _, h.linked, hkeeps, (topState_congr h.states).trans hfinal,
                  hword, h.eval⟩
            · split at hstep
              · cases hstep
              · cases hstep
              · split at hstep <;> cases hstep

theorem holds_start (hcert : Certified T M A G P) (input : List τ) (s₀ : σ)
    (hfinal : T.final ≠ 0) : Holds T M G P input s₀ ⟨[], input, s₀⟩ [] where
  states := rfl
  linked := trivial
  word := rfl
  eval := rfl
  final := fun h => absurd h.symm hfinal
  keeps := hcert.start input

end

/-! ## The end -/

/-- A reduction leads to a smaller stack or to a state of a lower rank; behind the end
of the tokens there is only the final state. -/
def descendsAct (T : Tables) (M : Automaton) (weight bound : Nat) (rank : Nat → Nat)
    (q a : Nat) : Bool :=
  match T.action q a with
  | .error => true
  | .shift q' => q' == T.final || (a != 0 && rank q' ≤ bound)
  | .reduce r =>
      M.spells (fun p => weight + rank (T.goto p r) < weight * T.arity r + rank q)
        (M.rhs r).reverse q

def descends (T : Tables) (M : Automaton) (weight bound : Nat)
    (rank : Nat → Nat) : Bool :=
  (List.range M.states).all fun q =>
    q == T.final || (List.range M.symbols).all fun a =>
      descendsAct T M weight bound rank q a

section

variable {τ υ σ ε S : Type} {T : Tables} {M : Automaton} {A : Actions τ υ σ ε}
  {G : Symbols τ υ σ ε S}
  {P : List (Nat × S) → List τ → Prop} {input : List τ} {s₀ : σ} {c c' : Config τ υ σ}
  {l : List (Nat × S)} {weight bound : Nat} {rank : Nat → Nat}

/-- What is left of the turns of a run. -/
def turns (weight bound : Nat) (rank : Nat → Nat) (c : Config τ υ σ) : Nat :=
  (weight + bound + 1) * c.input.length + weight * c.stack.length + rank
  (topState c.stack)

/-- One turn less, or the end. -/
theorem Holds.turns_advance (hcert : Certified T M A G P)
    (hdesc : descends T M weight bound rank) (h : Holds T M G P input s₀ c l)
    (hstep : Lr.advance T A c = .ok c') :
    turns weight bound rank c' < turns weight bound rank c ∨
      topState c'.stack = T.final := by
  have htop : topState l = topState c.stack := topState_congr h.states
  have hlength : l.length = c.stack.length := by simpa using congrArg List.length h.states
  unfold Lr.advance at hstep
  rw [← htop] at hstep
  split at hstep
  · cases hstep
  · next hnot =>
    have hlt := h.linked.topState_lt hcert.states_pos
    have hact : descendsAct T M weight bound rank (topState l) (lookahead A c.input) := by
      simp only [descends, List.all_eq_true, List.mem_range, Bool.or_eq_true,
        beq_iff_eq] at hdesc
      exact (hdesc _ hlt).resolve_left hnot _ (hcert.lookahead_lt c.input)
    unfold descendsAct at hact
    split at hstep
    · cases hstep
    · next hshift =>
        cases hstep
        simp only [hshift, Bool.or_eq_true, beq_iff_eq, Bool.and_eq_true,
          bne_iff_ne, ne_eq, decide_eq_true_eq] at hact
        rcases hact with hfinal | ⟨hne, hrank⟩
        · exact .inr hfinal
        · refine .inl ?_
          cases hinput : c.input with
          | nil => exact absurd (by rw [hinput]; rfl) hne
          | cons t ts =>
              simp only [turns, hinput, List.length_cons, List.tail_cons, topState,
                List.head?_cons, Option.map_some, Option.getD_some, Nat.mul_add]
              omega
    · next r hreduce =>
        split at hstep
        · cases hstep
        · next hv =>
            cases hstep
            simp only [hreduce] at hact
            have hrule := hcert.act hlt hnot c.input
            simp only [certifyAct, hreduce, Bool.and_eq_true, beq_iff_eq] at hrule
            obtain ⟨hkinds, hless⟩ := h.linked.spells hact
            rw [List.length_reverse, ← hrule.1.2, decide_eq_true_eq] at hless
            have hpopped : T.arity r ≤ l.length := by
              have hlen := congrArg List.length hkinds
              simp only [List.length_map, List.length_take, List.length_reverse,
                ← hrule.1.2] at hlen
              omega
            have hbelow : topState (l.drop (T.arity r))
                = topState (c.stack.drop (T.arity r)) := by
              apply topState_congr
              rw [List.map_drop, List.map_drop, h.states]
            refine .inl ?_
            rw [hbelow, htop] at hless
            simp only [turns, List.length_cons, List.length_drop, topState,
              List.head?_cons, Option.map_some, Option.getD_some] at hless ⊢
            obtain ⟨k, hk⟩ := Nat.exists_eq_add_of_le (hlength ▸ hpopped)
            rw [hk, Nat.add_sub_cancel_left, Nat.mul_add, Nat.mul_add, Nat.mul_one]
            omega

/-- **The parser ends**, whatever the tokens and the actions are. -/
theorem parse_returns (hcert : Certified T M A G P)
    (hdesc : descends T M weight bound rank) {n : Nat} (h : Holds T M G P input s₀ c l)
    (hn : turns weight bound rank c + 2 ≤ n) : ∃ r, parse T A n c = .ok r := by
  induction n generalizing c l with
  | zero => omega
  | succ n ih =>
      rw [parse]
      split
      · exact ⟨_, rfl⟩
      · cases hstep : Lr.advance T A c with
        | error r => exact ⟨r, rfl⟩
        | ok c' =>
            rcases h.turns_advance hcert hdesc hstep with hless | hfinal
            · obtain ⟨l', h'⟩ := h.advance hcert hstep
              exact ih h' (by omega)
            · obtain ⟨m, rfl⟩ : ∃ m, n = m + 1 := ⟨n - 1, by omega⟩
              simp only [parse, Lr.advance, if_pos hfinal]
              split
              · exact ⟨_, rfl⟩
              · exact ⟨_, rfl⟩

end

/-! ## Packed tables -/

/-- The tables as bison writes them: the rows of all states in one, and defaults. -/
structure Packed where
  yypact : List Int
  yytable : List Int
  yycheck : List Int
  yydefact : List Nat
  yypgoto : List Int
  yydefgoto : List Int
  yyr1 : List Nat
  yyr2 : List Nat
  pactNinf : Int
  ntokens : Nat
  final : Nat
  maxDepth : Nat

namespace Packed

variable (Y : Packed)

def entry (i symbol : Int) : Option Int :=
  if 0 ≤ i ∧ i < Y.yytable.length ∧ Y.yycheck.getD i.toNat 0 = symbol then
    some (Y.yytable.getD i.toNat 0)
  else none

def default (state : Nat) : Act :=
  match Y.yydefact.getD state 0 with
  | 0 => .error
  | rule => .reduce rule

def action (state symbol : Nat) : Act :=
  let yyn := Y.yypact.getD state 0
  if yyn = Y.pactNinf then Y.default state
  else
    match Y.entry (yyn + symbol) symbol with
    | none => Y.default state
    | some yyn => if yyn ≤ 0 then .reduce (-yyn).toNat else .shift yyn.toNat

def goto (state rule : Nat) : Nat :=
  let lhs := Y.yyr1.getD rule 0 - Y.ntokens
  match Y.entry (Y.yypgoto.getD lhs 0 + state) state with
  | some next => next.toNat
  | none => (Y.yydefgoto.getD lhs 0).toNat

def tables : Tables where
  action := Y.action
  goto := Y.goto
  arity rule := Y.yyr2.getD rule 0
  final := Y.final
  maxDepth := Y.maxDepth

end Packed

end Frozen.Lib.Lr
