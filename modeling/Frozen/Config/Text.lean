/-
# `Frozen.Config.Text` — written configurations

A configuration as one writes it: items with a known key or with none, values that are
strings in one of the four delimiters, names of actions, and lists in braces, with any of
the assignment tokens and blanks between all tokens.

    lexes_render     what is written has the tokens it is written with
    Doc.lexes        and these are the tokens of a syntax tree
-/
import Frozen.Config.Grammar

namespace Frozen.Config

open Lib

/-! ## Words -/

/-- A name: not `NULL`. -/
structure Word where
  first : UInt8
  others : List UInt8
  letter : isLetter first
  names : ∀ b ∈ others, isNameByte b
  notNull : isNull (first :: others) = false

def Word.bytes (w : Word) : List UInt8 := w.first :: w.others

/-- A string with its delimiter. -/
structure Quoted where
  delimiter : UInt8
  bytes : List UInt8
  isDelimiter : isDelimiter delimiter
  free : ∀ b ∈ bytes, b ≠ delimiter ∧ b ≠ 0

inductive Assign where
  | colon
  | equals
  | arrow

def Assign.bytes : Assign → List UInt8
  | .colon => [58]
  | .equals => [61]
  | .arrow => [61, 62]

/-- A token as it is written. -/
inductive Lexeme where
  | name (w : Word)
  | string (q : Quoted)
  | assign (a : Assign)
  | comma
  | lbrace
  | rbrace

def Lexeme.bytes : Lexeme → List UInt8
  | .name w => w.bytes
  | .string q => q.delimiter :: (q.bytes ++ [q.delimiter])
  | .assign a => a.bytes
  | .comma => [44]
  | .lbrace => [123]
  | .rbrace => [125]

def Lexeme.token : Lexeme → Token
  | .name w => .name w.bytes
  | .string q => .string q.bytes
  | .assign _ => .assign
  | .comma => .comma
  | .lbrace => .lbrace
  | .rbrace => .rbrace

def Lexeme.isName : Lexeme → Bool
  | .name _ => true
  | _ => false

/-- Blanks, in front of each token and at the end. -/
abbrev Layout := Nat → {bs : List UInt8 // ∀ b ∈ bs, isBlank b}

def render (layout : Layout) : List Lexeme → List UInt8
  | [] => (layout 0).1
  | l :: ls => (layout 0).1 ++ (l.bytes ++ render (fun i => layout (i + 1)) ls)

/-! ## Written tokens are the tokens -/

theorem isNameByte_of_isBlank {b : UInt8} (h : isBlank b) :
    isNameByte b = false ∧ b ≠ 62 ∧ b ≠ 0 := by
  simp only [isBlank, Bool.or_eq_true, beq_iff_eq] at h
  rcases h with ((rfl | rfl) | rfl) | rfl <;> decide

/-- How a token starts: not as if another one went on. -/
theorem Lexeme.head_bytes (l : Lexeme) :
    ∃ b bs, l.bytes = b :: bs ∧ b ≠ 62 ∧ (l.isName = false → isNameByte b = false) := by
  cases l with
  | name w =>
      refine ⟨w.first, w.others, rfl, fun h => ?_, fun h => (nomatch h)⟩
      have hletter := w.letter
      rw [h] at hletter
      exact absurd hletter (by decide)
  | string q =>
      refine ⟨q.delimiter, _, rfl, ?_⟩
      have hq := q.isDelimiter
      simp only [Config.isDelimiter, Bool.or_eq_true, beq_iff_eq] at hq
      rcases hq with ((hq | hq) | hq) | hq <;> rw [hq]
        <;> exact ⟨by decide, fun _ => by decide⟩
  | assign a => cases a <;> exact ⟨_, _, rfl, by decide⟩
  | _ => exact ⟨_, _, rfl, by decide⟩

theorem Word.isNameByte {w : Word} : ∀ b ∈ w.bytes, isNameByte b := by
  intro b hb
  rcases List.mem_cons.mp hb with rfl | hb
  · simp [Config.isNameByte, w.letter]
  · exact w.names b hb

/-- What a token is written with is not zero. -/
theorem Lexeme.ne_zero (l : Lexeme) : ∀ b ∈ l.bytes, b ≠ 0 := by
  cases l with
  | name w =>
      rintro b hb rfl
      exact absurd (Word.isNameByte 0 hb) (by decide)
  | string q =>
      have hq : q.delimiter ≠ 0 := by
        intro h
        have := q.isDelimiter
        rw [h] at this
        exact absurd this (by decide)
      intro b hb
      simp only [Lexeme.bytes, List.mem_cons, List.mem_append, List.not_mem_nil,
        or_false] at hb
      rcases hb with rfl | hb | rfl
      · exact hq
      · exact (q.free b hb).2
      · exact hq
  | assign a => cases a <;> simp [Lexeme.bytes, Assign.bytes]
  | comma => simp [Lexeme.bytes]
  | lbrace => simp [Lexeme.bytes]
  | rbrace => simp [Lexeme.bytes]

theorem render_ne_zero (layout : Layout) (ls : List Lexeme) :
    ∀ b ∈ render layout ls, b ≠ 0 := by
  induction ls generalizing layout with
  | nil => exact fun b hb => (isNameByte_of_isBlank ((layout 0).2 b hb)).2.2
  | cons l ls ih =>
      intro b hb
      rcases List.mem_append.mp hb with hb | hb
      · exact (isNameByte_of_isBlank ((layout 0).2 b hb)).2.2
      · rcases List.mem_append.mp hb with hb | hb
        · exact l.ne_zero b hb
        · exact ih _ b hb

/-- No name is followed by a name. -/
def Apart (l l' : Lexeme) : Prop := (l.isName && l'.isName) = false

/-- The text behind a token does not start as if the token went on. -/
theorem render_head (layout : Layout) (ls : List Lexeme) : ∀ b ∈ (render layout ls).head?,
    b ≠ 62 ∧ ((∀ l ∈ ls.head?, l.isName = false) → isNameByte b = false) := by
  intro b hb
  cases hbs : (layout 0).1 with
  | cons x xs =>
      obtain ⟨hx, hgt, -⟩ := isNameByte_of_isBlank ((layout 0).2 x (by simp [hbs]))
      have hhead : (render layout ls).head? = some x := by
        cases ls <;> simp [render, hbs]
      rw [hhead] at hb
      cases hb
      exact ⟨hgt, fun _ => hx⟩
  | nil =>
      cases ls with
      | nil =>
          rw [render, hbs] at hb
          cases hb
      | cons l ls =>
          obtain ⟨x, xs, hl, hgt, hx⟩ := l.head_bytes
          rw [render, hbs, List.nil_append, hl] at hb
          cases hb
          exact ⟨hgt, fun h => hx (h l rfl)⟩

theorem takeWhile_append {p : UInt8 → Bool} {xs ys : List UInt8} (hxs : ∀ x ∈ xs, p x)
    (hys : ∀ y ∈ ys.head?, p y = false) :
    (xs ++ ys).takeWhile p = xs ∧ (xs ++ ys).dropWhile p = ys := by
  rw [List.takeWhile_append_of_pos hxs, List.dropWhile_append_of_pos hxs]
  cases ys with
  | nil => simp
  | cons y ys => simp [hys y rfl]

theorem Word.scan (w : Word) {text : List UInt8}
    (h : ∀ b ∈ text.head?, Config.isNameByte b = false) :
    Config.scan w.first (w.others ++ text) = .token (.name w.bytes) text := by
  obtain ⟨htake, hdrop⟩ := takeWhile_append w.names h
  simp only [Config.scan, if_pos w.letter, htake, hdrop, w.notNull]
  rfl

theorem Quoted.scan (q : Quoted) (text : List UInt8) :
    Config.scan q.delimiter (q.bytes ++ q.delimiter :: text)
      = .token (.string q.bytes) text := by
  have hfree : ∀ b ∈ q.bytes, decide (b ≠ q.delimiter) = true := fun b hb =>
    decide_eq_true (q.free b hb).1
  have hstop : ∀ b ∈ (q.delimiter :: text).head?, decide (b ≠ q.delimiter) = false := by
    intro b hb
    cases hb
    simp
  obtain ⟨htake, hdrop⟩ := takeWhile_append hfree hstop
  have hletter : Config.isLetter q.delimiter = false ∧ q.delimiter ≠ 58 ∧
      q.delimiter ≠ 61 := by
    have hq := q.isDelimiter
    simp only [Config.isDelimiter, Bool.or_eq_true, beq_iff_eq] at hq
    rcases hq with ((hq | hq) | hq) | hq <;> rw [hq] <;> decide
  obtain ⟨hletter, hcolon, hequals⟩ := hletter
  rw [Config.scan, hletter, if_neg (by simp), if_neg hcolon, if_neg hequals,
    if_pos ⟨q.isDelimiter, by simp⟩, htake, hdrop]
  rfl

/-- One written token is one token. -/
theorem Lexeme.scan (l : Lexeme) {text : List UInt8} {ts : List Token}
    (htext : Lexes text ts) (hgt : ∀ b ∈ text.head?, b ≠ 62)
    (hname : l.isName → ∀ b ∈ text.head?, isNameByte b = false) :
    Lexes (l.bytes ++ text) (l.token :: ts) := by
  cases l with
  | name w => exact .token (w.scan (hname rfl)) htext
  | string q =>
      have hscan := q.scan text
      rw [← List.singleton_append, ← List.append_assoc] at hscan
      exact .token hscan htext
  | assign a =>
      cases a with
      | colon => exact .token rfl htext
      | equals =>
          have hhead : text.head? ≠ some 62 := fun h => hgt 62 h rfl
          have hscan : Config.scan 61 text = .token .assign text := by
            simp [Config.scan, isLetter, hhead]
          exact .token hscan htext
      | arrow => exact .token rfl htext
  | comma => exact .token rfl htext
  | lbrace => exact .token rfl htext
  | rbrace => exact .token rfl htext

theorem lexes_render (layout : Layout) {ls : List Lexeme} (h : ls.IsChain Apart) :
    Lexes (render layout ls) (ls.map Lexeme.token) := by
  induction ls generalizing layout with
  | nil =>
      rw [render, ← List.append_nil (layout 0).1]
      exact Lexes.done.blanks (layout 0).2
  | cons l ls ih =>
      have hhead := render_head (fun i => layout (i + 1)) ls
      refine Lexes.blanks (l.scan (ih _ h.tail) (fun b hb => (hhead b hb).1) ?_)
        (layout 0).2
      intro hname b hb
      refine (hhead b hb).2 fun l' hl' => ?_
      cases ls with
      | nil => cases hl'
      | cons x ls =>
          cases hl'
          have hx : Apart l l' := (List.isChain_cons_cons.mp h).1
          rwa [Apart, hname, Bool.true_and] at hx

/-! ## Configurations -/

/-- The name of a key. -/
structure KnownName {τ : Type} (env : Env τ) extends Word where
  key : UInt64
  known : env.initKey toWord.bytes = some key
  nonzero : key ≠ 0

/-- The name of an action. -/
structure KnownAction {τ : Type} (env : Env τ) extends Word where
  action : UInt32
  known : env.strToAction toWord.bytes = some action

/-- The name in front of an item, with the assignment behind it. -/
abbrev Naming {τ : Type} (env : Env τ) := Option (KnownName env × Assign)

/-- A tree of items, each with the tokens it is written with. -/
inductive Doc {τ : Type} (env : Env τ) where
  | done
  | string (name : Naming env) (q : Quoted) (rest : Doc env)
  | action (name : Naming env) (a : KnownAction env) (rest : Doc env)
  | hash (name : Naming env) (sub rest : Doc env)

section

variable {τ : Type} {env : Env τ}

/-- An unnamed item has the key 0. -/
def Naming.key (name : Naming env) : UInt64 := (name.map fun n => n.1.key).getD 0

def Naming.lexemes : Naming env → List Lexeme
  | none => []
  | some (n, a) => [.name n.toWord, .assign a]

/-- The tree, as it stands in the text. -/
def Doc.items : Doc env → Items τ
  | .done => .done
  | .string name q rest => .string name.key q.bytes rest.items
  | .action name a rest => .action name.key a.action rest.items
  | .hash name sub rest => .hash name.key sub.items rest.items

/-- The items in front of others, the first one last, and so at every level. -/
def Items.reverseOnto : Items τ → Items τ → Items τ
  | .done, c => c
  | .null rest, c => rest.reverseOnto (.null c)
  | .string key s rest, c => rest.reverseOnto (.string key s c)
  | .hash key sub rest, c => rest.reverseOnto (.hash key (sub.reverseOnto .done) c)
  | .action key a rest, c => rest.reverseOnto (.action key a c)
  | .typed key v rest, c => rest.reverseOnto (.typed key v c)

/-- The items of every level in reversed order. -/
def Items.reversed (c : Items τ) : Items τ := c.reverseOnto .done

/-- The tokens of each item. -/
def Doc.pieces : Doc env → List (List Lexeme)
  | .done => []
  | .string name q rest => (name.lexemes ++ [.string q]) :: rest.pieces
  | .action name a rest => (name.lexemes ++ [.name a.toWord]) :: rest.pieces
  | .hash name sub rest =>
      (name.lexemes ++ .lbrace :: ([.comma].intercalate sub.pieces ++ [.rbrace])) ::
        rest.pieces

/-- The text, with commas between items and any blanks. -/
def Doc.text (doc : Doc env) (layout : Layout) : List UInt8 :=
  render layout ([.comma].intercalate doc.pieces)

/-- No item at any level is an action without a name. -/
def Doc.constantsNamed : Doc env → Bool
  | .done => true
  | .string _ _ rest => rest.constantsNamed
  | .action name _ rest => name.isSome && rest.constantsNamed
  | .hash _ sub rest => sub.constantsNamed && rest.constantsNamed

/-- The most symbols a list has on the stack, from those of its items. -/
def listHeight : List Nat → Nat
  | [] => 1
  | h :: hs => hs.foldr (fun h m => max (2 + h) m) h

/-- The most symbols each item has on the stack: a name and a value, and behind a brace
those of the list and the brace. -/
def Doc.heights : Doc env → List Nat
  | .done => []
  | .string _ _ rest => 2 :: rest.heights
  | .action _ _ rest => 2 :: rest.heights
  | .hash _ sub rest => max 4 (2 + listHeight sub.heights) :: rest.heights

/-! ## Trees of configurations -/

def Naming.label : Naming env → Label
  | none => .unnamed
  | some (n, _) => .named n.toWord.bytes

def Tail.ofNodes : List Node → Tail
  | [] => .done
  | u :: us => .comma u (ofNodes us)

def Tree.ofNodes : List Node → Tree
  | [] => .empty .done
  | u :: us => .first u (Tail.ofNodes us)

def Doc.nodes : Doc env → List Node
  | .done => []
  | .string name q rest => .item name.label (.string q.bytes) :: rest.nodes
  | .action name a rest => .item name.label (.constant a.toWord.bytes) :: rest.nodes
  | .hash name sub rest => .item name.label (.hash (Tree.ofNodes sub.nodes)) :: rest.nodes

theorem Tail.tokens_ofNodes (us : List Node) :
    (Tail.ofNodes us).tokens = us.flatMap fun u => .comma :: u.tokens := by
  induction us with
  | nil => rfl
  | cons u us ih => simp [Tail.ofNodes, Tail.tokens, ih]

theorem Tree.tokens_ofNodes (us : List Node) :
    (Tree.ofNodes us).tokens = [Token.comma].intercalate (us.map Node.tokens) := by
  cases us with
  | nil => rfl
  | cons u us =>
      rw [Tree.ofNodes, Tree.tokens, Tail.tokens_ofNodes]
      induction us generalizing u with
      | nil => simp
      | cons v us ih =>
          simp only [List.flatMap_cons, List.map_cons, List.intercalate_cons_cons]
          simp [ih v]

theorem Naming.map_token (name : Naming env) :
    name.lexemes.map Lexeme.token = name.label.tokens := by
  cases name with
  | none => rfl
  | some n => rfl

theorem map_token_intercalate (pieces : List (List Lexeme)) :
    ([Lexeme.comma].intercalate pieces).map Lexeme.token =
      [Token.comma].intercalate (pieces.map (List.map Lexeme.token)) := by
  induction pieces with
  | nil => rfl
  | cons p ps ih =>
      cases ps with
      | nil => simp
      | cons p' ps =>
          rw [List.intercalate_cons_cons, List.map_cons, List.map_cons,
            List.intercalate_cons_cons, ← List.map_cons, ← ih]
          simp [Lexeme.token]

theorem Doc.map_token (doc : Doc env) :
    doc.pieces.map (List.map Lexeme.token) = doc.nodes.map Node.tokens := by
  induction doc with
  | done => rfl
  | string name q rest ih =>
      simp [Doc.pieces, Doc.nodes, Node.tokens, Val.tokens, name.map_token, ih,
        Lexeme.token]
  | action name a rest ih =>
      simp [Doc.pieces, Doc.nodes, Node.tokens, Val.tokens, name.map_token, ih,
        Lexeme.token]
  | hash name sub rest ihsub ih =>
      simp only [Doc.pieces, Doc.nodes, List.map_cons, Node.tokens, Val.tokens,
        List.map_append,
        name.map_token, ih, Tree.tokens_ofNodes, ← ihsub, map_token_intercalate]
      rfl

/-! ## The text has the tokens of the tree -/

theorem apart_comma (l : Lexeme) : Apart l .comma ∧ Apart .comma l := by
  cases l <;> exact ⟨rfl, rfl⟩

/-- Commas keep the names of items apart. -/
theorem isChain_intercalate {pieces : List (List Lexeme)}
    (h : ∀ p ∈ pieces, p.IsChain Apart) :
    ([Lexeme.comma].intercalate pieces).IsChain Apart := by
  induction pieces with
  | nil => exact .nil
  | cons p ps ih =>
      have hp := h p List.mem_cons_self
      cases ps with
      | nil => simpa using hp
      | cons p' ps =>
          rw [List.intercalate_cons_cons]
          have hps := ih fun q hq => h q (List.mem_cons_of_mem p hq)
          refine List.isChain_append.mpr
            ⟨List.isChain_append.mpr ⟨hp, .singleton _, ?_⟩, hps, ?_⟩
          · rintro x - y hy
            cases hy
            exact (apart_comma x).1
          · rintro x hx y -
            rw [List.getLast?_append] at hx
            cases hx
            exact (apart_comma y).2

theorem Naming.isChain (name : Naming env) {ls : List Lexeme} (h : ls.IsChain Apart) :
    (name.lexemes ++ ls).IsChain Apart := by
  cases name with
  | none => exact h
  | some n =>
      refine List.isChain_append.mpr ⟨.cons_cons rfl (.singleton _), h, ?_⟩
      rintro x hx y -
      cases hx
      rfl

theorem Doc.isChain (doc : Doc env) : ∀ p ∈ doc.pieces, p.IsChain Apart := by
  induction doc with
  | done => exact fun p hp => (nomatch hp)
  | string name q rest ih =>
      intro p hp
      rcases List.mem_cons.mp hp with rfl | hp
      · exact name.isChain (.singleton _)
      · exact ih p hp
  | action name a rest ih =>
      intro p hp
      rcases List.mem_cons.mp hp with rfl | hp
      · exact name.isChain (.singleton _)
      · exact ih p hp
  | hash name sub rest ihsub ih =>
      intro p hp
      rcases List.mem_cons.mp hp with rfl | hp
      · refine name.isChain (List.isChain_cons.mpr ⟨fun y _ => rfl, ?_⟩)
        refine List.isChain_append.mpr ⟨isChain_intercalate ihsub, .singleton _, ?_⟩
        rintro x - y hy
        cases hy
        cases x <;> rfl
      · exact ih p hp

theorem Doc.lexes (doc : Doc env) (layout : Layout) :
    Lexes (doc.text layout) (Tree.ofNodes doc.nodes).tokens := by
  rw [Tree.tokens_ofNodes, ← doc.map_token, ← map_token_intercalate]
  exact lexes_render layout (isChain_intercalate doc.isChain)

end

end Frozen.Config
