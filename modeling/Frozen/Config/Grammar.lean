/-
# `Frozen.Config.Grammar` — the grammar of configuration texts

The rules of `config_parser.y` as syntax trees: a tree has the tokens it stands for, and
what the actions of its rules make of it.  `denote` does the actions with the depth of the
parser's stack as an argument, so it fails where the stack is full, and where an item is a
constant without a name: bison shifts the `NAME` there and then waits for an assignment.

    Tree.reads       tokens of a tree give what the tree denotes
    exists_tree      what is read is what some tree denotes
-/
import Frozen.Config.Descent

namespace Frozen.Config

/-! ## Syntax trees -/

/-- `hash_name`. -/
inductive Label where
  | unnamed
  | null
  | named (s : List UInt8)

mutual

/-- `hash_items`: an empty list or an item, and what follows. -/
inductive Tree where
  | empty (rest : Tail)
  | first (it : Node) (rest : Tail)

/-- The items behind a comma each. -/
inductive Tail where
  | done
  | comma (it : Node) (rest : Tail)

/-- `hash_item`. -/
inductive Node where
  | null
  | item (label : Label) (v : Val)

/-- `hash_value`. -/
inductive Val where
  | string (s : List UInt8)
  | constant (s : List UInt8)
  | hash (c : Tree)
  | typed (type s : List UInt8)
  | converted (type : List UInt8) (c : Tree)

end

def Label.tokens : Label → List Token
  | .unnamed => []
  | .null => [.tnull, .assign]
  | .named s => [.name s, .assign]

mutual

def Tree.tokens : Tree → List Token
  | .empty rest => rest.tokens
  | .first it rest => it.tokens ++ rest.tokens

def Tail.tokens : Tail → List Token
  | .done => []
  | .comma it rest => .comma :: (it.tokens ++ rest.tokens)

def Node.tokens : Node → List Token
  | .null => [.tnull]
  | .item label v => label.tokens ++ v.tokens

def Val.tokens : Val → List Token
  | .string s => [.string s]
  | .constant s => [.name s]
  | .hash c => .lbrace :: (c.tokens ++ [.rbrace])
  | .typed type s => [.lparen, .name type, .rparen, .string s]
  | .converted type c =>
      .lparen :: .name type :: .rparen :: .lbrace :: (c.tokens ++ [.rbrace])

end

/-- A constant, which is a name as well. -/
def Val.isConstant : Val → Bool
  | .constant _ => true
  | _ => false

/-- An item that an assignment behind it makes a name. -/
def Node.isOpen : Node → Bool
  | .null => true
  | .item .unnamed v => v.isConstant
  | .item _ _ => false

def Tail.isOpen : Bool → Tail → Bool
  | b, .done => b
  | _, .comma it rest => rest.isOpen it.isOpen

def Tree.isOpen : Tree → Bool
  | .empty rest => rest.isOpen false
  | .first it rest => rest.isOpen it.isOpen

/-! ## Actions -/

section

variable {τ : Type} (env : Env τ)

def Label.denote (d : Nat) (constant : Bool) : Label → Option UInt64
  | .unnamed => if constant then none else push (d + 1) (some 0)
  | .null => push (d + 2) (some 0)
  | .named s =>
      push (d + 2) ((env.initKey s).bind fun key => if key = 0 then none else some key)

mutual

def Tree.denote (d : Nat) : Tree → Option (Items τ)
  | .empty rest => push (d + 1) (rest.denote d .done)
  | .first it rest => (it.denote d).bind fun it => rest.denote d (it.cons .done)

def Tail.denote (d : Nat) (c : Items τ) : Tail → Option (Items τ)
  | .done => some c
  | .comma it rest =>
      push (d + 2) ((it.denote (d + 2)).bind fun it => rest.denote d (it.cons c))

def Node.denote (d : Nat) : Node → Option (Item τ)
  | .null => push (d + 1) (some .null)
  | .item label v =>
      (label.denote env d v.isConstant).bind fun key => (v.denote (d + 1)).map (.item key)

def Val.denote (d : Nat) : Val → Option (Data τ)
  | .string s => push (d + 1) (some (.string s))
  | .constant s => push (d + 1) ((env.strToAction s).map .action)
  | .hash c =>
      push (d + 1) ((c.denote (d + 1)).bind fun c => push (d + 3) (some (.hash c)))
  | .typed type s => push (d + 3) (push (d + 4) ((env.initData type s).map .typed))
  | .converted type c =>
      push (d + 3) (push (d + 4) ((c.denote (d + 4)).bind fun c =>
        push (d + 6) ((env.convertData type c).map .typed)))

end

end

/-! ## What a tree stands for is read -/

/-- What may stand behind the tokens of a list. -/
structure Follows (nested : Bool) (c : Tree) (rest : List Token) : Prop where
  comma : rest.head? ≠ some .comma
  assign : c.isOpen → rest.head? ≠ some .assign
  empty : c.tokens = [] → endsHere nested rest

section

variable {τ : Type} {env : Env τ}

theorem Label.reads (label : Label) {v : Val} {d : Nat} {rest : List Token}
    (hconstant : label.tokens = [] → v.isConstant → rest.head? ≠ some .assign) :
    pName env d (label.tokens ++ (v.tokens ++ rest)) =
      (label.denote env d v.isConstant).map fun key => (key, v.tokens ++ rest) := by
  cases label with
  | null => simp [Label.tokens, Label.denote, pName, map_push]
  | named s =>
      simp only [Label.tokens, Label.denote, List.cons_append, List.nil_append,
        pName, map_push]
      congr 1
      cases env.initKey s with
      | none => rfl
      | some key => by_cases hkey : key = 0 <;> simp [hkey]
  | unnamed =>
      cases v with
      | constant s =>
          have hassign := hconstant rfl rfl
          simp only [Label.tokens, Label.denote, Val.tokens, Val.isConstant,
            List.cons_append, List.nil_append, if_true, Option.map_none]
          cases rest with
          | nil => rfl
          | cons t rest => cases t <;> first | rfl | exact absurd rfl hassign
      | _ => simp [Label.tokens, Label.denote, Val.tokens, Val.isConstant,
          pName, map_push]

theorem Node.not_endsHere (it : Node) (nested : Bool) (rest : List Token) :
    endsHere nested (it.tokens ++ rest) = false := by
  cases it with
  | null => cases nested <;> rfl
  | item label v => cases label <;> cases v <;> cases nested <;> rfl

theorem Node.tokens_ne_nil (it : Node) : it.tokens ≠ [] := by
  cases it with
  | null => simp [Node.tokens]
  | item label v => cases v <;> simp [Node.tokens, Val.tokens]

/-- The token behind an item is the comma of the next, or what follows the list. -/
theorem Tail.head_ne_assign {tail : Tail} {b : Bool} {rest : List Token}
    (h : tail.isOpen b → rest.head? ≠ some .assign) (hb : b) :
    (tail.tokens ++ rest).head? ≠ some .assign := by
  cases tail with
  | done => exact h hb
  | comma it tail => simp [Tail.tokens]

theorem follows_rbrace (c : Tree) (rest : List Token) :
    Follows true c (.rbrace :: rest) where
  comma := by simp
  assign := by simp
  empty := fun _ => rfl

theorem pHash_reads {n d : Nat} {ts rest : List Token} {x : Option (Items τ)}
    (h : pItems env n true d none ts = x.map fun c => (c, .rbrace :: rest)) :
    pHash (fun d ts => pItems env n true d none ts) d ts =
      x.bind fun c => push (d + 2) (some (c, rest)) := by
  rw [pHash, h]
  cases x <;> rfl

mutual

theorem Tree.reads (c : Tree) {n : Nat} {nested : Bool} {d : Nat} {rest : List Token}
    (hn : 2 * c.tokens.length + 2 ≤ n) (hrest : Follows nested c rest) :
    pItems env n nested d none (c.tokens ++ rest) = (c.denote env d).map fun c =>
      (c, rest) := by
  obtain ⟨n, rfl⟩ : ∃ m, n = m + 1 := ⟨n - 1, by omega⟩
  rw [pItems_start]
  cases c with
  | empty tail =>
      have hends : endsHere nested (tail.tokens ++ rest) := by
        cases tail with
        | done => exact hrest.empty rfl
        | comma it tail => cases nested <;> rfl
      rw [Tree.tokens, if_pos hends, Tree.denote, map_push]
      exact congrArg _ (tail.reads (by rw [Tree.tokens] at hn; omega) hrest.comma
        hrest.assign)
  | first it tail =>
      have hitem : it.isOpen → (tail.tokens ++ rest).head? ≠ some .assign :=
        Tail.head_ne_assign hrest.assign
      rw [Tree.tokens, List.length_append] at hn
      rw [Tree.tokens, List.append_assoc, it.not_endsHere, if_neg (by simp),
        it.reads (by omega) hitem, Tree.denote, Option.bind_map, Option.map_bind]
      refine congrArg _ (funext fun i => ?_)
      have hpos := List.length_pos_of_ne_nil it.tokens_ne_nil
      exact tail.reads (by omega) hrest.comma hrest.assign

theorem Tail.reads (tail : Tail) {n : Nat} {nested b : Bool} {d : Nat} {c : Items τ}
    {rest : List Token} (hn : 2 * tail.tokens.length + 1 ≤ n)
    (hcomma : rest.head? ≠ some .comma)
    (hassign : tail.isOpen b → rest.head? ≠ some .assign) :
    pItems env n nested d (some c) (tail.tokens ++ rest) =
      (tail.denote env d c).map fun c => (c, rest) := by
  obtain ⟨n, rfl⟩ : ∃ m, n = m + 1 := ⟨n - 1, by omega⟩
  cases tail with
  | done => exact pItems_end n nested d c hcomma
  | comma it tail =>
      have hitem : it.isOpen → (tail.tokens ++ rest).head? ≠ some .assign :=
        Tail.head_ne_assign hassign
      rw [Tail.tokens, List.length_cons, List.length_append] at hn
      rw [Tail.tokens, List.cons_append, List.append_assoc, pItems_comma,
        it.reads (by omega) hitem,
        Tail.denote, map_push, Option.bind_map, Option.map_bind]
      refine congrArg _ (congrArg _ (funext fun i => ?_))
      exact tail.reads (by omega) hcomma hassign

theorem Node.reads (it : Node) {n : Nat} {d : Nat} {rest : List Token}
    (hn : 2 * it.tokens.length ≤ n) (hassign : it.isOpen → rest.head? ≠ some .assign) :
    pItem env (fun d ts => pItems env n true d none ts) d (it.tokens ++ rest) =
      (it.denote env d).map fun it => (it, rest) := by
  cases it with
  | null =>
      rw [pItem, if_pos ⟨rfl, hassign rfl⟩, Node.denote, map_push]
      rfl
  | item label v =>
      rw [Node.tokens, List.length_append] at hn
      have hnull : ¬((label.tokens ++ v.tokens ++ rest).head? = some .tnull ∧
          (label.tokens ++ v.tokens ++ rest).tail.head? ≠ some .assign) := by
        cases label <;> cases v <;> simp [Label.tokens, Val.tokens]
      have hname : label.tokens = [] → v.isConstant → rest.head? ≠ some .assign := by
        cases label with
        | unnamed => exact fun _ => hassign
        | null => exact fun h => (nomatch h)
        | named s => exact fun h => (nomatch h)
      rw [pItem, Node.tokens, if_neg hnull, List.append_assoc, label.reads hname,
        Node.denote, Option.map_bind]
      simp only [Option.bind_eq_bind, Option.bind_map]
      refine congrArg _ (funext fun key => ?_)
      simp only [Function.comp_apply, v.reads (show 2 * v.tokens.length ≤ n by omega),
        Option.bind_map, Option.map_map]
      cases v.denote env (d + 1) <;> rfl

theorem Val.reads (v : Val) {n : Nat} {d : Nat} {rest : List Token}
    (hn : 2 * v.tokens.length ≤ n) :
    pValue env (fun d ts => pItems env n true d none ts) d (v.tokens ++ rest) =
      (v.denote env d).map fun v => (v, rest) := by
  cases v with
  | hash c =>
      simp only [Val.tokens, List.length_cons, List.length_append, List.length_nil] at hn
      have hsub :=
        pHash_reads (n := n) (d := d + 1) (c.reads (by omega) (follows_rbrace c rest))
      simp only [Val.tokens, List.cons_append, List.append_assoc, List.nil_append,
        pValue, hsub, Val.denote, map_push]
      cases c.denote env (d + 1) with
      | none => rfl
      | some c => by_cases hfits : fits (d + 3) <;> simp [push, hfits]
  | converted type c =>
      simp only [Val.tokens, List.length_cons, List.length_append, List.length_nil] at hn
      have hsub :=
        pHash_reads (n := n) (d := d + 4) (c.reads (by omega) (follows_rbrace c rest))
      simp only [Val.tokens, List.cons_append, List.append_assoc, List.nil_append,
        pValue, pTyped, hsub, Val.denote, map_push]
      cases c.denote env (d + 4) with
      | none => rfl
      | some c =>
          by_cases hfits : fits (d + 6) <;>
            simp [push, hfits, Option.map_map, Function.comp_def]
  | _ => simp [Val.tokens, Val.denote, pValue, pTyped, map_push, Option.map_map,
      Function.comp_def]

end

/-! ## What is read has a tree -/

/-- The reader of nested lists reads what trees stand for. -/
def ReadsTrees (env : Env τ)
    (items : Nat → List Token → Option (Items τ × List Token)) : Prop :=
  ∀ d ts c rest, items d ts = some (c, rest) →
    ∃ t : Tree, ts = t.tokens ++ rest ∧ t.denote env d = some c

section

variable {items : Nat → List Token → Option (Items τ × List Token)} {d : Nat}
  {ts rest : List Token}

theorem exists_val (hitems : ReadsTrees env items) {v : Data τ}
    (h : pValue env items d ts = some (v, rest)) :
    ∃ u : Val, ts = u.tokens ++ rest ∧ u.denote env d = some v := by
  unfold pValue at h
  split at h
  · next s ts =>
      obtain ⟨hfits, hv⟩ := push_eq_some.mp h
      cases hv
      exact ⟨.string s, rfl, push_eq_some.mpr ⟨hfits, rfl⟩⟩
  · next s ts =>
      obtain ⟨hfits, hv⟩ := push_eq_some.mp h
      obtain ⟨a, ha, hv⟩ := Option.map_eq_some_iff.mp hv
      cases hv
      exact ⟨.constant s, rfl, push_eq_some.mpr ⟨hfits, by rw [ha]; rfl⟩⟩
  · next ts =>
      obtain ⟨hfits, hv⟩ := push_eq_some.mp h
      obtain ⟨⟨c, ts'⟩, hc, hv⟩ := Option.bind_eq_some_iff.mp hv
      cases hv
      obtain ⟨hread, hfits'⟩ := pHash_eq_some.mp hc
      obtain ⟨t, rfl, ht⟩ := hitems _ _ _ _ hread
      refine ⟨.hash t, by simp [Val.tokens], push_eq_some.mpr ⟨hfits, ?_⟩⟩
      exact Option.bind_eq_some_iff.mpr ⟨c, ht, push_eq_some.mpr ⟨hfits', rfl⟩⟩
  · next type ts =>
      obtain ⟨hfits, hv⟩ := push_eq_some.mp h
      unfold pTyped at hv
      split at hv
      · next s ts =>
          obtain ⟨hfits', hv⟩ := push_eq_some.mp hv
          obtain ⟨x, hx, hv⟩ := Option.map_eq_some_iff.mp hv
          cases hv
          refine ⟨.typed type s, rfl,
            push_eq_some.mpr ⟨hfits, push_eq_some.mpr ⟨hfits', ?_⟩⟩⟩
          rw [hx]
          rfl
      · next ts =>
          obtain ⟨hfits', hv⟩ := push_eq_some.mp hv
          obtain ⟨⟨c, ts'⟩, hc, hv⟩ := Option.bind_eq_some_iff.mp hv
          obtain ⟨x, hx, hv⟩ := Option.map_eq_some_iff.mp hv
          cases hv
          obtain ⟨hread, hfits''⟩ := pHash_eq_some.mp hc
          obtain ⟨t, rfl, ht⟩ := hitems _ _ _ _ hread
          refine ⟨.converted type t, by simp [Val.tokens],
            push_eq_some.mpr ⟨hfits, push_eq_some.mpr ⟨hfits', ?_⟩⟩⟩
          refine Option.bind_eq_some_iff.mpr ⟨c, ht, push_eq_some.mpr ⟨hfits'', ?_⟩⟩
          rw [hx]
          rfl
      · cases hv
  · cases h

theorem exists_label {key : UInt64} (h : pName env d ts = some (key, rest))
    (hnull : ¬(ts.head? = some .tnull ∧ ts.tail.head? ≠ some .assign)) :
    ∃ label : Label, ts = label.tokens ++ rest ∧ label.denote env d false = some key ∧
      (label = .unnamed → ∀ s, rest.head? ≠ some (.name s)) := by
  unfold pName at h
  split at h
  · next s ts =>
      obtain ⟨hfits, hv⟩ := push_eq_some.mp h
      obtain ⟨key', hkey, hv⟩ := Option.bind_eq_some_iff.mp hv
      split at hv
      · cases hv
      · next hne =>
          cases hv
          refine ⟨.named s, rfl, push_eq_some.mpr ⟨hfits, ?_⟩, fun h => (nomatch h)⟩
          rw [hkey, Option.bind_some, if_neg hne]
  · cases h
  · next ts =>
      obtain ⟨hfits, hv⟩ := push_eq_some.mp h
      cases hv
      exact ⟨.null, rfl, push_eq_some.mpr ⟨hfits, rfl⟩, fun h => (nomatch h)⟩
  · next hname _ =>
      obtain ⟨hfits, hv⟩ := push_eq_some.mp h
      cases hv
      refine ⟨.unnamed, rfl, push_eq_some.mpr ⟨hfits, rfl⟩, fun _ s hs => ?_⟩
      obtain ⟨ts', rfl⟩ := List.head?_eq_some_iff.mp hs
      exact hname _ _ rfl

theorem exists_node (hitems : ReadsTrees env items) {it : Item τ}
    (h : pItem env items d ts = some (it, rest)) :
    ∃ u : Node, ts = u.tokens ++ rest ∧ u.denote env d = some it ∧
      (u.isOpen → rest.head? ≠ some .assign) := by
  unfold pItem at h
  split at h
  · next hnull =>
      obtain ⟨hfits, hv⟩ := push_eq_some.mp h
      cases hv
      obtain ⟨ts', rfl⟩ := List.head?_eq_some_iff.mp hnull.1
      exact ⟨.null, rfl, push_eq_some.mpr ⟨hfits, rfl⟩, fun _ => hnull.2⟩
  · next hnull =>
      obtain ⟨⟨key, ts'⟩, hname, h⟩ := Option.bind_eq_some_iff.mp h
      obtain ⟨⟨v, ts''⟩, hvalue, h⟩ := Option.bind_eq_some_iff.mp h
      cases h
      obtain ⟨label, rfl, hlabel, hunnamed⟩ := exists_label hname hnull
      obtain ⟨u, rfl, hu⟩ := exists_val hitems hvalue
      -- without a name the value is no constant
      have hconstant : label = .unnamed → u.isConstant = false := by
        intro hl
        cases u with
        | constant s => exact absurd rfl (hunnamed hl s)
        | _ => rfl
      have hlabel' : label.denote env d u.isConstant = some key := by
        cases label with
        | unnamed => rw [hconstant rfl]; exact hlabel
        | _ => exact hlabel
      refine ⟨.item label u, by simp [Node.tokens], ?_, fun hopen => ?_⟩
      · rw [Node.denote, hlabel', Option.bind_some, hu]
        rfl
      · cases label with
        | unnamed => rw [Node.isOpen, hconstant rfl] at hopen; cases hopen
        | _ => cases hopen

end

/-- A list, from its start (`c` is nothing) or from behind its first item on. -/
theorem exists_list {n : Nat} {nested : Bool} {d : Nat} {c : Option (Items τ)}
    {c' : Items τ} {ts rest : List Token}
    (h : pItems env n nested d c ts = some (c', rest)) :
    match c with
    | none => ∃ t : Tree, ts = t.tokens ++ rest ∧ t.denote env d = some c' ∧
      Follows nested t rest
    | some c => ∃ t : Tail, ts = t.tokens ++ rest ∧ t.denote env d c = some c' ∧
        rest.head? ≠ some .comma ∧
        ∀ b : Bool, (b → ts.head? ≠ some .assign) → t.isOpen b →
        rest.head? ≠ some .assign := by
  induction n generalizing nested d c c' ts rest with
  | zero => cases h
  | succ n ih =>
      have hitems : ReadsTrees env (fun d ts => pItems env n true d none ts) := by
        intro d ts c rest h
        obtain ⟨t, hts, ht, -⟩ := ih h
        exact ⟨t, hts, ht⟩
      cases c with
      | none =>
          rw [pItems_start] at h
          split at h
          · next hends =>
              obtain ⟨hfits, h⟩ := push_eq_some.mp h
              obtain ⟨t, rfl, ht, hcomma, hopen⟩ := ih h
              refine ⟨.empty t, rfl, push_eq_some.mpr ⟨hfits, ht⟩, hcomma, ?_, ?_⟩
              · exact hopen false (fun h => (nomatch h))
              · intro hnil
                rwa [show t.tokens = [] from hnil, List.nil_append] at hends
          · obtain ⟨⟨it, ts'⟩, hit, htail⟩ := Option.bind_eq_some_iff.mp h
            obtain ⟨u, rfl, hu, huopen⟩ := exists_node hitems hit
            obtain ⟨t, rfl, ht, hcomma, hopen⟩ := ih htail
            refine ⟨.first u t, by simp [Tree.tokens], ?_, hcomma,
              hopen u.isOpen huopen, ?_⟩
            · exact Option.bind_eq_some_iff.mpr ⟨it, hu, ht⟩
            · intro hnil
              exact absurd (List.append_eq_nil_iff.mp hnil).1 u.tokens_ne_nil
      | some c =>
          by_cases hhead : ts.head? = some .comma
          · obtain ⟨ts, rfl⟩ := List.head?_eq_some_iff.mp hhead
            rw [pItems_comma] at h
            obtain ⟨hfits, h⟩ := push_eq_some.mp h
            obtain ⟨⟨it, ts'⟩, hit, htail⟩ := Option.bind_eq_some_iff.mp h
            obtain ⟨u, rfl, hu, huopen⟩ := exists_node hitems hit
            obtain ⟨t, rfl, ht, hcomma, hopen⟩ := ih htail
            refine ⟨.comma u t, by simp [Tail.tokens], push_eq_some.mpr ⟨hfits, ?_⟩,
              hcomma, ?_⟩
            · exact Option.bind_eq_some_iff.mpr ⟨it, hu, ht⟩
            · exact fun _ _ => hopen u.isOpen huopen
          · rw [pItems_end n nested d c hhead] at h
            cases h
            exact ⟨.done, rfl, rfl, hhead, fun b hb => hb⟩

/-! ## The whole text -/

/-- A tree that the tokens start with, and that the parser takes for the whole text. -/
structure Heads (env : Env τ) (ts : List Token) (t : Tree) (c : Items τ) : Prop where
  denote : t.denote env 0 = some c
  follows : ∃ rest, ts = t.tokens ++ rest ∧ Follows false t rest

theorem readItems_eq_some_iff {ts : List Token} {c : Items τ} :
    readItems env ts = some c ↔ ∃ t, Heads env ts t c := by
  unfold readItems
  constructor
  · intro h
    obtain ⟨⟨c', rest⟩, hread, hc⟩ := Option.map_eq_some_iff.mp h
    cases hc
    obtain ⟨t, hts, ht, hrest⟩ := exists_list hread
    exact ⟨t, ht, rest, hts, hrest⟩
  · rintro ⟨t, ht, rest, rfl, hrest⟩
    rw [t.reads (by rw [List.length_append]; omega) hrest, ht]
    rfl

end

end Frozen.Config
