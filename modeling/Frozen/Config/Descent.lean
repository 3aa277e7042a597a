/-
# `Frozen.Config.Descent` — the parser read as a recursive descent

The automaton of `config_parser.tab.c` decides by one token what it reads next, so
its runs are those of a recursive reader: a value, an item, a list of items.
`pItems` is that reader, with the depth of the parser's stack as an argument; a list
ends at the first token that is not a comma.  It returns nothing where the automaton
fails inside an item.

    pValue_leads, pItem_leads, pItems_leads    the automaton does what the reader says
    configsStringParse_returns                 what follows the list makes no difference
-/
import Frozen.Config.Parser

namespace Frozen.Config

open Lib

/-! ## The reader -/

/-- A stack with this many symbols can go on. -/
def fits (d : Nat) : Bool := d + 1 < YYMAXDEPTH

section

variable {τ : Type} (env : Env τ)

/-- A symbol more on the stack. -/
def push {α : Type} (d : Nat) (x : Option α) : Option α := if fits d then x else none

section

variable (items : Nat → List Token → Option (Items τ × List Token))

/-- `hash_items '}'`, with `d` symbols on the stack. -/
def pHash (d : Nat) (ts : List Token) : Option (Items τ × List Token) :=
  match items d ts with
  | some (c, .rbrace :: ts) => push (d + 2) (some (c, ts))
  | _ => none

/-- What follows `'(' NAME ')'`. -/
def pTyped (type : List UInt8) (d : Nat) : List Token → Option (Data τ × List Token)
  | .string s :: ts => push (d + 1) ((env.initData type s).map fun v => (.typed v, ts))
  | .lbrace :: ts => push (d + 1) do
      let (c, ts) ← pHash items (d + 1) ts
      (env.convertData type c).map fun v => (.typed v, ts)
  | _ => none

/-- `hash_value`. -/
def pValue (d : Nat) : List Token → Option (Data τ × List Token)
  | .string s :: ts => push (d + 1) (some (.string s, ts))
  | .name s :: ts => push (d + 1) ((env.strToAction s).map fun a => (.action a, ts))
  | .lbrace :: ts => push (d + 1) do
      let (c, ts) ← pHash items (d + 1) ts
      some (.hash c, ts)
  | .lparen :: .name type :: .rparen :: ts =>
      push (d + 3) (pTyped env items type (d + 3) ts)
  | _ => none

end

/-- `hash_name`. -/
def pName (d : Nat) : List Token → Option (UInt64 × List Token)
  | .name s :: .assign :: ts => push (d + 2) do
      let key ← env.initKey s
      if key = 0 then none else some (key, ts)
  | .name _ :: _ => none
  | .tnull :: .assign :: ts => push (d + 2) (some (0, ts))
  | ts => push (d + 1) (some (0, ts))

/-- `hash_item`. -/
def pItem (items : Nat → List Token → Option (Items τ × List Token)) (d : Nat)
    (ts : List Token) : Option (Item τ × List Token) :=
  if ts.head? = some .tnull ∧ ts.tail.head? ≠ some .assign then
    push (d + 1) (some (.null, ts.tail))
  else do
    let (key, ts) ← pName env d ts
    let (v, ts) ← pValue env items (d + 1) ts
    some (.item key v, ts)

/-- An empty list. -/
def endsHere (nested : Bool) : List Token → Bool
  | [] => !nested
  | t :: _ => t == .comma || (nested && t == .rbrace)

/-- `hash_items`: before the first item, or behind those that were read. -/
def pItems : Nat → Bool → Nat → Option (Items τ) → List Token →
    Option (Items τ × List Token)
  | 0, _, _, _, _ => none
  | n + 1, nested, d, none, ts =>
      if endsHere nested ts then push (d + 1) (pItems n nested d (some .done) ts)
      else do
        let (it, ts) ← pItem env (fun d ts => pItems n true d none ts) d ts
        pItems n nested d (some (it.cons .done)) ts
  | n + 1, nested, d, some c, .comma :: ts =>
      push (d + 2) do
        let (it, ts) ← pItem env (fun d ts => pItems n true d none ts) (d + 2) ts
        pItems n nested d (some (it.cons c)) ts
  | _ + 1, _, _, some c, ts => some (c, ts)

end

/-! ## Symbols and tokens -/

theorem map_push {α β : Type} (f : α → β) (d : Nat) (x : Option α) :
    (push d x).map f = push d (x.map f) := by
  unfold push
  split <;> rfl

theorem push_none {α : Type} (d : Nat) : push d (none : Option α) = none := ite_self none

/-- The last of two checks is the one that counts. -/
theorem push_push {α : Type} (d : Nat) (x : Option α) :
    push d (push (d + 1) x) = push (d + 1) x := by
  by_cases h : fits d
  · rw [push, if_pos h]
  · have h' : ¬fits (d + 1) := by
      simp only [fits, decide_eq_true_eq] at h ⊢
      omega
    rw [push, if_neg h, push, if_neg h']

theorem push_eq_some {α : Type} {d : Nat} {x : Option α} {y : α} :
    push d x = some y ↔ fits d ∧ x = some y := by
  unfold push
  split
  · next h => exact ⟨fun hx => ⟨h, hx⟩, fun hx => hx.2⟩
  · next h => exact ⟨fun hx => (nomatch hx), fun hx => absurd hx.1 h⟩

theorem fits_mono {d e : Nat} (hle : d ≤ e) (h : fits e) : fits d := by
  simp only [fits, decide_eq_true_eq] at h ⊢
  omega

section

variable {τ : Type} {env : Env τ}
  {items : Nat → List Token → Option (Items τ × List Token)}

/-- A reader gives back a part of its tokens. -/
def Shrinks (items : Nat → List Token → Option (Items τ × List Token)) : Prop :=
  ∀ d ts c rest, items d ts = some (c, rest) → rest.length ≤ ts.length

theorem pHash_eq_some {d : Nat} {ts rest : List Token} {c : Items τ} :
    pHash items d ts = some (c, rest) ↔ items d ts = some (c, .rbrace :: rest) ∧
      fits (d + 2) := by
  unfold pHash
  split
  · next c' ts' hread =>
      rw [push_eq_some, hread]
      constructor
      · rintro ⟨hfits, heq⟩
        cases heq
        exact ⟨rfl, hfits⟩
      · rintro ⟨heq, hfits⟩
        cases heq
        exact ⟨hfits, rfl⟩
  · next hread => exact ⟨fun h => (nomatch h), fun h => absurd h.1 (hread c rest)⟩

theorem pHash_length (hitems : Shrinks items) {d : Nat} {ts rest : List Token}
    {c : Items τ} (h : pHash items d ts = some (c, rest)) : rest.length < ts.length := by
  obtain ⟨hread, -⟩ := pHash_eq_some.mp h
  exact hitems _ _ _ _ hread

theorem pTyped_length (hitems : Shrinks items) {type : List UInt8} {d : Nat}
    {ts rest : List Token} {v : Data τ}
    (h : pTyped env items type d ts = some (v, rest)) : rest.length < ts.length := by
  unfold pTyped at h
  split at h
  · obtain ⟨-, hv⟩ := push_eq_some.mp h
    obtain ⟨_, -, hv⟩ := Option.map_eq_some_iff.mp hv
    cases hv
    exact Nat.lt_succ_self _
  · obtain ⟨-, hv⟩ := push_eq_some.mp h
    obtain ⟨⟨c, ts'⟩, hc, hv⟩ := Option.bind_eq_some_iff.mp hv
    obtain ⟨_, -, hv⟩ := Option.map_eq_some_iff.mp hv
    cases hv
    exact Nat.lt_succ_of_lt (pHash_length hitems hc)
  · cases h

theorem pValue_length (hitems : Shrinks items) {d : Nat} {ts rest : List Token}
    {v : Data τ} (h : pValue env items d ts = some (v, rest)) :
    fits (d + 1) ∧ rest.length < ts.length := by
  unfold pValue at h
  split at h
  · obtain ⟨hfits, hv⟩ := push_eq_some.mp h
    cases hv
    exact ⟨hfits, Nat.lt_succ_self _⟩
  · obtain ⟨hfits, hv⟩ := push_eq_some.mp h
    obtain ⟨_, -, hv⟩ := Option.map_eq_some_iff.mp hv
    cases hv
    exact ⟨hfits, Nat.lt_succ_self _⟩
  · obtain ⟨hfits, hv⟩ := push_eq_some.mp h
    obtain ⟨⟨c, ts'⟩, hc, hv⟩ := Option.bind_eq_some_iff.mp hv
    cases hv
    exact ⟨hfits, Nat.lt_succ_of_lt (pHash_length hitems hc)⟩
  · obtain ⟨hfits, hv⟩ := push_eq_some.mp h
    have hlt := pTyped_length hitems hv
    refine ⟨fits_mono (by omega) hfits, ?_⟩
    simp only [List.length_cons]
    omega
  · cases h

theorem pName_length {d : Nat} {ts rest : List Token} {key : UInt64}
    (h : pName env d ts = some (key, rest)) : fits (d + 1) ∧ rest.length ≤ ts.length := by
  unfold pName at h
  split at h
  · obtain ⟨hfits, hv⟩ := push_eq_some.mp h
    obtain ⟨key', -, hv⟩ := Option.bind_eq_some_iff.mp hv
    split at hv
    · cases hv
    · cases hv
      refine ⟨fits_mono (by omega) hfits, ?_⟩
      simp only [List.length_cons]
      omega
  · cases h
  · obtain ⟨hfits, hv⟩ := push_eq_some.mp h
    cases hv
    refine ⟨fits_mono (by omega) hfits, ?_⟩
    simp only [List.length_cons]
    omega
  · obtain ⟨hfits, hv⟩ := push_eq_some.mp h
    cases hv
    exact ⟨hfits, le_rfl⟩

theorem pItem_length (hitems : Shrinks items) {d : Nat} {ts rest : List Token}
    {it : Item τ} (h : pItem env items d ts = some (it, rest)) :
    fits (d + 1) ∧ rest.length < ts.length := by
  unfold pItem at h
  split at h
  · next hnull =>
      obtain ⟨hfits, hv⟩ := push_eq_some.mp h
      cases hv
      cases ts with
      | nil => cases hnull.1
      | cons t ts => exact ⟨hfits, Nat.lt_succ_self _⟩
  · obtain ⟨⟨key, ts'⟩, hname, h⟩ := Option.bind_eq_some_iff.mp h
    obtain ⟨⟨v, ts''⟩, hvalue, h⟩ := Option.bind_eq_some_iff.mp h
    cases h
    obtain ⟨hfits, hle⟩ := pName_length hname
    exact ⟨hfits, lt_of_lt_of_le (pValue_length hitems hvalue).2 hle⟩

theorem pItems_start (n : Nat) (nested : Bool) (d : Nat) (ts : List Token) :
    pItems env (n + 1) nested d none ts =
      if endsHere nested ts then push (d + 1) (pItems env n nested d (some .done) ts)
      else (pItem env (fun d ts => pItems env n true d none ts) d ts).bind fun r =>
        pItems env n nested d (some (r.1.cons .done)) r.2 := by
  rw [pItems]
  rfl

theorem pItems_comma (n : Nat) (nested : Bool) (d : Nat) (c : Items τ) (ts : List Token) :
    pItems env (n + 1) nested d (some c) (.comma :: ts) = push (d + 2)
      ((pItem env (fun d ts => pItems env n true d none ts) (d + 2) ts).bind fun r =>
        pItems env n nested d (some (r.1.cons c)) r.2) := by
  rw [pItems]
  rfl

theorem pItems_end (n : Nat) (nested : Bool) (d : Nat) (c : Items τ) {ts : List Token}
    (h : ts.head? ≠ some .comma) :
    pItems env (n + 1) nested d (some c) ts = some (c, ts) := by
  rw [pItems]
  rintro ts' rfl
  exact h rfl

theorem pItems_length {n : Nat} {nested : Bool} {d : Nat} {c : Option (Items τ)}
    {ts rest : List Token} {c' : Items τ}
    (h : pItems env n nested d c ts = some (c', rest)) : rest.length ≤ ts.length := by
  induction n generalizing nested d c ts rest c' with
  | zero => cases h
  | succ n ih =>
      have hitems : Shrinks (fun d ts => pItems env n true d none ts) :=
        fun d ts c rest h => ih h
      cases c with
      | none =>
          rw [pItems_start] at h
          split at h
          · exact ih (push_eq_some.mp h).2
          · obtain ⟨⟨it, ts'⟩, hit, h⟩ := Option.bind_eq_some_iff.mp h
            exact le_trans (ih h) (pItem_length hitems hit).2.le
      | some c =>
          by_cases hhead : ts.head? = some .comma
          · obtain ⟨ts, rfl⟩ := List.head?_eq_some_iff.mp hhead
            rw [pItems_comma, push_eq_some] at h
            obtain ⟨⟨it, ts'⟩, hit, h⟩ := Option.bind_eq_some_iff.mp h.2
            have hlt := (pItem_length hitems hit).2
            have hle : rest.length ≤ ts'.length := ih h
            simp only [List.length_cons]
            omega
          · rw [pItems_end n nested d c hhead] at h
            cases h
            exact le_rfl

end

/-! ## Runs of the automaton -/

section

variable {τ : Type} {env : Env τ} {hash : Option (Items τ)}

/-- From one configuration the automaton gets to another, or it fails. -/
def Leads (env : Env τ) (hash : Option (Items τ)) (x : Stack τ × List Token) :
    Option (Stack τ × List Token) → Prop
  | some y => ∀ out, Returns (fun n => yyparse env n y.1 y.2 hash) out →
      Returns (fun n => yyparse env n x.1 x.2 hash) out
  | none => Returns (fun n => yyparse env n x.1 x.2 hash) hash

theorem Leads.trans {x y : Stack τ × List Token} {r : Option (Stack τ × List Token)}
    (h : Leads env hash x (some y)) (h' : Leads env hash y r) : Leads env hash x r := by
  cases r with
  | none => exact h hash h'
  | some z => exact fun out hout => h out (h' out hout)

theorem leads_full {stack : Stack τ} {ts : List Token} (h : YYMAXDEPTH ≤ stack.length) :
    Leads env hash (stack, ts) none := by
  refine .of_succ (.of_forall fun n => ?_)
  simp [yyparse, h]

section

variable {stack : Stack τ} {ts : List Token} {s : Nat}

theorem leads_error (hstate : Stack.state stack = s) (hfinal : s ≠ YYFINAL)
    (hact : yyaction s (lookahead ts) = .error) : Leads env hash (stack, ts) none := by
  refine .of_succ (.of_forall fun n => ?_)
  simp [yyparse, hstate, hfinal, hact]

theorem leads_shift {t : Token} {s' : Nat} (hlen : stack.length < YYMAXDEPTH)
    (hstate : Stack.state stack = s) (hfinal : s ≠ YYFINAL)
    (hact : yyaction s t.symbol = .shift s') :
    Leads env hash (stack, t :: ts) (some ((s', t.value) :: stack, ts)) := by
  intro out hout
  refine .of_succ ?_
  simpa [yyparse, Nat.not_le.mpr hlen, hstate, hfinal, lookahead, hact] using hout

theorem leads_reduce {r : Nat} {above below : Stack τ} {v : Value τ}
    (hlen : (above ++ below).length < YYMAXDEPTH)
    (hstate : Stack.state (above ++ below) = s) (hfinal : s ≠ YYFINAL)
    (hact : yyaction s (lookahead ts) = .reduce r) (hrule : r ≠ 2)
    (habove : yyr2.getD r 0 = above.length)
    (hv : ruleValue env r (above.map Prod.snd) = some v) :
    Leads env hash (above ++ below, ts)
      (some ((yygoto (Stack.state below) r, v) :: below, ts)) := by
  intro out hout
  refine .of_succ ?_
  have hres : ruleResult r (above.map Prod.snd) hash = hash := by
    unfold ruleResult
    split
    · exact absurd rfl hrule
    · rfl
  have htake : (above ++ below).take (yyr2.getD r 0) = above := by
    rw [habove, List.take_left]
  have hdrop : (above ++ below).drop (yyr2.getD r 0) = below := by
    rw [habove, List.drop_left]
  simp only [yyparse, if_neg (Nat.not_le.mpr hlen), hstate, if_neg hfinal, hact, htake,
    hdrop, hv, hres]
  exact hout

theorem leads_abort {r : Nat} {above below : Stack τ}
    (hstate : Stack.state (above ++ below) = s)
    (hfinal : s ≠ YYFINAL) (hact : yyaction s (lookahead ts) = .reduce r)
    (habove : yyr2.getD r 0 = above.length)
    (hv : ruleValue env r (above.map Prod.snd) = none) :
    Leads env hash (above ++ below, ts) none := by
  refine .of_succ (.of_forall fun n => ?_)
  have htake : (above ++ below).take (yyr2.getD r 0) = above := by
    rw [habove, List.take_left]
  simp only [yyparse, hstate, if_neg hfinal, hact, htake, hv, ite_self]

theorem leads_push {d : Nat} {t : Token} {s' : Nat} {r : Option (Stack τ × List Token)}
    (hlen : stack.length = d + 1) (hfits : fits d) (hstate : Stack.state stack = s)
    (hfinal : s ≠ YYFINAL) (hact : yyaction s t.symbol = .shift s')
    (h : fits (d + 1) → Leads env hash ((s', t.value) :: stack, ts) r) :
    Leads env hash (stack, t :: ts) (push (d + 1) r) := by
  have hlt : stack.length < YYMAXDEPTH := by
    rw [hlen]
    exact of_decide_eq_true hfits
  refine (leads_shift hlt hstate hfinal hact).trans ?_
  by_cases hfull : fits (d + 1)
  · rw [push, if_pos hfull]
    exact h hfull
  · rw [push, if_neg hfull]
    refine leads_full ?_
    rw [List.length_cons, hlen]
    exact Nat.not_lt.mp fun hlt => hfull (decide_eq_true hlt)

end

/-! ## Values -/

section

variable {items : Nat → List Token → Option (Items τ × List Token)}
  {σ : Stack τ} {d : Nat} {ts : List Token} {k : Nat}

/-- What the reader of a nested list has to do with the automaton, on less
than `k` tokens. -/
def ItemsSpec (env : Env τ) (hash : Option (Items τ))
    (items : Nat → List Token → Option (Items τ × List Token)) (k : Nat) : Prop :=
  ∀ (σ : Stack τ) (d : Nat) (ts : List Token), ts.length < k → σ.length = d + 1 → fits d →
    Stack.state σ = 13 ∨ Stack.state σ = 22 →
    Leads env hash (σ, ts) ((items d ts).map fun r =>
      ((yygoto (Stack.state σ) 3, .items r.1) :: σ, r.2)) ∧
    ∀ c rest, items d ts = some (c, rest) → fits (d + 1) ∧ rest.head? ≠ some .comma

theorem stack_lt (hlen : σ.length = d + 1) (hfits : fits d) : σ.length < YYMAXDEPTH := by
  rw [hlen]
  exact of_decide_eq_true hfits

/-- Behind a nested list only a comma or the brace goes on. -/
theorem nested_error {s : Nat} (hs : s = 17 ∨ s = 23) (hcomma : ts.head? ≠ some .comma)
    (hbrace : ts.head? ≠ some .rbrace) : yyaction s (lookahead ts) = .error := by
  cases ts with
  | nil => rcases hs with rfl | rfl <;> rfl
  | cons t ts =>
      rcases hs with rfl | rfl <;> cases t <;>
        first | rfl | exact absurd rfl hcomma | exact absurd rfl hbrace

theorem pHash_leads (hitems : ItemsSpec env hash items k) {b g e : Nat}
    (hb : b = 13 ∧ g = 17 ∧ e = 19 ∨ b = 22 ∧ g = 23 ∧ e = 24) (hk : ts.length < k)
    (hlen : σ.length = d + 1) (hfits : fits d) (hstate : Stack.state σ = b) :
    Leads env hash (σ, ts) ((pHash items d ts).map fun r =>
      ((e, .none) :: (g, .items r.1) :: σ, r.2)) := by
  have hgoto : yygoto (Stack.state σ) 3 = g := by
    rw [hstate]
    rcases hb with ⟨rfl, rfl, -⟩ | ⟨rfl, rfl, -⟩ <;> rfl
  have hnested : g = 17 ∨ g = 23 := by omega
  have hshift : yyaction g Token.rbrace.symbol = .shift e := by
    rcases hb with ⟨-, rfl, rfl⟩ | ⟨-, rfl, rfl⟩ <;> rfl
  have hfinal : g ≠ YYFINAL := by rcases hnested with rfl | rfl <;> decide
  obtain ⟨hleads, hpost⟩ := hitems σ d ts hk hlen hfits (by rw [hstate]; omega)
  rw [hgoto] at hleads
  unfold pHash
  cases hread : items d ts with
  | none =>
      rw [hread] at hleads
      exact hleads
  | some r =>
      obtain ⟨c, rest⟩ := r
      rw [hread] at hleads
      obtain ⟨hfits', hcomma⟩ := hpost c rest hread
      refine hleads.trans ?_
      have herror : rest.head? ≠ some .rbrace →
          Leads env hash ((g, .items c) :: σ, rest) none := fun hbrace =>
        leads_error rfl hfinal (nested_error hnested hcomma hbrace)
      cases rest with
      | nil => exact herror (by simp)
      | cons t rest =>
          by_cases ht : t = .rbrace
          · subst ht
            simp only [map_push, Option.map_some]
            refine leads_push (by simp [hlen]) hfits' rfl hfinal hshift fun _ => ?_
            exact fun out hout => hout
          · have hnone : (match some (c, t :: rest) with
                | some (c, Token.rbrace :: ts) => push (d + 2) (some (c, ts))
                | _ => none) = none := by
              split
              · next heq => cases heq; exact absurd rfl ht
              · rfl
            rw [hnone]
            exact herror (by simpa using ht)

/-- The last symbol of a value, and the reduction it allows. -/
theorem leads_value {r : Nat} {above : Stack τ} {x : Option (Data τ)}
    (hlen : (above ++ σ).length < YYMAXDEPTH) {s : Nat}
    (hstate : Stack.state (above ++ σ) = s) (hfinal : s ≠ YYFINAL)
    (hact : ∀ symbol, yyaction s symbol = .reduce r) (hrule : r ≠ 2)
    (habove : yyr2.getD r 0 = above.length) (hgoto : yygoto (Stack.state σ) r = 15)
    (hv : ruleValue env r (above.map Prod.snd) = x.map Value.data) :
    Leads env hash (above ++ σ, ts) (x.map fun v => ((15, .data v) :: σ, ts)) := by
  cases x with
  | none => exact leads_abort hstate hfinal (hact _) habove hv
  | some v =>
      have hleads : Leads env hash (above ++ σ, ts) _ :=
        leads_reduce hlen hstate hfinal (hact (lookahead ts)) hrule habove hv
      rwa [hgoto] at hleads

theorem pTyped_leads (hitems : ItemsSpec env hash items k) {type : List UInt8}
    (hk : ts.length ≤ k) (hlen : σ.length + 3 = d + 1) (hfits : fits d)
    (hstate : Stack.state σ = 6) :
    Leads env hash ((20, .none) :: (18, .name type) :: (14, .none) :: σ, ts)
      ((pTyped env items type d ts).map fun r => ((15, .data r.1) :: σ, r.2)) := by
  have hlen' : ((20, .none) :: (18, .name type) :: (14, .none) :: σ : Stack τ).length
      = d + 1 := by
    simpa using hlen
  have herror : yyaction 20 (lookahead ts) = .error →
      Leads env hash ((20, .none) :: (18, .name type) :: (14, .none) :: σ, ts) none :=
    leads_error rfl (by decide)
  cases ts with
  | nil => exact herror rfl
  | cons t ts =>
      cases t with
      | string s =>
          rw [pTyped, map_push]
          refine leads_push (s := 20) hlen' hfits rfl (by decide) rfl fun hfits' => ?_
          have hval : Leads env hash
              ([(21, .name s), (20, .none), (18, .name type), (14, .none)] ++ σ, ts)
              (((env.initData type s).map Data.typed).map fun v =>
                ((15, .data v) :: σ, ts)) :=
            leads_value (s := 21) (stack_lt (d := d + 1) (by simpa using hlen) hfits') rfl
              (by decide) (fun _ => rfl) (by decide) rfl (by rw [hstate]; rfl)
              (by rw [Option.map_map]; rfl)
          rw [Option.map_map] at hval ⊢
          exact hval
      | lbrace =>
          rw [pTyped, map_push]
          refine leads_push (s := 20) hlen' hfits rfl (by decide) rfl fun hfits' => ?_
          have hlen'' : ((22, .none) :: (20, .none) :: (18, .name type) ::
              (14, .none) :: σ : Stack τ).length = d + 1 + 1 := by simpa using hlen
          have hhash : Leads env hash (_, ts) _ :=
            pHash_leads hitems (.inr ⟨rfl, rfl, rfl⟩) hk hlen'' hfits' rfl
          cases hread : pHash items (d + 1) ts with
          | none =>
              rw [hread] at hhash
              exact hhash
          | some r =>
              obtain ⟨c, rest⟩ := r
              rw [hread] at hhash
              have hfits'' : fits (d + 3) := (pHash_eq_some.mp hread).2
              refine hhash.trans ?_
              have hval : Leads env hash
                  ([(24, .none), (23, .items c), (22, .none), (20, .none),
                    (18, .name type), (14, .none)] ++ σ, rest)
                  (((env.convertData type c).map Data.typed).map fun v =>
                    ((15, .data v) :: σ, rest)) :=
                leads_value (s := 24)
                  (stack_lt (d := d + 3) (by simpa using hlen) hfits'') rfl
                  (by decide) (fun _ => rfl) (by decide) rfl (by rw [hstate]; rfl)
                  (by rw [Option.map_map]; rfl)
              change Leads env hash _
                (((env.convertData type c).map fun v => (Data.typed v, rest)).map _)
              rw [Option.map_map] at hval ⊢
              exact hval
      | _ => exact herror rfl

/-- `hash_value`: from `hash_name` on. -/
theorem pValue_leads (hitems : ItemsSpec env hash items k) (hk : ts.length ≤ k)
    (hlen : σ.length = d + 1) (hfits : fits d) (hstate : Stack.state σ = 6) :
    Leads env hash (σ, ts)
      ((pValue env items d ts).map fun r => ((15, .data r.1) :: σ, r.2)) := by
  have herror : yyaction 6 (lookahead ts) = .error → Leads env hash (σ, ts) none :=
    leads_error hstate (by decide)
  have hgoto : ∀ rule, rule = 11 ∨ rule = 12 ∨ rule = 15 →
      yygoto (Stack.state σ) rule = 15 := by
    rw [hstate]
    rintro rule (rfl | rfl | rfl) <;> rfl
  cases ts with
  | nil => exact herror rfl
  | cons t ts =>
      cases t with
      | string s =>
          rw [pValue, map_push]
          refine leads_push hlen hfits hstate (by decide) rfl fun hfits' => ?_
          have hval : Leads env hash ([(12, .name s)] ++ σ, ts)
              ((some (Data.string s)).map fun v => ((15, .data v) :: σ, ts)) :=
            leads_value (s := 12) (stack_lt (d := d + 1) (by simpa using hlen) hfits') rfl
              (by decide) (fun _ => rfl) (by decide) rfl (hgoto 11 (.inl rfl)) rfl
          exact hval
      | name s =>
          rw [pValue, map_push]
          refine leads_push hlen hfits hstate (by decide) rfl fun hfits' => ?_
          have hval : Leads env hash ([(11, .name s)] ++ σ, ts)
              (((env.strToAction s).map Data.action).map fun v =>
                ((15, .data v) :: σ, ts)) :=
            leads_value (s := 11) (stack_lt (d := d + 1) (by simpa using hlen) hfits') rfl
              (by decide) (fun _ => rfl) (by decide) rfl (hgoto 15 (.inr (.inr rfl)))
              (by rw [Option.map_map]; rfl)
          rw [Option.map_map] at hval ⊢
          exact hval
      | lbrace =>
          rw [pValue, map_push]
          refine leads_push hlen hfits hstate (by decide) rfl fun hfits' => ?_
          have hlen' : ((13, .none) :: σ : Stack τ).length = d + 1 + 1 := by
            simpa using hlen
          have hhash : Leads env hash (_, ts) _ :=
            pHash_leads hitems (.inl ⟨rfl, rfl, rfl⟩) hk hlen' hfits' rfl
          cases hread : pHash items (d + 1) ts with
          | none =>
              rw [hread] at hhash
              exact hhash
          | some r =>
              obtain ⟨c, rest⟩ := r
              rw [hread] at hhash
              refine hhash.trans ?_
              have hval : Leads env hash
                  ([(19, .none), (17, .items c), (13, .none)] ++ σ, rest)
                  ((some (Data.hash c)).map fun v => ((15, .data v) :: σ, rest)) :=
                leads_value (s := 19)
                  (stack_lt (d := d + 3) (by simpa using hlen)
                    ((pHash_eq_some.mp hread).2)) rfl
                  (by decide) (fun _ => rfl) (by decide) rfl
                  (hgoto 12 (.inr (.inl rfl))) rfl
              exact hval
      | lparen =>
          -- the three symbols in front of the value are pushed one by one
          have hparen : ∀ r, (fits (d + 1) →
                Leads env hash ((14, .none) :: σ, ts) (push (d + 2) (push (d + 3) r))) →
              Leads env hash (σ, .lparen :: ts) (push (d + 3) r) := by
            intro r h
            rw [← push_push (d + 2), ← push_push (d + 1)]
            exact leads_push hlen hfits hstate (by decide) rfl h
          have hnone : yyaction 14 (lookahead ts) = .error →
              Leads env hash (σ, .lparen :: ts) none := by
            intro hact
            rw [← push_none (d + 3)]
            refine hparen none fun _ => ?_
            rw [push_none, push_none]
            exact leads_error (s := 14) rfl (by decide) hact
          cases ts with
          | nil => exact hnone rfl
          | cons t ts =>
              cases t with
              | name type =>
                  have hlen₁ : ((14, .none) :: σ : Stack τ).length = d + 1 + 1 := by
                    simpa using hlen
                  have hlen₂ : ((18, .name type) :: (14, .none) :: σ : Stack τ).length
                      = d + 2 + 1 := by
                    simpa using hlen
                  have hname : ∀ r, (fits (d + 2) →
                        Leads env hash ((18, .name type) :: (14, .none) :: σ, ts)
                          (push (d + 3) r)) →
                      Leads env hash (σ, .lparen :: .name type :: ts)
                        (push (d + 3) r) := by
                    intro r h
                    exact hparen r fun hfits' => leads_push (s := 14) hlen₁ hfits' rfl
                      (by decide) rfl h
                  have hnone' : yyaction 18 (lookahead ts) = .error →
                      Leads env hash (σ, .lparen :: .name type :: ts) none := by
                    intro hact
                    rw [← push_none (d + 3)]
                    refine hname none fun _ => ?_
                    rw [push_none]
                    exact leads_error (s := 18) rfl (by decide) hact
                  cases ts with
                  | nil => exact hnone' rfl
                  | cons t ts =>
                      cases t with
                      | rparen =>
                          rw [pValue, map_push]
                          refine hname _ fun hfits' => ?_
                          refine leads_push (s := 18) hlen₂ hfits' rfl (by decide) rfl
                            fun hfits'' => ?_
                          exact pTyped_leads hitems (by simp at hk; omega) (by omega)
                            hfits'' hstate
                      | _ => exact hnone' rfl
              | _ => exact hnone rfl
      | _ => exact herror rfl

/-! ## Items -/

/-- A state where an item can start. -/
def Starts (s : Nat) : Prop := s = 0 ∨ s = 10 ∨ s = 13 ∨ s = 22

theorem Starts.ne_final {s : Nat} (h : Starts s) : s ≠ YYFINAL := by
  rcases h with rfl | rfl | rfl | rfl <;> decide

theorem Starts.name {s : Nat} (h : Starts s) (x : List UInt8) :
    yyaction s (Token.name x).symbol = .shift 1 := by
  rcases h with rfl | rfl | rfl | rfl <;> rfl

theorem Starts.tnull {s : Nat} (h : Starts s) :
    yyaction s Token.tnull.symbol = .shift 2 := by
  rcases h with rfl | rfl | rfl | rfl <;> rfl

theorem Starts.goto_name {s : Nat} (h : Starts s) {rule : Nat}
    (hrule : rule = 8 ∨ rule = 9 ∨ rule = 10) : yygoto s rule = 6 := by
  rcases h with rfl | rfl | rfl | rfl <;> rcases hrule with rfl | rfl | rfl <;> rfl

theorem Starts.goto_null {s : Nat} (h : Starts s) : yygoto s 7 = yygoto s 6 := by
  rcases h with rfl | rfl | rfl | rfl <;> rfl

/-- `hash_name`, where the state does not take the token for the end of the list. -/
theorem pName_leads {s : Nat} (hs : Starts s) (hlen : σ.length = d + 1) (hfits : fits d)
    (hstate : Stack.state σ = s)
    (hnull : ¬(ts.head? = some .tnull ∧ ts.tail.head? ≠ some .assign))
    (hempty : (∀ x, ts.head? ≠ some (.name x)) → ts.head? ≠ some .tnull →
      yyaction s (lookahead ts) = .reduce 8) :
    Leads env hash (σ, ts) ((pName env d ts).map fun r => ((6, .key r.1) :: σ, r.2)) := by
  have heps : yyaction s (lookahead ts) = .reduce 8 →
      Leads env hash (σ, ts) ((push (d + 1) (some ((0 : UInt64), ts))).map fun r =>
        ((6, .key r.1) :: σ, r.2)) := by
    intro hact
    have hleads : Leads env hash ([] ++ σ, ts)
        (some ((yygoto (Stack.state σ) 8, .key 0) :: σ, ts)) :=
      leads_reduce (stack_lt hlen hfits) hstate hs.ne_final hact (by decide) rfl rfl
    rw [hstate, hs.goto_name (.inl rfl)] at hleads
    refine hleads.trans ?_
    rw [map_push, push]
    split
    · exact fun out hout => hout
    · next hfull =>
        refine leads_full ?_
        rw [List.length_cons, hlen]
        exact Nat.not_lt.mp fun hlt => hfull (decide_eq_true hlt)
  -- the token behind `NAME` or `NULL`
  have hbehind : ∀ {v : Value τ} {s₁ : Nat},
      ((s₁, v) :: σ : Stack τ).length = d + 1 + 1 := by
    intro v s₁
    simpa using hlen
  cases ts with
  | nil => exact heps (hempty (fun _ => by simp) (by simp))
  | cons t ts =>
      cases t with
      | name x =>
          cases ts with
          | nil =>
              rw [pName, ← push_none (d + 1), map_push]
              · refine leads_push hlen hfits hstate hs.ne_final (hs.name x) fun _ => ?_
                exact leads_error (s := 1) rfl (by decide) rfl
              · simp
          | cons t ts =>
              by_cases ht : t = .assign
              · subst ht
                rw [pName, map_push, ← push_push]
                refine leads_push hlen hfits hstate hs.ne_final (hs.name x)
                  fun hfits₁ => ?_
                refine leads_push (s := 1) hbehind hfits₁ rfl (by decide) rfl
                  fun hfits₂ => ?_
                have hlt : ([(7, .none), (1, .name x)] ++ σ : Stack τ).length
                    < YYMAXDEPTH :=
                  stack_lt (d := d + 2) (by simpa using hlen) hfits₂
                have hrule : ∀ v, ruleValue env 10 [.none, .name x] = some v →
                    Leads env hash ([(7, .none), (1, .name x)] ++ σ, ts)
                      (some ((6, v) :: σ, ts)) := by
                  intro v hv
                  have hleads : Leads env hash ([(7, .none), (1, .name x)] ++ σ, ts) _ :=
                    leads_reduce (s := 7) (r := 10) hlt rfl (by decide) rfl
                      (by decide) rfl hv
                  rwa [hstate, hs.goto_name (.inr (.inr rfl))] at hleads
                have habort : ruleValue env 10 [.none, .name x] = none →
                    Leads env hash ([(7, .none), (1, .name x)] ++ σ, ts) none := fun hv =>
                  leads_abort (s := 7) (r := 10) rfl (by decide) rfl rfl hv
                cases hkey : env.initKey x with
                | none => exact habort (by simp [ruleValue, hkey])
                | some key =>
                    by_cases hzero : key = 0
                    · rw [Option.bind_eq_bind, Option.bind_some, if_pos hzero]
                      exact habort (by simp [ruleValue, hkey, hzero])
                    · rw [Option.bind_eq_bind, Option.bind_some, if_neg hzero]
                      exact hrule _ (by simp [ruleValue, hkey, hzero])
              · rw [pName, ← push_none (d + 1), map_push]
                · refine leads_push hlen hfits hstate hs.ne_final (hs.name x) fun _ => ?_
                  refine leads_error (s := 1) rfl (by decide) ?_
                  cases t <;> first | rfl | exact absurd rfl ht
                · rintro _ heq
                  exact ht (List.cons.inj heq).1
      | tnull =>
          cases ts with
          | nil => exact absurd ⟨rfl, by simp⟩ hnull
          | cons t ts =>
              by_cases ht : t = .assign
              · subst ht
                rw [pName, map_push, ← push_push]
                refine leads_push hlen hfits hstate hs.ne_final hs.tnull fun hfits₁ => ?_
                refine leads_push (s := 2) hbehind hfits₁ rfl (by decide) rfl
                  fun hfits₂ => ?_
                have hleads : Leads env hash ([(8, .none), (2, .none)] ++ σ, ts) _ :=
                  leads_reduce (s := 8) (r := 9) (v := .key 0)
                    (stack_lt (d := d + 2) (by simpa using hlen) hfits₂) rfl
                    (by decide) rfl (by decide) rfl rfl
                rwa [hstate, hs.goto_name (.inr (.inl rfl))] at hleads
              · exact absurd ⟨rfl, by simpa using ht⟩ hnull
      | _ => exact heps (hempty (fun _ => by simp) (by simp))

/-- `hash_item`. -/
theorem pItem_leads (hitems : ItemsSpec env hash items k) (hshrinks : Shrinks items)
    (hk : ts.length ≤ k) {s : Nat} (hs : Starts s) (hlen : σ.length = d + 1)
    (hfits : fits d) (hstate : Stack.state σ = s)
    (hempty : (∀ x, ts.head? ≠ some (.name x)) → ts.head? ≠ some .tnull →
      yyaction s (lookahead ts) = .reduce 8) :
    Leads env hash (σ, ts)
      ((pItem env items d ts).map fun r => ((yygoto s 6, .item r.1) :: σ, r.2)) := by
  unfold pItem
  split
  · next hnull =>
      obtain ⟨hhead, hassign⟩ := hnull
      cases ts with
      | nil => cases hhead
      | cons t ts =>
          cases hhead
          rw [map_push]
          refine leads_push hlen hfits hstate hs.ne_final hs.tnull fun hfits' => ?_
          have hact : yyaction 2 (lookahead ts) = .reduce 7 := by
            cases ts with
            | nil => rfl
            | cons t ts => cases t <;> first | rfl | exact absurd rfl hassign
          have hleads : Leads env hash ([(2, .none)] ++ σ, ts) _ :=
            leads_reduce (s := 2) (r := 7) (v := .item .null)
              (stack_lt (d := d + 1) (by simpa using hlen) hfits') rfl (by decide)
              hact (by decide)
              rfl rfl
          rwa [hstate, hs.goto_null] at hleads
  · next hnull =>
      have hname : Leads env hash (σ, ts) _ :=
        pName_leads hs hlen hfits hstate hnull hempty
      cases hread : pName env d ts with
      | none =>
          rw [hread] at hname
          exact hname
      | some r =>
          obtain ⟨key, rest⟩ := r
          rw [hread] at hname
          obtain ⟨hfits', hle⟩ := pName_length hread
          refine hname.trans ?_
          have hvalue : Leads env hash ((6, .key key) :: σ, rest) _ :=
            pValue_leads (d := d + 1) hitems (le_trans hle hk) (by simpa using hlen)
              hfits' rfl
          cases hread' : pValue env items (d + 1) rest with
          | none =>
              rw [hread'] at hvalue
              simpa [hread'] using hvalue
          | some r =>
              obtain ⟨v, rest'⟩ := r
              rw [hread'] at hvalue
              have hfits'' := (pValue_length hshrinks hread').1
              refine hvalue.trans ?_
              have hleads : Leads env hash
                  ([(15, .data v), (6, .key key)] ++ σ, rest') _ :=
                leads_reduce (s := 15) (r := 6) (v := .item (.item key v))
                  (stack_lt (d := d + 2) (by simpa using hlen) hfits'') rfl
                  (by decide) rfl (by decide) rfl rfl
              rw [hstate] at hleads
              simpa [hread'] using hleads

/-- The state behind `hash_items`, from the one in front. -/
theorem goto_items {s : Nat} (hs : s = 0 ∨ s = 13 ∨ s = 22) {rule : Nat}
    (hrule : rule = 3 ∨ rule = 4 ∨ rule = 5) : yygoto s rule = yygoto s 3 := by
  rcases hs with rfl | rfl | rfl <;> rcases hrule with rfl | rfl | rfl <;> rfl

theorem goto_item {s : Nat} (hs : s = 0 ∨ s = 13 ∨ s = 22) : yygoto s 6 = 5 := by
  rcases hs with rfl | rfl | rfl <;> rfl

theorem items_ne_final {s : Nat} (hs : s = 0 ∨ s = 13 ∨ s = 22) :
    yygoto s 3 ≠ YYFINAL := by
  rcases hs with rfl | rfl | rfl <;> decide

theorem items_comma {s : Nat} (hs : s = 0 ∨ s = 13 ∨ s = 22) :
    yyaction (yygoto s 3) Token.comma.symbol = .shift 10 := by
  rcases hs with rfl | rfl | rfl <;> rfl

/-- Behind a comma there is an item, with no name if nothing else. -/
theorem comma_reduce (hname : ∀ x, ts.head? ≠ some (.name x))
    (hnull : ts.head? ≠ some .tnull) : yyaction 10 (lookahead ts) = .reduce 8 := by
  cases ts with
  | nil => rfl
  | cons t ts =>
      cases t <;> first | rfl | exact absurd rfl (hname _) | exact absurd rfl hnull

/-- The list is empty where the reader says so. -/
theorem ends_reduce {nested : Bool} {s : Nat}
    (hs : nested = false ∧ s = 0 ∨ nested = true ∧ (s = 13 ∨ s = 22))
    (hends : endsHere nested ts) : yyaction s (lookahead ts) = .reduce 3 := by
  rcases hs with ⟨rfl, rfl⟩ | ⟨rfl, rfl | rfl⟩ <;> cases ts with
  | nil => first | rfl | cases hends
  | cons t ts => cases t <;> first | rfl | cases hends

theorem starts_reduce {nested : Bool} {s : Nat}
    (hs : nested = false ∧ s = 0 ∨ nested = true ∧ (s = 13 ∨ s = 22))
    (hends : ¬endsHere nested ts) (hname : ∀ x, ts.head? ≠ some (.name x))
    (hnull : ts.head? ≠ some .tnull) : yyaction s (lookahead ts) = .reduce 8 := by
  rcases hs with ⟨rfl, rfl⟩ | ⟨rfl, rfl | rfl⟩ <;> cases ts with
  | nil => first | rfl | exact absurd rfl hends
  | cons t ts =>
      cases t <;>
        first | rfl | exact absurd rfl hends | exact absurd rfl (hname _)
              | exact absurd rfl hnull

/-- A list is at the top of the stack, or it is about to start. -/
def listStack (σ : Stack τ) : Option (Items τ) → Stack τ
  | none => σ
  | some c => (yygoto (Stack.state σ) 3, .items c) :: σ

theorem pItems_post {n : Nat} {nested : Bool} {c : Option (Items τ)} {c' : Items τ}
    {rest : List Token} (hc : c.isSome → fits (d + 1))
    (h : pItems env n nested d c ts = some (c', rest)) :
    fits (d + 1) ∧ rest.head? ≠ some .comma := by
  induction n generalizing c ts with
  | zero => cases h
  | succ n ih =>
      have hshrinks : Shrinks (fun d ts => pItems env n true d none ts) :=
        fun d ts c rest h => pItems_length h
      cases c with
      | none =>
          rw [pItems_start] at h
          split at h
          · obtain ⟨hfits, h⟩ := push_eq_some.mp h
            exact ih (fun _ => hfits) h
          · obtain ⟨⟨it, ts'⟩, hit, h⟩ := Option.bind_eq_some_iff.mp h
            exact ih (fun _ => (pItem_length hshrinks hit).1) h
      | some c =>
          by_cases hhead : ts.head? = some .comma
          · obtain ⟨ts, rfl⟩ := List.head?_eq_some_iff.mp hhead
            rw [pItems_comma, push_eq_some] at h
            obtain ⟨⟨it, ts'⟩, hit, h⟩ := Option.bind_eq_some_iff.mp h.2
            exact ih (fun _ => hc rfl) h
          · rw [pItems_end n nested d c hhead] at h
            cases h
            exact ⟨hc rfl, hhead⟩

/-- `hash_items`. -/
theorem pItems_leads {n : Nat} {nested : Bool} {c : Option (Items τ)} {s : Nat}
    (hs : nested = false ∧ s = 0 ∨ nested = true ∧ (s = 13 ∨ s = 22))
    (hfuel : 2 * ts.length + (if c.isSome then 1 else 2) ≤ n) (hlen : σ.length = d + 1)
    (hfits : fits d) (hstate : Stack.state σ = s) (hc : c.isSome → fits (d + 1)) :
    Leads env hash (listStack σ c, ts)
      ((pItems env n nested d c ts).map fun r =>
        ((yygoto s 3, .items r.1) :: σ, r.2)) := by
  induction n generalizing nested c s σ d ts with
  | zero => split at hfuel <;> omega
  | succ n ih =>
      have hstarts : s = 0 ∨ s = 13 ∨ s = 22 := by omega
      have hstart : Starts s := by rcases hstarts with rfl | rfl | rfl <;> simp [Starts]
      have hshrinks : Shrinks (fun d ts => pItems env n true d none ts) :=
        fun d ts c rest h => pItems_length h
      -- the lists in the items of this one
      have hitems : ∀ k, 2 * k ≤ n →
          ItemsSpec env hash (fun d ts => pItems env n true d none ts) k := by
        intro k hk σ d ts hts hlen hfits hnested
        refine ⟨ih (.inr ⟨rfl, hnested⟩) ?_ hlen hfits rfl (fun h => (nomatch h)), ?_⟩
        · simp only [Option.isSome_none, Bool.false_eq_true, if_false]
          omega
        · exact fun c rest => pItems_post (fun h => (nomatch h))
      -- behind an item
      have hbehind : ∀ c rest, 2 * rest.length + 1 ≤ n → fits (d + 1) →
          Leads env hash ((yygoto s 3, .items c) :: σ, rest)
            ((pItems env n nested d (some c) rest).map fun r =>
              ((yygoto s 3, .items r.1) :: σ, r.2)) := by
        intro c rest hfuel hfits'
        have hleads : Leads env hash (listStack σ (some c), rest) _ :=
          ih hs (by simpa using hfuel) hlen hfits hstate (fun _ => hfits')
        rwa [listStack, hstate] at hleads
      cases c with
      | none =>
          simp only [Option.isSome_none, Bool.false_eq_true, if_false] at hfuel
          rw [pItems_start]
          split
          · next hends =>
              have hact : yyaction s (lookahead ts) = .reduce 3 := ends_reduce hs hends
              have hleads : Leads env hash ([] ++ σ, ts) _ :=
                leads_reduce (v := .items .done) (stack_lt hlen hfits) hstate
                  hstart.ne_final hact (by decide) rfl rfl
              rw [hstate] at hleads
              refine hleads.trans ?_
              rw [map_push, push]
              split
              · next hfits' => exact hbehind _ _ (by omega) hfits'
              · next hfull =>
                  refine leads_full ?_
                  rw [List.length_cons, hlen]
                  exact Nat.not_lt.mp fun hlt => hfull (decide_eq_true hlt)
          · next hends =>
              have hitem : Leads env hash (σ, ts) _ :=
                pItem_leads (hitems ts.length (by omega)) hshrinks le_rfl hstart hlen
                  hfits hstate (starts_reduce hs hends)
              cases hread : pItem env (fun d ts => pItems env n true d none ts) d ts with
              | none =>
                  rw [hread] at hitem
                  exact hitem
              | some r =>
                  obtain ⟨it, rest⟩ := r
                  rw [hread, Option.map_some, goto_item hstarts] at hitem
                  obtain ⟨hfits', hlt⟩ := pItem_length hshrinks hread
                  refine hitem.trans ?_
                  have hleads : Leads env hash ([(5, .item it)] ++ σ, rest) _ :=
                    leads_reduce (s := 5) (r := 4) (v := .items (it.cons .done))
                      (stack_lt (d := d + 1) (by simpa using hlen) hfits') rfl
                      (by decide) rfl (by decide) rfl rfl
                  rw [hstate, goto_items hstarts (.inr (.inl rfl))] at hleads
                  refine hleads.trans ?_
                  refine (hbehind _ _ ?_ hfits')
                  omega
      | some c =>
          simp only [Option.isSome_some, if_true] at hfuel
          by_cases hhead : ts.head? = some .comma
          · obtain ⟨ts, rfl⟩ := List.head?_eq_some_iff.mp hhead
            simp only [List.length_cons] at hfuel
            have hfits₁ := hc rfl
            rw [pItems_comma, map_push]
            have hlen₁ : (listStack σ (some c)).length = d + 1 + 1 := by
              simpa [listStack] using hlen
            have htop : Stack.state (listStack σ (some c)) = yygoto s 3 := by
              rw [← hstate]
              rfl
            refine leads_push hlen₁ hfits₁ htop (items_ne_final hstarts)
              (items_comma hstarts) fun hfits₂ => ?_
            have hitem : Leads env hash ((10, .none) :: listStack σ (some c), ts) _ :=
              pItem_leads (d := d + 2) (hitems ts.length (by omega)) hshrinks le_rfl
                (.inr (.inl rfl)) (by simpa using hlen₁) hfits₂ rfl comma_reduce
            cases hread : pItem env (fun d ts => pItems env n true d none ts)
              (d + 2) ts with
            | none =>
                rw [hread] at hitem
                exact hitem
            | some r =>
                obtain ⟨it, rest⟩ := r
                rw [hread] at hitem
                obtain ⟨hfits₃, hlt⟩ := pItem_length hshrinks hread
                refine hitem.trans ?_
                have hleads : Leads env hash
                    ([(16, .item it), (10, .none), (yygoto s 3, .items c)] ++ σ, rest)
                    _ :=
                  leads_reduce (s := 16) (r := 5) (v := .items (it.cons c))
                    (stack_lt (d := d + 3) (by simpa using hlen) hfits₃) rfl
                    (by decide) rfl (by decide) rfl rfl
                rw [hstate, goto_items hstarts (.inr (.inr rfl))] at hleads
                rw [listStack, hstate]
                refine hleads.trans ?_
                refine hbehind _ _ ?_ hfits₁
                omega
          · rw [pItems_end n nested d c hhead, listStack, hstate]
            exact fun out hout => hout

end

/-! ## The whole text -/

/-- What the parser makes of tokens. -/
def readItems (env : Env τ) (ts : List Token) : Option (Items τ) :=
  (pItems env (2 * ts.length + 2) false 0 none ts).map Prod.fst

/-- The whole list is a default reduction: it is the result whatever follows it. -/
theorem start_returns {c : Items τ} {ts : List Token} (hhead : ts.head? ≠ some .comma) :
    Returns (fun n => yyparse env n [(4, .items c), (0, .none)] ts none) (some c) := by
  have hact : yyaction 4 (lookahead ts) = .reduce 2 := by
    cases ts with
    | nil => rfl
    | cons t ts => cases t <;> first | rfl | exact absurd rfl hhead
  have hstart : Returns (fun n => yyparse env n [(3, .none), (0, .none)] ts (some c))
      (some c) := by
    cases ts with
    | nil => exact .of_succ (.of_succ (.of_forall fun n => rfl))
    | cons t ts => exact .of_succ (.of_forall fun n => by cases t <;> rfl)
  refine .of_succ ?_
  have hstate : Stack.state [(4, Value.items c), (0, .none)] = 4 := rfl
  have hgoto : yygoto 0 2 = 3 := rfl
  simpa [yyparse, YYMAXDEPTH, hstate, YYFINAL, hact, yyr2, ruleValue, ruleResult,
    Stack.state, hgoto] using hstart

theorem configsStringParse_returns (env : Env τ) (string : List UInt8) :
    Returns (fun n => configsStringParse env n string)
      (readItems env (lex (string.takeWhile (· ≠ 0)))) := by
  have hleads : ∀ ts, Leads env none ([(0, .none)], ts)
      ((pItems env (2 * ts.length + 2) false 0 none ts).map fun r =>
        ([(4, .items r.1), (0, .none)], r.2)) := fun ts =>
    pItems_leads (σ := [(0, .none)]) (c := none) (.inl ⟨rfl, rfl⟩) le_rfl rfl rfl rfl
      (fun h => (nomatch h))
  have hread := hleads (lex (string.takeWhile (· ≠ 0)))
  unfold configsStringParse readItems
  cases hitems : pItems env _ false 0 none (lex (string.takeWhile (· ≠ 0))) with
  | none =>
      rw [hitems] at hread
      exact hread
  | some r =>
      rw [hitems] at hread
      obtain ⟨c, rest⟩ := r
      exact hread _ (start_returns (pItems_post (by simp) hitems).2)

end

end Frozen.Config
