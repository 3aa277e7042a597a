/-
# `Frozen.Config.Roundtrip` — which configurations the parser reads back

A written configuration comes back as its items, reversed at every level, unless an
action stands in it without a name or it needs more of the stack than there is.  A text
that is no configuration comes back as `NULL`, unless it starts with one that the parser
takes for the whole.

    Doc.denote                what the actions make of a configuration
    configsStringParse_iff    both
-/
import Mathlib.Data.List.TakeWhile
import Frozen.Config.Text

namespace Frozen.Config

open Lib

section

variable {τ : Type} {env : Env τ}

/-! ## Symbols on the stack -/

theorem push_max {α : Type} (m k : Nat) (x : Option α) :
    push m (push k x) = push (max m k) x := by
  have hfits : fits (max m k) ↔ fits m ∧ fits k := by
    simp only [fits, decide_eq_true_eq]
    omega
  by_cases hm : fits m <;> by_cases hk : fits k <;> simp [push, hm, hk, hfits]

theorem push_bind {α β : Type} (m : Nat) (x : Option α) (f : α → Option β) :
    (push m x).bind f = push m (x.bind f) := by
  unfold push
  split <;> rfl

/-! ## Lists of items -/

/-- What the actions make of a node that has `h` symbols on the stack at most. -/
def NodeDenotes (env : Env τ) (u : Node) (h : Nat) (x : Option (Item τ)) : Prop :=
  ∀ d, u.denote env d = push (d + h) x

/-- The most symbols of items behind commas. -/
def tailHeight (hs : List Nat) : Nat := hs.foldr (fun h m => max (2 + h) m) 0

theorem listHeight_cons (h : Nat) (hs : List Nat) :
    listHeight (h :: hs) = max h (tailHeight hs) := by
  rw [listHeight, tailHeight]
  induction hs with
  | nil => simp
  | cons h' hs ih =>
      rw [List.foldr_cons, List.foldr_cons, ih]
      omega

/-- What the actions make of nodes behind commas, in front of items. -/
def TailDenotes (env : Env τ) (us : List Node) (hs : List Nat)
    (f : Items τ → Option (Items τ)) : Prop :=
  ∀ d c m, d ≤ m →
    push m ((Tail.ofNodes us).denote env d c) = push (max m (d + tailHeight hs)) (f c)

theorem tailDenotes_nil : TailDenotes env [] [] some := by
  intro d c m hm
  rw [tailHeight, List.foldr_nil, Nat.add_zero, max_eq_left hm]
  rfl

theorem TailDenotes.cons {u : Node} {us : List Node} {h : Nat} {hs : List Nat}
    {x : Option (Item τ)} {f : Items τ → Option (Items τ)} (hu : NodeDenotes env u h x)
    (hus : TailDenotes env us hs f) :
    TailDenotes env (u :: us) (h :: hs) fun c => x.bind fun it => f (it.cons c) := by
  intro d c m hm
  have hmax : max (max m (max (d + 2) (d + 2 + h))) (d + tailHeight hs) =
      max m (d + tailHeight (h :: hs)) := by
    simp only [tailHeight, List.foldr_cons]
    omega
  rw [Tail.ofNodes, Tail.denote, hu, push_bind, push_max (d + 2), push_max, ← hmax]
  cases x with
  | none => exact (push_none _).trans (push_none _).symm
  | some it => exact hus d _ _ (le_trans hm (le_max_left _ _))

theorem Tree.denote_ofNodes_cons {u : Node} {us : List Node} {h : Nat} {hs : List Nat}
    {x : Option (Item τ)} {f : Items τ → Option (Items τ)} (hu : NodeDenotes env u h x)
    (hus : TailDenotes env us hs f) (d : Nat) :
    (Tree.ofNodes (u :: us)).denote env d =
      push (d + listHeight (h :: hs)) (x.bind fun it => f (it.cons .done)) := by
  have hmax : max (d + h) (d + tailHeight hs) = d + listHeight (h :: hs) := by
    rw [listHeight_cons]
    omega
  rw [Tree.ofNodes, Tree.denote, hu, push_bind, ← hmax]
  cases x with
  | none => exact (push_none _).trans (push_none _).symm
  | some it => exact hus d _ _ (Nat.le_add_right d h)

/-! ## Items -/

/-- A name is read where the value is, unless there is none and the
value is a constant. -/
theorem Naming.denote (name : Naming env) {constant : Bool}
    (h : name = none → constant = false) {α : Type} (d : Nat) (f : UInt64 → Option α) :
    (name.label.denote env d constant).bind (fun key => push (d + 2) (f key)) =
      push (d + 2) (f name.key) := by
  cases name with
  | none =>
      rw [Naming.label, Label.denote, h rfl, if_neg (by simp), push_bind,
        Option.bind_some, push_max, max_eq_right (by omega)]
      rfl
  | some n =>
      rw [Naming.label, Label.denote, n.1.known, Option.bind_some,
        if_neg n.1.nonzero, push_bind, Option.bind_some, push_max, max_self]
      rfl

theorem nodeDenotes_string (name : Naming env) (s : List UInt8) :
    NodeDenotes env (.item name.label (.string s)) 2
      (some (.item name.key (.string s))) := by
  intro d
  simp only [Node.denote, Val.denote, map_push]
  exact name.denote (fun _ => rfl) d fun key => some (Item.item key (.string s))

theorem nodeDenotes_action (name : Naming env) (a : KnownAction env) :
    NodeDenotes env (.item name.label (.constant a.toWord.bytes)) 2
      (if name.isSome then some (.item name.key (.action a.action)) else none) := by
  intro d
  cases name with
  | none => exact (push_none _).symm
  | some n =>
      simp only [Node.denote, Val.denote, map_push, a.known]
      exact Naming.denote (some n) (fun h => (nomatch h)) d fun key =>
        some (Item.item key (.action a.action))

theorem nodeDenotes_hash (name : Naming env) {sub : Tree} {h : Nat} {x : Option (Items τ)}
    (hsub : ∀ d, sub.denote env d = push (d + h) x) :
    NodeDenotes env (.item name.label (.hash sub)) (max 4 (2 + h))
      (x.map fun c => .item name.key (.hash c)) := by
  intro d
  have hmax : max (d + 2) (max (d + 2 + h) (d + 4)) = d + max 4 (2 + h) := by omega
  simp only [Node.denote, Val.denote, map_push, hsub, push_bind]
  rw [← hmax, ← push_max, ← push_max]
  refine (name.denote (fun _ => rfl) d fun key =>
    push (d + 2 + h) ((x.bind fun c => push (d + 4) (some (Data.hash c))).map
      (Item.item key))).trans ?_
  cases x with
  | none => simp only [Option.bind_none, Option.map_none, push_none]
  | some c => simp only [Option.bind_some, Option.map_some, map_push]

/-! ## Configurations -/

/-- What the actions make of a configuration. -/
theorem Doc.denotes (doc : Doc env) :
    TailDenotes env doc.nodes doc.heights (fun c =>
      if doc.constantsNamed then some (doc.items.reverseOnto c) else none) ∧
    ∀ d, (Tree.ofNodes doc.nodes).denote env d = push (d + listHeight doc.heights)
      (if doc.constantsNamed then some doc.items.reversed else none) := by
  -- an item in front of others
  have hstep : ∀ {u : Node} {rest : Doc env} {h : Nat} {x : Option (Item τ)} {b : Bool}
      {f : Items τ → Items τ}, NodeDenotes env u h x →
      TailDenotes env rest.nodes rest.heights (fun c =>
        if rest.constantsNamed then some (rest.items.reverseOnto c) else none) →
      (∀ c, (x.bind fun it => if rest.constantsNamed
        then some (rest.items.reverseOnto (it.cons c))
        else none) = if b then some (f c) else none) →
      TailDenotes env (u :: rest.nodes) (h :: rest.heights)
        (fun c => if b then some (f c) else none) ∧
      ∀ d, (Tree.ofNodes (u :: rest.nodes)).denote env d
        = push (d + listHeight (h :: rest.heights))
        (if b then some (f .done) else none) := by
    intro u rest h x b f hu hrest hx
    refine ⟨?_, fun d => ?_⟩
    · have htail := TailDenotes.cons hu hrest
      rwa [funext hx] at htail
    · rw [← hx]
      exact Tree.denote_ofNodes_cons hu hrest d
  induction doc with
  | done => exact ⟨tailDenotes_nil, fun d => rfl⟩
  | string name q rest ih =>
      exact hstep (nodeDenotes_string name q.bytes) ih.1 fun c => rfl
  | action name a rest ih =>
      refine hstep (nodeDenotes_action name a) ih.1 fun c => ?_
      cases name with
      | none => rfl
      | some n => rfl
  | hash name sub rest ihsub ih =>
      refine hstep (nodeDenotes_hash name ihsub.2) ih.1 fun c => ?_
      rw [Doc.constantsNamed]
      cases sub.constantsNamed with
      | false => rfl
      | true => rfl

/-! ## Texts -/

/-- A configuration is read back as its items, reversed at every level. -/
def RoundTrips (doc : Doc env) (layout : Layout) : Prop :=
  Returns (fun n => configsStringParse env n (doc.text layout)) (some doc.items.reversed)

/-- The whole text is tokens of the grammar and blanks. -/
def Grammatical (string : List UInt8) : Prop :=
  ∃ t : Tree, Lexes (string.takeWhile (· ≠ 0)) t.tokens

/-- A text outside the grammar is refused. -/
def Refuses (env : Env τ) (string : List UInt8) : Prop :=
  ¬Grammatical string → Returns (fun n => configsStringParse env n string) none

/-- The text starts with a configuration that has a value, and a token that cannot go on
with it follows, if anything. -/
def StartsWithItems (env : Env τ) (string : List UInt8) : Prop :=
  ∃ t c, Heads env (lex (string.takeWhile (· ≠ 0))) t c

theorem configsStringParse_eq_iff {string : List UInt8} {out : Option (Items τ)} :
    Returns (fun n => configsStringParse env n string) out ↔
      readItems env (lex (string.takeWhile (· ≠ 0))) = out := by
  have hreturns := configsStringParse_returns env string
  exact ⟨hreturns.unique, fun h => h ▸ hreturns⟩

theorem follows_nil (t : Tree) : Follows false t [] where
  comma := by simp
  assign := by simp
  empty := fun _ => rfl

theorem readItems_tokens (t : Tree) : readItems env t.tokens = t.denote env 0 := by
  have hread : pItems env _ false 0 none (t.tokens ++ []) = _ :=
    t.reads le_rfl (follows_nil t)
  rw [List.append_nil] at hread
  rw [readItems, hread, Option.map_map]
  exact Option.map_id_apply

/-- A configuration is read as what the actions make of it. -/
theorem Doc.readItems_eq (doc : Doc env) (layout : Layout) :
    readItems env (lex ((doc.text layout).takeWhile (· ≠ 0)))
      = push (listHeight doc.heights)
      (if doc.constantsNamed then some doc.items.reversed else none) := by
  have hzero : (doc.text layout).takeWhile (· ≠ 0) = doc.text layout :=
    List.takeWhile_eq_self_iff.mpr fun b hb => decide_eq_true (render_ne_zero _ _ b hb)
  rw [hzero, (doc.lexes layout).lex_eq, readItems_tokens, doc.denotes.2 0, Nat.zero_add]

/-- Both hold where no action stands without a name and the stack is large enough, and
where a text outside the grammar does not start with items. -/
theorem configsStringParse_iff (env : Env τ) :
    (∀ (doc : Doc env) (layout : Layout), RoundTrips doc layout ↔
      doc.constantsNamed ∧ listHeight doc.heights + 1 < YYMAXDEPTH) ∧
    ∀ string, Refuses env string ↔
      ¬(¬Grammatical string ∧ StartsWithItems env string) := by
  constructor
  · intro doc layout
    rw [RoundTrips, configsStringParse_eq_iff, doc.readItems_eq, push_eq_some]
    constructor
    · rintro ⟨hfits, hsome⟩
      refine ⟨?_, of_decide_eq_true hfits⟩
      by_contra hnamed
      rw [if_neg hnamed] at hsome
      cases hsome
    · rintro ⟨hnamed, hfits⟩
      exact ⟨decide_eq_true hfits, if_pos hnamed⟩
  · intro string
    have hnone : Returns (fun n => configsStringParse env n string) none ↔
        ¬StartsWithItems env string := by
      rw [configsStringParse_eq_iff, Option.eq_none_iff_forall_not_mem]
      constructor
      · rintro h ⟨t, c, hheads⟩
        exact h c (readItems_eq_some_iff.mpr ⟨t, hheads⟩)
      · intro h c hc
        obtain ⟨t, hheads⟩ := readItems_eq_some_iff.mp hc
        exact h ⟨t, c, hheads⟩
    rw [Refuses, hnone, not_and]

end

/-! ## Texts where it fails -/

/-- `request_str_to_action`, with the numbers of `data_functions`. -/
def requestStrToAction (string : List UInt8) : Option UInt32 :=
  match string.map toLower with
  | [99, 114, 101, 97, 116, 101] => some 0
  | [119, 114, 105, 116, 101] => some 20
  | [114, 101, 97, 100] => some 19
  | [100, 101, 108, 101, 116, 101] => some 1
  | [109, 111, 118, 101] => some 2
  | [99, 111, 117, 110, 116] => some 3
  | [99, 117, 115, 116, 111, 109] => some 4
  | [99, 111, 109, 112, 97, 114, 101] => some 12
  | _ => none

/-- No keys and no types, and the actions of the library. -/
def actionsOnly : Env Empty where
  initKey := fun _ => some 0
  regular := by
    rintro s key h
    cases h
    decide
  strToAction := requestStrToAction
  initData := fun _ _ => none
  convertData := fun _ _ => none

/-- `create` -/
def createDoc : Doc actionsOnly :=
  .action none
    { first := 99, others := [114, 101, 97, 116, 101], letter := rfl,
      names := List.all_eq_true.mp rfl,
      notNull := rfl, action := 0, known := rfl } .done

/-- `create` without a name is refused, and `'a' }` is taken for `'a'`. -/
theorem create_refused : ¬RoundTrips createDoc (fun _ => ⟨[], by simp⟩) ∧
    ¬Refuses actionsOnly [39, 97, 39, 32, 125] := by
  constructor
  · intro h
    cases configsStringParse_eq_iff.mp h
  · intro h
    have hread : pItems actionsOnly 6 false 0 none [.string [97], .rbrace] =
        some (.string 0 [97] .done, [.rbrace]) := rfl
    have houtside : ¬Grammatical [39, 97, 39, 32, 125] := by
      rintro ⟨t, hlexes⟩
      have htokens : t.tokens = [.string [97], .rbrace] := hlexes.lex_eq.symm
      have hlen : 2 * t.tokens.length + 2 ≤ 6 := by rw [htokens]; decide
      have hwhole : pItems actionsOnly 6 false 0 none (t.tokens ++ []) = _ :=
        t.reads hlen (follows_nil t)
      rw [List.append_nil, htokens, hread] at hwhole
      cases hdenote : t.denote actionsOnly 0 with
      | none => rw [hdenote] at hwhole; cases hwhole
      | some c => rw [hdenote] at hwhole; cases hwhole
    cases configsStringParse_eq_iff.mp (h houtside)

end Frozen.Config
