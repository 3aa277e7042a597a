/-
# `Frozen.Hash.Compare` — the comparison of two hashes

`data_hash_t_compare` goes through the first hash with `hash_iter` and looks every item
up in the second one; the result travels in the arguments of the call, and the callback
breaks at the first item that has no equal.  An item may hold a hash itself, so the
comparison of two values is this comparison again.

The iteration comes to a walk through the visited items, and of each item it only
matters whether it matches and with which result it breaks otherwise;
`hashCompare_inclusion` is what follows for the whole.
-/
import Frozen.Hash.Memory
import Frozen.Core.Base

namespace Frozen.Hash

open Binary (Key hashPtrNull hashPtrEnd hashPtrInline)
open Lib

/-! ## Values -/

/-- `data_t`: a hash, or a value of another type. -/
inductive Value (δ : Type) where
  | hasht (ptr : Option Nat)
  | other (v : δ)

/-- `data` of an item, as a holder; that of a mark is a hash. -/
def Cell.held {δ : Type} (c : Cell (Value δ)) : Value δ :=
  match c.data with
  | .value v => v
  | .ptr p => .hasht p

section

variable {δ : Type} (mem : Nat → Cell (Value δ))

/-! ## The comparison -/

section

variable (compare : Value δ → Option (Value δ) → UInt64 → Except OutOfFuel (Int × UInt64))
  (n : Nat) (hash₂ : Option Nat)

/-- `data_hash_t_compare_iter`: the answer of the callback, and `fargs->result`. -/
def compareIter (hash₁Item : Nat) (result : Except OutOfFuel UInt64) :
    Int × Except OutOfFuel UInt64 :=
  match hashFind mem (mem hash₁Item).key n hash₂ with
  | .error e => (ITER_BREAK, .error e)
  | .ok none => (ITER_BREAK, .ok 2)
  | .ok (some hash₂Item) =>
      match compare (mem hash₁Item).held (some (mem hash₂Item).held) 0 with
      | .error e => (ITER_BREAK, .error e)
      | .ok (ret, r) =>
          if ret ≠ 0 then (ITER_BREAK, .ok 2)
          else if r ≠ 0 then (ITER_BREAK, .ok r)
          else (ITER_CONTINUE, result)

end

variable (other : δ → Option (Value δ) → UInt64 → Int × UInt64)

/-- `ACTION_COMPARE` with `data2` and what `result` holds: `data_hash_t_compare` for a
hash, `other` for the types that are none. -/
def dataCompare : Nat → Value δ → Option (Value δ) → UInt64 →
    Except OutOfFuel (Int × UInt64)
  | 0, _, _, _ => .error .outOfFuel
  | _ + 1, .other v, data₂, result => .ok (other v data₂ result)
  | _ + 1, .hasht _, none, result => .ok (-EINVAL, result)
  | _ + 1, .hasht _, some (.other _), result => .ok (-EINVAL, result)
  | _ + 1, .hasht none, some (.hasht _), _ => .ok (0, 0)
  | n + 1, .hasht (some hash₁), some (.hasht hash₂), result => do
      let r ← hashIter mem noFlags (compareIter mem (dataCompare n) n hash₂) n
        (some hash₁) (.ok result)
      let result ← r.2
      .ok (0, if r.1 = ITER_OK then 0 else result)

/-! ## What it says -/

/-- A value whose hashes end, to any depth. -/
inductive Deep : Value δ → Prop
  | other (v : δ) : Deep (.other v)
  | null : Deep (.hasht none)
  | hash {a : Nat} {h : Binary.Hash (Value δ)} :
      Rep mem (fun _ => True) a h → (∀ p ∈ h.items, Deep p.2) → Deep (.hasht (some a))

/-- The item at `b` has one of the same key in the second hash, and their
values are equal. -/
def Matches (hash₂ : Option Nat) (b : Nat) : Prop :=
  ∃ c, Returns (fun n => hashFind mem (mem b).key n hash₂) (some c) ∧
  (mem c).key = (mem b).key ∧
    Returns (fun n => dataCompare mem other n (mem b).held (some (mem c).held) 0) (0, 0)

/-- The items that `hash_iter` visits. -/
def Visits (hash : Option Nat) (visited : List Nat) : Prop :=
  Returns (fun n => Prod.snd <$> hashIter mem noFlags note n hash []) visited

end

/-! ## One item -/

section

variable {δ : Type} {mem : Nat → Cell (Value δ)}
  {other : δ → Option (Value δ) → UInt64 → Int × UInt64}

/-- What a callback or a walk answers: it is through, or it breaks with a result. -/
def answer (through : Int) (result : Except OutOfFuel UInt64) :
    Option UInt64 → Int × Except OutOfFuel UInt64
  | none => (through, result)
  | some x => (ITER_BREAK, .ok x)

theorem compareIter_ne_ok
    (compare : Value δ → Option (Value δ) → UInt64 → Except OutOfFuel (Int × UInt64))
    (n : Nat) (hash₂ : Option Nat) (b : Nat) (result : Except OutOfFuel UInt64) :
    (compareIter mem compare n hash₂ b result).1 ≠ ITER_OK := by
  have hbreak : ITER_BREAK ≠ ITER_OK := by decide
  have hcontinue : ITER_CONTINUE ≠ ITER_OK := by decide
  unfold compareIter
  split
  · exact hbreak
  · exact hbreak
  · split
    · exact hbreak
    · split_ifs
      · exact hbreak
      · exact hbreak
      · exact hcontinue

/-- A hash that ends is searched: what is found has the key, and is a value that ends. -/
theorem Deep.find {hash₂ : Option Nat} (hdeep : Deep mem (.hasht hash₂)) (key : Key) :
    ∃ found, Returns (fun n => hashFind mem key.id n hash₂) found ∧
      ∀ c, found = some c → (mem c).key = key.id ∧ Deep mem (mem c).held := by
  cases hdeep with
  | null => exact ⟨none, .of_succ (.of_forall fun n => rfl), fun c hc => nomatch hc⟩
  | @hash a h hrep hitems =>
      obtain ⟨visited, hholds, -, hfind⟩ := hrep.walks
      refine ⟨_, hfind key, fun c hc => ⟨by simpa using List.find?_some hc, ?_⟩⟩
      obtain ⟨p, hp, hcell⟩ := hholds.exists_item (List.mem_of_find?_eq_some hc)
      rw [hcell]
      exact hitems p hp

/-- The callback on one item whose value can be compared. -/
theorem compareIter_item {hash₂ : Option Nat} {b : Nat} {key : Key}
    (hkey : (mem b).key = key.id) (hdeep : Deep mem (.hasht hash₂))
    (hvalue : ∀ data₂, Deep mem data₂ →
      ∃ r, Returns (fun n => dataCompare mem other n (mem b).held (some data₂) 0) r) :
    ∃ o, (o = none ↔ Matches mem other hash₂ b) ∧ o ≠ some 0 ∧
      ∃ N, ∀ n, N ≤ n → ∀ result,
        compareIter mem (dataCompare mem other n) n hash₂ b result
    = answer ITER_CONTINUE result o := by
  obtain ⟨found, hfind, hfound⟩ := hdeep.find key
  rw [← hkey] at hfind
  cases found with
  | none =>
      refine ⟨some 2, iff_of_false (by simp) ?_, by simp, ?_⟩
      · rintro ⟨c, hc, -⟩
        exact nomatch hfind.unique hc
      · obtain ⟨N, hN⟩ := hfind
        refine ⟨N, fun n hn result => ?_⟩
        simp only [compareIter, hN n hn, answer]
  | some c =>
      obtain ⟨hckey, hcdeep⟩ := hfound c rfl
      obtain ⟨r, hr⟩ := hvalue _ hcdeep
      have hmatches : Matches mem other hash₂ b ↔ r = (0, 0) := by
        constructor
        · rintro ⟨c', hc', -, hzero⟩
          obtain rfl : c = c' := Option.some.inj (hfind.unique hc')
          exact hr.unique hzero
        · rintro rfl
          exact ⟨c, hfind, hckey.trans hkey.symm, hr⟩
      refine ⟨if r.1 ≠ 0 then some 2 else if r.2 ≠ 0 then some r.2 else none, ?_, ?_, ?_⟩
      · rw [hmatches, Prod.ext_iff]
        split_ifs <;> simp_all
      · split_ifs <;> simp_all
      · obtain ⟨N, hN⟩ := hfind
        obtain ⟨M, hM⟩ := hr
        refine ⟨max N M, fun n hn result => ?_⟩
        simp only [compareIter, hN n ((le_max_left _ _).trans hn),
          hM n ((le_max_right _ _).trans hn)]
        split_ifs <;> rfl

/-! ## All items -/

/-- The walk is through exactly if every item matches. -/
theorem walk_compareIter (other : δ → Option (Value δ) → UInt64 → Int × UInt64)
    (hash₂ : Option Nat) (visited : List Nat)
    (hitem : ∀ b ∈ visited, ∃ o, (o = none ↔ Matches mem other hash₂ b) ∧ o ≠ some 0 ∧
      ∃ N, ∀ n, N ≤ n → ∀ result,
        compareIter mem (dataCompare mem other n) n hash₂ b result
    = answer ITER_CONTINUE result o) :
    ∃ o, (o = none ↔ ∀ b ∈ visited, Matches mem other hash₂ b) ∧ o ≠ some 0 ∧
      ∃ N, ∀ n, N ≤ n → ∀ result,
        walk (compareIter mem (dataCompare mem other n) n hash₂) visited result
          = answer ITER_OK result o := by
  induction visited with
  | nil => exact ⟨none, by simp, by simp, 0, fun n _ result => rfl⟩
  | cons b bs ih =>
      obtain ⟨o, hmatches, hne, N, hN⟩ := hitem b (List.mem_cons_self ..)
      obtain ⟨os, hall, hnes, M, hM⟩ := ih fun c hc => hitem c (List.mem_cons_of_mem b hc)
      cases o with
      | some x =>
          refine ⟨some x, iff_of_false (by simp) fun h => ?_, hne, N,
            fun n hn result => ?_⟩
          · exact nomatch hmatches.mpr (h b (List.mem_cons_self ..))
          · have hbreak : ITER_BREAK ≠ ITER_CONTINUE := by decide
            rw [walk, hN n hn]
            exact if_pos hbreak
      | none =>
          refine ⟨os, ?_, hnes, max N M, fun n hn result => ?_⟩
          · rw [hall, List.forall_mem_cons, and_iff_right (hmatches.mp rfl)]
          · rw [walk, hN n ((le_max_left _ _).trans hn),
              ← hM n ((le_max_right _ _).trans hn) result]
            exact if_neg (not_not.mpr rfl)

/-- The comparison with a second hash, when the values of the first can be compared. -/
theorem Rep.compare (other : δ → Option (Value δ) → UInt64 → Int × UInt64) {a : Nat}
    {h : Binary.Hash (Value δ)} {hash₂ : Option Nat}
    (hrep : Rep mem (fun _ => True) a h) (hdeep : Deep mem (.hasht hash₂))
    (hvalue : ∀ p ∈ h.items, ∀ data₂, Deep mem data₂ →
      ∃ r, Returns (fun n => dataCompare mem other n p.2 (some data₂) 0) r) :
    ∃ visited r, Visits mem (some a) visited ∧
      (∀ result, Returns
      (fun n => dataCompare mem other n (.hasht (some a)) (some (.hasht hash₂)) result)
        (0, r)) ∧
      (r = 0 ↔ ∀ b ∈ visited, Matches mem other hash₂ b) := by
  obtain ⟨visited, hholds, ⟨N, hiter⟩, -⟩ := hrep.walks
  obtain ⟨o, hall, hne, M, hM⟩ := walk_compareIter other hash₂ visited <| by
    intro b hb
    obtain ⟨p, hp, hcell⟩ := hholds.exists_item hb
    have hheld : (mem b).held = p.2 := congrArg Cell.held hcell
    refine compareIter_item (congrArg Cell.key hcell) hdeep ?_
    rw [hheld]
    exact hvalue p hp
  refine ⟨visited, o.getD 0, ?_, fun result => .of_succ ⟨max N M, fun n hn => ?_⟩, ?_⟩
  · refine (show Returns _ _ from ⟨N, fun n hn => ?_⟩)
    show Prod.snd <$> hashIter mem noFlags note n (some a) [] = _
    rw [hiter n hn _ note (fun _ _ => show ITER_CONTINUE ≠ ITER_OK by decide), walk_note]
    rfl
  · have hwalk := hiter n ((le_max_left _ _).trans hn) _
      (compareIter mem (dataCompare mem other n) n hash₂) (compareIter_ne_ok _ _ _)
      (.ok result)
    rw [hM n ((le_max_right _ _).trans hn)] at hwalk
    simp only [dataCompare, hwalk]
    cases o with
    | none => rfl
    | some x => rfl
  · rw [← hall]
    cases o with
    | none => simp
    | some x => simpa using hne

/-- A value that ends can be compared with any other that does. -/
theorem Deep.compares {v : Value δ} (hdeep : Deep mem v) :
    ∀ data₂, Deep mem data₂ → ∀ result,
      ∃ r, Returns (fun n => dataCompare mem other n v (some data₂) result) r := by
  induction hdeep with
  | other v => exact fun data₂ _ result => ⟨_, .of_succ (.of_forall fun n => rfl)⟩
  | null =>
      intro data₂ _ result
      cases data₂ with
      | other v => exact ⟨_, .of_succ (.of_forall fun n => rfl)⟩
      | hasht hash₂ => exact ⟨_, .of_succ (.of_forall fun n => rfl)⟩
  | hash hrep _ ih =>
      intro data₂ hdeep₂ result
      cases data₂ with
      | other v => exact ⟨_, .of_succ (.of_forall fun n => rfl)⟩
      | hasht hash₂ =>
          obtain ⟨visited, r, -, hcompare, -⟩ :=
            hrep.compare other hdeep₂ fun p hp data₂ h₂ => ih p hp data₂ h₂ 0
          exact ⟨_, hcompare result⟩

/-- Comparison is inclusion, and nothing is included in everything. -/
theorem hashCompare_inclusion {hash₁ hash₂ : Option Nat}
    (hdeep₁ : Deep mem (.hasht hash₁)) (hdeep₂ : Deep mem (.hasht hash₂)) :
    ∃ visited r, Visits mem hash₁ visited ∧
      (∀ result, Returns
        (fun n => dataCompare mem other n (.hasht hash₁) (some (.hasht hash₂)) result)
        (0, r)) ∧
      (r = 0 ↔ ∀ b ∈ visited, Matches mem other hash₂ b) ∧
      (hash₁ = none ∨ visited = [] → r = 0) := by
  cases hdeep₁ with
  | null =>
      refine ⟨[], 0, .of_succ (.of_forall fun n => rfl), fun result => ?_, by simp,
        fun _ => rfl⟩
      exact .of_succ (.of_forall fun n => rfl)
  | hash hrep hitems =>
      obtain ⟨visited, r, hvisits, hcompare, hall⟩ :=
        hrep.compare other hdeep₂ fun p hp data₂ h₂ => (hitems p hp).compares data₂ h₂ 0
      refine ⟨visited, r, hvisits, hcompare, hall, ?_⟩
      rintro (hnone | rfl)
      · exact nomatch hnone
      · exact hall.mpr (by simp)

end

/-- A rule that is a part of a request: at 0 the rule, an inline hash with an
item that is a hash itself, and an array behind it; at 20 the request, with a
hole and one key twice. -/
def rules : Nat → Cell (Value Nat)
  | 0 => ⟨hashPtrInline, .ptr (some 10)⟩
  | 1 => ⟨hashPtrEnd, .ptr (some 2)⟩
  | 2 => ⟨7, .value (.other 30)⟩
  | 10 => ⟨5, .value (.hasht (some 2))⟩
  | 20 => ⟨hashPtrNull, .value (.other 0)⟩
  | 21 => ⟨7, .value (.other 30)⟩
  | 22 => ⟨7, .value (.other 31)⟩
  | 23 => ⟨5, .value (.hasht (some 30))⟩
  | 30 => ⟨9, .value (.other 1)⟩
  | 31 => ⟨7, .value (.other 30)⟩
  | _ => ⟨hashPtrEnd, .ptr none⟩

/-- How two numbers compare. -/
def compareNumbers (v : Nat) (data₂ : Option (Value Nat)) (result : UInt64) :
    Int × UInt64 :=
  match data₂ with
  | some (.other w) => (0, if v = w then 0 else if v < w then 1 else 2)
  | _ => (-EINVAL, result)

theorem deep_rules : Deep rules (.hasht (some 0)) := by
  have hrest : Rep rules (fun _ => True) 2 (.item seven (.other 30) .stop) :=
    .item trivial rfl (.stop trivial rfl)
  have hsub : Rep rules (fun _ => True) 10 (.item five (.hasht (some 2)) .stop) :=
    .item trivial rfl (.stop trivial rfl)
  refine .hash (.inline trivial rfl hsub (.next trivial rfl hrest)) ?_
  simp only [Binary.Hash.items, List.cons_append, List.nil_append, List.forall_mem_cons,
    List.not_mem_nil, false_imp_iff, implies_true, and_true]
  exact ⟨.hash hrest (by simpa [Binary.Hash.items] using Deep.other 30), .other 30⟩

theorem deep_request : Deep rules (.hasht (some 20)) := by
  have hnested : Rep rules (fun _ => True) 30
      (.item ⟨9, by decide⟩ (.other 1) (.item seven (.other 30) .stop)) :=
    .item trivial rfl (.item trivial rfl (.stop trivial rfl))
  have hrep : Rep rules (fun _ => True) 20
      (.null (.item seven (.other 30)
        (.item seven (.other 31) (.item five (.hasht (some 30)) .stop)))) :=
    .null trivial rfl
    (.item trivial rfl (.item trivial rfl (.item trivial rfl (.stop trivial rfl))))
  refine .hash hrep ?_
  simp only [Binary.Hash.items, List.forall_mem_cons, List.not_mem_nil, false_imp_iff,
    implies_true, and_true]
  refine ⟨.other 30, .other 31, .hash hnested ?_⟩
  simpa [Binary.Hash.items] using ⟨Deep.other 1, Deep.other 30⟩

theorem hashCompare_inclusion_rules :
    Deep rules (.hasht (some 0)) ∧ Deep rules (.hasht (some 20)) ∧ ∃ visited r,
      Visits rules (some 0) visited ∧
      (∀ result, Lib.Returns (fun n =>
        dataCompare rules compareNumbers n (.hasht (some 0)) (some (.hasht (some 20)))
          result) (0, r)) ∧
      (r = 0 ↔ ∀ b ∈ visited, Matches rules compareNumbers (some 20) b) ∧
      (some 0 = none ∨ visited = [] → r = 0) :=
  ⟨deep_rules, deep_request, hashCompare_inclusion deep_rules deep_request⟩

/-- The rule is a part of the request, and the request is none of the rule. -/
example : dataCompare rules compareNumbers 12 (.hasht (some 0))
    (some (.hasht (some 20))) 5 = .ok (0, 0) ∧
    dataCompare rules compareNumbers 12 (.hasht (some 20)) (some (.hasht (some 0))) 5
      = .ok (0, 2) := ⟨rfl, rfl⟩

end Frozen.Hash
