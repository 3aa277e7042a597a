/-
# `Frozen.Graph.Bag` — a list of pointers is a multiset

The functions of `core/list.c` that only read, and `list_push`, which prepends unless
there is a hole to fill.  A history of additions, deletions and pops leaves in the
occupied slots the multiset one gets by doing the same to a multiset; every reading
function sees these slots in their order; and a list is never longer than the number of
items that were once in it together, because it grows only when it has no hole.
-/
import Mathlib.Data.Multiset.AddSub
import Frozen.Graph.List

namespace Frozen.Graph

namespace Slots

variable {α : Type}

/-! ## The other functions -/

/-- `list_push`: into the first hole, or in front of the array. -/
def push (item : α) (l : Slots α) : Slots α :=
  if l.any Option.isNone then l.add (some item) else some item :: l

/-- `list_count`. -/
def count : Slots α → Nat
  | [] => 0
  | none :: l => count l
  | some _ :: l => count l + 1

/-- `list_flatten`: at most `items` pointers are copied. -/
def flatten : Slots α → Nat → List α
  | [], _ => []
  | _ :: _, 0 => []
  | none :: l, n + 1 => flatten l (n + 1)
  | some a :: l, n + 1 => a :: flatten l n

/-- The loop of `list_iter_next`: the first occupied slot, and how many
slots it looked at. -/
def scan : Slots α → Option (α × Nat)
  | [] => none
  | none :: l => (scan l).map fun r => (r.1, r.2 + 1)
  | some a :: _ => some (a, 1)

/-- `list_iter_next`; the iterator is NULL or points behind the last slot it returned. -/
def iterNext (l : Slots α) (iter : Option Nat) : Option α × Option Nat :=
  match scan (l.drop (iter.getD 0)) with
  | some (a, lsz) => (some a, some (iter.getD 0 + lsz))
  | none => (none, iter)

/-- The call number `k` of `list_iter_next`, the first from NULL. -/
def iterNth (l : Slots α) : Nat → Option α × Option Nat
  | 0 => iterNext l none
  | k + 1 => iterNext l (iterNth l k).2

theorem count_eq (l : Slots α) : l.count = l.items.length := by
  induction l with
  | nil => rfl
  | cons c l ih =>
      cases c with
      | none => exact ih
      | some a => exact congrArg (· + 1) ih

theorem flatten_eq (l : Slots α) (n : Nat) : l.flatten n = l.items.take n := by
  induction l generalizing n with
  | nil => simp [flatten]
  | cons c l ih =>
      cases n with
      | zero => simp [flatten]
      | succ n =>
          cases c with
          | none => exact ih (n + 1)
          | some a => rw [flatten, ih, items_some_cons, List.take_succ_cons]

/-- The scan finds the first item and leaves the others. -/
theorem scan_spec (l : Slots α) :
    match scan l with
    | some (a, lsz) => l.items = a :: items (l.drop lsz)
    | none => l.items = [] := by
  induction l with
  | nil => rfl
  | cons c l ih =>
      cases c with
      | none =>
          rw [scan]
          cases hscan : scan l with
          | none =>
              rw [hscan] at ih
              exact ih
          | some r =>
              rw [hscan] at ih
              exact ih
      | some a => rfl

/-- **Iteration.**  The calls return the items in the order of their slots, and then
NULL. -/
theorem iterNth_spec (l : Slots α) (k : Nat) :
    (l.iterNth k).1 = l.items[k]? ∧
      items (l.drop ((l.iterNth k).2.getD 0)) = l.items.drop (k + 1) := by
  have hstep : ∀ (iter : Option Nat) (k : Nat),
      items (l.drop (iter.getD 0)) = l.items.drop k →
      (l.iterNext iter).1 = l.items[k]? ∧
        items (l.drop ((l.iterNext iter).2.getD 0)) = l.items.drop (k + 1) := by
    intro iter k hiter
    have hspec := scan_spec (l.drop (iter.getD 0))
    have hhead : l.items[k]? = (l.items.drop k).head? := by rw [List.head?_drop]
    have htail : l.items.drop (k + 1) = (l.items.drop k).tail := by rw [List.tail_drop]
    rw [hhead, htail, ← hiter, iterNext]
    cases hscan : scan (l.drop (iter.getD 0)) with
    | none =>
        rw [hscan] at hspec
        rw [hspec]
        exact ⟨rfl, rfl⟩
    | some r =>
        rw [hscan] at hspec
        rw [hspec]
        refine ⟨rfl, ?_⟩
        rw [Option.getD_some, ← List.drop_drop]
        rfl
  induction k with
  | zero => exact hstep none 0 rfl
  | succ k ih => exact hstep _ (k + 1) ih.2

/-! ## Growth -/

/-- A list with a hole does not grow. -/
theorem length_add_of_hole (item : Option α) {l : Slots α}
    (h : l.any Option.isNone = true) : (l.add item).length = l.length := by
  induction l with
  | nil => cases h
  | cons c l ih =>
      cases c with
      | none => rfl
      | some a => exact congrArg (· + 1) (ih h)

theorem length_add_of_full (item : Option α) {l : Slots α}
    (h : l.any Option.isNone = false) : (l.add item).length = l.length + 1 := by
  induction l with
  | nil => rfl
  | cons c l ih =>
      cases c with
      | none => cases h
      | some a => exact congrArg (· + 1) (ih h)

/-- Without a hole every slot has an item. -/
theorem length_items_of_full {l : Slots α} (h : l.any Option.isNone = false) :
    l.items.length = l.length := by
  induction l with
  | nil => rfl
  | cons c l ih =>
      cases c with
      | none => cases h
      | some a => exact congrArg (· + 1) (ih h)

theorem length_delete [DecidableEq α] (item : Option α) (l : Slots α) :
    (l.delete item).length = l.length := by
  induction l with
  | nil => rfl
  | cons c l ih =>
      rw [delete]
      split
      · rfl
      · exact congrArg (· + 1) ih

theorem length_pop (l : Slots α) : l.pop.2.length = l.length := by
  induction l with
  | nil => rfl
  | cons c l ih =>
      cases c with
      | none => exact congrArg (· + 1) ih
      | some a => rfl

/-- An addition makes the list no longer than it was or than the items it then has. -/
theorem length_add_le (a : α) (l : Slots α) :
    (l.add (some a)).length ≤ max l.length (l.items.length + 1) := by
  cases h : l.any Option.isNone with
  | true => rw [length_add_of_hole _ h]; exact le_max_left _ _
  | false => rw [length_add_of_full _ h, length_items_of_full h]; exact le_max_right _ _

theorem items_push (a : α) (l : Slots α) : (l.push a).items.Perm (a :: l.items) := by
  rw [push]
  split
  · exact items_add a l
  · rfl

theorem length_push_le (a : α) (l : Slots α) :
    (l.push a).length ≤ max l.length (l.items.length + 1) := by
  rw [push]
  split
  · exact length_add_le a l
  · rename_i h
    rw [List.length_cons, length_items_of_full (Bool.eq_false_iff.mpr h)]
    exact le_max_right _ _

end Slots

/-! ## Histories -/

/-- The calls that change a list. -/
inductive ListOp (α : Type) where
  | add (item : α)
  | push (item : α)
  | delete (item : α)
  | pop

/-- A list, with what a multiset would hold after the same calls and the largest number of
items it ever held. -/
structure History (α : Type) where
  slots : Slots α
  held : Multiset α
  peak : Nat

namespace History

variable {α : Type} [DecidableEq α]

/-- What a call does to a multiset; a pop takes away what it returns. -/
def hold (held : Multiset α) (popped : Option α) : ListOp α → Multiset α
  | .add item => item ::ₘ held
  | .push item => item ::ₘ held
  | .delete item => held.erase item
  | .pop =>
      match popped with
      | some item => held.erase item
      | none => held

def slotsAfter (l : Slots α) : ListOp α → Slots α
  | .add item => l.add (some item)
  | .push item => l.push item
  | .delete item => l.delete (some item)
  | .pop => l.pop.2

def step (h : History α) (op : ListOp α) : History α where
  slots := slotsAfter h.slots op
  held := hold h.held h.slots.pop.1 op
  peak := max h.peak (hold h.held h.slots.pop.1 op).card

/-- The calls of a history, from `LIST_INITIALIZER` on. -/
def run (ops : List (ListOp α)) : History α := ops.foldl step ⟨[], 0, 0⟩

/-- The occupied slots hold the multiset, and there are not more slots than it ever had
members. -/
structure Agrees (h : History α) : Prop where
  held : (h.slots.items : Multiset α) = h.held
  card_le : h.held.card ≤ h.peak
  length_le : h.slots.length ≤ h.peak

omit [DecidableEq α] in
theorem Agrees.card {h : History α} (ha : Agrees h) :
    h.slots.items.length = h.held.card := by
  rw [← ha.held, Multiset.coe_card]

theorem Agrees.step {h : History α} (ha : Agrees h) (op : ListOp α) :
    Agrees (h.step op) := by
  have hcard := ha.card
  have hlen := ha.length_le
  refine ⟨?_, le_max_right _ _, ?_⟩
  · cases op with
    | add a =>
        change ((h.slots.add (some a)).items : Multiset α) = a ::ₘ h.held
        rw [← ha.held, Multiset.cons_coe]
        exact Multiset.coe_eq_coe.mpr (Slots.items_add a h.slots)
    | push a =>
        change ((h.slots.push a).items : Multiset α) = a ::ₘ h.held
        rw [← ha.held, Multiset.cons_coe]
        exact Multiset.coe_eq_coe.mpr (Slots.items_push a h.slots)
    | delete a =>
        change ((h.slots.delete (some a)).items : Multiset α) = h.held.erase a
        rw [Slots.items_delete, ← ha.held, Multiset.coe_erase]
    | pop =>
        change (h.slots.pop.2.items : Multiset α) = hold h.held h.slots.pop.1 .pop
        rw [Slots.items_pop, Slots.pop_fst, ← ha.held]
        cases h.slots.items with
        | nil => rfl
        | cons a as =>
            change (as : Multiset α) = ((a :: as : List α) : Multiset α).erase a
            rw [Multiset.coe_erase, List.erase_cons_head]
  · change (slotsAfter h.slots op).length ≤ max h.peak (hold h.held h.slots.pop.1 op).card
    cases op with
    | add a =>
        have hadd := Slots.length_add_le a h.slots
        change (h.slots.add (some a)).length ≤ max h.peak (a ::ₘ h.held).card
        rw [Multiset.card_cons]
        omega
    | push a =>
        have hpush := Slots.length_push_le a h.slots
        change (h.slots.push a).length ≤ max h.peak (a ::ₘ h.held).card
        rw [Multiset.card_cons]
        omega
    | delete a =>
        change (h.slots.delete (some a)).length ≤ _
        rw [Slots.length_delete]
        omega
    | pop =>
        change h.slots.pop.2.length ≤ _
        rw [Slots.length_pop]
        omega

theorem run_agrees (ops : List (ListOp α)) : Agrees (run ops) := by
  have hfold : ∀ (ops : List (ListOp α)) (h : History α), Agrees h →
      Agrees (ops.foldl step h) := by
    intro ops
    induction ops with
    | nil => exact fun h ha => ha
    | cons op ops ih => exact fun h ha => ih (h.step op) (ha.step op)
  exact hfold ops _ ⟨rfl, le_refl 0, le_refl 0⟩

/-- **A list of pointers is a multiset** after any history of calls: the functions
that read it agree on what it holds and in which order, and it is not longer than
it ever had to be. -/
theorem run_reads (ops : List (ListOp α)) :
    let l := (run ops).slots
    let held := (run ops).held
    (l.items : Multiset α) = held ∧ l.count = held.card ∧
      (l.count ≠ 0 → l.flatten l.count = l.items) ∧ (∀ k, (l.iterNth k).1 = l.items[k]?) ∧
      (l.isEmpty = true ↔ l.count = 0) ∧ (l.pop.1 = none ↔ held = 0) ∧
      (∀ a, l.pop.1 = some a → a ∈ held) ∧ l.length ≤ (run ops).peak := by
  intro l held
  have ha := run_agrees ops
  have hheld : (l.items : Multiset α) = held := ha.held
  have hcount : l.count = l.items.length := l.count_eq
  refine ⟨hheld, hcount.trans ha.card, fun _ => ?_, fun k => (l.iterNth_spec k).1, ?_,
    ?_, ?_, ha.length_le⟩
  · rw [Slots.flatten_eq, hcount, List.take_length]
  · rw [Slots.isEmpty_iff, hcount, List.length_eq_zero_iff]
  · rw [Slots.pop_fst, List.head?_eq_none_iff, ← hheld, Multiset.coe_eq_zero]
  · intro a hpop
    rw [Slots.pop_fst] at hpop
    rw [← hheld, Multiset.mem_coe]
    exact List.mem_of_mem_head? hpop

end History

end Frozen.Graph
