/-
# `Frozen.Graph.List` — lists of pointers with holes

`core/list.c` keeps an array of pointers in which a deleted one leaves a hole,
`LIST_FREE_ITEM`.  `list_add` fills the first hole, so a list has no order that lasts;
only a list from which nothing was deleted is in the order of its additions.

`items` is what an iteration sees.  Every operation is described by what it does to the
items:

    items_add       one more, somewhere
    items_delete    the first equal one less
    items_pop       the first one less
-/
import Mathlib.Data.List.Basic
import Mathlib.Data.List.Perm.Basic
import Mathlib.Tactic

namespace Frozen.Graph

/-- `list`; a hole is `LIST_FREE_ITEM`. -/
abbrev Slots (α : Type) := List (Option α)

namespace Slots

variable {α : Type}

/-- What `list_flatten` copies and `list_iter_next` runs through. -/
def items (l : Slots α) : List α := l.filterMap id

/-- `list_add`; a hole may be added too. -/
def add (item : Option α) : Slots α → Slots α
  | [] => [item]
  | none :: l => item :: l
  | some a :: l => some a :: add item l

/-- `list_delete`. -/
def delete [DecidableEq α] (item : Option α) : Slots α → Slots α
  | [] => []
  | curr :: l => if curr = item then none :: l else curr :: delete item l

/-- `list_is_empty`. -/
def isEmpty : Slots α → Bool
  | [] => true
  | none :: l => isEmpty l
  | some _ :: _ => false

/-- `list_pop`. -/
def pop : Slots α → Option α × Slots α
  | [] => (none, [])
  | none :: l => ((pop l).1, none :: (pop l).2)
  | some a :: l => (some a, none :: l)

@[simp] theorem items_nil : items ([] : Slots α) = [] := rfl

@[simp] theorem items_none_cons (l : Slots α) : items (none :: l) = items l := rfl

@[simp] theorem items_some_cons (a : α) (l : Slots α) :
    items (some a :: l) = a :: items l := rfl

@[simp] theorem items_add_none (l : Slots α) : (l.add none).items = l.items := by
  induction l with
  | nil => rfl
  | cons c l ih =>
      cases c with
      | none => rfl
      | some a => rw [add, items_some_cons, items_some_cons, ih]

theorem items_add (a : α) (l : Slots α) : (l.add (some a)).items.Perm (a :: l.items) := by
  induction l with
  | nil => rfl
  | cons c l ih =>
      cases c with
      | none => rfl
      | some b =>
          rw [add, items_some_cons, items_some_cons]
          exact (ih.cons b).trans (List.Perm.swap a b (items l))

theorem mem_items_add {a b : α} {l : Slots α} :
    b ∈ (l.add (some a)).items ↔ b = a ∨ b ∈ l.items := by
  rw [(items_add a l).mem_iff, List.mem_cons]

/-- An addition elsewhere is not seen. -/
theorem filter_items_add {K : α → Bool} {a : α} (ha : K a = false) (l : Slots α) :
    (l.add (some a)).items.filter K = l.items.filter K := by
  induction l with
  | nil => simp [add, ha]
  | cons c l ih =>
      cases c with
      | none => simp [add, ha]
      | some b =>
          rw [add, items_some_cons, items_some_cons, List.filter_cons,
            List.filter_cons, ih]

/-- A list without holes grows at its end. -/
theorem add_map_some (a : α) (as : List α) :
    add (some a) (as.map some) = (as ++ [a]).map some := by
  induction as with
  | nil => rfl
  | cons b as ih => rw [List.map_cons, add, ih, List.cons_append, List.map_cons]

@[simp] theorem items_map_some (as : List α) : items (as.map some) = as := by
  simp [items]

theorem isEmpty_iff (l : Slots α) : l.isEmpty = true ↔ l.items = [] := by
  induction l with
  | nil => simp [isEmpty]
  | cons c l ih =>
      cases c with
      | none => exact ih
      | some a => simp [isEmpty]

theorem pop_fst (l : Slots α) : l.pop.1 = l.items.head? := by
  induction l with
  | nil => rfl
  | cons c l ih =>
      cases c with
      | none => exact ih
      | some a => rfl

theorem items_pop (l : Slots α) : l.pop.2.items = l.items.tail := by
  induction l with
  | nil => rfl
  | cons c l ih =>
      cases c with
      | none => exact ih
      | some a => rfl

section

variable [DecidableEq α]

theorem items_delete (a : α) (l : Slots α) :
    (l.delete (some a)).items = l.items.erase a := by
  induction l with
  | nil => rfl
  | cons c l ih =>
      cases c with
      | none => exact ih
      | some b =>
          rw [delete]
          by_cases hb : b = a
          · rw [if_pos (congrArg some hb), items_none_cons, items_some_cons, hb,
              List.erase_cons_head]
          · rw [if_neg fun h => hb (Option.some.inj h), items_some_cons,
              items_some_cons, ih, List.erase_cons_tail (by simpa using hb)]

@[simp] theorem items_delete_none (l : Slots α) : (l.delete none).items = l.items := by
  induction l with
  | nil => rfl
  | cons c l ih =>
      cases c with
      | none => rfl
      | some a =>
          rw [delete, if_neg (by simp), items_some_cons, items_some_cons, ih]

/-- Deleting what is not there changes nothing. -/
theorem delete_of_notMem {a : α} {l : Slots α} (h : a ∉ l.items) :
    l.delete (some a) = l := by
  induction l with
  | nil => rfl
  | cons c l ih =>
      cases c with
      | none => rw [delete, if_neg (by simp), ih h]
      | some b =>
          obtain ⟨hne, hmem⟩ := not_or.mp fun hor => h (List.mem_cons.mpr hor)
          rw [delete, if_neg fun h => hne (Option.some.inj h).symm, ih hmem]

/-- A deletion elsewhere is not seen. -/
theorem filter_items_delete {K : α → Bool} {a : α} (ha : K a = false) (l : Slots α) :
    (l.delete (some a)).items.filter K = l.items.filter K := by
  rw [items_delete]
  induction l.items with
  | nil => rfl
  | cons b as ih =>
      by_cases hb : b = a
      · rw [hb, List.erase_cons_head, List.filter_cons, ha, if_neg Bool.false_ne_true]
      · rw [List.erase_cons_tail (by simpa using hb), List.filter_cons,
          List.filter_cons, ih]

end

end Slots

end Frozen.Graph
