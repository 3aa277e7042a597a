/-
# `Frozen.Chain.Request` — requests and the data in them

A request is a hash: items found by key, the first match counts (`hash_find`).  A
handler that adds items in front (`hash_next(request)` or `hash_inline(request)` at
the end of its own array) shadows the ones behind; whatever is done to an item found
behind them is done to the caller's item.  So a request is a list here, changed in
place by key, and a handler gives back the list it got.

What an item holds is the business of the data types.  Of them only the operations
that the handlers call are named (`DataLayer`), with the one law the results need:
a result code stored into a `size_t` item can be read from it.
-/
import Frozen.Core.Base

namespace Frozen.Chain

/-- `hash_key_t`: the registered keys the handlers name, and all the others. -/
inductive Key where
  | action | ret | insert | offset | offsetFrom | offsetTo | offsetOut | size | buffer
  | other (n : UInt64)
deriving DecidableEq, Repr

def ENOMEM : Int := 12

/-- `request_t`. -/
abbrev Request (D : Type) := List (Key × D)

namespace Request

variable {D : Type} {key k : Key} {d : D} {f : D → D} {r front : Request D}

/-- `hash_data_find`. -/
def find (key : Key) : Request D → Option D
  | [] => none
  | (k, d) :: r => if k = key then some d else find key r

/-- An operation on the item found under a key; nothing happens without one. -/
def modify (key : Key) (f : D → D) : Request D → Request D
  | [] => []
  | (k, d) :: r => if k = key then (k, f d) :: r else (k, d) :: modify key f r

/-- What a handler leaves in the items it has found. -/
def assign (r : Request D) (items : List (Key × D)) : Request D :=
  items.foldl (fun r item => r.modify item.1 fun _ => item.2) r

def keys (r : Request D) : List Key := r.map Prod.fst

@[simp] theorem keys_modify : ∀ {r : Request D}, (r.modify key f).keys = r.keys
  | [] => rfl
  | (k, d) :: r => by
      simp only [modify]
      split_ifs
      · rfl
      · exact congrArg (k :: ·) keys_modify

@[simp] theorem find_modify_self :
    ∀ {r : Request D}, (r.modify key f).find key = (r.find key).map f
  | [] => rfl
  | (k, d) :: r => by
      simp only [modify, find]
      split_ifs with h
      · simp [find, h]
      · simp only [find, if_neg h]
        exact find_modify_self

theorem find_modify_of_ne (hne : key ≠ k) :
    ∀ {r : Request D}, (r.modify k f).find key = r.find key
  | [] => rfl
  | (k', d) :: r => by
      simp only [modify]
      split_ifs with h
      · subst h
        simp only [find, if_neg hne.symm]
      · simp only [find]
        rw [find_modify_of_ne hne]

@[simp] theorem keys_assign : ∀ {items : List (Key × D)} {r : Request D},
    (r.assign items).keys = r.keys
  | [], _ => rfl
  | item :: items, r => by
      show ((r.modify item.1 fun _ => item.2).assign items).keys = r.keys
      rw [keys_assign, keys_modify]

/-- Items that are not assigned stay. -/
theorem find_assign_of_ne : ∀ {items : List (Key × D)} {r : Request D},
    (∀ item ∈ items, item.1 ≠ key) → (r.assign items).find key = r.find key
  | [], _, _ => rfl
  | item :: items, r, h => by
      show ((r.modify item.1 fun _ => item.2).assign items).find key = r.find key
      rw [find_assign_of_ne fun x hx => h x (List.mem_cons_of_mem _ hx),
        find_modify_of_ne (h item List.mem_cons_self).symm]

/-- Items in front do not hide a key they do not have. -/
theorem find_append_of_notMem : ∀ {front : Request D}, key ∉ front.keys →
    find key (front ++ r) = find key r
  | [], _ => rfl
  | (k, d) :: front, h => by
      obtain ⟨hk, hfront⟩ : key ≠ k ∧ key ∉ keys front := by simpa [keys] using h
      show (if k = key then some d else find key (front ++ r)) = find key r
      rw [if_neg hk.symm]
      exact find_append_of_notMem hfront

section Drop

variable {front ks : List Key}

/-- Behind items in front that do not have a key, its item is the one found before. -/
theorem find_drop (hkeys : r.keys = front ++ ks) (hkey : key ∉ front) :
    find key (r.drop front.length) = find key r := by
  have hfront : keys (r.take front.length) = front := by
    have htake := congrArg (List.take front.length) hkeys
    simpa [keys] using htake
  have hnot : key ∉ keys (r.take front.length) := by
    rw [hfront]
    exact hkey
  conv_rhs => rw [← List.take_append_drop front.length r]
  rw [find_append_of_notMem hnot]

theorem keys_drop (hkeys : r.keys = front ++ ks) : keys (r.drop front.length) = ks := by
  have hdrop := congrArg (List.drop front.length) hkeys
  simpa [keys] using hdrop

/-- An operation on another key does not change what is found behind the first items. -/
theorem find_drop_modify_of_ne (hne : key ≠ k) : ∀ (n : Nat) (r : Request D),
    find key ((r.modify k f).drop n) = find key (r.drop n)
  | 0, r => find_modify_of_ne hne
  | n + 1, [] => rfl
  | n + 1, (k', d) :: r => by
      simp only [modify]
      split_ifs
      · rfl
      · exact find_drop_modify_of_ne hne n r

/-- An operation on a key that the first items have is done to them. -/
theorem drop_modify_of_front : ∀ {n : Nat} {r : Request D}, key ∈ r.keys.take n →
    (r.modify key f).drop n = r.drop n
  | 0, _, h => by simp at h
  | n + 1, [], _ => rfl
  | n + 1, (k', d) :: r, h => by
      simp only [modify]
      split_ifs with heq
      · rfl
      · refine drop_modify_of_front (n := n) ?_
        have hmem : key = k' ∨ key ∈ (keys r).take n := by simpa [keys] using h
        exact hmem.resolve_left fun hk => heq hk.symm

/-- So whatever is done, behind the first items nothing is found changed. -/
theorem find_drop_assign_of_front {n : Nat} : ∀ {items : List (Key × D)} {r : Request D},
    key ∈ r.keys.take n → find key ((r.assign items).drop n) = find key (r.drop n)
  | [], _, _ => rfl
  | item :: items, r, h => by
      show find key (((r.modify item.1 fun _ => item.2).assign items).drop n)
        = find key (r.drop n)
      rw [find_drop_assign_of_front (by rw [keys_modify]; exact h)]
      by_cases hk : key = item.1
      · subst hk
        rw [drop_modify_of_front h]
      · exact find_drop_modify_of_ne hk n r

end Drop

end Request

/-! ## The data types -/

/-- What the handlers ask of the data types: constructors for the items they add, typed
reads (`hash_data_copy`, `data_get`; `none` if the conversion fails) and operations in
place, whose own errors every handler ignores. -/
structure DataLayer (D : Type) where
  void : D
  /-- `DATA_UINT32T` of an action, and `hash_data_copy` of one. -/
  action : Action → D
  getAction : D → Option Action
  /-- `DATA_PTR_OFFT`. -/
  offt : Int → D
  getOfft : D → Option Int
  getSizet : D → Option UInt64
  getUintt : D → Option UInt64
  /-- `DATA_PTR_SIZET` of a variable for a result code. -/
  ret : Int → D
  getRet : D → Option Int
  /-- `ACTION_TRANSFER` of a result code into the item. -/
  transfer : Int → D → D
  /-- `ACTION_WRITE` of an `uintmax_t` at the start of the item. -/
  write : UInt64 → D → D
  /-- `ACTION_MULTIPLY` and `ACTION_DIVIDE` by an `off_t`. -/
  multiply : Int → D → D
  divide : Int → D → D
  /-- `ACTION_ALLOC` of a data type. -/
  alloc : Nat → Option D
  /-- `DATA_SLICET`; the size `~0` is `none`. -/
  slice : D → Nat → Option Nat → D
  /-- `ACTION_COMPARE` of two hashes answers 0 and finds them equal. -/
  compare : Request D → Request D → Bool
  transfer_ret : ∀ r x, transfer r (ret x) = ret (Int.bmod r (2 ^ 64))
  getRet_ret : ∀ r, Int.bmod r (2 ^ 64) = r → getRet (ret r) = some r

end Frozen.Chain
