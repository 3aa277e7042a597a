/-
# `Frozen.Hash.Memory` — two traversals of one hash

A hash is an array of items in memory that ends with the end mark; the pointer of the
end mark leads to the next array, or nowhere, and the pointer of an inline mark to a
hash that is part of this one.  `core/hash.c` walks through it twice: `hash_find` in a
loop of its own with one recursion, `hash_iter` in another with two.  Both are embedded
over memory here, with fuel for their loops.

`Rep mem R a h` says that the hash at `a` is the tree `h`, with its items in the region
`R`; a hash is well-founded if there is one.  `hashFind_eq_first` is the agreement: what
`hash_find` returns is the first of the items `hash_iter` visits that has the key.
-/
import Frozen.Binary.Hash
import Frozen.Lib.Fuel

namespace Frozen.Hash

open Binary (Key Flags hashPtrNull hashPtrEnd hashPtrInline)
open Lib (OutOfFuel)

/-! ## Memory -/

/-- `data_t` of an item: a value, or the pointer of a mark. -/
inductive CellData (δ : Type) where
  | value (v : δ)
  | ptr (p : Option Nat)

/-- `hash_t`. -/
structure Cell (δ : Type) where
  key : UInt64
  data : CellData δ

/-- `data.ptr`, as the traversals read it from a mark. -/
def Cell.next {δ : Type} (c : Cell δ) : Option Nat :=
  match c.data with
  | .value _ => none
  | .ptr p => p

section

variable {δ σ : Type} (mem : Nat → Cell δ)

/-! ## The traversals -/

/-- `hash_find`, from `loop_start` on. -/
def hashFind (key : UInt64) : Nat → Option Nat → Except OutOfFuel (Option Nat)
  | 0, _ => .error .outOfFuel
  | _ + 1, none => .ok none
  | n + 1, some hash =>
      if (mem hash).key = key then .ok (some hash)
      else if (mem hash).key = hashPtrInline then do
        match ← hashFind key n (mem hash).next with
        | some inlineHash => .ok (some inlineHash)
        | none => hashFind key n (some (hash + 1))
      else if (mem hash).key ≠ hashPtrEnd then hashFind key n (some (hash + 1))
      else hashFind key n (mem hash).next

def ITER_OK : Int := 0
def ITER_BREAK : Int := 1
def ITER_CONTINUE : Int := 2

/-- `hash_iter`, from the head of its loop on. -/
def hashIter (flags : Flags) (func : Nat → σ → Int × σ) :
    Nat → Option Nat → σ → Except OutOfFuel (Int × σ)
  | 0, _, _ => .error .outOfFuel
  | _ + 1, none, s => .ok (ITER_BREAK, s)
  | n + 1, some curr, s =>
      if (mem curr).key = hashPtrNull ∧ flags.null = false then
        hashIter flags func n (some (curr + 1)) s
      else if (mem curr).key = hashPtrInline then
        match (mem curr).next with
        | none => hashIter flags func n (some (curr + 1)) s
        | some sub =>
            let r := if flags.inline then func curr s else (ITER_CONTINUE, s)
            if r.1 ≠ ITER_CONTINUE then .ok r
            else do
              let r ← hashIter flags func n (some sub) r.2
              if r.1 ≠ ITER_OK then .ok r else hashIter flags func n (some (curr + 1)) r.2
      else if (mem curr).key = hashPtrEnd then
        match (mem curr).next with
        | some next => hashIter flags func n (some next) s
        | none =>
            let r := if flags.last then func curr s else (ITER_CONTINUE, s)
            if r.1 ≠ ITER_CONTINUE then .ok r else .ok (ITER_OK, r.2)
      else
        let r := func curr s
        if r.1 ≠ ITER_CONTINUE then .ok r else hashIter flags func n (some (curr + 1)) r.2

/-- Flags 0. -/
def noFlags : Flags := { null := false, last := false, inline := false }

/-- A callback that writes down what it is called with. -/
def note (curr : Nat) (visited : List Nat) : Int × List Nat :=
  (ITER_CONTINUE, visited ++ [curr])

/-! ## Well-founded hashes -/

/-- The hash at an address, as a tree, with all its items in a region of memory. -/
inductive Rep (R : Nat → Prop) : Nat → Binary.Hash δ → Prop
  | stop {a : Nat} : R a → mem a = ⟨hashPtrEnd, .ptr none⟩ → Rep R a .stop
  | next {a b : Nat} {h : Binary.Hash δ} :
      R a → mem a = ⟨hashPtrEnd, .ptr (some b)⟩ → Rep R b h → Rep R a (.next h)
  | null {a : Nat} {rest : Binary.Hash δ} :
      R a → (mem a).key = hashPtrNull → Rep R (a + 1) rest → Rep R a (.null rest)
  | inlineNull {a : Nat} {rest : Binary.Hash δ} :
      R a → mem a = ⟨hashPtrInline, .ptr none⟩ → Rep R (a + 1) rest →
      Rep R a (.inlineNull rest)
  | inline {a b : Nat} {sub rest : Binary.Hash δ} :
      R a → mem a = ⟨hashPtrInline, .ptr (some b)⟩ → Rep R b sub → Rep R (a + 1) rest →
        Rep R a (.inline sub rest)
  | item {a : Nat} {key : Key} {v : δ} {rest : Binary.Hash δ} :
      R a → mem a = ⟨key.id, .value v⟩ → Rep R (a + 1) rest → Rep R a (.item key v rest)

/-- What an iteration sees of the items at a list of addresses. -/
def Holds (visited : List Nat) (items : List (Key × δ)) : Prop :=
  visited.map mem = items.map fun p => ⟨p.1.id, .value p.2⟩

/-- A hash whose traversals end. -/
def WellFounded (a : Nat) : Prop := ∃ h, Rep mem (fun _ => True) a h

end

/-! ## Agreement -/

@[simp] theorem hashPtrEnd_ne_null : hashPtrEnd ≠ hashPtrNull := by decide
@[simp] theorem hashPtrEnd_ne_inline : hashPtrEnd ≠ hashPtrInline := by decide
@[simp] theorem hashPtrInline_ne_null : hashPtrInline ≠ hashPtrNull := by decide
@[simp] theorem hashPtrInline_ne_end : hashPtrInline ≠ hashPtrEnd := by decide
@[simp] theorem hashPtrNull_ne_end : hashPtrNull ≠ hashPtrEnd := by decide
@[simp] theorem hashPtrNull_ne_inline : hashPtrNull ≠ hashPtrInline := by decide

section

open Lib

variable {δ : Type} {mem : Nat → Cell δ}

/-- A hash depends on the memory it lies in. -/
theorem Rep.congr {mem' : Nat → Cell δ} {R R' : Nat → Prop} {a : Nat} {h : Binary.Hash δ}
    (hrep : Rep mem R a h) (hsub : ∀ c, R c → R' c) (hmem : ∀ c, R c → mem' c = mem c) :
    Rep mem' R' a h := by
  induction hrep with
  | stop ha hcell => exact .stop (hsub _ ha) ((hmem _ ha).trans hcell)
  | next ha hcell _ ih => exact .next (hsub _ ha) ((hmem _ ha).trans hcell) ih
  | null ha hkey _ ih =>
      exact .null (hsub _ ha) ((congrArg Cell.key (hmem _ ha)).trans hkey) ih
  | inlineNull ha hcell _ ih => exact .inlineNull (hsub _ ha) ((hmem _ ha).trans hcell) ih
  | inline ha hcell _ _ ihsub ih =>
      exact .inline (hsub _ ha) ((hmem _ ha).trans hcell) ihsub ih
  | item ha hcell _ ih => exact .item (hsub _ ha) ((hmem _ ha).trans hcell) ih

theorem Holds.append {visited visited' : List Nat} {items items' : List (Key × δ)}
    (h : Holds mem visited items) (h' : Holds mem visited' items') :
    Holds mem (visited ++ visited') (items ++ items') := by
  unfold Holds at h h' ⊢
  rw [List.map_append, List.map_append, h, h']

/-- Every visited address has an item. -/
theorem Holds.exists_item {visited : List Nat} {items : List (Key × δ)}
    (h : Holds mem visited items) {b : Nat} (hb : b ∈ visited) :
    ∃ p ∈ items, mem b = ⟨p.1.id, .value p.2⟩ := by
  have hmem : mem b ∈ visited.map mem := List.mem_map_of_mem hb
  rw [h] at hmem
  obtain ⟨p, hp, hcell⟩ := List.mem_map.mp hmem
  exact ⟨p, hp, hcell.symm⟩

/-- What an iteration comes to: the callback, called with one item after the other
until it breaks. -/
def walk {σ : Type} (func : Nat → σ → Int × σ) : List Nat → σ → Int × σ
  | [], s => (ITER_OK, s)
  | b :: bs, s => if (func b s).1 ≠ ITER_CONTINUE then func b s
      else walk func bs (func b s).2

section

variable {σ : Type} {func : Nat → σ → Int × σ}

theorem walk_append (hfunc : ∀ b s, (func b s).1 ≠ ITER_OK) (bs cs : List Nat) :
    ∀ s, walk func (bs ++ cs) s
      = if (walk func bs s).1 ≠ ITER_OK then walk func bs s
        else walk func cs (walk func bs s).2 := by
  induction bs with
  | nil => exact fun s => rfl
  | cons b bs ih =>
      intro s
      rw [List.cons_append, walk, walk]
      split_ifs with hbreak hok
      · rfl
      · exact absurd (not_not.mp hok) (hfunc b s)
      · rw [ih, if_pos (by assumption)]
      · rw [ih, if_neg (by assumption)]

theorem walk_note (visited : List Nat) :
    ∀ s, walk note visited s = (ITER_OK, s ++ visited) := by
  induction visited with
  | nil => exact fun s => congrArg (Prod.mk ITER_OK) s.append_nil.symm
  | cons b bs ih =>
      intro s
      have hstep : walk note (b :: bs) s = walk note bs (s ++ [b]) := rfl
      rw [hstep, ih, List.append_assoc, List.singleton_append]

end

/-- One hash, two traversals: `hash_iter` goes through the items of the tree, and
`hash_find` stops at the first of them with the key. -/
theorem Rep.walks {R : Nat → Prop} {a : Nat} {h : Binary.Hash δ} (hrep : Rep mem R a h) :
    ∃ visited, Holds mem visited h.items ∧
      (∃ N, ∀ n, N ≤ n → ∀ (σ : Type) (func : Nat → σ → Int × σ),
        (∀ b s, (func b s).1 ≠ ITER_OK) →
        ∀ s, hashIter mem noFlags func n (some a) s = .ok (walk func visited s)) ∧
      ∀ key : Key, Returns (fun n => hashFind mem key.id n (some a))
        (visited.find? fun b => (mem b).key = key.id) := by
  induction hrep with
  | stop _ hcell =>
      refine ⟨[], rfl, ⟨1, fun n hn σ func _ s => ?_⟩, fun key => .of_succ ?_⟩
      · obtain ⟨n, rfl, -⟩ := exists_fuel hn
        simp [hashIter, hcell, Cell.next, noFlags, ITER_CONTINUE, walk]
      · refine .of_succ (.of_forall fun n => ?_)
        simp [hashFind, hcell, Cell.next, key.regular.2.1.symm]
  | next _ hcell _ ih =>
      obtain ⟨visited, hholds, ⟨N, hiter⟩, hfind⟩ := ih
      refine ⟨visited, hholds, ⟨N + 1, fun n hn σ func hfunc s => ?_⟩,
        fun key => .of_succ ?_⟩
      · obtain ⟨n, rfl, hle⟩ := exists_fuel hn
        simpa [hashIter, hcell, Cell.next] using hiter n hle σ func hfunc s
      · simpa [hashFind, hcell, Cell.next, key.regular.2.1.symm] using hfind key
  | null _ hkey _ ih =>
      obtain ⟨visited, hholds, ⟨N, hiter⟩, hfind⟩ := ih
      refine ⟨visited, hholds, ⟨N + 1, fun n hn σ func hfunc s => ?_⟩,
        fun key => .of_succ ?_⟩
      · obtain ⟨n, rfl, hle⟩ := exists_fuel hn
        simpa [hashIter, hkey, noFlags] using hiter n hle σ func hfunc s
      · simpa [hashFind, hkey, key.regular.1.symm] using hfind key
  | inlineNull _ hcell _ ih =>
      obtain ⟨visited, hholds, ⟨N, hiter⟩, hfind⟩ := ih
      refine ⟨visited, hholds, ⟨N + 1, fun n hn σ func hfunc s => ?_⟩,
        fun key => .of_succ ?_⟩
      · obtain ⟨n, rfl, hle⟩ := exists_fuel hn
        simpa [hashIter, hcell, Cell.next] using hiter n hle σ func hfunc s
      · simp only [hashFind, hcell, key.regular.2.2.symm, Cell.next, if_true, if_false]
        refine .bind (a := none) (.of_succ (.of_forall fun n => rfl)) ?_
        exact hfind key
  | @inline a b sub rest _ hcell _ _ ihsub ihrest =>
      obtain ⟨visited, hholds, ⟨N, hiter⟩, hfind⟩ := ihsub
      obtain ⟨visited', hholds', ⟨N', hiter'⟩, hfind'⟩ := ihrest
      refine ⟨visited ++ visited', hholds.append hholds',
        ⟨max N N' + 1, fun n hn σ func hfunc s => ?_⟩, fun key => .of_succ ?_⟩
      · obtain ⟨n, rfl, hle⟩ := exists_fuel hn
        have hsub := hiter n ((le_max_left _ _).trans hle) σ func hfunc
        have hrest := hiter' n ((le_max_right _ _).trans hle) σ func hfunc
        rw [walk_append hfunc]
        simp only [hashIter, hcell, Cell.next, hashPtrInline_ne_null, noFlags]
        simp only [noFlags] at hsub hrest
        simp only [hsub, hrest, false_and, if_false, if_true, Bool.false_eq_true,
          ne_eq, not_true_eq_false, bind, Except.bind]
        split_ifs <;> rfl
      · simp only [hashFind, hcell, key.regular.2.2.symm, Cell.next, if_true, if_false]
        refine .bind (hfind key) ?_
        rw [List.find?_append]
        cases visited.find? fun b => decide ((mem b).key = key.id) with
        | none => exact hfind' key
        | some c => exact .of_forall fun n => rfl
  | @item a key' v rest _ hcell _ ih =>
      obtain ⟨visited, hholds, ⟨N, hiter⟩, hfind⟩ := ih
      refine ⟨a :: visited, congrArg₂ List.cons hcell hholds,
        ⟨N + 1, fun n hn σ func hfunc s => ?_⟩, fun key => .of_succ ?_⟩
      · obtain ⟨n, rfl, hle⟩ := exists_fuel hn
        have hrest := hiter n hle σ func hfunc
        simp only [hashIter, hcell, key'.regular, false_and, if_false, hrest, walk]
        split_ifs <;> rfl
      · by_cases heq : key'.id = key.id
        · refine .of_forall fun n => ?_
          simp [hashFind, hcell, heq]
        · simpa [hashFind, hcell, heq, key'.regular] using hfind key

/-- The iteration that writes down what it visits, and the lookup. -/
theorem Rep.traversals {R : Nat → Prop} {a : Nat} {h : Binary.Hash δ}
    (hrep : Rep mem R a h) : ∃ visited, Holds mem visited h.items ∧
      (∀ s, Returns (fun n => hashIter mem noFlags note n (some a) s)
        (ITER_OK, s ++ visited)) ∧
      ∀ key : Key, Returns (fun n => hashFind mem key.id n (some a))
        (visited.find? fun b => (mem b).key = key.id) := by
  obtain ⟨visited, hholds, ⟨N, hiter⟩, hfind⟩ := hrep.walks
  refine ⟨visited, hholds, fun s => ⟨N, fun n hn => ?_⟩, hfind⟩
  exact (hiter n hn _ note (fun _ _ => show ITER_CONTINUE ≠ ITER_OK by decide) s).trans
    (congrArg _ (walk_note visited s))

/-- Lookup agrees with iteration. -/
theorem hashFind_eq_first {a : Nat} (hwf : WellFounded mem a) (key : Key) :
    ∃ visited,
      Returns (fun n => hashIter mem noFlags note n (some a) []) (ITER_OK, visited) ∧
      Returns (fun n => hashFind mem key.id n (some a))
        (visited.find? fun b => (mem b).key = key.id) ∧
      (Returns (fun n => hashFind mem key.id n (some a)) none ↔
        ∀ b ∈ visited, (mem b).key ≠ key.id) := by
  obtain ⟨h, hrep⟩ := hwf
  obtain ⟨visited, -, hiter, hfind⟩ := hrep.traversals
  refine ⟨visited, hiter [], hfind key, ?_⟩
  constructor
  · intro hnone
    have heq := (hfind key).unique hnone
    simpa using heq
  · intro hall
    have heq : visited.find? (fun b => decide ((mem b).key = key.id)) = none := by
      simpa using hall
    simpa only [heq] using hfind key

end

/-- An inline hash, a hole, an inline item without a hash, and one key three times. -/
def sample : Nat → Cell Nat
  | 0 => ⟨hashPtrInline, .ptr (some 10)⟩
  | 1 => ⟨hashPtrNull, .value 0⟩
  | 2 => ⟨hashPtrInline, .ptr none⟩
  | 3 => ⟨7, .value 30⟩
  | 4 => ⟨hashPtrEnd, .ptr (some 20)⟩
  | 10 => ⟨5, .value 100⟩
  | 20 => ⟨7, .value 200⟩
  | 21 => ⟨5, .value 210⟩
  | _ => ⟨hashPtrEnd, .ptr none⟩

def five : Key := ⟨5, Binary.regular_five⟩
def seven : Key := ⟨7, by decide⟩

/-- The same as a tree. -/
def sampleHash : Binary.Hash Nat :=
  .inline (.item five 100 .stop) (.null (.inlineNull
    (.item seven 30 (.next (.item seven 200 (.item five 210 .stop))))))

theorem rep_sample : Rep sample (fun c => c < 23) 0 sampleHash := by
  have hinline : Rep sample (fun c => c < 23) 10 (.item five 100 .stop) :=
    .item (by decide) rfl (.stop (by decide) rfl)
  have hnext : Rep sample (fun c => c < 23) 20 (.item seven 200 (.item five 210 .stop)) :=
    .item (by decide) rfl (.item (by decide) rfl (.stop (by decide) rfl))
  have hrest : Rep sample (fun c => c < 23) 3
      (.item seven 30 (.next (.item seven 200 (.item five 210 .stop)))) :=
    .item (by decide) rfl (.next (by decide) rfl hnext)
  exact .inline (by decide) rfl hinline
    (.null (by decide) rfl (.inlineNull (by decide) rfl hrest))

theorem wellFounded_sample : WellFounded sample 0 :=
  ⟨sampleHash, rep_sample.congr (fun _ _ => trivial) fun _ _ => rfl⟩

theorem hashFind_eq_first_sample :
    WellFounded sample 0 ∧ ∃ visited,
      Lib.Returns (fun n => hashIter sample noFlags note n (some 0) [])
        (ITER_OK, visited) ∧
      Lib.Returns (fun n => hashFind sample 7 n (some 0))
        (visited.find? fun b => (sample b).key = 7) ∧
      (Lib.Returns (fun n => hashFind sample 7 n (some 0)) none ↔
        ∀ b ∈ visited, (sample b).key ≠ 7) :=
  ⟨wellFounded_sample, hashFind_eq_first wellFounded_sample seven⟩

end Frozen.Hash
