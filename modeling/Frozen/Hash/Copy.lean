/-
# `Frozen.Hash.Copy` — deep copies

`hash_copy` counts the items of an array, allocates that many and the end mark,
and fills them one by one: a value is copied by its type, an inline hash and the
array behind the end mark by `hash_copy` itself.  The counter is an `unsigned
int`, so the room it asks for is the number of items modulo 2^32; a write behind
the room is an error here.

    copyItems_spec      one array, from any of its items on
    hashCopy_spec       a whole hash
    copies_iff          the copy answers every lookup as the original does, exactly when
                        no array of the hash has 2^32 - 1 items or more
-/
import Frozen.Hash.Memory

namespace Frozen.Binary.Hash

variable {α : Type}

/-- The items of the first array that are not null, without the end mark. -/
def width : Hash α → Nat
  | .stop => 0
  | .next _ => 0
  | .null rest => width rest
  | .inlineNull rest => width rest + 1
  | .inline _ rest => width rest + 1
  | .item _ _ rest => width rest + 1

/-- The arrays behind the first one can be counted by an `unsigned int`,
end mark included. -/
def FitsBelow : Hash α → Prop
  | .stop => True
  | .next h => h.width + 1 < 2 ^ 32 ∧ FitsBelow h
  | .null rest => FitsBelow rest
  | .inlineNull rest => FitsBelow rest
  | .inline sub rest => (sub.width + 1 < 2 ^ 32 ∧ FitsBelow sub) ∧ FitsBelow rest
  | .item _ _ rest => FitsBelow rest

/-- All arrays can. -/
def Fits (h : Hash α) : Prop := h.width + 1 < 2 ^ 32 ∧ h.FitsBelow

end Frozen.Binary.Hash

namespace Frozen.Hash

open Binary (Key hashPtrNull hashPtrEnd hashPtrInline)
open Lib

/-! ## The store -/

/-- The memory, and where `malloc` takes from next. -/
structure Store (δ : Type) where
  mem : Nat → Cell δ
  next : Nat

inductive CopyStop where
  | outOfFuel
  | overflow
deriving DecidableEq

namespace Store

variable {δ : Type}

/-- `malloc` of a number of items, left as they are. -/
def malloc (st : Store δ) (cells : Nat) : Store δ := { st with next := st.next + cells }

def put (st : Store δ) (a : Nat) (cell : Cell δ) : Store δ :=
  { st with mem := Function.update st.mem a cell }

/-- `el_new->key = key`, for an array that ends at `limit`. -/
def setKey (st : Store δ) (limit elNew : Nat) (key : UInt64) :
    Except CopyStop (Store δ) :=
  if elNew < limit then .ok (st.put elNew ⟨key, (st.mem elNew).data⟩)
  else .error .overflow

/-- `el_new->data = data`. -/
def setData (st : Store δ) (limit elNew : Nat) (data : CellData δ) :
    Except CopyStop (Store δ) :=
  if elNew < limit then .ok (st.put elNew ⟨(st.mem elNew).key, data⟩)
  else .error .overflow

@[simp] theorem put_next (st : Store δ) (a : Nat) (cell : Cell δ) :
    (st.put a cell).next = st.next := rfl

@[simp] theorem put_self (st : Store δ) (a : Nat) (cell : Cell δ) :
    (st.put a cell).mem a = cell := Function.update_self ..

theorem put_of_ne {c a : Nat} (hne : c ≠ a) (st : Store δ) (cell : Cell δ) :
    (st.put a cell).mem c = st.mem c := Function.update_of_ne hne ..

/-- What was allocated stays as it was. -/
structure Extends (st st' : Store δ) : Prop where
  grows : st.next ≤ st'.next
  kept : ∀ c, c < st.next → st'.mem c = st.mem c

end Store

/-! ## `hash_copy` -/

section

variable {δ : Type}

/-- The first loop of `hash_copy`. -/
def countItems (mem : Nat → Cell δ) : Nat → Nat → UInt32 → Except CopyStop UInt32
  | 0, _, _ => .error .outOfFuel
  | n + 1, el, k =>
      if (mem el).key = hashPtrEnd then .ok k
      else if (mem el).key = hashPtrNull then countItems mem n (el + 1) k
      else countItems mem n (el + 1) (k + 1)

variable (copy : δ → Store δ → Option (δ × Store δ))

mutual

/-- The second loop of `hash_copy`, and what follows it. -/
def copyItems : Nat → Nat → Nat → Nat → Store δ → Except CopyStop (Store δ)
  | 0, _, _, _, _ => .error .outOfFuel
  | n + 1, limit, el, elNew, st =>
      if (st.mem el).key = hashPtrEnd then do
        let st ← st.setKey limit elNew hashPtrEnd
        match (st.mem el).next with
        | some next => do
            let r ← hashCopy n (some next) st
            r.2.setData limit elNew (.ptr r.1)
        | none => st.setData limit elNew (.ptr none)
      else if (st.mem el).key = hashPtrNull then copyItems n limit (el + 1) elNew st
      else do
        let st ← st.setKey limit elNew (st.mem el).key
        match (st.mem el).data with
        | .value v =>
            match copy v st with
            | some (v', st) => do
                let st ← st.setData limit elNew (.value v')
                copyItems n limit (el + 1) (elNew + 1) st
            -- the result of the query is not looked at
            | none => copyItems n limit (el + 1) (elNew + 1) st
        | .ptr p => do
            -- `data_hash_t_copy`
            let r ← hashCopy n p st
            let st ← r.2.setData limit elNew (.ptr r.1)
            copyItems n limit (el + 1) (elNew + 1) st

/-- `hash_copy`. -/
def hashCopy : Nat → Option Nat → Store δ → Except CopyStop (Option Nat × Store δ)
  | 0, _, _ => .error .outOfFuel
  | _ + 1, none, st => .ok (none, st)
  | n + 1, some hash, st => do
      let k ← countItems st.mem n hash 0
      let limit := st.next + (k + 1).toNat
      let st' ← copyItems n limit hash st.next (st.malloc (k + 1).toNat)
      .ok (some st.next, st')

end

/-! ## What a copy is -/

/-- `ACTION_COPY` of the types: it takes new memory only. -/
def Allocates : Prop := ∀ v st v' st', copy v st = some (v', st') → st.Extends st'

/-- The value is a copy of the other. -/
def CopyOf (v v' : δ) : Prop := ∃ st st', copy v st = some (v', st')

/-- The same keys in the same order, with copied values. -/
def SameItems (items items' : List (Key × δ)) : Prop :=
  List.Forall₂ (fun p p' => p.1 = p'.1 ∧ CopyOf copy p.2 p'.2) items items'

/-- Where the copy of an array goes: its items to `[elNew, limit)`, and what they lead
to to new memory. -/
def Place (limit elNew : Nat) (st st' : Store δ) (c : Nat) : Prop :=
  elNew ≤ c ∧ c < limit ∨ st.next ≤ c ∧ c < st'.next

/-- Nothing else changes. -/
structure Frame (limit elNew : Nat) (st st' : Store δ) : Prop where
  grows : st.next ≤ st'.next
  kept : ∀ c, c < st.next → ¬ (elNew ≤ c ∧ c < limit) → st'.mem c = st.mem c

/-- An array copied. -/
structure ItemsCopied (limit elNew : Nat) (items : List (Key × δ)) (st st' : Store δ) :
    Prop where
  frame : Frame limit elNew st st'
  result : ∃ h', Rep st'.mem (Place limit elNew st st') elNew h' ∧
  SameItems copy items h'.items

/-- A hash copied to `b`, in new memory. -/
structure HashCopied (b : Nat) (items : List (Key × δ)) (st st' : Store δ) : Prop where
  ext : st.Extends st'
  result : ∃ h', Rep st'.mem (fun c => st.next ≤ c ∧ c < st'.next) b h' ∧
    SameItems copy items h'.items

variable {copy}

theorem SameItems.append {items₁ items₁' items₂ items₂' : List (Key × δ)}
    (h₁ : SameItems copy items₁ items₁') (h₂ : SameItems copy items₂ items₂') :
    SameItems copy (items₁ ++ items₂) (items₁' ++ items₂') :=
  List.rel_append h₁ h₂

/-! ## One array -/

theorem ofNat_succ_add (k : UInt32) (w : Nat) :
    k + UInt32.ofNat (w + 1) = k + 1 + UInt32.ofNat w := by
  rw [UInt32.ofNat_add, UInt32.add_assoc, UInt32.add_comm (UInt32.ofNat w)]
  rfl

theorem countItems_returns {mem : Nat → Cell δ} {R : Nat → Prop} {a : Nat}
    {h : Binary.Hash δ} (hrep : Rep mem R a h) :
    ∀ k, Returns (fun n => countItems mem n a k) (k + UInt32.ofNat h.width) := by
  induction hrep with
  | stop _ hcell =>
      intro k
      refine .of_succ (.of_forall fun n => ?_)
      simp [countItems, hcell, Binary.Hash.width]
  | next _ hcell _ _ =>
      intro k
      refine .of_succ (.of_forall fun n => ?_)
      simp [countItems, hcell, Binary.Hash.width]
  | null _ hkey _ ih =>
      intro k
      refine .of_succ ?_
      simpa [countItems, hkey, Binary.Hash.width] using ih k
  | inlineNull _ hcell _ ih =>
      intro k
      refine .of_succ ?_
      simp only [Binary.Hash.width, ofNat_succ_add]
      simpa [countItems, hcell] using ih (k + 1)
  | inline _ hcell _ _ _ ih =>
      intro k
      refine .of_succ ?_
      simp only [Binary.Hash.width, ofNat_succ_add]
      simpa [countItems, hcell] using ih (k + 1)
  | @item a key v rest _ hcell _ ih =>
      intro k
      refine .of_succ ?_
      simp only [Binary.Hash.width, ofNat_succ_add]
      simpa [countItems, hcell, key.regular] using ih (k + 1)

/-- The room is enough if and only if the counter did not wrap around. -/
theorem lt_room_iff (w : Nat) : w < (UInt32.ofNat w + 1).toNat ↔ w + 1 < 2 ^ 32 := by
  simp only [UInt32.toNat_add, UInt32.toNat_ofNat', UInt32.toNat_one]
  omega

/-- One item of an array written, and otherwise new memory only. -/
structure Filled (elNew : Nat) (cell : Cell δ) (st st' : Store δ) : Prop where
  grows : st.next ≤ st'.next
  kept : ∀ c, c < st.next → c ≠ elNew → st'.mem c = st.mem c
  cell : st'.mem elNew = cell

/-- The key is written first, then the data, with an allocation in between. -/
theorem Filled.of_extends {elNew : Nat} {st st' : Store δ} (key : UInt64)
    (data : CellData δ) (hel : elNew < st.next)
    (hext : (st.put elNew ⟨key, (st.mem elNew).data⟩).Extends st') :
    Filled elNew ⟨key, data⟩ st (st'.put elNew { st'.mem elNew with data := data }) where
  grows := hext.grows
  kept := by
    intro c hc hne
    rw [Store.put_of_ne hne, hext.kept c hc, Store.put_of_ne hne]
  cell := by
    rw [Store.put_self, hext.kept elNew hel, Store.put_self]

/-- The rest of the array leaves an item alone that was filled before. -/
theorem Filled.frame {limit elNew : Nat} {cell : Cell δ} {st st₁ st' : Store δ}
    (hfilled : Filled elNew cell st st₁) (hlimit : elNew < limit)
    (hnext : limit ≤ st.next) (hframe : Frame limit (elNew + 1) st₁ st') :
    Frame limit elNew st st' ∧ st'.mem elNew = cell := by
  have hgrows := hfilled.grows
  refine ⟨⟨le_trans hgrows hframe.grows, fun c hc hout => ?_⟩, ?_⟩
  · have hne : c ≠ elNew := by
      rintro rfl
      exact hout ⟨le_rfl, hlimit⟩
    rw [hframe.kept c (by omega) (by omega), hfilled.kept c hc hne]
  · rw [hframe.kept elNew (by omega) (by omega), hfilled.cell]

/-- The items of the rest lie where those of the whole array go. -/
theorem Place.of_cons {limit elNew : Nat} {st st₁ st' : Store δ}
    (hgrows : st.next ≤ st₁.next) (c : Nat) (hc : Place limit (elNew + 1) st₁ st' c) :
    Place limit elNew st st' c := by
  rcases hc with hc | hc
  · exact .inl ⟨by omega, hc.2⟩
  · exact .inr ⟨by omega, hc.2⟩

/-- `hash_copy` of the hash, in every store it lies in. -/
def CopySpec (copy : δ → Store δ → Option (δ × Store δ)) (h : Binary.Hash δ) : Prop :=
  ∀ (base limit el elNew : Nat) (st : Store δ), Rep st.mem (fun c => c < base) el h →
    base ≤ elNew → limit ≤ st.next →
    (elNew + h.width < limit ∧ h.FitsBelow → ∃ st',
      Returns (fun n => copyItems copy n limit el elNew st) st' ∧
      ItemsCopied copy limit elNew h.items st st') ∧
    (¬ (elNew + h.width < limit ∧ h.FitsBelow) →
      Fails (fun n => copyItems copy n limit el elNew st) .overflow)

/-- A whole hash, from its first array. -/
theorem hashCopy_spec {h : Binary.Hash δ} (hspec : CopySpec copy h) {base a : Nat}
    {st : Store δ} (hrep : Rep st.mem (fun c => c < base) a h) (hbase : base ≤ st.next) :
    (h.Fits → ∃ b st', Returns (fun n => hashCopy copy n (some a) st) (some b, st') ∧
      HashCopied copy b h.items st st') ∧
    (¬ h.Fits → Fails (fun n => hashCopy copy n (some a) st) .overflow) := by
  have hcount := countItems_returns hrep 0
  rw [UInt32.zero_add] at hcount
  have hiff := lt_room_iff h.width
  set room := (UInt32.ofNat h.width + 1).toNat with hroom
  obtain ⟨hgood, hbad⟩ :=
    hspec base (st.next + room) a st.next (st.malloc room) hrep hbase le_rfl
  have hfits : st.next + h.width < st.next + room ∧ h.FitsBelow ↔ h.Fits := by
    unfold Binary.Hash.Fits
    rw [← hiff, Nat.add_lt_add_iff_left]
  constructor
  · intro hf
    obtain ⟨st', hreturns, hcopied⟩ := hgood (hfits.mpr hf)
    refine ⟨st.next, st', .of_succ ?_, ?_⟩
    · simp only [hashCopy]
      refine .bind hcount (.bind hreturns (.of_forall fun n => rfl))
    · obtain ⟨h', hrep', hsame⟩ := hcopied.result
      have hgrows := hcopied.frame.grows
      refine ⟨⟨?_, ?_⟩, h', hrep'.congr ?_ fun _ _ => rfl, hsame⟩
      · simp only [Store.malloc] at hgrows
        omega
      · intro c hc
        refine hcopied.frame.kept c ?_ (by omega)
        simp only [Store.malloc]
        omega
      · intro c hc
        simp only [Store.malloc, Place] at hc hgrows
        omega
  · intro hf
    refine .of_succ ?_
    simp only [hashCopy]
    refine hcount.bind_fails ?_
    exact (hbad fun hgood => hf (hfits.mp hgood)).bind

section

variable {base limit el elNew : Nat} {st : Store δ}

/-- Writing a key leaves the original alone. -/
theorem Rep.put {h : Binary.Hash δ} {a : Nat} (hrep : Rep st.mem (fun c => c < base) a h)
    (hbase : base ≤ elNew) (cell : Cell δ) :
    Rep (st.put elNew cell).mem (fun c => c < base) a h :=
  hrep.congr (fun _ hc => hc) fun c hc => Store.put_of_ne (by omega) st cell

theorem Rep.filled {h : Binary.Hash δ} {a : Nat} {cell : Cell δ} {st₁ : Store δ}
    (hrep : Rep st.mem (fun c => c < base) a h) (hfilled : Filled elNew cell st st₁)
    (hbase : base ≤ elNew) (hel : elNew < st.next) :
    Rep st₁.mem (fun c => c < base) a h :=
  hrep.congr (fun _ hc => hc) fun c hc => hfilled.kept c (by omega) (by omega)

/-- No room for the item. -/
theorem copyItems_overflow (hkey : (st.mem el).key ≠ hashPtrNull)
    (hlimit : ¬ elNew < limit) :
    Fails (fun n => copyItems copy n limit el elNew st) .overflow := by
  refine .of_succ (.of_forall fun n => ?_)
  by_cases hend : (st.mem el).key = hashPtrEnd
  · simp only [copyItems, hend, if_true, Store.setKey, hlimit, if_false]
    rfl
  · simp only [copyItems, hend, hkey, Store.setKey, hlimit, if_false]
    rfl

/-! One item each, where there is room for it. -/

section

variable (copy) (hlimit : elNew < limit) (hne : el ≠ elNew)
include hlimit hne

theorem copyItems_stop (n : Nat) (hcell : st.mem el = ⟨hashPtrEnd, .ptr none⟩) :
    copyItems copy (n + 1) limit el elNew st =
      (st.put elNew ⟨hashPtrEnd, (st.mem elNew).data⟩).setData limit elNew
      (.ptr none) := by
  simp only [copyItems, hcell, if_true, Store.setKey, hlimit, bind, Except.bind,
    Store.put_of_ne hne, Cell.next]

theorem copyItems_next (n : Nat) {b : Nat}
    (hcell : st.mem el = ⟨hashPtrEnd, .ptr (some b)⟩) :
    copyItems copy (n + 1) limit el elNew st =
      (hashCopy copy n (some b) (st.put elNew ⟨hashPtrEnd, (st.mem elNew).data⟩)
        >>= fun r =>
        r.2.setData limit elNew (.ptr r.1)) := by
  simp only [copyItems, hcell, if_true, Store.setKey, hlimit, bind, Except.bind,
    Store.put_of_ne hne, Cell.next]

theorem copyItems_ptr (n : Nat) {q : Option Nat}
    (hcell : st.mem el = ⟨hashPtrInline, .ptr q⟩) :
    copyItems copy (n + 1) limit el elNew st =
      (hashCopy copy n q (st.put elNew ⟨hashPtrInline, (st.mem elNew).data⟩) >>= fun r =>
        r.2.setData limit elNew (.ptr r.1) >>= fun st =>
          copyItems copy n limit (el + 1) (elNew + 1) st) := by
  simp only [copyItems, hcell, hashPtrInline_ne_end, hashPtrInline_ne_null,
    if_false, if_true, Store.setKey, hlimit, bind, Except.bind, Store.put_of_ne hne]

theorem copyItems_value (n : Nat) {key : Key} {v v' : δ} {st₁ : Store δ}
    (hcell : st.mem el = ⟨key.id, .value v⟩)
    (hcopy : copy v (st.put elNew ⟨key.id, (st.mem elNew).data⟩) = some (v', st₁)) :
    copyItems copy (n + 1) limit el elNew st =
      (st₁.setData limit elNew (.value v') >>= fun st =>
        copyItems copy n limit (el + 1) (elNew + 1) st) := by
  simp only [copyItems, hcell, key.regular, if_false, if_true, Store.setKey, hlimit, bind,
    Except.bind, Store.put_of_ne hne, hcopy]

end

theorem Store.setData_ok (hlimit : elNew < limit) (data : CellData δ) :
    st.setData limit elNew data = .ok (st.put elNew ⟨(st.mem elNew).key, data⟩) :=
  if_pos hlimit

/-! ## The kinds of items -/

theorem copySpec_stop : CopySpec copy (Binary.Hash.stop : Binary.Hash δ) := by
  intro base limit el elNew st hrep hbase hnext
  cases hrep with
  | stop hel hcell =>
      have hne : el ≠ elNew := by omega
      constructor
      · rintro ⟨hlimit, -⟩
        simp only [Binary.Hash.width, add_zero] at hlimit
        have hfilled := Filled.of_extends hashPtrEnd (.ptr none)
          (lt_of_lt_of_le hlimit hnext) ⟨le_rfl, fun c _ => rfl⟩
        refine ⟨_, .of_succ (.of_forall fun n => ?_),
          ⟨⟨hfilled.grows, ?_⟩, .stop, ?_, .nil⟩⟩
        · rw [copyItems_stop copy hlimit hne n hcell, Store.setData_ok hlimit]
        · intro c hc hout
          exact hfilled.kept c hc (by omega)
        · exact .stop (.inl ⟨le_rfl, hlimit⟩) hfilled.cell
      · intro hbad
        refine copyItems_overflow (by rw [hcell]; simp) fun hlimit => hbad ⟨?_, trivial⟩
        simpa [Binary.Hash.width] using hlimit

theorem copySpec_next {h : Binary.Hash δ} (ih : CopySpec copy h) :
    CopySpec copy (.next h) := by
  intro base limit el elNew st hrep hbase hnext
  cases hrep with
  | @next _ b _ hel hcell hrep =>
      have hne : el ≠ elNew := by omega
      by_cases hlimit : elNew < limit
      · obtain ⟨hgood, hbad⟩ := hashCopy_spec ih
          (hrep.put hbase ⟨hashPtrEnd, (st.mem elNew).data⟩)
          (by simp only [Store.put_next]; omega)
        constructor
        · rintro ⟨-, hfits⟩
          obtain ⟨b', st₁, hreturns, hext, h', hrep', hsame⟩ := hgood hfits
          have hfilled :=
            Filled.of_extends _ (.ptr (some b')) (lt_of_lt_of_le hlimit hnext) hext
          refine ⟨_, .of_succ ?_, ⟨⟨hfilled.grows, ?_⟩, .next h', ?_, hsame⟩⟩
          · simp only [copyItems_next copy hlimit hne _ hcell]
            refine .bind hreturns (.of_forall fun n => ?_)
            rw [Store.setData_ok hlimit]
          · intro c hc hout
            exact hfilled.kept c hc (by omega)
          · refine .next (.inl ⟨le_rfl, hlimit⟩) hfilled.cell (hrep'.congr ?_ ?_)
            · intro c hc
              exact .inr hc
            · intro c hc
              simp only [Store.put_next] at hc
              exact Store.put_of_ne (by omega) ..
        · intro hnot
          refine .of_succ ?_
          simp only [copyItems_next copy hlimit hne _ hcell]
          refine (hbad fun hfits => hnot ⟨?_, hfits⟩).bind
          simpa [Binary.Hash.width] using hlimit
      · refine ⟨fun hgood => absurd ?_ hlimit,
          fun _ => copyItems_overflow (by rw [hcell]; simp) hlimit⟩
        simpa [Binary.Hash.width] using hgood.1

theorem copySpec_null {rest : Binary.Hash δ} (ih : CopySpec copy rest) :
    CopySpec copy (.null rest) := by
  intro base limit el elNew st hrep hbase hnext
  cases hrep with
  | null hel hkey hrest =>
      have hstep : ∀ n, copyItems copy (n + 1) limit el elNew st =
          copyItems copy n limit (el + 1) elNew st := by
        intro n
        simp [copyItems, hkey]
      obtain ⟨hgood, hbad⟩ := ih base limit (el + 1) elNew st hrest hbase hnext
      constructor
      · intro hfits
        obtain ⟨st', hreturns, hcopied⟩ := hgood hfits
        refine ⟨st', .of_succ ?_, hcopied⟩
        simpa only [hstep] using hreturns
      · intro hfits
        refine .of_succ ?_
        simpa only [hstep] using hbad hfits

/-- The rest of the array, once the item before it is filled. -/
theorem copyItems_cons {rest : Binary.Hash δ} {cell : Cell δ} {st₁ : Store δ}
    {fill : Nat → Except CopyStop (Store δ)} (ih : CopySpec copy rest)
    (hstep : ∀ n, copyItems copy (n + 1) limit el elNew st =
      fill n >>= fun st => copyItems copy n limit (el + 1) (elNew + 1) st)
    (hfill : Returns fill st₁) (hfilled : Filled elNew cell st st₁)
    (hrest : Rep st.mem (fun c => c < base) (el + 1) rest) (hbase : base ≤ elNew)
    (hlimit : elNew < limit) (hnext : limit ≤ st.next) :
    (elNew + (rest.width + 1) < limit ∧ rest.FitsBelow → ∃ st',
      Returns (fun n => copyItems copy n limit el elNew st) st' ∧
      Frame limit elNew st st' ∧ st'.mem elNew = cell ∧
      ItemsCopied copy limit (elNew + 1) rest.items st₁ st') ∧
    (¬ (elNew + (rest.width + 1) < limit ∧ rest.FitsBelow) →
      Fails (fun n => copyItems copy n limit el elNew st) .overflow) := by
  have hgrows := hfilled.grows
  obtain ⟨hgood, hbad⟩ := ih base limit (el + 1) (elNew + 1) st₁
    (hrest.filled hfilled hbase (by omega)) (by omega) (by omega)
  rw [show elNew + 1 + rest.width = elNew + (rest.width + 1) by omega] at hgood hbad
  constructor
  · intro hfits
    obtain ⟨st', hreturns, hcopied⟩ := hgood hfits
    obtain ⟨hframe, hcell⟩ := hfilled.frame hlimit hnext hcopied.frame
    refine ⟨st', .of_succ ?_, hframe, hcell, hcopied⟩
    simp only [hstep]
    exact .bind hfill hreturns
  · intro hfits
    refine .of_succ ?_
    simp only [hstep]
    exact hfill.bind_fails (hbad hfits)

theorem copySpec_inlineNull {rest : Binary.Hash δ} (ih : CopySpec copy rest) :
    CopySpec copy (.inlineNull rest) := by
  intro base limit el elNew st hrep hbase hnext
  cases hrep with
  | inlineNull hel hcell hrest =>
      have hne : el ≠ elNew := by omega
      by_cases hlimit : elNew < limit
      · have hfilled := Filled.of_extends hashPtrInline (.ptr none)
          (lt_of_lt_of_le hlimit hnext) ⟨le_rfl, fun c _ => rfl⟩
        have hstep := fun n => copyItems_ptr copy hlimit hne n hcell
        simp only [← bind_assoc] at hstep
        have hfill : Returns (fun n => hashCopy copy n none
            (st.put elNew ⟨hashPtrInline, (st.mem elNew).data⟩) >>= fun r =>
              r.2.setData limit elNew (.ptr r.1)) _ :=
          .bind (.of_succ (.of_forall fun n => rfl))
            (.of_forall fun n => Store.setData_ok hlimit (.ptr none))
        obtain ⟨hgood, hbad⟩ :=
          copyItems_cons ih hstep hfill hfilled hrest hbase hlimit hnext
        refine ⟨fun hfits => ?_, hbad⟩
        obtain ⟨st', hreturns, hframe, hcell', hcopied⟩ := hgood hfits
        obtain ⟨rest', hrep', hsame⟩ := hcopied.result
        refine ⟨st', hreturns, hframe, .inlineNull rest', ?_, hsame⟩
        exact .inlineNull (.inl ⟨le_rfl, hlimit⟩) hcell'
          (hrep'.congr (Place.of_cons hfilled.grows) fun _ _ => rfl)
      · refine ⟨fun hgood => absurd hgood.1 ?_,
          fun _ => copyItems_overflow (by rw [hcell]; simp) hlimit⟩
        omega

theorem copySpec_inline {sub rest : Binary.Hash δ} (ihsub : CopySpec copy sub)
    (ih : CopySpec copy rest) : CopySpec copy (.inline sub rest) := by
  intro base limit el elNew st hrep hbase hnext
  cases hrep with
  | @inline _ b _ _ hel hcell hsub hrest =>
      have hne : el ≠ elNew := by omega
      by_cases hlimit : elNew < limit
      · have hstep := fun n => copyItems_ptr copy hlimit hne n hcell
        obtain ⟨hgoodSub, hbadSub⟩ := hashCopy_spec ihsub
          (hsub.put hbase ⟨hashPtrInline, (st.mem elNew).data⟩)
          (by simp only [Store.put_next]; omega)
        by_cases hfitsSub : sub.Fits
        · obtain ⟨b', st₁, hreturnsSub, hext, sub', hrepSub, hsameSub⟩ :=
            hgoodSub hfitsSub
          have hfilled := Filled.of_extends _ (.ptr (some b'))
            (lt_of_lt_of_le hlimit hnext) hext
          simp only [← bind_assoc] at hstep
          have hfill : Returns (fun n => hashCopy copy n (some b)
              (st.put elNew ⟨hashPtrInline, (st.mem elNew).data⟩) >>= fun r =>
                r.2.setData limit elNew (.ptr r.1)) _ :=
            .bind hreturnsSub (.of_forall fun n => Store.setData_ok hlimit _)
          obtain ⟨hgood, hbad⟩ :=
            copyItems_cons ih hstep hfill hfilled hrest hbase hlimit hnext
          constructor
          · rintro ⟨hwidth, -, hfits⟩
            obtain ⟨st', hreturns, hframe, hcell', hcopied⟩ := hgood ⟨hwidth, hfits⟩
            obtain ⟨rest', hrep', hsame⟩ := hcopied.result
            refine ⟨st', hreturns, hframe, .inline sub' rest', ?_, hsameSub.append hsame⟩
            refine .inline (.inl ⟨le_rfl, hlimit⟩) hcell' (hrepSub.congr ?_ ?_)
              (hrep'.congr (Place.of_cons hfilled.grows) fun _ _ => rfl)
            · intro c hc
              exact .inr ⟨hc.1, lt_of_lt_of_le hc.2 hcopied.frame.grows⟩
            · intro c hc
              simp only [Store.put_next] at hc
              rw [hcopied.frame.kept c hc.2 (by omega), Store.put_of_ne (by omega)]
          · intro hnot
            exact hbad fun hfits => hnot ⟨hfits.1, hfitsSub, hfits.2⟩
        · refine ⟨fun hgood => absurd hgood.2.1 hfitsSub, fun _ => .of_succ ?_⟩
          simp only [hstep]
          exact (hbadSub hfitsSub).bind
      · refine ⟨fun hgood => absurd hgood.1 ?_,
          fun _ => copyItems_overflow (by rw [hcell]; simp) hlimit⟩
        omega

theorem copySpec_item {key : Key} {v : δ} {rest : Binary.Hash δ} (halloc : Allocates copy)
    (hvalue : ∀ st, (copy v st).isSome) (ih : CopySpec copy rest) :
    CopySpec copy (.item key v rest) := by
  intro base limit el elNew st hrep hbase hnext
  cases hrep with
  | item hel hcell hrest =>
      have hne : el ≠ elNew := by omega
      by_cases hlimit : elNew < limit
      · obtain ⟨⟨v', st₁⟩, hcopy⟩ := Option.isSome_iff_exists.mp
          (hvalue (st.put elNew ⟨key.id, (st.mem elNew).data⟩))
        have hfilled := Filled.of_extends _ (.value v') (lt_of_lt_of_le hlimit hnext)
          (halloc _ _ _ _ hcopy)
        have hstep := fun n => copyItems_value copy hlimit hne n hcell hcopy
        obtain ⟨hgood, hbad⟩ := copyItems_cons ih hstep
          (.of_forall fun n => Store.setData_ok hlimit _) hfilled hrest hbase hlimit hnext
        refine ⟨fun hfits => ?_, hbad⟩
        obtain ⟨st', hreturns, hframe, hcell', hcopied⟩ := hgood hfits
        obtain ⟨rest', hrep', hsame⟩ := hcopied.result
        refine ⟨st', hreturns, hframe, .item key v' rest', ?_,
          .cons ⟨rfl, _, _, hcopy⟩ hsame⟩
        exact .item (.inl ⟨le_rfl, hlimit⟩) hcell'
          (hrep'.congr (Place.of_cons hfilled.grows) fun _ _ => rfl)
      · refine ⟨fun hgood => absurd hgood.1 ?_,
          fun _ => copyItems_overflow (by rw [hcell]; exact key.regular.1) hlimit⟩
        omega

end

/-! ## Lookups in the copy -/

/-- Every array is copied as it should be, or does not fit. -/
theorem copySpec (halloc : Allocates copy) (h : Binary.Hash δ)
    (hvalues : ∀ p ∈ h.items, ∀ st, (copy p.2 st).isSome) : CopySpec copy h := by
  induction h with
  | stop => exact copySpec_stop
  | next h ih => exact copySpec_next (ih hvalues)
  | null rest ih => exact copySpec_null (ih hvalues)
  | inlineNull rest ih => exact copySpec_inlineNull (ih hvalues)
  | inline sub rest ihsub ih =>
      refine copySpec_inline (ihsub fun p hp => hvalues p ?_)
        (ih fun p hp => hvalues p ?_)
      · exact List.mem_append_left _ hp
      · exact List.mem_append_right _ hp
  | item key v rest ih =>
      refine copySpec_item halloc (hvalues (key, v) (List.mem_cons_self ..))
        (ih fun p hp => ?_)
      exact hvalues p (List.mem_cons_of_mem _ hp)

/-- An item and its copy. -/
def CellCopied (copy : δ → Store δ → Option (δ × Store δ)) (c c' : Cell δ) : Prop :=
  c.key = c'.key ∧ ∃ v v', c.data = .value v ∧ c'.data = .value v' ∧ CopyOf copy v v'

/-- `hash_copy` of the hash at `a` gives a hash of its own that iterations and lookups
see as the same. -/
def CopiesLookups (copy : δ → Store δ → Option (δ × Store δ)) (st : Store δ)
    (a : Nat) : Prop :=
  ∃ b st' h' visited visited',
    Returns (fun n => hashCopy copy n (some a) st) (some b, st') ∧
    st.Extends st' ∧ Rep st'.mem (fun c => st.next ≤ c) b h' ∧
    Returns (fun n => hashIter st.mem noFlags note n (some a) []) (ITER_OK, visited) ∧
    Returns (fun n => hashIter st'.mem noFlags note n (some b) []) (ITER_OK, visited') ∧
    List.Forall₂ (fun c c' => CellCopied copy (st.mem c) (st'.mem c')) visited visited' ∧
    ∀ key : Key, ∃ found found',
      Returns (fun n => hashFind st.mem key.id n (some a)) found ∧
      Returns (fun n => hashFind st'.mem key.id n (some b)) found' ∧
      Option.Rel (fun c c' => CellCopied copy (st.mem c) (st'.mem c')) found found'

theorem rel_find? {α β : Type} {R : α → β → Prop} {p : α → Bool} {q : β → Bool}
    (hR : ∀ a b, R a b → p a = q b) {as : List α} {bs : List β}
    (h : List.Forall₂ R as bs) : Option.Rel R (as.find? p) (bs.find? q) := by
  induction h with
  | nil => exact .none
  | @cons a b as bs hab hrest ih =>
      have hp := hR a b hab
      cases hq : q b with
      | true => simpa [List.find?_cons, hp, hq] using Option.Rel.some hab
      | false => simpa [List.find?_cons, hp, hq] using ih

theorem Holds.forall₂ {mem mem' : Nat → Cell δ} {visited visited' : List Nat}
    {items items' : List (Key × δ)} (h : Holds mem visited items)
    (h' : Holds mem' visited' items') (hsame : SameItems copy items items') :
    List.Forall₂ (fun c c' => CellCopied copy (mem c) (mem' c')) visited visited' := by
  have hcells : List.Forall₂ (CellCopied copy) (visited.map mem) (visited'.map mem') := by
    rw [h, h', List.forall₂_map_left_iff, List.forall₂_map_right_iff]
    refine hsame.imp ?_
    rintro p p' ⟨hkey, hcopy⟩
    exact ⟨congrArg Key.id hkey, p.2, p'.2, rfl, rfl, hcopy⟩
  rwa [List.forall₂_map_left_iff, List.forall₂_map_right_iff] at hcells

section

variable {st : Store δ} {a : Nat} {h : Binary.Hash δ}

theorem copiesLookups_of_fits (halloc : Allocates copy)
    (hvalues : ∀ p ∈ h.items, ∀ st, (copy p.2 st).isSome)
    (hrep : Rep st.mem (fun c => c < st.next) a h) (hfits : h.Fits) :
    CopiesLookups copy st a := by
  obtain ⟨b, st', hreturns, hext, h', hrep', hsame⟩ :=
    (hashCopy_spec (copySpec halloc h hvalues) hrep le_rfl).1 hfits
  obtain ⟨visited, hholds, hiter, hfind⟩ := hrep.traversals
  obtain ⟨visited', hholds', hiter', hfind'⟩ := hrep'.traversals
  have hcells := hholds.forall₂ hholds' hsame
  refine ⟨b, st', h', visited, visited', hreturns, hext,
    hrep'.congr (fun c hc => hc.1) fun _ _ => rfl,
    hiter [], hiter' [], hcells,
    fun key => ⟨_, _, hfind key, hfind' key, rel_find? ?_ hcells⟩⟩
  rintro c c' ⟨hkey, -⟩
  rw [hkey]

theorem not_copiesLookups (halloc : Allocates copy)
    (hvalues : ∀ p ∈ h.items, ∀ st, (copy p.2 st).isSome)
    (hrep : Rep st.mem (fun c => c < st.next) a h) (hfits : ¬ h.Fits) :
    ¬ CopiesLookups copy st a := by
  rintro ⟨b, st', h', visited, visited', hreturns, -⟩
  exact ((hashCopy_spec (copySpec halloc h hvalues) hrep le_rfl).2 hfits).not_returns
    hreturns

/-- The copy of a hash answers every lookup as the hash does, exactly when the counter of
`hash_copy` holds the number of items of each of its arrays. -/
theorem copies_iff (halloc : Allocates copy)
    (hvalues : ∀ p ∈ h.items, ∀ st, (copy p.2 st).isSome)
    (hrep : Rep st.mem (fun c => c < st.next) a h) :
    CopiesLookups copy st a ↔ h.Fits := by
  constructor
  · intro hcopies
    by_contra hfits
    exact not_copiesLookups halloc hvalues hrep hfits hcopies
  · exact copiesLookups_of_fits halloc hvalues hrep

end

/-- Numbers are copied by value. -/
def copyNat (v : Nat) (st : Store Nat) : Option (Nat × Store Nat) := some (v, st)

theorem allocates_copyNat : Allocates copyNat := by
  intro v st v' st' hcopy
  cases hcopy
  exact ⟨le_rfl, fun _ _ => rfl⟩

theorem copies_iff_sample :
    Rep sample (fun c => c < 23) 0 sampleHash ∧
      (CopiesLookups copyNat ⟨sample, 23⟩ 0 ↔ sampleHash.Fits) :=
  ⟨rep_sample, copies_iff allocates_copyNat (fun _ _ _ => rfl) rep_sample⟩

/-! ## A hash that is too wide -/

/-- An array of `n` items with one key. -/
def wide (n c : Nat) : Cell Nat :=
  if c < n then ⟨5, .value c⟩ else ⟨hashPtrEnd, .ptr none⟩

def wideHash : Nat → Nat → Binary.Hash Nat
  | _, 0 => .stop
  | c, n + 1 => .item five c (wideHash (c + 1) n)

theorem width_wideHash (c n : Nat) : (wideHash c n).width = n := by
  induction n generalizing c with
  | zero => rfl
  | succ n ih => simp only [wideHash, Binary.Hash.width, ih]

theorem rep_wide (n m c : Nat) (h : c + m = n) :
    Rep (wide n) (fun c => c < n + 1) c (wideHash c m) := by
  induction m generalizing c with
  | zero => exact .stop (by omega) (if_neg (by omega))
  | succ m ih => exact .item (by omega) (if_pos (by omega)) (ih (c + 1) (by omega))

theorem wide_not_copied :
    Rep (wide (2 ^ 32 - 1)) (fun c => c < 2 ^ 32) 0 (wideHash 0 (2 ^ 32 - 1)) ∧
      ¬ CopiesLookups copyNat ⟨wide (2 ^ 32 - 1), 2 ^ 32⟩ 0 := by
  have hrep := rep_wide (2 ^ 32 - 1) (2 ^ 32 - 1) 0 (by norm_num)
  refine ⟨hrep, not_copiesLookups allocates_copyNat (fun _ _ _ => rfl) hrep ?_⟩
  rintro ⟨hwidth, -⟩
  rw [width_wideHash] at hwidth
  norm_num at hwidth

end

end Frozen.Hash
