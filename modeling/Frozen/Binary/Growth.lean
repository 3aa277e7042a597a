/-
# `Frozen.Binary.Growth` — the array of the decoder

`data_hash_t_convert_from` reads holders into an array and exchanges it for one of twice
the size when it fills up.  The cursor is rebased by `curr = new_hash + (curr - hash)`
when `hash` is the new array already: it stays where it was, in the array that was
freed.  The test for the end mark reads there, and the next holder is written there.

Here the loop is modelled with its arrays and addresses.  What is read from freed memory
is a parameter, and so is where `malloc` puts an array, except that an array does not
overlap the one it replaces.

    readLoop_start_follows   the loop ends as `readHolders` does
    growth_iff               the holders that fit into the first array are kept
-/
import Frozen.Binary.Hash
import Frozen.Lib.Fuel

namespace Frozen.Binary.Growth

open Lib

/-! ## Arrays -/

/-- A `hash_t` in memory. -/
structure Cell where
  key : UInt64
  type : UInt64
  ptr : UInt64
deriving DecidableEq

def Cell.bytes (c : Cell) : List UInt8 :=
  leBytes 8 c.key.toNat ++ leBytes 8 c.type.toNat ++ leBytes 8 c.ptr.toNat

/-- `hash_assign_hash_null`, with `TYPE_VOIDT`. -/
def nullCell : Cell := ⟨hashPtrNull, 20, 0⟩

/-- An array of holders and its address. -/
structure HashArray where
  base : Int
  cells : List Cell

/-- The array is `hash_new` of so many elements after so many growths. -/
def sizeAfter (growths : Nat) : Nat := hashInitialSize * 2 ^ growths

/-- What the memory is like. -/
structure Heap where
  /-- the address of the array after so many growths -/
  malloc : Nat → Int
  /-- the key that is read where there is no array -/
  stale : Int → UInt64
  /-- the type of the last element, which `hash_assign_hash_end` leaves as it was -/
  tag : Nat → UInt64
  apart : ∀ k, malloc k + holderSize * sizeAfter k ≤ malloc (k + 1) ∨
    malloc (k + 1) + holderSize * sizeAfter (k + 1) ≤ malloc k

/-- `hash_new`; memory is there. -/
def hashNew (H : Heap) (growths nelements : Nat) : HashArray where
  base := H.malloc growths
  cells := List.replicate (nelements - 1) nullCell ++ [⟨hashPtrEnd, H.tag growths, 0⟩]

/-- The element at an address, if all of it is in the array. -/
def HashArray.index (a : HashArray) (p : Int) : Option Nat :=
  if a.base ≤ p ∧ p + holderSize ≤ a.base + holderSize * a.cells.length then
    some ((p - a.base) / holderSize).toNat
  else none

/-! ## The loop -/

structure LoopState where
  hash : HashArray
  growths : Nat
  hashNelements : Nat
  nelements : Nat
  curr : Int
  sl : Slider
  newData : List Int

/-- How the loop ends without a hash. -/
inductive Break where
  | code (ret : Int)
  /-- a write outside of the array -/
  | outside
  | outOfFuel
deriving DecidableEq

section

variable (H : Heap) (buf : List UInt8)

/-! `hash_data_find` in the destination, if there is one: the pointer of
the holder found. -/

variable (old : Option (UInt64 → Option UInt64))

/-- The bytes read are in the element; its pointer is restored. -/
def put (i : Nat) (d : List UInt8) (s : LoopState) : LoopState :=
  let hd := Holder.ofBytes (overlay d (s.hash.cells.getD i nullCell).bytes)
  let store (ptr : UInt64) : HashArray :=
    { s.hash with cells := s.hash.cells.set i ⟨hd.key, hd.type, ptr⟩ }
  match old with
  | none => { s with hash := store 0 }
  | some find =>
      match find hd.key with
      | some ptr => { s with hash := store ptr }
      | none => { s with hash := store 0, newData := s.newData ++ [s.curr + 8] }

/-- `nelements++`, and the larger array if this one is full. -/
def grow (s : LoopState) : LoopState :=
  let nelements := s.nelements + 1
  if nelements + 1 = s.hashNelements then
    let newHash := hashNew H (s.growths + 1) (s.hashNelements * 2)
    let hash := { newHash
      with cells := s.hash.cells.take nelements ++ newHash.cells.drop nelements }
    -- both sides have the new array; the element size, by which the difference is
    -- divided, cancels
    { s with
      hash := hash
      growths := s.growths + 1
      hashNelements := s.hashNelements * 2
      nelements := nelements
      curr := hash.base + (s.curr - hash.base) }
  else { s with nelements := nelements }

/-- `curr->key` -/
def currKey (s : LoopState) : UInt64 :=
  match s.hash.index s.curr with
  | some i => (s.hash.cells.getD i nullCell).key
  | none => H.stale s.curr

/-- `for(curr = hash;; curr++)`; the state has the hash that the
function goes on to use. -/
def readLoop : Nat → LoopState → Except Break LoopState
  | 0, _ => .error .outOfFuel
  | n + 1, s =>
      let (ret, d, sl) := s.sl.read buf 0 holderSize
      if ret < 0 then .error (.code (-EFAULT))
      else
        match s.hash.index s.curr with
        | none => .error .outside
        | some i =>
            let t := grow H (put old i d { s with sl := sl })
            if currKey H t = hashPtrEnd then .ok t
            else readLoop n { t with curr := t.curr + holderSize }

/-- Before the loop. -/
def start : LoopState where
  hash := hashNew H 0 hashInitialSize
  growths := 0
  hashNelements := hashInitialSize
  nelements := 0
  curr := H.malloc 0
  sl := { off := 0 }
  newData := []

end

/-! ## One round -/

/-- The element a holder becomes. -/
def cellOf (old : Option (UInt64 → Option UInt64)) (hd : Holder) : Cell where
  key := hd.key
  type := hd.type
  ptr := (old.bind fun find => find hd.key).getD 0

section

variable {H : Heap} {buf : List UInt8} {old : Option (UInt64 → Option UInt64)}

theorem HashArray.index_base_add {a : HashArray} {i : Nat} (h : i < a.cells.length) :
    a.index (a.base + holderSize * i) = some i := by
  unfold HashArray.index holderSize
  rw [if_pos (by omega)]
  congr 1
  omega

theorem HashArray.index_of_outside {a : HashArray} {p : Int}
    (h : p < a.base ∨ a.base + holderSize * a.cells.length < p + holderSize) :
    a.index p = none := by
  unfold HashArray.index
  rw [if_neg (by omega)]

theorem length_hashNew {growths nelements : Nat} (h : 0 < nelements) :
    (hashNew H growths nelements).cells.length = nelements := by
  simp only [hashNew, List.length_append, List.length_replicate, List.length_singleton]
  omega

/-- The array is the first one, with so many holders. -/
structure Filled (H : Heap) (s : LoopState) (k : Nat) : Prop where
  base : s.hash.base = H.malloc 0
  length : s.hash.cells.length = hashInitialSize
  untouched : s.hash.cells.drop k = (hashNew H 0 hashInitialSize).cells.drop k
  growths : s.growths = 0
  hashNelements : s.hashNelements = hashInitialSize
  nelements : s.nelements = k
  curr : s.curr = H.malloc 0 + holderSize * k

theorem filled_start (H : Heap) : Filled H (start H) 0 where
  base := rfl
  length := length_hashNew (by decide)
  untouched := rfl
  growths := rfl
  hashNelements := rfl
  nelements := rfl
  curr := by simp [start]

theorem put_eq (old : Option (UInt64 → Option UInt64)) (i : Nat) (d : List UInt8)
    (s : LoopState) : ∃ newData, put old i d s = { s with
      hash := { s.hash with
        cells := s.hash.cells.set i
          (cellOf old (Holder.ofBytes (overlay d (s.hash.cells.getD i nullCell).bytes))) }
      newData := newData } := by
  unfold put cellOf
  cases old with
  | none => exact ⟨s.newData, rfl⟩
  | some find =>
      simp only [Option.bind_some]
      cases find (Holder.ofBytes (overlay d (s.hash.cells.getD i nullCell).bytes)).key
        with
      | none => exact ⟨_, rfl⟩
      | some ptr => exact ⟨s.newData, rfl⟩

theorem Filled.getD {s : LoopState} {k : Nat} (hs : Filled H s k)
    (hk : k + 1 < hashInitialSize) : s.hash.cells.getD k nullCell = nullCell := by
  have hnew : (hashNew H 0 hashInitialSize).cells[k]? = some nullCell := by
    rw [hashNew, List.getElem?_append_left (by rw [List.length_replicate]; omega),
      List.getElem?_replicate, if_pos (by omega)]
  have hget : (s.hash.cells.drop k)[0]? = some nullCell := by
    rw [hs.untouched, List.getElem?_drop, Nat.add_zero, hnew]
  rw [List.getElem?_drop, Nat.add_zero] at hget
  rw [List.getD_eq_getElem?_getD, hget, Option.getD_some]

/-- A holder as it comes out of a read of `d` into a fresh element. -/
def holderOf (d : List UInt8) : Holder := Holder.ofBytes (overlay d newElement)

/-- What a round stores, while there are elements left. -/
theorem Filled.put {s : LoopState} {k : Nat} (hs : Filled H s k)
    (hk : k + 1 < hashInitialSize) (old : Option (UInt64 → Option UInt64))
    (d : List UInt8) (sl : Slider) :
    ∃ newData, Growth.put old k d { s with sl := sl } = { s with
      hash := { s.hash with cells := s.hash.cells.set k (cellOf old (holderOf d)) }
      sl := sl
      newData := newData } := by
  obtain ⟨newData, h⟩ := put_eq old k d { s with sl := sl }
  refine ⟨newData, ?_⟩
  rw [h]
  simp only [hs.getD hk]
  rfl

theorem take_succ_set {α : Type} {l : List α} {k : Nat} (h : k < l.length) (a : α) :
    (l.set k a).take (k + 1) = l.take k ++ [a] := by
  rw [List.take_add_one, List.take_set_of_le (le_refl k), List.getElem?_set_self h,
    Option.toList_some]

/-- A round that leaves room. -/
theorem Filled.round {s : LoopState} {k : Nat} (hs : Filled H s k)
    (hk : k + 2 < hashInitialSize) (old : Option (UInt64 → Option UInt64))
    (d : List UInt8) (sl : Slider) :
    ∃ t, grow H (Growth.put old k d { s with sl := sl }) = t ∧ t.sl = sl ∧
      currKey H t = (holderOf d).key ∧
      t.hash.cells.take (k + 1) = s.hash.cells.take k ++ [cellOf old (holderOf d)] ∧
      Filled H { t with curr := t.curr + holderSize } (k + 1) := by
  obtain ⟨newData, hput⟩ := hs.put (by omega) old d sl
  have hlen : k < s.hash.cells.length := by rw [hs.length]; omega
  refine ⟨_, rfl, ?_⟩
  rw [hput, grow, if_neg (by simp only [hs.nelements, hs.hashNelements]; omega)]
  refine ⟨rfl, ?_, take_succ_set hlen _, ?_⟩
  · unfold currKey
    simp only [hs.curr, ← hs.base]
    rw [HashArray.index_base_add (by simpa using hlen)]
    simp [hlen, cellOf]
  · constructor
    · exact hs.base
    · simp only [List.length_set, hs.length]
    · have huntouched := congrArg (List.drop 1) hs.untouched
      rw [List.drop_drop, List.drop_drop] at huntouched
      simpa only [List.drop_set_of_lt (Nat.lt_succ_self k)] using huntouched
    · exact hs.growths
    · exact hs.hashNelements
    · simp only [hs.nelements]
    · simp only [hs.curr]
      push_cast
      ring

/-- The round that fills the array up: the cursor stays where the first array was. -/
theorem Filled.round_grow {s : LoopState} {k : Nat} (hs : Filled H s k)
    (hk : k + 2 = hashInitialSize) (old : Option (UInt64 → Option UInt64))
    (d : List UInt8) (sl : Slider) :
    ∃ t, grow H (Growth.put old k d { s with sl := sl }) = t ∧ t.hash.base = H.malloc 1 ∧
      t.hash.cells.length = sizeAfter 1 ∧ t.curr = H.malloc 0 + holderSize * k := by
  obtain ⟨newData, hput⟩ := hs.put (by omega) old d sl
  refine ⟨_, rfl, ?_⟩
  rw [hput, grow, if_pos (by simp only [hs.nelements, hs.hashNelements]; omega)]
  refine ⟨?_, ?_, ?_⟩
  · simp only [hs.growths, hashNew]
  · simp only [hs.nelements, hs.hashNelements, List.length_append, List.length_take,
      List.length_drop,
      List.length_set, hs.length,
      length_hashNew (H := H) (by decide : 0 < hashInitialSize * 2), sizeAfter]
    omega
  · simp only [hs.curr]
    ring

/-! ## The loop follows `readHolders` -/

/-- What is read behind the first six holders, when the array they were in is gone. -/
def staleKey (H : Heap) : UInt64 :=
  H.stale (H.malloc 0 + holderSize * (hashInitialSize - 2 : Nat))

/-- The loop, with these elements filled, ends as `readHolders` does.  Where that gives
up, the loop fails unless the freed memory still reads as an end mark. -/
def Follows (H : Heap) (old : Option (UInt64 → Option UInt64)) (front : List Cell)
    (f : Nat → Except Break LoopState) : Except Fault (List Holder × Slider) → Prop
  | .ok (hds, sl) => ∃ t, Returns f t ∧ t.sl = sl ∧
      t.hash.cells.take (front.length + hds.length) = front ++ hds.map (cellOf old)
  | .error (.code ret) => Fails f (.code ret)
  | .error .undefined => staleKey H ≠ hashPtrEnd → ∃ e, Fails f e

theorem Follows.of_succ {front : List Cell} {f : Nat → Except Break LoopState}
    {r : Except Fault (List Holder × Slider)}
    (h : Follows H old front (fun n => f (n + 1)) r) : Follows H old front f r := by
  rcases r with (ret | _) | ⟨hds, sl⟩
  · exact Fails.of_succ h
  · intro hstale
    obtain ⟨e, he⟩ := h hstale
    exact ⟨e, he.of_succ⟩
  · obtain ⟨t, hreturns, ht⟩ := h
    exact ⟨t, hreturns.of_succ, ht⟩

/-- One more holder in front. -/
theorem Follows.cons {front : List Cell} {f : Nat → Except Break LoopState} {hd : Holder}
    {r : Except Fault (List Holder × Slider)}
    (h : Follows H old (front ++ [cellOf old hd]) f r) : Follows H old front f (do
      let (hds, sl) ← r
      .ok (hd :: hds, sl)) := by
  rcases r with (ret | _) | ⟨hds, sl⟩
  · exact h
  · exact h
  · obtain ⟨t, hreturns, hsl, hcells⟩ := h
    refine ⟨t, hreturns, hsl, ?_⟩
    rw [List.length_append, List.append_assoc, List.length_singleton] at hcells
    rw [List.length_cons, List.map_cons, Nat.add_comm hds.length, ← Nat.add_assoc, hcells]
    rfl

/-- A round writes through the cursor. -/
theorem fails_of_index_none {s : LoopState} (h : s.hash.index s.curr = none) :
    ∃ e, Fails (fun fuel => readLoop H buf old fuel s) e := by
  by_cases hret : (s.sl.read buf 0 holderSize).1 < 0
  · refine ⟨.code (-EFAULT), Fails.of_succ (Fails.of_forall fun n => ?_)⟩
    simp only [readLoop, if_pos hret]
  · refine ⟨.outside, Fails.of_succ (Fails.of_forall fun n => ?_)⟩
    simp only [readLoop, if_neg hret, h]

/-- A cursor in the first array is outside of the second. -/
theorem index_none {a : HashArray} {i : Nat} (hbase : a.base = H.malloc 1)
    (hlen : a.cells.length = sizeAfter 1) (hi : i < hashInitialSize) :
    a.index (H.malloc 0 + holderSize * i) = none := by
  have hapart := H.apart 0
  rw [Nat.zero_add, show sizeAfter 0 = 8 from rfl, show sizeAfter 1 = 16 from rfl]
    at hapart
  apply HashArray.index_of_outside
  rw [hbase, hlen, show sizeAfter 1 = 16 from rfl]
  unfold hashInitialSize at hi
  unfold holderSize at *
  omega

/-- After the growth the end mark is looked for in the freed array, and the next
holder goes there. -/
theorem Filled.round_stale {s : LoopState} (hs : Filled H s (hashInitialSize - 2))
    (old : Option (UInt64 → Option UInt64)) (d : List UInt8) (sl : Slider) :
    ∃ t, grow H (Growth.put old (hashInitialSize - 2) d { s with sl := sl }) = t ∧
      currKey H t = staleKey H ∧ t.hash.index (t.curr + holderSize) = none := by
  obtain ⟨t, ht, hbase, hlen, hcurr⟩ := hs.round_grow rfl old d sl
  refine ⟨t, ht, ?_, ?_⟩
  · unfold currKey
    rw [hcurr, index_none hbase hlen (by decide)]
    rfl
  · rw [hcurr, add_assoc]
    exact index_none hbase hlen (i := hashInitialSize - 1) (by decide)

theorem readLoop_follows {room k : Nat} {s : LoopState} (hs : Filled H s k)
    (hpos : 0 < room) (hroom : k + room + 1 = hashInitialSize) :
    Follows H old (s.hash.cells.take k) (fun fuel => readLoop H buf old fuel s)
      (readHolders buf room s.sl) := by
  induction room generalizing k s with
  | zero => cases hpos
  | succ room ih =>
      have hcurr : s.hash.index s.curr = some k := by
        rw [hs.curr, ← hs.base]
        exact HashArray.index_base_add (by rw [hs.length]; omega)
      rcases hread : s.sl.read buf 0 holderSize with ⟨ret, d, sl⟩
      apply Follows.of_succ
      simp only [readLoop, readHolders, hread, hcurr]
      by_cases hret : ret < 0
      · simp only [if_pos hret]
        exact Fails.of_forall fun n => rfl
      · simp only [if_neg hret]
        by_cases hlast : room = 0
        · rw [if_pos hlast]
          obtain rfl : k = hashInitialSize - 2 := by omega
          intro hstale
          obtain ⟨t, ht, hkey, hnext⟩ := hs.round_stale old d sl
          simp only [ht, hkey, if_neg hstale]
          exact fails_of_index_none hnext
        · rw [if_neg hlast]
          obtain ⟨t, ht, hsl, hkey, hcells, hfilled⟩ := hs.round (by omega) old d sl
          have hlen : (s.hash.cells.take k).length = k := by
            rw [List.length_take, hs.length]
            omega
          unfold holderOf at hkey hcells
          simp only [ht, hkey]
          by_cases hend : (Holder.ofBytes (overlay d newElement)).key = hashPtrEnd
          · simp only [if_pos hend]
            exact ⟨t, Returns.of_forall fun n => rfl, hsl, by rw [hlen]; exact hcells⟩
          · simp only [if_neg hend]
            apply Follows.cons
            rw [← hcells, ← hsl]
            exact ih hfilled (by omega) (by omega)

/-- `readHolders` is the loop, seen without its arrays. -/
theorem readLoop_start_follows :
    Follows H old [] (fun fuel => readLoop H buf old fuel (start H))
      (readHolders buf (hashInitialSize - 1) { off := 0 }) :=
  readLoop_follows (filled_start H) (by decide) rfl

end

/-! ## The input -/

/-- A holder of the input. -/
def holderIn (buf : List UInt8) (i : Nat) : Holder :=
  Holder.ofBytes ((buf.drop (holderSize * i)).take holderSize)

/-- The element it becomes. -/
def cellIn (buf : List UInt8) (old : Option (UInt64 → Option UInt64)) (i : Nat) : Cell :=
  cellOf old (holderIn buf i)

/-- The first end mark is the last of so many holders. -/
structure Ends (buf : List UInt8) (n : Nat) : Prop where
  pos : 1 ≤ n
  room : holderSize * n ≤ buf.length
  before : ∀ i, i + 1 < n → (holderIn buf i).key ≠ hashPtrEnd
  last : (holderIn buf (n - 1)).key = hashPtrEnd

/-- The loop ends, without a write outside of its array, and the hash begins
with the holders. -/
def Keeps (H : Heap) (buf : List UInt8) (old : Option (UInt64 → Option UInt64))
    (n : Nat) : Prop :=
  ∃ s, Returns (fun fuel => readLoop H buf old fuel (start H)) s ∧
    s.hash.cells.take n = (List.range n).map (cellIn buf old)

section

variable {buf : List UInt8} {n : Nat}

theorem Ends.read (h : Ends buf n) {k : Nat} (hk : k < n) :
    ({ off := holderSize * k } : Slider).read buf 0 holderSize
        = (0, (buf.drop (holderSize * k)).take holderSize,
          { off := holderSize * (k + 1) }) ∧
      holderOf ((buf.drop (holderSize * k)).take holderSize) = holderIn buf k := by
  have hroom : holderSize * k + holderSize ≤ buf.length :=
    le_trans (Nat.mul_le_mul_left holderSize hk) h.room
  refine ⟨Slider.read_front (by decide) hroom, ?_⟩
  rw [holderOf, holderIn, overlay_of_length]
  rw [List.length_take, List.length_drop, show newElement.length = holderSize from rfl]
  omega

/-- `readHolders` reads the holders if they leave an element in front of the last. -/
theorem Ends.readHolders (h : Ends buf n) (room : Nat) {k : Nat} (hk : k < n) :
    Binary.readHolders buf room { off := holderSize * k } =
      if n - k < room then .ok
        ((List.range' k (n - k)).map (holderIn buf), { off := holderSize * n })
      else .error .undefined := by
  induction room generalizing k with
  | zero => rfl
  | succ room ih =>
      obtain ⟨hread, hholder⟩ := h.read hk
      simp only [Binary.readHolders, hread, lt_self_iff_false, if_false]
      unfold holderOf at hholder
      rw [hholder]
      by_cases hroom : room = 0
      · rw [if_pos hroom, if_neg (by omega)]
      · rw [if_neg hroom]
        by_cases hlast : k + 1 = n
        · obtain rfl : k = n - 1 := by omega
          rw [if_pos h.last, if_pos (by omega), hlast, show n - (n - 1) = 1 by omega]
          rfl
        · obtain ⟨m, hm⟩ : ∃ m, n - k = m + 1 := ⟨n - k - 1, by omega⟩
          rw [if_neg (h.before k (by omega)), ih (by omega), hm,
            show n - (k + 1) = m by omega, List.range'_succ, List.map_cons]
          by_cases hfits : m < room
          · rw [if_pos hfits, if_pos (by omega)]
            rfl
          · rw [if_neg hfits, if_neg (by omega)]
            rfl

theorem Ends.follows (h : Ends buf n) (H : Heap) (old : Option (UInt64 → Option UInt64)) :
    Follows H old [] (fun fuel => readLoop H buf old fuel (start H))
      (if n < hashInitialSize - 1
        then .ok ((List.range n).map (holderIn buf), { off := holderSize * n })
      else .error .undefined) := by
  have hread := h.readHolders (hashInitialSize - 1) h.pos
  rw [Nat.mul_zero, Nat.sub_zero, ← List.range_eq_range'] at hread
  rw [← hread]
  exact readLoop_start_follows

variable {H : Heap} {old : Option (UInt64 → Option UInt64)}

theorem Ends.keeps (h : Ends buf n) (hn : n < hashInitialSize - 1) :
    Keeps H buf old n := by
  have hfollows := h.follows H old
  rw [if_pos hn] at hfollows
  obtain ⟨s, hreturns, -, hcells⟩ := hfollows
  refine ⟨s, hreturns, ?_⟩
  simp only [List.length_nil, Nat.zero_add, List.length_map, List.length_range,
    List.nil_append, List.map_map] at hcells
  exact hcells

theorem Ends.not_keeps (h : Ends buf n) (hn : ¬ n < hashInitialSize - 1)
    (hstale : staleKey H ≠ hashPtrEnd) : ¬ Keeps H buf old n := by
  have hfollows := h.follows H old
  rw [if_neg hn] at hfollows
  obtain ⟨e, hfails⟩ := hfollows hstale
  rintro ⟨s, hreturns, -⟩
  exact hfails.not_returns hreturns

end

/-! ## The first array is all there is -/

/-- Arrays one behind the other, and nothing in the memory that is free. -/
def bump : Heap where
  malloc k := holderSize * hashInitialSize * (2 ^ k - 1)
  stale _ := 0
  tag _ := 0
  apart k := by
    left
    rw [sizeAfter, pow_succ]
    push_cast
    linarith

/-- Whatever the memory is like, the loop keeps the holders: exactly those that fit into
the first array. -/
theorem growth_iff (old : Option (UInt64 → Option UInt64)) {buf : List UInt8} {n : Nat}
    (h : Ends buf n) : (∀ H, Keeps H buf old n) ↔ n ≤ hashInitialSize - 2 := by
  constructor
  · intro hkeeps
    by_contra hn
    exact h.not_keeps (by unfold hashInitialSize at *; omega) (by decide) (hkeeps bump)
  · intro hn H
    exact h.keeps (by unfold hashInitialSize at *; omega)

/-- Items up to the end mark. -/
def items (n : Nat) : List UInt8 :=
  (List.range n).flatMap (fun i => Cell.bytes ⟨UInt64.ofNat (i + 1), 12, 0⟩) ++
    Cell.bytes ⟨hashPtrEnd, 0, 0⟩

theorem ends_items_two : Ends (items 2) 3 := by
  refine ⟨by decide, by decide, fun i hi => ?_, by decide⟩
  have hlt : i < 2 := by omega
  interval_cases i <;> decide

theorem growth_three : (∀ H, Keeps H (items 2) none 3) ↔ 3 ≤ hashInitialSize - 2 :=
  growth_iff none ends_items_two

set_option maxRecDepth 10000 in
theorem ends_items_seven : Ends (items 7) 8 := by
  refine ⟨by decide, by decide, fun i hi => ?_, by decide⟩
  have hlt : i < 7 := by omega
  interval_cases i <;> decide

set_option maxRecDepth 10000 in
/-- The end mark behind seven items is written outside. -/
theorem growth_writes_outside :
    Ends (items 7) 8 ∧
      Fails (fun fuel => readLoop bump (items 7) none fuel (start bump)) .outside ∧
      ¬ Keeps bump (items 7) none 8 := by
  have hfails : Fails (fun fuel => readLoop bump (items 7) none fuel (start bump))
      .outside := by
    refine ⟨8, fun n hn => ?_⟩
    obtain ⟨m, rfl⟩ := Nat.exists_eq_add_of_le' hn
    rfl
  refine ⟨ends_items_seven, hfails, ?_⟩
  rintro ⟨s, hreturns, -⟩
  exact hfails.not_returns hreturns

end Frozen.Binary.Growth
