/-
# `Frozen.Digest.Jenkins` — `jenkins32_hash` and `jenkins64_hash`

Bob Jenkins' two functions are one: three words, blocks of three words that are added
and mixed, and a last block with the length in it.  The source reads the key in pieces
of ten blocks, and departs from the published functions in three places.

The end   a read of full blocks only is not taken for the last one; the next
one fails, and what
          is returned is `c` before the last mix
`keylen`  is summed up from what was on the stack
the sign  bytes are `char`s, with a sign that is extended to the left of them

`jenkins32Hash_correct` and `jenkins64Hash_correct` say that where none of the
three matters the hash is the published one, and that there is no length at which
it is so for all keys.
-/
import Frozen.Digest.Walk

namespace Frozen.Digest

open Lib Data
open Binary (overlay maxObject blank)

/-! ## Mixing -/

/-- `a`, `b` and `c`. -/
structure Trio (w : Nat) where
  a : BitVec w
  b : BitVec w
  c : BitVec w
deriving DecidableEq

/-- Three lines of `mix`. -/
def Trio.lines {w : Nat} (s₁ s₂ s₃ : Nat) (t : Trio w) : Trio w :=
  let a := (t.a - t.b - t.c) ^^^ (t.c >>> s₁)
  let b := (t.b - t.c - a) ^^^ (a <<< s₂)
  let c := (t.c - a - b) ^^^ (b >>> s₃)
  ⟨a, b, c⟩

def mix (t : Trio 32) : Trio 32 := ((t.lines 13 8 13).lines 12 16 5).lines 3 10 15

def mix64 (t : Trio 64) : Trio 64 :=
  (((t.lines 43 9 8).lines 38 23 5).lines 35 49 11).lines 12 18 22

/-- One of the functions. -/
structure Jenkins (w : Nat) where
  mix : Trio w → Trio w
  /-- the internal state that is set up from the seed -/
  start : BitVec w → Trio w
  /-- a byte of a full block, as a word -/
  inBlock : UInt8 → BitVec w
  /-- a byte behind the last full block, as a word -/
  inTail : Nat → UInt8 → BitVec w

namespace Jenkins

variable {w : Nat} (J L : Jenkins w)

/-- `(k[0] + (k[1] << 8) + ...)`. -/
def word (k : List UInt8) : BitVec w :=
  (List.range (w / 8)).foldl (fun s i => s + (J.inBlock (k.getD i 0) <<< (8 * i))) 0

/-- The body of `while(len >= 12)`, or 24. -/
def block (t : Trio w) (k : List UInt8) : Trio w :=
  J.mix ⟨t.a + J.word k, t.b + J.word (k.drop (w / 8)),
    t.c + J.word (k.drop (2 * (w / 8)))⟩

/-- One `case` of the `switch`.  The first byte of `c` is reserved for the length. -/
def tailByte (k : List UInt8) (i : Nat) (t : Trio w) : Trio w :=
  let b := J.inTail i (k.getD i 0)
  if i < w / 8 then { t with a := t.a + (b <<< (8 * i)) }
  else if i < 2 * (w / 8) then { t with b := t.b + (b <<< (8 * (i - w / 8))) }
  else { t with c := t.c + (b <<< (8 * (i - 2 * (w / 8) + 1))) }

/-- `switch(len)`: all the cases fall through. -/
def tail (k : List UInt8) (len : Nat) (t : Trio w) : Trio w :=
  (List.range len).foldr (J.tailByte k) t

/-- What is done behind the loop. -/
def finish (t : Trio w) (keylen : BitVec w) (k : List UInt8) (len : Nat) : BitVec w :=
  (J.mix (J.tail k len { t with c := t.c + keylen })).c

/-- The hash of a key in one piece. -/
def oneShot (k : List UInt8) (seed : BitVec w) : BitVec w :=
  let n := 3 * (w / 8)
  J.finish (foldBlocks n J.block (J.start seed) k) (BitVec.ofNat w k.length)
    (leftover n k) (k.length % n)

def BUFFER_ROUNDS : Nat := 10

/-- The loop: a read that leaves less than a block is the last one. -/
def walk : Walk (Trio w) where
  size := 3 * (w / 8) * BUFFER_ROUNDS
  width := 3 * (w / 8)
  mix := J.block
  last n := decide (n % (3 * (w / 8)) ≠ 0)

/-- The hash of a key that is read in pieces.  `keylen` is what was on the stack; it and
`offset` count the same bytes. -/
def hash (keylen : BitVec w) (stack : Nat → UInt8) (n : Nat) (data : Holder)
    (seed : BitVec w) : Except OutOfFuel (BitVec w) := do
  match ← J.walk.loop data n 0 (blank stack J.walk.size) (J.start seed) with
  | .failed t => .ok t.c
  | .left t len offset k =>
      .ok (J.finish t (keylen + BitVec.ofNat w offset) k (len % (3 * (w / 8))))

end Jenkins

/-- Bob Jenkins' 32-bit function, `lookup2`. -/
def Published.lookup2 : Jenkins 32 where
  mix := mix
  start seed := ⟨0x9e3779b9, 0x9e3779b9, seed⟩
  inBlock k := k.toBitVec.setWidth 32
  inTail _ k := k.toBitVec.setWidth 32

/-- Bob Jenkins' 64-bit function, `lookup8`. -/
def Published.lookup8 : Jenkins 64 where
  mix := mix64
  start seed := ⟨seed, seed, 0x9e3779b97f4a7c13⟩
  inBlock k := k.toBitVec.setWidth 64
  inTail _ k := k.toBitVec.setWidth 64

/-- `jenkins32_hash`: two bytes of the tail are cast to `uint8_t`, the
others are `char`s. -/
def jenkins32 : Jenkins 32 where
  mix := mix
  start seed := ⟨0x9e3779b9, 0x9e3779b9, seed⟩
  inBlock k := k.toBitVec.signExtend 32
  inTail i k := if i = 0 ∨ i = 4 then k.toBitVec.setWidth 32 else k.toBitVec.signExtend 32

/-- `jenkins64_hash`. -/
def jenkins64 : Jenkins 64 where
  mix := mix64
  start seed := ⟨seed, seed, 0x9e3779b97f4a7c13⟩
  inBlock k := k.toBitVec.signExtend 64
  inTail _ k := k.toBitVec.signExtend 64

def jenkins32Hash := jenkins32.hash

def jenkins64Hash := jenkins64.hash

/-! ## The loop -/

namespace Jenkins

variable {w : Nat} {J L : Jenkins w} {k : List UInt8}

theorem walk_sound (J : Jenkins w) (hw : 8 ≤ w) : J.walk.Sound := by
  have hpos : 0 < 3 * (w / 8) := by omega
  exact
    { width := hpos
      size := Nat.mul_pos hpos (by decide)
      blocks := Nat.dvd_mul_right _ _
      full := by simp [walk] }

theorem walk_leaves {n : Nat} : J.walk.Leaves n ↔ ¬ 3 * (w / 8) ∣ n := by
  have hmod : n % (3 * (w / 8) * BUFFER_ROUNDS) % (3 * (w / 8)) = n % (3 * (w / 8)) :=
    Nat.mod_mod_of_dvd _ (Nat.dvd_mul_right _ _)
  show n % (3 * (w / 8) * BUFFER_ROUNDS) ≠ 0 ∧
    decide (n % (3 * (w / 8) * BUFFER_ROUNDS) % (3 * (w / 8)) ≠ 0) = true ↔ _
  rw [decide_eq_true_eq, hmod, Nat.dvd_iff_mod_eq_zero]
  refine and_iff_right_of_imp fun hne hzero => hne ?_
  rw [← hmod, hzero, Nat.zero_mod]

theorem tail_append (k rest : List UInt8) (t : Trio w) :
    J.tail (k ++ rest) k.length t = J.tail k k.length t := by
  refine List.foldr_ext _ _ _ fun i hi t => ?_
  have hget : (k ++ rest).getD i 0 = k.getD i 0 := by
    rw [List.getD_eq_getElem?_getD, List.getD_eq_getElem?_getD,
      List.getElem?_append_left (List.mem_range.mp hi)]
  rw [tailByte, tailByte, hget]

section

variable {data : Holder} {c : List UInt8} (hw : 8 ≤ w) (hk : data.Keeps c)
  (keylen : BitVec w) (stack : Nat → UInt8) (seed : BitVec w)

include hw hk

theorem hash_of_rest (h : ¬ 3 * (w / 8) ∣ c.length) :
    Returns (fun n => J.hash keylen stack n data seed)
      (J.finish (foldBlocks (3 * (w / 8)) J.block (J.start seed) c)
        (keylen + BitVec.ofNat w c.length)
        (leftover (3 * (w / 8)) c) (c.length % (3 * (w / 8)))) := by
  obtain ⟨rest, hloop⟩ := Walk.loop_left (J.walk_sound hw) hk (walk_leaves.mpr h)
    (blank stack J.walk.size) (J.start seed)
  refine hloop.bind (.of_forall fun n => ?_)
  have hmod : c.length % J.walk.size % (3 * (w / 8)) = c.length % (3 * (w / 8)) :=
    Nat.mod_mod_of_dvd _ (Nat.dvd_mul_right _ _)
  have htail : ∀ t, J.tail (leftover (3 * (w / 8)) c ++ rest)
      (c.length % (3 * (w / 8))) t =
      J.tail (leftover (3 * (w / 8)) c) (c.length % (3 * (w / 8))) t := by
    intro t
    rw [← length_leftover c, tail_append]
  simp only [hmod]
  exact congrArg (fun t => Except.ok (J.mix t).c) (htail _)

/-- A key of blocks: the last read fails. -/
theorem hash_of_blocks (h : 3 * (w / 8) ∣ c.length) :
    Returns (fun n => J.hash keylen stack n data seed)
      (foldBlocks (3 * (w / 8)) J.block (J.start seed) c).c := by
  have hloop := Walk.loop_failed (J.walk_sound hw) hk (fun hl => walk_leaves.mp hl h)
      (blank stack J.walk.size)
    (J.start seed)
  exact hloop.bind (.of_forall fun n => rfl)

end

/-! ## Keys without a sign -/

/-- The two functions take every byte of the key for the same. -/
structure SameBytes (J L : Jenkins w) (k : List UInt8) : Prop where
  block : ∀ i < 3 * (w / 8) * (k.length / (3 * (w / 8))),
    J.inBlock (k.getD i 0) <<< (8 * (i % (w / 8))) = L.inBlock (k.getD i 0) <<<
      (8 * (i % (w / 8)))
  tail : ∀ i < k.length % (3 * (w / 8)), ∀ t,
    J.tailByte (leftover (3 * (w / 8)) k) i t = L.tailByte (leftover (3 * (w / 8)) k) i t

theorem getD_drop (k : List UInt8) (o i : Nat) :
    (k.drop o).getD i 0 = k.getD (o + i) 0 := by
  rw [List.getD_eq_getElem?_getD, List.getD_eq_getElem?_getD, List.getElem?_drop]

theorem getD_take (k : List UInt8) {n i : Nat} (h : i < n) :
    (k.take n).getD i 0 = k.getD i 0 := by
  rw [List.getD_eq_getElem?_getD, List.getD_eq_getElem?_getD, List.getElem?_take_of_lt h]

theorem word_congr {k : List UInt8}
    (h : ∀ i < w / 8, J.inBlock (k.getD i 0) <<< (8 * i) = L.inBlock (k.getD i 0) <<<
      (8 * i)) : J.word k = L.word k :=
  List.foldl_ext _ _ _ fun s i hi => by rw [h i (List.mem_range.mp hi)]

/-- How far to the left a byte of the tail goes. -/
def tailShift (w i : Nat) : Nat :=
  if i < w / 8 then 8 * i else if i < 2 * (w / 8) then 8 * (i - w / 8)
    else 8 * (i - 2 * (w / 8) + 1)

theorem tailByte_congr {i : Nat} (t : Trio w)
    (h : J.inTail i (k.getD i 0) <<< tailShift w i = L.inTail i (k.getD i 0) <<<
      tailShift w i) :
    J.tailByte k i t = L.tailByte k i t := by
  unfold tailShift at h
  unfold tailByte
  split_ifs at h ⊢ <;> simp only [h]

theorem SameBytes.word (hs : SameBytes J L k) {i j : Nat}
    (hi : i < k.length / (3 * (w / 8))) (hj : j < 3) :
    J.word (((k.drop (3 * (w / 8) * i)).take (3 * (w / 8))).drop (j * (w / 8))) =
      L.word (((k.drop (3 * (w / 8) * i)).take (3 * (w / 8))).drop (j * (w / 8))) := by
  refine word_congr fun b hb => ?_
  have hin : j * (w / 8) + b < 3 * (w / 8) := by
    calc j * (w / 8) + b < j * (w / 8) + w / 8 := Nat.add_lt_add_left hb _
      _ = (j + 1) * (w / 8) := (Nat.succ_mul _ _).symm
      _ ≤ 3 * (w / 8) := Nat.mul_le_mul_right _ hj
  have hpos : 3 * (w / 8) * i + (j * (w / 8) + b)
      < 3 * (w / 8) * (k.length / (3 * (w / 8))) := by
    calc 3 * (w / 8) * i + (j * (w / 8) + b) < 3 * (w / 8) * i + 3 * (w / 8) :=
           Nat.add_lt_add_left hin _
      _ = 3 * (w / 8) * (i + 1) := (Nat.mul_succ _ _).symm
      _ ≤ 3 * (w / 8) * (k.length / (3 * (w / 8))) := Nat.mul_le_mul_left _ hi
  have hmod : (3 * (w / 8) * i + (j * (w / 8) + b)) % (w / 8) = b := by
    have hsum : 3 * (w / 8) * i + (j * (w / 8) + b) = b + w / 8 * (3 * i + j) := by ring
    rw [hsum, Nat.add_mul_mod_self_left, Nat.mod_eq_of_lt hb]
  have hsame := hs.block _ hpos
  rw [hmod] at hsame
  rw [getD_drop, getD_take _ hin, getD_drop]
  exact hsame

/-- **The same bytes**, the same steps and the same start give the same hash. -/
theorem SameBytes.finish (hs : SameBytes J L k) (hmix : J.mix = L.mix) (t : Trio w)
    (keylen : BitVec w) :
    J.finish (foldBlocks (3 * (w / 8)) J.block t k) keylen (leftover (3 * (w / 8)) k)
      (k.length % (3 * (w / 8))) =
      L.finish (foldBlocks (3 * (w / 8)) L.block t k) keylen (leftover (3 * (w / 8)) k)
        (k.length % (3 * (w / 8))) := by
  have hfold : foldBlocks (3 * (w / 8)) J.block t k = foldBlocks (3 * (w / 8))
      L.block t k := by
    refine foldBlocks_congr (fun i hi s => ?_) t
    have ha := hs.word hi (j := 0) (by decide)
    have hb := hs.word hi (j := 1) (by decide)
    have hc := hs.word hi (j := 2) (by decide)
    rw [Nat.zero_mul, List.drop_zero] at ha
    rw [Nat.one_mul] at hb
    rw [Jenkins.block, Jenkins.block, ha, hb, hc, hmix]
  have htail : ∀ t, J.tail (leftover (3 * (w / 8)) k) (k.length % (3 * (w / 8))) t =
      L.tail (leftover (3 * (w / 8)) k) (k.length % (3 * (w / 8))) t := fun t =>
    List.foldr_ext _ _ _ fun i hi t => hs.tail i (List.mem_range.mp hi) t
  rw [Jenkins.finish, Jenkins.finish, hfold, htail, hmix]

/-- Nothing on the stack, the same bytes, and no block at the end. -/
theorem SameBytes.returns {data : Holder} (hs : SameBytes J L k) (hmix : J.mix = L.mix)
    (hstart : J.start = L.start) (hw : 8 ≤ w) (hk : data.Keeps k)
    (h : ¬ 3 * (w / 8) ∣ k.length) (stack : Nat → UInt8) (seed : BitVec w) :
    Returns (fun n => J.hash 0 stack n data seed) (L.oneShot k seed) := by
  have hrun := hash_of_rest (J := J) hw hk 0 stack seed h
  rwa [hs.finish hmix, hstart, BitVec.ofNat_eq_ofNat, BitVec.zero_add] at hrun

end Jenkins

/-- The sign of a byte does not matter if it is not set, or if it comes out
at the left end. -/
theorem signExtend_shift {w : Nat} (b : UInt8) {s : Nat} (h : b < 128 ∨ w ≤ s + 8) :
    b.toBitVec.signExtend w <<< s = b.toBitVec.setWidth w <<< s := by
  rcases h with hlt | hle
  · have hmsb : b.toBitVec.msb = false := by
      rw [BitVec.msb_eq_false_iff_two_mul_lt]
      have hnat : b.toNat < 128 := UInt8.lt_iff_toNat_lt.mp hlt
      have hval : b.toBitVec.toNat = b.toNat := rfl
      omega
    rw [BitVec.signExtend_eq_setWidth_of_msb_false hmsb]
  · refine BitVec.eq_of_getLsbD_eq fun i hi => ?_
    have hbyte : i - s < 8 := by omega
    have hword : i - s < w := by omega
    simp only [BitVec.getLsbD_shiftLeft, BitVec.getLsbD_signExtend,
      BitVec.getLsbD_setWidth, hbyte, hword, if_true, decide_true, Bool.true_and]

/-- The signs of the bytes do not matter to `jenkins32_hash`. -/
def Unsigned32 (k : List UInt8) : Prop :=
  ∀ i < k.length, k.getD i 0 < 128 ∨
    if i < 12 * (k.length / 12) then i % 4 = 3 else i % 12 ∈ [0, 3, 4, 7, 10]

/-- The signs of the bytes do not matter to `jenkins64_hash`. -/
def Unsigned64 (k : List UInt8) : Prop :=
  ∀ i < k.length, k.getD i 0 < 128 ∨ if i < 24 * (k.length / 24) then i % 8 = 7
    else i % 24 ∈ [7, 15, 22]

theorem Unsigned32.same {k : List UInt8} (h : Unsigned32 k) :
    jenkins32.SameBytes Published.lookup2 k where
  block i hi := by
    have hle : 12 * (k.length / 12) ≤ k.length := Nat.mul_div_le _ _
    have hbyte := h i (lt_of_lt_of_le hi hle)
    rw [if_pos hi] at hbyte
    exact signExtend_shift _
      (hbyte.imp_right fun htop => by show 32 ≤ 8 * (i % 4) + 8; omega)
  tail i hi t := by
    have hi : i < k.length % 12 := hi
    have hbyte := h (12 * (k.length / 12) + i) (by omega)
    rw [if_neg (by omega), Nat.mul_add_mod, Nat.mod_eq_of_lt (by omega : i < 12),
      ← Jenkins.getD_drop] at hbyte
    refine Jenkins.tailByte_congr t ?_
    by_cases hcast : i = 0 ∨ i = 4
    · simp only [jenkins32, Published.lookup2, if_pos hcast]
    · simp only [jenkins32, Published.lookup2, if_neg hcast]
      refine signExtend_shift _ (hbyte.imp_right fun htop => ?_)
      simp only [List.mem_cons, List.not_mem_nil, or_false] at htop
      unfold Jenkins.tailShift
      split_ifs <;> omega

theorem Unsigned64.same {k : List UInt8} (h : Unsigned64 k) :
    jenkins64.SameBytes Published.lookup8 k where
  block i hi := by
    have hle : 24 * (k.length / 24) ≤ k.length := Nat.mul_div_le _ _
    have hbyte := h i (lt_of_lt_of_le hi hle)
    rw [if_pos hi] at hbyte
    exact signExtend_shift _
      (hbyte.imp_right fun htop => by show 64 ≤ 8 * (i % 8) + 8; omega)
  tail i hi t := by
    have hi : i < k.length % 24 := hi
    have hbyte := h (24 * (k.length / 24) + i) (by omega)
    rw [if_neg (by omega), Nat.mul_add_mod, Nat.mod_eq_of_lt (by omega : i < 24),
      ← Jenkins.getD_drop] at hbyte
    refine Jenkins.tailByte_congr t (signExtend_shift _ (hbyte.imp_right fun htop => ?_))
    simp only [List.mem_cons, List.not_mem_nil, or_false] at htop
    unfold Jenkins.tailShift
    split_ifs <;> omega

/-! ## No length is safe -/

namespace Jenkins

variable {w : Nat}

/-- Blocks by which the two functions are told apart at every length: one that leaves
the state as it is in both, and two that do so in the published function only. -/
structure Trap (J L : Jenkins w) (seed : BitVec w) (b v₁ v₂ : List UInt8) : Prop where
  wide : 8 ≤ w
  start : L.start seed = J.start seed
  length : b.length = 3 * (w / 8) ∧ v₁.length = 3 * (w / 8) ∧ v₂.length = 3 * (w / 8)
  stays : J.block (J.start seed) b = J.start seed
  stays' : L.block (J.start seed) b = J.start seed
  meets : L.block (L.block (J.start seed) v₁) v₂ = J.start seed
  parts : (J.block (J.block (J.start seed) v₁) v₂).c ≠ (J.start seed).c
  zero : ∀ i, J.inTail i 0 = 0
  odd : (J.mix (J.start seed)).c
    ≠ (J.mix { J.start seed with c := (J.start seed).c + 1 }).c
  none : (J.start 0).c ≠ L.oneShot [] 0
  one : (J.block (J.start 0) (List.replicate (3 * (w / 8)) 0)).c
    ≠ L.oneShot (List.replicate (3 * (w / 8)) 0) 0

variable {J L : Jenkins w} {seed : BitVec w} {b v₁ v₂ : List UInt8} {len : Nat}

theorem tail_zero (hzero : ∀ i, J.inTail i 0 = 0) (r len : Nat) (t : Trio w) :
    J.tail (List.replicate r 0) len t = t := by
  have hget : ∀ i, (List.replicate r (0 : UInt8)).getD i 0 = 0 := fun i => by
    rw [List.getD_eq_getElem?_getD, List.getElem?_replicate]
    split_ifs <;> rfl
  have hbyte : ∀ i t, J.tailByte (List.replicate r 0) i t = t := by
    intro i t
    unfold tailByte
    rw [hget, hzero]
    split_ifs <;> simp
  have hfold : ∀ is : List Nat, is.foldr (J.tailByte (List.replicate r 0)) t = t := by
    intro is
    induction is with
    | nil => rfl
    | cons i is ih => rw [List.foldr_cons, ih, hbyte]
  exact hfold _

namespace Trap

/-- The hash is right for all keys of a length, whatever was on the stack. -/
def Right (J L : Jenkins w) (len : Nat) : Prop :=
  ∀ data c stack keylen seed, data.Keeps c → c.length = len →
    Returns (fun n => J.hash keylen stack n data seed) (L.oneShot c seed)

/-- Zeros behind a number of blocks: the hash depends on what was on the stack. -/
theorem not_right_of_rest (h : Trap J L seed b v₁ v₂) (hlen : len ≤ maxObject)
    (hr : ¬ 3 * (w / 8) ∣ len) : ¬ Right J L len := by
  have hpos : 0 < 3 * (w / 8) := by have := h.wide; omega
  intro hright
  generalize hc : (List.replicate (len / (3 * (w / 8))) b).flatten ++ List.replicate
    (len % (3 * (w / 8))) (0 : UInt8) = c
  have hclen : c.length = len := by
    rw [← hc, List.length_append, List.length_flatten, List.map_replicate,
      List.sum_replicate, h.length.1, smul_eq_mul, List.length_replicate, Nat.mul_comm]
    exact Nat.div_add_mod _ _
  have hk := Holder.keeps_raw (hclen.symm ▸ hlen)
  have hshort : (List.replicate (len % (3 * (w / 8))) (0 : UInt8)).length
      < 3 * (w / 8) := by
    rw [List.length_replicate]
    exact Nat.mod_lt _ hpos
  obtain ⟨hfold, hleft⟩ := foldBlocks_replicate hpos h.length.1 h.stays
    (len / (3 * (w / 8))) (List.replicate (len % (3 * (w / 8))) (0 : UInt8))
  rw [hc, foldBlocks_of_lt hshort] at hfold
  rw [hc, leftover_of_lt hshort] at hleft
  have hvalue : ∀ x : BitVec w,
      L.oneShot c seed = (J.mix { J.start seed with c := (J.start seed).c + x }).c := by
    intro x
    have hrun := hash_of_rest h.wide hk (x - BitVec.ofNat w c.length) (fun _ => 0)
        seed (J := J)
      (hclen.symm ▸ hr)
    rw [finish, hfold, hleft, tail_zero h.zero, BitVec.sub_add_cancel] at hrun
    exact (hright _ _ _ _ _ hk hclen).unique hrun
  have hzero := hvalue 0
  rw [show (J.start seed).c + 0 = (J.start seed).c from BitVec.add_zero _] at hzero
  exact h.odd (hzero.symm.trans (hvalue 1))

/-- A number of blocks: two keys of two hashes, and one published hash. -/
theorem not_right_of_blocks (h : Trap J L seed b v₁ v₂) (n : Nat)
    (hlen : 3 * (w / 8) * (n + 2) ≤ maxObject) :
    ¬ Right J L (3 * (w / 8) * (n + 2)) := by
  have hpos : 0 < 3 * (w / 8) := by have := h.wide; omega
  obtain ⟨hb, hv₁, hv₂⟩ := h.length
  intro hright
  -- a key of the block that stays, with two blocks at its end
  have hkey : ∀ x y : List UInt8, x.length = 3 * (w / 8) → y.length = 3 * (w / 8) →
      L.block (L.block (J.start seed) x) y = J.start seed →
      L.finish (J.start seed) (BitVec.ofNat w (3 * (w / 8) * (n + 2))) [] 0 =
        (J.block (J.block (J.start seed) x) y).c := by
    intro x y hx hy hmeets
    generalize hc : (List.replicate n b).flatten ++ (x ++ y) = c
    have hclen : c.length = 3 * (w / 8) * (n + 2) := by
      rw [← hc, List.length_append, List.length_flatten, List.map_replicate,
        List.sum_replicate, hb, smul_eq_mul, List.length_append, hx, hy]
      ring
    have hk := Holder.keeps_raw (hclen.symm ▸ hlen)
    have hdvd : 3 * (w / 8) ∣ c.length := hclen.symm ▸ Nat.dvd_mul_right _ _
    have htwo : ∀ (K : Jenkins w), K.block (J.start seed) b = J.start seed →
        foldBlocks (3 * (w / 8)) K.block (J.start seed) c
          = K.block (K.block (J.start seed) x) y := by
      intro K hstays
      have hfold := (foldBlocks_replicate hpos hb hstays n (x ++ y)).1
      rw [hc, foldBlocks_cons hpos hx, ← List.append_nil y, foldBlocks_cons hpos hy,
        foldBlocks_nil] at hfold
      exact hfold
    have hleft : leftover (3 * (w / 8)) c = [] :=
      List.eq_nil_of_length_eq_zero (by rw [length_leftover, Nat.mod_eq_zero_of_dvd hdvd])
    have hrun := hash_of_blocks h.wide hk 0 (fun _ => 0) seed (J := J) hdvd
    have hpub : L.oneShot c seed = L.finish (J.start seed)
        (BitVec.ofNat w (3 * (w / 8) * (n + 2))) [] 0 := by
      simp only [oneShot]
      rw [h.start, htwo L h.stays', hmeets, hleft, Nat.mod_eq_zero_of_dvd hdvd, hclen]
    rw [htwo J h.stays] at hrun
    rw [← hpub]
    exact (hright _ _ _ _ _ hk hclen).unique hrun
  have hbb := hkey b b hb hb (by rw [h.stays', h.stays'])
  have hvv := hkey v₁ v₂ hv₁ hv₂ h.meets
  rw [h.stays, h.stays] at hbb
  exact h.parts (hvv.symm.trans hbb)

/-- **No length is safe.** -/
theorem not_right (h : Trap J L seed b v₁ v₂) (hlen : len ≤ maxObject) :
    ¬ Right J L len := by
  by_cases hdvd : 3 * (w / 8) ∣ len
  · obtain ⟨n, rfl⟩ := hdvd
    match n with
    | 0 =>
        intro hright
        have hk := Holder.keeps_raw (c := []) (by decide)
        have hrun := hash_of_blocks h.wide hk 0 (fun _ => 0) 0 (J := J) (dvd_zero _)
        rw [foldBlocks_nil] at hrun
        exact h.none (hrun.unique (hright _ _ _ _ _ hk rfl))
    | 1 =>
        intro hright
        have hclen : (List.replicate (3 * (w / 8)) (0 : UInt8)).length
            = 3 * (w / 8) * 1 := by
          rw [List.length_replicate, Nat.mul_one]
        have hpos : 0 < 3 * (w / 8) := by have := h.wide; omega
        have hk := Holder.keeps_raw (hclen.symm ▸ hlen)
        have hrun := hash_of_blocks h.wide hk 0 (fun _ => 0) 0 (J := J)
            (hclen.symm ▸ Nat.dvd_mul_right _ _)
        rw [← List.append_nil (List.replicate _ _),
          foldBlocks_cons hpos List.length_replicate, foldBlocks_nil,
          List.append_nil] at hrun
        exact h.one (hrun.unique (hright _ _ _ _ _ hk hclen))
    | n + 2 => exact not_right_of_blocks h n hlen
  · exact not_right_of_rest h hlen hdvd

end Trap

end Jenkins

theorem jenkins32_trap : Jenkins.Trap jenkins32 Published.lookup2 642
    [41, 78, 38, 190, 49, 54, 32, 114, 101, 84, 32, 225] (128 :: List.replicate 11 0)
    [200, 238, 125, 236, 74, 188, 112, 199, 191, 246, 237, 29] where
  wide := by decide
  start := rfl
  length := by decide
  stays := by decide
  stays' := by decide
  meets := by decide
  parts := by decide
  zero i := by simp only [jenkins32]; split_ifs <;> decide
  odd := by decide
  none := by decide
  one := by decide

theorem jenkins64_trap : Jenkins.Trap jenkins64 Published.lookup8 4566193
    [44, 71, 86, 87, 122, 106, 53, 103, 53, 25, 52, 74, 28, 96, 22, 215, 20, 58, 26,
      101, 119, 36, 56, 56]
    (128 :: List.replicate 23 0)
    [171, 108, 191, 113, 51, 74, 131, 210, 89, 58, 137, 105, 121, 175, 152, 204, 11,
      110, 113, 246, 68, 136, 203, 129] where
  wide := by decide
  start := rfl
  length := by decide
  stays := by decide +kernel
  stays' := by decide +kernel
  meets := by decide +kernel
  parts := by decide +kernel
  zero i := show (0 : UInt8).toBitVec.signExtend 64 = 0 by decide
  odd := by decide +kernel
  none := by decide +kernel
  one := by decide +kernel

/-- **When the hashes are Bob Jenkins' ones**: if the key does not end with a block,
nothing was on the stack, and no sign is extended.  There is no length at which they are
so for all keys. -/
theorem jenkinsHash_correct {data : Holder} {c : List UInt8} (hk : data.Keeps c)
    (stack : Nat → UInt8) : (¬ 12 ∣ c.length → Unsigned32 c → ∀ seed,
      Returns (fun n => jenkins32Hash 0 stack n data seed)
        (Published.lookup2.oneShot c seed)) ∧
    (¬ 24 ∣ c.length → Unsigned64 c → ∀ seed,
      Returns (fun n => jenkins64Hash 0 stack n data seed)
        (Published.lookup8.oneShot c seed)) ∧
    (¬ ∀ data' c' stack keylen seed, data'.Keeps c' → c'.length = c.length →
      Returns (fun n => jenkins32Hash keylen stack n data' seed)
        (Published.lookup2.oneShot c' seed)) ∧
    (¬ ∀ data' c' stack keylen seed, data'.Keeps c' → c'.length = c.length →
      Returns (fun n => jenkins64Hash keylen stack n data' seed)
        (Published.lookup8.oneShot c' seed)) := by
  have hlen := Holder.length_le_of_text hk.sized hk.text
  refine ⟨fun hrest hsign seed => ?_, fun hrest hsign seed => ?_,
    jenkins32_trap.not_right hlen, jenkins64_trap.not_right hlen⟩
  · exact hsign.same.returns rfl rfl (by decide) hk hrest stack seed
  · exact hsign.same.returns rfl rfl (by decide) hk hrest stack seed

/-- Full blocks of either hash, and three bytes behind them. -/
def letters : List UInt8 := (List.range 27).map fun i => UInt8.ofNat (97 + i)

theorem jenkinsHash_letters : (Holder.raw (.mem letters)).Keeps letters ∧
    Returns (fun n => jenkins32Hash 0 (fun _ => 0xCC) n (.raw (.mem letters)) 7)
      (Published.lookup2.oneShot letters 7) ∧
    Returns (fun n => jenkins64Hash 0 (fun _ => 0xCC) n (.raw (.mem letters)) 7)
      (Published.lookup8.oneShot letters 7) := by
  have hk := Holder.keeps_raw (c := letters) (by decide)
  have hlow : ∀ i < letters.length, letters.getD i 0 < 128 := by decide
  obtain ⟨h32, h64, -⟩ := jenkinsHash_correct hk fun _ => 0xCC
  exact ⟨hk, h32 (by decide) (fun i hi => .inl (hlow i hi)) 7,
    h64 (by decide) (fun i hi => .inl (hlow i hi)) 7⟩

/-- A key of one block; a key of one byte, with a 1 on the stack; and a key
with a sign in it. -/
theorem jenkins32Hash_wrong :
    ((Holder.raw (.mem (List.replicate 12 0))).Keeps (List.replicate 12 0) ∧
      ¬ Returns
        (fun n => jenkins32Hash 0 (fun _ => 0) n (.raw (.mem (List.replicate 12 0))) 0)
        (Published.lookup2.oneShot (List.replicate 12 0) 0)) ∧
    ((Holder.raw (.mem [0x61])).Keeps [0x61] ∧
      ¬ Returns (fun n => jenkins32Hash 1 (fun _ => 0) n (.raw (.mem [0x61])) 0)
        (Published.lookup2.oneShot [0x61] 0)) ∧
    ((Holder.raw (.mem [0x61, 0x80])).Keeps [0x61, 0x80] ∧
      ¬ Returns (fun n => jenkins32Hash 0 (fun _ => 0) n (.raw (.mem [0x61, 0x80])) 0)
        (Published.lookup2.oneShot [0x61, 0x80] 0)) := by
  have hblock := Holder.keeps_raw (c := List.replicate 12 0) (by decide)
  have hbyte := Holder.keeps_raw (c := [0x61]) (by decide)
  have hsign := Holder.keeps_raw (c := [0x61, 0x80]) (by decide)
  refine ⟨⟨hblock, fun h => ?_⟩, ⟨hbyte, fun h => ?_⟩, hsign, fun h => ?_⟩
  · have hrun := Jenkins.hash_of_blocks (J := jenkins32) (by decide) hblock 0
        (fun _ => 0) 0 (by decide)
    exact absurd (h.unique hrun) (by decide)
  · have hrun := Jenkins.hash_of_rest (J := jenkins32) (by decide) hbyte 1 (fun _ => 0)
        0 (by decide)
    exact absurd (h.unique hrun) (by decide)
  · have hrun := Jenkins.hash_of_rest (J := jenkins32) (by decide) hsign 0 (fun _ => 0)
        0 (by decide)
    exact absurd (h.unique hrun) (by decide)

end Frozen.Digest
