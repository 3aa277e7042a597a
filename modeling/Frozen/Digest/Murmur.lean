/-
# `Frozen.Digest.Murmur` — `MurmurHash64A` and `MurmurHash2`

The two functions are published for a key in one piece, and here they read it in pieces
of 100 words.  Neither comes to the end of every key.

`MurmurHash64A` takes every full buffer for one that has a successor.  Behind the last
of them there is none, and the read that fails makes the hash 0: so it is for a key
whose length is a multiple of 800, the empty key included (`murmurHash64A_iff`).

`MurmurHash2` takes every read without an odd rest for one that has a successor, and is
0 for every key whose length is a multiple of 4.  And it mixes the word at `data`, where
the key's `data_t` begins, instead of the words of the key; that is right only where
there is no word to mix (`murmurHash2_iff`).
-/
import Frozen.Digest.Walk
import Frozen.Lib.Bits

namespace Frozen.Digest

open Lib Data
open Binary (overlay maxObject blank)

/-! ## Words -/

/-- `*(const uint64_t *)p`, and for other widths. -/
def load (w : Nat) (p : List UInt8) : BitVec w := BitVec.ofNat w (leNat (p.take (w / 8)))

/-- `h ^= p[n - 1] << 8 * (n - 1)`, and so on down to `h ^= p[0]`. -/
def xorTail {w : Nat} (h : BitVec w) (p : List UInt8) (n : Nat) : BitVec w :=
  (List.range n).foldr
  (fun i h => h ^^^ (BitVec.ofNat w (p.getD i 0).toNat <<< (8 * i))) h

def BUFFER_ROUNDS : Nat := 100

theorem getD_leftover (l rest : List UInt8) {i : Nat} (hi : i < l.length) :
    (l ++ rest).getD i 0 = l.getD i 0 := by
  rw [List.getD_eq_getElem?_getD, List.getD_eq_getElem?_getD,
    List.getElem?_append_left hi]

theorem xorTail_append {w : Nat} (h : BitVec w) (l rest : List UInt8) :
    xorTail h (l ++ rest) l.length = xorTail h l l.length := by
  unfold xorTail
  refine List.foldr_ext _ _ _ fun i hi h => ?_
  rw [getD_leftover l rest (List.mem_range.mp hi)]

theorem xorTail_injective {w : Nat} (p : List UInt8) (n : Nat) :
    Function.Injective fun h : BitVec w => xorTail h p n := by
  have hfold : ∀ is : List Nat, Function.Injective fun h : BitVec w =>
      is.foldr (fun i h => h ^^^ (BitVec.ofNat w (p.getD i 0).toNat <<< (8 * i))) h := by
    intro is
    induction is with
    | nil => exact Function.injective_id
    | cons i is ih => exact (xor_injective _).comp ih
  exact hfold _

/-! ## The 64-bit function -/

namespace Murmur64

def m : BitVec 64 := 0xc6a4a7935bd1e995

/-- One word of the key. -/
def round (h k : BitVec 64) : BitVec 64 :=
  let k := k * m
  let k := k ^^^ (k >>> 47)
  let k := k * m
  (h ^^^ k) * m

/-- `switch(len & 7)`. -/
def tail (h : BitVec 64) (p : List UInt8) (n : Nat) : BitVec 64 :=
  if n = 0 then h else xorTail h p n * m

def finish (h : BitVec 64) : BitVec 64 :=
  let h := h ^^^ (h >>> 47)
  let h := h * m
  h ^^^ (h >>> 47)

end Murmur64

/-- `MurmurHash64A` as it is published. -/
def Published.murmurHash64A (key : List UInt8) (seed : BitVec 32) : BitVec 64 :=
  let len := BitVec.ofNat 64 key.length
  let h := seed.setWidth 64 ^^^ len * Murmur64.m
  let h := foldBlocks 8 (fun h data => Murmur64.round h (load 64 data)) h key
  Murmur64.finish (Murmur64.tail h (leftover 8 key) (key.length % 8))

/-- The loop of `MurmurHash64A`: a read that does not fill the buffer is the last one. -/
def walk64A : Walk (BitVec 64) where
  size := 8 * BUFFER_ROUNDS
  width := 8
  mix h p := Murmur64.round h (load 64 p)
  last n := decide (n ≠ 8 * BUFFER_ROUNDS)

/-- `MurmurHash64A`, with what is on the stack before. -/
def murmurHash64A (stack : Nat → UInt8) (n : Nat) (data : Holder) (seed : BitVec 32) :
    Except OutOfFuel (BitVec 64) := do
  let length := BitVec.ofNat 64 data.logicalLen
  let h := seed.setWidth 64 ^^^ length * Murmur64.m
  match ← walk64A.loop data n 0 (blank stack (8 * BUFFER_ROUNDS)) h with
  | .failed _ => .ok 0
  | .left h _ _ p2 => .ok (Murmur64.finish (Murmur64.tail h p2 (length &&& 7).toNat))

theorem walk64A_sound : walk64A.Sound := ⟨by decide, by decide, by decide, by decide⟩

theorem walk64A_leaves {n : Nat} : walk64A.Leaves n ↔ ¬ 800 ∣ n := by
  have hlt := Nat.mod_lt n (show 0 < 800 by decide)
  show n % 800 ≠ 0 ∧ decide (n % 800 ≠ 800) = true ↔ ¬ 800 ∣ n
  rw [decide_eq_true_eq]
  omega

theorem Murmur64.mul_injective : Function.Injective fun x : BitVec 64 => x * Murmur64.m :=
  mul_injective_of_inverse (n := 0x5f7a0ea7e59b19bd) (by decide)

theorem Murmur64.finish_injective : Function.Injective Murmur64.finish :=
  (xor_ushiftRight_injective (by decide)).comp
  (Murmur64.mul_injective.comp (xor_ushiftRight_injective (by decide)))

theorem Murmur64.round_injective (k : BitVec 64) :
    Function.Injective (Murmur64.round · k) :=
  Murmur64.mul_injective.comp (xor_injective _)

theorem Published.murmurHash64A_injective {key : List UInt8} (h : 8 ∣ key.length) :
    Function.Injective (Published.murmurHash64A key) := by
  intro s₁ s₂ heq
  simp only [Published.murmurHash64A, Murmur64.tail, Nat.mod_eq_zero_of_dvd h, if_true]
    at heq
  have hfold := foldBlocks_injective (w := 8)
      (fun b => Murmur64.round_injective (load 64 b)) key
    (Murmur64.finish_injective heq)
  have hseed := xor_injective _ hfold
  have hset := congrArg (BitVec.setWidth 32) hseed
  simpa only [BitVec.setWidth_setWidth_of_le _ (show 32 ≤ 64 by decide),
    BitVec.setWidth_eq] using hset

section

variable {data : Holder} {c : List UInt8} (hk : data.Keeps c) (stack : Nat → UInt8)
  (seed : BitVec 32)

include hk

theorem length_and_seven :
    (BitVec.ofNat 64 data.logicalLen &&& 7).toNat = c.length % 8 := by
  have hlt := hk.length_lt
  have hand : c.length &&& 7 = c.length % 2 ^ 3 :=
    Nat.and_two_pow_sub_one_eq_mod c.length 3
  rw [Holder.logicalLen_of_keeps hk, BitVec.toNat_and, BitVec.toNat_ofNat,
    Nat.mod_eq_of_lt hlt]
  exact hand

/-- Where something is behind the full buffers the hash is the published one. -/
theorem murmurHash64A_of_rest (h : ¬ 800 ∣ c.length) :
    Returns (fun n => murmurHash64A stack n data seed)
      (Published.murmurHash64A c seed) := by
  obtain ⟨rest, hloop⟩ := Walk.loop_left walk64A_sound hk (walk64A_leaves.mpr h)
    (blank stack (8 * BUFFER_ROUNDS))
    (seed.setWidth 64 ^^^ BitVec.ofNat 64 data.logicalLen * Murmur64.m)
  refine hloop.bind (.of_forall fun n => ?_)
  have htail : ∀ h, Murmur64.tail h (leftover 8 c ++ rest) (c.length % 8) =
      Murmur64.tail h (leftover 8 c) (c.length % 8) := by
    intro h
    have hlen := length_leftover (w := 8) c
    rw [Murmur64.tail, Murmur64.tail, ← hlen, xorTail_append]
  simp only [length_and_seven hk]
  rw [Holder.logicalLen_of_keeps hk]
  exact congrArg Except.ok (congrArg Murmur64.finish (htail _))

theorem murmurHash64A_of_full (h : 800 ∣ c.length) :
    Returns (fun n => murmurHash64A stack n data seed) 0 := by
  have hloop := Walk.loop_failed walk64A_sound hk (fun hl => walk64A_leaves.mp hl h)
    (blank stack (8 * BUFFER_ROUNDS))
    (seed.setWidth 64 ^^^ BitVec.ofNat 64 data.logicalLen * Murmur64.m)
  exact hloop.bind (.of_forall fun n => rfl)

end

/-- **When `MurmurHash64A` is the published function**: if the length of the key is no
multiple of the size of the buffer. -/
theorem murmurHash64A_iff {data : Holder} {c : List UInt8} (hk : data.Keeps c)
    (stack : Nat → UInt8) :
    (∀ seed, Returns (fun n => murmurHash64A stack n data seed)
      (Published.murmurHash64A c seed)) ↔ ¬ 800 ∣ c.length := by
  refine ⟨fun h hdvd => ?_, fun h seed => murmurHash64A_of_rest hk stack seed h⟩
  have hzero : ∀ seed, Published.murmurHash64A c seed = 0 := fun seed =>
    (h seed).unique (murmurHash64A_of_full hk stack seed hdvd)
  have hseeds := Published.murmurHash64A_injective (Nat.dvd_trans (by decide) hdvd)
    ((hzero 0).trans (hzero 1).symm)
  exact absurd hseeds (by decide)

/-- One full buffer, with three bytes behind it. -/
def fullAndThree : List UInt8 := List.replicate 803 0x61

theorem murmurHash64A_fullAndThree : (Holder.raw (.mem fullAndThree)).Keeps fullAndThree ∧
    ∀ seed, Returns
      (fun n => murmurHash64A (fun _ => 0xCC) n (.raw (.mem fullAndThree)) seed)
      (Published.murmurHash64A fullAndThree seed) := by
  have hlen : fullAndThree.length = 803 := List.length_replicate
  have hk := Holder.keeps_raw (c := fullAndThree) (by rw [hlen]; decide)
  exact ⟨hk, (murmurHash64A_iff hk fun _ => 0xCC).mpr (by rw [hlen]; decide)⟩

/-- The empty key, with a seed that is not 0. -/
theorem murmurHash64A_empty : (Holder.raw (.mem [])).Keeps [] ∧
    Returns (fun n => murmurHash64A (fun _ => 0xCC) n (.raw (.mem [])) 1) 0 ∧
      Published.murmurHash64A [] 1 ≠ 0 :=
  ⟨Holder.keeps_raw (by decide), .of_succ (.of_forall fun n => rfl), by decide⟩

/-! ## The 32-bit function -/

namespace Murmur32

def m : BitVec 32 := 0x5bd1e995

def round (h k : BitVec 32) : BitVec 32 :=
  let k := k * m
  let k := k ^^^ (k >>> 24)
  let k := k * m
  (h * m) ^^^ k

/-- `switch(len)`. -/
def tail (h : BitVec 32) (p : List UInt8) (n : Nat) : BitVec 32 :=
  if n = 0 then h else xorTail h p n * m

def finish (h : BitVec 32) : BitVec 32 :=
  let h := h ^^^ (h >>> 13)
  let h := h * m
  h ^^^ (h >>> 15)

end Murmur32

/-- `MurmurHash2` as it is published. -/
def Published.murmurHash2 (key : List UInt8) (seed : BitVec 32) : BitVec 32 :=
  let h := seed ^^^ BitVec.ofNat 32 key.length
  let h := foldBlocks 4 (fun h data => Murmur32.round h (load 32 data)) h key
  Murmur32.finish (Murmur32.tail h (leftover 4 key) (key.length % 4))

/-- The numbers that the build gives the types of data. -/
structure TypeNumbers where
  rawT : BitVec 64
  stringT : BitVec 64
  memoryT : BitVec 64
  bufferT : BitVec 64
  sliceT : BitVec 64

/-- `data->type`. -/
def TypeNumbers.typeOf (T : TypeNumbers) : Holder → BitVec 64
  | .raw _ => T.rawT
  | .string _ => T.stringT
  | .memory _ => T.memoryT
  | .buffer _ => T.bufferT
  | .slice _ _ _ => T.sliceT

/-- The loop of `MurmurHash2`: the word of every round is `*(unsigned int
*)data`, the lower half of the type of the key, and a read that leaves an odd
rest is the last one. -/
def walk2 (type : BitVec 64) : Walk (BitVec 32) where
  size := 4 * BUFFER_ROUNDS
  width := 4
  mix h _ := Murmur32.round h (type.setWidth 32)
  last n := decide (n % 4 ≠ 0)

/-- `MurmurHash2`, with what is on the stack before. -/
def murmurHash2 (T : TypeNumbers) (stack : Nat → UInt8) (n : Nat) (data : Holder)
    (seed : BitVec 32) : Except OutOfFuel (BitVec 32) := do
  let h := seed ^^^ BitVec.ofNat 32 data.logicalLen
  match ← (walk2 (T.typeOf data)).loop data n 0 (blank stack (4 * BUFFER_ROUNDS)) h with
  | .failed _ => .ok 0
  | .left h len _ p => .ok (Murmur32.finish (Murmur32.tail h p (len % 4)))

theorem walk2_sound (type : BitVec 64) : (walk2 type).Sound where
  width := show 0 < 4 by decide
  size := show 0 < 400 by decide
  blocks := show 4 ∣ 400 by decide
  full := by simp [walk2, BUFFER_ROUNDS]

theorem walk2_leaves {type : BitVec 64} {n : Nat} : (walk2 type).Leaves n ↔ ¬ 4 ∣ n := by
  show n % 400 ≠ 0 ∧ decide (n % 400 % 4 ≠ 0) = true ↔ ¬ 4 ∣ n
  rw [decide_eq_true_eq]
  omega

theorem Murmur32.mul_injective : Function.Injective fun x : BitVec 32 => x * Murmur32.m :=
  mul_injective_of_inverse (n := 0xe59b19bd) (by decide)

theorem Murmur32.finish_injective : Function.Injective Murmur32.finish :=
  (xor_ushiftRight_injective (by decide)).comp
  (Murmur32.mul_injective.comp (xor_ushiftRight_injective (by decide)))

theorem Murmur32.round_injective (k : BitVec 32) :
    Function.Injective (Murmur32.round · k) :=
  (xor_injective _).comp Murmur32.mul_injective

theorem Murmur32.round_injective_right (h : BitVec 32) :
    Function.Injective (Murmur32.round h) := by
  have hxor : Function.Injective fun k : BitVec 32 => h * Murmur32.m ^^^ k :=
      fun k₁ k₂ heq =>
    xor_injective (h * Murmur32.m) (by simpa only [BitVec.xor_comm] using heq)
  exact hxor.comp (Murmur32.mul_injective.comp
    ((xor_ushiftRight_injective (by decide)).comp Murmur32.mul_injective))

theorem Murmur32.tail_injective (p : List UInt8) (n : Nat) :
    Function.Injective (Murmur32.tail · p n) := by
  unfold Murmur32.tail
  split_ifs
  · exact Function.injective_id
  · exact Murmur32.mul_injective.comp (xorTail_injective p n)

theorem Published.murmurHash2_injective (key : List UInt8) :
    Function.Injective (Published.murmurHash2 key) := by
  intro s₁ s₂ heq
  exact xor_injective _
    (foldBlocks_injective (w := 4) (fun b => Murmur32.round_injective (load 32 b)) key
    (Murmur32.tail_injective _ _ (Murmur32.finish_injective heq)))

theorem Published.murmurHash2_word {a b l : List UInt8} {seed : BitVec 32}
    (ha : a.length = 4) (hb : b.length = 4)
    (h : Published.murmurHash2 (a ++ l) seed = Published.murmurHash2 (b ++ l) seed) :
    load 32 a = load 32 b := by
  simp only [Published.murmurHash2, List.length_append, ha, hb,
    foldBlocks_cons (by decide : 0 < 4) ha,
    foldBlocks_cons (by decide : 0 < 4) hb, leftover_cons (by decide : 0 < 4) ha,
    leftover_cons (by decide : 0 < 4) hb] at h
  have hfold := foldBlocks_injective (w := 4)
      (fun b => Murmur32.round_injective (load 32 b)) l
    (Murmur32.tail_injective _ _ (Murmur32.finish_injective h))
  exact Murmur32.round_injective_right _ hfold

/-- What `MurmurHash2` is for a key with an odd rest: the word at
`data` in every round. -/
def typedHash2 (type : BitVec 64) (key : List UInt8) (seed : BitVec 32) : BitVec 32 :=
  let h := seed ^^^ BitVec.ofNat 32 key.length
  let h := foldBlocks 4 (fun h _ => Murmur32.round h (type.setWidth 32)) h key
  Murmur32.finish (Murmur32.tail h (leftover 4 key) (key.length % 4))

/-- The words of the key do not matter. -/
theorem typedHash2_word {type : BitVec 64} {a b l : List UInt8} {seed : BitVec 32}
    (ha : a.length = 4) (hb : b.length = 4) :
    typedHash2 type (a ++ l) seed = typedHash2 type (b ++ l) seed := by
  simp only [typedHash2, List.length_append, ha, hb,
    foldBlocks_cons (by decide : 0 < 4) ha,
    foldBlocks_cons (by decide : 0 < 4) hb, leftover_cons (by decide : 0 < 4) ha,
    leftover_cons (by decide : 0 < 4) hb]

section

variable {data : Holder} {c : List UInt8} (hk : data.Keeps c) (T : TypeNumbers)
  (stack : Nat → UInt8) (seed : BitVec 32)

include hk

theorem murmurHash2_of_rest (h : ¬ 4 ∣ c.length) :
    Returns (fun n => murmurHash2 T stack n data seed)
      (typedHash2 (T.typeOf data) c seed) := by
  obtain ⟨rest, hloop⟩ := Walk.loop_left (walk2_sound (T.typeOf data)) hk
    (walk2_leaves.mpr h)
    (blank stack (4 * BUFFER_ROUNDS)) (seed ^^^ BitVec.ofNat 32 data.logicalLen)
  refine hloop.bind (.of_forall fun n => ?_)
  have hmod : c.length % (walk2 (T.typeOf data)).size % 4 = c.length % 4 :=
    Nat.mod_mod_of_dvd _ (show 4 ∣ 400 by decide)
  have htail : ∀ h, Murmur32.tail h (leftover 4 c ++ rest) (c.length % 4) =
      Murmur32.tail h (leftover 4 c) (c.length % 4) := by
    intro h
    have hlen := length_leftover (w := 4) c
    rw [Murmur32.tail, Murmur32.tail, ← hlen, xorTail_append]
  simp only [hmod]
  rw [Holder.logicalLen_of_keeps hk]
  exact congrArg Except.ok (congrArg Murmur32.finish (htail _))

theorem murmurHash2_of_words (h : 4 ∣ c.length) :
    Returns (fun n => murmurHash2 T stack n data seed) 0 := by
  have hloop := Walk.loop_failed (walk2_sound (T.typeOf data)) hk
      (fun hl => walk2_leaves.mp hl h)
    (blank stack (4 * BUFFER_ROUNDS)) (seed ^^^ BitVec.ofNat 32 data.logicalLen)
  exact hloop.bind (.of_forall fun n => rfl)

end

/-- **When `MurmurHash2` is the published function** for all keys of a length: if there
are no words in them, and something else is. -/
theorem murmurHash2_iff (T : TypeNumbers) {len : Nat} (hlen : len ≤ maxObject) :
    (∀ data c stack seed, data.Keeps c → c.length = len →
      Returns (fun n => murmurHash2 T stack n data seed) (Published.murmurHash2 c seed)) ↔
      0 < len ∧ len < 4 := by
  constructor
  · intro h
    by_cases hwords : 4 ∣ len
    · -- 0 for every seed
      have hc : (List.replicate len (0 : UInt8)).length = len := List.length_replicate
      have hk := Holder.keeps_raw (hc.symm ▸ hlen)
      have hzero : ∀ seed, Published.murmurHash2 (List.replicate len 0) seed
          = 0 := fun seed =>
        (h _ _ (fun _ => 0) seed hk hc).unique
        (murmurHash2_of_words hk T _ seed (hc.symm ▸ hwords))
      exact absurd (Published.murmurHash2_injective _ ((hzero 0).trans (hzero 1).symm))
        (by decide)
    · refine ⟨Nat.pos_of_ne_zero fun hnil => hwords (hnil ▸ dvd_zero 4),
        Nat.lt_of_not_le fun hfour => ?_⟩
      -- the same hash for two keys with other first words
      have hc : ∀ b : List UInt8, b.length = 4 →
          (b ++ List.replicate (len - 4) 0).length = len := by
        intro b hb
        rw [List.length_append, hb, List.length_replicate]
        omega
      have hword : ∀ b : List UInt8, b.length = 4 →
          Published.murmurHash2 (b ++ List.replicate (len - 4) 0) 0 =
          typedHash2 T.rawT (b ++ List.replicate (len - 4) 0) 0 := by
        intro b hb
        have hk := Holder.keeps_raw (c := b ++ List.replicate (len - 4) 0)
            ((hc b hb).symm ▸ hlen)
        exact (h _ _ (fun _ => 0) 0 hk (hc b hb)).unique
          (murmurHash2_of_rest hk T _ 0 ((hc b hb).symm ▸ hwords))
      have hload := Published.murmurHash2_word (a := [0, 0, 0, 0])
          (b := [1, 0, 0, 0]) rfl rfl
        ((hword _ rfl).trans ((typedHash2_word rfl rfl).trans (hword _ rfl).symm))
      exact absurd hload (by decide)
  · rintro ⟨hpos, hlt⟩ data c stack seed hk rfl
    have hrest : ¬ 4 ∣ c.length :=
      fun hdvd => absurd (Nat.le_of_dvd hpos hdvd) (Nat.not_le_of_lt hlt)
    have hhash := murmurHash2_of_rest hk T stack seed hrest
    simp only [typedHash2, foldBlocks_of_lt hlt] at hhash
    simpa only [Published.murmurHash2, foldBlocks_of_lt hlt] using hhash

/-- The numbers that `config.m4` gives. -/
def typeNumbers : TypeNumbers := ⟨19, 16, 18, 22, 24⟩

theorem murmurHash2_three : 3 ≤ maxObject ∧
    ∀ data c stack seed, data.Keeps c → c.length = 3 →
      Returns (fun n => murmurHash2 typeNumbers stack n data seed)
        (Published.murmurHash2 c seed) :=
  ⟨by decide, (murmurHash2_iff typeNumbers (by decide)).mpr (by decide)⟩

/-- A key of one word, and one of a word and a byte. -/
theorem murmurHash2_words : (Holder.raw (.mem [0, 0, 0, 0])).Keeps [0, 0, 0, 0] ∧
    Returns (fun n => murmurHash2 typeNumbers (fun _ => 0xCC) n
      (.raw (.mem [0, 0, 0, 0])) 0) 0 ∧
    Published.murmurHash2 [0, 0, 0, 0] 0 ≠ 0 ∧
      (Holder.raw (.mem [0, 0, 0, 0, 0])).Keeps [0, 0, 0, 0, 0] ∧
    ¬ Returns (fun n => murmurHash2 typeNumbers (fun _ => 0xCC) n
      (.raw (.mem [0, 0, 0, 0, 0])) 0) (Published.murmurHash2 [0, 0, 0, 0, 0] 0) := by
  have hk := Holder.keeps_raw (c := [0, 0, 0, 0]) (by decide)
  have hk' := Holder.keeps_raw (c := [0, 0, 0, 0, 0]) (by decide)
  refine ⟨hk, murmurHash2_of_words hk _ _ 0 (by decide), by decide, hk', fun h => ?_⟩
  exact absurd (h.unique (murmurHash2_of_rest hk' _ _ 0 (by decide))) (by decide)

end Frozen.Digest
