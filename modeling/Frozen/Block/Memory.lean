/-
# `Frozen.Block.Memory` — `memory_t`

A block from `realloc` with two sizes: `exact_size`, the bytes in use, and
`ptr_size`, what the block has.  The second is the first rounded up by the growth
policy, and as long as the rounding gives the same, `memory_resize` does not call
`realloc` at all.  What lies between the two sizes is whatever was left there; only
`memory_grow` clears it.

    memory_refines   over any run from `memory_new` this is an array of bytes that grows by
                     zeros, keeps what it has, and is read and written inside its length

`realloc` is a parameter, and a different one in every call: it may put anything behind
the bytes that it keeps.
-/
import Frozen.Core.Base
import Frozen.Lib.Bytes
import Frozen.Lib.Fuel

namespace Frozen.Block

open Lib

/-! ## The structure -/

/-- `memory_t_type`; `other` is any number that is none of them, as -1 from
`memory_string_to_type`. -/
inductive MemoryType where
  | freed | exact | page | double | other
deriving DecidableEq

/-- `memory_t_alloc`. -/
inductive Alloc where
  | freed | malloc | other
deriving DecidableEq

/-- `memory_t`; the pointer is the block it points to. -/
structure Memory where
  ptr : Option (List UInt8)
  ptrSize : Nat
  exactSize : Nat
  pageSize : Nat
  zero : Bool
  type : MemoryType
  alloc : Alloc

/-- One `realloc`: `none` is NULL, otherwise a block of the size asked for that begins
as the old one. -/
structure Realloc where
  call : Option (List UInt8) → Nat → Option (List UInt8)
  length : ∀ {ptr size block}, call ptr size = some block → block.length = size
  keeps : ∀ {ptr size block}, call ptr size = some block →
    ∀ k ≤ size, k ≤ (ptr.getD []).length → block.take k = (ptr.getD []).take k

/-- It gives every block that has a byte. -/
def Realloc.Succeeds (realloc : Realloc) : Prop :=
  ∀ ptr size, size ≠ 0 → (realloc.call ptr size).isSome

/-- Why a call does not come back. -/
inductive Stop where
  | outOfFuel
  | dividedByZero
deriving DecidableEq

/-- All fields zero. -/
def zeroed : Memory where
  ptr := none
  ptrSize := 0
  exactSize := 0
  pageSize := 0
  zero := false
  type := .freed
  alloc := .freed

/-- `memory_new`; `exact_size` stays as it is. -/
def memoryNew (m : Memory) (type : MemoryType) (alloc : Alloc) (pageSize : Nat)
    (zero : Bool) : Memory :=
  { m with
    ptr := none, ptrSize := 0, type := type, alloc := alloc, pageSize := pageSize
    zero := zero }

/-- `memory_free`. -/
def memoryFree (_ : Memory) : Memory := zeroed

/-- `memory_size`. -/
def memorySize (m : Memory) : Nat := m.exactSize

/-! ## Sizes -/

/-- `for(t = 1; t < new_size; t <<= 1)`, from `t` on. -/
def doubleLoop (newSize : Nat) : Nat → Nat → Except Stop Nat
  | 0, _ => .error .outOfFuel
  | n + 1, t => if t < newSize then doubleLoop newSize n (t * 2 % 2 ^ 64) else .ok t

/-- The size of a block for `new_size` bytes; a type without a policy
keeps the one it has. -/
def Memory.blockSize (n : Nat) (m : Memory) (newSize : Nat) : Except Stop Nat :=
  match m.type with
  | .exact => .ok newSize
  | .page =>
      if m.pageSize = 0 then .error .dividedByZero
      else .ok ((newSize / m.pageSize + 1) * m.pageSize % 2 ^ 64)
  | .double => doubleLoop newSize n 1
  | .freed | .other => .ok m.ptrSize

/-- The second half of `memory_resize`. -/
def reallocate (realloc : Realloc) (m : Memory) : Int × Memory :=
  match m.alloc with
  | .malloc =>
      match realloc.call m.ptr m.ptrSize with
      | some block => (0, { m with ptr := some block })
      | none => (-EFAULT, memoryFree m)
  | _ => (-EFAULT, memoryFree m)

/-- `memory_resize`, once the size of the block is known. -/
def settle (realloc : Realloc) (m : Memory) (newSize t : Nat) : Int × Memory :=
  match m.type with
  | .page | .double =>
      if t = m.ptrSize then (0, { m with exactSize := newSize })
      else reallocate realloc { m with exactSize := newSize, ptrSize := t }
  | .exact | .other => reallocate realloc { m with exactSize := newSize, ptrSize := t }
  | .freed => (-EFAULT, { m with exactSize := newSize })

/-- `memory_resize`. -/
def memoryResize (realloc : Realloc) (n : Nat) (m : Memory) (newSize : Nat) :
    Except Stop (Int × Memory) := do
  let t ← m.blockSize n newSize
  .ok (settle realloc m newSize t)

/-- The types that keep a block of the right size. -/
def MemoryType.Keeps (type : MemoryType) : Prop := type = .page ∨ type = .double

theorem settle_kept {realloc : Realloc} {m : Memory} (h : m.type.Keeps) (newSize : Nat) :
    settle realloc m newSize m.ptrSize = (0, { m with exactSize := newSize }) := by
  unfold settle
  rcases h with h | h <;> rw [h] <;> exact if_pos rfl

theorem settle_called {realloc : Realloc} {m : Memory} {t : Nat}
    (hfreed : m.type ≠ .freed) (h : ¬ (m.type.Keeps ∧ t = m.ptrSize)) (newSize : Nat) :
    settle realloc m newSize t = reallocate realloc
      { m with exactSize := newSize, ptrSize := t } := by
  unfold settle
  cases htype : m.type with
  | freed => exact absurd htype hfreed
  | exact => rfl
  | page => exact if_neg fun ht => h ⟨.inl htype, ht⟩
  | double => exact if_neg fun ht => h ⟨.inr htype, ht⟩
  | other => rfl

/-- `memset(ptr + offset, 0, size)`. -/
def clear (m : Memory) (offset size : Nat) : Memory :=
  { m with ptr := m.ptr.map fun block => patch block (offset, List.replicate size 0) }

/-- `memory_grow`: the answer, `*pointer` if it is set, and the memory. -/
def memoryGrow (realloc : Realloc) (n : Nat) (m : Memory) (size : Nat) :
    Except Stop (Int × Option Nat × Memory) :=
  if 2 ^ 64 - 1 - size ≤ m.exactSize then .ok (-EINVAL, none, m)
  else do
    let (ret, m') ← memoryResize realloc n m (m.exactSize + size)
    .ok (ret, some m.exactSize, if ret = 0 ∧ m'.zero then clear m' m.exactSize size
      else m')

/-- `memory_shrink`. -/
def memoryShrink (realloc : Realloc) (n : Nat) (m : Memory) (size : Nat) :
    Except Stop (Int × Memory) :=
  if m.exactSize < size then .ok (-EINVAL, m)
  else memoryResize realloc n m (m.exactSize - size)

/-! ## Reading and writing -/

/-- `memory_translate`: how many bytes there are from `pointer` on, up to `size`.  The
offset is compared as a `uintmax_t`. -/
def memoryTranslate (m : Memory) (pointer size : Nat) : Except Int Nat :=
  match m.alloc with
  | .malloc =>
      if m.exactSize < pointer then .error (-EINVAL)
      else if min size (m.exactSize - pointer) = 0 then .error (-1)
      else .ok (min size (m.exactSize - pointer))
  | _ => .error (-EFAULT)

/-- `memory_read`: the answer, and the bytes copied. -/
def memoryRead (m : Memory) (offset bufferSize : Nat) : Nat × List UInt8 :=
  match memoryTranslate m offset bufferSize with
  | .error _ => (0, [])
  | .ok size => (size, ((m.ptr.getD []).drop offset).take size)

/-- `memory_write` of a buffer. -/
def memoryWrite (m : Memory) (offset : Nat) (buffer : List UInt8) : Nat × Memory :=
  match memoryTranslate m offset buffer.length with
  | .error _ => (0, m)
  | .ok size => (size,
      { m with ptr := m.ptr.map fun block => patch block (offset, buffer.take size) })

/-! ## An array of bytes -/

/-- What may be asked of a `memory_t`. -/
inductive Op where
  | size
  | grow (size : Nat)
  | shrink (size : Nat)
  | resize (newSize : Nat)
  | read (offset bufferSize : Nat)
  | write (offset : Nat) (buffer : List UInt8)

/-- What is answered: a code and the pointer, or a number and the bytes read. -/
inductive Answer where
  | code (ret : Int) (pointer : Option Nat)
  | count (n : Nat) (bytes : List UInt8)

/-- The bytes of an array with others put over those from an offset on,
inside its length. -/
def overwrite (a : List UInt8) (offset : Nat) (buffer : List UInt8) : List UInt8 :=
  a.mapIdx fun i b => if offset ≤ i then (buffer[i - offset]?).getD b else b

/-- The array: growing appends zeros and gives the old length; shrinking by more than
there is fails; an array of another size keeps what there is room for. -/
inductive Grows.Step : List UInt8 → Op → Answer → List UInt8 → Prop
  | size (a) : Step a .size (.count a.length []) a
  | grow (a size) : Step a (.grow size) (.code 0 (some a.length))
      (a ++ List.replicate size 0)
  | shrinkFails (a size) : a.length < size →
      Step a (.shrink size) (.code (-EINVAL) none) a
  | shrink (a size) : size ≤ a.length →
      Step a (.shrink size) (.code 0 none) (a.take (a.length - size))
  | resize (a b newSize) : b.length = newSize →
      b.take (min newSize a.length) = a.take (min newSize a.length) →
      Step a (.resize newSize) (.code 0 none) b
  | read (a offset bufferSize) : Step a (.read offset bufferSize)
      (.count ((a.drop offset).take bufferSize).length
        ((a.drop offset).take bufferSize)) a
  | write (a offset buffer) : Step a (.write offset buffer)
      (.count (min buffer.length (a.length - offset)) []) (overwrite a offset buffer)

/-- Steps of the array, one after the other. -/
inductive Grows.Run : List UInt8 → List Op → List Answer → List UInt8 → Prop
  | nil (a) : Run a [] [] a
  | cons {a b c op ops answer answers} : Step a op answer b → Run b ops answers c →
      Run a (op :: ops) (answer :: answers) c

/-- The length after a step. -/
def nextLength (length : Nat) : Op → Nat
  | .grow size => length + size
  | .shrink size => if length < size then length else length - size
  | .resize newSize => newSize
  | _ => length

/-- Sizes stay below 2^63, and a memory of the exact type is not resized to nothing. -/
def Admits (type : MemoryType) (length : Nat) (op : Op) : Prop :=
  match op with
  | .grow _ | .resize _ =>
      nextLength length op < 2 ^ 63 ∧ (type = .exact → nextLength length op ≠ 0)
  | .shrink size => size ≤ length → type = .exact → length - size ≠ 0
  | _ => True

def AllAdmitted (type : MemoryType) : Nat → List Op → Prop
  | _, [] => True
  | length, op :: ops =>
      Admits type length op ∧ AllAdmitted type (nextLength length op) ops

/-! ## The memory as one -/

/-- One call on a memory, with the `realloc` it finds. -/
def step (n : Nat) (m : Memory) (op : Op) (realloc : Realloc) :
    Except Stop (Answer × Memory) :=
  match op with
  | .size => .ok (.count (memorySize m) [], m)
  | .grow size => do
      let (ret, pointer, m) ← memoryGrow realloc n m size
      .ok (.code ret pointer, m)
  | .shrink size => do
      let (ret, m) ← memoryShrink realloc n m size
      .ok (.code ret none, m)
  | .resize newSize => do
      let (ret, m) ← memoryResize realloc n m newSize
      .ok (.code ret none, m)
  | .read offset bufferSize =>
      let r := memoryRead m offset bufferSize
      .ok (.count r.1 r.2, m)
  | .write offset buffer =>
      let r := memoryWrite m offset buffer
      .ok (.count r.1 [], r.2)

/-- Calls one after the other. -/
def run (n : Nat) : Memory → List (Op × Realloc) → Except Stop (List Answer × Memory)
  | m, [] => .ok ([], m)
  | m, (op, realloc) :: ops => do
      let (answer, m) ← step n m op realloc
      let (answers, m) ← run n m ops
      .ok (answer :: answers, m)

/-- The policies: a page has at least a byte. -/
def Policy (type : MemoryType) (pageSize : Nat) : Prop :=
  type = .exact ∨ type = .double ∨ (type = .page ∧ 0 < pageSize ∧ pageSize < 2 ^ 64)

/-- The memory holds this array. -/
structure Holds (type : MemoryType) (pageSize : Nat) (m : Memory) (a : List UInt8) :
    Prop where
  typeEq : m.type = type
  pageEq : m.pageSize = pageSize
  alloc : m.alloc = .malloc
  zero : m.zero = true
  block : (m.ptr.getD []).length = m.ptrSize
  room : m.exactSize ≤ m.ptrSize
  bytes : a = (m.ptr.getD []).take m.exactSize

section Steps

variable {type : MemoryType} {pageSize : Nat} {m : Memory} {a : List UInt8}
  {realloc : Realloc}

theorem Holds.length (h : Holds type pageSize m a) : a.length = m.exactSize := by
  rw [h.bytes, List.length_take, h.block]
  exact Nat.min_eq_left h.room

/-- Doubling ends: a power of two is above every size below 2^63. -/
theorem doubleLoop_returns {newSize : Nat} (hsize : newSize ≤ 2 ^ 63) (d : Nat) :
    ∀ k, k + d = 63 → ∃ t, newSize ≤ t ∧ 0 < t ∧
      Returns (fun n => doubleLoop newSize n (2 ^ k)) t := by
  induction d with
  | zero =>
      intro k hk
      obtain rfl : k = 63 := by omega
      refine ⟨2 ^ 63, hsize, by decide, .of_succ (.of_forall fun n => ?_)⟩
      rw [doubleLoop, if_neg (by omega)]
  | succ d ih =>
      intro k hk
      by_cases hlt : 2 ^ k < newSize
      · obtain ⟨t, hle, hpos, hrun⟩ := ih (k + 1) (by omega)
        refine ⟨t, hle, hpos, .of_succ ?_⟩
        have hpow : 2 ^ (k + 1) < 2 ^ 64 := Nat.pow_lt_pow_right (by decide) (by omega)
        have hnext : 2 ^ k * 2 % 2 ^ 64 = 2 ^ (k + 1) := by
          rw [← pow_succ, Nat.mod_eq_of_lt hpow]
        simp only [doubleLoop, if_pos hlt, hnext]
        exact hrun
      · refine ⟨2 ^ k, by omega, by positivity, .of_succ (.of_forall fun n => ?_)⟩
        rw [doubleLoop, if_neg hlt]

/-- A page more than there are full ones has room, and the product does not wrap. -/
theorem pages_room {newSize page : Nat} (hpos : 0 < page) (hpage : page < 2 ^ 64)
    (hsize : newSize < 2 ^ 63) : newSize < (newSize / page + 1) * page % 2 ^ 64 := by
  have hdiv := Nat.div_add_mod newSize page
  have hmod := Nat.mod_lt newSize hpos
  have hmul : (newSize / page + 1) * page = page * (newSize / page) + page := by ring
  by_cases hbig : newSize < page
  · rw [Nat.div_eq_of_lt hbig, Nat.zero_add, Nat.one_mul, Nat.mod_eq_of_lt hpage]
    exact hbig
  · rw [hmul, Nat.mod_eq_of_lt (by omega)]
    omega

theorem Holds.blockSize (h : Holds type pageSize m a) (hpolicy : Policy type pageSize)
    {newSize : Nat} (hsize : newSize < 2 ^ 63) (hexact : type = .exact → newSize ≠ 0) :
    ∃ t, newSize ≤ t ∧ t ≠ 0 ∧ Returns (fun n => m.blockSize n newSize) t := by
  have htype := h.typeEq
  have hpage := h.pageEq
  rcases hpolicy with rfl | rfl | ⟨rfl, hpos, hlt⟩
  · exact ⟨newSize, le_rfl, hexact rfl,
      .of_forall fun n => by rw [Memory.blockSize, htype]⟩
  · obtain ⟨t, hle, hpos, hrun⟩ := doubleLoop_returns hsize.le 63 0 rfl
    refine ⟨t, hle, hpos.ne', ?_⟩
    simp only [Memory.blockSize, htype]
    exact hrun
  · have hroom := pages_room hpos hlt hsize
    rw [← hpage] at hroom hpos
    refine ⟨_, hroom.le, Nat.ne_zero_of_lt hroom, .of_forall fun n => ?_⟩
    simp only [Memory.blockSize, htype, if_neg hpos.ne']

/-- A block that is large enough, kept or given by `realloc`, begins with the array. -/
theorem Holds.settle (h : Holds type pageSize m a) (hfreed : type ≠ .freed)
    {newSize t : Nat} (hle : newSize ≤ t)
    (hcall : ¬ (m.type.Keeps ∧ t = m.ptrSize) → (realloc.call m.ptr t).isSome) :
    ∃ m' b, settle realloc m newSize t = (0, m') ∧ m'.ptrSize = t ∧
      Holds type pageSize m' b ∧
      b.length = newSize ∧
      b.take (min newSize a.length) = a.take (min newSize a.length) := by
  have hroom := h.room
  have hmin : min newSize a.length ≤ newSize := min_le_left _ _
  by_cases hskip : m.type.Keeps ∧ t = m.ptrSize
  · -- the block is the one there is; nothing is called
    obtain ⟨hkeeps, rfl⟩ := hskip
    refine ⟨{ m with exactSize := newSize }, (m.ptr.getD []).take newSize,
      settle_kept hkeeps newSize, rfl, ?_, ?_, ?_⟩
    · exact ⟨h.typeEq, h.pageEq, h.alloc, h.zero, h.block, hle, rfl⟩
    · rw [List.length_take, h.block]
      exact Nat.min_eq_left hle
    · rw [h.length, h.bytes, List.take_take, List.take_take]
      congr 1
      omega
  · obtain ⟨block, hblock⟩ := Option.isSome_iff_exists.mp (hcall hskip)
    have hlen := realloc.length hblock
    rw [settle_called (h.typeEq ▸ hfreed) hskip]
    refine ⟨{ m with exactSize := newSize, ptrSize := t, ptr := some block },
      block.take newSize, ?_, rfl, ?_, ?_, ?_⟩
    · simp only [reallocate, h.alloc, hblock]
    · exact ⟨h.typeEq, h.pageEq, h.alloc, h.zero, hlen, hle, rfl⟩
    · rw [List.length_take, hlen]
      exact Nat.min_eq_left hle
    · have hkeep := realloc.keeps hblock (min newSize a.length) (by omega)
          (by rw [h.block, h.length]; omega)
      rw [List.take_take, Nat.min_eq_left hmin, hkeep, h.length]
      conv_rhs => rw [h.bytes, List.take_take]
      congr 1
      omega

theorem Policy.ne_freed (h : Policy type pageSize) : type ≠ .freed := by
  rcases h with rfl | rfl | ⟨rfl, -⟩ <;> decide

theorem Holds.resize (h : Holds type pageSize m a) (hpolicy : Policy type pageSize)
    (hsucc : realloc.Succeeds) {newSize : Nat} (hsize : newSize < 2 ^ 63)
    (hexact : type = .exact → newSize ≠ 0) :
    ∃ m' b, Returns (fun n => memoryResize realloc n m newSize) (0, m') ∧
      Holds type pageSize m' b ∧
      b.length = newSize ∧
      b.take (min newSize a.length) = a.take (min newSize a.length) := by
  obtain ⟨t, hle, ht, hblock⟩ := h.blockSize hpolicy hsize hexact
  obtain ⟨m', b, hsettle, -, hb⟩ :=
    h.settle hpolicy.ne_freed hle fun _ => hsucc m.ptr t ht
  exact ⟨m', b, hblock.bind (.of_forall fun n => congrArg Except.ok hsettle), hb⟩

theorem take_patch {block d : List UInt8} {size offset : Nat} {buffer : List UInt8}
    (hsize : size ≤ block.length) (hd : d = buffer.take (size - offset))
    (hoff : offset ≤ size) :
    (patch block (offset, d)).take size = overwrite (block.take size) offset buffer := by
  have hlen : d.length ≤ size - offset := by
    rw [hd, List.length_take]
    exact min_le_left _ _
  have hin : offset + d.length ≤ block.length := by omega
  apply List.ext_getElem?
  intro i
  by_cases hi : i < size
  · have hget := getElem?_writeAt (@writeAt_eq_patch block (offset, d) hin) i
    simp only at hget
    rw [List.getElem?_take_of_lt hi, hget, overwrite, List.getElem?_mapIdx,
      List.getElem?_take_of_lt hi]
    have hblock : block[i]? = some block[i] := List.getElem?_eq_getElem (by omega)
    rw [hblock, Option.map_some]
    by_cases ho : offset ≤ i
    · have hdi : d[i - offset]? = buffer[i - offset]? := by
        rw [hd, List.getElem?_take_of_lt (by omega)]
      rw [if_pos ho]
      by_cases hend : i < offset + d.length
      · rw [if_pos ⟨ho, hend⟩, ← hdi, List.getElem?_eq_getElem (by omega),
          Option.getD_some]
      · rw [if_neg (fun h => hend h.2), ← hdi, List.getElem?_eq_none (by omega),
          Option.getD_none]
    · rw [if_neg fun h => ho h.1, if_neg ho]
  · rw [List.getElem?_eq_none, List.getElem?_eq_none]
    · rw [overwrite, List.length_mapIdx, List.length_take]
      omega
    · rw [List.length_take]
      omega

theorem Holds.patched (h : Holds type pageSize m a) {offset : Nat} {d buffer : List UInt8}
    (hd : d = buffer.take (a.length - offset)) (hoff : offset ≤ a.length) :
    Holds type pageSize { m with ptr := m.ptr.map fun block => patch block (offset, d) }
      (overwrite a offset buffer) := by
  have hlen := h.length
  have hroom := h.room
  have hblock := h.block
  have hbytes := h.bytes
  cases hptr : m.ptr with
  | none =>
      rw [hptr] at hblock hbytes
      simp only [Option.getD_none, List.length_nil, List.take_nil] at hblock hbytes
      subst hbytes
      exact ⟨h.typeEq, h.pageEq, h.alloc, h.zero, hblock, hroom, (List.take_nil).symm⟩
  | some block =>
      rw [hptr] at hblock hbytes
      simp only [Option.getD_some] at hblock hbytes
      have hdlen : offset + d.length ≤ block.length := by
        rw [hd, List.length_take]
        omega
      refine ⟨h.typeEq, h.pageEq, h.alloc, h.zero, ?_, hroom, ?_⟩
      · exact (length_patch hdlen).trans hblock
      · rw [hlen] at hd hoff
        simp only [Option.map_some, Option.getD_some]
        rw [take_patch (hroom.trans hblock.ge) hd hoff, ← hbytes]

theorem overwrite_end {b a : List UInt8} {size : Nat} (hlen : b.length = a.length + size)
    (hkeep : b.take a.length = a) :
    overwrite b a.length (List.replicate size 0) = a ++ List.replicate size 0 := by
  apply List.ext_getElem (by simp [overwrite, hlen])
  intro i hi hi'
  simp only [overwrite, List.getElem_mapIdx, List.getElem_append, List.getElem?_replicate]
  simp only [overwrite, List.length_mapIdx, hlen] at hi
  have hlong : i < b.length := hlen ▸ hi
  by_cases ha : i < a.length
  · have hbyte : b[i] = a[i] := by
      have hget := congrArg (fun l : List UInt8 => l[i]?) hkeep
      simpa only [List.getElem?_take_of_lt ha, List.getElem?_eq_getElem ha,
        List.getElem?_eq_getElem hlong, Option.some.injEq] using hget
    simp only [dif_pos ha, if_neg (Nat.not_le.mpr ha), hbyte]
  · rw [dif_neg ha, if_pos (Nat.not_lt.mp ha), if_pos (by omega), Option.getD_some,
      List.getElem_replicate]

/-- Growing into a block that is large enough appends zeros. -/
theorem Holds.grow_settled (h : Holds type pageSize m a) (hfreed : type ≠ .freed)
    {size t : Nat} (hpass : a.length + size < 2 ^ 64 - 1) (hle : a.length + size ≤ t)
    (hcall : ¬ (m.type.Keeps ∧ t = m.ptrSize) → (realloc.call m.ptr t).isSome) :
    ∃ m', Holds type pageSize m' (a ++ List.replicate size 0) ∧ m'.ptrSize = t ∧
      ∀ n, m.blockSize n (a.length + size) = .ok t →
      memoryGrow realloc n m size = .ok (0, some a.length, m') := by
  obtain ⟨m', b, hsettle, ht, hb, hlen, hkeep⟩ := h.settle hfreed hle hcall
  rw [Nat.min_eq_right (Nat.le_add_right _ _), List.take_length] at hkeep
  refine ⟨clear m' a.length size, ?_, ht, fun n hn => ?_⟩
  · have hzeros : List.replicate size (0 : UInt8) = (List.replicate size 0).take
        (b.length - a.length) := by
      rw [hlen, List.take_of_length_le]
      simp
    have hcleared := hb.patched hzeros (by omega)
    rwa [overwrite_end hlen hkeep] at hcleared
  · rw [h.length] at hn hpass hsettle ⊢
    have hresize : memoryResize realloc n m (m.exactSize + size) = .ok (0, m') := by
      rw [memoryResize, hn]
      exact congrArg Except.ok hsettle
    have hclear : (if (0 : Int) = 0 ∧ m'.zero = true then clear m' m.exactSize size
        else m') = clear m' m.exactSize size := if_pos ⟨rfl, hb.zero⟩
    rw [memoryGrow, if_neg (by omega), hresize]
    exact congrArg (fun m' => Except.ok (0, some m.exactSize, m')) hclear

theorem Holds.grow (h : Holds type pageSize m a) (hpolicy : Policy type pageSize)
    (hsucc : realloc.Succeeds) {size : Nat} (hsize : a.length + size < 2 ^ 63)
    (hexact : type = .exact → a.length + size ≠ 0) :
    ∃ m', Returns (fun n => memoryGrow realloc n m size) (0, some a.length, m') ∧
      Holds type pageSize m' (a ++ List.replicate size 0) := by
  obtain ⟨t, hle, ht, N, hblock⟩ := h.blockSize hpolicy hsize hexact
  obtain ⟨m', hm', -, hgrow⟩ :=
    h.grow_settled hpolicy.ne_freed (lt_trans hsize (by decide)) hle fun _ =>
      hsucc m.ptr t ht
  exact ⟨m', ⟨N, fun n hn => hgrow n (hblock n hn)⟩, hm'⟩

theorem Holds.shrink (h : Holds type pageSize m a) (hpolicy : Policy type pageSize)
    (hsucc : realloc.Succeeds) {size : Nat} (hsize : a.length < 2 ^ 63)
    (hle : size ≤ a.length) (hexact : type = .exact → a.length - size ≠ 0) :
    ∃ m', Returns (fun n => memoryShrink realloc n m size) (0, m') ∧
      Holds type pageSize m' (a.take (a.length - size)) := by
  obtain ⟨m', b, hrun, hb, hlen, hkeep⟩ := h.resize hpolicy hsucc
    (lt_of_le_of_lt (Nat.sub_le _ size) hsize) hexact
  have hsub : a.length - size ≤ a.length := Nat.sub_le _ _
  rw [Nat.min_eq_left hsub, List.take_of_length_le hlen.le] at hkeep
  refine ⟨m', ?_, hkeep ▸ hb⟩
  rw [h.length] at hrun hle
  simpa only [memoryShrink, if_neg (Nat.not_lt.mpr hle)] using hrun

theorem Holds.translate (h : Holds type pageSize m a) (offset size : Nat) :
    (∃ ret, memoryTranslate m offset size = .error ret ∧
      min size (a.length - offset) = 0) ∨
      (memoryTranslate m offset size = .ok (min size (a.length - offset)) ∧
        offset ≤ a.length) := by
  rw [h.length, memoryTranslate, h.alloc]
  by_cases hlt : m.exactSize < offset
  · exact .inl ⟨-EINVAL, if_pos hlt, by omega⟩
  · by_cases h0 : min size (m.exactSize - offset) = 0
    · refine .inl ⟨-1, ?_, h0⟩
      simp only [if_neg hlt, if_pos h0]
    · refine .inr ⟨?_, Nat.not_lt.mp hlt⟩
      simp only [if_neg hlt, if_neg h0]

theorem Holds.read (h : Holds type pageSize m a) (offset bufferSize : Nat) :
    memoryRead m offset bufferSize
      = (((a.drop offset).take bufferSize).length, (a.drop offset).take bufferSize) := by
  have hlen : ((a.drop offset).take bufferSize).length
      = min bufferSize (a.length - offset) := by
    rw [List.length_take, List.length_drop]
  rcases h.translate offset bufferSize with ⟨ret, hret, h0⟩ | ⟨hok, -⟩
  · rw [memoryRead, hret, List.eq_nil_of_length_eq_zero (hlen.trans h0)]
    rfl
  · have hbytes : (a.drop offset).take bufferSize
        = ((m.ptr.getD []).drop offset).take (min bufferSize (a.length - offset)) := by
      conv_lhs => rw [h.bytes]
      rw [List.drop_take, List.take_take, h.length]
    rw [hlen, hbytes]
    simp only [memoryRead, hok]

theorem Holds.write (h : Holds type pageSize m a) (offset : Nat) (buffer : List UInt8) :
    ∃ m', memoryWrite m offset buffer = (min buffer.length (a.length - offset), m') ∧
      Holds type pageSize m' (overwrite a offset buffer) := by
  rcases h.translate offset buffer.length with ⟨ret, hret, h0⟩ | ⟨hok, hoff⟩
  · refine ⟨m, ?_, ?_⟩
    · rw [memoryWrite, hret, h0]
    · have hsame : overwrite a offset buffer = a := by
        apply List.ext_getElem (by simp [overwrite])
        intro i hi hi'
        simp only [overwrite, List.getElem_mapIdx]
        split
        · rw [List.getElem?_eq_none (by omega), Option.getD_none]
        · rfl
      rwa [hsame]
  · refine ⟨_, by rw [memoryWrite, hok], h.patched ?_ hoff⟩
    rw [Nat.min_comm, ← List.take_take, List.take_length]

/-- **One call** is a step of the array. -/
theorem Holds.step (h : Holds type pageSize m a) (hpolicy : Policy type pageSize)
    (hsucc : realloc.Succeeds) (hlen : a.length < 2 ^ 63) {op : Op}
    (hop : Admits type a.length op) :
    ∃ answer m' b, Returns (fun n => step n m op realloc) (answer, m') ∧
      Grows.Step a op answer b ∧
      Holds type pageSize m' b ∧ b.length = nextLength a.length op ∧
      b.length < 2 ^ 63 := by
  cases op with
  | size =>
      have hsize : memorySize m = a.length := h.length.symm
      exact ⟨_, m, a, .of_forall fun n => by rw [Block.step, hsize], .size a,
        h, rfl, hlen⟩
  | grow size =>
      obtain ⟨m', hrun, hm'⟩ := h.grow hpolicy hsucc hop.1 hop.2
      have hb : (a ++ List.replicate size 0).length = a.length + size := by simp
      exact ⟨_, m', _, hrun.bind (.of_forall fun n => rfl), .grow a size, hm',
        hb, hb ▸ hop.1⟩
  | shrink size =>
      by_cases hlt : a.length < size
      · have hfail : m.exactSize < size := by rwa [← h.length]
        refine ⟨_, m, a, .of_forall fun n => ?_, .shrinkFails a size hlt, h,
          (if_pos hlt).symm, hlen⟩
        rw [Block.step, memoryShrink, if_pos hfail]
        rfl
      · have hle := Nat.not_lt.mp hlt
        obtain ⟨m', hrun, hm'⟩ := h.shrink hpolicy hsucc hlen hle (hop hle)
        have hb : (a.take (a.length - size)).length = a.length - size := by
          rw [List.length_take]
          omega
        refine ⟨_, m', _, hrun.bind (.of_forall fun n => rfl), .shrink a size hle, hm',
          ?_, by omega⟩
        rw [hb, nextLength, if_neg hlt]
  | resize newSize =>
      obtain ⟨m', b, hrun, hm', hb, hkeep⟩ := h.resize hpolicy hsucc hop.1 hop.2
      exact ⟨_, m', b, hrun.bind (.of_forall fun n => rfl),
        .resize a b newSize hb hkeep, hm', hb, hb ▸ hop.1⟩
  | read offset bufferSize =>
      refine ⟨_, m, a, .of_forall fun n => ?_, .read a offset bufferSize, h, rfl, hlen⟩
      rw [Block.step, h.read]
  | write offset buffer =>
      obtain ⟨m', hrun, hm'⟩ := h.write offset buffer
      have hb : (overwrite a offset buffer).length = a.length := by simp [overwrite]
      refine ⟨_, m', _, .of_forall fun n => ?_, .write a offset buffer, hm',
        hb, hb ▸ hlen⟩
      rw [Block.step, hrun]

theorem Holds.run (hpolicy : Policy type pageSize) {ops : List (Op × Realloc)} :
    ∀ {m : Memory} {a : List UInt8}, Holds type pageSize m a → a.length < 2 ^ 63 →
      AllAdmitted type a.length (ops.map Prod.fst) → (∀ p ∈ ops, p.2.Succeeds) →
      ∃ answers m' b, Returns (fun n => run n m ops) (answers, m') ∧
        Grows.Run a (ops.map Prod.fst) answers b ∧ Holds type pageSize m' b := by
  induction ops with
  | nil =>
      intro m a h _ _ _
      exact ⟨[], m, a, .of_forall fun n => rfl, .nil a, h⟩
  | cons p ops ih =>
      intro m a h hlen hops hsucc
      obtain ⟨hp, hrest⟩ := List.forall_mem_cons.mp hsucc
      obtain ⟨answer, m₁, b, hstep, hb, hm₁, hnext, hlen₁⟩ :=
        h.step hpolicy hp hlen hops.1
      have hops' : AllAdmitted type b.length (ops.map Prod.fst) := by
        rw [hnext]
        exact hops.2
      obtain ⟨answers, m₂, c, hrun, hc, hm₂⟩ := ih hm₁ hlen₁ hops' hrest
      exact ⟨answer :: answers, m₂, c, hstep.bind (hrun.bind (.of_forall fun n => rfl)),
        .cons hb hc, hm₂⟩

theorem holds_memoryNew (type : MemoryType) (pageSize : Nat) :
    Holds type pageSize (memoryNew zeroed type .malloc pageSize true) [] :=
  ⟨rfl, rfl, rfl, rfl, rfl, le_rfl, rfl⟩

end Steps

/-- **Refinement.**  Every run of calls on a new memory that clears what it grows by
comes back, with the answers of a growing array of bytes; in the end the memory has the
length of the array and reads as it does. -/
theorem memory_refines {type : MemoryType} {pageSize : Nat}
    (hpolicy : Policy type pageSize) (ops : List (Op × Realloc))
    (hops : AllAdmitted type 0 (ops.map Prod.fst)) (hsucc : ∀ p ∈ ops, p.2.Succeeds) :
    ∃ answers m a, Returns
      (fun n => run n (memoryNew zeroed type .malloc pageSize true) ops) (answers, m) ∧
      Grows.Run [] (ops.map Prod.fst) answers a ∧ memorySize m = a.length ∧
        ∀ offset size, (memoryRead m offset size).2 = (a.drop offset).take size := by
  obtain ⟨answers, m, a, hrun, ha, hm⟩ :=
    Holds.run hpolicy (holds_memoryNew type pageSize) (by decide) hops hsucc
  refine ⟨answers, m, a, hrun, ha, hm.length.symm, fun offset size => ?_⟩
  rw [hm.read]

/-- A `realloc` that gives every block, with the same byte everywhere
behind the old ones. -/
def fillWith (b : UInt8) : Realloc where
  call ptr size :=
    some ((ptr.getD []).take size ++ List.replicate (size - (ptr.getD []).length) b)
  length h := by
    cases h
    simp only [List.length_append, List.length_take, List.length_replicate]
    omega
  keeps h k hk hlen := by
    cases h
    rw [List.take_append_of_le_length (by rw [List.length_take]; omega),
      List.take_take, Nat.min_eq_left hk]

theorem fillWith_succeeds (b : UInt8) : (fillWith b).Succeeds := fun _ _ _ => rfl

/-- Seven bytes are written, five are given up, and two come back as zeros. -/
def growAgain : List (Op × Realloc) :=
  [(.grow 7, fillWith 170), (.write 0 [1, 2, 3, 4, 5, 6, 7], fillWith 170),
    (.shrink 5, fillWith 170), (.grow 2, fillWith 170), (.read 0 9, fillWith 170)]

theorem memory_refines_growAgain :
    AllAdmitted .page 0 (growAgain.map Prod.fst) ∧
      ∃ answers m a,
        Returns (fun n => run n (memoryNew zeroed .page .malloc 4096 true) growAgain)
          (answers, m) ∧
        Grows.Run [] (growAgain.map Prod.fst) answers a ∧ memorySize m = a.length ∧
          ∀ offset size, (memoryRead m offset size).2 = (a.drop offset).take size := by
  have hops : AllAdmitted .page 0 (growAgain.map Prod.fst) := by
    simp [growAgain, AllAdmitted, Admits, nextLength]
  refine ⟨hops, memory_refines (.inr (.inr ⟨rfl, by decide, by decide⟩))
    growAgain hops ?_⟩
  intro p hp
  simp only [growAgain, List.mem_cons, List.not_mem_nil, or_false] at hp
  rcases hp with rfl | rfl | rfl | rfl | rfl <;> exact fillWith_succeeds 170

end Frozen.Block
