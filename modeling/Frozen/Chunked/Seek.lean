/-
# `Frozen.Chunked.Seek` — comparing and copying chunked buffers

`buffer_memcmp` and `buffer_memcpy` go through their buffers with cursors: a place in a
chunk, how much is left there, and the offset of the chunk's end, from which
`buffer_seek` finds the next one.  Away from offset 0 it finds a byte or fails, so that
every round makes progress.  At offset 0 it gives the first chunk, whatever its size: an
empty one is found again in every round.

    memcmp_returns, memcpyLoop_returns   what the two answer, and what is copied, on the arrays
    memcmp_hangs, memcpy_hangs           the calls that do not come back
    memcmp_memcpy_flat                   when the two are what a comparison and a copy should be
-/
import Frozen.Core.Base
import Frozen.Chunked.Flat

namespace Frozen.Chunked

open Lib

/-! ## The source -/

/-- What `buffer_seek` finds: the chunk, the place in it, and how much there
is from there on. -/
structure Place where
  chunk : Nat
  ptr : Nat
  restSize : Nat

/-- The offset to go on from, and what is left of the chunk before it. -/
structure Cursor where
  off : Nat
  ptr : Nat
  size : Nat

/-- The state of a loop before the first chunk is sought. -/
def Cursor.start (off : Nat) : Cursor := ⟨off, 0, 0⟩

def Cursor.advance (c : Cursor) (n : Nat) : Cursor := ⟨c.off, c.ptr + n, c.size - n⟩

/-- `memcmp` of the C library. -/
structure Memcmp where
  call : List UInt8 → List UInt8 → Int
  eq_zero : ∀ {x y}, x.length = y.length → (call x y = 0 ↔ x = y)

namespace State

/-- `buffer_process` of `buffer_seek`, whose body leaves the loop at the
chunk it looks for. -/
def seekLoop (st : State) (bOffset : Nat) :
    Nat → Nat → Nat → Option Nat → Except Stop (Option Place)
  | 0, _, _, _ => .error .outOfFuel
  | n + 1, toProcess, offset, sChunk =>
      if toProcess = 0 then .ok none
      else
        match sChunk with
        | none => .ok none
        | some chunk => do
            let c ← st.header chunk
            let size := if c.size > toProcess then toProcess else c.size
            if offset + c.size > bOffset then
              .ok (some ⟨chunk, chunkGetPtr chunk c + (bOffset - offset),
                c.size - (bOffset - offset)⟩)
            else st.seekLoop bOffset n (toProcess - size) (offset + size) c.cnext

/-- `buffer_seek`; `none` is the answer -1. -/
def seek (fuel : Nat) (st : State) (b : Buffer) (bOffset : Nat) :
    Except Stop (Option Place) :=
  if bOffset = 0 then
    match b.head with
    | none => .ok none
    | some head => do
        let c ← st.header head
        .ok (some ⟨head, chunkGetPtr head c, c.size⟩)
  else st.seekLoop bOffset fuel b.size 0 b.head

/-- The refill of a cursor that has nothing left. -/
def refill (fuel : Nat) (st : State) (b : Buffer) (c : Cursor) :
    Except Stop (Option Cursor) :=
  if c.size = 0 then do
    match ← st.seek fuel b c.off with
    | none => .ok none
    | some p => .ok (some ⟨c.off + p.restSize, p.ptr, p.restSize⟩)
  else .ok (some c)

/-- The loop of `buffer_memcmp`. -/
def memcmpLoop (memcmp : Memcmp) (st : State) (b₁ b₂ : Buffer) :
    Nat → Cursor → Cursor → Nat → Except Stop Int
  | 0, _, _, _ => .error .outOfFuel
  | n + 1, c₁, c₂, size =>
      if size = 0 then .ok 0
      else do
        match ← st.refill n b₁ c₁ with
        | none => .ok (-EINVAL)
        | some c₁ =>
            match ← st.refill n b₂ c₂ with
            | none => .ok (-EINVAL)
            | some c₂ =>
                let cmpSize := min (min c₁.size c₂.size) size
                let ret := memcmp.call (bytes st.mem c₁.ptr cmpSize)
                  (bytes st.mem c₂.ptr cmpSize)
                if ret ≠ 0 then .ok ret
                else
                  memcmpLoop memcmp st b₁ b₂ n (c₁.advance cmpSize)
                    (c₂.advance cmpSize) (size - cmpSize)

/-- `buffer_memcmp`. -/
def memcmp (memcmp : Memcmp) (fuel : Nat) (st : State) (b₁ : Buffer) (off₁ : Nat)
    (b₂ : Buffer) (off₂ size : Nat) : Except Stop Int :=
  memcmpLoop memcmp st b₁ b₂ fuel (.start off₁) (.start off₂) size

/-- The loop of `buffer_memcpy`; what `malloc` gives for a write is known by the bytes
still to copy. -/
def memcpyLoop (malloc : Nat → Nat) (b₂ : Buffer) :
    Nat → State → Nat → Cursor → Nat → Except Stop (Int × State)
  | 0, _, _, _, _ => .error .outOfFuel
  | n + 1, st, off₁, c₂, size =>
      if size = 0 then .ok (0, st)
      else do
        match ← st.refill n b₂ c₂ with
        | none => .ok (-EINVAL, st)
        | some c₂ =>
            let cpySize := min c₂.size size
            let (st, _) ← st.write n off₁ c₂.ptr cpySize (malloc size)
            memcpyLoop malloc b₂ n st (off₁ + cpySize) (c₂.advance cpySize)
              (size - cpySize)

/-- `buffer_memcpy` to the buffer of the state. -/
def memcpy (malloc : Nat → Nat) (fuel : Nat) (st : State) (off₁ : Nat) (b₂ : Buffer)
    (off₂ size : Nat) : Except Stop (Int × State) :=
  memcpyLoop malloc b₂ fuel st off₁ (.start off₂) size

end State

/-! ## Seeking -/

/-- A buffer to read from: a chain of chunks, which may lie over each other. -/
structure Chain (st : State) (b : Buffer) (links : List Link) (a : List UInt8) :
    Prop where
  linked : Linked st.chunks b.head links
  size : b.size = (links.map Link.size).sum
  flat_eq : a = flat st.mem links

/-- Offset 0 of a buffer whose first chunk has no byte. -/
def StartsEmpty (links : List Link) (off : Nat) : Prop :=
  off = 0 ∧ ∃ l rest, links = l :: rest ∧ l.size = 0

/-- Where a cursor is: at position `pos` of the array, with bytes of one chunk. -/
structure At (st : State) (links : List Link) (a : List UInt8) (pos : Nat)
    (c : Cursor) : Prop where
  off : c.off = pos + c.size
  bytes_eq : bytes st.mem c.ptr c.size = (a.drop pos).take c.size
  inside : c.size ≠ 0 → ∃ l ∈ links, l.ptr ≤ c.ptr ∧ c.ptr + c.size ≤ l.ptr + l.size

section

variable {st : State} {b : Buffer} {before rest links : List Link} {l : Link}
  {a : List UInt8} {pos : Nat} {c : Cursor}

theorem Represents.chain (h : Represents st links a) : Chain st st.buffer links a :=
  ⟨h.linked, h.size, h.flat_eq⟩

theorem Chain.length (h : Chain st b links a) : a.length = (links.map Link.size).sum := by
  rw [h.flat_eq, length_flat]

theorem at_start (off : Nat) : At st links a off (.start off) :=
  ⟨rfl, rfl, fun h => absurd rfl h⟩

theorem At.size_le (h : At st links a pos c) : c.size ≤ a.length - pos := by
  have hlen := congrArg List.length h.bytes_eq
  rw [length_bytes, List.length_take, List.length_drop] at hlen
  omega

theorem drop_bytes (mem : Nat → UInt8) (ptr n k : Nat) :
    (bytes mem ptr n).drop k = bytes mem (ptr + k) (n - k) := by
  apply List.ext_getElem?
  intro i
  rw [List.getElem?_drop, getElem?_bytes, getElem?_bytes, Nat.add_assoc]
  by_cases hi : i < n - k
  · rw [if_pos hi, if_pos (by omega)]
  · rw [if_neg hi, if_neg (by omega)]

theorem take_bytes (mem : Nat → UInt8) (ptr : Nat) {n k : Nat} (h : k ≤ n) :
    (bytes mem ptr n).take k = bytes mem ptr k := by
  apply List.ext_getElem?
  intro i
  rw [List.getElem?_take, getElem?_bytes, getElem?_bytes]
  by_cases hi : i < k
  · rw [if_pos hi, if_pos hi, if_pos (by omega)]
  · rw [if_neg hi, if_neg hi]

/-- A cursor that goes on inside its chunk. -/
theorem At.advance (h : At st links a pos c) {k : Nat} (hk : k ≤ c.size) :
    At st links a (pos + k) (c.advance k) := by
  refine ⟨?_, ?_, fun hne => ?_⟩
  · have := h.off
    simp only [Cursor.advance]
    omega
  · simp only [Cursor.advance]
    rw [← drop_bytes, h.bytes_eq, List.drop_take, List.drop_drop]
  · simp only [Cursor.advance] at hne ⊢
    obtain ⟨l, hl, hlo, hhi⟩ := h.inside (by omega)
    exact ⟨l, hl, by omega, by omega⟩

theorem At.front (h : At st links a pos c) {k : Nat} (hk : k ≤ c.size) :
    bytes st.mem c.ptr k = (a.drop pos).take k := by
  rw [← take_bytes _ _ hk, h.bytes_eq, List.take_take, Nat.min_eq_left hk]

theorem Chain.place (h : Chain st b (before ++ l :: rest) a)
    (hlo : (before.map Link.size).sum ≤ pos)
    (hhi : pos < (before.map Link.size).sum + l.size) :
    At st (before ++ l :: rest) a pos
      ⟨(before.map Link.size).sum + l.size, l.ptr + (pos - (before.map Link.size).sum),
        l.size - (pos - (before.map Link.size).sum)⟩ := by
  refine ⟨by simp only; omega, ?_,
    fun _ => ⟨l, by simp, by simp only; omega, by simp only; omega⟩⟩
  have hlen := length_flat st.mem before
  have hbefore : (flat st.mem before).drop pos = [] := List.drop_eq_nil_of_le (by omega)
  have hin : pos - (before.map Link.size).sum ≤ (bytes st.mem l.ptr l.size).length := by
    rw [length_bytes]
    omega
  rw [h.flat_eq, flat_append, flat_cons, List.drop_append, hbefore, List.nil_append, hlen,
    List.drop_append_of_le_length hin, drop_bytes,
    List.take_append_of_le_length (by rw [length_bytes]),
    List.take_of_length_le (by rw [length_bytes])]

theorem seekLoop_returns :
    ∀ {rest before : List Link}, Chain st b (before ++ rest) a →
      (before.map Link.size).sum ≤ pos →
      (pos < a.length ∧ ∃ p,
        Returns (fun n => st.seekLoop pos n (a.length - (before.map Link.size).sum)
          (before.map Link.size).sum (rest.head?.map Link.chunk)) (some p) ∧
            0 < p.restSize ∧
        At st (before ++ rest) a pos ⟨pos + p.restSize, p.ptr, p.restSize⟩) ∨
      (a.length ≤ pos ∧ Returns
        (fun n => st.seekLoop pos n (a.length - (before.map Link.size).sum)
          (before.map Link.size).sum (rest.head?.map Link.chunk)) none) := by
  intro rest
  induction rest with
  | nil =>
      intro before h hle
      have hlen := h.length
      rw [List.append_nil] at hlen
      refine .inr ⟨by omega, .of_succ (.of_forall fun n => ?_)⟩
      unfold State.seekLoop
      rw [if_pos (by omega)]
  | cons l rest ih =>
      intro before h hle
      have hlen := h.length
      simp only [List.map_append, List.sum_append, List.map_cons, List.sum_cons] at hlen
      obtain ⟨c, hc, hptr, hsize, hnext⟩ := h.linked.at
      by_cases hdone : a.length - (before.map Link.size).sum = 0
      · refine .inr ⟨by omega, .of_succ (.of_forall fun n => ?_)⟩
        unfold State.seekLoop
        rw [if_pos hdone]
      · have hround : ∀ n, st.seekLoop pos (n + 1) (a.length - (before.map Link.size).sum)
            (before.map Link.size).sum (some l.chunk) =
            if (before.map Link.size).sum + l.size > pos then
              .ok (some ⟨l.chunk, l.ptr + (pos - (before.map Link.size).sum),
                l.size - (pos - (before.map Link.size).sum)⟩)
            else st.seekLoop pos n (a.length - ((before.map Link.size).sum + l.size))
              ((before.map Link.size).sum + l.size) (rest.head?.map Link.chunk) := by
          intro n
          have hclip : ¬ l.size > a.length - (before.map Link.size).sum := by omega
          simp only [State.seekLoop, if_neg hdone, State.header, hc, hptr, hsize,
            hnext, if_neg hclip, bind, Except.bind, Nat.sub_sub]
        by_cases hfound : (before.map Link.size).sum + l.size > pos
        · refine .inl ⟨by omega, ⟨l.chunk, l.ptr + (pos - (before.map Link.size).sum),
            l.size - (pos - (before.map Link.size).sum)⟩,
              .of_succ (.of_forall fun n => ?_), ?_, ?_⟩
          · exact (hround n).trans (if_pos hfound)
          · simp only
            omega
          · have hplace := h.place hle hfound
            have hend : pos + (l.size - (pos - (before.map Link.size).sum))
                = (before.map Link.size).sum + l.size := by
              omega
            rw [hend]
            exact hplace
        · rw [List.append_cons] at h
          have hsum : ((before ++ [l]).map Link.size).sum
              = (before.map Link.size).sum + l.size := by simp
          have hnextStep := ih h (by omega)
          rw [hsum] at hnextStep
          simp only [List.head?_cons, Option.map_some]
          rcases hnextStep with ⟨hlt, p, hrun, hp⟩ | ⟨hge, hrun⟩
          · refine .inl ⟨hlt, p, .of_succ ?_, ?_⟩
            · simpa only [hround, if_neg hfound] using hrun
            · rwa [List.append_cons]
          · refine .inr ⟨hge, .of_succ ?_⟩
            simpa only [hround, if_neg hfound] using hrun

/-- `buffer_seek` finds a byte, or fails at the end. -/
theorem Chain.seek (h : Chain st b links a) (hstart : ¬ StartsEmpty links pos) :
    (pos < a.length ∧ ∃ p, Returns (fun n => st.seek n b pos) (some p) ∧ 0 < p.restSize ∧
        At st links a pos ⟨pos + p.restSize, p.ptr, p.restSize⟩) ∨
      (a.length ≤ pos ∧ Returns (fun n => st.seek n b pos) none) := by
  by_cases h0 : pos = 0
  · subst h0
    cases links with
    | nil =>
        have hhead : b.head = none := h.linked
        have hlen : a.length = 0 := h.length
        refine .inr ⟨hlen.le, .of_forall fun n => ?_⟩
        simp only [State.seek, if_true, hhead]
    | cons l rest =>
        have hsize : 0 < l.size :=
          Nat.pos_of_ne_zero fun hz => hstart ⟨rfl, l, rest, rfl, hz⟩
        obtain ⟨hhead, c, hc, hptr, hcsize, -⟩ := h.linked
        have hlen := h.length
        rw [List.map_cons, List.sum_cons] at hlen
        have hchain : Chain st b ([] ++ l :: rest) a := h
        have hplace :=
          @Chain.place st b [] rest l a 0 hchain le_rfl (by simpa using hsize)
        refine .inl ⟨by omega, ⟨l.chunk, l.ptr, l.size⟩, .of_forall fun n => ?_,
          hsize, hplace⟩
        simp only [State.seek, if_true, hhead, State.header, hc, hptr, hcsize, bind,
          Except.bind]
  · have hchain : Chain st b ([] ++ links) a := h
    have hloop := seekLoop_returns hchain (Nat.zero_le pos)
    simp only [State.seek, if_neg h0, h.linked.head_eq, h.size]
    rw [← h.length]
    exact hloop

/-- A cursor that is refilled has a byte, or the array ends there. -/
theorem Chain.refill (h : Chain st b links a) (hat : At st links a pos c)
    (hstart : ¬ StartsEmpty links pos) :
    (pos < a.length ∧ ∃ c', Returns (fun n => st.refill n b c) (some c') ∧
      0 < c'.size ∧ At st links a pos c') ∨
      (a.length ≤ pos ∧ Returns (fun n => st.refill n b c) none) := by
  by_cases h0 : c.size = 0
  · have hoff : c.off = pos := by rw [hat.off, h0, Nat.add_zero]
    rcases h.seek hstart with ⟨hlt, p, hseek, hpos, hp⟩ | ⟨hge, hseek⟩
    · refine .inl ⟨hlt, _, ?_, hpos, hp⟩
      simp only [State.refill, if_pos h0, hoff]
      exact hseek.bind (.of_forall fun n => rfl)
    · refine .inr ⟨hge, ?_⟩
      simp only [State.refill, if_pos h0, hoff]
      exact hseek.bind (.of_forall fun n => rfl)
  · have hle := hat.size_le
    exact .inl ⟨by omega, c, .of_forall fun n => if_neg h0, Nat.pos_of_ne_zero h0, hat⟩

end

/-! ## Comparing -/

/-- How many bytes both arrays have from their positions on, up to `size`. -/
def common (a₁ : List UInt8) (pos₁ : Nat) (a₂ : List UInt8) (pos₂ size : Nat) : Nat :=
  min size (min (a₁.length - pos₁) (a₂.length - pos₂))

/-- The next `k` bytes are the same. -/
def Agree (a₁ : List UInt8) (pos₁ : Nat) (a₂ : List UInt8) (pos₂ k : Nat) : Prop :=
  (a₁.drop pos₁).take k = (a₂.drop pos₂).take k

/-- The answer of a comparison of arrays: what `memcmp` says of the first pieces that
are not the same; if there are none before an array ends, 0 if that is far enough. -/
structure Compared (memcmp : Memcmp) (a₁ : List UInt8) (pos₁ : Nat) (a₂ : List UInt8)
    (pos₂ size : Nat) (ret : Int) : Prop where
  agree : Agree a₁ pos₁ a₂ pos₂ (common a₁ pos₁ a₂ pos₂ size) →
    ret = if common a₁ pos₁ a₂ pos₂ size = size then 0 else -EINVAL
  differ : ¬ Agree a₁ pos₁ a₂ pos₂ (common a₁ pos₁ a₂ pos₂ size) →
    ret ≠ 0 ∧ ∃ i n, i + n ≤ common a₁ pos₁ a₂ pos₂ size ∧ Agree a₁ pos₁ a₂ pos₂ i ∧
      ret = memcmp.call ((a₁.drop (pos₁ + i)).take n) ((a₂.drop (pos₂ + i)).take n)

section

variable {memcmp : Memcmp} {st : State} {b₁ b₂ : Buffer} {links₁ links₂ : List Link}
  {a₁ a₂ : List UInt8}
variable {pos₁ pos₂ size : Nat} {c₁ c₂ : Cursor}

theorem common_le (a₁ : List UInt8) (pos₁ : Nat) (a₂ : List UInt8) (pos₂ size : Nat) :
    common a₁ pos₁ a₂ pos₂ size ≤ a₁.length - pos₁ ∧
      common a₁ pos₁ a₂ pos₂ size ≤ a₂.length - pos₂ := by
  unfold common
  omega

theorem agree_add {k k' : Nat} (h₁ : k ≤ a₁.length - pos₁) (h₂ : k ≤ a₂.length - pos₂) :
    Agree a₁ pos₁ a₂ pos₂ (k + k') ↔ Agree a₁ pos₁ a₂ pos₂ k ∧
      Agree a₁ (pos₁ + k) a₂ (pos₂ + k) k' := by
  unfold Agree
  rw [List.take_add, List.take_add, List.drop_drop, List.drop_drop]
  refine ⟨fun h => List.append_inj h ?_, fun h => by rw [h.1, h.2]⟩
  simp only [List.length_take, List.length_drop]
  omega

theorem common_sub {k : Nat} (hk : k ≤ common a₁ pos₁ a₂ pos₂ size) :
    common a₁ pos₁ a₂ pos₂ size = k + common a₁ (pos₁ + k) a₂ (pos₂ + k) (size - k) := by
  obtain ⟨hsize, hroom⟩ := le_min_iff.mp hk
  obtain ⟨h₁, h₂⟩ := le_min_iff.mp hroom
  have hrest : ∀ {n pos : Nat}, k ≤ n - pos → k + (n - (pos + k)) = n - pos := by
    intro n pos h
    omega
  rw [common, common, ← Nat.add_min_add_left, ← Nat.add_min_add_left,
    Nat.add_sub_cancel' hsize, hrest h₁, hrest h₂]

theorem Compared.step {k : Nat} {ret : Int} (hk : k ≤ common a₁ pos₁ a₂ pos₂ size)
    (hpiece : Agree a₁ pos₁ a₂ pos₂ k)
    (h : Compared memcmp a₁ (pos₁ + k) a₂ (pos₂ + k) (size - k) ret) :
    Compared memcmp a₁ pos₁ a₂ pos₂ size ret := by
  have hle := common_le a₁ pos₁ a₂ pos₂ size
  have hcommon := common_sub hk
  have hsize : k ≤ size := hk.trans (min_le_left _ _)
  have hagree : Agree a₁ pos₁ a₂ pos₂ (common a₁ pos₁ a₂ pos₂ size) ↔
      Agree a₁ (pos₁ + k) a₂ (pos₂ + k)
        (common a₁ (pos₁ + k) a₂ (pos₂ + k) (size - k)) := by
    rw [hcommon, agree_add (by omega) (by omega), and_iff_right hpiece]
  refine ⟨fun hall => ?_, fun hno => ?_⟩
  · rw [h.agree (hagree.mp hall)]
    exact if_congr (by omega) rfl rfl
  · obtain ⟨hne, i, n, hin, hi, hret⟩ := h.differ (mt hagree.mpr hno)
    refine ⟨hne, k + i, n, by omega,
      (agree_add (by omega) (by omega)).mpr ⟨hpiece, hi⟩, ?_⟩
    rw [hret, Nat.add_assoc, Nat.add_assoc]

theorem compared_end (hsize : size ≠ 0) (hend : a₁.length ≤ pos₁ ∨ a₂.length ≤ pos₂) :
    Compared memcmp a₁ pos₁ a₂ pos₂ size (-EINVAL) := by
  have hcommon : common a₁ pos₁ a₂ pos₂ size = 0 := by
    unfold common
    omega
  refine ⟨fun _ => ?_, fun hno => absurd ?_ hno⟩
  · rw [hcommon, if_neg hsize.symm]
  · rw [hcommon, Agree, List.take_zero, List.take_zero]

theorem not_startsEmpty_add {links : List Link} {pos k : Nat} (hk : 0 < k) :
    ¬ StartsEmpty links (pos + k) :=
  fun h => by have := h.1; omega

/-- The loop of `buffer_memcmp`, by the number of bytes to compare. -/
theorem memcmpLoop_returns (h₁ : Chain st b₁ links₁ a₁) (h₂ : Chain st b₂ links₂ a₂) :
    ∀ size {pos₁ pos₂ : Nat} {c₁ c₂ : Cursor}, At st links₁ a₁ pos₁ c₁ →
      At st links₂ a₂ pos₂ c₂ →
      (size ≠ 0 → ¬ StartsEmpty links₁ pos₁ ∧ ¬ StartsEmpty links₂ pos₂) →
      ∃ ret, Returns (fun n => State.memcmpLoop memcmp st b₁ b₂ n c₁ c₂ size) ret ∧
        Compared memcmp a₁ pos₁ a₂ pos₂ size ret := by
  intro size
  induction size using Nat.strong_induction_on with
  | _ size ih =>
      intro pos₁ pos₂ c₁ c₂ hat₁ hat₂ hstart
      by_cases h0 : size = 0
      · subst h0
        have hcommon : common a₁ pos₁ a₂ pos₂ 0 = 0 := Nat.zero_min _
        refine ⟨0, .of_succ (.of_forall fun n => ?_),
          ⟨fun _ => ?_, fun hno => absurd ?_ hno⟩⟩
        · rw [State.memcmpLoop, if_pos rfl]
        · rw [hcommon, if_pos rfl]
        · rw [hcommon, Agree, List.take_zero, List.take_zero]
      · obtain ⟨hs₁, hs₂⟩ := hstart h0
        rcases h₁.refill hat₁ hs₁ with ⟨hlt₁, c₁', hrun₁, hpos₁, hat₁'⟩ | ⟨hge, hrun₁⟩
        · rcases h₂.refill hat₂ hs₂ with ⟨hlt₂, c₂', hrun₂, hpos₂, hat₂'⟩ | ⟨hge, hrun₂⟩
          · set k := min (min c₁'.size c₂'.size) size with hk
            have hle₁ := hat₁'.size_le
            have hle₂ := hat₂'.size_le
            have hkpos : 0 < k := by omega
            have hkcommon : k ≤ common a₁ pos₁ a₂ pos₂ size := by
              unfold common
              omega
            have hfront₁ := hat₁'.front (by omega : k ≤ c₁'.size)
            have hfront₂ := hat₂'.front (by omega : k ≤ c₂'.size)
            have hlen : ((a₁.drop pos₁).take k).length
                = ((a₂.drop pos₂).take k).length := by
              rw [← hfront₁, ← hfront₂, length_bytes, length_bytes]
            by_cases hret : memcmp.call ((a₁.drop pos₁).take k)
              ((a₂.drop pos₂).take k) = 0
            · obtain ⟨ret, hloop, hcompared⟩ := ih (size - k) (by omega)
                (hat₁'.advance (by omega : k ≤ c₁'.size))
                (hat₂'.advance (by omega : k ≤ c₂'.size))
                fun _ => ⟨not_startsEmpty_add hkpos, not_startsEmpty_add hkpos⟩
              refine ⟨ret, .of_succ ?_,
                hcompared.step hkcommon ((memcmp.eq_zero hlen).mp hret)⟩
              simp only [State.memcmpLoop, if_neg h0]
              refine hrun₁.bind (hrun₂.bind ?_)
              simpa only [← hk, hfront₁, hfront₂, hret, ne_eq,
                not_true_eq_false, if_false] using hloop
            · refine ⟨_, .of_succ ?_, ⟨fun hall => absurd ?_ hret,
                fun _ => ⟨hret, 0, k, by omega, ?_, rfl⟩⟩⟩
              · simp only [State.memcmpLoop, if_neg h0]
                refine hrun₁.bind (hrun₂.bind (.of_forall fun n => ?_))
                simp only [← hk, hfront₁, hfront₂, ne_eq, hret,
                  not_false_eq_true, if_true]
              · have hle := common_le a₁ pos₁ a₂ pos₂ size
                rw [common_sub hkcommon] at hall
                exact (memcmp.eq_zero hlen).mpr
                  ((agree_add (by omega) (by omega)).mp hall).1
              · rw [Agree, List.take_zero, List.take_zero]
          · refine ⟨-EINVAL, .of_succ ?_, compared_end h0 (.inr hge)⟩
            simp only [State.memcmpLoop, if_neg h0]
            exact hrun₁.bind (hrun₂.bind (.of_forall fun n => rfl))
        · refine ⟨-EINVAL, .of_succ ?_, compared_end h0 (.inl hge)⟩
          simp only [State.memcmpLoop, if_neg h0]
          exact hrun₁.bind (.of_forall fun n => rfl)

end

/-! ## Copying -/

/-- Chunks with other headers and without a common address. -/
def Link.Apart (l l' : Link) : Prop :=
  l.chunk ≠ l'.chunk ∧ Chunked.Apart l.ptr l.size l'.ptr l'.size

/-- Two buffers that share nothing. -/
def Distinct (links links' : List Link) : Prop := ∀ l ∈ links, ∀ l' ∈ links', l.Apart l'

/-- What `malloc` gives is used by no chunk and by no other `malloc`. -/
structure Mallocs (malloc : Nat → Nat) (links : List Link) (size room : Nat) : Prop where
  fresh : ∀ k ≤ size, ∀ l ∈ links, l.Apart ⟨malloc k, malloc k, room⟩
  apart : ∀ j k, j < k → k ≤ size →
  Link.Apart ⟨malloc k, malloc k, room⟩ ⟨malloc j, malloc j, room⟩

/-- An array with `x` put over the bytes from `off` on. -/
structure Copied (a a' : List UInt8) (off : Nat) (x : List UInt8) : Prop where
  length : a'.length = if x = [] then a.length else max a.length (off + x.length)
  copied : ∀ i < x.length, a'[off + i]? = x[i]?
  others : ∀ k < a.length, ¬ (off ≤ k ∧ k < off + x.length) → a'[k]? = a[k]?

section

variable {st st' : State} {b₂ : Buffer} {links links' links₁ links₂ : List Link}
  {a a' a₁ a₂ : List UInt8}
variable {malloc : Nat → Nat} {size room : Nat}

theorem Apart.mono {ptr n ptr₁ n₁ ptr' n' ptr₁' n₁' : Nat} (h : Apart ptr n ptr' n')
    (h₁ : ptr ≤ ptr₁) (h₂ : ptr₁ + n₁ ≤ ptr + n) (h₁' : ptr' ≤ ptr₁')
    (h₂' : ptr₁' + n₁' ≤ ptr' + n') : Apart ptr₁ n₁ ptr₁' n₁' :=
  fun x hx hx' hy hy' => h x (by omega) (by omega) (by omega) (by omega)

theorem Link.Apart.symm {l l' : Link} (h : l.Apart l') : l'.Apart l :=
  ⟨h.1.symm, h.2.symm⟩

theorem Copied.refl (a : List UInt8) (off : Nat) : Copied a a off [] :=
  ⟨rfl, fun _ h => absurd h (Nat.not_lt_zero _), fun _ _ _ => rfl⟩

theorem Copied.append {a'' x y : List UInt8} {off : Nat} (hx : x ≠ [])
    (h : Copied a a' off x) (h' : Copied a' a'' (off + x.length) y) :
    Copied a a'' off (x ++ y) := by
  have hlen := h.length
  rw [if_neg hx] at hlen
  refine ⟨?_, fun i hi => ?_, fun k hk hout => ?_⟩
  · rw [if_neg (List.append_ne_nil_of_left_ne_nil hx y), h'.length, hlen,
      List.length_append]
    by_cases hy : y = []
    · rw [if_pos hy, hy, List.length_nil, Nat.add_zero]
    · rw [if_neg hy]
      omega
  · rw [List.length_append] at hi
    by_cases hix : i < x.length
    · rw [h'.others _ (by omega) (by omega), h.copied i hix,
        List.getElem?_append_left hix]
    · have hcopied := h'.copied (i - x.length) (by omega)
      rw [List.getElem?_append_right (by omega), ← hcopied]
      congr 1
      omega
  · rw [List.length_append] at hout
    rw [h'.others k (by omega) (by omega), h.others k hk (by omega)]

/-- A buffer that is not written to stays as it is. -/
theorem Chain.keeps (h : Chain st b₂ links₂ a₂) (hkeeps : Keeps links st st')
    (hapart : Distinct links links₂) : Chain st' b₂ links₂ a₂ := by
  refine ⟨h.linked.congr fun l hl => hkeeps.chunks _ fun hmem => ?_, h.size,
    h.flat_eq.trans ?_⟩
  · obtain ⟨l', hl', heq⟩ := List.mem_map.mp hmem
    exact (hapart l' hl' l hl).1 heq
  · refine (flat_congr fun l hl x hx hx' => hkeeps.mem x fun l' hl' hin => ?_).symm
    exact (hapart l' hl' l hl).2 x hin.1 hin.2 hx hx'

theorem At.keeps {pos : Nat} {c : Cursor} (h : At st links₂ a₂ pos c)
    (hkeeps : Keeps links st st') (hapart : Distinct links links₂) :
    At st' links₂ a₂ pos c := by
  refine ⟨h.off, (bytes_congr fun x hx hx' => ?_).trans h.bytes_eq, h.inside⟩
  obtain ⟨l, hl, hlo, hhi⟩ := h.inside (by omega)
  exact hkeeps.mem x fun l' hl' hin => (hapart l' hl' l hl).2 x hin.1 hin.2
    (by omega) (by omega)

/-- What the next `malloc` may be used for. -/
theorem Mallocs.fresh_of_le (h : Mallocs malloc (links₁ ++ links₂) size room) {n : Nat}
    (hn : n ≤ room) :
    Fresh links₁ (malloc size) n ∧ Distinct [⟨malloc size, malloc size, n⟩] links₂ := by
  refine ⟨⟨fun hmem => ?_, fun l hl => ?_⟩, fun l hl l' hl' => ?_⟩
  · obtain ⟨l, hl, heq⟩ := List.mem_map.mp hmem
    exact (h.fresh size le_rfl l (List.mem_append_left _ hl)).1 heq
  · exact (h.fresh size le_rfl l (List.mem_append_left _ hl)).2.mono le_rfl le_rfl
      le_rfl (Nat.add_le_add_left hn _)
  · rw [List.mem_singleton.mp hl]
    have hapart := h.fresh size le_rfl l' (List.mem_append_right _ hl')
    exact ⟨hapart.1.symm,
      hapart.2.symm.mono le_rfl (Nat.add_le_add_left hn _) le_rfl le_rfl⟩

theorem Mallocs.next (h : Mallocs malloc (links₁ ++ links₂) size room) {k n : Nat}
    (hk : k < size) (hn : n ≤ room) :
    Mallocs malloc (links₁ ++ [⟨malloc size, malloc size, n⟩] ++ links₂) k room ∧
      Mallocs malloc (links₁ ++ links₂) k room := by
  have hrest : Mallocs malloc (links₁ ++ links₂) k room :=
    ⟨fun j hj => h.fresh j (by omega), fun i j hij hj => h.apart i j hij (by omega)⟩
  refine ⟨⟨fun j hj l hl => ?_, hrest.apart⟩, hrest⟩
  have hnew := h.apart j size (by omega) le_rfl
  simp only [List.mem_append, List.mem_singleton] at hl
  rcases hl with (hl | rfl) | hl
  · exact hrest.fresh j hj l (List.mem_append_left _ hl)
  · exact ⟨hnew.1, hnew.2.mono le_rfl (Nat.add_le_add_left hn _) le_rfl le_rfl⟩
  · exact hrest.fresh j hj l (List.mem_append_right _ hl)

theorem write_piece (h : Represents st links₁ a₁) (h₂ : Chain st b₂ links₂ a₂)
    (hapart : Distinct links₁ links₂)
    (hmalloc : Mallocs malloc (links₁ ++ links₂) size room) {off pos k : Nat}
    {c : Cursor} (hat : At st links₂ a₂ pos c) (hk : 0 < k) (hkc : k ≤ c.size)
    (hks : k ≤ size) (hroom : off + size ≤ room) :
    ∃ st' links' a', Returns (fun n => st.write n off c.ptr k (malloc size))
      (st', off + k) ∧
      Represents st' links' a' ∧ Copied a₁ a' off ((a₂.drop pos).take k) ∧
      Chain st' b₂ links₂ a₂ ∧
      Distinct links' links₂ ∧ Mallocs malloc (links' ++ links₂) (size - k) room ∧
      At st' links₂ a₂ pos c := by
  have hn : off + k - a₁.length ≤ room := by omega
  obtain ⟨l, hl, hlo, hhi⟩ := hat.inside (by omega)
  obtain ⟨hfresh, hnew⟩ := hmalloc.fresh_of_le hn
  have hlegal : Legal st links₁ a₁.length (.write off c.ptr k (malloc size)) := by
    refine ⟨fun l' hl' => (hapart l' hl' l hl).2.mono le_rfl le_rfl hlo (by omega),
      fun _ => ⟨hfresh, ?_⟩⟩
    exact (hnew _ (List.mem_singleton_self _) l hl).2.mono le_rfl le_rfl hlo (by omega)
  obtain ⟨st', a', hrun, ⟨hlen, hin, hout⟩, hkeeps, h'⟩ := write_keeps h hlegal
  have hlink : Distinct (links₁ ++ added (malloc size) a₁.length (off + k)) links₂ ∧
      Mallocs malloc (links₁ ++ added (malloc size) a₁.length (off + k) ++ links₂)
        (size - k) room := by
    have hnext := hmalloc.next (by omega : size - k < size) hn
    unfold added
    by_cases hlt : a₁.length < off + k
    · rw [if_pos hlt]
      refine ⟨fun l hl => ?_, hnext.1⟩
      rcases List.mem_append.mp hl with hl | hl
      · exact hapart l hl
      · exact hnew l hl
    · rw [if_neg hlt, List.append_nil]
      exact ⟨hapart, hnext.2⟩
  have hxlen : ((a₂.drop pos).take k).length = k := by rw [← hat.front hkc, length_bytes]
  refine ⟨st', _, a', hrun, h', ⟨?_, ?_, ?_⟩, h₂.keeps hkeeps hlink.1, hlink.1,
    hlink.2, hat.keeps hkeeps hlink.1⟩
  · rw [if_neg (fun hnil => by rw [hnil] at hxlen; exact hk.ne hxlen), hxlen, hlen]
  · intro i hi
    rw [hxlen] at hi
    rw [hin i hi, ← hat.front hkc, getElem?_bytes, if_pos hi]
  · rw [hxlen]
    exact hout

/-- The loop of `buffer_memcpy`, by the number of bytes to copy. -/
theorem memcpyLoop_returns :
    ∀ size {st : State} {links₁ : List Link} {a₁ : List UInt8} {off pos : Nat} {c : Cursor},
      Represents st links₁ a₁ → Chain st b₂ links₂ a₂ → Distinct links₁ links₂ →
      Mallocs malloc (links₁ ++ links₂) size room → off + size ≤ room →
      At st links₂ a₂ pos c → (size ≠ 0 → ¬ StartsEmpty links₂ pos) →
      ∃ ret st' links' a',
        Returns (fun n => State.memcpyLoop malloc b₂ n st off c size) (ret, st') ∧
        Represents st' links' a' ∧ Chain st' b₂ links₂ a₂ ∧
        ret = (if size ≤ a₂.length - pos then 0 else -EINVAL) ∧
        Copied a₁ a' off ((a₂.drop pos).take size) := by
  intro size
  induction size using Nat.strong_induction_on with
  | _ size ih =>
      intro st links₁ a₁ off pos c h h₂ hapart hmalloc hroom hat hstart
      by_cases h0 : size = 0
      · subst h0
        refine ⟨0, st, links₁, a₁, .of_succ (.of_forall fun n => ?_), h, h₂,
          (if_pos (Nat.zero_le _)).symm, ?_⟩
        · rw [State.memcpyLoop, if_pos rfl]
        · rw [List.take_zero]
          exact .refl a₁ off
      · rcases h₂.refill hat (hstart h0) with ⟨hlt, c', hrun, hpos, hat'⟩ | ⟨hge, hrun⟩
        · set k := min c'.size size with hk
          have hle := hat'.size_le
          have hkpos : 0 < k := by omega
          obtain ⟨st', links', a', hwrite, h', hcopied, h₂', hapart', hmalloc', hat''⟩ :=
            write_piece h h₂ hapart hmalloc hat' hkpos (by omega)
              (by omega : k ≤ size) hroom
          obtain ⟨ret, st'', links'', a'', hloop, h'', h₂'', hret, hrest⟩ :=
            ih (size - k) (by omega) h' h₂' hapart' hmalloc'
              (by omega : off + k + (size - k) ≤ room)
              (hat''.advance (by omega : k ≤ c'.size)) fun _ => not_startsEmpty_add hkpos
          have hxlen : ((a₂.drop pos).take k).length = k := by
            rw [← hat'.front (by omega : k ≤ c'.size), length_bytes]
          refine ⟨ret, st'', links'', a'', .of_succ ?_, h'', h₂'',
            hret.trans (if_congr (by omega) rfl rfl), ?_⟩
          · simp only [State.memcpyLoop, if_neg h0]
            exact hrun.bind (hwrite.bind hloop)
          · have hsplit : (a₂.drop pos).take size = (a₂.drop pos).take k ++
                (a₂.drop (pos + k)).take (size - k) := by
              rw [← List.drop_drop, ← List.take_add,
                Nat.add_sub_cancel' (by omega : k ≤ size)]
            rw [hsplit]
            refine hcopied.append (fun hnil => ?_) (by rwa [hxlen])
            rw [hnil] at hxlen
            exact hkpos.ne hxlen
        · refine ⟨-EINVAL, st, links₁, a₁, .of_succ ?_, h, h₂,
            (if_neg (by omega)).symm, ?_⟩
          · simp only [State.memcpyLoop, if_neg h0]
            exact hrun.bind (.of_forall fun n => rfl)
          · rw [List.drop_eq_nil_of_le hge, List.take_nil]
            exact .refl a₁ off

end

/-! ## An empty first chunk -/

/-- There is something to be found at an offset, a byte or an empty first chunk. -/
def Found (links : List Link) (a : List UInt8) (off : Nat) : Prop :=
  off < a.length ∨ StartsEmpty links off

/-- A comparison that does not come back: both buffers have something at their offsets,
and one of them has an empty chunk there. -/
def CompareHangs (links₁ : List Link) (a₁ : List UInt8) (off₁ : Nat) (links₂ : List Link)
    (a₂ : List UInt8) (off₂ size : Nat) : Prop :=
  size ≠ 0 ∧ Found links₁ a₁ off₁ ∧ Found links₂ a₂ off₂ ∧
    (StartsEmpty links₁ off₁ ∨ StartsEmpty links₂ off₂)

/-- A copy that does not come back. -/
def CopyHangs (links₂ : List Link) (off₂ size : Nat) : Prop :=
  size ≠ 0 ∧ StartsEmpty links₂ off₂

/-- A cursor that the next refill leaves as it is: it has something, or it is at an
empty first chunk. -/
def Ready (links : List Link) (c : Cursor) : Prop :=
  c.size ≠ 0 ∨ c.size = 0 ∧ c.off = 0 ∧ StartsEmpty links 0

section

variable {memcmp : Memcmp} {st : State} {b b₁ b₂ : Buffer}
  {links links₁ links₂ : List Link}
variable {a a₁ a₂ : List UInt8} {off off₁ off₂ size : Nat}

/-- The first chunk is found at offset 0, whatever it has. -/
theorem Chain.refill_zero {l : Link} {rest : List Link} (h : Chain st b (l :: rest) a)
    (ptr fuel : Nat) :
    st.refill fuel b ⟨0, ptr, 0⟩ = .ok (some ⟨l.size, l.ptr, l.size⟩) := by
  obtain ⟨hhead, c, hc, hptr, hsize, -⟩ := h.linked
  simp only [State.refill, State.seek, if_true, hhead, State.header, hc, hptr,
    hsize, bind, Except.bind, Nat.zero_add]

theorem Chain.refill_ready (h : Chain st b links a) {c : Cursor} (hc : Ready links c)
    (fuel : Nat) :
    ∃ c', st.refill fuel b c = .ok (some c') ∧ Ready links c' ∧
      (c.size = 0 → c'.size = 0) := by
  rcases hc with hne | ⟨hsize, hoff, hempty⟩
  · exact ⟨c, if_neg hne, .inl hne, fun h0 => absurd h0 hne⟩
  · obtain ⟨-, l, rest, rfl, hl⟩ := hempty
    obtain ⟨off, ptr, size⟩ := c
    obtain rfl : off = 0 := hoff
    obtain rfl : size = 0 := hsize
    refine ⟨_, h.refill_zero ptr fuel, .inr ⟨hl, hl, rfl, l, rest, rfl, hl⟩, fun _ => hl⟩

theorem Chain.refill_start (h : Chain st b links a) (off : Nat) :
    (Found links a off ∧ ∃ c, Returns (fun n => st.refill n b (.start off)) (some c) ∧
        Ready links c ∧ (StartsEmpty links off → c.size = 0)) ∨
      (¬ Found links a off ∧ Returns (fun n => st.refill n b (.start off)) none) := by
  by_cases hempty : StartsEmpty links off
  · obtain ⟨rfl, l, rest, rfl, hl⟩ := hempty
    have hempty : StartsEmpty (l :: rest) 0 := ⟨rfl, l, rest, rfl, hl⟩
    refine .inl ⟨.inr hempty, _, .of_forall fun n => h.refill_zero 0 n, ?_, fun _ => hl⟩
    exact .inr ⟨hl, hl, hempty⟩
  · rcases h.refill (at_start off) hempty with ⟨hlt, c, hrun, hpos, -⟩ | ⟨hge, hrun⟩
    · exact .inl ⟨.inl hlt, c, hrun, .inl (Nat.ne_of_gt hpos), fun h => absurd h hempty⟩
    · refine .inr ⟨?_, hrun⟩
      rintro (hlt | h)
      · exact absurd hlt (Nat.not_lt.mpr hge)
      · exact hempty h

/-- By induction on the fuel: a round compares nothing and leaves both
cursors as they are. -/
theorem memcmpLoop_stuck (h₁ : Chain st b₁ links₁ a₁) (h₂ : Chain st b₂ links₂ a₂)
    (hsize : size ≠ 0) :
    ∀ n {c₁ c₂ : Cursor}, Ready links₁ c₁ → Ready links₂ c₂ → c₁.size = 0 ∨ c₂.size = 0 →
      State.memcmpLoop memcmp st b₁ b₂ n c₁ c₂ size = .error .outOfFuel := by
  have hnil : memcmp.call [] [] = 0 := (memcmp.eq_zero rfl).mpr rfl
  intro n
  induction n with
  | zero => exact fun _ _ _ => rfl
  | succ n ih =>
      intro c₁ c₂ hc₁ hc₂ hzero
      obtain ⟨c₁', hrun₁, hc₁', hkeep₁⟩ := h₁.refill_ready hc₁ n
      obtain ⟨c₂', hrun₂, hc₂', hkeep₂⟩ := h₂.refill_ready hc₂ n
      have hzero' : c₁'.size = 0 ∨ c₂'.size = 0 := hzero.imp hkeep₁ hkeep₂
      have hcmp : min (min c₁'.size c₂'.size) size = 0 := by omega
      simp only [State.memcmpLoop, if_neg hsize, hrun₁, hrun₂, bind, Except.bind,
        hcmp, bytes,
        List.range_zero, List.map_nil, hnil, ne_eq, not_true_eq_false, if_false,
        Cursor.advance, Nat.add_zero, Nat.sub_zero]
      exact ih hc₁' hc₂' hzero'

/-- `buffer_memcmp` does not come back from these calls. -/
theorem memcmp_hangs (memcmp : Memcmp) (h₁ : Chain st b₁ links₁ a₁)
    (h₂ : Chain st b₂ links₂ a₂)
    (hhangs : CompareHangs links₁ a₁ off₁ links₂ a₂ off₂ size) (ret : Int) :
    ¬ Returns (fun n => st.memcmp memcmp n b₁ off₁ b₂ off₂ size) ret := by
  obtain ⟨hsize, hfound₁, hfound₂, hempty⟩ := hhangs
  rcases h₁.refill_start off₁ with ⟨-, c₁, hrun₁, hc₁, hzero₁⟩ | ⟨hnot, -⟩
  · rcases h₂.refill_start off₂ with ⟨-, c₂, hrun₂, hc₂, hzero₂⟩ | ⟨hnot, -⟩
    · have hzero : c₁.size = 0 ∨ c₂.size = 0 := hempty.imp hzero₁ hzero₂
      have hcmp : min (min c₁.size c₂.size) size = 0 := by omega
      have hnil : memcmp.call [] [] = 0 := (memcmp.eq_zero rfl).mpr rfl
      refine Fails.not_returns (e := .outOfFuel) (.of_succ ?_)
      simp only [State.memcmp, State.memcmpLoop, if_neg hsize]
      refine hrun₁.bind_fails (hrun₂.bind_fails (.of_forall fun n => ?_))
      simp only [hcmp, bytes, List.range_zero, List.map_nil, hnil, ne_eq,
        not_true_eq_false, if_false, Cursor.advance, Nat.add_zero, Nat.sub_zero]
      exact memcmpLoop_stuck h₁ h₂ hsize n hc₁ hc₂ hzero
    · exact absurd hfound₂ hnot
  · exact absurd hfound₁ hnot

theorem memcmp_returns (memcmp : Memcmp) (h₁ : Chain st b₁ links₁ a₁)
    (h₂ : Chain st b₂ links₂ a₂)
    (hgoes : ¬ CompareHangs links₁ a₁ off₁ links₂ a₂ off₂ size) :
    ∃ ret, Returns (fun n => st.memcmp memcmp n b₁ off₁ b₂ off₂ size) ret ∧
      Compared memcmp a₁ off₁ a₂ off₂ size ret := by
  by_cases hempty : size ≠ 0 ∧ (StartsEmpty links₁ off₁ ∨ StartsEmpty links₂ off₂)
  · -- one of the buffers has nothing at its offset
    obtain ⟨hsize, hempty⟩ := hempty
    have hend : a₁.length ≤ off₁ ∨ a₂.length ≤ off₂ := by
      by_contra hno
      rw [not_or, Nat.not_le, Nat.not_le] at hno
      exact hgoes ⟨hsize, .inl hno.1, .inl hno.2, hempty⟩
    refine ⟨-EINVAL, .of_succ ?_, compared_end hsize hend⟩
    simp only [State.memcmp, State.memcmpLoop, if_neg hsize]
    rcases h₁.refill_start off₁ with ⟨hfound₁, c₁, hrun₁, -⟩ | ⟨-, hrun₁⟩
    · rcases h₂.refill_start off₂ with ⟨hfound₂, -⟩ | ⟨-, hrun₂⟩
      · exact absurd ⟨hsize, hfound₁, hfound₂, hempty⟩ hgoes
      · exact hrun₁.bind (hrun₂.bind (.of_forall fun n => rfl))
    · exact hrun₁.bind (.of_forall fun n => rfl)
  · exact memcmpLoop_returns h₁ h₂ size (at_start off₁) (at_start off₂)
      fun hsize => not_or.mp fun h => hempty ⟨hsize, h⟩

end

/-! ## A copy that does not come back -/

section

variable {α : Type} {st st' : State} {b₂ : Buffer} {links₂ : List Link} {a₂ : List UInt8}

/-- A chunk that the buffer of the state does not end with, and what its header is. -/
structure Aside (st : State) (chunk : Nat) (c : Chunk) : Prop where
  header : st.chunks chunk = some c
  tail : st.buffer.tail ≠ some chunk

theorem Aside.addTailChunk {chunk new size : Nat} {c : Chunk} (h : Aside st chunk c)
    (hnew : new ≠ chunk) (hrun : st.addTailChunk new size = .ok st') :
    Aside st' chunk c := by
  obtain ⟨c', -, hrun⟩ := ok_of_bind hrun
  have hother : (st.chunkDataAlloc new size).chunks chunk = some c :=
    (Function.update_of_ne hnew.symm ..).trans h.header
  split at hrun
  · cases hrun
    exact ⟨hother, fun heq => hnew (Option.some_inj.mp heq)⟩
  · next tail htail =>
      obtain ⟨t, -, hrun⟩ := ok_of_bind hrun
      cases hrun
      have htail' : tail ≠ chunk := fun heq => h.tail (htail.trans (congrArg some heq))
      exact ⟨(Function.update_of_ne htail'.symm ..).trans hother,
        fun heq => hnew (Option.some_inj.mp heq)⟩

/-- By induction on the fuel: `buffer_process` leaves such a chunk alone. -/
theorem Aside.process {create : Option Nat} {chunk : Nat} {c : Chunk}
    {func : Nat → Nat → Nat → State → α → State × α} (hcreate : create ≠ some chunk)
    (hfunc : ∀ offset size ptr st x, Aside st chunk c →
      Aside (func offset size ptr st x).1 chunk c) :
    ∀ n {toProcess offset sChunk st x r}, Aside st chunk c →
      State.process create func n toProcess offset sChunk st x = .ok r →
      Aside r.1 chunk c := by
  intro n
  induction n with
  | zero => exact fun _ hrun => nomatch hrun
  | succ n ih =>
      intro toProcess offset sChunk st x r h hrun
      unfold State.process at hrun
      split at hrun
      · cases hrun
        exact h
      · split at hrun
        · cases hrun
          exact h
        · next new =>
            obtain ⟨st₁, hadd, hrun⟩ := ok_of_bind hrun
            obtain ⟨c', -, hrun⟩ := ok_of_bind hrun
            have hnew : new ≠ chunk := fun heq => hcreate (congrArg some heq)
            exact ih (hfunc _ _ _ _ _ (h.addTailChunk hnew hadd)) hrun
        · obtain ⟨c', -, hrun⟩ := ok_of_bind hrun
          exact ih (hfunc _ _ _ _ _ h) hrun

theorem Aside.write {chunk new fuel off buf size res : Nat} {c : Chunk}
    (h : Aside st chunk c) (hnew : new ≠ chunk)
    (hrun : st.write fuel off buf size new = .ok (st', res)) : Aside st' chunk c := by
  obtain ⟨r, hprocess, hend⟩ := ok_of_bind hrun
  cases hend
  refine Aside.process (fun heq => hnew (Option.some_inj.mp heq)) ?_ fuel h hprocess
  intro offset size ptr st x hst
  unfold State.writeBody
  split
  · exact ⟨hst.header, hst.tail⟩
  · split
    · exact ⟨hst.header, hst.tail⟩
    · exact hst

/-- `buffer_memcpy` does not come back from an empty first chunk.  By induction on the
fuel: a round writes nothing, and finds the chunk again. -/
theorem memcpy_hangs {malloc : Nat → Nat} {off₁ off₂ size : Nat}
    (h₂ : Chain st b₂ links₂ a₂) (hhangs : CopyHangs links₂ off₂ size)
    (htail : ∀ l ∈ links₂, st.buffer.tail ≠ some l.chunk)
    (hmalloc : ∀ l ∈ links₂, malloc size ≠ l.chunk) (fuel : Nat) (r : Int × State) :
    st.memcpy malloc fuel off₁ b₂ off₂ size ≠ .ok r := by
  obtain ⟨hsize, rfl, l, rest, rfl, hl⟩ := hhangs
  obtain ⟨hhead, c, hc, hptr, hcsize, -⟩ := h₂.linked
  have hloop : ∀ n {st : State} {ptr}, Aside st l.chunk c →
      State.memcpyLoop malloc b₂ n st off₁ ⟨0, ptr, 0⟩ size ≠ .ok r := by
    intro n
    induction n with
    | zero => exact fun _ hrun => nomatch hrun
    | succ n ih =>
        intro st ptr haside hrun
        have hrefill : st.refill n b₂ ⟨0, ptr, 0⟩ = .ok (some ⟨0, l.ptr, 0⟩) := by
          simp only [State.refill, State.seek, if_true, hhead, State.header,
            haside.header, hptr, hcsize, hl, bind, Except.bind, Nat.zero_add]
        rw [State.memcpyLoop, if_neg hsize] at hrun
        obtain ⟨found, hfound, hrun⟩ := ok_of_bind hrun
        obtain rfl := Except.ok.inj (hrefill.symm.trans hfound)
        obtain ⟨⟨st', res⟩, hwrite, hrun⟩ := ok_of_bind hrun
        simp only [Nat.zero_min] at hrun
        exact ih (haside.write (hmalloc l List.mem_cons_self) hwrite) hrun
  exact hloop fuel ⟨hc, htail l List.mem_cons_self⟩

end

/-! ## Both on the arrays -/

/-- What a comparison of two ranges should be: 0 if and only if they are the same, and
`-EINVAL` where one of them is not in its buffer. -/
def Compares (st : State) (b₁ : Buffer) (a₁ : List UInt8) (off₁ : Nat) (b₂ : Buffer)
    (a₂ : List UInt8) (off₂ size : Nat) (memcmp : Memcmp) : Prop :=
  ∃ ret, Returns (fun n => st.memcmp memcmp n b₁ off₁ b₂ off₂ size) ret ∧
    (off₁ + size ≤ a₁.length → off₂ + size ≤ a₂.length →
      (ret = 0 ↔ (a₁.drop off₁).take size = (a₂.drop off₂).take size)) ∧
    (a₁.length < off₁ + size ∨ a₂.length < off₂ + size → ret = -EINVAL)

/-- What a copy of a range should be: the range put over the array, and `-EINVAL` where
it is not in the source. -/
def Copies (st : State) (a₁ : List UInt8) (off₁ : Nat) (b₂ : Buffer) (links₂ : List Link)
    (a₂ : List UInt8) (off₂ size : Nat) (malloc : Nat → Nat) : Prop :=
  ∃ ret st' links' a',
    Returns (fun n => st.memcpy malloc n off₁ b₂ off₂ size) (ret, st') ∧
    Represents st' links' a' ∧ Chain st' b₂ links₂ a₂ ∧
    (off₂ + size ≤ a₂.length → ret = 0 ∧ Copied a₁ a' off₁ ((a₂.drop off₂).take size)) ∧
    (a₂.length < off₂ + size → ret = -EINVAL)

/-- A `memcmp` that says only whether there is a difference. -/
def differs : Memcmp := ⟨fun x y => if x = y then 0 else 1, fun _ => by simp⟩

section

variable {st : State} {b₁ b₂ : Buffer} {links₁ links₂ : List Link} {a₁ a₂ : List UInt8}
variable {off₁ off₂ size : Nat}

theorem memcmp_flat_iff (h₁ : Chain st b₁ links₁ a₁) (h₂ : Chain st b₂ links₂ a₂) :
    (∀ memcmp, Compares st b₁ a₁ off₁ b₂ a₂ off₂ size memcmp) ↔
      ¬ CompareHangs links₁ a₁ off₁ links₂ a₂ off₂ size ∧
        (off₁ + size ≤ a₁.length ∧ off₂ + size ≤ a₂.length ∨
          size ≠ 0 ∧ Agree a₁ off₁ a₂ off₂ (common a₁ off₁ a₂ off₂ size)) := by
  have hcommon : off₁ + size ≤ a₁.length → off₂ + size ≤ a₂.length →
      common a₁ off₁ a₂ off₂ size = size := by
    unfold common
    omega
  constructor
  · intro h
    obtain ⟨ret, hrun, -, hout⟩ := h differs
    have hgoes : ¬ CompareHangs links₁ a₁ off₁ links₂ a₂ off₂ size :=
      fun hhangs => memcmp_hangs differs h₁ h₂ hhangs ret hrun
    obtain ⟨ret', hrun', hcompared⟩ := memcmp_returns differs h₁ h₂ hgoes
    obtain rfl := hrun.unique hrun'
    refine ⟨hgoes, or_iff_not_imp_left.mpr fun hnot => ?_⟩
    have hret := hout (by omega)
    -- this `memcmp` never says `-EINVAL`
    have hagree : Agree a₁ off₁ a₂ off₂ (common a₁ off₁ a₂ off₂ size) := by
      by_contra hno
      obtain ⟨-, i, n, -, -, hcall⟩ := hcompared.differ hno
      rw [hret] at hcall
      unfold differs at hcall
      simp only at hcall
      split at hcall
      · cases hcall
      · cases hcall
    refine ⟨?_, hagree⟩
    rintro rfl
    have hzero := hcompared.agree hagree
    rw [common, Nat.zero_min, if_pos rfl, hret] at hzero
    cases hzero
  · rintro ⟨hgoes, hfits⟩ memcmp
    obtain ⟨ret, hrun, hcompared⟩ := memcmp_returns memcmp h₁ h₂ hgoes
    refine ⟨ret, hrun, fun hin₁ hin₂ => ?_, fun hout => ?_⟩
    · obtain ⟨hagree, hdiffer⟩ := hcompared
      rw [hcommon hin₁ hin₂] at hagree hdiffer
      rw [if_pos rfl] at hagree
      exact ⟨fun hret => by_contra fun hno => (hdiffer hno).1 hret, hagree⟩
    · obtain ⟨hsize, hagree⟩ := hfits.resolve_left (by omega)
      have hshort : common a₁ off₁ a₂ off₂ size ≠ size := by
        unfold common
        omega
      rw [hcompared.agree hagree, if_neg hshort]

theorem memcpy_flat_iff {malloc : Nat → Nat} (h₁ : Represents st links₁ a₁)
    (h₂ : Chain st b₂ links₂ a₂) (hapart : Distinct links₁ links₂)
    (hmalloc : Mallocs malloc (links₁ ++ links₂) size (off₁ + size)) :
    Copies st a₁ off₁ b₂ links₂ a₂ off₂ size malloc ↔
      ¬ CopyHangs links₂ off₂ size ∧ (off₂ + size ≤ a₂.length ∨ size ≠ 0) := by
  have hreturns : ¬ CopyHangs links₂ off₂ size → ∃ ret st' links' a',
      Returns (fun n => st.memcpy malloc n off₁ b₂ off₂ size) (ret, st') ∧
      Represents st' links' a' ∧ Chain st' b₂ links₂ a₂ ∧
      ret = (if size ≤ a₂.length - off₂ then 0 else -EINVAL) ∧
      Copied a₁ a' off₁ ((a₂.drop off₂).take size) := fun hgoes =>
    memcpyLoop_returns size h₁ h₂ hapart hmalloc le_rfl (at_start off₂)
      fun hsize hempty => hgoes ⟨hsize, hempty⟩
  constructor
  · rintro ⟨ret, st', links', a', hrun, -, -, -, hout⟩
    have hgoes : ¬ CopyHangs links₂ off₂ size := by
      intro hhangs
      obtain ⟨N, hN⟩ := hrun
      refine memcpy_hangs h₂ hhangs (fun l hl htail => ?_) (fun l hl heq => ?_) N _
        (hN N le_rfl)
      · obtain ⟨l', hlast, heq⟩ := Option.map_eq_some_iff.mp (h₁.tail ▸ htail)
        exact (hapart l' (List.mem_of_getLast? hlast) l hl).1 heq
      · exact (hmalloc.fresh size le_rfl l (List.mem_append_right _ hl)).1 heq.symm
    obtain ⟨ret', st'', links'', a'', hrun', -, -, hret, -⟩ := hreturns hgoes
    obtain ⟨rfl, -⟩ := Prod.mk.inj (hrun.unique hrun')
    refine ⟨hgoes, or_iff_not_imp_right.mpr fun hsize => ?_⟩
    by_contra hno
    rw [hout (Nat.not_le.mp hno), if_pos (by omega)] at hret
    cases hret
  · rintro ⟨hgoes, hfits⟩
    obtain ⟨ret, st', links', a', hrun, h', h₂', hret, hcopied⟩ := hreturns hgoes
    refine ⟨ret, st', links', a', hrun, h', h₂', fun hin => ⟨?_, hcopied⟩, fun hout => ?_⟩
    · rw [hret, if_pos (by omega)]
    · rw [hret, if_neg (by omega)]

end

/-- **Compare and copy** of chunked buffers on the arrays, for all layouts, offsets and
sizes.  A comparison is what it should be, whatever `memcmp` says of a difference, if
and only if it comes back and both ranges are in the buffers, or the buffers are the
same as far as they go; a copy, if and only if it comes back and its range is in the
source, or has a byte. -/
theorem memcmp_memcpy_flat (st : State) {b₂ : Buffer} {links₂ : List Link}
    {a₂ : List UInt8} (h₂ : Chain st b₂ links₂ a₂) (off₁ off₂ size : Nat) :
    (∀ b₁ links₁ a₁, Chain st b₁ links₁ a₁ →
      ((∀ memcmp, Compares st b₁ a₁ off₁ b₂ a₂ off₂ size memcmp) ↔
        ¬ CompareHangs links₁ a₁ off₁ links₂ a₂ off₂ size ∧
          (off₁ + size ≤ a₁.length ∧ off₂ + size ≤ a₂.length ∨
            size ≠ 0 ∧ Agree a₁ off₁ a₂ off₂ (common a₁ off₁ a₂ off₂ size)))) ∧
      (∀ malloc links₁ a₁, Represents st links₁ a₁ → Distinct links₁ links₂ →
        Mallocs malloc (links₁ ++ links₂) size (off₁ + size) →
        (Copies st a₁ off₁ b₂ links₂ a₂ off₂ size malloc ↔
          ¬ CopyHangs links₂ off₂ size ∧ (off₂ + size ≤ a₂.length ∨ size ≠ 0))) :=
  ⟨fun _ _ _ h₁ => memcmp_flat_iff h₁ h₂, fun _ _ _ h₁ hapart hmalloc =>
    memcpy_flat_iff h₁ h₂ hapart hmalloc⟩

/-- The difference of the first bytes that are not the same. -/
def difference : List UInt8 → List UInt8 → Int
  | x :: xs, y :: ys => if x = y then difference xs ys else (x.toNat : Int) - y.toNat
  | _, _ => 0

theorem difference_eq_zero : ∀ {x y : List UInt8}, x.length = y.length →
    (difference x y = 0 ↔ x = y)
  | [], [], _ => by simp [difference]
  | x :: xs, y :: ys, h => by
      have ih := difference_eq_zero (Nat.succ.inj h)
      by_cases hxy : x = y
      · rw [difference, if_pos hxy, ih, List.cons.injEq, and_iff_right hxy]
      · have hne : x.toNat ≠ y.toNat := fun heq => hxy (UInt8.toNat_inj.mp heq)
        rw [difference, if_neg hxy, List.cons.injEq]
        exact iff_of_false (by omega) fun h => hxy h.1

/-- `memcmp` by differences. -/
def byDifference : Memcmp := ⟨difference, difference_eq_zero⟩

/-- An empty chunk before one of two bytes, and another of two bytes; every
byte is its address. -/
def threeChunks : State where
  chunks h := if h = 10 then some ⟨.allocated, 0, some 20, 0⟩
    else if h = 20 then some ⟨.allocated, 2, none, 0⟩
    else if h = 40 then some ⟨.allocated, 2, none, 0⟩
    else none
  mem := UInt8.ofNat
  buffer := ⟨2, some 20, some 20⟩

/-- Comparing a byte behind an empty first chunk does not come back; and three bytes of
buffers of two are not refused, when the first byte is not the same. -/
theorem memcmp_empty_first_chunk :
    (¬ ∃ ret, Returns (fun n => threeChunks.memcmp byDifference n ⟨2, some 10, some 20⟩ 0
        ⟨2, some 40, some 40⟩ 0 1) ret) ∧
      Returns (fun n => threeChunks.memcmp byDifference n ⟨2, some 20, some 20⟩ 0
        ⟨2, some 40, some 40⟩ 0 3) (-20) := by
  have h₁ : Chain threeChunks ⟨2, some 10, some 20⟩ [⟨10, 10, 0⟩, ⟨20, 20, 2⟩] [20, 21] :=
    ⟨⟨rfl, _, rfl, rfl, rfl, rfl, _, rfl, rfl, rfl, rfl⟩, rfl, rfl⟩
  have h₂ : Chain threeChunks ⟨2, some 40, some 40⟩ [⟨40, 40, 2⟩] [40, 41] :=
    ⟨⟨rfl, _, rfl, rfl, rfl, rfl⟩, rfl, rfl⟩
  have hempty : StartsEmpty [⟨10, 10, 0⟩, ⟨20, 20, 2⟩] 0 := ⟨rfl, _, _, rfl, rfl⟩
  have hhangs : CompareHangs [⟨10, 10, 0⟩, ⟨20, 20, 2⟩] [20, 21] 0 [⟨40, 40, 2⟩]
      [40, 41] 0 1 :=
    ⟨by decide, .inr hempty, .inl (by decide), .inl hempty⟩
  exact ⟨fun ⟨ret, hrun⟩ => memcmp_hangs byDifference h₁ h₂ hhangs ret hrun,
    .of_succ (.of_forall fun n => rfl)⟩

/-- Two bytes compared with two others, and copied over them. -/
theorem memcmp_memcpy_flat_threeChunks :
    (∃ ret, Returns (fun n => threeChunks.memcmp byDifference n ⟨2, some 20, some 20⟩ 0
          ⟨2, some 40, some 40⟩ 0 2) ret ∧
        (ret = 0 ↔ ([20, 21] : List UInt8) = [40, 41])) ∧
      ∃ st' links' a', Returns (fun n => threeChunks.memcpy (1000 + 2 * ·) n 0
          ⟨2, some 40, some 40⟩ 0 2) (0, st') ∧
        Represents st' links' a' ∧ Copied [20, 21] a' 0 [40, 41] := by
  have h₁ : Represents threeChunks [⟨20, 20, 2⟩] [20, 21] :=
    ⟨⟨rfl, _, rfl, rfl, rfl, rfl⟩, rfl, by simp, rfl, List.pairwise_singleton .., rfl⟩
  have h₂ : Chain threeChunks ⟨2, some 40, some 40⟩ [⟨40, 40, 2⟩] [40, 41] :=
    ⟨⟨rfl, _, rfl, rfl, rfl, rfl⟩, rfl, rfl⟩
  have hstart₁ : ¬ StartsEmpty [⟨20, 20, 2⟩] 0 := by simp [StartsEmpty]
  have hstart₂ : ¬ StartsEmpty [⟨40, 40, 2⟩] 0 := by simp [StartsEmpty]
  have hapart : Distinct [⟨20, 20, 2⟩] [⟨40, 40, 2⟩] := by
    simp only [Distinct, List.mem_singleton, forall_eq, Link.Apart, Apart]
    exact ⟨by decide, fun x => by omega⟩
  have hmalloc : Mallocs (1000 + 2 * ·) ([⟨20, 20, 2⟩] ++ [⟨40, 40, 2⟩]) 2 (0 + 2) := by
    refine ⟨fun k hk l hl => ?_,
      fun j k hjk hk => ⟨by simp only; omega, fun x => by simp only; omega⟩⟩
    simp only [List.cons_append, List.nil_append, List.mem_cons, List.not_mem_nil,
      or_false] at hl
    rcases hl with rfl | rfl
    · exact ⟨by simp only; omega, fun x => by simp only; omega⟩
    · exact ⟨by simp only; omega, fun x => by simp only; omega⟩
  obtain ⟨hcmp, hcpy⟩ := memcmp_memcpy_flat threeChunks h₂ 0 0 2
  obtain ⟨ret, hrun, hin, -⟩ := (hcmp ⟨2, some 20, some 20⟩ _ _ h₁.chain).mpr
    ⟨fun h => h.2.2.2.elim hstart₁ hstart₂, .inl ⟨by decide, by decide⟩⟩ byDifference
  obtain ⟨ret', st', links', a', hrun', h', -, hfits, -⟩ :=
    (hcpy _ _ _ h₁ hapart hmalloc).mpr ⟨fun h => hstart₂ h.2, .inl (by decide)⟩
  obtain ⟨rfl, hcopied⟩ := hfits (by decide)
  exact ⟨⟨ret, hrun, hin (by decide) (by decide)⟩, st', links', a', hrun', h', hcopied⟩

end Frozen.Chunked
