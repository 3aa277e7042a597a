/-
# `Frozen.Binary.Buffer` — buffers, sliders and the binary form of single values

A `data_t` is a type and a pointer.  The conversions modelled here are those of the
integer types, of `raw_t` and of `string_t`, in `FORMAT(binary)`; they read and write
a buffer through a `slider_t`, a cursor that moves on by what each access transfers.

Three habits of the source decide everything above this module and are kept as they
are:

  * a transfer is CLIPPED to the end of the buffer and still answers `0`; only a
    transfer of no bytes at all answers `-1`;
  * the slider compares its answer with zero as a `size_t`, so it moves on even when
    the access failed;
  * `raw_t` puts its bytes at offset `8` of the request, on top of the eight bytes the
    slider has already moved: only a FROZEN slider undoes the second count.

The caller's buffer is an object of the program, so its length is at most
`PTRDIFF_MAX`; fresh memory holds whatever `fresh` says.
-/
import Frozen.Core.Base
import Frozen.Lib.Bytes
import Mathlib.Data.List.TakeWhile

namespace Frozen.Binary

open Lib

/-! ## Memory -/

def ENOMEM : Int := 12
def ENOSPC : Int := 28

/-- `PTRDIFF_MAX`: no object is larger, and `malloc` refuses to make one. -/
def maxObject : Nat := 2 ^ 63 - 1

/-- Copying `d` over the first bytes of `mem`. -/
def overlay (d mem : List UInt8) : List UInt8 := d ++ mem.drop d.length

/-- The first `n` bytes of fresh memory. -/
def blank (fresh : Nat → UInt8) (n : Nat) : List UInt8 := (List.range n).map fresh

@[simp] theorem length_blank (fresh : Nat → UInt8) (n : Nat) :
    (blank fresh n).length = n := by
  simp [blank]

theorem overlay_of_length {d mem : List UInt8} (h : d.length = mem.length) :
    overlay d mem = d := by
  rw [overlay, h, List.drop_length, List.append_nil]

/-! ## Reading and writing a buffer -/

/-- `data_default_read`: the answer, the bytes copied, and `buffer_size` as the call
leaves it. -/
def defaultRead (buf : List UInt8) (offset size : Nat) : Int × List UInt8 × Nat :=
  if buf.length = 0 then (-1, [], size)
  else if buf.length < offset then (-EINVAL, [], size)
  else
    let n := min size (buf.length - offset)
    if n = 0 then (-1, [], 0) else (0, (buf.drop offset).take n, n)

/-- `data_default_write`: the answer, the buffer, and `buffer_size` as the call leaves
it.  `src` is what the request points to, `none` for NULL. -/
def defaultWrite (buf : List UInt8) (offset size : Nat) (src : Option (List UInt8)) :
    Int × List UInt8 × Nat :=
  if buf.length = 0 then (-1, buf, size)
  else
    match src with
    | none => (-EINVAL, buf, size)
    | some d =>
        if buf.length < offset then (-EINVAL, buf, size)
        else
          let n := min size (buf.length - offset)
          if n = 0 then (-1, buf, 0)
          else (0, buf.take offset ++ d.take n ++ buf.drop (offset + n), n)

/-- `slider_t`, without its pointer to the buffer; `frozenOff = none` is `~0`. -/
structure Slider where
  off : Nat
  frozenOff : Option Nat := none
deriving DecidableEq, Repr

namespace Slider

/-- `data_slider_t_freeze`. -/
def freeze (sl : Slider) : Slider := { sl with frozenOff := some sl.off }

/-- `data_slider_t_unfreeze`. -/
def unfreeze (sl : Slider) : Slider := { sl with frozenOff := none }

/-- What the handler adds to the offset of a request. -/
def start (sl : Slider) : Nat := sl.frozenOff.getD sl.off

/-- `ACTION_READ` of `data_slider_t_handler`. -/
def read (sl : Slider) (buf : List UInt8) (offset size : Nat) :
    Int × List UInt8 × Slider :=
  let (ret, d, n) := defaultRead buf (offset + sl.start) size
  (ret, d, { sl with off := sl.off + n })

/-- `ACTION_WRITE` of `data_slider_t_handler`. -/
def write (sl : Slider) (buf : List UInt8) (offset size : Nat)
    (src : Option (List UInt8)) : Int × List UInt8 × Slider :=
  let (ret, buf', n) := defaultWrite buf (offset + sl.start) size src
  (ret, buf', { sl with off := sl.off + n })

end Slider

/-! ## Types and values -/

/-- The integer types: one source file, instantiated for each. -/
inductive IntType where
  | int8 | int16 | int32 | int64 | uint8 | uint16 | uint32 | uint64
  | size | off | uint | int
deriving DecidableEq, Repr

/-- `sizeof(TYPE)`. -/
def IntType.bytes : IntType → Nat
  | .int8 | .uint8 => 1
  | .int16 | .uint16 => 2
  | .int32 | .uint32 => 4
  | .int64 | .uint64 | .size | .off | .uint | .int => 8

theorem IntType.bytes_pos (t : IntType) : 0 < t.bytes := by
  cases t <;> decide

theorem IntType.bytes_le (t : IntType) : t.bytes ≤ 8 := by
  cases t <;> decide

inductive DataType where
  | int (t : IntType)
  | string
  | raw
deriving DecidableEq, Repr

/-- `TYPE_…`, as the build files number the types. -/
def DataType.id : DataType → UInt64
  | .int .int8 => 4
  | .int .int16 => 5
  | .int .int32 => 6
  | .int .int64 => 7
  | .int .uint8 => 8
  | .int .uint16 => 9
  | .int .uint32 => 10
  | .int .uint64 => 11
  | .int .size => 12
  | .int .off => 13
  | .int .uint => 14
  | .int .int => 15
  | .string => 16
  | .raw => 19

/-- The type a number stands for, among those modelled. -/
def DataType.ofId (n : UInt64) : Option DataType :=
  [.int .int8, .int .int16, .int .int32, .int .int64, .int .uint8, .int .uint16,
    .int .uint32,
    .int .uint64, .int .size, .int .off, .int .uint, .int .int, .string, .raw].find?
      (fun t => t.id = n)

@[simp] theorem DataType.ofId_id (t : DataType) : DataType.ofId t.id = some t := by
  rcases t with t | _ | _
  · cases t <;> decide
  · decide
  · decide

/-- The memory a `char *` points to; it holds a terminating zero. -/
structure Chars where
  mem : List UInt8
  terminated : 0 ∈ mem

/-- A text ends at its first zero. -/
theorem exists_eq_takeWhile_append {m : List UInt8} (h : 0 ∈ m) :
    ∃ rest, m = m.takeWhile (· ≠ 0) ++ 0 :: rest := by
  induction m with
  | nil => cases h
  | cons b m ih =>
      by_cases hb : b = 0
      · subst hb
        exact ⟨m, by simp⟩
      · obtain ⟨rest, hrest⟩ := ih ((List.mem_cons.mp h).resolve_left (Ne.symm hb))
        refine ⟨rest, ?_⟩
        rw [List.takeWhile_cons_of_pos (by simpa using hb), List.cons_append, ← hrest]

theorem takeWhile_append_zero {s rest : List UInt8} (h : 0 ∉ s) :
    (s ++ 0 :: rest).takeWhile (· ≠ 0) = s := by
  rw [List.takeWhile_append_of_pos, List.takeWhile_cons_of_neg (by simp), List.append_nil]
  intro b hb
  simp only [ne_eq, decide_eq_true_eq]
  intro h0
  exact h (h0 ▸ hb)

namespace Chars

/-- The characters before the first zero. -/
def text (c : Chars) : List UInt8 := c.mem.takeWhile (· ≠ 0)

def strlen (c : Chars) : Nat := c.text.length

theorem exists_mem_eq (c : Chars) : ∃ rest, c.mem = c.text ++ 0 :: rest :=
  exists_eq_takeWhile_append c.terminated

theorem zero_notMem_text (c : Chars) : 0 ∉ c.text := by
  intro h
  simpa using List.mem_takeWhile_imp h

/-- Reading at most `strlen` bytes into the memory leaves its last zero. -/
def store (c : Chars) (d : List UInt8) (h : d.length ≤ c.strlen) : Chars where
  mem := overlay d c.mem
  terminated := by
    obtain ⟨rest, hrest⟩ := c.exists_mem_eq
    rw [overlay, hrest, List.drop_append_of_le_length h]
    simp

end Chars

/-- `raw_t`: the size, and the bytes unless the pointer is NULL. -/
inductive Raw where
  | null (size : Nat)
  | mem (bytes : List UInt8)

def Raw.size : Raw → Nat
  | .null size => size
  | .mem bytes => bytes.length

def Raw.ptr : Raw → Option (List UInt8)
  | .null _ => none
  | .mem bytes => some bytes

/-- `data_t`: the type, and what the pointer points to (`none` for NULL). -/
inductive Data where
  | int (t : IntType) (ptr : Option (BitVec (8 * t.bytes)))
  | string (ptr : Option Chars)
  | raw (ptr : Option Raw)

def Data.type : Data → DataType
  | .int t _ => .int t
  | .string _ => .string
  | .raw _ => .raw

/-- A `data_t` of this type with no data. -/
def DataType.null : DataType → Data
  | .int t => .int t none
  | .string => .string none
  | .raw => .raw none

/-- A C string as a value: characters other than zero. -/
@[ext] structure Text where
  chars : List UInt8
  clean : 0 ∉ chars
deriving DecidableEq

/-- `"a"`, in the examples. -/
theorem clean_a : (0 : UInt8) ∉ [97] := by
  decide

/-- What a user of the library sees of a `data_t`. -/
inductive Value where
  | int (t : IntType) (v : BitVec (8 * t.bytes))
  | string (s : Text)
  | raw (bytes : List UInt8)
deriving DecidableEq

def Data.value : Data → Option Value
  | .int t (some v) => some (.int t v)
  | .string (some c) => some (.string ⟨c.text, c.zero_notMem_text⟩)
  | .raw (some (.mem bytes)) => some (.raw bytes)
  | _ => none

/-- A value in memory of its own. -/
def Value.data : Value → Data
  | .int t v => .int t (some v)
  | .string s => .string (some ⟨s.chars ++ [0], by simp⟩)
  | .raw bytes => .raw (some (.mem bytes))

@[simp] theorem Value.value_data (v : Value) : v.data.value = some v := by
  cases v with
  | int t v => rfl
  | string s =>
      have htext : (s.chars ++ [0]).takeWhile (· ≠ 0) = s.chars :=
        takeWhile_append_zero s.clean
      simp only [Value.data, Data.value, Chars.text, htext]
  | raw bytes => rfl

/-! ## `ACTION_CONVERT_TO` -/

def intConvertTo (t : IntType) (ptr : Option (BitVec (8 * t.bytes))) (sl : Slider)
    (buf : List UInt8) : Int × List UInt8 × Slider :=
  sl.write buf 0 t.bytes (ptr.map fun v => leBytes t.bytes v.toNat)

def stringConvertTo (ptr : Option Chars) (sl : Slider) (buf : List UInt8) :
    Int × List UInt8 × Slider :=
  match ptr with
  | none => (-EINVAL, buf, sl)
  | some c => sl.write buf 0 (c.strlen + 1) (some (c.mem.take (c.strlen + 1)))

def rawConvertTo (ptr : Option Raw) (sl : Slider) (buf : List UInt8) :
    Int × List UInt8 × Slider :=
  match ptr with
  | none => (-EINVAL, buf, sl)
  | some r =>
      let (ret, buf1, sl1) := sl.write buf 0 8 (some (leBytes 8 r.size))
      if ret < 0 then (ret, buf1, sl1) else sl1.write buf1 8 r.size r.ptr

/-- `data_query(data, ACTION_CONVERT_TO)` with a slider as the destination. -/
def Data.convertTo : Data → Slider → List UInt8 → Int × List UInt8 × Slider
  | .int t ptr => intConvertTo t ptr
  | .string ptr => stringConvertTo ptr
  | .raw ptr => rawConvertTo ptr

/-! ## `ACTION_CONVERT_FROM` -/

theorem length_defaultRead_le (buf : List UInt8) (offset size : Nat) :
    (defaultRead buf offset size).2.1.length ≤ size := by
  unfold defaultRead
  split
  · simp
  · split
    · simp
    · simp only
      split
      · simp
      · simp only [List.length_take]
        omega

section

variable (fresh : Nat → UInt8)

/-- The local buffer is filled with zeros, so a clipped read gives a small number. -/
def intConvertFrom (t : IntType) (ptr : Option (BitVec (8 * t.bytes))) (sl : Slider)
    (buf : List UInt8) : Int × Data × Slider :=
  let v := ptr.getD (BitVec.ofNat _ (leNat (blank fresh t.bytes)))
  let (ret, d, sl') := sl.read buf 0 t.bytes
  if ret ≠ 0 then (-EFAULT, .int t (some v), sl')
  else (0, .int t (some (BitVec.ofNat _ (leNat d))), sl')

/-- An existing string is filled up to its own length; without one, memory as long as
the whole buffer is allocated. -/
def stringConvertFrom (ptr : Option Chars) (sl : Slider) (buf : List UInt8) :
    Int × Data × Slider :=
  match ptr with
  | some c =>
      let r := sl.read buf 0 c.strlen
      if r.1 < -1 then (r.1, .string (some c), r.2.2)
      else (0, .string (some (c.store r.2.1 (length_defaultRead_le _ _ _))), r.2.2)
  | none =>
      if buf.length = 0 then (-EINVAL, .string none, sl)
      else if maxObject < buf.length then (-ENOMEM, .string none, sl)
      else
        let r := sl.read buf 0 (buf.length - 1)
        let c : Chars := ⟨blank fresh (buf.length - 1) ++ [0], by simp⟩
        if r.1 < -1 then (r.1, .string (some c), r.2.2)
        else (0, .string
          (some ⟨overlay r.2.1 (blank fresh (buf.length - 1)) ++ [0], by simp⟩), r.2.2)

/-- The read into the data itself, `size` bytes for a `raw_t` of that size. -/
def rawReadData (bytes : List UInt8) (sl : Slider) (buf : List UInt8) :
    Int × Data × Slider :=
  let (ret, d, sl') := sl.read buf 8 bytes.length
  if ret < 0 then (ret, .raw (some (.mem bytes)), sl')
  else (0, .raw (some (.mem (overlay d bytes))), sl')

def rawConvertFrom (ptr : Option Raw) (sl : Slider) (buf : List UInt8) :
    Int × Data × Slider :=
  let (ret, d, sl1) := sl.read buf 0 8
  if ret < 0 then (ret, .raw ptr, sl1)
  else
    let size := leNat (overlay d (blank fresh 8))
    match ptr with
    | some (.mem bytes) =>
        if bytes.length < size then (-ENOSPC, .raw ptr, sl1)
        else rawReadData bytes sl1 buf
    | _ =>
        if maxObject < size then (-ENOMEM, .raw ptr, sl1)
        else rawReadData (blank fresh size) sl1 buf

/-- `data_query(data, ACTION_CONVERT_FROM)` with a slider as the source. -/
def Data.convertFrom : Data → Slider → List UInt8 → Int × Data × Slider
  | .int t ptr => intConvertFrom fresh t ptr
  | .string ptr => stringConvertFrom fresh ptr
  | .raw ptr => rawConvertFrom fresh ptr

end

/-! ## What a value writes -/

/-- The bytes a value moves the slider on by. -/
def Value.len : Value → Nat
  | .int t _ => t.bytes
  | .string s => s.chars.length + 1
  | .raw bytes => 8 + bytes.length

/-- A `raw_t` with no bytes cannot be written: its transfer is empty. -/
def Value.Solid : Value → Prop
  | .raw bytes => bytes ≠ []
  | _ => True

instance (v : Value) : Decidable v.Solid := by
  cases v <;> unfold Value.Solid <;> infer_instance

/-- How far behind its start a slider puts the bytes of a `raw_t`. -/
def Slider.gap (sl : Slider) : Nat := if sl.frozenOff = none then 16 else 8

/-- The writes of `ACTION_CONVERT_TO`. -/
def Value.writes (sl : Slider) : Value → List (Nat × List UInt8)
  | .int t v => [(sl.start, leBytes t.bytes v.toNat)]
  | .string s => [(sl.start, s.chars ++ [0])]
  | .raw bytes => [(sl.start, leBytes 8 bytes.length), (sl.start + sl.gap, bytes)]

theorem defaultWrite_fits {buf d : List UInt8} {offset size : Nat}
    (hsize : d.length = size) (hpos : 0 < size) (h : offset + size ≤ buf.length) :
    defaultWrite buf offset size (some d) = (0, patch buf (offset, d), size) := by
  subst hsize
  have hmin : min d.length (buf.length - offset) = d.length := by omega
  simp only [defaultWrite, hmin, List.take_length, patch]
  rw [if_neg (by omega), if_neg (by omega), if_neg (by omega)]

theorem defaultRead_fits {buf : List UInt8} {offset size : Nat} (hpos : 0 < size)
    (h : offset + size ≤ buf.length) :
    defaultRead buf offset size = (0, (buf.drop offset).take size, size) := by
  have hmin : min size (buf.length - offset) = size := by omega
  simp only [defaultRead, hmin]
  rw [if_neg (by omega), if_neg (by omega), if_neg (by omega)]

theorem Slider.write_fits {sl : Slider} {buf d : List UInt8} {offset size : Nat}
    (hsize : d.length = size) (hpos : 0 < size)
    (h : offset + sl.start + size ≤ buf.length) : sl.write buf offset size (some d)
      = (0, patch buf (offset + sl.start, d), { sl with off := sl.off + size }) := by
  simp only [Slider.write, defaultWrite_fits hsize hpos h]

/-- The same for a request at its front, the only other offset in use. -/
theorem Slider.write_front {sl : Slider} {buf d : List UInt8} {size : Nat}
    (hsize : d.length = size) (hpos : 0 < size) (h : sl.start + size ≤ buf.length) :
    sl.write buf 0 size (some d)
      = (0, patch buf (sl.start, d), { sl with off := sl.off + size }) := by
  have hwrite := Slider.write_fits hsize hpos (by rw [Nat.zero_add]; exact h)
  rw [Nat.zero_add] at hwrite
  exact hwrite

theorem Slider.read_fits {sl : Slider} {buf : List UInt8} {offset size : Nat}
    (hpos : 0 < size) (h : offset + sl.start + size ≤ buf.length) :
    sl.read buf offset size
      = (0, (buf.drop (offset + sl.start)).take size,
        { sl with off := sl.off + size }) := by
  simp only [Slider.read, defaultRead_fits hpos h]

theorem Slider.read_front {sl : Slider} {buf : List UInt8} {size : Nat} (hpos : 0 < size)
    (h : sl.start + size ≤ buf.length) :
    sl.read buf 0 size
      = (0, (buf.drop sl.start).take size, { sl with off := sl.off + size }) := by
  have hread := Slider.read_fits hpos (by rw [Nat.zero_add]; exact h)
  rw [Nat.zero_add] at hread
  exact hread

/-- Where the second access of a `raw_t` goes. -/
theorem Slider.start_advance (sl : Slider) :
    8 + ({ sl with off := sl.off + 8 } : Slider).start = sl.start + sl.gap := by
  unfold Slider.start Slider.gap
  cases sl.frozenOff with
  | none => simp; omega
  | some n => simp; omega

/-- **Writing a value.**  In a buffer that has room for its writes a solid value is
written, and the slider moves on by its length. -/
theorem Value.convertTo_data {v : Value} {sl : Slider} {buf : List UInt8} (hv : v.Solid)
    (hroom : Within buf.length (v.writes sl)) :
    v.data.convertTo sl buf
      = (0, patchAll buf (v.writes sl), { sl with off := sl.off + v.len }) := by
  cases v with
  | int t v =>
      have hw := hroom _ (List.mem_singleton_self _)
      rw [length_leBytes] at hw
      exact Slider.write_front (length_leBytes t.bytes v.toNat) t.bytes_pos hw
  | string s =>
      have hw := hroom _ (List.mem_singleton_self _)
      have htext : (s.chars ++ [0]).takeWhile (· ≠ 0) = s.chars :=
        takeWhile_append_zero s.clean
      simp only [Value.data, Data.convertTo, stringConvertTo, Chars.strlen,
        Chars.text, htext]
      have hlen : (s.chars ++ [0]).length = s.chars.length + 1 := by simp
      rw [List.take_of_length_le (le_of_eq hlen)]
      rw [hlen] at hw
      rw [Slider.write_front hlen (by omega) hw]
      rfl
  | raw bytes =>
      have hpos : 0 < bytes.length := List.length_pos_iff.mpr hv
      have hw1 := hroom (sl.start, leBytes 8 bytes.length) (by simp [Value.writes])
      have hw2 := hroom (sl.start + sl.gap, bytes) (by simp [Value.writes])
      rw [length_leBytes] at hw1
      have hlen1 : (patch buf (sl.start, leBytes 8 bytes.length)).length = buf.length :=
        length_patch (by rw [length_leBytes]; exact hw1)
      have hadv := sl.start_advance
      have hsize := Slider.write_front (length_leBytes 8 bytes.length) (by omega) hw1
      have hdata := Slider.write_fits (d := bytes) rfl hpos
        (by rw [hlen1, hadv]; exact hw2)
      simp only [Value.data, Data.convertTo, rawConvertTo, Raw.size, Raw.ptr, hsize,
        lt_self_iff_false, if_false, hdata, hadv]
      simp only [Value.writes, patchAll_cons, patchAll_nil, Value.len, Nat.add_assoc]

/-- Everything a value wrote is still there. -/
def Value.StoredAt (v : Value) (sl : Slider) (buf : List UInt8) : Prop :=
  ∀ w ∈ v.writes sl, ReadsBack buf w

theorem Slider.eight_le_gap (sl : Slider) : 8 ≤ sl.gap := by
  unfold Slider.gap
  split <;> omega

theorem Value.storedAt_patchAll {v : Value} {sl : Slider} {buf : List UInt8}
    (hroom : Within buf.length (v.writes sl)) :
    v.StoredAt sl (patchAll buf (v.writes sl)) := by
  intro w hw
  cases v with
  | int t v =>
      obtain rfl := List.mem_singleton.mp hw
      exact readsBack_patch (hroom _ hw)
  | string s =>
      obtain rfl := List.mem_singleton.mp hw
      exact readsBack_patch (hroom _ hw)
  | raw bytes =>
      obtain ⟨hw1, hroom'⟩ := List.forall_mem_cons.mp hroom
      obtain ⟨hw2, -⟩ := List.forall_mem_cons.mp hroom'
      have hlen := length_patch hw1
      rcases List.mem_cons.mp hw with rfl | hw
      · refine (readsBack_patch hw1).patchAll (hlen ▸ hroom') ?_
        intro v hv
        obtain rfl := List.mem_singleton.mp hv
        rw [length_leBytes]
        exact Or.inl (Nat.add_le_add_left sl.eight_le_gap _)
      · obtain rfl := List.mem_singleton.mp hw
        exact readsBack_patch (hlen ▸ hw2)

/-! ## What a value is read back from -/

section

variable {fresh : Nat → UInt8} {sl : Slider} {buf : List UInt8}

theorem leNat_leBytes_toNat {t : IntType} (v : BitVec (8 * t.bytes)) :
    BitVec.ofNat (8 * t.bytes) (leNat (leBytes t.bytes v.toNat)) = v := by
  have hpow : (256 : Nat) ^ t.bytes = 2 ^ (8 * t.bytes) := by rw [Nat.pow_mul]
  rw [leNat_leBytes, hpow, Nat.mod_eq_of_lt v.isLt, BitVec.ofNat_toNat,
    BitVec.setWidth_eq]

theorem intConvertFrom_stored {t : IntType} {ptr : Option (BitVec (8 * t.bytes))}
    {v : BitVec (8 * t.bytes)} (h : (Value.int t v).StoredAt sl buf) :
    intConvertFrom fresh t ptr sl buf
      = (0, .int t (some v), { sl with off := sl.off + t.bytes }) := by
  obtain ⟨hroom, hslice⟩ := h _ (List.mem_singleton_self _)
  rw [length_leBytes] at hroom hslice
  simp only [intConvertFrom, Slider.read_front t.bytes_pos hroom, hslice,
    leNat_leBytes_toNat, ne_eq, not_true, if_false]

theorem rawReadData_stored {bytes mem : List UInt8} (hne : bytes ≠ [])
    (hmem : mem.length = bytes.length) (h : (Value.raw bytes).StoredAt sl buf) :
    rawReadData mem { sl with off := sl.off + 8 } buf
      = (0, .raw (some (.mem bytes)),
        { sl with off := sl.off + (8 + bytes.length) }) := by
  obtain ⟨hroom, hslice⟩ := h (sl.start + sl.gap, bytes) (by simp [Value.writes])
  rw [← sl.start_advance] at hroom hslice
  have hread := Slider.read_fits (List.length_pos_iff.mpr hne) hroom
  simp only [rawReadData, hmem, hread, hslice, overlay_of_length hmem.symm,
    lt_self_iff_false, if_false, Nat.add_assoc]

/-- What `rawConvertFrom` does once the size is read. -/
theorem rawConvertFrom_stored {ptr : Option Raw} {bytes : List UInt8}
    (hmax : bytes.length ≤ maxObject) (h : (Value.raw bytes).StoredAt sl buf) :
    rawConvertFrom fresh ptr sl buf =
      match ptr with
      | some (.mem old) =>
          if old.length < bytes.length
            then (-ENOSPC, .raw ptr, { sl with off := sl.off + 8 })
          else rawReadData old { sl with off := sl.off + 8 } buf
      | _ => rawReadData (blank fresh bytes.length) { sl with off := sl.off + 8 }
          buf := by
  obtain ⟨hroom, hslice⟩ := h (sl.start, leBytes 8 bytes.length) (by simp [Value.writes])
  rw [length_leBytes] at hroom hslice
  have hsize : leNat (overlay (leBytes 8 bytes.length) (blank fresh 8))
      = bytes.length := by
    rw [overlay_of_length (by simp), leNat_leBytes, Nat.mod_eq_of_lt]
    unfold maxObject at hmax
    omega
  simp only [rawConvertFrom, Slider.read_front (by omega : 0 < 8) hroom, hslice, hsize,
    lt_self_iff_false, if_false, if_neg (by omega : ¬ maxObject < bytes.length)]

end

end Frozen.Binary
