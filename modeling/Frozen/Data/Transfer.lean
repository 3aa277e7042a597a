/-
# `Frozen.Data.Transfer` — the transfer between any two data holders

`data_default_convert_to` copies by reads and writes of 1024 bytes and knows the
end of a holder only by what a read or a write answers.  Each kind of holder
answers in its own way:

    raw_t, string_t   a write of no bytes, or behind the last byte, fails with -1
    memory_t          such a write succeeds
    buffer_t          every write succeeds and tells where it ended, not how long it was
    slice_t           -1 at its own end, and before it what it is a slice of says

`dataDefaultConvertTo_copies` says for which pairs the copy is the common prefix.
-/
import Frozen.Data.Holder

namespace Frozen.Data

open Lib Binary Cache

/-! ## Writes -/

/-- Other characters in front of the terminating zero. -/
def retext (c : Chars) (text : List UInt8) : Chars where
  mem := text ++ c.mem.drop c.strlen
  terminated := by
    obtain ⟨rest, hrest⟩ := c.exists_mem_eq
    rw [hrest, Chars.strlen, List.drop_left]
    simp

/-- The bytes of a `buffer_t` after a write; `junk` is what the memory of a
new chunk holds. -/
def bufferPut (junk : Nat → UInt8) (bytes : List UInt8) (offset : Nat)
    (d : List UInt8) : List UInt8 :=
  (bytes ++ blank junk (offset - bytes.length)).take offset ++ d ++ bytes.drop
  (offset + d.length)

namespace Holder

/-- `ACTION_WRITE`: the answer, `buffer_size` as the call leaves it, and the holder. -/
def write (junk : Nat → UInt8) : Holder → Nat → List UInt8 → Int × Nat × Holder
  | .raw (.null size), _, d => (-EFAULT, d.length, .raw (.null size))
  | .raw (.mem bytes), offset, d =>
      let (ret, bytes, n) := defaultWrite bytes offset d.length (some d)
      (ret, n, .raw (.mem bytes))
  | .string c, offset, d =>
      let (ret, text, n) := defaultWrite c.text offset d.length (some d)
      (ret, n, .string (retext c text))
  | .memory (.freed exactSize), _, _ => (0, 0, .memory (.freed exactSize))
  | .memory (.held ptrSize bytes), offset, d =>
      (0, min d.length (bytes.length - offset),
        .memory (.held ptrSize (patch bytes (offset, d.take (bytes.length - offset)))))
  | .buffer bytes, offset, d =>
      (0, offset + d.length, .buffer (bufferPut junk bytes offset d))
  | .slice off size data, offset, d =>
      if size.toNat < offset then (-EINVAL, d.length, .slice off size data)
      else if min d.length (size.toNat - offset) = 0 then (-1, 0, .slice off size data)
      else
        let (ret, n, data) := data.write junk ((offset + off.toNat) % 2 ^ 64)
          (d.take (size.toNat - offset))
        (ret, n, .slice off size data)

/-- The holder as it is read by the transfer. -/
def reader (h : Holder) : Reader := fun offset n =>
  let (ret, d, _) := h.read offset n
  .ok (ret, d)

def writer (junk : Nat → UInt8) : Writer Holder :=
  fun offset d h => .ok (h.write junk offset d)

end Holder

/-- `data_default_convert_to` with a destination: what it answers, `transfered`, and
the destination. -/
def dataDefaultConvertTo (junk : Nat → UInt8) (n : Nat) (src dst : Holder) :
    Except OutOfFuel (Int × Nat × Holder) :=
  convertTo src.reader (Holder.writer junk) n dst

/-! ## The rule of the transfer -/

/-- The source has these bytes, and fails at their end unless it is mute. -/
def Gives (read : Reader) (c : List UInt8) (mute : Bool) : Prop :=
  ∀ r, r ≤ c.length → read r DEF_BUFFER_SIZE =
    .ok (if r = c.length ∧ mute = false then -1 else 0, (c.drop r).take DEF_BUFFER_SIZE)

/-- The `j`-th piece. -/
def piece (c : List UInt8) (j : Nat) : List UInt8 :=
  (c.drop (DEF_BUFFER_SIZE * j)).take DEF_BUFFER_SIZE

section

variable {σ : Type} {read : Reader} {write : Writer σ} {c : List UInt8} {mute : Bool}
  {h : Holder}

theorem Holder.gives_reader (hs : h.Sized) (hl : h.look 0 = .bytes c mute) :
    Gives h.reader c mute := by
  intro r hr
  have hlook := Holder.look_add hs hl hr
  rw [Nat.zero_add] at hlook
  have hread := Holder.read_of_bytes hlook (n := DEF_BUFFER_SIZE) (by decide)
  have hnil : c.drop r = [] ↔ r = c.length := by
    rw [List.drop_eq_nil_iff]
    omega
  simp only [Holder.reader, hread, hnil]

theorem add_length_piece (c : List UInt8) (j : Nat) :
    min (DEF_BUFFER_SIZE * j) c.length + (piece c j).length
      = min (DEF_BUFFER_SIZE * (j + 1)) c.length := by
  rw [piece, List.length_take, List.length_drop]
  unfold DEF_BUFFER_SIZE
  omega

/-- What holds between the pieces: `P j w s` when `j` of them are read and `w` bytes are
said to be written; `Q w s` at the end, and `F` if a write fails. -/
structure Sinks (write : Writer σ) (c : List UInt8) (mute : Bool)
    (P : Nat → Nat → σ → Prop) (Q : Nat → σ → Prop) (F : Prop) : Prop where
  piece : ∀ j w s, P j w s → DEF_BUFFER_SIZE * j < c.length → ∃ ret m s',
    write w (piece c j) s = .ok (ret, m, s') ∧
      (ret < -1 ∧ F ∨ ret = -1 ∧ Q w s' ∨ ret = 0 ∧ P (j + 1) (w + m) s')
  last : ∀ j w s, P j w s → c.length ≤ DEF_BUFFER_SIZE * j → mute = false → Q w s
  mute : ∀ j w s, P j w s → c.length ≤ DEF_BUFFER_SIZE * j → mute = true → ∃ ret m s',
    write w [] s = .ok (ret, m, s') ∧ (ret < -1 ∧ F ∨ ret = -1 ∧ Q w s')

theorem piece_eq_nil {j : Nat} (h : c.length ≤ DEF_BUFFER_SIZE * j) : piece c j = [] := by
  rw [piece, List.drop_eq_nil_of_le h, List.take_nil]

/-- A write that fails ends the loop: at the end of the destination, or with its error. -/
theorem convertToLoop_stop {n r w m : Nat} {bytes : List UInt8} {ret : Int} {s s' : σ}
    (hw : write w bytes s = .ok (ret, m, s')) (hret : ret ≤ -1) :
    convertToLoop read write (n + 1) r w bytes s
      = .ok (if ret = -1 then (0, w, s') else (ret, 0, s')) := by
  rw [convertToLoop, hw]
  rcases hret.lt_or_eq with hlt | rfl
  · rw [if_neg hlt.ne]
    exact if_pos hlt
  · rfl

theorem convertToLoop_sinks (hread : Gives read c mute) {P : Nat → Nat → σ → Prop}
    {Q : Nat → σ → Prop} {F : Prop} (hsinks : Sinks write c mute P Q F) (k : Nat) :
    ∀ j w s, P j w s → (DEF_BUFFER_SIZE * j < c.length ∨ mute = true) →
      c.length - DEF_BUFFER_SIZE * j ≤ k →
      ∃ ret t s', (∀ n, k < n → convertToLoop read write n
        (min (DEF_BUFFER_SIZE * (j + 1)) c.length) w (piece c j) s =
        .ok (ret, t, s')) ∧ (ret = 0 ∧ Q t s' ∨ ret < -1 ∧ F) := by
  have hstop : ∀ k j w s m s' ret, write w (piece c j) s = .ok (ret, m, s') →
    (ret < -1 ∧ F ∨ ret = -1 ∧ Q w s') →
      ∃ ret t s', (∀ n, k < n → convertToLoop read write n
        (min (DEF_BUFFER_SIZE * (j + 1)) c.length) w (piece c j) s =
        .ok (ret, t, s')) ∧ (ret = 0 ∧ Q t s' ∨ ret < -1 ∧ F) := by
    intro k j w s m s' ret hw hret
    have hle : ret ≤ -1 := hret.elim (fun h => h.1.le) fun h => h.1.le
    rcases hret with ⟨hlt, hF⟩ | ⟨rfl, hQ⟩
    · refine ⟨ret, 0, s', fun n hn => ?_, .inr ⟨hlt, hF⟩⟩
      obtain ⟨n, rfl⟩ := Nat.exists_eq_succ_of_ne_zero (Nat.ne_zero_of_lt hn)
      rw [Nat.succ_eq_add_one, convertToLoop_stop hw hle, if_neg hlt.ne]
    · refine ⟨0, w, s', fun n hn => ?_, .inl ⟨rfl, hQ⟩⟩
      obtain ⟨n, rfl⟩ := Nat.exists_eq_succ_of_ne_zero (Nat.ne_zero_of_lt hn)
      rw [Nat.succ_eq_add_one, convertToLoop_stop hw hle, if_pos rfl]
  have hlast : ∀ k j w s, P j w s → c.length ≤ DEF_BUFFER_SIZE * j → mute = true →
      ∃ ret t s', (∀ n, k < n → convertToLoop read write n
        (min (DEF_BUFFER_SIZE * (j + 1)) c.length) w (piece c j) s =
        .ok (ret, t, s')) ∧ (ret = 0 ∧ Q t s' ∨ ret < -1 ∧ F) := by
    intro k j w s hP hj hmute
    obtain ⟨ret, m, s', hw, hret⟩ := hsinks.mute j w s hP hj hmute
    rw [← piece_eq_nil hj] at hw
    exact hstop k j w s m s' ret hw hret
  induction k with
  | zero =>
      intro j w s hP hmore hk
      have hj : c.length ≤ DEF_BUFFER_SIZE * j := by omega
      exact hlast 0 j w s hP hj (hmore.resolve_left (Nat.not_lt.mpr hj))
  | succ k ih =>
      intro j w s hP hmore hk
      rcases Nat.lt_or_ge (DEF_BUFFER_SIZE * j) c.length with hj | hj
      swap
      · exact hlast (k + 1) j w s hP hj (hmore.resolve_left (Nat.not_lt.mpr hj))
      obtain ⟨ret, m, s', hw, hret⟩ := hsinks.piece j w s hP hj
      rcases hret with hlt | hend | ⟨rfl, hP'⟩
      · exact hstop (k + 1) j w s m s' ret hw (.inl hlt)
      · exact hstop (k + 1) j w s m s' ret hw (.inr hend)
      -- the piece is written, and the next one is read
      have hnext := hread _ (Nat.min_le_right (DEF_BUFFER_SIZE * (j + 1)) c.length)
      by_cases hend : min (DEF_BUFFER_SIZE * (j + 1)) c.length = c.length ∧ mute = false
      · rw [if_pos hend] at hnext
        refine ⟨0, w + m, s', fun n hn => ?_, .inl ⟨rfl, ?_⟩⟩
        swap
        · exact hsinks.last _ _ _ hP' (min_eq_right_iff.mp hend.1) hend.2
        obtain ⟨n, rfl⟩ := Nat.exists_eq_succ_of_ne_zero (Nat.ne_zero_of_lt hn)
        rw [Nat.succ_eq_add_one, convertToLoop_next hw hnext,
          if_neg (by decide), if_pos rfl]
      · have hrest : (c.drop (min (DEF_BUFFER_SIZE * (j + 1)) c.length)).take
            DEF_BUFFER_SIZE = piece c (j + 1) := by
          rcases le_total (DEF_BUFFER_SIZE * (j + 1)) c.length with hle | hle
          · rw [min_eq_left hle, piece]
          · rw [min_eq_right hle, List.drop_length, List.take_nil, piece_eq_nil hle]
        have hstep : DEF_BUFFER_SIZE * (j + 1) = DEF_BUFFER_SIZE * j +
            DEF_BUFFER_SIZE := Nat.mul_succ _ _
        have hsize : 0 < DEF_BUFFER_SIZE := by decide
        have hmore' : DEF_BUFFER_SIZE * (j + 1) < c.length ∨ mute = true := by
          rcases Nat.lt_or_ge (DEF_BUFFER_SIZE * (j + 1)) c.length with hlt | hge
          · exact .inl hlt
          · exact .inr (Bool.eq_true_of_not_eq_false fun hmute =>
              hend ⟨min_eq_right hge, hmute⟩)
        obtain ⟨ret, t, s'', hloop, hQ⟩ := ih (j + 1) (w + m) s' hP' hmore' (by omega)
        refine ⟨ret, t, s'', fun n hn => ?_, hQ⟩
        obtain ⟨n, rfl⟩ := Nat.exists_eq_succ_of_ne_zero (Nat.ne_zero_of_lt hn)
        rw [if_neg hend, hrest] at hnext
        rw [Nat.succ_eq_add_one, convertToLoop_next hw hnext, if_neg (by decide),
          if_neg (by decide), add_length_piece]
        exact hloop n (by omega)

/-- **The rule of the transfer**: it returns, and with 0 only where `Q` holds. -/
theorem convertTo_sinks (hread : Gives read c mute) (hmore : c ≠ [] ∨ mute = true)
    {P : Nat → Nat → σ → Prop} {Q : Nat → σ → Prop} {F : Prop}
    (hsinks : Sinks write c mute P Q F) {s : σ} (hP : P 0 0 s) :
    ∃ ret t s', (∀ n, c.length < n → convertTo read write n s = .ok (ret, t, s')) ∧
      (ret = 0 ∧ Q t s' ∨ ret < -1 ∧ F) := by
  have hfirst := hread 0 (Nat.zero_le _)
  have hopen : ¬ (0 = c.length ∧ mute = false) := by
    rintro ⟨hlen, hmute⟩
    rcases hmore with hne | htrue
    · exact hne (List.length_eq_zero_iff.mp hlen.symm)
    · rw [hmute] at htrue
      cases htrue
  rw [if_neg hopen, show (c.drop 0).take DEF_BUFFER_SIZE = piece c 0 from rfl] at hfirst
  obtain ⟨ret, t, s', hloop, hQ⟩ := convertToLoop_sinks hread hsinks c.length 0 0 s hP
    (hmore.imp_left List.length_pos_of_ne_nil) (Nat.sub_le _ _)
  refine ⟨ret, t, s', fun n hn => ?_, hQ⟩
  have hlen := add_length_piece c 0
  rw [Nat.mul_zero, Nat.zero_min, Nat.zero_add] at hlen
  rw [convertTo, hfirst]
  have hrun := hloop n hn
  rw [← hlen] at hrun
  exact hrun

end

/-! ## Destinations -/

namespace Holder

/-- The holder with these bytes from an offset on, and no other byte changed. -/
def patch (junk : Nat → UInt8) : Holder → Nat → List UInt8 → Holder
  | .raw (.null size), _, _ => .raw (.null size)
  | .raw (.mem bytes), offset, d => .raw (.mem (Lib.patch bytes (offset, d)))
  | .string c, offset, d => .string (retext c (Lib.patch c.text (offset, d)))
  | .memory (.freed exactSize), _, _ => .memory (.freed exactSize)
  | .memory (.held ptrSize bytes), offset, d =>
      .memory (.held ptrSize (Lib.patch bytes (offset, d)))
  | .buffer bytes, offset, d =>
      .buffer (if d = [] then bytes else bufferPut junk bytes offset d)
  | .slice off size data, offset, d =>
      .slice off size (data.patch junk ((offset + off.toNat) % 2 ^ 64) d)

end Holder

/-- What a holder can take of so many bytes. -/
def common (room : Option Nat) (n : Nat) : Nat := (room.map (min n)).getD n

/-- How many bytes a holder has from an offset on; a `buffer_t` grows. -/
def Holder.room : Holder → Nat → Option Nat
  | .raw r, offset => some ((r.ptr.getD []).length - offset)
  | .string c, offset => some (c.strlen - offset)
  | .memory m, offset => some (m.bytes.length - offset)
  | .buffer _, _ => none
  | .slice off size data, offset =>
      some (common (data.room ((offset + off.toNat) % 2 ^ 64)) (size.toNat - offset))

/-- What writes from an offset on come to. -/
inductive Door where
  | refused
  /-- room for so many bytes; `closed` if a write of none fails; where in a `string_t` -/
  | takes (room : Nat) (closed : Bool) (text : Option Nat)
  /-- a `buffer_t`, and where in it -/
  | grows (start : Nat) (room : Option Nat)

/-- A slice of so many bytes. -/
def Door.slice (size : Nat) : Door → Door
  | .refused => .refused
  | .takes room _ text => .takes (min size room) true text
  | .grows start room => .grows start (some (common room size))

/-- What `data_default_write` finds. -/
def doorDefault (bytes : List UInt8) (offset : Nat) (text : Option Nat) : Door :=
  if bytes.length = 0 then .takes 0 true none
  else if bytes.length < offset then .refused
  else .takes (bytes.length - offset) true text

def Holder.door : Holder → Nat → Door
  | .raw r, offset =>
      match r.ptr with
      | none => .refused
      | some bytes => doorDefault bytes offset none
  | .string c, offset => doorDefault c.text offset (some offset)
  | .memory m, offset => .takes (m.bytes.length - offset) false none
  | .buffer _, offset => .grows offset none
  | .slice off size data, offset =>
      if size.toNat < offset then .refused
      else if size.toNat - offset = 0 then .takes 0 true none
      else (data.door ((offset + off.toNat) % 2 ^ 64)).slice (size.toNat - offset)

section

variable {junk : Nat → UInt8} {h : Holder} {o R start : Nat} {room : Option Nat}
  {closed : Bool} {text : Option Nat} {c : List UInt8} {mute : Bool}

/-- What the bytes written so far leave to be written. -/
structure Takes (junk : Nat → UInt8) (h : Holder) (o R : Nat) (closed : Bool)
    (text : Option Nat) : Prop where
  lt : o + R < 2 ^ 64
  /-- nothing to write, or no room -/
  full : ∀ d x, d.length ≤ R → (text.isSome → 0 ∉ d) → x = [] ∨ d.length = R → ∃ ret m,
    (h.patch junk o d).write junk (o + d.length) x = (ret, m, h.patch junk o d) ∧
      (ret = -1 ∨ ret = 0 ∧ m = 0) ∧ (closed = true → x = [] → ret = -1)
  /-- bytes are written -/
  some : ∀ d x, d.length < R → (text.isSome → 0 ∉ d) → x ≠ [] →
    (h.patch junk o d).write junk (o + d.length) x =
      (0, min x.length (R - d.length), h.patch junk o (d ++ x.take (R - d.length)))
  /-- a text that has become shorter -/
  short : ∀ d x, d.length ≤ R → text.isSome → 0 ∈ d → ∃ ret m,
    (h.patch junk o d).write junk (o + d.length) x = (ret, m, h.patch junk o d) ∧
    ret ≤ -1 ∧
      (ret = -1 → x = [] ∨ d.length = R ∨ text = Option.some 0 ∧
        d.head? = Option.some 0) ∧
      (text = Option.some 0 → d.head? = Option.some 0 → ret = -1)

theorem patch_patch {bs d : List UInt8} (ho : o ≤ bs.length) (y : List UInt8) :
    Lib.patch (Lib.patch bs (o, d)) (o + d.length, y) = Lib.patch bs (o, d ++ y) := by
  have hlen : (bs.take o ++ d).length = o + d.length := by
    rw [List.length_append, List.length_take_of_le ho]
  have hrest : ((bs.take o ++ d) ++ bs.drop (o + d.length)).drop
      (o + d.length + y.length) = bs.drop (o + d.length + y.length) := by
    rw [← List.drop_drop, List.drop_left' hlen, List.drop_drop]
  simp only [Lib.patch]
  rw [List.take_left' hlen, hrest, List.length_append, ← List.append_assoc,
    ← Nat.add_assoc]

theorem patch_nil (bs : List UInt8) : Lib.patch bs (o, []) = bs := by
  simp only [Lib.patch, List.length_nil, Nat.add_zero, List.append_nil,
    List.take_append_drop]

theorem defaultWrite_patch {bs d x : List UInt8} (hne : bs ≠ [])
    (hd : o + d.length ≤ bs.length) :
    defaultWrite (Lib.patch bs (o, d)) (o + d.length) x.length (some x) =
      if x = [] ∨ d.length = bs.length - o then (-1, Lib.patch bs (o, d), 0)
      else (0, Lib.patch bs (o, d ++ x.take (bs.length - o - d.length)),
        min x.length (bs.length - o - d.length)) := by
  have hlen : (Lib.patch bs (o, d)).length = bs.length := length_patch hd
  have hpos := List.length_pos_of_ne_nil hne
  have hrest : bs.length - (o + d.length) = bs.length - o - d.length := by omega
  simp only [defaultWrite, hlen, if_neg hpos.ne', if_neg (Nat.not_lt.mpr hd), hrest]
  have hzero : min x.length (bs.length - o - d.length) = 0 ↔ x = [] ∨
      d.length = bs.length - o := by
    rw [← List.length_eq_zero_iff]
    omega
  simp only [hzero]
  split_ifs with hfull
  · rfl
  · have hnext := patch_patch (d := d) (by omega : o ≤ bs.length)
        (x.take (bs.length - o - d.length))
    have htake : x.take (min x.length (bs.length - o - d.length))
        = x.take (bs.length - o - d.length) := by
      rw [min_comm, ← List.take_eq_take_min]
    generalize Lib.patch bs (o, d) = buf at hnext
    rw [htake, ← hnext, Lib.patch, List.length_take, min_comm]

/-! ### Texts -/

theorem drop_strlen (s : Chars) : ∃ rest, s.mem.drop s.strlen = 0 :: rest := by
  obtain ⟨rest, hrest⟩ := s.exists_mem_eq
  exact ⟨rest, by rw [hrest, Chars.strlen, List.drop_left]⟩

theorem mem_retext (s : Chars) (t : List UInt8) :
    (retext s t).mem = t ++ s.mem.drop s.strlen := rfl

theorem text_eq (s : Chars) : s.text = s.mem.takeWhile (· ≠ 0) := rfl

theorem retext_text (s : Chars) : retext s s.text = s := by
  have hmem : s.text ++ s.mem.drop s.strlen = s.mem := by
    rw [Chars.strlen, text_eq]
    have hdrop : s.mem.drop (s.mem.takeWhile (· ≠ 0)).length = s.mem.dropWhile
        (· ≠ 0) := by
      nth_rewrite 2 [← List.takeWhile_append_dropWhile (p := (· ≠ 0)) (l := s.mem)]
      rw [List.drop_left]
    rw [hdrop, List.takeWhile_append_dropWhile]
  cases s
  exact Chars.mk.injEq .. ▸ hmem

theorem text_retext {s : Chars} {t : List UInt8} (ht : 0 ∉ t) :
    (retext s t).text = t := by
  obtain ⟨rest, hrest⟩ := drop_strlen s
  rw [text_eq, mem_retext, hrest]
  exact takeWhile_append_zero ht

theorem retext_retext {s : Chars} {t t' : List UInt8} (ht : 0 ∉ t) :
    retext (retext s t) t' = retext s t' := by
  have hstrlen : (retext s t).strlen = t.length := congrArg List.length (text_retext ht)
  have hmem : t' ++ (retext s t).mem.drop (retext s t).strlen = t' ++ s.mem.drop
      s.strlen := by
    rw [hstrlen, mem_retext, List.drop_left]
  exact Chars.mk.injEq .. ▸ hmem

theorem text_retext_of_mem {s : Chars} {t : List UInt8} (ht : 0 ∈ t) :
    (retext s t).text = t.takeWhile (· ≠ 0) := by
  obtain ⟨rest, hrest⟩ := exists_eq_takeWhile_append ht
  have hclean : 0 ∉ t.takeWhile (· ≠ 0) :=
    fun h => by simpa using List.mem_takeWhile_imp h
  rw [text_eq, mem_retext]
  nth_rewrite 1 [hrest]
  rw [List.append_assoc, List.cons_append, takeWhile_append_zero hclean]

theorem Holder.patch_nil (h : Holder) (o : Nat) : h.patch junk o [] = h := by
  induction h generalizing o with
  | raw r =>
      cases r with
      | null size => rfl
      | mem bytes => rw [Holder.patch, Data.patch_nil]
  | string s => rw [Holder.patch, Data.patch_nil, retext_text]
  | memory m =>
      cases m with
      | freed exactSize => rfl
      | held ptrSize bytes => rw [Holder.patch, Data.patch_nil]
  | buffer bytes => rfl
  | slice off size data ih => rw [Holder.patch, ih]

/-! ### What there is room for -/

theorem defaultWrite_of_refused {bytes x : List UInt8}
    (hd : doorDefault bytes o text = .refused) :
    defaultWrite bytes o x.length (some x) = (-EINVAL, bytes, x.length) := by
  unfold doorDefault at hd
  split_ifs at hd with hnil hout
  rw [defaultWrite, if_neg hnil]
  exact if_pos hout

theorem doorDefault_ne_grows {bytes : List UInt8} :
    doorDefault bytes o text ≠ .grows start room := by
  intro hd
  unfold doorDefault at hd
  split_ifs at hd

variable (junk) in
theorem Holder.write_of_refused (hd : h.door o = .refused) (x : List UInt8) :
    ∃ ret m, h.write junk o x = (ret, m, h) ∧ (ret < -1 ∨ ret = -1 ∧ x = []) := by
  have hinval : -EINVAL < -1 := by decide
  induction h generalizing o x with
  | raw r =>
      cases r with
      | null size => exact ⟨-EFAULT, x.length, rfl, .inl (by decide)⟩
      | mem bytes =>
          refine ⟨-EINVAL, x.length, ?_, .inl hinval⟩
          rw [Holder.write, defaultWrite_of_refused hd]
  | string s =>
      refine ⟨-EINVAL, x.length, ?_, .inl hinval⟩
      rw [Holder.write, defaultWrite_of_refused hd]
      simp only [retext_text]
  | memory m => cases hd
  | buffer bytes => cases hd
  | slice off size data ih =>
      rw [Holder.door] at hd
      rw [Holder.write]
      split_ifs at hd with hout hend
      · exact ⟨-EINVAL, x.length, if_pos hout, .inl hinval⟩
      · rw [if_neg hout]
        by_cases hx : x = []
        · subst hx
          exact ⟨-1, 0, if_pos (Nat.zero_min _), .inr ⟨rfl, rfl⟩⟩
        · have hpos := List.length_pos_of_ne_nil hx
          rw [if_neg (by omega)]
          cases hdata : data.door ((o + off.toNat) % 2 ^ 64) with
          | takes room closed text => rw [hdata] at hd; cases hd
          | grows start room => rw [hdata] at hd; cases hd
          | refused =>
              obtain ⟨ret, m, hwrite, hret⟩ := ih hdata (x.take (size.toNat - o))
              refine ⟨ret, m, ?_, .inl (hret.resolve_right fun h => ?_)⟩
              · simp only [hwrite]
              · exact hx ((List.take_eq_nil_iff.mp h.2).resolve_left hend)

theorem takes_shut (ho : o < 2 ^ 64) (hwrite : ∀ x, ∃ m, h.write junk o x = (-1, m, h)) :
    Takes junk h o 0 true none where
  lt := ho
  full d x hd _ _ := by
    obtain rfl := List.length_eq_zero_iff.mp (Nat.le_zero.mp hd)
    obtain ⟨m, hm⟩ := hwrite x
    rw [h.patch_nil]
    exact ⟨-1, m, hm, .inl rfl, fun _ _ => rfl⟩
  some d x hd := absurd hd (Nat.not_lt_zero _)
  short d x hd ht := by cases ht

theorem takes_raw {bs : List UInt8} (hne : bs ≠ []) (ho : o ≤ bs.length)
    (hs : bs.length ≤ maxObject) :
    Takes junk (.raw (.mem bs)) o (bs.length - o) true none where
  lt := by
    unfold maxObject at hs
    omega
  full d x hd _ hfull := by
    refine ⟨-1, 0, ?_, .inl rfl, fun _ _ => rfl⟩
    rw [Holder.patch, Holder.write, defaultWrite_patch hne (by omega), if_pos hfull]
  some d x hd _ hx := by
    rw [Holder.patch, Holder.write, defaultWrite_patch hne (by omega),
      if_neg (not_or.mpr ⟨hx, hd.ne⟩)]
    rfl
  short d x hd ht := by cases ht

theorem takes_memory {m : Memory} (ho : o < 2 ^ 64) (hs : m.bytes.length ≤ maxObject) :
    Takes junk (.memory m) o (m.bytes.length - o) false none := by
  cases m with
  | freed exactSize =>
      refine ⟨?_, fun d x hd _ _ => ⟨0, 0, rfl, .inr ⟨rfl, rfl⟩, fun h => by cases h⟩,
        fun d x hd => ?_, fun d x hd ht => by cases ht⟩
      · simpa [Memory.bytes] using ho
      · exact absurd hd (by simp [Memory.bytes])
  | held ptrSize bs =>
      have hs : bs.length ≤ maxObject := hs
      have hlen : ∀ d : List UInt8, d.length ≤ bs.length - o →
          (Lib.patch bs (o, d)).length = bs.length := by
        intro d hd
        rcases Nat.lt_or_ge bs.length o with hlt | hge
        · obtain rfl : d = [] := List.length_eq_zero_iff.mp (by omega)
          rw [patch_nil]
        · exact length_patch (by omega : o + d.length ≤ bs.length)
      refine ⟨?_, fun d x hd _ hfull =>
        ⟨0, 0, ?_, .inr ⟨rfl, rfl⟩, fun h => by cases h⟩, fun d x hd _ _ => ?_,
        fun d x hd ht => by cases ht⟩
      · unfold maxObject at hs
        simp only [Memory.bytes]
        omega
      · have hd : d.length ≤ bs.length - o := hd
        have hzero : x.take (bs.length - (o + d.length)) = [] := by
          rcases hfull with rfl | hfull
          · exact List.take_nil
          · have hfull : d.length = bs.length - o := hfull
            rw [show bs.length - (o + d.length) = 0 by omega, List.take_zero]
        have hmin := congrArg List.length hzero
        rw [List.length_take, List.length_nil, min_comm] at hmin
        rw [Holder.patch, Holder.write, hlen d hd, hzero, patch_nil, hmin]
      · have hd : d.length < bs.length - o := hd
        have hrest : bs.length - (o + d.length) = bs.length - o - d.length := by omega
        rw [Holder.patch, Holder.write, hlen d hd.le, hrest, patch_patch (by omega)]
        rfl

/-- What is left of a `string_t` in front of its zero. -/
theorem takes_string {s : Chars} (hne : s.text ≠ []) (ho : o ≤ s.text.length)
    (hs : s.mem.length ≤ maxObject) :
    Takes junk (.string s) o (s.text.length - o) true (some o) := by
  have hlen : s.text.length ≤ s.mem.length := (List.takeWhile_sublist _).length_le
  have hclean : ∀ d : List UInt8, 0 ∉ d → 0 ∉ Lib.patch s.text (o, d) := by
    intro d hd hmem
    simp only [Lib.patch, List.mem_append] at hmem
    rcases hmem with (hmem | hmem) | hmem
    · exact s.zero_notMem_text (List.mem_of_mem_take hmem)
    · exact hd hmem
    · exact s.zero_notMem_text (List.mem_of_mem_drop hmem)
  refine ⟨?_, fun d x hd hz hfull => ?_, fun d x hd hz hx => ?_, fun d x hd _ hz => ?_⟩
  · unfold maxObject at hs
    omega
  · refine ⟨-1, 0, ?_, .inl rfl, fun _ _ => rfl⟩
    rw [Holder.patch, Holder.write, text_retext (hclean d (hz rfl)),
      defaultWrite_patch hne (by omega), if_pos hfull]
    simp only [retext_retext (hclean d (hz rfl))]
  · rw [Holder.patch, Holder.write, text_retext (hclean d (hz rfl)),
      defaultWrite_patch hne (by omega), if_neg (not_or.mpr ⟨hx, hd.ne⟩)]
    simp only [retext_retext (hclean d (hz rfl))]
    rfl
  · -- the text ends at the first zero that was written
    obtain ⟨rest, hrest⟩ := exists_eq_takeWhile_append hz
    have hw : 0 ∉ d.takeWhile (· ≠ 0) := fun h => by simpa using List.mem_takeWhile_imp h
    generalize d.takeWhile (· ≠ 0) = w at hrest hw
    have hp : 0 ∈ Lib.patch s.text (o, d) := by
      simp only [Lib.patch, List.mem_append]
      exact .inl (.inr hz)
    have htext : (retext s (Lib.patch s.text (o, d))).text = s.text.take o ++ w := by
      have hfront : 0 ∉ s.text.take o ++ w := fun h =>
        (List.mem_append.mp h).elim
        (fun h => s.zero_notMem_text (List.mem_of_mem_take h)) hw
      have hsplit : Lib.patch s.text (o, d) = s.text.take o ++ w ++ 0 ::
          (rest ++ s.text.drop (o + d.length)) := by
        simp only [Lib.patch]
        nth_rewrite 1 [hrest]
        simp only [List.append_assoc, List.cons_append]
      rw [text_retext_of_mem hp, hsplit, takeWhile_append_zero hfront]
    have hlenw : (s.text.take o ++ w).length = o + w.length := by
      rw [List.length_append, List.length_take_of_le ho]
    have hlend : d.length = w.length + (rest.length + 1) := by
      rw [hrest, List.length_append, List.length_cons]
    have hsame : retext (retext s (Lib.patch s.text (o, d))) (s.text.take o ++ w)
        = retext s (Lib.patch s.text (o, d)) := by
      rw [← htext, retext_text]
    rw [Holder.patch, Holder.write, htext, defaultWrite, hlenw]
    by_cases hzero : o + w.length = 0
    · refine ⟨-1, x.length, ?_, le_refl _, fun _ => .inr (.inr ⟨?_, ?_⟩), fun _ _ => rfl⟩
      · rw [if_pos hzero]
        simp only [hsame]
      · exact congrArg some (by omega)
      · rw [hrest, List.length_eq_zero_iff.mp (by omega : w.length = 0)]
        rfl
    · refine ⟨-EINVAL, x.length, ?_, by decide, fun h => absurd h (by decide),
        fun ht hhead => absurd ?_ hzero⟩
      · rw [if_neg hzero]
        simp only [if_pos (show o + w.length < o + d.length by omega), hsame]
      · have hwnil : w = [] := by
          cases w with
          | nil => rfl
          | cons b w =>
              rw [hrest, List.cons_append, List.head?_cons] at hhead
              exact absurd (List.mem_cons.mpr (.inl (Option.some.inj hhead).symm)) hw
        rw [Option.some.inj ht, hwnil]
        rfl

section

variable {off size : UInt64} {data : Holder} {d x : List UInt8}

theorem slice_pass (hlt : (o + off.toNat) % 2 ^ 64 + d.length < 2 ^ 64) (hx : x ≠ [])
    (hd : d.length < size.toNat - o) :
    ((Holder.slice off size data).patch junk o d).write junk (o + d.length) x =
      let r := (data.patch junk ((o + off.toNat) % 2 ^ 64) d).write junk
        ((o + off.toNat) % 2 ^ 64 + d.length) (x.take (size.toNat - o - d.length))
      (r.1, r.2.1, .slice off size r.2.2) := by
  have hpos := List.length_pos_of_ne_nil hx
  have hwrap : (o + d.length + off.toNat) % 2 ^ 64 = (o + off.toNat) % 2 ^ 64 +
      d.length := by
    rw [Nat.add_right_comm, Nat.add_mod]
    omega
  rw [Holder.patch, Holder.write, if_neg (by omega), if_neg (by omega), hwrap,
    Nat.sub_sub]

theorem slice_stop (ho : o + d.length ≤ size.toNat)
    (hfull : x = [] ∨ d.length = size.toNat - o) :
    ((Holder.slice off size data).patch junk o d).write junk (o + d.length) x =
      (-1, 0, (Holder.slice off size data).patch junk o d) := by
  have hzero : min x.length (size.toNat - (o + d.length)) = 0 := by
    rcases hfull with rfl | hfull
    · exact Nat.zero_min _
    · omega
  rw [Holder.patch, Holder.write, if_neg (by omega), if_pos hzero]

theorem Takes.slice (ht : Takes junk data ((o + off.toNat) % 2 ^ 64) R closed text)
    (ho : o < size.toNat) :
    Takes junk (.slice off size data) o (min (size.toNat - o) R) true text := by
  have hsize := size.toNat_lt
  have hlt := ht.lt
  refine ⟨by omega, fun d x hd hz hfull => ?_, fun d x hd hz hx => ?_,
    fun d x hd hsome hz => ?_⟩
  · by_cases hend : x = [] ∨ d.length = size.toNat - o
    · exact ⟨-1, 0, slice_stop (by omega) hend, .inl rfl, fun _ _ => rfl⟩
    · obtain ⟨hx, hne⟩ := not_or.mp hend
      have hroom : d.length = R := by
        have := hfull.resolve_left hx
        omega
      obtain ⟨ret, m, hwrite, hret, -⟩ :=
        ht.full d (x.take (size.toNat - o - d.length)) (by omega) hz (.inr hroom)
      refine ⟨ret, m, ?_, hret, fun _ h => absurd h hx⟩
      rw [slice_pass (by omega) hx (by omega), hwrite]
      rfl
  · have htake : x.take (size.toNat - o - d.length) ≠ [] := by
      rw [ne_eq, List.take_eq_nil_iff]
      exact not_or.mpr ⟨by omega, hx⟩
    rw [slice_pass (by omega) hx (by omega), ht.some d _ (by omega) hz htake,
      List.length_take, List.take_take]
    have hroom : min (R - d.length) (size.toNat - o - d.length) = min (size.toNat - o)
        R - d.length := by omega
    rw [hroom]
    refine Prod.ext rfl (Prod.ext ?_ rfl)
    change min (min (size.toNat - o - d.length) x.length) (R - d.length) =
      min x.length (min (size.toNat - o) R - d.length)
    omega
  · by_cases hend : x = [] ∨ d.length = size.toNat - o
    · refine ⟨-1, 0, slice_stop (by omega) hend, le_refl _, fun _ => ?_, fun _ _ => rfl⟩
      rcases hend with hx | hend
      · exact .inl hx
      · exact .inr (.inl (by omega))
    · obtain ⟨hx, hne⟩ := not_or.mp hend
      obtain ⟨ret, m, hwrite, hle, hret, hhead⟩ :=
        ht.short d (x.take (size.toNat - o - d.length)) (by omega) hsome hz
      refine ⟨ret, m, ?_, hle, fun h => ?_, hhead⟩
      · rw [slice_pass (by omega) hx (by omega), hwrite]
        rfl
      · rcases hret h with hnil | hroom | hfront
        · rcases List.take_eq_nil_iff.mp hnil with hzero | hnil
          · omega
          · exact absurd hnil hx
        · exact .inr (.inl (by omega))
        · exact .inr (.inr hfront)

end

variable (junk) in
theorem takes_of_door (hs : h.Sized) (ho : o < 2 ^ 64)
    (hd : h.door o = .takes R closed text) : Takes junk h o R closed text := by
  induction h generalizing o R closed text with
  | raw r =>
      cases r with
      | null size => cases hd
      | mem bytes =>
          have hd : doorDefault bytes o none = .takes R closed text := hd
          unfold doorDefault at hd
          split_ifs at hd with hnil hout
          · cases hd
            exact takes_shut ho fun x =>
              ⟨x.length, by rw [Holder.write, defaultWrite, if_pos hnil]⟩
          · cases hd
            exact takes_raw (List.ne_nil_of_length_pos (Nat.pos_of_ne_zero hnil))
              (Nat.le_of_not_lt hout) (hs bytes rfl)
  | string s =>
      have hd : doorDefault s.text o (some o) = .takes R closed text := hd
      unfold doorDefault at hd
      split_ifs at hd with hnil hout
      · cases hd
        refine takes_shut ho fun x => ⟨x.length, ?_⟩
        rw [Holder.write, defaultWrite, if_pos hnil]
        simp only [retext_text]
      · cases hd
        exact takes_string (List.ne_nil_of_length_pos (Nat.pos_of_ne_zero hnil))
          (Nat.le_of_not_lt hout) hs
  | memory m =>
      cases hd
      exact takes_memory ho hs
  | buffer bytes => cases hd
  | slice off size data ih =>
      rw [Holder.door] at hd
      split_ifs at hd with hout hend
      · cases hd
        refine takes_shut ho fun x => ⟨0, ?_⟩
        rw [Holder.write, if_neg hout, if_pos (by omega)]
      · cases hdata : data.door ((o + off.toNat) % 2 ^ 64) with
        | refused => rw [hdata] at hd; cases hd
        | grows start room => rw [hdata] at hd; cases hd
        | takes R' closed' text' =>
            rw [hdata] at hd
            cases hd
            exact (ih hs (Nat.mod_lt _ (by decide)) hdata).slice (by omega)

/-- What the first write through a slice of a `buffer_t` leaves to be written. -/
structure Grows (junk : Nat → UInt8) (h : Holder) (o start R : Nat) : Prop where
  lt : o + R < 2 ^ 64
  /-- it tells where in the buffer it ended -/
  first : ∀ x, x ≠ [] →
    h.write junk o x = (0, start + min x.length R, h.patch junk o (x.take R))
  full : ∀ d x, d.length ≤ R → x = [] ∨ d.length = R →
    ∃ m, (h.patch junk o d).write junk (o + d.length) x = (-1, m, h.patch junk o d)

theorem Holder.buffer_of_door (hd : h.door o = .grows start none) :
    ∃ bytes, h = .buffer bytes ∧ start = o := by
  cases h with
  | raw r =>
      cases r with
      | null size => cases hd
      | mem bytes => exact absurd hd doorDefault_ne_grows
  | string s => exact absurd hd doorDefault_ne_grows
  | memory m => cases hd
  | buffer bytes =>
      cases hd
      exact ⟨bytes, rfl, rfl⟩
  | slice off size data =>
      rw [Holder.door] at hd
      split_ifs at hd
      cases hdata : data.door ((o + off.toNat) % 2 ^ 64) <;> rw [hdata] at hd <;> cases hd

variable (junk) in
theorem grows_of_door (ho : o < 2 ^ 64) (hd : h.door o = .grows start (some R)) :
    0 < R ∧ Grows junk h o start R := by
  induction h generalizing o start R with
  | raw r =>
      cases r with
      | null size => cases hd
      | mem bytes => exact absurd hd doorDefault_ne_grows
  | string s => exact absurd hd doorDefault_ne_grows
  | memory m => cases hd
  | buffer bytes => cases hd
  | slice off size data ih =>
      have hsize := size.toNat_lt
      rw [Holder.door] at hd
      split_ifs at hd with hout hend
      have hpass : ∀ x : List UInt8, x ≠ [] →
          (Holder.slice off size data).write junk o x =
          let r := data.write junk ((o + off.toNat) % 2 ^ 64) (x.take (size.toNat - o))
          (r.1, r.2.1, .slice off size r.2.2) := by
        intro x hx
        have hpos := List.length_pos_of_ne_nil hx
        rw [Holder.write, if_neg hout, if_neg (by omega)]
      have htake : ∀ x : List UInt8, x ≠ [] →
          x.take (size.toNat - o) ≠ [] := fun x hx h =>
        hx ((List.take_eq_nil_iff.mp h).resolve_left hend)
      cases hdata : data.door ((o + off.toNat) % 2 ^ 64) with
      | refused => rw [hdata] at hd; cases hd
      | takes room closed text => rw [hdata] at hd; cases hd
      | grows start' room' =>
          rw [hdata] at hd
          cases room' with
          | none =>
              obtain ⟨bytes, rfl, rfl⟩ := Holder.buffer_of_door hdata
              cases hd
              refine ⟨Nat.pos_of_ne_zero hend, ?_, fun x hx => ?_,
                fun d x hd hfull => ⟨0, slice_stop ?_ hfull⟩⟩
              · simp only [common, Option.map_none, Option.getD_none]
                omega
              · rw [hpass x hx, Holder.write, Holder.patch, Holder.patch, common,
                  Option.map_none, Option.getD_none,
                  if_neg (htake x hx), List.length_take, min_comm]
              · simp only [common, Option.map_none, Option.getD_none] at hd
                omega
          | some R' =>
              cases hd
              obtain ⟨hpos, hg⟩ := ih (Nat.mod_lt _ (by decide)) hdata
              have hlt := hg.lt
              have hroom : common (some R') (size.toNat - o)
                  = min (size.toNat - o) R' := rfl
              rw [hroom]
              refine ⟨lt_min (Nat.pos_of_ne_zero hend) hpos, by omega, fun x hx => ?_,
                fun d x hd hfull => ?_⟩
              · rw [hpass x hx, hg.first _ (htake x hx), List.length_take,
                  List.take_take, min_comm R']
                refine Prod.ext rfl (Prod.ext ?_ rfl)
                change start + min (min (size.toNat - o) x.length) R'
                  = start + min x.length (min (size.toNat - o) R')
                omega
              · by_cases hstop : x = [] ∨ d.length = size.toNat - o
                · exact ⟨0, slice_stop (by omega) hstop⟩
                · obtain ⟨hx, hne⟩ := not_or.mp hstop
                  have hend' : d.length = R' := by
                    have := hfull.resolve_left hx
                    omega
                  obtain ⟨m, hwrite⟩ := hg.full d (x.take (size.toNat - o - d.length))
                    hend'.le (.inr hend')
                  refine ⟨m, ?_⟩
                  rw [slice_pass (by omega) hx (by omega), hwrite]
                  rfl

end

/-! ## The transfer between holders -/

section

variable {junk : Nat → UInt8} {src dst : Holder} {c : List UInt8} {mute : Bool}
  {R start : Nat} {closed : Bool} {text : Option Nat}

theorem common_some (R n : Nat) : common (some R) n = min n R := rfl

/-- The bytes are written as long as there is room; only a zero at the front of a
`string_t` that takes more than one piece stops them, and only a mute end in a
`memory_t` goes on for ever. -/
theorem convertTo_takes (hread : Gives src.reader c mute) (hmore : c ≠ [] ∨ mute = true)
    (ht : Takes junk dst 0 R closed text) (hclosed : mute = true → closed = true)
    (hfront : ¬ (text = some 0 ∧ c.head? = some 0 ∧ DEF_BUFFER_SIZE < c.length ∧
      DEF_BUFFER_SIZE < R)) :
    ∃ ret t dst', (∀ n, c.length < n → convertTo src.reader (Holder.writer junk) n dst
      = .ok (ret, t, dst')) ∧
      (ret = 0 ∧ t = min c.length R ∧ dst' = dst.patch junk 0 (c.take t) ∨
        ret < -1 ∧ True) := by
  have hlen : ∀ w, w ≤ min c.length R → (c.take w).length = w := fun w hw =>
    List.length_take_of_le (hw.trans (min_le_left _ _))
  -- the write behind the first `w` bytes
  have hput : ∀ w x, w ≤ min c.length R →
      Holder.writer junk w x (dst.patch junk 0 (c.take w)) =
      .ok ((dst.patch junk 0 (c.take w)).write junk (0 + (c.take w).length) x) := by
    intro w x hw
    rw [hlen w hw, Nat.zero_add]
    rfl
  refine convertTo_sinks hread hmore
    (P := fun j w s => w = min (DEF_BUFFER_SIZE * j) (min c.length R) ∧
      s = dst.patch junk 0 (c.take w))
    (Q := fun w s => w = min c.length R ∧ s = dst.patch junk 0 (c.take w)) ⟨?_, ?_, ?_⟩
    ⟨(Nat.zero_min _).symm, by rw [List.take_zero, Holder.patch_nil]⟩
  · rintro j w s ⟨hw, rfl⟩ hj
    have hle : w ≤ min c.length R := hw ▸ min_le_right _ _
    have hx : piece c j ≠ [] := by
      rw [piece, ne_eq, List.take_eq_nil_iff, List.drop_eq_nil_iff]
      exact not_or.mpr ⟨by decide, by omega⟩
    rw [hput w _ hle]
    by_cases hzero : text.isSome ∧ 0 ∈ c.take w
    · obtain ⟨ret, m, hwrite, hret, hend, -⟩ :=
        ht.short (c.take w) (piece c j) (by rw [hlen w hle]; omega) hzero.1 hzero.2
      refine ⟨ret, m, _, congrArg Except.ok hwrite, ?_⟩
      rcases hret.lt_or_eq with hlt | rfl
      · exact .inl ⟨hlt, trivial⟩
      · refine .inr (.inl ⟨rfl, ?_, rfl⟩)
        rcases hend rfl with hnil | hfull | ⟨htext, hhead⟩
        · exact absurd hnil hx
        · rw [hlen w hle] at hfull
          omega
        · -- the front is written with the first piece, and the room ends with it
          have hpos : 0 < w := by
            by_contra hw0
            rw [Nat.le_zero.mp (Nat.le_of_not_lt hw0), List.take_zero] at hhead
            cases hhead
          have hj0 : 0 < j := by
            rcases Nat.eq_zero_or_pos j with rfl | hj0
            · rw [Nat.mul_zero, Nat.zero_min] at hw
              omega
            · exact hj0
          have hone : DEF_BUFFER_SIZE ≤ DEF_BUFFER_SIZE * j :=
            Nat.le_mul_of_pos_right _ hj0
          rw [List.head?_take, if_neg hpos.ne'] at hhead
          have hR : R ≤ DEF_BUFFER_SIZE := by
            by_contra hR
            exact hfront ⟨htext, hhead, by omega, by omega⟩
          omega
    · have hz : text.isSome → 0 ∉ c.take w := fun h h0 => hzero ⟨h, h0⟩
      rcases Nat.lt_or_ge w R with hlt | hge
      · rw [ht.some (c.take w) (piece c j) (by rw [hlen w hle]; exact hlt) hz hx]
        refine ⟨0, _, _, rfl, .inr (.inr ⟨rfl, ?_, ?_⟩)⟩
        all_goals
          have hwj : w = DEF_BUFFER_SIZE * j := by omega
          have hsucc : DEF_BUFFER_SIZE * (j + 1) = DEF_BUFFER_SIZE * j +
              DEF_BUFFER_SIZE := Nat.mul_succ _ _
          rw [hlen w hle]
        · rw [piece, List.length_take, List.length_drop]
          omega
        · congr 1
          rw [piece, ← hwj, List.length_take, List.length_drop, List.take_take,
            ← List.take_add]
          refine List.take_eq_take_iff.mpr ?_
          omega
      · obtain ⟨ret, m, hwrite, hret, -⟩ := ht.full (c.take w) (piece c j)
          (by rw [hlen w hle]; omega) hz (.inr (by rw [hlen w hle]; omega))
        refine ⟨ret, m, _, congrArg Except.ok hwrite, ?_⟩
        rcases hret with rfl | ⟨rfl, rfl⟩
        · exact .inr (.inl ⟨rfl, by omega, rfl⟩)
        · have hsucc : DEF_BUFFER_SIZE * (j + 1) = DEF_BUFFER_SIZE * j +
              DEF_BUFFER_SIZE := Nat.mul_succ _ _
          exact .inr (.inr ⟨rfl, by omega, rfl⟩)
  · rintro j w s ⟨hw, rfl⟩ hj -
    exact ⟨by omega, rfl⟩
  · rintro j w s ⟨hw, rfl⟩ hj hmute
    have hle : w ≤ min c.length R := hw ▸ min_le_right _ _
    rw [hput w _ hle]
    by_cases hzero : text.isSome ∧ 0 ∈ c.take w
    · obtain ⟨ret, m, hwrite, hret, -, -⟩ :=
        ht.short (c.take w) [] (by rw [hlen w hle]; omega) hzero.1 hzero.2
      refine ⟨ret, m, _, congrArg Except.ok hwrite, ?_⟩
      exact hret.lt_or_eq.imp (fun hlt => ⟨hlt, trivial⟩) fun heq => ⟨heq, by omega, rfl⟩
    · obtain ⟨ret, m, hwrite, -, hret⟩ :=
        ht.full (c.take w) [] (by rw [hlen w hle]; omega)
        (fun h h0 => hzero ⟨h, h0⟩) (.inl rfl)
      exact ⟨ret, m, _, congrArg Except.ok hwrite,
        .inr ⟨hret (hclosed hmute) rfl, by omega, rfl⟩⟩

/-- Writes that always succeed never stop the reads of a mute source. -/
theorem convertToLoop_endless {σ : Type} {read : Reader} {write : Writer σ}
    {I : σ → Prop} (hread : Gives read c true)
    (hwrite : ∀ w x s, I s → ∃ m s', write w x s = .ok (0, m, s') ∧ I s') (n : Nat) :
    ∀ r w x s, r ≤ c.length → I s →
      convertToLoop read write n r w x s = .error .outOfFuel := by
  induction n with
  | zero => exact fun r w x s hr hs => rfl
  | succ n ih =>
      intro r w x s hr hs
      obtain ⟨m, s', hw, hs'⟩ := hwrite w x s hs
      have hnext := hread r hr
      rw [if_neg fun h => Bool.noConfusion h.2] at hnext
      rw [convertToLoop_next hw hnext, if_neg (by decide), if_neg (by decide)]
      refine ih _ _ _ _ ?_ hs'
      rw [List.length_take, List.length_drop]
      omega

theorem convertTo_endless {σ : Type} {read : Reader} {write : Writer σ} {I : σ → Prop}
    (hread : Gives read c true)
    (hwrite : ∀ w x s, I s → ∃ m s', write w x s = .ok (0, m, s') ∧ I s') {s : σ}
    (hs : I s) (n : Nat) : convertTo read write n s = .error .outOfFuel := by
  have hfirst := hread 0 (Nat.zero_le _)
  rw [if_neg fun h => Bool.noConfusion h.2] at hfirst
  rw [convertTo, hfirst]
  refine convertToLoop_endless hread hwrite n _ _ _ _ ?_ hs
  rw [List.length_take, List.length_drop]
  omega

theorem convertTo_grows (hread : Gives src.reader c mute) (hmore : c ≠ [] ∨ mute = true)
    (hg : Grows junk dst 0 start R)
    (hone : c = [] ∨ start = 0 ∧ (c.length ≤ DEF_BUFFER_SIZE ∨ R ≤ DEF_BUFFER_SIZE)) :
    ∃ ret t dst', (∀ n, c.length < n → convertTo src.reader (Holder.writer junk) n dst
      = .ok (ret, t, dst')) ∧
      (ret = 0 ∧ t = min c.length R ∧ dst' = dst.patch junk 0 (c.take t) ∨ ret < -1 ∧
        False) := by
  have hlen : (c.take (min c.length R)).length = min c.length R :=
    List.length_take_of_le (min_le_left _ _)
  have hfull : ∀ x, x = [] ∨ min c.length R = R →
      ∃ m, Holder.writer junk (min c.length R) x
        (dst.patch junk 0 (c.take (min c.length R))) =
        .ok (-1, m, dst.patch junk 0 (c.take (min c.length R))) := by
    intro x hx
    obtain ⟨m, hwrite⟩ := hg.full (c.take (min c.length R)) x (by omega) (by rwa [hlen])
    rw [hlen, Nat.zero_add] at hwrite
    exact ⟨m, congrArg Except.ok hwrite⟩
  refine convertTo_sinks hread hmore
    (P := fun j w s => j = 0 ∧ w = 0 ∧ s = dst ∨ 0 < j ∧ w = min c.length R ∧
      s = dst.patch junk 0 (c.take w))
    (Q := fun w s => w = min c.length R ∧ s = dst.patch junk 0 (c.take w)) ⟨?_, ?_, ?_⟩
    (.inl ⟨rfl, rfl, rfl⟩)
  · rintro j w s (⟨rfl, rfl, rfl⟩ | ⟨hj0, rfl, rfl⟩) hj
    · have hc : c ≠ [] := List.ne_nil_of_length_pos hj
      obtain ⟨rfl, hfit⟩ := hone.resolve_left hc
      have hx : piece c 0 ≠ [] := by
        rw [piece, Nat.mul_zero, List.drop_zero, ne_eq, List.take_eq_nil_iff]
        exact not_or.mpr ⟨by decide, hc⟩
      have hshort : min (piece c 0).length R = min c.length R := by
        rw [piece, Nat.mul_zero, List.drop_zero, List.length_take]
        omega
      have htake : (piece c 0).take R = c.take (min c.length R) := by
        rw [piece, Nat.mul_zero, List.drop_zero, List.take_take]
        refine List.take_eq_take_iff.mpr ?_
        omega
      have hwrite := hg.first _ hx
      rw [hshort, htake] at hwrite
      exact ⟨0, _, _, congrArg Except.ok hwrite,
        .inr (.inr ⟨rfl, .inr ⟨Nat.one_pos, by omega, by congr 2; omega⟩⟩)⟩
    · have hone' : DEF_BUFFER_SIZE ≤ DEF_BUFFER_SIZE * j := Nat.le_mul_of_pos_right _ hj0
      have hc : c ≠ [] := List.ne_nil_of_length_pos (by omega)
      have hR := (hone.resolve_left hc).2.resolve_left (by omega)
      obtain ⟨m, hwrite⟩ := hfull (piece c j) (.inr (by omega))
      exact ⟨-1, m, _, hwrite, .inr (.inl ⟨rfl, rfl, rfl⟩)⟩
  · rintro j w s (⟨rfl, rfl, rfl⟩ | ⟨hj0, rfl, rfl⟩) hj -
    · refine ⟨by omega, ?_⟩
      rw [List.take_zero, Holder.patch_nil]
    · exact ⟨rfl, rfl⟩
  · rintro j w s (⟨rfl, rfl, rfl⟩ | ⟨hj0, rfl, rfl⟩) hj -
    · obtain rfl : c = [] := List.length_eq_zero_iff.mp (Nat.le_zero.mp hj)
      obtain ⟨m, hwrite⟩ := hfull [] (.inl rfl)
      rw [List.length_nil, Nat.zero_min, List.take_nil, Holder.patch_nil] at hwrite
      exact ⟨-1, m, _, hwrite, .inr
        ⟨rfl, by rw [List.length_nil, Nat.zero_min], by rw [List.take_nil, Holder.patch_nil]⟩⟩
    · obtain ⟨m, hwrite⟩ := hfull [] (.inl rfl)
      exact ⟨-1, m, _, hwrite, .inr ⟨rfl, rfl, rfl⟩⟩

end

/-- The bytes `c` are copied as they should be. -/
def Exact (c : List UInt8) (mute : Bool) : Door → Prop
  | .refused => True
  | .takes room closed text =>
      (mute = true → closed = true) ∧
        ¬ (text = some 0 ∧ c.head? = some 0 ∧ DEF_BUFFER_SIZE < c.length ∧
          DEF_BUFFER_SIZE < room)
  | .grows _ none => mute = false ∧ c.length ≤ DEF_BUFFER_SIZE
  | .grows start (some room) =>
      c = [] ∨ start = 0 ∧ (c.length ≤ DEF_BUFFER_SIZE ∨ room ≤ DEF_BUFFER_SIZE)

namespace Holder

/-- The source has nothing to copy, or nothing comes in between. -/
def Copies (src dst : Holder) : Prop :=
  ∀ c mute, src.look 0 = .bytes c mute → c = [] ∧ mute = false ∨ Exact c mute (dst.door 0)

/-- A slice of a `buffer_t` is written to more than once. -/
def Again (src dst : Holder) : Prop :=
  ∃ c mute start room, src.look 0 = .bytes c mute ∧
  dst.door 0 = .grows start (some room) ∧
    (DEF_BUFFER_SIZE < c.length ∨ mute = true)

/-- The bytes of a source. -/
def content (src : Holder) : List UInt8 :=
  match src.look 0 with
  | .bytes c _ => c
  | _ => []

/-- `data_default_convert_to` returns, and with 0 only if it has copied what
there was room for. -/
def Meets (junk : Nat → UInt8) (src dst : Holder) : Prop :=
  ∃ ret t dst', Returns (fun n => dataDefaultConvertTo junk n src dst) (ret, t, dst') ∧
    (ret = 0 → t = common (dst.room 0) src.content.length ∧
      dst' = dst.patch junk 0 (src.content.take t))

end Holder

section

variable {junk : Nat → UInt8} {src dst h : Holder} {c : List UInt8} {mute : Bool}
  {o R start : Nat} {closed : Bool} {text : Option Nat} {room : Option Nat}

theorem room_doorDefault {bytes : List UInt8}
    (hd : doorDefault bytes o text = .takes R closed room) : bytes.length - o = R := by
  unfold doorDefault at hd
  split_ifs at hd with hnil hout
  · cases hd
    omega
  · cases hd
    rfl

theorem Holder.room_of_takes (hd : h.door o = .takes R closed text) :
    h.room o = some R := by
  induction h generalizing o R closed text with
  | raw r =>
      cases r with
      | null size => cases hd
      | mem bytes => exact congrArg some (room_doorDefault hd)
  | string s => exact congrArg some (room_doorDefault hd)
  | memory m =>
      cases hd
      rfl
  | buffer bytes => cases hd
  | slice off size data ih =>
      rw [Holder.door] at hd
      split_ifs at hd with hout hend
      · cases hd
        rw [Holder.room, hend]
        cases data.room ((o + off.toNat) % 2 ^ 64) with
        | none => rfl
        | some n => exact congrArg some (Nat.zero_min n)
      · cases hdata : data.door ((o + off.toNat) % 2 ^ 64) with
        | refused => rw [hdata] at hd; cases hd
        | grows start room => rw [hdata] at hd; cases hd
        | takes R' closed' text' =>
            rw [hdata] at hd
            cases hd
            rw [Holder.room, ih hdata]
            rfl

theorem Holder.room_of_grows (hd : h.door o = .grows start room) : h.room o = room := by
  induction h generalizing o start room with
  | raw r =>
      cases r with
      | null size => cases hd
      | mem bytes => exact absurd hd doorDefault_ne_grows
  | string s => exact absurd hd doorDefault_ne_grows
  | memory m => cases hd
  | buffer bytes =>
      cases hd
      rfl
  | slice off size data ih =>
      rw [Holder.door] at hd
      split_ifs at hd with hout hend
      cases hdata : data.door ((o + off.toNat) % 2 ^ 64) with
      | refused => rw [hdata] at hd; cases hd
      | takes R' closed' text' => rw [hdata] at hd; cases hd
      | grows start' room' =>
          rw [hdata] at hd
          cases hd
          rw [Holder.room, ih hdata]

/-- Only in a `memory_t` a write of no bytes succeeds. -/
theorem Holder.memory_of_door (hd : h.door o = .takes R false text) :
    ∃ m, h = .memory m := by
  have hdefault : ∀ {bytes : List UInt8} {t : Option Nat},
      doorDefault bytes o t ≠ .takes R false text := by
    intro bytes t hd
    unfold doorDefault at hd
    split_ifs at hd <;> cases hd
  cases h with
  | raw r =>
      cases r with
      | null size => cases hd
      | mem bytes => exact absurd hd hdefault
  | string s => exact absurd hd hdefault
  | memory m => exact ⟨m, rfl⟩
  | buffer bytes => cases hd
  | slice off size data =>
      rw [Holder.door] at hd
      split_ifs at hd with hout hend
      · cases hd
      · cases hdata : data.door ((o + off.toNat) % 2 ^ 64)
          <;> rw [hdata] at hd <;> cases hd

variable (junk) in
theorem Holder.write_memory (m : Memory) (w : Nat) (x : List UInt8) :
    ∃ k m', (Holder.memory m).write junk w x = (0, k, .memory m') := by
  cases m with
  | freed exactSize => exact ⟨_, _, rfl⟩
  | held ptrSize bytes => exact ⟨_, _, rfl⟩

/-! ### What goes wrong -/

/-- A text that becomes empty takes no second piece. -/
theorem convertTo_front (hread : Gives src.reader c mute)
    (ht : Takes junk dst 0 R closed (some 0)) (hhead : c.head? = some 0)
    (hlen : DEF_BUFFER_SIZE < c.length) (hR : DEF_BUFFER_SIZE < R) :
    ∃ ret t dst', (∀ n, c.length < n → convertTo src.reader (Holder.writer junk) n dst
      = .ok (ret, t, dst')) ∧ (ret = 0 ∧ t = DEF_BUFFER_SIZE ∨ ret < -1 ∧ False) := by
  have hsize : 0 < DEF_BUFFER_SIZE := by decide
  have hc : c ≠ [] := List.ne_nil_of_length_pos (by omega)
  have hfirst : (piece c 0).length = DEF_BUFFER_SIZE := by
    rw [piece, Nat.mul_zero, List.drop_zero, List.length_take_of_le hlen.le]
  have hfront : (piece c 0).head? = some 0 := by
    rw [piece, Nat.mul_zero, List.drop_zero, List.head?_take, if_neg hsize.ne', hhead]
  refine convertTo_sinks hread (.inl hc)
    (P := fun j w s => j = 0 ∧ w = 0 ∧ s = dst ∨ j = 1 ∧ w = DEF_BUFFER_SIZE ∧
      s = dst.patch junk 0 (piece c 0))
    (Q := fun w _ => w = DEF_BUFFER_SIZE) ⟨?_, ?_, ?_⟩ (.inl ⟨rfl, rfl, rfl⟩)
  · rintro j w s (⟨rfl, rfl, rfl⟩ | ⟨rfl, rfl, rfl⟩) -
    · have hwrite := ht.some [] (piece c 0) (by rw [List.length_nil]; omega)
          (fun _ => List.not_mem_nil)
        (List.ne_nil_of_length_pos (by omega))
      rw [List.length_nil, Nat.sub_zero, List.nil_append, Holder.patch_nil, hfirst,
        min_eq_left hR.le, List.take_of_length_le (by omega)] at hwrite
      exact ⟨0, _, _, congrArg Except.ok hwrite,
        .inr (.inr ⟨rfl, .inr ⟨rfl, Nat.zero_add _, rfl⟩⟩)⟩
    · obtain ⟨ret, m, hwrite, -, -, hret⟩ :=
        ht.short (piece c 0) (piece c 1) (by omega) rfl (List.mem_of_head? hfront)
      rw [hfirst, Nat.zero_add] at hwrite
      exact ⟨ret, m, _, congrArg Except.ok hwrite, .inr (.inl ⟨hret rfl hfront, rfl⟩)⟩
  · rintro j w s (⟨rfl, rfl, rfl⟩ | ⟨rfl, rfl, rfl⟩) hj -
    · omega
    · rfl
  · rintro j w s (⟨rfl, rfl, rfl⟩ | ⟨rfl, rfl, rfl⟩) hj -
    · omega
    · omega

/-- Two pieces in a `buffer_t` are told to be more than the source has. -/
theorem convertTo_far {bytes : List UInt8} (hread : Gives src.reader c false)
    (hlen : DEF_BUFFER_SIZE < c.length) :
    ∃ ret t dst', (∀ n, c.length < n → convertTo src.reader (Holder.writer junk) n
      (.buffer bytes) = .ok (ret, t, dst')) ∧
      (ret = 0 ∧ c.length < t ∨ ret < -1 ∧ False) := by
  have hc : c ≠ [] := List.ne_nil_of_length_pos (by omega)
  refine convertTo_sinks hread (.inl hc)
    (P := fun j w s => (∃ bytes, s = .buffer bytes) ∧
      min (DEF_BUFFER_SIZE * j) c.length ≤ w ∧
      (1 < j → min (DEF_BUFFER_SIZE * j) c.length < w))
    (Q := fun w _ => c.length < w) ⟨?_, ?_, fun _ _ _ _ _ h => Bool.noConfusion h⟩
    ⟨⟨bytes, rfl⟩, by omega, fun h => absurd h (by decide)⟩
  · rintro j w s ⟨⟨bytes, rfl⟩, hw, hfar⟩ hj
    refine ⟨0, _, _, rfl, .inr (.inr ⟨rfl, ⟨_, rfl⟩, ?_⟩)⟩
    have hstep := add_length_piece c j
    refine ⟨by omega, fun hj1 => ?_⟩
    have hone : DEF_BUFFER_SIZE ≤ DEF_BUFFER_SIZE * j :=
      Nat.le_mul_of_pos_right _ (Nat.lt_of_succ_lt_succ hj1)
    have hsize : 0 < DEF_BUFFER_SIZE := by decide
    omega
  · rintro j w s ⟨-, hw, hfar⟩ hj -
    have hj1 : 1 < j := by
      by_contra hj1
      have hmul := Nat.mul_le_mul_left DEF_BUFFER_SIZE (Nat.le_of_not_lt hj1)
      omega
    have := hfar hj1
    omega

theorem convertTo_start (hread : Gives src.reader c false)
    (hg : Grows junk dst 0 start R) (hc : c ≠ []) (hlen : c.length ≤ DEF_BUFFER_SIZE) :
    ∃ ret t dst', (∀ n, c.length < n → convertTo src.reader (Holder.writer junk) n dst
      = .ok (ret, t, dst')) ∧
      (ret = 0 ∧ t = start + min c.length R ∨ ret < -1 ∧ False) := by
  have hfirst : piece c 0 = c := by
    rw [piece, Nat.mul_zero, List.drop_zero, List.take_of_length_le hlen]
  refine convertTo_sinks hread (.inl hc)
    (P := fun j w s => j = 0 ∧ w = 0 ∧ s = dst ∨ 0 < j ∧ w = start + min c.length R)
    (Q := fun w _ => w = start + min c.length R)
    ⟨?_, ?_, fun _ _ _ _ _ h => Bool.noConfusion h⟩ (.inl ⟨rfl, rfl, rfl⟩)
  · rintro j w s (⟨rfl, rfl, rfl⟩ | ⟨hj0, rfl⟩) hj
    · rw [hfirst]
      exact ⟨0, _, _, congrArg Except.ok (hg.first c hc),
        .inr (.inr ⟨rfl, .inr ⟨Nat.one_pos, Nat.zero_add _⟩⟩)⟩
    · have hone : DEF_BUFFER_SIZE ≤ DEF_BUFFER_SIZE * j := Nat.le_mul_of_pos_right _ hj0
      omega
  · rintro j w s (⟨rfl, rfl, rfl⟩ | ⟨hj0, rfl⟩) hj -
    · exact absurd (List.length_eq_zero_iff.mp (Nat.le_zero.mp hj)) hc
    · rfl

theorem Holder.not_meets_of_endless (hread : Gives src.reader c true)
    {I : Holder → Prop} (hI : I dst) (hwrite : ∀ w x s, I s → ∃ m s',
      Holder.writer junk w x s = .ok (0, m, s') ∧ I s') : ¬ src.Meets junk dst := by
  rintro ⟨ret, t, dst', hret, -⟩
  exact Fails.not_returns (.of_forall fun n => convertTo_endless hread hwrite hI n) hret

/-- What a transfer that meets its purpose has reported. -/
theorem Holder.Meets.reported (hmeets : src.Meets junk dst)
    (hl : src.look 0 = .bytes c mute) {ret : Int} {t : Nat} {dst' : Holder} {P : Prop}
    (hrun : ∀ n, c.length < n → convertTo src.reader (Holder.writer junk) n dst
      = .ok (ret, t, dst'))
    (hret : ret = 0 ∧ P ∨ ret < -1 ∧ False) : t = common (dst.room 0) c.length ∧ P := by
  obtain ⟨rfl, hP⟩ := hret.resolve_right And.right
  obtain ⟨ret', t', dst'', hreturns, ht⟩ := hmeets
  cases hreturns.unique ⟨c.length + 1, fun n hn => hrun n hn⟩
  have hcontent : src.content = c := by
    rw [Holder.content, hl]
  rw [hcontent] at ht
  exact ⟨(ht rfl).1, hP⟩

theorem Holder.Meets.of_run (hl : src.look 0 = .bytes c mute) {ret : Int} {t : Nat}
    {dst' : Holder} {F : Prop} (hrun : ∀ n, c.length < n →
      convertTo src.reader (Holder.writer junk) n dst = .ok (ret, t, dst'))
    (hret : ret = 0 ∧ t = common (dst.room 0) c.length ∧
      dst' = dst.patch junk 0 (c.take t) ∨ ret < -1 ∧ F) :
    src.Meets junk dst := by
  have hcontent : src.content = c := by
    rw [Holder.content, hl]
  refine ⟨ret, t, dst', ⟨c.length + 1, fun n hn => hrun n hn⟩, fun hzero => ?_⟩
  rw [hcontent]
  refine (hret.resolve_right fun hlt => ?_).2
  omega

theorem Holder.Meets.of_unread {d : List UInt8} {n : Nat} {ret : Int}
    (hread : src.read 0 DEF_BUFFER_SIZE = (ret, d, n)) (hret : ret < 0) :
    src.Meets junk dst := by
  refine ⟨ret, 0, dst, .of_forall fun fuel => ?_, fun hzero => absurd hzero hret.ne⟩
  have hfirst : src.reader 0 DEF_BUFFER_SIZE = .ok (ret, d) := by
    simp only [Holder.reader, hread]
  rw [dataDefaultConvertTo, convertTo, hfirst]
  exact if_pos hret

/-! ### Which transfers copy -/

theorem Holder.meets_of_exact (hs : src.Sized) (hd : dst.Sized)
    (hl : src.look 0 = .bytes c mute) (hmore : c ≠ [] ∨ mute = true)
    (hexact : Exact c mute (dst.door 0)) : src.Meets junk dst := by
  have hread := Holder.gives_reader hs hl
  cases hdoor : dst.door 0 with
  | refused =>
      -- the first write fails
      have hstop : Sinks (Holder.writer junk) c mute
          (fun j w s => j = 0 ∧ w = 0 ∧ s = dst)
          (fun w s => w = 0 ∧ s = dst ∧ c = []) True := by
        refine ⟨?_, ?_, ?_⟩
        · rintro j w s ⟨rfl, rfl, rfl⟩ hj
          obtain ⟨ret, m, hwrite, hret⟩ := Holder.write_of_refused junk hdoor (piece c 0)
          refine ⟨ret, m, _, congrArg Except.ok hwrite,
            .inl ⟨hret.resolve_right fun h => ?_, trivial⟩⟩
          have hnil := h.2
          rw [piece, Nat.mul_zero, List.drop_zero, List.take_eq_nil_iff] at hnil
          rcases hnil with hzero | rfl
          · cases hzero
          · exact absurd hj (Nat.lt_irrefl 0)
        · rintro j w s ⟨rfl, rfl, rfl⟩ hj -
          exact ⟨rfl, rfl, List.length_eq_zero_iff.mp (Nat.le_zero.mp hj)⟩
        · rintro j w s ⟨rfl, rfl, rfl⟩ hj -
          obtain ⟨ret, m, hwrite, hret⟩ := Holder.write_of_refused junk hdoor []
          exact ⟨ret, m, _, congrArg Except.ok hwrite,
            hret.imp (fun h => ⟨h, trivial⟩) fun h =>
            ⟨h.1, rfl, rfl, List.length_eq_zero_iff.mp (Nat.le_zero.mp hj)⟩⟩
      obtain ⟨ret, t, dst', hrun, hret⟩ :=
        convertTo_sinks hread hmore hstop ⟨rfl, rfl, rfl⟩
      refine .of_run hl hrun (hret.imp_left ?_)
      rintro ⟨rfl, rfl, rfl, rfl⟩
      refine ⟨rfl, ?_, by rw [List.take_nil, Holder.patch_nil]⟩
      cases dst'.room 0 with
      | none => rfl
      | some n => exact (Nat.zero_min n).symm
  | takes R closed text =>
      rw [hdoor] at hexact
      have ht := takes_of_door junk hd (by decide) hdoor
      obtain ⟨ret, t, dst', hrun, hret⟩ :=
        convertTo_takes hread hmore ht hexact.1 hexact.2
      refine .of_run hl hrun (F := True) ?_
      rwa [Holder.room_of_takes hdoor, common_some]
  | grows start room =>
      rw [hdoor] at hexact
      cases room with
      | some R =>
          have hg := (grows_of_door junk (by decide) hdoor).2
          obtain ⟨ret, t, dst', hrun, hret⟩ := convertTo_grows hread hmore hg hexact
          refine .of_run hl hrun (F := False) ?_
          rwa [Holder.room_of_grows hdoor, common_some]
      | none =>
          obtain ⟨bytes, rfl, rfl⟩ := Holder.buffer_of_door hdoor
          obtain ⟨rfl, hlen⟩ := hexact
          have hc : c ≠ [] := hmore.resolve_right Bool.false_ne_true
          -- one write, and then the end of the source
          have hone : Sinks (Holder.writer junk) c false
              (fun j w s => j = 0 ∧ w = 0 ∧ s = .buffer bytes ∨ 0 < j ∧ w = c.length ∧
                s = (Holder.buffer bytes).patch junk 0 c)
              (fun w s => w = c.length ∧ s = (Holder.buffer bytes).patch junk 0 c)
              False := by
            refine ⟨?_, ?_, fun _ _ _ _ _ h => Bool.noConfusion h⟩
            · rintro j w s (⟨rfl, rfl, rfl⟩ | ⟨hj0, -⟩) hj
              · have hfirst : piece c 0 = c := by
                  rw [piece, Nat.mul_zero, List.drop_zero, List.take_of_length_le hlen]
                rw [hfirst, Holder.patch, if_neg hc]
                exact ⟨0, _, _, rfl, .inr (.inr ⟨rfl, .inr ⟨Nat.one_pos, by omega, rfl⟩⟩)⟩
              · have hmul : DEF_BUFFER_SIZE ≤ DEF_BUFFER_SIZE * j :=
                  Nat.le_mul_of_pos_right _ hj0
                omega
            · rintro j w s (⟨rfl, rfl, rfl⟩ | ⟨-, hQ⟩) hj -
              · exact absurd (List.length_eq_zero_iff.mp (Nat.le_zero.mp hj)) hc
              · exact hQ
          obtain ⟨ret, t, dst', hrun, hret⟩ :=
            convertTo_sinks hread hmore hone (.inl ⟨rfl, rfl, rfl⟩)
          refine .of_run hl hrun (hret.imp_left ?_)
          rintro ⟨rfl, rfl, rfl⟩
          exact ⟨rfl, rfl, by rw [List.take_length]⟩

theorem Holder.exact_of_meets (hs : src.Sized) (hd : dst.Sized)
    (hl : src.look 0 = .bytes c mute) (hmore : c ≠ [] ∨ mute = true)
    (hagain : ¬ src.Again dst) (hmeets : src.Meets junk dst) :
    Exact c mute (dst.door 0) := by
  have hread := Holder.gives_reader hs hl
  cases hdoor : dst.door 0 with
  | refused => trivial
  | takes R closed text =>
      refine ⟨fun hmute => ?_, ?_⟩
      · subst hmute
        by_contra hclosed
        rw [Bool.eq_false_of_not_eq_true hclosed] at hdoor
        obtain ⟨m, rfl⟩ := Holder.memory_of_door hdoor
        refine Holder.not_meets_of_endless hread (I := fun s => ∃ m, s = .memory m)
          ⟨m, rfl⟩ ?_ hmeets
        rintro w x s ⟨m, rfl⟩
        obtain ⟨k, m', hwrite⟩ := Holder.write_memory junk m w x
        exact ⟨k, _, congrArg Except.ok hwrite, m', rfl⟩
      · rintro ⟨rfl, hhead, hlen, hR⟩
        have ht := takes_of_door junk hd (by decide) hdoor
        obtain ⟨ret, t, dst', hrun, hret⟩ := convertTo_front hread ht hhead hlen hR
        have ht := hmeets.reported hl hrun hret
        rw [Holder.room_of_takes hdoor, common_some] at ht
        omega
  | grows start room =>
      cases room with
      | none =>
          obtain ⟨bytes, rfl, rfl⟩ := Holder.buffer_of_door hdoor
          have hmute : mute = false := by
            by_contra htrue
            rw [Bool.eq_true_of_not_eq_false htrue] at hread
            refine Holder.not_meets_of_endless hread
              (I := fun s => ∃ bytes, s = .buffer bytes) ⟨bytes, rfl⟩ ?_ hmeets
            rintro w x s ⟨bytes, rfl⟩
            exact ⟨_, _, rfl, _, rfl⟩
          refine ⟨hmute, Nat.le_of_not_lt fun hlen => ?_⟩
          subst hmute
          obtain ⟨ret, t, dst', hrun, hret⟩ := convertTo_far hread hlen
          have ht := hmeets.reported hl hrun hret
          rw [Holder.room_of_grows hdoor] at ht
          exact absurd ht.1 ht.2.ne'
      | some R =>
          have hone : ¬ (DEF_BUFFER_SIZE < c.length ∨ mute = true) :=
            fun h => hagain ⟨c, mute, start, R, hl, hdoor, h⟩
          obtain ⟨hlen, hmute⟩ := not_or.mp hone
          obtain rfl := Bool.eq_false_of_not_eq_true hmute
          have hc : c ≠ [] := hmore.resolve_right Bool.false_ne_true
          have hg := (grows_of_door junk (by decide) hdoor).2
          obtain ⟨ret, t, dst', hrun, hret⟩ :=
            convertTo_start hread hg hc (Nat.le_of_not_lt hlen)
          have ht := hmeets.reported hl hrun hret
          rw [Holder.room_of_grows hdoor, common_some] at ht
          exact .inr ⟨by omega, .inl (Nat.le_of_not_lt hlen)⟩

/-- **The generic transfer copies the common prefix** if nothing comes in between; and
unless a slice of a `buffer_t` is written to again, only then. -/
theorem dataDefaultConvertTo_copies (junk : Nat → UInt8) (src dst : Holder)
    (hs : src.Sized) (hd : dst.Sized) :
    (src.Copies dst → src.Meets junk dst) ∧
      (¬ src.Again dst → (src.Meets junk dst ↔ src.Copies dst)) := by
  have hmeets : src.Copies dst → src.Meets junk dst := by
    intro hcopies
    cases hl : src.look 0 with
    | refused =>
        have hlt := src.read_of_refused hl (n := DEF_BUFFER_SIZE) (by decide)
        exact .of_unread rfl (by omega)
    | debris room =>
        exact .of_unread (src.read_of_debris hl (by decide) fun r _ => Nat.zero_le r)
          (by decide)
    | bytes c mute =>
        by_cases hend : c = [] ∧ mute = false
        · exact .of_unread (src.read_of_bytes hl (by decide))
            (by rw [if_pos hend]; decide)
        · refine Holder.meets_of_exact hs hd hl ?_ ((hcopies c mute hl).resolve_left hend)
          rcases not_and_or.mp hend with hc | hmute
          · exact .inl hc
          · exact .inr (Bool.eq_true_of_not_eq_false hmute)
  refine ⟨hmeets, fun hagain => ⟨fun h c mute hl => ?_, hmeets⟩⟩
  by_cases hend : c = [] ∧ mute = false
  · exact .inl hend
  · refine .inr (Holder.exact_of_meets hs hd hl ?_ hagain h)
    rcases not_and_or.mp hend with hc | hmute
    · exact .inl hc
    · exact .inr (Bool.eq_true_of_not_eq_false hmute)

end

theorem dataDefaultConvertTo_copies_slice :
    let src := Holder.raw (.mem [1, 2, 3])
    let dst := Holder.slice 1 2 (.memory (.held 0 [7, 8, 9, 10]))
    (src.Copies dst → src.Meets (fun _ => 0) dst) ∧
    (¬ src.Again dst → (src.Meets (fun _ => 0) dst ↔ src.Copies dst)) :=
  dataDefaultConvertTo_copies _ (.raw (.mem [1, 2, 3]))
    (.slice 1 2 (.memory (.held 0 [7, 8, 9, 10])))
    (fun bytes h => by cases h; decide) (by unfold Holder.Sized Holder.Sized; decide)

/-- One byte from a `memory_t` to another, which is copied for ever, and one byte to a
slice from the second byte of a `buffer_t` on, which is told to be two. -/
theorem dataDefaultConvertTo_not_copies :
    ¬ (Holder.memory (.held 1 [1])).Meets (fun _ => 0) (.memory (.held 1 [0])) ∧
      ¬ (Holder.raw (.mem [1])).Meets (fun _ => 0) (.slice 1 2 (.buffer [])) := by
  constructor
  · have hs : (Holder.memory (.held 1 [1])).Sized := (by decide : 1 ≤ maxObject)
    refine Holder.not_meets_of_endless (Holder.gives_reader hs rfl)
      (I := fun s => ∃ m, s = .memory m) ⟨_, rfl⟩ ?_
    rintro w x s ⟨m, rfl⟩
    obtain ⟨k, m', hwrite⟩ := Holder.write_memory (fun _ => 0) m w x
    exact ⟨k, _, congrArg Except.ok hwrite, m', rfl⟩
  · intro hmeets
    have hs : (Holder.raw (.mem [1])).Sized := fun bytes h => by
      cases h
      decide
    have hl : (Holder.raw (.mem [1])).look 0 = .bytes [1] false := rfl
    have hg := (grows_of_door (fun _ => 0) (h := .slice 1 2 (.buffer [])) (o := 0)
        (R := 2) (by decide) rfl).2
    obtain ⟨ret, t, dst', hrun, hret⟩ :=
      convertTo_start (Holder.gives_reader hs hl) hg (by decide) (by decide)
    obtain ⟨hcommon, htwo⟩ := hmeets.reported hl hrun hret
    exact absurd (hcommon.symm.trans htwo) (by decide)

/-! ## Buffers -/

/-- `data_buffer_t_write` of a chain of chunks. -/
def bufferWrite (fuel : Nat) (st : Chunked.State) (offset buf n chunk : Nat) :
    Except Chunked.Stop (Int × Nat × Chunked.State) := do
  let r ← st.write fuel offset buf n chunk
  .ok (0, r.2, r.1)

theorem write_reported {fuel offset buf n chunk : Nat} {st : Chunked.State}
    {r : Chunked.State × Nat} (h : st.write fuel offset buf n chunk = .ok r) :
    r.2 = offset + n := by
  rw [Chunked.State.write] at h
  cases hwalk : Chunked.State.process (some chunk) (Chunked.State.writeBody offset buf)
    fuel (offset + n) 0
      st.buffer.head st () with
  | error e => rw [hwalk] at h; cases h
  | ok r' =>
      rw [hwalk] at h
      cases h
      rfl

/-- An array that was written to is the old one, with bytes from memory where
there were none. -/
theorem eq_bufferPut {a a' d : List UInt8} {offset : Nat}
    (hlen : a'.length = max a.length (offset + d.length))
    (hin : ∀ i, i < d.length → a'[offset + i]? = d[i]?) (hout : ∀ k, k < a.length →
      ¬ (offset ≤ k ∧ k < offset + d.length) → a'[k]? = a[k]?) :
    bufferPut (fun k => (a'[a.length + k]?).getD 0) a offset d = a' := by
  have hfront : ((a ++ blank (fun k => (a'[a.length + k]?).getD 0)
      (offset - a.length)).take offset).length = offset := by
    rw [List.length_take, List.length_append, length_blank]
    omega
  refine List.ext_getElem? fun i => ?_
  rw [bufferPut, List.append_assoc]
  rcases Nat.lt_or_ge i offset with hi | hi
  · rw [List.getElem?_append_left (by omega), List.getElem?_take_of_lt hi]
    rcases Nat.lt_or_ge i a.length with hia | hia
    · rw [List.getElem?_append_left hia, hout i hia (by omega)]
    · have hlt : i < a'.length := by omega
      have hrest : a.length + (i - a.length) = i := by omega
      rw [List.getElem?_append_right hia, blank, List.getElem?_map,
        List.getElem?_range (by omega), Option.map_some, hrest,
        List.getElem?_eq_getElem hlt, Option.getD_some]
  · rw [List.getElem?_append_right (by omega), hfront]
    rcases Nat.lt_or_ge i (offset + d.length) with hid | hid
    · rw [List.getElem?_append_left (by omega), ← hin (i - offset) (by omega),
        Nat.add_sub_cancel' hi]
    · rw [List.getElem?_append_right (by omega), List.getElem?_drop]
      have hrest : offset + d.length + (i - offset - d.length) = i := by omega
      rw [hrest]
      rcases Nat.lt_or_ge i a.length with hia | hia
      · exact (hout i hia (by omega)).symm
      · rw [List.getElem?_eq_none hia, List.getElem?_eq_none (by omega)]

/-- **A chain of chunks is written as the bytes in it.** -/
theorem bufferWrite_holder {st : Chunked.State} {links : List Chunked.Link}
    {a : List UInt8} (h : Chunked.Represents st links a) {offset buf n chunk : Nat}
    (hlegal : Chunked.Legal st links a.length (.write offset buf n chunk)) :
    ∃ st' links' a' junk k,
      Returns (fun fuel => bufferWrite fuel st offset buf n chunk) (0, k, st') ∧
      Chunked.Represents st' links' a' ∧
      (Holder.buffer a).write junk offset (Chunked.bytes st.mem buf n)
        = (0, k, .buffer a') := by
  obtain ⟨st', links', a', res, hreturns, ⟨hlen, hin, hout⟩, hrep⟩ :=
    Chunked.flatStep_write h hlegal
  have hres : res = offset + n := by
    obtain ⟨N, hN⟩ := hreturns
    exact write_reported (hN N (le_refl N))
  have hput : bufferPut (fun k => (a'[a.length + k]?).getD 0) a offset
      (Chunked.bytes st.mem buf n) = a' := by
    refine eq_bufferPut ?_ (fun i hi => ?_) ?_
    · rwa [Chunked.length_bytes]
    · rw [Chunked.length_bytes] at hi
      rw [hin i hi, Chunked.getElem?_bytes, if_pos hi]
    · rwa [Chunked.length_bytes]
  refine ⟨st', links', a', fun k => (a'[a.length + k]?).getD 0, res,
    hreturns.bind (.of_forall fun fuel => rfl), hrep, ?_⟩
  rw [Holder.write, hput, hres, Chunked.length_bytes]

end Frozen.Data
