/-
# `Frozen.Cache.Sane` — files that requests leave behind

Every request to the file backend returns, what it answers depends on the bytes of the
file alone, and the size that `file_stat` remembers is the size of the file.
-/
import Frozen.Cache.Backend

namespace Frozen.Cache

open Lib

/-! ## Slices -/

/-- A holder with these bytes, and what it answers behind them. -/
def Holds (dev : Reader) (bs : List UInt8) (behind : Int) : Prop :=
  ∀ p n, p ≤ bs.length → 0 < n → dev p n =
    if p < bs.length then .ok (0, (bs.drop p).take n) else .ok (behind, [])

theorem holds_fileIoRead {f : File} (h : f.bytes.length ≤ OFF_MAX) :
    Holds (fileIoRead f) f.bytes (-1) := by
  intro p n hp hn
  have hoff : ¬OFF_MAX < p := by omega
  by_cases hlt : p < f.bytes.length
  · have hne : (f.bytes.drop p).take n ≠ [] := by
      intro hnil
      have hlen := congrArg List.length hnil
      simp only [List.length_take, List.length_drop, List.length_nil] at hlen
      omega
    rw [fileIoRead, if_neg hoff, if_neg (fun h => hne h.1), if_pos hlt]
  · have hnil : (f.bytes.drop p).take n = [] := by
      rw [List.drop_eq_nil_of_le (by omega), List.take_nil]
    rw [fileIoRead, if_neg hoff, if_pos ⟨hnil, by omega⟩, if_neg hlt]

theorem holds_memoryRead (m : Memory) : Holds (memoryRead m) m.bytes 0 := by
  intro p n hp hn
  unfold memoryRead
  split
  · rfl
  · rw [List.drop_eq_nil_of_le (by omega), List.take_nil]

/-- What a slice has to give: its end is the slice's own, or that of the holder. -/
theorem served_slice {dev : Reader} {bs : List UInt8} {behind : Int}
    (hdev : Holds dev bs behind) (hbehind : behind = -1 ∨ behind = 0)
    (hlen : bs.length < 2 ^ 64) {off : Nat} (size : Nat) (hoff : off ≤ bs.length) :
    Served (sliceRead off size dev) ((bs.drop off).take size)
      (if size ≤ bs.length - off then -1 else behind) := by
  have hdata : ((bs.drop off).take size).length = min size (bs.length - off) := by
    rw [List.length_take, List.length_drop]
  refine ⟨?_, ?_, ?_⟩
  · intro o ho
    rw [hdata] at ho
    have hpos : 0 < min DEF_BUFFER_SIZE (size - o) := by
      unfold DEF_BUFFER_SIZE
      omega
    refine ⟨min DEF_BUFFER_SIZE (size - o), hpos, ?_⟩
    rw [sliceRead, if_neg (by omega), if_neg (by omega), Nat.mod_eq_of_lt (by omega),
      hdev _ _ (by omega) hpos, if_pos (by omega), List.drop_take, List.drop_drop,
      List.take_take, min_eq_left (min_le_right _ _), Nat.add_comm]
  · rw [hdata]
    by_cases hsize : size ≤ bs.length - off
    · rw [if_pos hsize, min_eq_left hsize, sliceRead, if_neg (by omega),
        if_pos (by omega)]
    · have hpos : 0 < min DEF_BUFFER_SIZE (size - (bs.length - off)) := by
        unfold DEF_BUFFER_SIZE
        omega
      rw [if_neg hsize, min_eq_right (by omega), sliceRead, if_neg (by omega),
        if_neg (by omega),
        Nat.mod_eq_of_lt (by omega), hdev _ _ (by omega) hpos, if_neg (by omega)]
  · split
    · exact .inl rfl
    · exact hbehind

/-! ## Files -/

/-- A file that an `off_t` measures, and whose size is what is remembered. -/
structure Sane (f : File) : Prop where
  length : f.bytes.length ≤ OFF_MAX
  stat : f.stat = none ∨ f.stat = some f.bytes.length

theorem Sane.updateCount {f : File} (h : Sane f) :
    fileUpdateCount f = ⟨f.bytes, some f.bytes.length⟩ := by
  rcases h.stat with hstat | hstat <;> simp [fileUpdateCount, hstat]

theorem sane_updated {bs : List UInt8} (h : bs.length ≤ OFF_MAX) :
    Sane ⟨bs, some bs.length⟩ :=
  ⟨h, .inr rfl⟩

theorem length_putAt {bs d : List UInt8} {offset : Nat} :
    (putAt bs offset d).length = max (offset + d.length) bs.length := by
  simp only [putAt, List.length_append, List.length_take, List.length_replicate,
    List.length_drop]
  omega

theorem length_pwrite {bs bs' d : List UInt8} {offset k : Nat} (hbs : bs.length ≤ OFF_MAX)
    (h : pwrite bs offset d = .ok (k, bs')) : bs'.length ≤ OFF_MAX := by
  unfold pwrite at h
  split_ifs at h with h₁ h₂ h₃ <;> cases h
  · exact hbs
  · rw [length_putAt, List.length_take]
    omega

/-- A write that begins inside the file. -/
theorem pwrite_inside {bs d : List UInt8} {offset : Nat} (hd : d ≠ [])
    (hoff : offset ≤ bs.length) (hmax : offset + d.length ≤ OFF_MAX) :
    pwrite bs offset d = .ok (d.length, patch bs (offset, d)) := by
  have hpos : 0 < d.length := List.length_pos_of_ne_nil hd
  rw [pwrite, if_neg (by omega), if_neg hd, if_neg (by omega), min_eq_left (by omega),
    List.take_of_length_le (by omega), putAt, Nat.sub_eq_zero_of_le hoff,
    List.replicate_zero, List.append_nil]
  rfl

theorem length_ftruncate {bs bs' : List UInt8} {length : Nat}
    (h : ftruncate bs length = some bs') : bs'.length ≤ OFF_MAX := by
  unfold ftruncate at h
  split at h
  · cases h
  · cases h
    simp only [List.length_append, List.length_take, List.length_replicate]
    omega

theorem length_moveLoop {maxSize : Nat} {direction : Int} {n moveSize size : Nat}
    {start target : Int} {bs : List UInt8} (hbs : bs.length ≤ OFF_MAX) :
    (moveLoop maxSize direction n moveSize size start target bs).2.length ≤ OFF_MAX := by
  induction n generalizing moveSize size start target bs with
  | zero => exact hbs
  | succ n ih =>
      simp only [moveLoop]
      split_ifs
      · exact hbs
      · exact hbs
      · exact hbs
      · exact hbs
      · split
        · exact hbs
        · next hwrite => exact ih (length_pwrite hbs hwrite)

/-! ## Requests return -/

/-- Two files with the same bytes answer a request alike. -/
def Alike (bufferSize : Nat) (f g : File) (request : Request) : Prop :=
  ∃ reply f' g', Returns (fun n => fileQuery bufferSize n f request) (reply, f') ∧
    Returns (fun n => fileQuery bufferSize n g request) (reply, g') ∧
    Sane f' ∧ Sane g' ∧ f'.bytes = g'.bytes

/-- Behind the end the first piece fails. -/
theorem convertTo_behind {f : File} {off size : Nat} (hoff : f.bytes.length < off)
    (hsize : off < 2 ^ 64) (buf : List UInt8) :
    ∃ ret, ∀ n, convertTo (sliceRead off size (fileIoRead f)) rawWrite n buf
      = .ok (ret, 0, buf) := by
  have hfirst : ∃ ret < 0, sliceRead off size (fileIoRead f) 0 DEF_BUFFER_SIZE
      = .ok (ret, []) := by
    have hnil : ∀ k, (f.bytes.drop off).take k = [] := fun k => by
      rw [List.drop_eq_nil_of_le hoff.le, List.take_nil]
    rw [sliceRead, if_neg (by omega)]
    by_cases hzero : min DEF_BUFFER_SIZE (size - 0) = 0
    · exact ⟨-1, by decide, by rw [if_pos hzero]⟩
    · rw [if_neg hzero, Nat.zero_add, Nat.mod_eq_of_lt hsize, fileIoRead]
      by_cases hmax : OFF_MAX < off
      · exact ⟨-EINVAL, by decide, by rw [if_pos hmax]⟩
      · exact ⟨-1, by decide, by rw [if_neg hmax, if_pos ⟨hnil _, hzero⟩]⟩
  obtain ⟨ret, hneg, hread⟩ := hfirst
  refine ⟨ret, fun n => ?_⟩
  rw [convertTo, hread]
  exact if_pos hneg

theorem offsetOr_lt (offset : Option UInt64) : offsetOr offset < 2 ^ 64 := by
  cases offset with
  | none => simp [offsetOr]
  | some o => exact o.toNat_lt

/-- A read returns: it ends with the file, the slice or the buffer. -/
theorem fileRead_returns {f : File} (hf : f.bytes.length ≤ OFF_MAX)
    (offset size : Option UInt64) (buffer : Option (List UInt8)) :
    ∃ reply, Returns (fun n => fileRead n f offset size buffer) reply := by
  cases buffer with
  | none => exact ⟨_, .of_forall fun n => rfl⟩
  | some buf =>
      have htransfer : ∃ r, Returns (fun n =>
          convertTo (sliceRead (offsetOr offset) (sizeOr size) (fileIoRead f)) rawWrite
            n buf) r := by
        by_cases hoff : offsetOr offset ≤ f.bytes.length
        · have hserved : Served
              (sliceRead (offsetOr offset) (sizeOr size) (fileIoRead f)) _ _ :=
            served_slice (holds_fileIoRead hf) (.inl rfl)
              (lt_of_le_of_lt hf (by decide)) _ hoff
          rw [ite_self] at hserved
          by_cases hdata : (f.bytes.drop (offsetOr offset)).take (sizeOr size) = []
          · rw [hdata] at hserved
            exact ⟨_, .of_forall fun n => convertTo_eof hserved n buf⟩
          · exact ⟨_, _, fun n hn =>
              convertTo_buffer hserved buf (Nat.lt_of_succ_le hn) (.inl hdata)⟩
        · obtain ⟨ret, hret⟩ :=
            convertTo_behind (Nat.lt_of_not_le hoff) (offsetOr_lt offset) buf
          exact ⟨_, .of_forall hret⟩
      obtain ⟨r, hr⟩ := htransfer
      exact ⟨_, hr.bind (.of_forall fun n => rfl)⟩

/-- A write returns, and leaves a file that an `off_t` measures. -/
theorem fileWrite_returns {f : File} (hf : f.bytes.length ≤ OFF_MAX)
    (offset size : Option UInt64) (buffer : Option (List UInt8)) :
    ∃ reply f', fileWrite f offset size buffer = .ok (reply, f') ∧ Sane f' := by
  cases buffer with
  | none => exact ⟨_, _, rfl, hf, .inl rfl⟩
  | some buf =>
      have htransfer : ∃ ret k f',
          rawTransfer buf (sliceWrite (offsetOr offset) (sizeOr size) fileIoWrite)
          { f with stat := none } = .ok (ret, k, f') ∧ Sane f' := by
        simp only [rawTransfer, sliceWrite, if_neg (Nat.not_lt_zero _)]
        by_cases hnone : min buf.length (sizeOr size - 0) = 0
        · rw [if_pos hnone]
          exact ⟨_, _, _, rfl, hf, .inl rfl⟩
        · rw [if_neg hnone, fileIoWrite]
          cases hw : pwrite f.bytes ((0 + offsetOr offset) % 2 ^ 64)
            (buf.take (sizeOr size - 0)) with
          | error e =>
              by_cases he : e = 0
              · subst he
                exact ⟨0, _, _, rfl, hf, .inl rfl⟩
              · exact ⟨e, 0, _, if_pos he, hf, .inl rfl⟩
          | ok r => exact ⟨0, _, _, rfl, length_pwrite hf hw, .inl rfl⟩
      obtain ⟨ret, k, f', hrun, hsane⟩ := htransfer
      refine ⟨⟨ret, size.map fun _ => k, none, none⟩, f', ?_, hsane⟩
      simp only [fileWrite, hrun]
      rfl

section

variable {bufferSize : Nat} {f g : File}

theorem alike_create (hf : Sane f) (hg : Sane g) (hfg : f.bytes = g.bytes)
    (size : Option UInt64) (buffer : Option (List UInt8)) (offsetOut : Bool) :
    Alike bufferSize f g (.create size buffer offsetOut) := by
  unfold Alike
  simp only [fileQuery, fileCreate]
  cases hsize : (size.map UInt64.toNat).or (buffer.map List.length) with
  | none => exact ⟨_, f, g, .of_forall fun n => rfl, .of_forall fun n => rfl, hf, hg, hfg⟩
  | some sz =>
      simp only [fileNewOffset, ← hfg]
      cases hnew : ftruncate f.bytes (f.bytes.length + sz % 2 ^ 32) with
      | none => exact ⟨_, f, g, .of_forall fun n => rfl, .of_forall fun n => rfl,
          hf, hg, hfg⟩
      | some bs =>
          obtain ⟨reply, f', hwrite, hsane⟩ := fileWrite_returns (f := ⟨bs, none⟩)
            (length_ftruncate hnew) (some (.ofNat f.bytes.length)) size buffer
          have hrun : ∀ n : Nat, _ = _ := fun _ => congrArg (· >>= fun r : Reply × File =>
            Except.ok (({ r.1 with
              ret := if r.1.ret ≠ -EINVAL then r.1.ret else 0
              offsetOut :=
                if offsetOut then some f.bytes.length else none } : Reply), r.2))
                  hwrite
          exact ⟨_, f', f', .of_forall hrun, .of_forall hrun, hsane, hsane, rfl⟩

theorem alike_delete (hf : Sane f) (hg : Sane g) (hfg : f.bytes = g.bytes)
    (offset size forced : Option UInt64) :
    Alike bufferSize f g (.delete offset size forced) := by
  unfold Alike
  simp only [fileQuery]
  cases offset with
  | none => exact ⟨_, f, g, .of_forall fun n => rfl, .of_forall fun n => rfl, hf, hg, hfg⟩
  | some offset =>
      cases size with
      | none => exact ⟨_, f, g, .of_forall fun n => rfl, .of_forall fun n => rfl,
          hf, hg, hfg⟩
      | some size =>
          have hsame : fileDelete g (some offset) (some size) forced =
              fileDelete f (some offset) (some size) forced := by
            simp only [fileDelete, hf.updateCount, hg.updateCount, hfg]
          have hsane : Sane (fileDelete f (some offset) (some size) forced).2 := by
            simp only [fileDelete, hf.updateCount]
            split_ifs
            · exact sane_updated hf.length
            · split
              · exact sane_updated hf.length
              · next htruncate => exact ⟨length_ftruncate htruncate, .inl rfl⟩
          exact ⟨_, _, _, .of_forall fun n => rfl,
            .of_forall fun n => congrArg _ hsame, hsane, hsane, rfl⟩

variable (bufferSize) in
theorem alike_move (hf : Sane f) (hg : Sane g) (hfg : f.bytes = g.bytes)
    (offsetFrom offsetTo size : Option UInt64) :
    Alike bufferSize f g (.move offsetFrom offsetTo size) := by
  unfold Alike
  simp only [fileQuery]
  cases offsetFrom with
  | none => exact ⟨_, f, g, .of_forall fun n => rfl, .of_forall fun n => rfl, hf, hg, hfg⟩
  | some start =>
      cases offsetTo with
      | none => exact ⟨_, f, g, .of_forall fun n => rfl, .of_forall fun n => rfl,
          hf, hg, hfg⟩
      | some target =>
          -- the status is looked at where it has just been updated
          have hboth : ∃ reply f' g',
              fileMove bufferSize f (some start) (some target) size = (reply, f') ∧
              fileMove bufferSize g (some start) (some target) size = (reply, g') ∧
              Sane f' ∧ Sane g' ∧ f'.bytes = g'.bytes := by
            by_cases hwhole : sizeOr size = 2 ^ 64 - 1
            · simp only [fileMove, hwhole, if_true, hf.updateCount, hg.updateCount, ← hfg]
              split_ifs
              · exact ⟨_, _, _, rfl, rfl, sane_updated hf.length,
                  sane_updated hf.length, rfl⟩
              · exact ⟨_, _, _, rfl, rfl, sane_updated hf.length,
                  sane_updated hf.length, rfl⟩
              all_goals exact ⟨_, _, _, rfl, rfl, ⟨length_moveLoop hf.length, .inl rfl⟩,
                ⟨length_moveLoop hf.length, .inl rfl⟩, rfl⟩
            · simp only [fileMove, if_neg hwhole, ← hfg]
              split_ifs
              · exact ⟨_, _, _, rfl, rfl, hf, hg, hfg⟩
              · exact ⟨_, _, _, rfl, rfl, hf, hg, hfg⟩
              all_goals exact ⟨_, _, _, rfl, rfl, ⟨length_moveLoop hf.length, .inl rfl⟩,
                ⟨length_moveLoop hf.length, .inl rfl⟩, rfl⟩
          obtain ⟨reply, f', g', hfmove, hgmove, hrest⟩ := hboth
          exact ⟨reply, f', g', .of_forall fun n => congrArg _ hfmove,
            .of_forall fun n => congrArg _ hgmove, hrest⟩

theorem countReply_returns (count : Nat) (buf : List UInt8) :
    ∃ reply, countReply count buf = .ok reply := by
  unfold countReply
  simp only [rawWrite]
  exact ⟨_, rfl⟩

variable (bufferSize) in
/-- Every request to the file backend returns, and what it answers is in the bytes. -/
theorem alike (hf : Sane f) (hg : Sane g) (hfg : f.bytes = g.bytes) (request : Request) :
    Alike bufferSize f g request := by
  cases request with
  | create size buffer offsetOut => exact alike_create hf hg hfg size buffer offsetOut
  | read offset size buffer =>
      obtain ⟨reply, hread⟩ := fileRead_returns hf.length offset size buffer
      have hsame : ∀ n, fileRead n g offset size buffer = fileRead n f offset size
          buffer := by
        intro n
        have hdev : fileIoRead g = fileIoRead f := by
          unfold fileIoRead
          rw [hfg]
        unfold fileRead
        rw [hdev]
      refine ⟨reply, f, g, hread.bind (.of_forall fun n => rfl), ?_, hf, hg, hfg⟩
      simp only [fileQuery, hsame]
      exact hread.bind (.of_forall fun n => rfl)
  | write offset size buffer =>
      obtain ⟨reply, f', hwrite, hsane⟩ := fileWrite_returns hf.length offset size buffer
      have hsame : fileWrite g offset size buffer = fileWrite f offset size buffer := by
        simp only [fileWrite, hfg]
      exact ⟨reply, f', f', .of_forall fun n => hwrite,
        .of_forall fun n => hsame.trans hwrite, hsane, hsane, rfl⟩
  | delete offset size forced => exact alike_delete hf hg hfg offset size forced
  | move offsetFrom offsetTo size => exact alike_move _ hf hg hfg offsetFrom offsetTo size
  | count buffer =>
      unfold Alike
      simp only [fileQuery, fileCount]
      cases buffer with
      | none => exact ⟨_, f, g, .of_forall fun n => rfl, .of_forall fun n => rfl,
          hf, hg, hfg⟩
      | some buf =>
          simp only [hf.updateCount, hg.updateCount, ← hfg]
          obtain ⟨reply, hreply⟩ := countReply_returns f.bytes.length buf
          have hrun : ∀ n : Nat, _ = _ := fun _ => congrArg (· >>= fun reply : Reply =>
            Except.ok (reply, (⟨f.bytes, some f.bytes.length⟩ : File))) hreply
          exact ⟨reply, _, _, .of_forall hrun, .of_forall hrun, sane_updated hf.length,
            sane_updated hf.length, rfl⟩

end

end Frozen.Cache
