/-
# `Frozen.Cache.Transparent` — the cache in the place of the file

The cache and the file answer a run of requests alike as long as each request is one
that both serve in the same way (`Agrees`).  The others are these:

    create   without a size, where the file takes that of the buffer; with a size of 2^32 or
             more, or one that memory has no room for
    read     that says how much: the cache answers 0; and from the end on, where the file fails
    write    over the end, where the file grows
    delete   of the inside of the file: the file does nothing and says that it did, or truncates
             if it is forced to; the cache fails
    move     of anything: the cache passes it on, past the bytes that it holds

Between two requests the memory of the cache has the bytes that the file would have
(`Aligned`).
-/
import Frozen.Cache.Enable

namespace Frozen.Cache

open Lib

/-! ## Runs -/

/-- What a caller has of a reply: whether it is a success, `HK(size)`, the
bytes, `offset_out`. -/
def Reply.seen (r : Reply) : Bool × Option Nat × Option (List UInt8) × Option Nat :=
  (decide (0 ≤ r.ret), r.size, r.buffer, r.offsetOut)

/-- The replies to requests, one after another. -/
def answers {σ : Type} (query : σ → Request → Except OutOfFuel (Reply × σ)) :
    σ → List Request → Except OutOfFuel (List Reply × σ)
  | s, [] => .ok ([], s)
  | s, request :: requests => do
      let (reply, s) ← query s request
      let (replies, s) ← answers query s requests
      .ok (reply :: replies, s)

theorem answers_cons {σ : Type}
    {query : Nat → σ → Request → Except OutOfFuel (Reply × σ)} {s s' s'' : σ}
    {request : Request} {requests : List Request} {reply : Reply}
    {replies : List Reply} (hquery : Returns (fun n => query n s request) (reply, s'))
    (hrest : Returns (fun n => answers (query n) s' requests) (replies, s'')) :
    Returns (fun n => answers (query n) s (request :: requests))
      (reply :: replies, s'') := by
  simp only [answers]
  exact hquery.bind (hrest.bind (.of_forall fun n => rfl))

/-- A request that the cache serves as the file does, when the file has this length. -/
def Agrees (len : Nat) : Request → Prop
  | .create size buffer offsetOut =>
      match size with
      | none => buffer = none ∨ (buffer = some [] ∧ offsetOut = false)
      | some size => size.toNat < 2 ^ 32 ∧ len + size.toNat < 2 ^ 63 - CACHE_PAGE_SIZE
  | .read offset size buffer =>
      buffer = none ∨ size = some 0 ∨
      (offsetOr offset < len ∧ (size = none ∨ buffer = some []))
  | .write offset size buffer =>
      ∀ buf, buffer = some buf → min buf.length (sizeOr size) ≠ 0 →
        offsetOr offset + min buf.length (sizeOr size) ≤ len
  | .delete offset size forced =>
      ∀ o s, offset = some o → size = some s →
        o.toNat + s.toNat = len ∨ (s = 0 ∧ (forced.getD 0 = 0 ∨ OFF_MAX < o.toNat))
  | .move offsetFrom offsetTo size =>
      offsetFrom = none ∨ offsetTo = none ∨ offsetFrom = offsetTo ∨ size = some 0
  | .count _ => True

/-- Every request of a run agrees with the file that it comes to. -/
def AllAgree (bufferSize : Nat) : File → List Request → Prop
  | _, [] => True
  | f, request :: requests =>
      Agrees f.bytes.length request ∧
        ∀ reply f', Returns (fun n => fileQuery bufferSize n f request) (reply, f') →
          AllAgree bufferSize f' requests

/-! ## Step -/

/-- The cache holds what the file would. -/
structure Aligned (m : Memory) (f : File) : Prop where
  held : ∃ p, m = .held p f.bytes
  sane : f.stat = none ∨ f.stat = some f.bytes.length
  small : f.bytes.length < 2 ^ 63 - CACHE_PAGE_SIZE

theorem Aligned.toSane {m : Memory} {f : File} (h : Aligned m f) : Sane f := by
  refine ⟨?_, h.sane⟩
  have hsmall := h.small
  unfold OFF_MAX
  omega

/-- The cache, with any file behind it, and the file answer a request in the same way. -/
def Together (junk : Nat → UInt8) (bufferSize : Nat) (m : Memory) (behind f : File)
    (request : Request) : Prop :=
  ∃ reply f' reply' m' behind',
    Returns (fun n => fileQuery bufferSize n f request) (reply, f') ∧
    Returns (fun n => cacheQuery junk bufferSize n ⟨some m, behind⟩ request)
      (reply', ⟨some m', behind'⟩) ∧
    reply.seen = reply'.seen ∧ Aligned m' f'

section

variable {junk : Nat → UInt8} {bufferSize : Nat} {m : Memory} {f behind : File}

/-- Without a size to read the slice is at its end at once. -/
theorem convertTo_none {σ : Type} (off : Nat) (dev : Reader) (write : Writer σ)
    (n : Nat) (s : σ) :
    convertTo (sliceRead off 0 dev) write n s = .ok (-1, 0, s) := by
  simp [convertTo, sliceRead]
  rfl

theorem together_read (h : Aligned m f) {offset size : Option UInt64}
    {buffer : Option (List UInt8)}
    (hag : Agrees f.bytes.length (.read offset size buffer)) :
    Together junk bufferSize m behind f (.read offset size buffer) := by
  suffices hboth : ∃ reply reply',
      Returns (fun n => fileRead n f offset size buffer) reply ∧
      Returns (fun n => cacheBackendRead n m offset size buffer) reply' ∧
      reply.seen = reply'.seen by
    obtain ⟨reply, reply', hfile, hcache, hseen⟩ := hboth
    exact ⟨reply, f, reply', m, behind, hfile.bind (.of_forall fun n => rfl),
      hcache.bind (.of_forall fun n => rfl), hseen, h⟩
  cases buffer with
  | none => exact ⟨_, _, .of_forall fun n => rfl, .of_forall fun n => rfl, rfl⟩
  | some buf =>
      by_cases hzero : size = some 0
      · subst hzero
        have hsize : sizeOr (some 0) = 0 := rfl
        simp only [fileRead, cacheBackendRead, hsize, convertTo_none]
        exact ⟨_, _, .of_forall fun n => rfl, .of_forall fun n => rfl, rfl⟩
      · obtain ⟨hoff, hwant⟩ : offsetOr offset < f.bytes.length ∧
          (size = none ∨ some buf = some []) := by
          rcases hag with hag | hag | hag
          · cases hag
          · exact absurd hag hzero
          · exact hag
        obtain ⟨p, rfl⟩ := h.held
        have hlt : f.bytes.length < 2 ^ 64 := lt_of_le_of_lt h.toSane.length (by decide)
        have hfile := served_slice (holds_fileIoRead h.toSane.length) (.inl rfl) hlt
          (sizeOr size) hoff.le
        have hcache := served_slice (holds_memoryRead (.held p f.bytes)) (.inr rfl) hlt
          (sizeOr size) hoff.le
        have hsize : sizeOr size ≠ 0 := by
          cases size with
          | none => decide
          | some s =>
              intro hs
              exact hzero (congrArg some (UInt64.toNat_inj.mp hs))
        have hne : (f.bytes.drop (offsetOr offset)).take (sizeOr size) ≠ [] := by
          intro hnil
          have hlen := congrArg List.length hnil
          simp only [List.length_take, List.length_drop, List.length_nil] at hlen
          omega
        have hbufs := fun n hn => convertTo_buffer hfile buf (n := n) hn (.inl hne)
        have hbufs' := fun n hn => convertTo_buffer hcache buf (n := n) hn (.inl hne)
        have hread : Returns (fun n => fileRead n f offset size (some buf)) _ :=
          Returns.bind ⟨_, hbufs⟩ (.of_forall fun n => rfl)
        have hread' : Returns
            (fun n => cacheBackendRead n (.held p f.bytes) offset size (some buf)) _ :=
          Returns.bind ⟨_, hbufs'⟩ (.of_forall fun n => rfl)
        refine ⟨_, _, hread, hread', ?_⟩
        rcases hwant with rfl | hbuf
        · rfl
        · cases hbuf
          simp only [Reply.seen, List.length_nil, Nat.min_zero]
          rfl

/-- A write inside the bytes, also of the bytes that were made for it. -/
theorem write_together (h : Aligned m f) {offset size : Option UInt64}
    {buffer : Option (List UInt8)}
    (hag : Agrees f.bytes.length (.write offset size buffer)) :
    ∃ reply f' m', fileWrite f offset size buffer = .ok (reply, f') ∧
      cacheBackendWrite m offset size buffer = .ok (reply, m') ∧ Aligned m' f' := by
  obtain ⟨p, rfl⟩ := h.held
  cases buffer with
  | none => exact ⟨_, _, _, rfl, rfl, ⟨p, rfl⟩, .inl rfl, h.small⟩
  | some buf =>
      simp only [fileWrite, cacheBackendWrite, rawTransfer, sliceWrite,
        if_neg (Nat.not_lt_zero _),
        Nat.sub_zero, Nat.zero_add, Nat.mod_eq_of_lt (offsetOr_lt offset)]
      by_cases hnone : min buf.length (sizeOr size) = 0
      · simp only [if_pos hnone]
        exact ⟨_, _, _, rfl, rfl, ⟨p, rfl⟩, .inl rfl, h.small⟩
      · have hin := hag buf rfl hnone
        have hmax := h.toSane.length
        have hlen : (buf.take (sizeOr size)).length = min buf.length (sizeOr size) := by
          rw [List.length_take, min_comm]
        have hne : buf.take (sizeOr size) ≠ [] :=
          fun hnil => hnone (by rw [← hlen, hnil]; rfl)
        have hwrite : pwrite f.bytes (offsetOr offset) (buf.take (sizeOr size)) =
            .ok (min buf.length (sizeOr size),
              patch f.bytes (offsetOr offset, buf.take (sizeOr size))) := by
          rw [pwrite_inside hne (by omega) (by omega), hlen]
        have hmem : min (buf.take (sizeOr size)).length
            (f.bytes.length - offsetOr offset) =
            min buf.length (sizeOr size) := by omega
        have htake : (buf.take (sizeOr size)).take (f.bytes.length - offsetOr offset) =
            buf.take (sizeOr size) := List.take_of_length_le (by omega)
        have hpatch : (patch f.bytes (offsetOr offset, buf.take (sizeOr size))).length
            = f.bytes.length :=
          length_patch (by simp only [hlen]; exact hin)
        simp only [if_neg hnone, fileIoWrite, hwrite, memoryWrite, hmem, htake]
        refine ⟨_, _, _, rfl, rfl, ⟨p, rfl⟩, .inl rfl, ?_⟩
        rw [hpatch]
        exact h.small

theorem together_write (h : Aligned m f) {offset size : Option UInt64}
    {buffer : Option (List UInt8)}
    (hag : Agrees f.bytes.length (.write offset size buffer)) :
    Together junk bufferSize m behind f (.write offset size buffer) := by
  obtain ⟨reply, f', m', hfile, hcache, haligned⟩ := write_together h hag
  refine ⟨reply, f', reply, m', behind, .of_forall fun n => hfile,
    .of_forall fun n => ?_, rfl, haligned⟩
  simp only [cacheQuery, hcache]
  rfl

/-- New bytes at the end, of file and memory: zeros. -/
theorem grow_fit (junk : Nat → UInt8) {p size : Nat} {bytes : List UInt8}
    (h : bytes.length + size < 2 ^ 63 - CACHE_PAGE_SIZE) :
    (Memory.held p bytes).grow junk size =
      (0, .held (pages (bytes.length + size)) (bytes ++ List.replicate size 0)) := by
  have hresize := Memory.resize_fit junk h p bytes
  have hsize : ¬2 ^ 64 - 1 - size ≤ (Memory.held p bytes).size := by
    simp only [Memory.size]
    omega
  rw [Memory.grow, if_neg hsize]
  simp only [Memory.size, hresize, refit]
  rw [List.take_of_length_le (Nat.le_add_right _ _), List.take_left,
    List.drop_eq_nil_of_le (by simp), List.append_nil]

theorem together_create (h : Aligned m f) {size : Option UInt64}
    {buffer : Option (List UInt8)} {offsetOut : Bool}
    (hag : Agrees f.bytes.length (.create size buffer offsetOut)) :
    Together junk bufferSize m behind f (.create size buffer offsetOut) := by
  cases size with
  | none =>
      rcases hag with rfl | ⟨rfl, rfl⟩
      · exact ⟨_, f, _, m, behind, .of_forall fun n => rfl,
          .of_forall fun n => rfl, rfl, h⟩
      · -- an item of no bytes: the file has nothing to write
        have hnew : fileNewOffset f 0 = some (f.bytes.length, ⟨f.bytes, none⟩) := by
          have hlen := h.toSane.length
          simp [fileNewOffset, ftruncate, Nat.not_lt.mpr hlen]
        refine ⟨⟨-1, none, none, none⟩, ⟨f.bytes, none⟩, _, m, behind,
          .of_forall fun n => ?_,
          .of_forall fun n => rfl, rfl, h.held, .inl rfl, h.small⟩
        simp only [fileQuery, fileCreate, Option.map_none, Option.map_some, Option.or,
          List.length_nil, hnew]
        rfl
  | some size =>
      obtain ⟨hint, hroom⟩ := hag
      obtain ⟨p, rfl⟩ := h.held
      have hgrow := grow_fit junk (p := p) hroom
      have hlt : f.bytes.length < 2 ^ 64 := lt_of_le_of_lt h.toSane.length (by decide)
      have hnew : fileNewOffset f size.toNat =
          some (f.bytes.length, ⟨f.bytes ++ List.replicate size.toNat 0, none⟩) := by
        unfold fileNewOffset ftruncate OFF_MAX
        rw [Nat.mod_eq_of_lt hint, if_neg (by omega),
          List.take_of_length_le (Nat.le_add_right _ _), Nat.add_sub_cancel_left]
        rfl
      have haligned : Aligned (.held (pages (f.bytes.length + size.toNat))
          (f.bytes ++ List.replicate size.toNat 0))
          ⟨f.bytes ++ List.replicate size.toNat 0, none⟩ := by
        refine ⟨⟨_, rfl⟩, .inl rfl, ?_⟩
        simpa using hroom
      have hwrite : Agrees (f.bytes ++ List.replicate size.toNat 0).length
          (.write (some (.ofNat f.bytes.length)) (some size) buffer) := by
        intro buf _ _
        have hoff : offsetOr (some (.ofNat f.bytes.length)) = f.bytes.length :=
          Nat.mod_eq_of_lt hlt
        have hsize : sizeOr (some size) = size.toNat := rfl
        rw [hoff, hsize, List.length_append, List.length_replicate]
        omega
      obtain ⟨reply, f', m', hfile, hcache, haligned'⟩ := write_together haligned hwrite
      refine ⟨{ reply with
          ret := if reply.ret ≠ -EINVAL then reply.ret else 0
          offsetOut := if offsetOut then some f.bytes.length else none }, f',
            _, m', behind,
        .of_forall fun n => ?_, .of_forall fun n => ?_, rfl, haligned'⟩
      · simp only [fileQuery, fileCreate, Option.map_some, Option.or, hnew, hfile]
        rfl
      · simp only [cacheQuery, cacheBackendCreate, hgrow, if_true, ne_eq,
          not_true_eq_false, if_false]
        change ((cacheBackendWrite _ (some (.ofNat f.bytes.length)) _ _ >>= _) >>= _) = _
        rw [hcache]
        rfl

theorem together_delete (h : Aligned m f) {offset size forced : Option UInt64}
    (hag : Agrees f.bytes.length (.delete offset size forced)) :
    Together junk bufferSize m behind f (.delete offset size forced) := by
  cases offset with
  | none => exact ⟨_, f, _, m, behind, .of_forall fun n => rfl,
      .of_forall fun n => rfl, rfl, h⟩
  | some o =>
      cases size with
      | none => exact ⟨_, f, _, m, behind, .of_forall fun n => rfl,
          .of_forall fun n => rfl, rfl, h⟩
      | some s =>
          obtain ⟨p, rfl⟩ := h.held
          have hsmall := h.small
          unfold Together
          simp only [fileQuery, cacheQuery, cacheBackendDelete]
          by_cases hend : o.toNat + s.toNat = f.bytes.length
          · -- the last bytes go, from both
            have hmod : (o.toNat + s.toNat) % 2 ^ 64 = f.bytes.length := by
              rw [hend]
              exact Nat.mod_eq_of_lt (by omega)
            have htruncate : ftruncate f.bytes o.toNat = some (f.bytes.take o.toNat) := by
              unfold ftruncate OFF_MAX
              rw [if_neg (by omega), Nat.sub_eq_zero_of_le (by omega),
                List.replicate_zero, List.append_nil]
            have hfile : fileDelete f (some o) (some s) forced =
                (⟨0, some s.toNat, none, none⟩, ⟨f.bytes.take o.toNat, none⟩) := by
              simp only [fileDelete, h.toSane.updateCount, Option.getD_some, hmod, ne_eq,
                not_true_eq_false, false_and, if_false, htruncate]
              rfl
            have hresize := Memory.resize_fit junk (show o.toNat < _ by omega) p f.bytes
            have hrefit : refit junk f.bytes o.toNat = f.bytes.take o.toNat := by
              rw [refit, Nat.sub_eq_zero_of_le (by omega)]
              exact List.append_nil _
            have hfast : cacheFastDelete junk (.held p f.bytes) o.toNat s.toNat =
                (s.toNat, .held (pages o.toNat) (f.bytes.take o.toNat)) := by
              have hsize : ¬(o.toNat + s.toNat) % 2 ^ 64
                  ≠ (Memory.held p f.bytes).size := not_not.mpr hmod
              rw [cacheFastDelete, if_neg hsize, hresize, hrefit]
              rfl
            simp only [hfile, hfast, ne_eq, not_true_eq_false, if_false]
            refine ⟨_, _, _, _, behind, .of_forall fun n => rfl,
              .of_forall fun n => rfl, rfl, ⟨_, rfl⟩, .inl rfl, ?_⟩
            rw [List.length_take]
            omega
          · obtain ⟨rfl, hforced⟩ := (hag o s rfl rfl).resolve_left hend
            have hmod : (o.toNat + (0 : UInt64).toNat) % 2 ^ 64 ≠ f.bytes.length := by
              rw [Nat.mod_eq_of_lt (by simpa using o.toNat_lt)]
              exact hend
            have hfile : fileDelete f (some o) (some 0) forced =
                (⟨0, some 0, none, none⟩, ⟨f.bytes, some f.bytes.length⟩) := by
              simp only [fileDelete, h.toSane.updateCount, Option.getD_some]
              rcases hforced with hforced | hover
              · exact if_pos ⟨hmod, hforced⟩
              · rw [ftruncate, if_pos hover]
                exact ite_self _
            have hfast : cacheFastDelete junk (.held p f.bytes) o.toNat
                (0 : UInt64).toNat = (0, .held p f.bytes) := if_pos hmod
            simp only [hfile, hfast]
            exact ⟨_, _, _, _, behind, .of_forall fun n => rfl,
              .of_forall fun n => rfl, rfl, ⟨p, rfl⟩, .inr rfl, hsmall⟩

/-- A move that has nothing to move does not look at the bytes. -/
theorem fileMove_nothing (bufferSize : Nat) {offsetFrom offsetTo size : Option UInt64}
    (h : offsetFrom = none ∨ offsetTo = none ∨ offsetFrom = offsetTo ∨ size = some 0) :
    ∃ reply, ∀ g : File, ∃ stat, fileMove bufferSize g offsetFrom offsetTo size
      = (reply, ⟨g.bytes, stat⟩) ∧
      (stat = g.stat ∨ stat = (fileUpdateCount g).stat) := by
  cases offsetFrom with
  | none => exact ⟨_, fun g => ⟨g.stat, rfl, .inl rfl⟩⟩
  | some start =>
      cases offsetTo with
      | none => exact ⟨_, fun g => ⟨g.stat, rfl, .inl rfl⟩⟩
      | some target =>
          refine ⟨⟨0, size.map UInt64.toNat, none, none⟩, fun g => ?_⟩
          have hnothing : ∀ k : Nat, (start.toBitVec.toInt = target.toBitVec.toInt ∨
              (if sizeOr size = 2 ^ 64 - 1 then k else sizeOr size) = 0) := by
            intro k
            rcases h with h | h | h | rfl
            · cases h
            · cases h
            · cases h
              exact .inl rfl
            · exact .inr rfl
          simp only [fileMove, if_pos (hnothing _)]
          by_cases hwhole : sizeOr size = 2 ^ 64 - 1
          · exact ⟨_, by rw [if_pos hwhole]; rfl, .inr rfl⟩
          · exact ⟨_, by rw [if_neg hwhole], .inl rfl⟩

theorem together_move (h : Aligned m f) {offsetFrom offsetTo size : Option UInt64}
    (hag : Agrees f.bytes.length (.move offsetFrom offsetTo size)) :
    Together junk bufferSize m behind f (.move offsetFrom offsetTo size) := by
  obtain ⟨reply, hmove⟩ := fileMove_nothing bufferSize hag
  obtain ⟨stat, hfile, hstat⟩ := hmove f
  obtain ⟨stat', hbehind, -⟩ := hmove behind
  refine ⟨reply, ⟨f.bytes, stat⟩, reply, m, ⟨behind.bytes, stat'⟩, .of_forall fun n => ?_,
    .of_forall fun n => ?_, rfl, h.held, ?_, h.small⟩
  · simp only [fileQuery, hfile]
  · simp only [cacheQuery, hbehind]
  · rw [h.toSane.updateCount] at hstat
    rcases hstat with rfl | rfl
    · exact h.sane
    · exact .inr rfl

theorem together_count (h : Aligned m f) (buffer : Option (List UInt8)) :
    Together junk bufferSize m behind f (.count buffer) := by
  cases buffer with
  | none => exact ⟨_, f, _, m, behind, .of_forall fun n => rfl,
      .of_forall fun n => rfl, rfl, h⟩
  | some buf =>
      obtain ⟨p, rfl⟩ := h.held
      obtain ⟨reply, hreply⟩ := countReply_returns f.bytes.length buf
      refine ⟨reply, ⟨f.bytes, some f.bytes.length⟩, reply, _, behind,
        .of_forall fun n => ?_,
        .of_forall fun n => ?_, rfl, ⟨p, rfl⟩, .inr rfl, h.small⟩
      · simp only [fileQuery, fileCount, h.toSane.updateCount, Option.getD_some, hreply]
        rfl
      · simp only [cacheQuery, cacheBackendCount, Memory.size, hreply]
        rfl

variable (junk behind) in
theorem together (h : Aligned m f) {request : Request}
    (hag : Agrees f.bytes.length request) :
    Together junk bufferSize m behind f request := by
  cases request with
  | create size buffer offsetOut => exact together_create h hag
  | read offset size buffer => exact together_read h hag
  | write offset size buffer => exact together_write h hag
  | delete offset size forced => exact together_delete h hag
  | move offsetFrom offsetTo size => exact together_move h hag
  | count buffer => exact together_count h buffer

/-! ## Whole runs -/

theorem aligned_run (h : Aligned m f) {requests : List Request}
    (hag : AllAgree bufferSize f requests) : ∃ replies f' replies' c',
      Returns (fun n => answers (fileQuery bufferSize n) f requests) (replies, f') ∧
      Returns (fun n => answers (cacheQuery junk bufferSize n) ⟨some m, behind⟩
        requests) (replies', c') ∧
      replies.map Reply.seen = replies'.map Reply.seen := by
  induction requests generalizing m f behind with
  | nil => exact ⟨[], f, [], _, .of_forall fun n => rfl, .of_forall fun n => rfl, rfl⟩
  | cons request requests ih =>
      obtain ⟨reply, f₁, reply', m₁, behind₁, hfile, hcache, hseen, haligned⟩ :=
        together junk behind h hag.1
      obtain ⟨replies, f', replies', c', hfiles, hcaches, hrest⟩ :=
        ih haligned (hag.2 reply f₁ hfile)
      refine ⟨reply :: replies, f', reply' :: replies', c', answers_cons hfile hfiles,
        answers_cons hcache hcaches, ?_⟩
      rw [List.map_cons, List.map_cons, hseen, hrest]

variable (junk bufferSize) in
/-- A cache that is not enabled passes everything on. -/
theorem passing_run {g : File} (hf : Sane f) (hg : Sane g) (hfg : f.bytes = g.bytes)
    (requests : List Request) :
    ∃ replies f' c',
      Returns (fun n => answers (fileQuery bufferSize n) f requests) (replies, f') ∧
      Returns (fun n => answers (cacheQuery junk bufferSize n) ⟨none, g⟩ requests)
        (replies, c') ∧
      c'.memory = none := by
  induction requests generalizing f g with
  | nil => exact ⟨[], f, _, .of_forall fun n => rfl, .of_forall fun n => rfl, rfl⟩
  | cons request requests ih =>
      obtain ⟨reply, f₁, g₁, hfile, hpass, hf₁, hg₁, hfg₁⟩ := alike _ hf hg hfg request
      obtain ⟨replies, f', c', hfiles, hcaches, hnone⟩ := ih hf₁ hg₁ hfg₁
      refine ⟨reply :: replies, f', c', answers_cons hfile hfiles,
        answers_cons ?_ hcaches, hnone⟩
      exact hpass.bind (.of_forall fun n => rfl)

end

/-- The cache answers a run as the file does, if every request of it is one that both
serve in the same way. -/
theorem cache_transparent (junk : Nat → UInt8) (bufferSize : Nat)
    (content : { bs : List UInt8 // bs.length ≤ OFF_MAX }) (requests : List Request)
    (hag : Cacheable content.val.length →
      AllAgree bufferSize ⟨content.val, none⟩ requests) :
    ∃ c replies f' replies' c',
      Returns (fun n => cacheEnable junk n ⟨content.val, none⟩) c ∧
      Returns (fun n => answers (fileQuery bufferSize n) ⟨content.val, none⟩ requests)
        (replies, f') ∧
      Returns (fun n => answers (cacheQuery junk bufferSize n) c requests)
        (replies', c') ∧
      replies.map Reply.seen = replies'.map Reply.seen := by
  have hsane : Sane ⟨content.val, none⟩ := ⟨content.property, .inl rfl⟩
  have henable := cacheEnable_returns junk hsane
  by_cases hcacheable : Cacheable content.val.length
  · rw [if_pos hcacheable] at henable
    have haligned : Aligned (.held (pages content.val.length) content.val)
        ⟨content.val, none⟩ :=
      ⟨⟨_, rfl⟩, .inl rfl, hcacheable.2⟩
    obtain ⟨replies, f', replies', c', hfiles, hcaches, hseen⟩ :=
      aligned_run haligned (hag hcacheable)
    exact ⟨_, replies, f', replies', c', henable, hfiles, hcaches, hseen⟩
  · rw [if_neg hcacheable] at henable
    obtain ⟨replies, f', c', hfiles, hcaches, -⟩ :=
      passing_run junk bufferSize hsane (sane_updated content.property) rfl requests
    exact ⟨_, replies, f', replies, c', henable, hfiles, hcaches, rfl⟩

/-- A write inside three bytes, and a read of all of them. -/
theorem cache_transparent_writeRead :
    ∃ c replies f' replies' c',
      Returns (fun n => cacheEnable (fun _ => 0) n ⟨[97, 98, 99], none⟩) c ∧
      Returns (fun n => answers (fileQuery 1024 n) ⟨[97, 98, 99], none⟩
        [.write (some 1) (some 2) (some [120, 121]),
          .read none none (some [0, 0, 0, 0])]) (replies, f') ∧
      Returns (fun n => answers (cacheQuery (fun _ => 0) 1024 n) c
        [.write (some 1) (some 2) (some [120, 121]),
          .read none none (some [0, 0, 0, 0])]) (replies', c') ∧
      replies.map Reply.seen = replies'.map Reply.seen := by
  refine cache_transparent (fun _ => 0) 1024 ⟨[97, 98, 99], by decide⟩ _ fun _ => ⟨?_, ?_⟩
  · intro buf hbuf _
    cases hbuf
    decide
  · intro reply f' hwrite
    have hfile : Returns (fun n => fileQuery 1024 n ⟨[97, 98, 99], none⟩
        (.write (some 1) (some 2) (some [120, 121])))
        (⟨0, some 2, none, none⟩, ⟨[97, 120, 121], none⟩) := .of_forall fun n => rfl
    cases hwrite.unique hfile
    exact ⟨.inr (.inr ⟨by decide, .inl rfl⟩), fun _ _ _ => trivial⟩

/-- Not so in general: of three bytes that are read, the cache says that they are none. -/
theorem cache_seen_size :
    ¬∀ (junk : Nat → UInt8) (bufferSize : Nat)
      (content : { bs : List UInt8 // bs.length ≤ OFF_MAX }) (requests : List Request),
      ∃ c replies f' replies' c',
        Returns (fun n => cacheEnable junk n ⟨content.val, none⟩) c ∧
        Returns (fun n => answers (fileQuery bufferSize n) ⟨content.val, none⟩
          requests) (replies, f') ∧
        Returns (fun n => answers (cacheQuery junk bufferSize n) c requests)
          (replies', c') ∧
        replies.map Reply.seen = replies'.map Reply.seen := by
  intro hall
  obtain ⟨c, replies, f', replies', c', henable, hfile, hcache, hseen⟩ :=
    hall (fun _ => 0) 1024 ⟨[97, 98, 99], by decide⟩
      [.read (some 0) (some 3) (some [0, 0, 0])]
  have hsane : Sane ⟨[97, 98, 99], none⟩ := ⟨by decide, .inl rfl⟩
  cases henable.unique (cacheEnable_returns (fun _ => 0) hsane)
  have hfile' : Returns (fun n => answers (fileQuery 1024 n) ⟨[97, 98, 99], none⟩
      [.read (some 0) (some 3) (some [0, 0, 0])])
      ([⟨0, some 3, some [97, 98, 99], none⟩], ⟨[97, 98, 99], none⟩) := ⟨5, fun n hn => by
    obtain ⟨k, rfl⟩ := Nat.exists_eq_add_of_le' hn
    rfl⟩
  have hcache' : Returns (fun n => answers (cacheQuery (fun _ => 0) 1024 n)
      ⟨some (.held (pages 3) [97, 98, 99]), ⟨[97, 98, 99], some 3⟩⟩
      [.read (some 0) (some 3) (some [0, 0, 0])])
      ([⟨0, some 0, some [97, 98, 99], none⟩],
        ⟨some (.held (pages 3) [97, 98, 99]), ⟨[97, 98, 99], some 3⟩⟩) :=
    ⟨5, fun n hn => by
      obtain ⟨k, rfl⟩ := Nat.exists_eq_add_of_le' hn
      rfl⟩
  cases hfile.unique hfile'
  cases hcache.unique hcache'
  exact absurd hseen (by decide)

end Frozen.Cache
