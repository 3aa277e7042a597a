/-
# `Frozen.Cache.Enable` — what `cache_enable` comes to

The cache holds the bytes of the file, if there are any and memory has room for them in
pages; otherwise it is not enabled, and stays a backend that passes everything on.
-/
import Frozen.Cache.Sane

namespace Frozen.Cache

open Lib

/-- A file that fits in pages, with at least a byte. -/
def Cacheable (len : Nat) : Prop := 0 < len ∧ len < 2 ^ 63 - CACHE_PAGE_SIZE

instance (len : Nat) : Decidable (Cacheable len) := inferInstanceAs (Decidable (_ ∧ _))

/-! ## Counting -/

theorem countReply_eight {count : Nat} (h : count < 2 ^ 64) :
    ∃ buf, countReply count (List.replicate 8 0) = .ok ⟨0, none, some buf, none⟩ ∧
      leNat buf = count := by
  refine ⟨leBytes 8 count, ?_, ?_⟩
  · simp [countReply, rawWrite, Binary.defaultWrite]
    rfl
  · rw [leNat_leBytes, Nat.mod_eq_of_lt (by omega)]

theorem cacheGetFilesize_sane {f : File} (hf : Sane f) :
    cacheGetFilesize f = .ok (f.bytes.length, ⟨f.bytes, some f.bytes.length⟩) := by
  have hlt : f.bytes.length < 2 ^ 64 := lt_of_le_of_lt hf.length (by decide)
  obtain ⟨buf, hcount, hbuf⟩ := countReply_eight hlt
  simp only [cacheGetFilesize, fileCount, hf.updateCount, Option.getD_some, hcount]
  exact congrArg (fun k => Except.ok (k, _)) hbuf

/-! ## Memory -/

/-- Pages for what an `off_t` measures do not wrap. -/
theorem pages_of_le {size : Nat} (h : size ≤ OFF_MAX) :
    pages size = (size / CACHE_PAGE_SIZE + 1) * CACHE_PAGE_SIZE := by
  have hdiv := Nat.div_add_mod size CACHE_PAGE_SIZE
  have hmod : size % CACHE_PAGE_SIZE < CACHE_PAGE_SIZE := Nat.mod_lt _ (by decide)
  unfold pages CACHE_PAGE_SIZE OFF_MAX at *
  exact Nat.mod_eq_of_lt (by omega)

theorem pages_fit {size : Nat} (h : size ≤ OFF_MAX) :
    pages size ≤ Binary.maxObject ↔ size < 2 ^ 63 - CACHE_PAGE_SIZE := by
  have hdiv := Nat.div_add_mod size CACHE_PAGE_SIZE
  have hmod : size % CACHE_PAGE_SIZE < CACHE_PAGE_SIZE := Nat.mod_lt _ (by decide)
  rw [pages_of_le h]
  unfold CACHE_PAGE_SIZE Binary.maxObject OFF_MAX at *
  constructor
  · intro hle
    omega
  · intro hlt
    omega

theorem pages_pos {size : Nat} (h : size ≤ OFF_MAX) : pages size ≠ 0 := by
  rw [pages_of_le h]
  unfold CACHE_PAGE_SIZE
  omega

theorem length_refit {junk : Nat → UInt8} {bytes : List UInt8} {size : Nat} :
    (refit junk bytes size).length = size := by
  simp only [refit, List.length_append, List.length_take, Binary.length_blank]
  omega

theorem Memory.resize_fit (junk : Nat → UInt8) {size : Nat}
    (h : size < 2 ^ 63 - CACHE_PAGE_SIZE) (ptrSize : Nat) (bytes : List UInt8) :
    (Memory.held ptrSize bytes).resize junk size
      = (0, .held (pages size) (refit junk bytes size)) := by
  have hoff : size ≤ OFF_MAX := by
    unfold OFF_MAX
    omega
  have hfit := (pages_fit hoff).mpr h
  simp only [Memory.resize]
  split
  · next hsame => rw [hsame]
  · rw [if_neg (not_or.mpr ⟨pages_pos hoff, Nat.not_lt.mpr hfit⟩)]

/-- The bytes next in order, inside the memory. -/
theorem memoryWrite_next {data buf : List UInt8} {p r k : Nat}
    (hlen : buf.length = data.length) (hr : r ≤ data.length) :
    memoryWrite r ((data.drop r).take k) (.held p (fillFront data buf r)) =
      .ok (0, ((data.drop r).take k).length,
        .held p (fillFront data buf (r + ((data.drop r).take k).length))) := by
  have hfront : (fillFront data buf r).length = data.length := by
    rw [length_fillFront hr (by omega), hlen]
  have hpiece : ((data.drop r).take k).length ≤ data.length - r := by
    rw [List.length_take, List.length_drop]
    exact min_le_right _ _
  have htake : (data.drop r).take ((data.drop r).take k).length
      = (data.drop r).take k := by
    rw [List.length_take, ← List.take_take, List.take_length]
  have hnext := fillFront_next data buf (w := r)
    (k := ((data.drop r).take k).length) (by omega)
  rw [htake] at hnext
  simp only [memoryWrite, hfront, min_eq_left hpiece,
    List.take_of_length_le hpiece, patch]
  rw [hnext]

/-! ## Enabling -/

/-- The cache reads the file in pieces, each of them a request. -/
theorem served_backendRead {f : File} (hf : f.bytes.length ≤ OFF_MAX) {n : Nat}
    (hn : f.bytes.length < n) : Served (backendRead n f) f.bytes (-1) := by
  have hlt : f.bytes.length < 2 ^ 64 := lt_of_le_of_lt hf (by decide)
  have hslice : ∀ o, o ≤ f.bytes.length →
      Served (sliceRead (offsetOr (some (.ofNat o)))
        (sizeOr (some (.ofNat DEF_BUFFER_SIZE))) (fileIoRead f))
        ((f.bytes.drop o).take DEF_BUFFER_SIZE) (-1) := by
    intro o ho
    have hoff : offsetOr (some (.ofNat o)) = o := by
      simp only [offsetOr, Option.map_some, Option.getD_some]
      exact Nat.mod_eq_of_lt (by omega)
    have hserved := served_slice (holds_fileIoRead hf) (.inl rfl) hlt DEF_BUFFER_SIZE ho
    rw [ite_self] at hserved
    rw [hoff]
    exact hserved
  refine ⟨?_, ?_, .inl rfl⟩
  · intro o ho
    refine ⟨DEF_BUFFER_SIZE, by decide, ?_⟩
    have hlen : ((f.bytes.drop o).take DEF_BUFFER_SIZE).length ≤ DEF_BUFFER_SIZE := by
      rw [List.length_take]
      exact min_le_left _ _
    have hne : (f.bytes.drop o).take DEF_BUFFER_SIZE ≠ [] := by
      intro hnil
      have hzero := congrArg List.length hnil
      simp only [List.length_take, List.length_drop, List.length_nil, DEF_BUFFER_SIZE]
        at hzero
      omega
    have hrun := convertTo_buffer (hslice o ho.le) (List.replicate DEF_BUFFER_SIZE 0)
        (n := n)
      (by rw [List.length_take, List.length_drop]; omega) (.inl hne)
    simp only [backendRead, fileRead, hrun, List.length_replicate, min_eq_left hlen]
    refine congrArg (fun bs => Except.ok (0, bs)) ?_
    simp only [Option.getD_some, Option.map_some, fillFront]
    rw [List.take_left']
    · rw [List.take_length]
    · rw [List.take_length]
  · have hslice' := hslice _ le_rfl
    rw [List.drop_length, List.take_nil] at hslice'
    simp only [backendRead, fileRead, convertTo_eof hslice' n]
    rfl

/-- A cache is enabled over every file that fits in memory, and holds its bytes. -/
theorem cacheEnable_returns (junk : Nat → UInt8) {f : File} (hf : Sane f) :
    Returns (fun n => cacheEnable junk n f)
      ⟨if Cacheable f.bytes.length then some (.held (pages f.bytes.length) f.bytes)
        else none, ⟨f.bytes, some f.bytes.length⟩⟩ := by
  by_cases hfit : f.bytes.length < 2 ^ 63 - CACHE_PAGE_SIZE
  · have hresize := Memory.resize_fit junk hfit 0 []
    refine ⟨f.bytes.length + 1, fun n hn => ?_⟩
    have hserved :=
      served_backendRead (f := ⟨f.bytes, some f.bytes.length⟩) hf.length (n := n) hn
    simp only [cacheEnable, cacheGetFilesize_sane hf, bind, Except.bind, hresize]
    by_cases hempty : f.bytes = []
    · have hnot : ¬Cacheable f.bytes.length := fun h => by
        rw [hempty] at h
        exact absurd h.1 (by decide)
      simp only [hempty] at hserved
      rw [if_neg hnot]
      simp only [hempty, convertTo_eof hserved n]
      rfl
    · have hcarried : Carried f.bytes (-1) memoryWrite
          (fun r w s => r ≤ f.bytes.length ∧ w = r ∧
            s = .held (pages f.bytes.length)
              (fillFront f.bytes (refit junk [] f.bytes.length) r))
          (fun _ s => s = .held (pages f.bytes.length) f.bytes) := by
        refine ⟨?_, ?_, fun _ _ _ h => absurd h (by decide)⟩
        · rintro r w s k ⟨hr, rfl, rfl⟩ - -
          refine .inr ⟨_, _, memoryWrite_next length_refit hr, ?_, rfl, rfl⟩
          rw [List.length_take, List.length_drop]
          omega
        · rintro w s ⟨-, rfl, rfl⟩ -
          rw [fillFront, List.take_length, List.drop_eq_nil_of_le length_refit.le,
            List.append_nil]
      have hstart : Memory.held (pages f.bytes.length) (refit junk [] f.bytes.length) =
          .held (pages f.bytes.length)
          (fillFront f.bytes (refit junk [] f.bytes.length) 0) := by simp [fillFront]
      obtain ⟨t, m, hrun, rfl⟩ := convertTo_rule hserved hcarried
        ⟨Nat.zero_le _, rfl, hstart⟩ hn (.inl hempty)
      rw [if_pos ⟨List.length_pos_of_ne_nil hempty, hfit⟩]
      simp only [hrun]
      rfl
  · have hover := (pages_fit hf.length).not.mpr hfit
    refine .of_forall fun n => ?_
    rw [if_neg (fun h => hfit h.2)]
    simp only [cacheEnable, cacheGetFilesize_sane hf, Memory.resize, bind, Except.bind]
    rw [if_neg (pages_pos hf.length), if_pos (.inr (Nat.lt_of_not_le hover))]
    rfl

end Frozen.Cache
