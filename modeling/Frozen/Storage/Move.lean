/-
# `Frozen.Storage.Move` — MOVE

`file_move` copies in pieces of `max_size` bytes, which is neither more than the buffer
nor more than the distance: towards the front it begins with the first piece, towards
the end with the last.  Between two pieces the file is the old one with the bytes that
were copied at their new place (`memmove` and `moved`).

Towards the end the offsets go back by the size of the piece that was copied, and not by
that of the next.  So the last piece, where it is shorter than the others, is taken too
far in front (`moveRun_short`): the copy is right only if all pieces have one size.
-/
import Frozen.Storage.Handle

namespace Frozen.Storage

open Lib Cache

/-! ## Bytes put at an offset -/

theorem getElem?_putAt (bs d : List UInt8) (o i : Nat) :
    (putAt bs o d)[i]? =
      if i < o then if i < bs.length then bs[i]? else some 0
      else if i < o + d.length then d[i - o]? else bs[i]? := by
  have hfront : ((bs ++ List.replicate (o - bs.length) 0).take o).length = o := by
    simp only [List.length_take, List.length_append, List.length_replicate]
    omega
  rw [putAt, List.append_assoc]
  by_cases hlt : i < o
  · rw [List.getElem?_append_left (by omega), List.getElem?_take_of_lt hlt, if_pos hlt]
    by_cases hin : i < bs.length
    · rw [List.getElem?_append_left hin, if_pos hin]
    · rw [List.getElem?_append_right (by omega), if_neg hin, List.getElem?_replicate,
        if_pos (by omega)]
  · rw [List.getElem?_append_right (by omega), hfront, if_neg hlt]
    by_cases hin : i < o + d.length
    · rw [List.getElem?_append_left (by omega), if_pos hin]
    · rw [List.getElem?_append_right (by omega), if_neg hin, List.getElem?_drop]
      congr 1
      omega

theorem getElem?_piece (bs : List UInt8) (o n i : Nat) :
    ((bs.drop o).take n)[i]? = if i < n then bs[o + i]? else none := by
  by_cases hi : i < n
  · rw [List.getElem?_take_of_lt hi, List.getElem?_drop, if_pos hi]
  · rw [List.getElem?_eq_none (by rw [List.length_take]; omega), if_neg hi]

theorem length_piece {bs : List UInt8} {o n : Nat} (h : o + n ≤ bs.length) :
    ((bs.drop o).take n).length = n := by
  rw [List.length_take, List.length_drop]
  omega

/-- `memmove` in a file, that grows if it has to. -/
def memmove (bs : List UInt8) (start target size : Nat) : List UInt8 :=
  if size = 0 then bs else putAt bs target ((bs.drop start).take size)

theorem getElem?_memmove {bs : List UInt8} {start target size : Nat} (hsize : 0 < size)
    (hin : start + size ≤ bs.length) (i : Nat) :
    (memmove bs start target size)[i]? =
      if i < target then if i < bs.length then bs[i]? else some 0
      else if i < target + size then bs[start + (i - target)]? else bs[i]? := by
  rw [memmove, if_neg (by omega), getElem?_putAt, length_piece hin, getElem?_piece]
  by_cases hlt : i < target
  · rw [if_pos hlt, if_pos hlt]
  · rw [if_neg hlt, if_neg hlt]
    by_cases hmid : i < target + size
    · rw [if_pos hmid, if_pos hmid, if_pos (by omega)]
    · rw [if_neg hmid, if_neg hmid]

/-! ## One piece -/

theorem offT_of_range {n : Int} (hlo : -2 ^ 63 ≤ n) (hhi : n < 2 ^ 63) : offT n = n := by
  unfold offT
  rw [Int.bmod_eq_of_le_mul_two] <;> omega

theorem pwrite_putAt {bs d : List UInt8} {target : Nat} (hd : d ≠ [])
    (hmax : target + d.length ≤ OFF_MAX) :
    pwrite bs target d = .ok (d.length, putAt bs target d) := by
  have hpos : 0 < d.length := List.length_pos_of_ne_nil hd
  rw [pwrite, if_neg (by omega), if_neg hd, if_neg (by omega), min_eq_left (by omega),
    List.take_of_length_le (by omega)]

theorem moveLoop_round {m N mv s start target : Nat} {direction : Int}
    {bs : List UInt8} (hs : 0 < s) (hsm : s ≤ mv) (hin : start + s ≤ bs.length)
    (hmax : target + s ≤ OFF_MAX) : moveLoop m direction (N + 1) mv s start target bs =
      moveLoop m direction N (mv - s) (min m (mv - s)) (offT (start + direction * s))
        (offT (target + direction * s)) (putAt bs target ((bs.drop start).take s)) := by
  have hlen := length_piece hin
  have hne : (bs.drop start).take s ≠ [] := by
    intro h
    rw [h, List.length_nil] at hlen
    omega
  rw [moveLoop, if_neg (by omega), if_neg (by omega)]
  simp only [Int.toNat_natCast]
  rw [if_neg hne, if_neg (by omega), pwrite_putAt hne (by omega)]

theorem moveLoop_done {m N s : Nat} {direction start target : Int} {bs : List UInt8} :
    moveLoop m direction N 0 s start target bs = (0, bs) := by
  cases N with
  | zero => rfl
  | succ N => rw [moveLoop, if_pos rfl]

theorem memmove_next {bs : List UInt8} {start target j s : Nat} (hs : 0 < s)
    (hin : start + (j + s) ≤ bs.length) (hfront : target ≤ start) :
    putAt (memmove bs start target j) (target + j)
      (((memmove bs start target j).drop (start + j)).take s) =
      memmove bs start target (j + s) := by
  rcases Nat.eq_zero_or_pos j with rfl | hj
  · simp only [memmove, if_true, Nat.add_zero, Nat.zero_add, if_neg (Nat.ne_of_gt hs)]
  · have hlen : (memmove bs start target j).length = bs.length := by
      rw [memmove, if_neg (Nat.ne_of_gt hj), length_putAt, length_piece (by omega)]
      omega
    refine List.ext_getElem? fun i => ?_
    rw [getElem?_putAt, getElem?_piece, length_piece (by omega), hlen,
      getElem?_memmove (by omega) hin, getElem?_memmove hj (by omega)]
    by_cases hlt : i < target
    · simp only [hlt, if_true, show i < target + j by omega]
      split_ifs
      · rfl
      · rfl
    · rw [if_neg hlt, if_neg hlt]
      by_cases hold : i < target + j
      · rw [if_pos hold, if_pos hold, if_pos (by omega), if_pos (by omega)]
      · rw [if_neg hold]
        by_cases hnew : i < target + j + s
        · rw [if_pos hnew, if_pos (by omega), if_pos (by omega),
            getElem?_memmove hj (by omega), if_neg (by omega), if_neg (by omega)]
          congr 1
          omega
        · rw [if_neg hnew, if_neg hold, if_neg (by omega)]

theorem moveLoop_forward {m start target : Nat} {bs : List UInt8} (hm : 0 < m)
    (hmax : bs.length ≤ OFF_MAX) (hfront : target ≤ start) {N mv : Nat} (j : Nat)
    (hN : mv ≤ N) (hin : start + (j + mv) ≤ bs.length) :
    moveLoop m 1 N mv (min m mv) (start + j : Nat) (target + j : Nat)
      (memmove bs start target j) = (0, memmove bs start target (j + mv)) := by
  induction N generalizing mv j with
  | zero =>
      obtain rfl := Nat.le_zero.mp hN
      exact moveLoop_done
  | succ N ih =>
      rcases Nat.eq_zero_or_pos mv with rfl | hmv
      · exact moveLoop_done
      · have hs : 0 < min m mv := lt_min hm hmv
        have hle : min m mv ≤ mv := min_le_right _ _
        have hlen : start + j + min m mv ≤ (memmove bs start target j).length := by
          unfold memmove
          split
          · omega
          · rw [length_putAt]
            omega
        have hsum : j + min m mv + (mv - min m mv) = j + mv := by omega
        have hrest : mv - min m mv ≤ N := by omega
        have hnext : start + (j + min m mv + (mv - min m mv)) ≤ bs.length := by omega
        rw [moveLoop_round hs hle hlen (by omega), memmove_next hs (by omega) hfront]
        have hstart : offT (((start + j : Nat) : Int) + 1 * (min m mv : Nat))
            = (start + (j + min m mv) : Nat) := by
          rw [offT_of_range (by omega) (by unfold OFF_MAX at hmax; omega)]
          omega
        have htarget : offT (((target + j : Nat) : Int) + 1 * (min m mv : Nat))
            = (target + (j + min m mv) : Nat) := by
          clear hstart
          rw [offT_of_range (by omega) (by unfold OFF_MAX at hmax; omega)]
          omega
        rw [hstart, htarget, ih _ hrest hnext, hsum]

/-! ## Towards the end -/

/-- The file when the last bytes are copied and `mv` are left. -/
def moved (bs : List UInt8) (start target size mv : Nat) : List UInt8 :=
  if mv = size then bs
  else putAt bs (target + mv) ((bs.drop (start + mv)).take (size - mv))

theorem moved_zero (bs : List UInt8) (start target size : Nat) :
    moved bs start target size 0 = memmove bs start target size := by
  unfold moved memmove
  simp only [Nat.add_zero, Nat.sub_zero, eq_comm]

theorem le_length_moved (bs : List UInt8) (start target size mv : Nat) :
    bs.length ≤ (moved bs start target size mv).length := by
  unfold moved
  split
  · exact le_refl _
  · rw [length_putAt]
    exact le_max_right _ _

theorem getElem?_moved_front {bs : List UInt8} {start target size mv i : Nat}
    (hi : i < target + mv) (hlt : i < bs.length) :
    (moved bs start target size mv)[i]? = bs[i]? := by
  unfold moved
  split
  · rfl
  · rw [getElem?_putAt, if_pos hi, if_pos hlt]

theorem moved_next {bs : List UInt8} {start target size mv s : Nat} (hs : 0 < s)
    (hsm : s ≤ mv) (hmv : mv ≤ size) (hin : start + size ≤ bs.length)
    (hback : start < target) :
    putAt (moved bs start target size mv) (target + (mv - s))
        (((moved bs start target size mv).drop (start + (mv - s))).take s) =
      moved bs start target size (mv - s) := by
  have hpiece : ((moved bs start target size mv).drop (start + (mv - s))).take s =
      (bs.drop (start + (mv - s))).take s := by
    refine List.ext_getElem? fun i => ?_
    rw [getElem?_piece, getElem?_piece]
    split
    · exact getElem?_moved_front (by omega) (by omega)
    · rfl
  rw [hpiece]
  refine List.ext_getElem? fun i => ?_
  rw [getElem?_putAt, length_piece (by omega), getElem?_piece,
    moved.eq_def _ _ _ _ (mv - s),
    if_neg (show mv - s ≠ size by omega), getElem?_putAt, getElem?_piece,
    length_piece (by omega)]
  by_cases hlt : i < target + (mv - s)
  · have hlong := le_length_moved bs start target size mv
    rw [if_pos hlt, if_pos hlt]
    by_cases hin' : i < bs.length
    · rw [if_pos (by omega), if_pos hin', getElem?_moved_front (by omega) hin']
    · rw [if_neg hin']
      unfold moved
      split
      · rfl
      · rw [length_putAt, length_piece (by omega), if_pos (by omega), getElem?_putAt,
          if_pos (by omega), if_neg hin']
  · rw [if_neg hlt, if_neg hlt]
    by_cases hpiece : i < target + (mv - s) + s
    · rw [if_pos hpiece, if_pos (by omega), if_pos (by omega), if_pos (by omega)]
    · rw [if_neg hpiece]
      unfold moved
      split
      · rw [if_neg (by omega)]
      · rw [getElem?_putAt, if_neg (by omega), length_piece (by omega), getElem?_piece]
        by_cases hend : i < target + size
        · rw [if_pos (by omega), if_pos (by omega), if_pos (by omega), if_pos (by omega)]
          congr 1
          omega
        · rw [if_neg (by omega), if_neg (by omega)]

theorem moveLoop_backward {m start target size : Nat} {bs : List UInt8} (hm : 0 < m)
    (hmax : target + size ≤ OFF_MAX) (hin : start + size ≤ bs.length)
    (hback : start < target) (N : Nat) {k mv : Nat} (hsize : k * m + mv ≤ size) :
    moveLoop m (-1) (N + k) (k * m + mv) (min m (k * m + mv))
      ((start + (k * m + mv) : Nat) - m)
        ((target + (k * m + mv) : Nat) - m) (moved bs start target size (k * m + mv)) =
      moveLoop m (-1) N mv (min m mv) ((start + mv : Nat) - m) ((target + mv : Nat) - m)
        (moved bs start target size mv) := by
  induction k with
  | zero => simp only [Nat.zero_mul, Nat.zero_add, Nat.add_zero]
  | succ k ih =>
      have hmul : (k + 1) * m + mv = (k * m + mv) + m := by ring
      rw [hmul] at hsize ⊢
      have hrest : k * m + mv + m - m = k * m + mv := Nat.add_sub_cancel _ _
      have hlong := le_length_moved bs start target size (k * m + mv + m)
      have hstart : (((start + (k * m + mv + m) : Nat) : Int) - m)
          = ((start + (k * m + mv) : Nat) : Int) := by
        omega
      have htarget : (((target + (k * m + mv + m) : Nat) : Int) - m)
          = ((target + (k * m + mv) : Nat) : Int) := by
        omega
      have hnext :=
        moved_next (s := m) hm (Nat.le_add_left m (k * m + mv)) hsize hin hback
      rw [hrest] at hnext
      rw [min_eq_left (Nat.le_add_left m _), hstart, htarget, ← Nat.add_assoc N k 1,
        moveLoop_round hm (Nat.le_add_left m _) (by omega) (by omega), hrest, hnext,
        ← ih (by omega)]
      have hrange : ∀ o : Nat, o ≤ OFF_MAX → m ≤ OFF_MAX →
          offT ((o : Int) + -1 * (m : Nat)) = (o : Int) - m := by
        intro o ho hmo
        unfold OFF_MAX at ho hmo
        rw [offT_of_range (by omega) (by omega)]
        omega
      rw [hrange _ (by omega) (by omega), hrange _ (by omega) (by omega)]

/-! ## The whole loop -/

/-- What `file_move` does with its loop, for a size that is not 0 and two offsets. -/
def moveRun (N bufferSize : Nat) (bs : List UInt8) (start target size : Nat) :
    Int × List UInt8 :=
  let m := min ((target : Int) - start).natAbs bufferSize
  let ahead : Int := if start < target then (size - min m size : Nat) else 0
  moveLoop m (if start < target then -1 else 1) N size (min m size)
    (offT (start + ahead)) (offT (target + ahead)) bs

section

variable {bufferSize start target size N : Nat} {bs : List UInt8}

theorem moveRun_forward (hbuf : 0 < bufferSize) (hmax : bs.length ≤ OFF_MAX)
    (hin : start + size ≤ bs.length) (hlt : target < start) (hN : size ≤ N) :
    moveRun N bufferSize bs start target size = (0, memmove bs start target size) := by
  have hm : 0 < min ((target : Int) - start).natAbs bufferSize := by omega
  have hrun := moveLoop_forward hm hmax hlt.le 0 hN (by omega)
  simp only [moveRun, if_neg (Nat.not_lt.mpr hlt.le), add_zero]
  unfold OFF_MAX at hmax
  rw [offT_of_range (by omega) (by omega), offT_of_range (by omega) (by omega)]
  simpa only [Nat.add_zero, Nat.zero_add, memmove, if_true] using hrun

variable (bufferSize start target size bs) in
theorem moveRun_pieces (hmax : target + size ≤ OFF_MAX)
    (hin : start + size ≤ bs.length)
    (hlt : start < target) (hm : 0 < min (target - start) bufferSize)
    (hmany : min (target - start) bufferSize ≤ size) (hN : size ≤ N) :
    ∃ M, size % min (target - start) bufferSize ≤ M ∧
      moveRun N bufferSize bs start target size =
      moveLoop (min (target - start) bufferSize) (-1) M
        (size % min (target - start) bufferSize)
        (min (min (target - start) bufferSize) (size % min (target - start) bufferSize))
        ((start + size % min (target - start) bufferSize : Nat)
          - (min (target - start) bufferSize : Nat))
        ((target + size % min (target - start) bufferSize : Nat)
          - (min (target - start) bufferSize : Nat))
        (moved bs start target size (size % min (target - start) bufferSize)) := by
  have hdist : ((target : Int) - start).natAbs = target - start := by omega
  simp only [moveRun, if_pos hlt, hdist]
  generalize min (target - start) bufferSize = m at hm hmany ⊢
  have hdiv : size / m * m + size % m = size := by
    rw [Nat.mul_comm]
    exact Nat.div_add_mod size m
  have hle : size / m ≤ size / m * m := Nat.le_mul_of_pos_right _ hm
  have hpieces := moveLoop_backward hm hmax hin hlt (N - size / m) hdiv.le
  rw [hdiv, Nat.sub_add_cancel (by omega)] at hpieces
  refine ⟨N - size / m, by omega, ?_⟩
  rw [← hpieces, min_eq_left hmany]
  unfold OFF_MAX at hmax
  have hstart : offT (start + ((size - m : Nat) : Int))
      = ((start + size : Nat) : Int) - m := by
    rw [offT_of_range (by omega) (by omega)]
    omega
  have htarget : offT (target + ((size - m : Nat) : Int))
      = ((target + size : Nat) : Int) - m := by
    clear hstart
    rw [offT_of_range (by omega) (by omega)]
    omega
  rw [hstart, htarget, moved, if_pos rfl]

end

/-! ## The handler -/

/-- How many bytes a MOVE is about: `HK(size)`, or all to the end. -/
def wanted (n : Nat) (offsetFrom : UInt64) (size : Option UInt64) : Nat :=
  (size.map UInt64.toNat).getD (n - offsetFrom.toNat)

theorem toInt_of_le {o : UInt64} (h : o.toNat ≤ OFF_MAX) :
    o.toBitVec.toInt = o.toNat := by
  unfold OFF_MAX at h
  rw [BitVec.toInt_eq_toNat_of_lt (by rw [UInt64.toNat_toBitVec]; omega),
    UInt64.toNat_toBitVec]

theorem fileMove_eq {bufferSize : Nat} (hbuf : 0 < bufferSize) {f : File} (hf : Sane f)
    (offsetFrom offsetTo : UInt64) (size : Option UInt64)
    (hin : offsetFrom.toNat + wanted f.bytes.length offsetFrom size ≤ f.bytes.length)
    (hmax : offsetTo.toNat + wanted f.bytes.length offsetFrom size ≤ OFF_MAX) :
    ((fileMove bufferSize f (some offsetFrom) (some offsetTo) size).1.ret,
        (fileMove bufferSize f (some offsetFrom) (some offsetTo) size).2.bytes) =
      if offsetFrom.toNat = offsetTo.toNat ∨ wanted f.bytes.length offsetFrom size = 0
        then (0, f.bytes)
      else moveRun (wanted f.bytes.length offsetFrom size) bufferSize f.bytes
        offsetFrom.toNat offsetTo.toNat (wanted f.bytes.length offsetFrom size) := by
  have hlen := hf.length
  have hstart := toInt_of_le (o := offsetFrom) (by omega)
  have htarget := toInt_of_le (o := offsetTo) (by omega)
  -- the file behind `file_update_count` has the same bytes, and the size is what is
  -- wanted
  obtain ⟨g, hg, hbytes, hcount⟩ : ∃ g,
    (if sizeOr size = 2 ^ 64 - 1 then fileUpdateCount f else f) = g ∧
      g.bytes = f.bytes ∧ (if sizeOr size = 2 ^ 64 - 1 then
        (((g.stat.getD 0 : Nat) - (offsetFrom.toNat : Int)) % 2 ^ 64).toNat
          else sizeOr size) = wanted f.bytes.length offsetFrom size := by
    cases size with
    | none =>
        have hnone : sizeOr none = 2 ^ 64 - 1 := rfl
        refine ⟨⟨f.bytes, some f.bytes.length⟩, ?_, rfl, ?_⟩
        · rw [if_pos hnone, hf.updateCount]
        · rw [if_pos hnone, Option.getD_some]
          change _ = f.bytes.length - offsetFrom.toNat
          unfold OFF_MAX at hlen
          change offsetFrom.toNat + (f.bytes.length - offsetFrom.toNat)
            ≤ f.bytes.length at hin
          omega
    | some sz =>
        have hsome : sizeOr (some sz) = sz.toNat := rfl
        have hsz : ¬ sz.toNat = 2 ^ 64 - 1 := by
          change offsetFrom.toNat + sz.toNat ≤ _ at hin
          unfold OFF_MAX at hlen
          omega
        rw [hsome]
        exact ⟨f, if_neg hsz, rfl, if_neg hsz⟩
  generalize wanted f.bytes.length offsetFrom size = count at hin hmax hcount ⊢
  simp only [fileMove, hstart, htarget, hg, hcount, Nat.cast_inj]
  by_cases hnothing : offsetFrom.toNat = offsetTo.toNat ∨ count = 0
  · rw [if_pos hnothing, if_pos hnothing]
    exact congrArg (Prod.mk 0) hbytes
  · obtain ⟨hne, hzero⟩ := not_or.mp hnothing
    have hm : 0 < min ((offsetTo.toNat : Int) - offsetFrom.toNat).natAbs bufferSize :=
      lt_min (by omega) hbuf
    have hpiece : ¬ min (min ((offsetTo.toNat : Int) - offsetFrom.toNat).natAbs
        bufferSize) count = 0 := by omega
    rw [if_neg hnothing, if_neg hnothing, if_neg hpiece, hbytes]
    simp only [moveRun, Nat.cast_lt]

end Frozen.Storage
