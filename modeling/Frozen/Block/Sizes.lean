/-
# `Frozen.Block.Sizes` — sizes near the top of the range

`memory_resize` takes any 64-bit size.  A page more than there are full ones may be
beyond the range, and then the product wraps to less than a page (`pages_wrapped`).
Doubling shifts the highest bit out when it has not passed the request by then, and goes
on with zero for ever (`doubleLoop_stuck`).

    resize_sound_iff   the sizes for which the block is large enough, whatever `realloc` does
-/
import Frozen.Block.Memory

namespace Frozen.Block

open Lib

/-! ## Sound sizes -/

/-- The block has as many bytes as `ptr_size` says. -/
def Memory.Consistent (m : Memory) : Prop := (m.ptr.getD []).length = m.ptrSize

/-- `memory_resize` ends, and after an answer of 0 all bytes below the new exact size
are in the block. -/
def ResizeSound (realloc : Realloc) (m : Memory) (newSize : Nat) : Prop :=
  ∃ r, Returns (fun n => memoryResize realloc n m newSize) r ∧
    (r.1 = 0 → r.2.exactSize = newSize ∧ newSize ≤ (r.2.ptr.getD []).length)

/-- A type, a page size and a request for which this is so in every memory, with
every `realloc`. -/
def SizeSound (type : MemoryType) (pageSize newSize : UInt64) : Prop :=
  ∀ (realloc : Realloc) (m : Memory), m.Consistent → m.type = type →
  m.pageSize = pageSize.toNat →
    ResizeSound realloc m newSize.toNat

/-- The request does not reach the top of the range; a type without a policy has no room
but for nothing. -/
def Fits (type : MemoryType) (pageSize newSize : UInt64) : Prop :=
  match type with
  | .exact | .freed => True
  | .page => 0 < pageSize.toNat ∧
      (newSize.toNat / pageSize.toNat + 1) * pageSize.toNat < 2 ^ 64
  | .double => newSize.toNat ≤ 2 ^ 63
  | .other => newSize.toNat = 0

/-! ## Blocks that are large enough -/

section

variable {realloc : Realloc} {m : Memory} {newSize t : Nat}

theorem Memory.Consistent.reallocate (ht : newSize ≤ m.ptrSize)
    (hsize : m.exactSize = newSize) (h : (Block.reallocate realloc m).1 = 0) :
    (Block.reallocate realloc m).2.exactSize = newSize ∧
      newSize ≤ ((Block.reallocate realloc m).2.ptr.getD []).length := by
  have hneg : -EFAULT ≠ 0 := by decide
  unfold Block.reallocate at h ⊢
  cases halloc : m.alloc with
  | freed =>
      rw [halloc] at h
      exact absurd h hneg
  | other =>
      rw [halloc] at h
      exact absurd h hneg
  | malloc =>
      cases hcall : realloc.call m.ptr m.ptrSize with
      | none =>
          simp only [halloc, hcall] at h
          exact absurd h hneg
      | some block =>
          refine ⟨hsize, ?_⟩
          rw [Option.getD_some, realloc.length hcall]
          exact ht

/-- A size of the block that is not below the request is sound. -/
theorem Memory.Consistent.settle (h : m.Consistent) (ht : newSize ≤ t)
    (hzero : (Block.settle realloc m newSize t).1 = 0) :
    (Block.settle realloc m newSize t).2.exactSize = newSize ∧
      newSize ≤ ((Block.settle realloc m newSize t).2.ptr.getD []).length := by
  by_cases hfreed : m.type = .freed
  · have hneg : -EFAULT ≠ 0 := by decide
    unfold Block.settle at hzero
    rw [hfreed] at hzero
    exact absurd hzero hneg
  · by_cases hskip : m.type.Keeps ∧ t = m.ptrSize
    · obtain ⟨hkeeps, rfl⟩ := hskip
      rw [settle_kept hkeeps]
      exact ⟨rfl, ht.trans_eq h.symm⟩
    · rw [settle_called hfreed hskip] at hzero ⊢
      exact Memory.Consistent.reallocate ht rfl hzero

end

/-! ## Pages -/

/-- Behind the top of the range, a page more than the full ones is less
than the request. -/
theorem pages_wrapped {newSize page : Nat} (hsize : newSize < 2 ^ 64)
    (hpage : page < 2 ^ 64) (h : 2 ^ 64 ≤ (newSize / page + 1) * page) :
    (newSize / page + 1) * page % 2 ^ 64 < newSize := by
  have hfull : newSize / page * page ≤ newSize := Nat.div_mul_le_self _ _
  have hmul : (newSize / page + 1) * page = newSize / page * page + page :=
    Nat.succ_mul _ _
  have hmod : (newSize / page + 1) * page % 2 ^ 64 = (newSize / page + 1) * page
      - 2 ^ 64 := by
    rw [Nat.mod_eq_sub_mod h, Nat.mod_eq_of_lt (by omega)]
  omega

theorem le_pages {newSize page : Nat} (hpos : 0 < page) :
    newSize ≤ (newSize / page + 1) * page := by
  rw [Nat.mul_comm]
  exact (Nat.lt_mul_div_succ newSize hpos).le

/-! ## Doubling -/

/-- Beyond 2^63 the loop does not end. -/
theorem doubleLoop_stuck {newSize : Nat} (h : 2 ^ 63 < newSize) (n : Nat) :
    ∀ {t : Nat}, (t = 0 ∨ ∃ k ≤ 63, t = 2 ^ k) →
      doubleLoop newSize n t = .error .outOfFuel := by
  induction n with
  | zero => exact fun _ => rfl
  | succ n ih =>
      rintro t (rfl | ⟨k, hk, rfl⟩)
      · rw [doubleLoop, if_pos (by omega)]
        exact ih (.inl rfl)
      · have hle : 2 ^ k ≤ 2 ^ 63 := Nat.pow_le_pow_right (by decide) hk
        rw [doubleLoop, if_pos (hle.trans_lt h), ← pow_succ]
        rcases Nat.lt_or_ge k 63 with hlt | hge
        · refine ih (.inr ⟨k + 1, hlt, Nat.mod_eq_of_lt ?_⟩)
          exact Nat.pow_lt_pow_right (by decide) (by omega)
        · obtain rfl : k = 63 := Nat.le_antisymm hk hge
          exact ih (.inl (Nat.mod_self _))

/-! ## All types -/

/-- A new memory. -/
def fresh (type : MemoryType) (pageSize : UInt64) : Memory :=
  memoryNew zeroed type .malloc pageSize.toNat false

theorem fresh_consistent (type : MemoryType) (pageSize : UInt64) :
    (fresh type pageSize).Consistent := rfl

theorem settle_fresh (type : MemoryType) (pageSize : UInt64) (hfreed : type ≠ .freed)
    (newSize t : Nat) : (settle (fillWith 0) (fresh type pageSize) newSize t).1 = 0 ∧
      ((settle (fillWith 0) (fresh type pageSize) newSize t).2.ptr.getD []).length
        = t := by
  by_cases hskip : type.Keeps ∧ t = (fresh type pageSize).ptrSize
  · obtain ⟨hkeeps, rfl⟩ := hskip
    rw [settle_kept hkeeps]
    exact ⟨rfl, rfl⟩
  · rw [settle_called hfreed hskip]
    refine ⟨rfl, ?_⟩
    exact (fillWith 0).length rfl

/-- A block that is too small is not sound. -/
theorem SizeSound.le_blockSize {type : MemoryType} {pageSize newSize : UInt64}
    (h : SizeSound type pageSize newSize) (hfreed : type ≠ .freed) {t : Nat}
    (ht : ∀ n, (fresh type pageSize).blockSize n newSize.toNat = .ok t) :
    newSize.toNat ≤ t := by
  obtain ⟨r, hrun, hzero⟩ :=
    h (fillWith 0) (fresh type pageSize) (fresh_consistent _ _) rfl rfl
  have hsettle : Returns
      (fun n => memoryResize (fillWith 0) n (fresh type pageSize) newSize.toNat)
      (settle (fillWith 0) (fresh type pageSize) newSize.toNat t) :=
    .of_forall fun n => by rw [memoryResize, ht n]; rfl
  obtain ⟨hok, hlen⟩ := settle_fresh type pageSize hfreed newSize.toNat t
  rw [hrun.unique hsettle, hlen] at hzero
  exact (hzero hok).2

theorem resizeSound_of_blockSize {realloc : Realloc} {m : Memory} (h : m.Consistent)
    {newSize t : Nat} (hle : newSize ≤ t)
    (hblock : Returns (fun n => m.blockSize n newSize) t) :
    ResizeSound realloc m newSize :=
  ⟨_, hblock.bind (.of_forall fun _ => rfl), fun hzero => h.settle hle hzero⟩

theorem resizeSound_freed {realloc : Realloc} {m : Memory} (h : m.type = .freed)
    (newSize : Nat) : ResizeSound realloc m newSize := by
  have hneg : -EFAULT ≠ 0 := by decide
  refine ⟨(-EFAULT, { m with exactSize := newSize }), .of_forall fun n => ?_,
    fun hzero => absurd hzero hneg⟩
  simp only [memoryResize, Memory.blockSize, h, settle]
  rfl

theorem not_sound_wrapped {pageSize newSize : UInt64} (hpos : 0 < pageSize.toNat)
    (h : 2 ^ 64 ≤ (newSize.toNat / pageSize.toNat + 1) * pageSize.toNat) :
    ¬ SizeSound .page pageSize newSize := by
  intro hsound
  have hblock : ∀ n, (fresh .page pageSize).blockSize n newSize.toNat
      = .ok ((newSize.toNat / pageSize.toNat + 1) * pageSize.toNat % 2 ^ 64) :=
    fun n => if_neg hpos.ne'
  have hle := hsound.le_blockSize (by decide) hblock
  exact absurd hle (Nat.not_le.mpr (pages_wrapped newSize.toNat_lt pageSize.toNat_lt h))

theorem not_sound_divided {pageSize newSize : UInt64} (h : pageSize.toNat = 0) :
    ¬ SizeSound .page pageSize newSize := by
  intro hsound
  obtain ⟨r, hrun, -⟩ :=
    hsound (fillWith 0) (fresh .page pageSize) (fresh_consistent _ _) rfl rfl
  have hfails : Fails (fun n => memoryResize (fillWith 0) n (fresh .page pageSize)
      newSize.toNat) .dividedByZero := by
    refine Fails.bind (.of_forall fun n => ?_)
    exact if_pos h
  exact hfails.not_returns hrun

theorem not_sound_stuck {pageSize newSize : UInt64} (h : 2 ^ 63 < newSize.toNat) :
    ¬ SizeSound .double pageSize newSize := by
  intro hsound
  obtain ⟨r, hrun, -⟩ :=
    hsound (fillWith 0) (fresh .double pageSize) (fresh_consistent _ _) rfl rfl
  have hfails : Fails (fun n => memoryResize (fillWith 0) n (fresh .double pageSize)
      newSize.toNat) .outOfFuel := by
    refine Fails.bind (.of_forall fun n => ?_)
    exact doubleLoop_stuck h n (.inr ⟨0, by decide, rfl⟩)
  exact hfails.not_returns hrun

/-- The block is large enough exactly if the request does not reach the
top of the range. -/
theorem resize_sound_iff (type : MemoryType) (pageSize newSize : UInt64) :
    SizeSound type pageSize newSize ↔ Fits type pageSize newSize := by
  cases type with
  | exact =>
      refine iff_of_true (fun realloc m h htype _ => ?_) trivial
      exact resizeSound_of_blockSize h le_rfl
        (.of_forall fun n => by rw [Memory.blockSize, htype])
  | freed =>
      exact iff_of_true (fun realloc m _ htype _ => resizeSound_freed htype _) trivial
  | page =>
      constructor
      · intro hsound
        have hpos : 0 < pageSize.toNat :=
          Nat.pos_of_ne_zero fun hzero => not_sound_divided hzero hsound
        exact ⟨hpos, Nat.not_le.mp fun hwraps => not_sound_wrapped hpos hwraps hsound⟩
      · rintro ⟨hpos, hfits⟩ realloc m h htype hpage
        refine resizeSound_of_blockSize h (le_pages hpos) (.of_forall fun n => ?_)
        simp only [Memory.blockSize, htype, hpage, if_neg hpos.ne',
          Nat.mod_eq_of_lt hfits]
  | double =>
      constructor
      · exact fun hsound => Nat.not_lt.mp fun hlarge => not_sound_stuck hlarge hsound
      · intro hfits realloc m h htype _
        obtain ⟨t, hle, -, hrun⟩ := doubleLoop_returns hfits 63 0 rfl
        refine resizeSound_of_blockSize h hle ?_
        simp only [Memory.blockSize, htype]
        exact hrun
  | other =>
      constructor
      · intro hsound
        exact Nat.le_zero.mp (hsound.le_blockSize (by decide) fun _ => rfl)
      · intro hnothing realloc m h htype _
        have hnone : newSize.toNat = 0 := hnothing
        refine resizeSound_of_blockSize h (hnone.le.trans (Nat.zero_le m.ptrSize))
          (.of_forall fun n => ?_)
        rw [Memory.blockSize, htype]

/-- Pages of 4096 bytes and a request for all of the range, and doubling for one byte
more than half of it. -/
theorem resize_unsound :
    ¬ SizeSound .page 4096 0xFFFFFFFFFFFFFFFF ∧
      ¬ SizeSound .double 1 0x8000000000000001 :=
  ⟨not_sound_wrapped (by decide) (by decide), not_sound_stuck (by decide)⟩

end Frozen.Block
