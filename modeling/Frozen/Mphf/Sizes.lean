/-
# `Frozen.Mphf.Sizes` — how many vertices, and how many elements

`chm_imp_configure_r` derives the number of vertices from the capacity, 2.09
times as many, and the width of a vertex from that.  `capacity * 209 / 100` is
right as long as the product fits; the other way to compute it divides by 100
once before the multiplication and once more behind it, so from there on there
are a hundred times too few.

The capacity itself follows the configuration: a rebuild of an index that is filled to
80% adds a step and multiplies.  Neither operation is checked, and a load that finds an
index smaller than its minimum rebuilds it without looking whether that makes it larger.
-/
import Frozen.Mphf.Rebuild
import Mathlib.Data.UInt

namespace Frozen.Mphf

open Frozen.Lib

/-! ## Vertices -/

/-- `nvertex` is 2.09 times the capacity, up to rounding. -/
def ChmImp.Proportional (s : ChmImp) : Prop :=
  0 ≤ 209 * (s.params.capacity.toNat : Int) - 100 * s.nvertex ∧
    209 * (s.params.capacity.toNat : Int) - 100 * s.nvertex ≤ 21000

instance (s : ChmImp) : Decidable s.Proportional := inferInstanceAs (Decidable (_ ∧ _))

/-- `bt_vertex` bytes hold every vertex and every id of an edge. -/
def ChmImp.Wide (s : ChmImp) : Prop :=
  (∀ vertex < s.nvertex, vertex < 256 ^ s.btVertex) ∧ ∀ id ≤ s.nvertex,
  id < 256 ^ s.btVertex

theorem safeMul_chmConst (c : UInt64) :
    safeMul c CHM_CONST = if 210 * c.toNat < 2 ^ 64 then some (c * CHM_CONST)
      else none := by
  have hmax : uintmaxMax.toNat = 2 ^ 64 - 1 := rfl
  have h209 : CHM_CONST.toNat = 209 := rfl
  unfold safeMul
  split_ifs with h0 hfits hover hfits hfits
  · obtain rfl : c = 0 := h0.resolve_right (by decide)
    rfl
  · obtain rfl : c = 0 := h0.resolve_right (by decide)
    exact absurd (by decide) hfits
  · have hpos : 0 < c.toNat := UInt64.pos_iff_ne_zero.mpr (not_or.mp h0).1
    rw [UInt64.le_iff_toNat_le, UInt64.toNat_div, hmax, h209, ← Nat.lt_succ_iff,
      Nat.div_lt_iff_lt_mul hpos] at hover
    omega
  · rfl
  · rfl
  · have hpos : 0 < c.toNat := UInt64.pos_iff_ne_zero.mpr (not_or.mp h0).1
    rw [UInt64.le_iff_toNat_le, UInt64.toNat_div, hmax, h209, Nat.not_le,
      ← Nat.succ_le_iff, Nat.le_div_iff_mul_le hpos] at hover
    omega

theorem chmNvertex_eq {c n : UInt64} (h : chmNvertex c = some n) :
    n.toNat = if 210 * c.toNat < 2 ^ 64 then 209 * c.toNat / 100
      else 209 * (c.toNat / 100) / 100 := by
  have h100 : (100 : UInt64).toNat = 100 := rfl
  have h209 : CHM_CONST.toNat = 209 := rfl
  obtain ⟨z, hz, hn⟩ := Option.bind_eq_some_iff.mp h
  obtain rfl : z / 100 = n := Option.some.inj hn
  rw [UInt64.toNat_div, h100]
  cases hmul : safeMul c CHM_CONST with
  | some z' =>
      obtain rfl : z' = z := by
        rw [hmul] at hz
        exact Option.some.inj hz
      have hfits : 210 * c.toNat < 2 ^ 64 := by
        by_contra hnot
        rw [safeMul_chmConst, if_neg hnot] at hmul
        cases hmul
      rw [if_pos hfits, Checked.safeMul_toNat hmul, h209, Nat.mul_comm]
  | none =>
      have hnot : ¬ 210 * c.toNat < 2 ^ 64 := by
        intro hfits
        rw [safeMul_chmConst, if_pos hfits] at hmul
        cases hmul
      rw [hmul] at hz
      have hz' : safeMul (c / 100) CHM_CONST = some z := hz
      rw [if_neg hnot, Checked.safeMul_toNat hz', UInt64.toNat_div, h100, h209,
        Nat.mul_comm]

theorem chmNvertex_lt {c n : UInt64} (h : chmNvertex c = some n) : n.toNat < 2 ^ 59 := by
  have hlt := c.toNat_lt
  rw [chmNvertex_eq h]
  split_ifs <;> omega

/-- The other way of rounding is a hundred times too low. -/
theorem proportional_iff {s : ChmImp} {n : UInt64}
    (h : chmNvertex s.params.capacity = some n) (hn : s.nvertex = n.toNat) :
    s.Proportional ↔ 210 * s.params.capacity.toNat < 2 ^ 64 := by
  rw [ChmImp.Proportional, hn, chmNvertex_eq h]
  split_ifs with hfits
  · refine iff_of_true ?_ hfits
    omega
  · refine iff_of_false ?_ hfits
    omega

theorem Sized.fits {s : ChmImp} (h : Sized s) : s.Wide := by
  obtain ⟨n, hn, heq⟩ := h.nvertex
  have hlt : s.nvertex < 2 ^ 59 := heq ▸ chmNvertex_lt hn
  obtain ⟨b, hb, hx, h1, h2⟩ := logAny_spec ⟨by norm_num, by norm_num⟩ hlt
  obtain rfl : b = s.biVertex := Option.some_inj.mp (hb.symm.trans h.biVertex)
  have hwide : s.nvertex < 256 ^ s.btVertex := by
    rw [h.btVertex]
    refine lt_of_lt_of_le hx ?_
    rw [show (256 : Nat) = 2 ^ 8 by norm_num, ← Nat.pow_mul]
    exact Nat.pow_le_pow_right (by norm_num)
      (bitsToBytes_spec h1 (h2.trans (by norm_num))).1
  exact ⟨fun _ hv => hv.trans hwide, fun _ hid => lt_of_le_of_lt hid hwide⟩

/-- `chm_imp_configure_r` returns 0 and every size is right; the capacity is
the one it keeps. -/
def WellSized (capacity : UInt64) (s : ChmImp) : Prop :=
  ∃ s', chmImpConfigureR capacity s = .ok () s' ∧
  s'.params.capacity = atLeastOne capacity ∧
    s'.Proportional ∧ s'.Wide

/-- A capacity that is not refused is configured, with room for all vertices and edges. -/
theorem run_configureR_accepted {capacity : UInt64} {s : ChmImp}
    (hacc : ∀ code s', chmImpConfigureR capacity s ≠ .error (.ret code) s') :
    ∃ s', chmImpConfigureR capacity s = .ok () s' ∧
      s'.params.capacity = atLeastOne capacity ∧ Sized s' := by
  cases hn : chmNvertex (atLeastOne capacity) with
  | none => exact absurd (run_chmImpConfigureR_none hn) (hacc _ _)
  | some n =>
      obtain ⟨s', hnv, -, -, -, -, -, hp, ⟨hloop, -⟩ | ⟨hok, hsized⟩⟩ :=
        run_chmImpConfigureR (s := s) hn
      · obtain ⟨b, hb, -⟩ := logAny_spec ⟨by norm_num, by norm_num⟩ (chmNvertex_lt hn)
        have hc : chmNvertex (if capacity = 0 then 1 else capacity) = some n := hn
        simp only [chmImpConfigureR, hc, run_bind, run_modify, hb] at hloop
        cases hloop
      · exact ⟨s', hok, by rw [hp], hsized⟩

/-- **The sizes are right exactly** for the capacities whose product with 209 is not
refused by `safe_mul`. -/
theorem wellSized_iff (capacity : UInt64) (s : ChmImp)
    (hacc : ∀ code s', chmImpConfigureR capacity s ≠ .error (.ret code) s') :
    (∃ s', chmImpConfigureR capacity s = .ok () s' ∧ s'.Wide) ∧
      (WellSized capacity s ↔ 210 * capacity.toNat < 2 ^ 64) := by
  obtain ⟨s', hok, hcap, hsized⟩ := run_configureR_accepted hacc
  obtain ⟨n, hn, hnv⟩ := hsized.nvertex
  have hsame : 210 * (atLeastOne capacity).toNat < 2 ^ 64 ↔
      210 * capacity.toNat < 2 ^ 64 := by
    unfold atLeastOne
    split_ifs with h0
    · subst h0
      exact iff_of_true (by decide) (by decide)
    · rfl
  refine ⟨⟨s', hok, hsized.fits⟩, ?_⟩
  rw [← hsame, ← hcap, ← proportional_iff hn hnv]
  constructor
  · rintro ⟨s'', hok', -, hprop, -⟩
    obtain rfl : s' = s'' := by
      rw [hok] at hok'
      cases hok'
      rfl
    exact hprop
  · exact fun hprop => ⟨s', hok, hcap, hprop, hsized.fits⟩

theorem wellSized_iff_hundred : WellSized 100 default := by
  refine (wellSized_iff 100 default fun code s' h => ?_).2.mpr (by decide)
  have hn : chmNvertex (atLeastOne 100) = some 209 := by decide +kernel
  obtain ⟨s'', -, -, -, -, -, -, -, ⟨hloop, -⟩ | ⟨hok, -⟩⟩ :=
    run_chmImpConfigureR (s := (default : ChmImp)) hn
  · rw [hloop] at h
    cases h
  · rw [hok] at h
    cases h

/-- A capacity of 2 ^ 57 gets a hundredth of the vertices. -/
theorem few_vertices : ∃ s', chmImpConfigureR (2 ^ 57) default = .ok () s' ∧
    s'.params.capacity = 2 ^ 57 ∧ s'.nvertex = 3012007430785386 ∧ ¬ s'.Proportional := by
  have hn : chmNvertex (atLeastOne (2 ^ 57)) = some 3012007430785386 := by decide +kernel
  obtain ⟨s', hnv, -, -, -, -, -, hp, ⟨-, hbig⟩ | ⟨hok, -⟩⟩ :=
    run_chmImpConfigureR (s := (default : ChmImp)) hn
  · exact absurd hbig (by decide)
  · have hcap : s'.params.capacity = 2 ^ 57 := by
      rw [hp]
      decide
    refine ⟨s', hok, hcap, hnv, ?_⟩
    rw [ChmImp.Proportional, hnv, hcap]
    decide

/-! ## What only changes the stores -/

section Stores

variable {α β : Type}

/-- Whatever a call changes are the stores. -/
def StoresOnly (m : ChmM α) : Prop := ∀ s a s', m s = .ok a s' → ∃ be, s' = s.withBe be

theorem StoresOnly.pure (a : α) : StoresOnly (pure a : ChmM α) := by
  rintro s _ _ ⟨⟩
  exact ⟨s.be, rfl⟩

theorem StoresOnly.throw (e : Stop) : StoresOnly (throw e : ChmM α) := by
  rintro s _ _ ⟨⟩

theorem StoresOnly.get : StoresOnly (get : ChmM ChmImp) := by
  rintro s _ _ ⟨⟩
  exact ⟨s.be, rfl⟩

theorem StoresOnly.setBe (b : Be) (st : List UInt8) : StoresOnly (setBe b st) := by
  rintro s _ _ ⟨⟩
  exact ⟨_, rfl⟩

theorem StoresOnly.bind {m : ChmM α} {f : α → ChmM β} (hm : StoresOnly m)
    (hf : ∀ a, StoresOnly (f a)) : StoresOnly (m >>= f) := by
  intro s b s'' h
  rw [run_bind] at h
  cases hrun : m s with
  | error e s' =>
      rw [hrun] at h
      cases h
  | ok a s' =>
      rw [hrun] at h
      obtain ⟨be, rfl⟩ := hm s a s' hrun
      obtain ⟨be', rfl⟩ := hf a _ b s'' h
      exact ⟨be', rfl⟩

theorem StoresOnly.ite {p : Prop} [Decidable p] {m m' : ChmM α} (h : StoresOnly m)
    (h' : StoresOnly m') : StoresOnly (if p then m else m') := by
  split_ifs
  · exact h
  · exact h'

theorem storesOnly_fastWrite (b : Be) (off : Nat) (d : List UInt8) :
    StoresOnly (fastWrite b off d) := by
  refine .bind .get fun s => ?_
  split
  · exact .pure _
  · exact .bind (.setBe _ _) fun _ => .pure _

theorem storesOnly_fastCreate (b : Be) (size : Nat) : StoresOnly (fastCreate b size) := by
  refine .bind .get fun s => ?_
  split
  · exact .pure _
  · exact .bind (.setBe _ _) fun _ => .pure _

theorem storesOnly_fastDelete (b : Be) (off size : Nat) :
    StoresOnly (fastDelete b off size) := by
  refine .bind .get fun s => ?_
  split
  · exact .pure _
  · exact .ite (.bind (.setBe _ _) fun _ => .pure _) (.pure _)

theorem storesOnly_kill (b : Be) (line : Nat) : StoresOnly (chmImpKill b line) :=
  .bind (.bind .get fun _ => .pure _) fun _ =>
    .ite (.bind (storesOnly_fastDelete _ _ _) fun _ => .ite (.throw _) (.pure _))
    (.pure _)

theorem storesOnly_fillLoop (b : Be) (n : Nat) :
    ∀ offset size, StoresOnly (chmImpFillLoop b n offset size) := by
  induction n with
  | zero => exact fun _ _ => .throw _
  | succ n ih =>
      exact fun offset size => .bind (storesOnly_fastWrite _ _ _) fun _ =>
        .ite (.pure _) (.ite (ih _ _) (.pure _))

theorem storesOnly_fileOneInit (b : Be) (size : Nat) :
    StoresOnly (chmImpFileOneInit b size) := by
  refine .bind (storesOnly_fastCreate _ _) fun r => ?_
  cases r with
  | none => exact .pure _
  | some offset => exact .ite (.pure _) (storesOnly_fillLoop _ _ _ _)

theorem storesOnly_fileInit : StoresOnly chmImpFileInit :=
  .bind (.bind (storesOnly_kill _ _) fun _ => .bind (storesOnly_kill _ _) fun _ =>
    storesOnly_kill _ _) fun _ =>
    .bind .get fun _ => .bind (storesOnly_fileOneInit _ _) fun _ =>
      .ite (.bind (.throw _) fun _ => .bind (storesOnly_fileOneInit _ _) fun _ =>
        .ite (.throw _) (.pure _))
        (.bind (storesOnly_fileOneInit _ _) fun _ => .ite (.throw _) (.pure _))

theorem storesOnly_paramWrite : StoresOnly chmImpParamWrite :=
  .bind .get fun _ => .bind (storesOnly_fastWrite _ _ _) fun _ =>
    .ite (.throw _) (.pure _)

end Stores

/-! ## Capacity -/

section Capacity

variable {s s' : ChmImp}

/-- The index is filled to 80%, as the rebuild computes them. -/
def ChmImp.Expands (s : ChmImp) : Prop :=
  80 * (s.params.capacity.toNat / 100) ≤ s.params.nelements.toNat

instance (s : ChmImp) : Decidable s.Expands := inferInstanceAs (Decidable (_ ≤ _))

/-- The capacity an expansion is after. -/
def ChmImp.expanded (s : ChmImp) : Nat :=
  (max (max s.params.capacity.toNat s.nelementsMin.toNat) s.params.nelements.toNat +
    s.nelementsStep.toNat) * s.nelementsMul.toNat

theorem toNat_max (a b : UInt64) : (max a b).toNat = max a.toNat b.toNat := by
  show (if a ≤ b then b else a).toNat = _
  simp only [UInt64.le_iff_toNat_le, Nat.max_def]
  split_ifs <;> rfl

theorem rebuildCapacity_eq (s : ChmImp) : (rebuildCapacity s).toNat
    = if s.Expands then s.expanded % 2 ^ 64 else s.params.capacity.toNat := by
  set c := s.params.capacity with hc
  have hdiv : safeDiv c 100 = some (c / 100) := rfl
  have hlt : 80 * (c.toNat / 100) < 2 ^ 64 := by
    have := c.toNat_lt
    omega
  have hcurr : ((safeDiv c 100).bind (safeMul · REBUILD_CONST)).getD c
      = c / 100 * REBUILD_CONST := by
    rw [hdiv, Option.bind_some, safeMul]
    have hmax : uintmaxMax.toNat = 2 ^ 64 - 1 := rfl
    have h80 : REBUILD_CONST.toNat = 80 := rfl
    split_ifs with h0 hover
    · rcases h0 with h0 | h0
      · rw [h0, UInt64.zero_mul, Option.getD_some]
      · cases h0
    · have hpos : 0 < (c / 100).toNat := UInt64.pos_iff_ne_zero.mpr (not_or.mp h0).1
      rw [UInt64.le_iff_toNat_le, UInt64.toNat_div, hmax, h80, ← Nat.lt_succ_iff,
        Nat.div_lt_iff_lt_mul hpos] at hover
      have h100 : (c / 100).toNat = c.toNat / 100 := UInt64.toNat_div ..
      have := c.toNat_lt
      omega
    · rfl
  have hle : c / 100 * REBUILD_CONST ≤ s.params.nelements ↔ s.Expands := by
    have h100 : (100 : UInt64).toNat = 100 := rfl
    have h80 : REBUILD_CONST.toNat = 80 := rfl
    rw [UInt64.le_iff_toNat_le, UInt64.toNat_mul, UInt64.toNat_div, h100, h80,
      Nat.mul_comm, Nat.mod_eq_of_lt hlt, ChmImp.Expands]
  unfold rebuildCapacity
  rw [← hc, hcurr]
  by_cases hexp : s.Expands
  · simp only [if_pos (hle.mpr hexp), if_pos hexp]
    rw [ChmImp.expanded, UInt64.toNat_mul, UInt64.toNat_add, toNat_max, toNat_max,
      Nat.mod_mul_mod]
  · simp only [if_neg (mt hle.mp hexp), if_neg hexp]

theorem toNat_atLeastOne (c : UInt64) : (atLeastOne c).toNat = max 1 c.toNat := by
  unfold atLeastOne
  split_ifs with h
  · subst h
    rfl
  · have hpos : 0 < c.toNat := UInt64.pos_iff_ne_zero.mpr h
    exact (Nat.max_eq_right hpos).symm

theorem configureR_ok {capacity : UInt64} (h : chmImpConfigureR capacity s = .ok () s') :
    s'.params = { s.params with capacity := atLeastOne capacity } ∧
      s'.nelementsMin = s.nelementsMin ∧
      s'.nelementsStep = s.nelementsStep ∧ s'.nelementsMul = s.nelementsMul := by
  cases hn : chmNvertex (atLeastOne capacity) with
  | none =>
      rw [run_chmImpConfigureR_none hn] at h
      cases h
  | some n =>
      have hc : chmNvertex (if capacity = 0 then 1 else capacity) = some n := hn
      simp only [chmImpConfigureR, hc, run_bind, run_modify] at h
      cases hlog : logAny n.toNat 2 with
      | none =>
          simp only [hlog] at h
          cases h
      | some bits =>
          simp only [hlog] at h
          cases h
          exact ⟨rfl, rfl, rfl, rfl⟩

theorem rebuild_capacity {r1 r2 : UInt64} (h : mphfChmImpRebuild r1 r2 s = .ok () s') :
    s'.params.capacity = atLeastOne (rebuildCapacity s) := by
  rw [mphfChmImpRebuild, run_bind_ok (run_get s), run_bind_ok (run_modify s _),
    run_bind] at h
  cases hconf : chmImpConfigureR (rebuildCapacity s)
      { s with params.hash1 := r1, params.hash2 := r2, params.nelements := 0 } with
  | error e t =>
      rw [hconf] at h
      cases h
  | ok _ t =>
      rw [hconf] at h
      obtain ⟨be, rfl⟩ :=
        StoresOnly.bind storesOnly_fileInit (fun _ => storesOnly_paramWrite) t _ _ h
      exact congrArg ChmImpParams.capacity (configureR_ok hconf).1

/-- What a rebuild has to do with the capacity: it never shrinks, grows where 80% were
reached and there is a step, and nothing wraps around. -/
def ChmImp.Grows (s s' : ChmImp) : Prop :=
  s.params.capacity ≤ s'.params.capacity ∧
  (80 * s.params.capacity.toNat ≤ 100 * s.params.nelements.toNat → 0 < s.nelementsStep →
    s.params.capacity < s'.params.capacity) ∧
  (s.Expands → s'.params.capacity.toNat = max 1 s.expanded)

theorem le_expanded (hmul : 1 ≤ s.nelementsMul) :
    max (max s.params.capacity.toNat s.nelementsMin.toNat) s.params.nelements.toNat +
      s.nelementsStep.toNat ≤ s.expanded :=
  Nat.le_mul_of_pos_right _ (UInt64.le_iff_toNat_le.mp hmul)

theorem grows_iff (hmul : 1 ≤ s.nelementsMul)
    (hcap : s'.params.capacity = atLeastOne (rebuildCapacity s)) :
    s.Grows s' ↔ (s.Expands → s.expanded < 2 ^ 64) := by
  have hle := le_expanded hmul
  have hnat : s'.params.capacity.toNat = max 1 (rebuildCapacity s).toNat := by
    rw [hcap, toNat_atLeastOne]
  rw [rebuildCapacity_eq] at hnat
  unfold ChmImp.Grows
  rw [UInt64.le_iff_toNat_le, UInt64.lt_iff_toNat_lt, UInt64.lt_iff_toNat_lt]
  constructor
  · rintro ⟨-, -, hexact⟩ hexp
    have hlt := s'.params.capacity.toNat_lt
    rw [hexact hexp] at hlt
    exact (le_max_right _ _).trans_lt hlt
  · intro hfits
    by_cases hexp : s.Expands
    · rw [if_pos hexp, Nat.mod_eq_of_lt (hfits hexp)] at hnat
      refine ⟨by omega, fun _ hstep => ?_, fun _ => hnat⟩
      have hpos : 0 < s.nelementsStep.toNat := hstep
      omega
    · rw [if_neg hexp] at hnat
      unfold ChmImp.Expands at hexp
      exact ⟨by omega, fun h80 => absurd (by omega) hexp, fun h => absurd h hexp⟩

/-! ### Load -/

/-- The parameters that are saved, if any. -/
def ChmImp.saved (s : ChmImp) : Option ChmImpParams :=
  ((s.be .g).bind fun st => readAt st 0 sizeofParams).map paramsOfBytes

/-- The parameters as the load has them when it decides. -/
def ChmImp.opened (s : ChmImp) : ChmImp :=
  { s with
    params := match s.saved with
      | none => ⟨0, 0, 0, 0⟩
      | some p => { p with capacity := atLeastOne p.capacity } }

/-- There is nothing to load, or too small an index. -/
def ChmImp.LoadRebuilds (s : ChmImp) : Prop :=
  s.saved = none ∨ s.opened.params.capacity < s.nelementsMin

/-- What a load has to do with the capacity. -/
def ChmImp.Reaches (s s' : ChmImp) : Prop :=
  s.nelementsMin ≤ s'.params.capacity ∧
  (s.LoadRebuilds → s.opened.Expands → s'.params.capacity.toNat = max 1 s.opened.expanded)

/-- A load that returns 0 left the index as it was, or rebuilt it. -/
theorem load_capacity {r1 r2 : UInt64} (h : chmImpLoad r1 r2 s = .ok () s') :
    (¬ s.LoadRebuilds ∧ s'.params.capacity = s.opened.params.capacity) ∨
    (s.LoadRebuilds ∧ s'.params.capacity = atLeastOne (rebuildCapacity s.opened)) := by
  have hread : fastRead .g 0 sizeofParams s
      = .ok ((s.be .g).bind fun st => readAt st 0 sizeofParams) s := rfl
  unfold chmImpLoad at h
  cases hbytes : (s.be .g).bind fun st => readAt st 0 sizeofParams with
  | none =>
      have hsaved : s.saved = none := by rw [ChmImp.saved, hbytes, Option.map_none]
      have hopen : s.opened = { s with params := ⟨0, 0, 0, 0⟩ } := by
        rw [ChmImp.opened, hsaved]
      rw [hbytes] at hread
      have hparam : chmImpParamRead s = .ok false s.opened := by
        rw [chmImpParamRead, run_bind_ok hread, hopen]
        rfl
      rw [run_bind_ok hparam] at h
      exact Or.inr ⟨Or.inl hsaved, rebuild_capacity h⟩
  | some bs =>
      have hsaved : s.saved = some (paramsOfBytes bs) := by
        rw [ChmImp.saved, hbytes, Option.map_some]
      have hopen : s.opened = { s with
          params := { paramsOfBytes bs
            with capacity := atLeastOne (paramsOfBytes bs).capacity } } := by
        rw [ChmImp.opened, hsaved]
      rw [hbytes] at hread
      have hparam : chmImpParamRead s
          = .ok true { s with params := paramsOfBytes bs } := by
        rw [chmImpParamRead, run_bind_ok hread]
        rfl
      rw [run_bind_ok hparam] at h
      simp only [Bool.not_true, Bool.false_eq_true, if_false] at h
      rw [run_bind_ok (run_get _), run_bind] at h
      cases hconf : chmImpConfigureR (paramsOfBytes bs).capacity
        { s with params := paramsOfBytes bs } with
      | error e t =>
          simp only [hconf] at h
          cases h
      | ok _ t =>
          simp only [hconf] at h
          obtain ⟨hp, hmin, hstep, hmulEq⟩ := configureR_ok hconf
          have hparams : t.params = s.opened.params := by rw [hp, hopen]
          rw [run_bind_ok (run_get t)] at h
          have hiff : s.LoadRebuilds ↔ t.params.capacity < t.nelementsMin := by
            rw [ChmImp.LoadRebuilds, hparams, hmin, hsaved]
            simp
          split_ifs at h with hsmall
          · right
            refine ⟨hiff.mpr hsmall, ?_⟩
            rw [rebuild_capacity h, rebuildCapacity, rebuildCapacity, hparams, hmin,
              hstep, hmulEq, hopen]
          · left
            cases h
            exact ⟨mt hiff.mp hsmall, congrArg _ hparams⟩

theorem reaches_iff (hmul : 1 ≤ s.nelementsMul)
    (h : (¬ s.LoadRebuilds ∧ s'.params.capacity = s.opened.params.capacity) ∨
      (s.LoadRebuilds ∧ s'.params.capacity = atLeastOne (rebuildCapacity s.opened))) :
    s.Reaches s' ↔ (s.LoadRebuilds → s.opened.Expands ∧ s.opened.expanded < 2 ^ 64) := by
  rcases h with ⟨hkeep, hcap⟩ | ⟨hreb, hcap⟩
  · refine iff_of_true ⟨?_, fun h => absurd h hkeep⟩ fun h => absurd h hkeep
    rw [hcap]
    exact UInt64.not_lt.mp (not_or.mp hkeep).2
  · have hgrows := grows_iff (s := s.opened) hmul hcap
    have hle : s.nelementsMin.toNat ≤ s.opened.expanded :=
      le_trans (by show _ ≤ max (max _ s.nelementsMin.toNat) _ + _; omega)
        (le_expanded (s := s.opened) hmul)
    constructor
    · rintro ⟨hmin, hexact⟩ -
      have hexp : s.opened.Expands := by
        by_contra hnot
        -- an index that is too small and not filled keeps its capacity
        have hnat : s'.params.capacity.toNat = max 1 s.opened.params.capacity.toNat := by
          rw [hcap, toNat_atLeastOne, rebuildCapacity_eq, if_neg hnot]
        have hpos : 0 < s.opened.params.capacity.toNat := by
          by_contra h0
          exact hnot
            (by rw [ChmImp.Expands, Nat.eq_zero_of_not_pos h0]; exact Nat.zero_le _)
        rw [UInt64.le_iff_toNat_le, hnat, Nat.max_eq_right hpos] at hmin
        rcases hreb with hnone | hsmall
        · have h0 : s.opened.params.capacity.toNat = 0 := by simp [ChmImp.opened, hnone]
          omega
        · rw [UInt64.lt_iff_toNat_lt] at hsmall
          omega
      refine ⟨hexp, ?_⟩
      have hlt := s'.params.capacity.toNat_lt
      rw [hexact hreb hexp] at hlt
      exact (le_max_right _ _).trans_lt hlt
    · intro hcond
      obtain ⟨hexp, hfits⟩ := hcond hreb
      have hexact := (hgrows.mpr fun _ => hfits).2.2 hexp
      refine ⟨?_, fun _ _ => hexact⟩
      rw [UInt64.le_iff_toNat_le, hexact]
      exact hle.trans (le_max_right _ _)

end Capacity

/-- **The capacity follows its policy exactly** if nothing wraps around and the load
rebuilds only an index that is filled to 80%. -/
theorem capacity_policy (s : ChmImp) (hmul : 1 ≤ s.nelementsMul) (r1 r2 : UInt64) :
    (∀ s', chmImpLoad r1 r2 s = .ok () s' →
      (s.Reaches s' ↔ (s.LoadRebuilds → s.opened.Expands ∧ s.opened.expanded < 2 ^ 64))) ∧
    ∀ s', mphfChmImpRebuild r1 r2 s = .ok () s' →
      (s.Grows s' ↔ (s.Expands → s.expanded < 2 ^ 64)) :=
  ⟨fun _ h => reaches_iff hmul (load_capacity h),
    fun _ h => grows_iff hmul (rebuild_capacity h)⟩

/-- Loaded on empty stores with room for one element, and rebuilt when that is taken,
with a step of one. -/
theorem capacity_policy_tiny : ∃ s s' : ChmImp, chmImpLoad 0 1 s = .ok () s' ∧
    s.LoadRebuilds ∧
    s.Reaches s' ∧ ∃ t t' : ChmImp, mphfChmImpRebuild 0 1 t = .ok () t' ∧ t.Expands ∧
      t.Grows t' := by
  set s : ChmImp := ⟨true, fun _ => some [], ⟨0, 0, 0, 0⟩, 1, 0, 1, 0, 8, 1, 0, 0⟩ with hs
  set t : ChmImp := ⟨true, fun _ => some [], ⟨1, 1, 0, 0⟩, 1, 1, 1, 2, 8, 1, 0, 0⟩ with ht
  have hload : passes (fun _ _ => true) (chmImpLoad 0 1 s) = true := by decide +kernel
  have hrebuild : passes (fun _ _ => true) (mphfChmImpRebuild 0 1 t) = true := by
    decide +kernel
  obtain ⟨⟨⟩, s', hs', -⟩ := exists_of_passes hload
  obtain ⟨⟨⟩, t', ht', -⟩ := exists_of_passes hrebuild
  refine ⟨s, s', hs', .inl rfl, ?_, t, t', ht', by decide +kernel, ?_⟩
  · exact ((capacity_policy s (by decide) 0 1).1 s' hs').mpr fun _ => by decide +kernel
  · exact ((capacity_policy t (by decide) 0 1).2 t' ht').mpr fun _ => by decide +kernel

/-- Room for 100 elements on disk, none of them stored, and 101 asked for. -/
def poorIndex : ChmImp :=
  { (default : ChmImp) with
    be := fun b => if b = .g then some (paramsBytes ⟨100, 0, 0, 0⟩) else some []
    nelementsMin := 101, nelementsStep := 256, nelementsMul := 1, biValue :=
      8, btValue := 1 }

/-- A load answers 0 and the capacity stays below the minimum; a step that wraps around
makes the capacity smaller. -/
theorem capacity_too_small :
    (∃ s', chmImpLoad 0 1 poorIndex = .ok () s' ∧ s'.params.capacity = 100 ∧
      s'.params.capacity < poorIndex.nelementsMin) ∧
    ∃ s', mphfChmImpRebuild 0 1
        { poorIndex with
          params := ⟨5, 5, 0, 0⟩, nelementsMin := 5, nelementsStep := 2 ^ 64 - 1 }
      = .ok () s' ∧ s'.params.capacity = 4 := by
  constructor
  · have hok : passes (fun _ _ => true) (chmImpLoad 0 1 poorIndex) = true := by
      decide +kernel
    obtain ⟨⟨⟩, s', h, -⟩ := exists_of_passes hok
    have hcap : s'.params.capacity = 100 := by
      rcases load_capacity h with ⟨-, hcap⟩ | ⟨-, hcap⟩
      · rw [hcap]
        decide +kernel
      · rw [hcap]
        decide +kernel
    exact ⟨s', h, hcap, by rw [hcap]; decide⟩
  · have hok : passes (fun _ _ => true) (mphfChmImpRebuild 0 1
        { poorIndex with
          params := ⟨5, 5, 0, 0⟩, nelementsMin := 5, nelementsStep := 2 ^ 64 - 1 })
        = true := by
      decide +kernel
    obtain ⟨⟨⟩, s', h, -⟩ := exists_of_passes hok
    refine ⟨s', h, ?_⟩
    rw [rebuild_capacity h]
    decide +kernel

end Frozen.Mphf
