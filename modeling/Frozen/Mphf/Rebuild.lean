/-
# `Frozen.Mphf.Rebuild` — sizes, wiping and filling the stores, queries

A rebuild draws new hashes, chooses a capacity, wipes the three stores and fills
two of them with zeros.  On stores that answer at all it can fail in one way
only: no number of vertices fits the capacity.  Otherwise it leaves a healthy index
without entries (`run_rebuild`).

The sizes have to be right for that: `bt_vertex` bytes hold every vertex number
and `bt_value` bytes hold `value_bits` bits.
-/
import Frozen.Mphf.Insert
import Frozen.Core.Checked

namespace Frozen.Mphf

open Frozen.Lib

/-! ## Sizes -/

/-- `log_any` for base 2 counts the bits of `x`, at least one. -/
theorem logAnyLoop_spec {k x : Nat} (hk : 1 ≤ k ∧ k ≤ 63) (hx : x < 2 ^ k) :
    ∀ (n res : Nat), res + n = 64 → (res = 0 ∨ 2 ^ res ≤ x) → res ≤ k →
      ∃ b, logAnyLoop x 2 n (2 ^ (res + 1)) res = some b ∧ x < 2 ^ b ∧ 1 ≤ b ∧ b ≤ k
  | 0, res, hn, _, hle => absurd hle (by omega)
  | n + 1, res, hn, hres, hle => by
      rw [logAnyLoop]
      split_ifs with ht
      · have hlt : 2 ^ (res + 1) < 2 ^ k := lt_of_le_of_lt ht hx
        have hres' : res + 1 < k := (Nat.pow_lt_pow_iff_right (by norm_num)).mp hlt
        have hmul : 2 ^ (res + 1) * 2 % 2 ^ 64 = 2 ^ (res + 1 + 1) := by
          rw [← Nat.pow_succ]
          exact Nat.mod_eq_of_lt (Nat.pow_lt_pow_right (by norm_num) (by omega))
        rw [hmul]
        exact logAnyLoop_spec hk hx n (res + 1) (by omega) (Or.inr ht) hres'.le
      · refine ⟨res + 1, rfl, not_le.mp ht, by omega, ?_⟩
        rcases hres with rfl | h
        · omega
        · exact (Nat.pow_lt_pow_iff_right (by norm_num)).mp (lt_of_le_of_lt h hx)

theorem logAny_spec {k x : Nat} (hk : 1 ≤ k ∧ k ≤ 63) (hx : x < 2 ^ k) :
    ∃ b, logAny x 2 = some b ∧ x < 2 ^ b ∧ 1 ≤ b ∧ b ≤ k :=
  logAnyLoop_spec hk hx 64 0 rfl (Or.inl rfl) (Nat.zero_le k)

/-- Enough bytes for `x` bits, and not one too many. -/
theorem bitsToBytes_spec {x : Nat} (h1 : 1 ≤ x) (h2 : x ≤ 64) :
    x ≤ 8 * bitsToBytes x ∧ 8 * bitsToBytes x < x + 8 := by
  have hmod : (x + (2 ^ 64 - 1)) % 2 ^ 64 = x - 1 := by omega
  rw [bitsToBytes, hmod]
  omega

theorem chmNvertex_pos {capacity n : UInt64} (h0 : capacity ≠ 0)
    (h : chmNvertex capacity = some n) : 0 < n.toNat := by
  have hc : 0 < capacity.toNat := UInt64.pos_iff_ne_zero.mpr h0
  have hdiv : ∀ z : UInt64, 100 ≤ z.toNat → safeDiv z 100 = some n → 0 < n.toNat := by
    intro z hz hn
    cases hn
    rw [UInt64.toNat_div]
    exact Nat.div_pos hz (by decide)
  obtain ⟨z, hz, hn⟩ := Option.bind_eq_some_iff.mp h
  cases hmul : safeMul capacity CHM_CONST with
  | some z' =>
      rw [hmul] at hz
      cases hz
      refine hdiv z ?_ hn
      rw [Checked.safeMul_toNat hmul]
      exact le_trans (by decide) (Nat.le_mul_of_pos_left _ hc)
  | none =>
      rw [hmul] at hz
      have hz' : safeMul (capacity / 100) CHM_CONST = some z := hz
      refine hdiv z ?_ hn
      -- the product did not fit, so the capacity itself is large
      have hbig := Checked.le_of_safeMul_none hmul
      rw [Checked.safeMul_toNat hz', UInt64.toNat_div]
      have h100 : (100 : UInt64).toNat = 100 := rfl
      have h209 : CHM_CONST.toNat = 209 := rfl
      rw [h209] at hbig
      rw [h100, h209]
      omega

/-! ## Wiping and filling -/

/-- An index whose stores answer, configured for writing. -/
structure Usable (s : ChmImp) : Prop where
  writeable : s.writeable = true
  stores : ∀ b, (s.be b).isSome = true
  bits : 1 ≤ s.biValue ∧ s.biValue ≤ 64
  bytes : s.btValue = bitsToBytes s.biValue

theorem Usable.sameShape {s s' : ChmImp} (h : Usable s) (hs : SameShape s s') :
    Usable s' :=
  ⟨hs.writeable.trans h.writeable, fun b => (hs.stores b).trans (h.stores b),
    hs.biValue ▸ h.bits, by rw [hs.btValue, hs.biValue, h.bytes]⟩

/-- The contents of the stores after `chm_imp_file_init`. -/
def blank (s : ChmImp) : Be → Option (List UInt8)
  | .g => some (List.replicate (sizeofParams + s.nvertex * s.btValue) 0)
  | .v => some (List.replicate (s.nvertex * s.btVertex) 0)
  | .e => some []

/-- `s` with other stores. -/
def ChmImp.withBe (s : ChmImp) (be : Be → Option (List UInt8)) : ChmImp := { s with be }

section Files

variable {s : ChmImp}

theorem run_fastDelete_all {b : Be} {st : List UInt8} (hb : s.be b = some st) :
    fastDelete b 0 st.length s
      = .ok true (s.withBe (Function.update s.be b (some []))) := by
  simp only [fastDelete, setBe, run_bind, run_get, hb, Nat.zero_add, if_true, run_modify,
    List.take_zero, run_pure, ChmImp.withBe]

theorem run_chmImpKill {b : Be} (hb : (s.be b).isSome = true) (line : Nat) :
    chmImpKill b line s = .ok () (s.withBe (Function.update s.be b (some []))) := by
  obtain ⟨st, hst⟩ := Option.isSome_iff_exists.mp hb
  have hcount : fastCount b s = .ok st.length s := by simp [fastCount, run_bind, hst]
  rw [chmImpKill, run_bind_ok hcount]
  cases st with
  | nil =>
      have hself : Function.update s.be b (some []) = s.be := by
        rw [← hst]
        exact Function.update_eq_self _ _
      rw [hself]
      rfl
  | cons x xs =>
      rw [if_pos (by simp), run_bind_ok (run_fastDelete_all hst)]
      rfl

theorem run_chmImpFileWipe (h : ∀ b, (s.be b).isSome = true) :
    chmImpFileWipe s = .ok () (s.withBe fun _ => some []) := by
  have hwiped : Function.update
      (Function.update (Function.update s.be .g (some [])) .e (some []))
      .v (some []) = fun _ => some [] := by
    funext b
    cases b <;> simp [Function.update]
  rw [chmImpFileWipe, run_bind_ok (run_chmImpKill (h .g) 125),
    run_bind_ok (run_chmImpKill (by simpa [ChmImp.withBe] using h .e) 134),
    run_chmImpKill (by simpa [ChmImp.withBe] using h .v) 143]
  simp only [ChmImp.withBe, hwiped]

theorem writeAt_replicate_zero {N : Nat} (off k : Nat) (h : off + k ≤ N) :
    writeAt (List.replicate N (0 : UInt8)) off (List.replicate k 0)
      = some (List.replicate N 0) := by
  rw [writeAt, if_pos (by simpa using h)]
  simp only [List.take_replicate, List.drop_replicate, List.length_replicate,
    List.replicate_append_replicate]
  congr 2
  omega

theorem run_chmImpFillLoop {b : Be} {N : Nat} (hb : s.be b = some (List.replicate N 0)) :
    ∀ (n offset size : Nat), size < n → offset + size ≤ N →
      chmImpFillLoop b n offset size s = .ok true s
  | 0, _, _, h, _ => absurd h (Nat.not_lt_zero _)
  | n + 1, offset, size, hn, hle => by
      have hfill : min size sizeofClean ≤ size := Nat.min_le_left _ _
      have hwrite := run_fastWrite hb 
        (writeAt_replicate_zero offset (min size sizeofClean) (by omega))
      rw [← hb, Function.update_eq_self] at hwrite
      rw [chmImpFillLoop, run_bind_ok hwrite]
      simp only [Bool.not_true, Bool.false_eq_true, if_false]
      split_ifs with hmore
      · refine run_chmImpFillLoop hb n _ _ ?_ ?_
        · have hpos : 0 < min size sizeofClean := by
            unfold sizeofClean
            omega
          omega
        · omega
      · rfl

theorem run_chmImpFileOneInit {b : Be} (hb : s.be b = some []) (size : Nat) :
    chmImpFileOneInit b size s
      = .ok true (s.withBe (Function.update s.be b (some (List.replicate size 0)))) := by
  have hcreate : fastCreate b size s
      = .ok (some 0)
        (s.withBe (Function.update s.be b (some (List.replicate size 0)))) := by
    simp only [fastCreate, setBe, run_bind, run_get, hb, run_modify, run_pure,
      List.nil_append, List.length_nil, ChmImp.withBe]
  rw [chmImpFileOneInit, run_bind_ok hcreate]
  refine run_chmImpFillLoop (N := size) (by simp [ChmImp.withBe]) (size + 1) 0 size ?_ ?_
  · exact Nat.lt_succ_self _
  · exact (Nat.zero_add size).le

theorem run_chmImpFileInit (h : ∀ b, (s.be b).isSome = true) :
    chmImpFileInit s = .ok () (s.withBe (blank s)) := by
  have hblank : Function.update (Function.update (fun _ => some [])
      Be.g (some (List.replicate (sizeofParams + s.nvertex * s.btValue) 0)))
      .v (some (List.replicate (s.nvertex * s.btVertex) 0)) = blank s := by
    funext b
    cases b <;> simp [Function.update, blank]
  rw [chmImpFileInit, run_bind_ok (run_chmImpFileWipe h), run_bind_ok (run_get _),
    run_bind_ok (run_chmImpFileOneInit rfl _)]
  simp only [Bool.not_true, Bool.false_eq_true, if_false]
  rw [run_bind_ok (run_chmImpFileOneInit (by simp [ChmImp.withBe]) _)]
  simp only [ChmImp.withBe, hblank, Bool.not_true, Bool.false_eq_true, if_false, run_pure]

end Files

/-! ## `chm_imp_configure_r` and the rebuild -/

/-- `if(capacity == 0) capacity = 1`. -/
def atLeastOne (capacity : UInt64) : UInt64 := if capacity = 0 then 1 else capacity

theorem atLeastOne_ne_zero (capacity : UInt64) : atLeastOne capacity ≠ 0 := by
  unfold atLeastOne
  split_ifs with h
  · decide
  · exact h

/-- The sizes are those that `chm_imp_configure_r` derives from the capacity. -/
structure Sized (s : ChmImp) : Prop where
  nvertex : ∃ n, chmNvertex s.params.capacity = some n ∧ s.nvertex = n.toNat
  capacity : s.params.capacity ≠ 0
  biVertex : logAny s.nvertex 2 = some s.biVertex
  btVertex : s.btVertex = bitsToBytes s.biVertex

section Configure

variable {s : ChmImp}

theorem Sized.sameShape {s' : ChmImp} (h : Sized s) (hs : SameShape s s') : Sized s' :=
  ⟨by rw [hs.capacity, hs.nvertex]; exact h.nvertex, hs.capacity ▸ h.capacity,
    by rw [hs.nvertex, hs.biVertex]; exact h.biVertex,
    by rw [hs.btVertex, hs.biVertex]; exact h.btVertex⟩

/-- The number of vertices determines the width of a vertex. -/
theorem Sized.btVertex_eq {s' : ChmImp} (h : Sized s) (h' : Sized s')
    (hn : s.nvertex = s'.nvertex) : s.btVertex = s'.btVertex := by
  have hbits := h.biVertex
  rw [hn, h'.biVertex] at hbits
  rw [h.btVertex, h'.btVertex, Option.some_inj.mp hbits]

theorem Sized.pos (h : Sized s) : 0 < s.nvertex := by
  obtain ⟨n, hn, heq⟩ := h.nvertex
  exact heq ▸ chmNvertex_pos h.capacity hn

theorem Sized.wide (h : Sized s) (hlt : s.nvertex < 2 ^ 56) :
    s.nvertex < 256 ^ s.btVertex ∧ s.btVertex ≤ 7 := by
  obtain ⟨b, hb, hx, h1, h2⟩ := logAny_spec ⟨by norm_num, by norm_num⟩ hlt
  obtain rfl : b = s.biVertex := Option.some_inj.mp (hb.symm.trans h.biVertex)
  obtain ⟨hlo, hhi⟩ := bitsToBytes_spec h1 (h2.trans (by norm_num))
  rw [h.btVertex]
  refine ⟨lt_of_lt_of_le hx ?_, by omega⟩
  rw [show (256 : Nat) = 2 ^ 8 by norm_num, ← Nat.pow_mul]
  exact Nat.pow_le_pow_right (by norm_num) hlo

theorem run_chmImpConfigureR_none {capacity : UInt64}
    (h : chmNvertex (atLeastOne capacity) = none) :
    chmImpConfigureR capacity s = .error (.ret (errorCode EMODULE 270)) s := by
  unfold atLeastOne at h
  simp only [chmImpConfigureR, h]
  rfl

/-- With a number of vertices the sizes are set, or `log_any` does not come back. -/
theorem run_chmImpConfigureR {capacity n : UInt64}
    (h : chmNvertex (atLeastOne capacity) = some n) :
    ∃ s', s'.nvertex = n.toNat ∧ s'.be = s.be ∧ s'.writeable = s.writeable ∧
      s'.biValue = s.biValue ∧ s'.btValue = s.btValue ∧ s'.nelementsMin = s.nelementsMin ∧
      s'.params = { s.params with capacity := atLeastOne capacity } ∧
      (chmImpConfigureR capacity s = .error .loop s' ∧ 2 ^ 56 ≤ n.toNat ∨
        chmImpConfigureR capacity s = .ok () s' ∧ Sized s') := by
  have hc : chmNvertex (if capacity = 0 then 1 else capacity) = some n := h
  cases hlog : logAny n.toNat 2 with
  | none =>
      refine ⟨{ s with nvertex := n.toNat, params.capacity := atLeastOne capacity },
        rfl, rfl, rfl, rfl, rfl, rfl, rfl, Or.inl ⟨?_, ?_⟩⟩
      · simp only [chmImpConfigureR, hc, run_bind, run_modify, hlog]
        rfl
      · by_contra hlt
        obtain ⟨b, hb, -⟩ := logAny_spec ⟨by norm_num, by norm_num⟩ (not_le.mp hlt)
        rw [hlog] at hb
        cases hb
  | some bits =>
      refine ⟨{ s with
          nvertex := n.toNat, params.capacity := atLeastOne capacity
          biVertex := bits, btVertex := bitsToBytes bits }, rfl, rfl, rfl, rfl,
            rfl, rfl, rfl,
        Or.inr ⟨?_, ⟨n, h, rfl⟩, atLeastOne_ne_zero _, hlog, rfl⟩⟩
      simp only [chmImpConfigureR, hc, run_bind, run_modify, hlog]
      rfl

end Configure

section Rebuild

variable {s : ChmImp}

theorem graphRep_blank (hs : Sized s) (hlt : s.nvertex < 2 ^ 56)
    (hv : s.be .v = some (List.replicate (s.nvertex * s.btVertex) 0))
    (he : s.be .e = some []) : GraphRep s [] := by
  have hsv : s.store .v = List.replicate (s.nvertex * s.btVertex) 0 := by
    rw [ChmImp.store, hv, Option.getD_some]
  have hse : s.store .e = [] := by rw [ChmImp.store, he, Option.getD_some]
  obtain ⟨hwide, hnarrow⟩ := hs.wide hlt
  refine ⟨hwide, hnarrow, ?_, ?_, ?_, ?_, ?_, ?_, ?_, ?_⟩
  · rw [hv, hsv]
  · rw [hsv, List.length_replicate]
  · intro a _
    rw [hsv]
    exact wordAt_replicate_zero _ _ _ _
  · rw [he, hse]
  · rw [hse]
    simp
  · intro r x y hsuf
    exact absurd (List.suffix_nil.mp hsuf) (List.cons_ne_nil _ _)
  · intro p hp
    exact absurd hp List.not_mem_nil
  · exact Nat.zero_le _

theorem gstore_of_length {G : List UInt8} (hg : s.be .g = some G)
    (hglen : G.length = sizeofParams + s.nvertex * s.btValue) : GStore s := by
  have hsg : s.store .g = G := by rw [ChmImp.store, hg, Option.getD_some]
  exact ⟨by rw [hg, hsg], by rw [hsg, hglen]⟩

theorem length_paramsBytes (p : ChmImpParams) :
    (paramsBytes p).length = sizeofParams := by
  simp [paramsBytes, sizeofParams]

/-- Saving the parameters changes the first bytes of `be_g` only. -/
theorem run_chmImpParamWrite {G : List UInt8} (hg : s.be .g = some G)
    (hle : sizeofParams ≤ G.length) :
    ∃ G', writeAt G 0 (paramsBytes s.params) = some G' ∧ G'.length = G.length ∧
      chmImpParamWrite s = .ok () (s.withG G') := by
  obtain ⟨G', hG'⟩ : ∃ G', writeAt G 0 (paramsBytes s.params) = some G' :=
    exists_writeAt (by rw [length_paramsBytes]; omega)
  refine ⟨G', hG', length_writeAt hG', ?_⟩
  rw [chmImpParamWrite, run_bind_ok (run_get s), run_bind_ok (run_fastWrite hg hG')]
  rfl

/-- What a rebuild that works leaves behind. -/
structure Rebuilt (s s' : ChmImp) : Prop where
  sized : Sized s'
  g : ∃ G, s'.be .g = some G ∧ G.length = sizeofParams + s'.nvertex * s'.btValue
  v : s'.be .v = some (List.replicate (s'.nvertex * s'.btVertex) 0)
  e : s'.be .e = some []
  writeable : s'.writeable = s.writeable
  biValue : s'.biValue = s.biValue
  btValue : s'.btValue = s.btValue

theorem Rebuilt.stores {s' : ChmImp} (h : Rebuilt s s') (b : Be) :
    (s'.be b).isSome = true := by
  obtain ⟨G, hg, -⟩ := h.g
  cases b with
  | g => rw [hg, Option.isSome_some]
  | v => rw [h.v, Option.isSome_some]
  | e => rw [h.e, Option.isSome_some]

/-- Zeroed stores of the right sizes are a healthy index without entries. -/
theorem Rebuilt.healthy {s' : ChmImp} (h : Rebuilt s s') (hu : Usable s')
    (hlt : s'.nvertex < 2 ^ 56) : Healthy s' [] := by
  obtain ⟨G, hg, hglen⟩ := h.g
  have hbits := bitsToBytes_spec hu.bits.1 hu.bits.2
  refine ⟨graphRep_blank h.sized hlt h.v h.e, gstore_of_length hg hglen, hu.writeable,
    h.sized.pos, hu.bits.2, ?_, trivial, ?_⟩
  · rw [hu.bytes]
    exact hbits.1
  · intro p hp
    exact absurd hp List.not_mem_nil

/-- A rebuild of stores that answer finds no number of vertices and has changed the hashes
only; or `log_any` does not come back; or the stores are set up anew. -/
theorem run_rebuild_stores (hstores : ∀ b, (s.be b).isSome = true) (r1 r2 : UInt64) :
    (mphfChmImpRebuild r1 r2 s = .error (.ret (errorCode EMODULE 270))
        { s with params.hash1 := r1, params.hash2 := r2, params.nelements := 0 }) ∨
    (∃ s', mphfChmImpRebuild r1 r2 s = .error .loop s' ∧ 2 ^ 56 ≤ s'.nvertex) ∨
    ∃ s', mphfChmImpRebuild r1 r2 s = .ok () s' ∧ Rebuilt s s' := by
  set s₀ : ChmImp :=
    { s with params.hash1 := r1, params.hash2 := r2, params.nelements := 0 }
  have hrun : mphfChmImpRebuild r1 r2 s
      = (do
          chmImpConfigureR (rebuildCapacity s)
          chmImpFileInit
          chmImpParamWrite : ChmM Unit) s₀ := by
    rw [mphfChmImpRebuild, run_bind_ok (run_get s), run_bind_ok (run_modify s _)]
  rw [hrun]
  cases hn : chmNvertex (atLeastOne (rebuildCapacity s)) with
  | none => exact Or.inl (run_bind_error (run_chmImpConfigureR_none hn))
  | some n =>
      right
      obtain ⟨s₁, hnv, hbe, hw, hbi, hbt, -, -, hloop | ⟨hok, hsized⟩⟩ :=
        run_chmImpConfigureR (s := s₀) hn
      · exact Or.inl ⟨s₁, run_bind_error hloop.1, hnv ▸ hloop.2⟩
      · right
        have hstores₁ : ∀ b, (s₁.be b).isSome = true := fun b => by
          rw [hbe]
          exact hstores b
        have hg : (s₁.withBe (blank s₁)).be .g
            = some (List.replicate (sizeofParams + s₁.nvertex * s₁.btValue) 0) := rfl
        obtain ⟨G, -, hlen, hparam⟩ := run_chmImpParamWrite hg (by simp)
        rw [List.length_replicate] at hlen
        refine ⟨(s₁.withBe (blank s₁)).withG G, ?_,
          ⟨⟨hsized.nvertex, hsized.capacity, hsized.biVertex, hsized.btVertex⟩,
            ⟨G, by simp, hlen⟩,
            by simp [ChmImp.withBe, blank], by simp [ChmImp.withBe, blank], hw, hbi, hbt⟩⟩
        rw [run_bind_ok hok, run_bind_ok (run_chmImpFileInit hstores₁), hparam]

/-- **Everything a rebuild can do** to a usable index: it fails, or does not come back,
or it leaves an index without entries. -/
theorem run_rebuild (h : Usable s) (r1 r2 : UInt64) :
    (mphfChmImpRebuild r1 r2 s = .error (.ret (errorCode EMODULE 270))
        { s with params.hash1 := r1, params.hash2 := r2, params.nelements := 0 }) ∨
    (∃ s', mphfChmImpRebuild r1 r2 s = .error .loop s' ∧ 2 ^ 56 ≤ s'.nvertex) ∨
    (∃ s', mphfChmImpRebuild r1 r2 s = .ok () s' ∧ Usable s' ∧ Sized s' ∧
      s'.biValue = s.biValue ∧ (s'.nvertex < 2 ^ 56 → Healthy s' [])) := by
  rcases run_rebuild_stores h.stores r1 r2 with hrun | hrun | ⟨s', hrun, hr⟩
  · exact Or.inl hrun
  · exact Or.inr (Or.inl hrun)
  · have hu : Usable s' :=
      ⟨hr.writeable.trans h.writeable, hr.stores,
        hr.biValue ▸ h.bits, by rw [hr.btValue, hr.biValue, h.bytes]⟩
    exact Or.inr (Or.inr ⟨s', hrun, hu, hr.sized, hr.biValue, hr.healthy hu⟩)

end Rebuild

/-! ## `mphf_chm_imp_query` -/

section Query

variable {s : ChmImp} {L : List Entry}

/-- The mask of a query keeps `value_bits` bits. -/
theorem toNat_valueMask {b : Nat} (hb : b ≤ 63) (x : UInt64) :
    (x &&& ((1 <<< UInt64.ofNat b) - 1)).toNat = x.toNat % 2 ^ b := by
  have hmask : ((1 : UInt64) <<< UInt64.ofNat b - 1).toNat = 2 ^ b - 1 := by
    interval_cases b <;> decide +kernel
  rw [UInt64.toNat_and, hmask, Nat.and_two_pow_sub_one_eq_mod]

/-- What a query answers for a key of two different vertices. -/
def ChmImp.answerFor (s : ChmImp) (key : UInt64) : UInt64 :=
  (UInt64.ofNat (s.gval (s.vertex0 key)) + UInt64.ofNat (s.gval (s.vertex1 key)))
    &&& ((1 <<< UInt64.ofNat s.biValue) - 1)

theorem run_query (hg : GStore s) (hpos : 0 < s.nvertex) (key : UInt64) :
    mphfChmImpQuery key s
      = .ok (if s.vertex0 key = s.vertex1 key then none else some (s.answerFor key))
        s := by
  rw [mphfChmImpQuery, run_bind_ok (run_get s)]
  split_ifs with heq
  · rfl
  · simp only [onError, run_bind, run_graphGetg hg (vertex0_lt hpos key),
      run_graphGetg hg (vertex1_lt hpos key), run_pure, ChmImp.answerFor]

/-- The value of a key is the sum at its edge. -/
theorem answerFor_eq_iff (hbits : s.biValue ≤ 63) (key value : UInt64) :
    s.answerFor key = UInt64.ofNat (value.toNat % 2 ^ s.biValue) ↔
      s.Holds ((s.vertex0 key, s.vertex1 key), value) := by
  have hm : 2 ^ s.biValue ∣ 2 ^ 64 := dvd_two_pow (hbits.trans (by norm_num))
  have hlt : value.toNat % 2 ^ s.biValue < 2 ^ 64 :=
    lt_of_le_of_lt (Nat.mod_le _ _) value.toNat_lt
  rw [← UInt64.toNat_inj, ChmImp.answerFor, toNat_valueMask hbits, UInt64.toNat_ofNat',
    Nat.mod_eq_of_lt hlt, ← ZMod.natCast_eq_natCast_iff', ChmImp.Holds,
    ← residue_gval hm, ← residue_gval hm, ← residue_add hm]
  rfl

end Query

end Frozen.Mphf
