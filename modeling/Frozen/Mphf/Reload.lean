/-
# `Frozen.Mphf.Reload` — unloading an index and loading it again

`chm_imp_unload` writes the parameters in front of the g-values and lets go of
the stores; `chm_imp_load` reads the parameters back and derives the sizes from
them.  An index that is healthy when it is unloaded is therefore healthy when it
is loaded again, with the same hashes and the same entries (`reload_healthy`).

Two things are NOT saved.  The flag `broken` is not, so an index whose last insert
was given up halfway through `graph_recalc` comes back as if it were whole.  And a
load that finds the capacity below a raised `nelements_min` rebuilds at once, which
wipes the entries without the answer `-EBADF` a rebuild gives.  `torn` follows the
first through a run; `reload_correct` says that without the two nothing is lost.
-/
import Frozen.Mphf.Run

namespace Frozen.Mphf

open Frozen.Lib

/-! ## The saved parameters -/

theorem paramsOfBytes_paramsBytes (p : ChmImpParams) :
    paramsOfBytes (paramsBytes p) = p := by
  have hword : ∀ k (hk : k < 4), wordAt (paramsBytes p) 0 8 k
      = [p.capacity.toNat, p.nelements.toNat, p.hash1.toNat, p.hash2.toNat][k] := by
    intro k hk
    have hslice := slice_leWords 8 [p.capacity.toNat, p.nelements.toNat, p.hash1.toNat,
        p.hash2.toNat]
      k hk
    rw [wordAt, Nat.zero_add, paramsBytes, hslice, leNat_leBytes]
    refine Nat.mod_eq_of_lt ?_
    interval_cases k <;> exact UInt64.toNat_lt _
  simp only [paramsOfBytes, hword 0 (by norm_num), hword 1 (by norm_num),
    hword 2 (by norm_num), hword 3 (by norm_num)]
  simp

section Saved

variable {s : ChmImp} {L : List Entry}

theorem gval_withG_params {G G' : List UInt8} (hg : s.be .g = some G)
    (hw : writeAt G 0 (paramsBytes s.params) = some G') (a : Nat) :
    (s.withG G').gval a = s.gval a := by
  have hstore : s.store .g = G := by rw [ChmImp.store, hg, Option.getD_some]
  rw [ChmImp.gval, ChmImp.gval, withG_store_g, withG_btValue, hstore, wordAt, wordAt,
    slice_writeAt_disjoint hw]
  right
  rw [length_paramsBytes]
  omega

theorem Healthy.withG_params (h : Healthy s L) {G' : List UInt8}
    (hw : writeAt (s.store .g) 0 (paramsBytes s.params) = some G') :
    Healthy (s.withG G') L := by
  refine ⟨h.rep.withG G', h.gstore.withG (length_writeAt hw), h.writeable, h.pos,
    h.bits, h.room, h.forest, fun p hp => ?_⟩
  exact (holds_congr (funext (gval_withG_params h.gstore.g hw)) rfl p).mpr (h.sums p hp)

/-- What unloading leaves in the stores. -/
theorem mphfDestroy_eq {u : MphfUserdata} (h : GStore u.mphf) :
    ∃ G', writeAt (u.mphf.store .g) 0 (paramsBytes u.mphf.params) = some G' ∧
      mphfDestroy u = (u.mphf.withG G').be := by
  obtain ⟨G', hG'⟩ : ∃ G', writeAt (u.mphf.store .g) 0 (paramsBytes u.mphf.params)
    = some G' :=
    exists_writeAt (by rw [length_paramsBytes, h.glen]; omega)
  refine ⟨G', hG', ?_⟩
  have hrun : chmImpUnload u.mphf = .ok () (u.mphf.withG G') := by
    rw [chmImpUnload, run_bind_ok (run_get _), run_bind_ok (run_fastWrite h.g hG')]
    rfl
  rw [mphfDestroy, hrun]

theorem run_chmImpParamRead {G G' : List UInt8} {p : ChmImpParams}
    (hw : writeAt G 0 (paramsBytes p) = some G') (hg : s.be .g = some G')
    (hlen : sizeofParams ≤ G'.length) :
    chmImpParamRead s = .ok true { s with params := p } := by
  have hslice : (G'.drop 0).take sizeofParams = paramsBytes p := by
    have h := slice_writeAt_within (k := 0) (n := sizeofParams) hw
        (by rw [length_paramsBytes]; omega)
    rw [Nat.add_zero] at h
    rw [h, List.drop_zero, ← length_paramsBytes p, List.take_length]
  have hread := @run_fastRead _ _ _ 0 sizeofParams hg (by omega)
  rw [hslice] at hread
  rw [chmImpParamRead, run_bind_ok hread]
  simp only [run_bind, run_modify, run_pure, paramsOfBytes_paramsBytes]

end Saved

/-! ## Loading a healthy index -/

/-- **Reloading**: a healthy index whose capacity still is enough comes back with the
same hashes, sizes and entries, whatever its flag was. -/
theorem reload_healthy {u : MphfUserdata} {L : List Entry} (cfg : ChmConfig)
    (hu : Usable u.mphf) (hs : Sized u.mphf) (hlt : u.mphf.nvertex < 2 ^ 56)
    (h : Healthy u.mphf L) (hbi : u.mphf.biValue = cfg.bits)
    (hro : cfg.readonly.getD 0 = 0)
    (hcap : cfg.nelementsMin.getD CAPACITY_MIN_DEFAULT ≤ u.mphf.params.capacity)
    (r1 r2 : UInt64) :
    ∃ u', mphfConfigure cfg (mphfDestroy u) r1 r2 = .ok u' ∧ Inv u' L ∧
      u'.broken = false ∧ u'.mphf.biValue = cfg.bits ∧
      ∀ key, u'.mphf.vertex0 key = u.mphf.vertex0 key ∧
      u'.mphf.vertex1 key = u.mphf.vertex1 key := by
  obtain ⟨G', hw, hdestroy⟩ := mphfDestroy_eq h.gstore
  have hglen : sizeofParams ≤ G'.length := by
    rw [length_writeAt hw, h.gstore.glen]
    omega
  have hbe : ∀ b, ((u.mphf.withG G').be b).isSome = true := by
    intro b
    cases b with
    | g => simp
    | v => simpa using hu.stores .v
    | e => simpa using hu.stores .e
  obtain ⟨data, hdata, hdbe, hdw, hdbi, hdbt, hdmin, -⟩ :=
    chmImpConfigure_spec cfg _ hbe hro
  -- the parameters are read back, and the sizes follow from the capacity
  have hparam : chmImpParamRead data = .ok true { data with params := u.mphf.params } :=
    run_chmImpParamRead hw (by rw [hdbe, withG_be_g]) hglen
  obtain ⟨n, hn, hnv⟩ := hs.nvertex
  have hone : atLeastOne u.mphf.params.capacity = u.mphf.params.capacity :=
    if_neg hs.capacity
  obtain ⟨s', hnv', hbe', hw', hbi', hbt', hmin', hparams', hres⟩ := run_chmImpConfigureR
    (s := { data with params := u.mphf.params }) (hone.symm ▸ hn)
  have hok : chmImpConfigureR u.mphf.params.capacity
      { data with params := u.mphf.params } = .ok () s' ∧ Sized s' := by
    rcases hres with ⟨-, hbig⟩ | hok
    · exact absurd (hnv ▸ hlt) (not_lt.mpr hbig)
    · exact hok
  obtain ⟨hrun, hsized⟩ := hok
  have hp : s'.params = u.mphf.params := by rw [hparams', hone]
  have hload : chmImpLoad r1 r2 data = .ok () s' := by
    rw [chmImpLoad, run_bind_ok hparam]
    simp only [Bool.not_true, Bool.false_eq_true, if_false]
    rw [run_bind_ok (run_get _), run_bind_ok hrun, run_bind_ok (run_get _), if_neg]
    · rfl
    · rw [hp, hmin', UInt64.not_lt]
      exact hdmin ▸ hcap
  have hnvertex : s'.nvertex = u.mphf.nvertex := hnv'.trans hnv.symm
  have hbtvertex : s'.btVertex = u.mphf.btVertex := hsized.btVertex_eq hs hnvertex
  have hhealthy : Healthy s' L := by
    refine (h.withG_params hw).congr ?_ ?_ hnvertex hbtvertex ?_ ?_
    · rw [hw']
      exact hdw.trans h.writeable.symm
    · rw [hbe']
      exact hdbe
    · rw [hbi']
      exact hdbi.trans hbi.symm
    · rw [hbt']
      show data.btValue = u.mphf.btValue
      rw [hdbt, hu.bytes, hbi]
  have hbiS : s'.biValue = cfg.bits := hbi'.trans hdbi
  refine ⟨⟨s', false⟩, ?_,
    ⟨⟨hhealthy.writeable, ?_, ?_, ?_⟩, hsized, fun _ => hhealthy⟩, rfl, hbiS, ?_⟩
  · rw [mphfConfigure, hdestroy, hdata]
    simp only [hload]
  · intro b
    show (s'.be b).isSome = true
    rw [hbe']
    exact hdbe ▸ hbe b
  · show 1 ≤ s'.biValue ∧ s'.biValue ≤ 64
    rw [hbiS, ← hbi]
    exact hu.bits
  · show s'.btValue = bitsToBytes s'.biValue
    rw [hbt', hbiS]
    exact hdbt
  · intro key
    show s'.vertex0 key = _ ∧ s'.vertex1 key = _
    unfold ChmImp.vertex0 ChmImp.vertex1
    rw [hp, hnvertex]
    exact ⟨rfl, rfl⟩

/-! ## Runs that leave the g-values half rewritten -/

/-- One more request: a rebuild that works mends everything, and an insert into an
unbroken index tears it if its two vertices differ but are connected already. -/
def Event.tears (e : Event) (u : MphfUserdata) (L : List Entry) (t : Prop) : Prop :=
  match e.request.action with
  | some .rebuild =>
      match mphfChmImpRebuild e.r1 e.r2 u.mphf with
      | .ok _ _ => False
      | .error _ _ => t
  | some .create => t ∨ u.broken = false ∧ ∃ key, e.request.input = some key ∧
      e.request.output ≠ none ∧ u.mphf.vertex0 key ≠ u.mphf.vertex1 key ∧
      (edgeGraph (L.map Prod.fst)).Reachable (u.mphf.vertex0 key) (u.mphf.vertex1 key)
  | _ => t

/-- Some insert since the last rebuild that worked was given up inside `graph_recalc`. -/
def torn : MphfUserdata → List Entry → Prop → List Event → Prop
  | _, _, t, [] => t
  | u, L, t, e :: events => torn (e.handle u).2 (e.record u L) (e.tears u L t) events

section Torn

variable {u : MphfUserdata} {L : List Entry} {t : Prop}

/-- An index that is not torn is healthy, broken or not. -/
structure Whole (u : MphfUserdata) (L : List Entry) (t : Prop) : Prop where
  inv : Inv u L
  healthy : ¬ t → Healthy u.mphf L

theorem whole_rebuild (h : Whole u L t) {e : Event}
    (hr : e.request.action = some .rebuild) (hlt : (e.handle u).2.mphf.nvertex < 2 ^ 56) :
    Whole (e.handle u).2 (e.record u L) (e.tears u L t) := by
  obtain ⟨-, -, hinv⟩ := handle_rebuild h.inv e hr hlt
  refine ⟨hinv, fun ht => ?_⟩
  have hhandle : (e.handle u).2 = match mphfChmImpRebuild e.r1 e.r2 u.mphf with
      | .ok _ data => { mphf := data, broken := false }
      | .error _ data => { u with mphf := data } := by
    show (mphfHandler e.r1 e.r2 e.request u).2 = _
    unfold mphfHandler
    rw [hr]
    cases mphfChmImpRebuild e.r1 e.r2 u.mphf <;> rfl
  unfold Event.tears at ht
  rw [hr] at ht
  rcases run_rebuild h.inv.usable e.r1 e.r2 with hrun | ⟨s', hrun, hbig⟩ | ⟨s', hrun, -⟩
  · rw [hrun] at hhandle ht
    have hrec : e.record u L = L := by
      unfold Event.record
      rw [hr]
      simp only [hrun]
    rw [hhandle, hrec]
    exact (h.healthy ht).congr rfl rfl rfl rfl rfl rfl
  · rw [hrun] at hhandle
    rw [hhandle] at hlt
    exact absurd hlt (not_lt.mpr hbig)
  · rw [hrun] at hhandle
    exact hinv.healthy (by rw [hhandle])

theorem whole_mild (h : Whole u L t) {e : Event} (hr : e.request.action ≠ some .rebuild)
    (hw : e.request.action ≠ some .write) :
    Whole (e.handle u).2 (e.record u L) (e.tears u L t) := by
  refine ⟨(handle_mild h.inv e hr hw).inv, fun ht => ?_⟩
  by_cases hc : ∀ key value, e.request = createRequest key value → u.broken = true
  · obtain ⟨reply, hrun, -, hrec⟩ := handle_quiet h.inv e hr hw hc
    rw [hrun, hrec]
    refine h.healthy fun htold => ht ?_
    unfold Event.tears
    split
    · exact absurd ‹_› hr
    · exact Or.inl htold
    · exact htold
  · push Not at hc
    obtain ⟨key, value, heq, hb⟩ := hc
    have hb := Bool.eq_false_iff.mpr hb
    obtain ⟨request, r1, r2⟩ := e
    obtain rfl : request = createRequest key value := heq
    cases hb' : (Event.handle ⟨createRequest key value, r1, r2⟩ u).2.broken with
    | false => exact (handle_mild h.inv _ hr hw).inv.healthy hb'
    | true =>
        have hhealthy := h.inv.healthy hb
        have hhandle : Event.handle ⟨createRequest key value, r1, r2⟩ u
            = mphfChange (mphfChmImpInsert key value) (createRequest key value) u :=
          handler_unbroken hb (by decide) r1 r2 key value
        obtain ⟨hloop, hcycle, hjoin⟩ := run_insert hhealthy key value
        by_cases hxy : u.mphf.vertex0 key = u.mphf.vertex1 key
        · -- refused before anything was written
          have hrun : Event.handle ⟨createRequest key value, r1, r2⟩ u
              = (⟨some (-EBADF), some value⟩, ⟨u.mphf, true⟩) := by
            rw [hhandle, mphfChange, hloop hxy]
            simp [Stop.code, hb, createRequest]
          rw [record_eq_self (by decide) rfl (by rw [hrun]; simp [EBADF]), hrun]
          exact hhealthy
        · by_cases hreach : (edgeGraph (L.map Prod.fst)).Reachable (u.mphf.vertex0 key)
              (u.mphf.vertex1 key)
          · exact absurd (Or.inr ⟨hb, key, rfl, Option.some_ne_none _, hxy, hreach⟩) ht
          · obtain ⟨s', hok, -⟩ := hjoin hreach
            rw [hhandle, mphfChange, hok] at hb'
            exact absurd (hb.symm.trans hb') (by decide)

/-- The run lemma. -/
theorem run_whole :
    ∀ {u : MphfUserdata} {L : List Entry} {t : Prop} (events : List Event),
    Whole u L t → (∀ e ∈ events, e.request.action ≠ some .write) → Small u events →
    Whole (after u events) (inserted u L events) (torn u L t events)
  | _, _, _, [], h, _, _ => h
  | u, L, t, e :: events, h, hact, hsmall => by
      have hact' : ∀ e' ∈ events, e'.request.action ≠ some .write :=
        fun e' he' => hact e' (List.mem_cons_of_mem _ he')
      by_cases hr : e.request.action = some .rebuild
      · exact run_whole events (whole_rebuild h hr hsmall.tail.head) hact' hsmall.tail
      · exact run_whole events (whole_mild h hr (hact e List.mem_cons_self))
          hact' hsmall.tail

end Torn

/-! ## Keys survive a reload -/

/-- **Persistence.**  After a run of CREATE, READ and REBUILD that did not leave the index
torn, unloaded and loaded again with any `nelements_min` the capacity still meets, every
key whose CREATE answered 0, with no REBUILD since, is answered 0 with its value. -/
theorem reload_correct {cfg : ChmConfig} {r1 r2 : UInt64} {u₀ : MphfUserdata}
    (hcfg : mphfConfigure cfg emptyStores r1 r2 = .ok u₀) (hro : cfg.readonly.getD 0 = 0)
    (hbits : 1 ≤ cfg.bits ∧ cfg.bits ≤ 63) (events : List Event)
    (hact : ∀ e ∈ events, e.request.action ∈ [some .create, some .read, some .rebuild])
    (hsmall : Small u₀ events) (htorn : ¬ torn u₀ [] False events) (nelementsMin : UInt64)
    (hcap : nelementsMin ≤ (after u₀ events).mphf.params.capacity) (r1' r2' : UInt64) :
    ∃ u', mphfConfigure { cfg with nelementsMin := some nelementsMin }
        (mphfDestroy (after u₀ events)) r1' r2' = .ok u' ∧
      ∀ pre c mid key value, events = pre ++ c :: mid →
      c.request = createRequest key value →
        (replyAfter u₀ pre c).ret = some 0 →
        (∀ e ∈ mid, e.request.action ≠ some .rebuild) →
        ∀ q cell, q.request = readRequest key cell →
          replyAfter u' [] q
            = ⟨some 0, some (UInt64.ofNat (value.toNat % 2 ^ cfg.bits))⟩ := by
  have hwrite := ne_write_of_mem hact
  obtain ⟨hinv₀, hb₀, hbi₀⟩ :=
    configure_inv hcfg hro ⟨hbits.1, hbits.2.trans (by norm_num)⟩ hsmall.head
  have hwhole :=
    run_whole (t := False) events ⟨hinv₀, fun _ => hinv₀.healthy hb₀⟩ hwrite hsmall
  obtain ⟨-, hbi⟩ := run_inv events hinv₀ hwrite hsmall
  have hlt : (after u₀ events).mphf.nvertex < 2 ^ 56 := by
    have hlast := hsmall events.length
    rwa [List.take_length] at hlast
  obtain ⟨u', hload, hinv', hb', hbi', hv⟩ := reload_healthy
    { cfg with nelementsMin := some nelementsMin } hwhole.inv.usable hwhole.inv.sized hlt
    (hwhole.healthy htorn) (hbi.trans hbi₀) hro hcap r1' r2'
  refine ⟨u', hload, ?_⟩
  rintro pre c mid key value rfl hc hret hmid q cell hq
  have hmem := entry_stays hinv₀ hwrite hsmall hc hret hmid
  rw [← (hv key).1, ← (hv key).2] at hmem
  have hhealthy := hinv'.healthy hb'
  have hne : u'.mphf.vertex0 key ≠ u'.mphf.vertex1 key :=
    hhealthy.rep.ne _ (List.mem_map_of_mem (f := Prod.fst) hmem)
  obtain ⟨request, q1, q2⟩ := q
  obtain rfl : request = readRequest key cell := hq
  show (Event.handle ⟨readRequest key cell, q1, q2⟩ u').1 = _
  rw [handle_read hinv' hb', if_neg hne,
    (answerFor_eq_iff (hbi'.trans_le hbits.2) key value).mpr (hhealthy.sums _ hmem), hbi']
  rfl

theorem reload_correct_tiny :
    ∃ u', mphfConfigure { tinyConfig with nelementsMin := some 1 }
      (mphfDestroy (after tinyIndex [⟨createRequest 0 5, 0, 0⟩])) 0 0 = .ok u' ∧
    replyAfter u' [] ⟨readRequest 0 0, 0, 0⟩ = ⟨some 0, some 5⟩ := by
  have htorn : ¬ torn tinyIndex [] False [⟨createRequest 0 5, 0, 0⟩] := by
    rintro (h | ⟨-, key, -, -, hne, hreach⟩)
    · exact h
    · rw [List.map_nil, edgeGraph, SimpleGraph.reachable_bot] at hreach
      exact hne hreach
  obtain ⟨u', hload, hkeys⟩ := reload_correct tinyIndex_configured rfl (by decide)
    [⟨createRequest 0 5, 0, 0⟩] (by simp [createRequest])
    (small_of_le (by decide +kernel)) htorn 1 (by decide +kernel) 0 0
  exact ⟨u', hload, hkeys [] ⟨createRequest 0 5, 0, 0⟩ [] 0 5 rfl rfl
    (by decide +kernel) (by simp) ⟨readRequest 0 0, 0, 0⟩ 0 rfl⟩

/-- Six vertices; with the hashes 0 and 2 the keys 0 and 12 are both at the vertices 0 and
2, and the key 8 at 2 and 4. -/
def sixConfig : ChmConfig := ⟨some 3, some 0, some 1, some 8, none⟩

def sixIndex : MphfUserdata :=
  (mphfConfigure sixConfig emptyStores 0 2).toOption.getD default

/-- The answer to a read of `key` after a run, an unload and a load. -/
def readReloaded (u : MphfUserdata) (events : List Event) (cfg : ChmConfig)
    (key : UInt64) : Option MphfReply :=
  (mphfConfigure cfg (mphfDestroy (after u events)) 0 1).toOption.map
    fun u' => replyAfter u' [] ⟨readRequest key 0, 0, 0⟩

/-- Two ways to lose a value.  Loaded with `nelements_min` raised from 1 to 2, the key 0,
stored as 5, is answered 0 with success.  And after the refused insert of the key 12 the
key 8, stored as 6, is answered 4 with success. -/
theorem reload_loses_values :
    (replyAfter tinyIndex [] ⟨createRequest 0 5, 0, 0⟩).ret = some 0 ∧
    readReloaded tinyIndex [⟨createRequest 0 5, 0, 0⟩]
      { tinyConfig with nelementsMin := some 2 } 0 = some ⟨some 0, some 0⟩ ∧
    (replyAfter sixIndex [⟨createRequest 0 5, 0, 0⟩] ⟨createRequest 8 6, 0, 0⟩).ret
      = some 0 ∧
    readReloaded sixIndex [⟨createRequest 0 5, 0, 0⟩, ⟨createRequest 8 6, 0, 0⟩,
      ⟨createRequest 12 7, 0, 0⟩] sixConfig 8 = some ⟨some 0, some 4⟩ := by
  decide +kernel

end Frozen.Mphf
