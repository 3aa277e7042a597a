/-
# `Frozen.Mphf.Insert` — `graph_add_edge` and `mphf_chm_imp_insert`

First the half of `graph_add_edge` that links the new edge into the lists: it
turns a representation of `es` into one of `(x, y) :: es` (`run_link`).  Then the
half that makes the new edge's sum come out right.  Where a vertex had no edge
before, its g-value is free and is simply set; otherwise the component of `y` is
re-valued, and the walk either finishes (`y`'s component does not contain `x`) or
comes back to its own path (it does).

`Healthy s L` is the invariant of an unbroken index that holds the entries `L`.
`run_insert` says everything an insert can do from there.
-/
import Frozen.Mphf.Recalc
import Frozen.Lib.Forest

namespace Frozen.Mphf

open Frozen.Lib

/-! ## Linking an edge -/

theorem edgeBytes_eq {w : Nat} (h : w ≤ 8) (edge : GraphEdge) :
    edgeBytes w edge = leWords w
      [edge.vertex0, edge.vertex1, edge.next0, edge.next1] := by
  interval_cases w <;> rfl

/-- `s` with other edges. -/
def ChmImp.withVE (s : ChmImp) (V E : List UInt8) : ChmImp :=
  { s with be := Function.update (Function.update s.be .e (some E)) .v (some V) }

section WithVE

variable (s : ChmImp) (V E : List UInt8)

@[simp] theorem withVE_nvertex : (s.withVE V E).nvertex = s.nvertex := rfl
@[simp] theorem withVE_btVertex : (s.withVE V E).btVertex = s.btVertex := rfl
@[simp] theorem withVE_btValue : (s.withVE V E).btValue = s.btValue := rfl
@[simp] theorem withVE_be_g : (s.withVE V E).be .g = s.be .g := by simp [ChmImp.withVE]
@[simp] theorem withVE_be_v : (s.withVE V E).be .v = some V := by simp [ChmImp.withVE]
@[simp] theorem withVE_be_e : (s.withVE V E).be .e = some E := by simp [ChmImp.withVE]
@[simp] theorem withVE_store_g : (s.withVE V E).store .g = s.store .g := by
  simp [ChmImp.store]
@[simp] theorem withVE_store_v : (s.withVE V E).store .v = V := by simp [ChmImp.store]
@[simp] theorem withVE_store_e : (s.withVE V E).store .e = E := by simp [ChmImp.store]
@[simp] theorem withVE_gval (a : Nat) : (s.withVE V E).gval a = s.gval a := by
  simp [ChmImp.gval]

end WithVE

theorem GStore.withVE {s : ChmImp} (h : GStore s) (V E : List UInt8) :
    GStore (s.withVE V E) :=
  ⟨by simpa using h.g, by simpa using h.glen⟩

section Link

variable {s : ChmImp} {es : List (Nat × Nat)} {x y : Nat}

/-- What the two stores have to hold for one more edge. -/
theorem GraphRep.cons (h : GraphRep s es) (hx : x < s.nvertex) (hy : y < s.nvertex)
    (hxy : x ≠ y) (hcount : es.length + 1 ≤ s.nvertex) {V E : List UInt8}
    (hVlen : V.length = s.nvertex * s.btVertex)
    (hV : ∀ a < s.nvertex, wordAt V 0 s.btVertex a = headId a ((x, y) :: es))
    (hElen : E.length = (es.length + 1) * sizeofEdge s)
    (hold : ∀ j < 4 * es.length,
      wordAt E 0 s.btVertex j = wordAt (s.store .e) 0 s.btVertex j)
    (hnew : ∀ k (hk : k < 4), wordAt E 0 s.btVertex (4 * es.length + k)
      = [x, y, headId x es, headId y es].get ⟨k, hk⟩) :
    GraphRep (s.withVE V E) ((x, y) :: es) := by
  refine ⟨h.wide, h.narrow, by simp, by simpa using hVlen, by simpa using hV, by simp,
    by simpa [sizeofEdge] using hElen, ?_, ?_, by simpa using hcount⟩
  · intro r x' y' hs k hk
    rw [withVE_store_e, withVE_btVertex]
    rcases List.suffix_cons_iff.mp hs with heq | hs
    · cases heq
      exact hnew k hk
    · have hr : r.length < es.length := by simpa using hs.length_le
      rw [hold _ (by omega), h.edge r x' y' hs k hk]
  · rintro p hp
    rcases List.mem_cons.mp hp with rfl | hp
    · exact ⟨hx, hy, hxy⟩
    · exact h.ends p hp

/-- Two stores of one word, at the entries of `x` and of `y`. -/
theorem exists_setFirst_twice (h : GraphRep s es) (hx : x < s.nvertex)
    (hy : y < s.nvertex) {n : Nat} (hn : n < 256 ^ s.btVertex) :
    ∃ V₁ V, writeAt (s.store .v) (x * s.btVertex) (leBytes s.btVertex n) = some V₁ ∧
      writeAt V₁ (y * s.btVertex) (leBytes s.btVertex n) = some V ∧
      V.length = s.nvertex * s.btVertex ∧
      ∀ a, wordAt V 0 s.btVertex a
        = if a = x ∨ a = y then n else wordAt (s.store .v) 0 s.btVertex a := by
  have hword : leBytes s.btVertex n = leWords s.btVertex [n] := by simp [leWords]
  have hle : ∀ a < s.nvertex, ∀ st : List UInt8, st.length = s.nvertex * s.btVertex →
      0 + a * s.btVertex + (leWords s.btVertex [n]).length ≤ st.length := by
    intro a ha st hst
    rw [hst, length_leWords, List.length_singleton, Nat.zero_add, Nat.one_mul]
    exact entry_le _ ha
  obtain ⟨V₁, hV₁⟩ := exists_writeAt (hle x hx _ h.vlen)
  have hlen₁ := (length_writeAt hV₁).trans h.vlen
  obtain ⟨V, hV⟩ := exists_writeAt (hle y hy _ hlen₁)
  refine ⟨V₁, V, by simpa [hword] using hV₁, by simpa [hword] using hV,
    (length_writeAt hV).trans hlen₁, ?_⟩
  intro a
  rw [wordAt_writeAt hV, wordAt_writeAt hV₁]
  have hmod : n % 256 ^ s.btVertex = n := Nat.mod_eq_of_lt hn
  simp only [List.length_singleton, List.getElem_singleton, hmod]
  split_ifs <;> first | rfl | omega

/-- The new edge's four words, at the end of the grown store. -/
theorem exists_setEdge (h : GraphRep s es) (hx : x < s.nvertex) (hy : y < s.nvertex) :
    ∃ E, writeAt (s.store .e ++ List.replicate (sizeofEdge s) 0)
      (es.length * sizeofEdge s)
        (edgeBytes s.btVertex ⟨x, y, headId x es, headId y es⟩) = some E ∧
      E.length = (es.length + 1) * sizeofEdge s ∧
      (∀ j < 4 * es.length,
        wordAt E 0 s.btVertex j = wordAt (s.store .e) 0 s.btVertex j) ∧
      ∀ k (hk : k < 4), wordAt E 0 s.btVertex (4 * es.length + k)
        = [x, y, headId x es, headId y es].get ⟨k, hk⟩ := by
  have hlen : (s.store .e ++ List.replicate (sizeofEdge s) 0).length
      = (es.length + 1) * sizeofEdge s := by
    rw [List.length_append, h.elen, List.length_replicate]
    ring
  have hoff : es.length * sizeofEdge s = 0 + 4 * es.length * s.btVertex := by
    unfold sizeofEdge
    ring
  have hbytes :=
    edgeBytes_eq (h.narrow.trans (by norm_num)) ⟨x, y, headId x es, headId y es⟩
  have hle : 0 + 4 * es.length * s.btVertex
      + (leWords s.btVertex [x, y, headId x es, headId y es]).length
        ≤ (s.store .e ++ List.replicate (sizeofEdge s) 0).length := by
    rw [hlen, length_leWords, ← hoff]
    unfold sizeofEdge
    simp only [List.length_cons, List.length_nil]
    ring_nf
    exact le_rfl
  obtain ⟨E, hE⟩ := exists_writeAt hle
  refine ⟨E, by rw [hbytes, hoff]; exact hE, (length_writeAt hE).trans hlen, ?_, ?_⟩
  · intro j hj
    rw [wordAt_writeAt hE, dif_neg (by omega)]
    refine wordAt_append _ ?_
    have hj' := entry_le s.btVertex hj
    rw [h.elen, hoff]
    omega
  · intro k hk
    -- the words fit: vertices are below `nvertex` and ids at most `nvertex`
    have hid : ∀ a, headId a es < 256 ^ s.btVertex := fun a =>
      lt_of_le_of_lt ((headId_le a es).trans h.count) h.wide
    have hfit : ∀ w ∈ [x, y, headId x es, headId y es], w < 256 ^ s.btVertex := by
      simp only [List.forall_mem_cons]
      exact ⟨hx.trans h.wide, hy.trans h.wide, hid x, hid y, by simp⟩
    rw [wordAt_writeAt hE, dif_pos ⟨by omega, by simpa using hk⟩]
    have hidx : 4 * es.length + k - 4 * es.length = k := by omega
    simp only [hidx, List.get_eq_getElem]
    exact Nat.mod_eq_of_lt (hfit _ (List.getElem_mem _))

/-- What `graph_add_edge` does once the edge is linked. -/
def settleEdge (x y : Nat) (value : UInt64) (next0 next1 newEdgeId : Nat) :
    ChmM Unit := do
  if next0 = 0 then
    let g1 ← graphGetg y
    graphSetg x (value - g1)
  else if next1 = 0 then
    let g0 ← graphGetg x
    graphSetg y (value - g0)
  else
    let g0 ← graphGetg x
    let g1 ← graphGetg y
    graphRecalcFrom y g1 (value - g0) newEdgeId
  modify fun s => { s with params.nelements := s.params.nelements + 1 }

/-- The new edge is linked into both lists, whatever happens afterwards. -/
theorem run_link (h : GraphRep s es) (hx : x < s.nvertex) (hy : y < s.nvertex)
    (hxy : x ≠ y) (hcount : es.length + 1 ≤ s.nvertex) (value : UInt64) :
    ∃ V E, GraphRep (s.withVE V E) ((x, y) :: es) ∧
      graphAddEdge x y value s
        = settleEdge x y value (headId x es) (headId y es) (es.length + 1)
          (s.withVE V E) := by
  obtain ⟨E, hE, hElen, hold, hnew⟩ := exists_setEdge h hx hy
  have hid : es.length + 1 < 256 ^ s.btVertex := lt_of_le_of_lt hcount h.wide
  obtain ⟨V₁, V, hV₁, hV, hVlen, hVw⟩ := exists_setFirst_twice h hx hy hid
  refine ⟨V, E, h.cons hx hy hxy hcount hVlen ?_ hElen hold hnew, ?_⟩
  · intro a ha
    rw [hVw a, headId]
    split_ifs
    · rfl
    · exact h.first a ha
  · -- the stores in between: be_e grown, be_e written, then be_v once and twice
    set E₁ := s.store .e ++ List.replicate (sizeofEdge s) 0
    set s₁ : ChmImp := { s with be := Function.update s.be .e (some E₁) } with hs₁
    set s₂ : ChmImp := { s with be := Function.update s.be .e (some E) } with hs₂
    set s₃ : ChmImp := { s with be := Function.update s₂.be .v (some V₁) } with hs₃
    have hnewId : graphNewEdgeId s = .ok (es.length + 1) s₁ := by
      simp only [graphNewEdgeId, fastCreate, setBe, run_bind, run_get, h.e,
        run_modify, run_pure, h.elen, Nat.mul_div_cancel _ (h.sizeofEdge_pos hx)]
      rfl
    have hfirst : ∀ a < s.nvertex, graphGetFirst a s₁ = .ok (headId a es) s₁ := by
      intro a ha
      have hv : s₁.be .v = some (s.store .v) := by simpa [hs₁] using h.v
      rw [run_graphGetFirst_word hv (h.entry_le_v ha)]
      exact congrArg (EStateM.Result.ok · s₁) (h.first a ha)
    have hset : graphSetEdge (es.length + 1) ⟨x, y, headId x es, headId y es⟩ s₁
        = .ok () s₂ := by
      have hoff : edgeOffset s₁ (es.length + 1) = es.length * sizeofEdge s :=
        edgeOffset_eq h.narrow (lt_of_le_of_lt h.count h.nvertex_lt)
      have hbe : s₁.be .e = some E₁ := by simp [hs₁]
      rw [graphSetEdge, run_bind_ok (run_get s₁), hoff,
        run_bind_ok (run_fastWrite hbe hE)]
      simp [hs₁, hs₂]
    have hset₁ : graphSetFirst x (es.length + 1) s₂ = .ok () s₃ := by
      have hbe : s₂.be .v = some (s.store .v) := by simpa [hs₂] using h.v
      rw [graphSetFirst, run_bind_ok (run_get s₂), run_bind_ok (run_fastWrite hbe hV₁)]
      simp [hs₂, hs₃]
    have hset₂ : graphSetFirst y (es.length + 1) s₃ = .ok () (s.withVE V E) := by
      have hbe : s₃.be .v = some V₁ := by simp [hs₃]
      rw [graphSetFirst, run_bind_ok (run_get s₃), run_bind_ok (run_fastWrite hbe hV)]
      simp [hs₂, hs₃, ChmImp.withVE]
    rw [graphAddEdge, run_bind_ok hnewId, run_bind_ok (hfirst x hx),
      run_bind_ok (hfirst y hy),
      run_bind_ok hset, run_bind_ok hset₁, run_bind_ok hset₂]
    rfl

end Link

/-! ## The invariant -/

/-- An entry of the index: the two vertices of a key and the key's value. -/
abbrev Entry := (Nat × Nat) × UInt64

/-- The sum stored for an edge is `value`, as far as `value_bits` go. -/
def ChmImp.Holds (s : ChmImp) (p : Entry) : Prop :=
  gvals (2 ^ s.biValue) s p.1.1 + gvals (2 ^ s.biValue) s p.1.2
    = residue (2 ^ s.biValue) p.2

/-- An unbroken index with the entries `L`, newest first. -/
structure Healthy (s : ChmImp) (L : List Entry) : Prop where
  rep : GraphRep s (L.map Prod.fst)
  gstore : GStore s
  writeable : s.writeable = true
  pos : 0 < s.nvertex
  bits : s.biValue ≤ 64
  room : s.biValue ≤ 8 * s.btValue
  forest : Forest (L.map Prod.fst)
  sums : ∀ p ∈ L, s.Holds p

/-- What a change keeps of an index, whether or not it answers an error. -/
structure SameShape (s s' : ChmImp) : Prop where
  writeable : s'.writeable = s.writeable
  nvertex : s'.nvertex = s.nvertex
  biValue : s'.biValue = s.biValue
  btValue : s'.btValue = s.btValue
  biVertex : s'.biVertex = s.biVertex
  btVertex : s'.btVertex = s.btVertex
  hash1 : s'.params.hash1 = s.params.hash1
  hash2 : s'.params.hash2 = s.params.hash2
  capacity : s'.params.capacity = s.params.capacity
  nelementsMin : s'.nelementsMin = s.nelementsMin
  nelementsStep : s'.nelementsStep = s.nelementsStep
  nelementsMul : s'.nelementsMul = s.nelementsMul
  stores : ∀ b, (s'.be b).isSome = (s.be b).isSome

section Change

variable {s : ChmImp} {es : List (Nat × Nat)} {x y : Nat}

theorem SameShape.refl (s : ChmImp) : SameShape s s :=
  ⟨rfl, rfl, rfl, rfl, rfl, rfl, rfl, rfl, rfl, rfl, rfl, rfl, fun _ => rfl⟩

/-- The vertices of a key depend on the hashes and the number of vertices only. -/
theorem SameShape.vertices {s' : ChmImp} (h : SameShape s s') (key : UInt64) :
    s'.vertex0 key = s.vertex0 key ∧ s'.vertex1 key = s.vertex1 key := by
  unfold ChmImp.vertex0 ChmImp.vertex1
  rw [h.nvertex, h.hash1, h.hash2]
  exact ⟨rfl, rfl⟩

theorem dvd_two_pow {a b : Nat} (h : a ≤ b) : 2 ^ a ∣ 2 ^ b := pow_dvd_pow 2 h

theorem dvd_btValue (h : s.biValue ≤ 8 * s.btValue) :
    2 ^ s.biValue ∣ 256 ^ s.btValue := by
  rw [show (256 : Nat) = 2 ^ 8 by norm_num, ← Nat.pow_mul]
  exact dvd_two_pow h

/-- An edge below the newest one is at both its ends, under another id. -/
theorem edgesAt_of_older {q : Nat × Nat} (hne : ∀ p ∈ q :: es, p.1 ≠ p.2) {p : Nat × Nat}
    (hp : p ∈ es) : ∃ i, i ≠ es.length + 1 ∧ (i, p.2) ∈ edgesAt p.1 (q :: es) ∧
      (i, p.1) ∈ edgesAt p.2 (q :: es) := by
  obtain ⟨l, r, rfl⟩ := List.append_of_mem hp
  have hs : p :: r <:+ q :: (l ++ p :: r) :=
    (List.suffix_append l (p :: r)).trans (List.suffix_cons _ _)
  refine ⟨r.length + 1, ?_, edgesAt_of_suffix (a := p.1) (b := p.2) hne hs⟩
  simp only [List.length_append, List.length_cons]
  omega

/-- No edge has a vertex whose list is empty. -/
theorem ne_of_headId_zero (hne : ∀ p ∈ es, p.1 ≠ p.2) (h : headId x es = 0) :
    ∀ p ∈ es, p.1 ≠ x ∧ p.2 ≠ x := by
  intro p hp
  obtain ⟨l, r, rfl⟩ := List.append_of_mem hp
  have hends :=
    edgesAt_of_suffix (a := p.1) (b := p.2) hne (List.suffix_append l (p :: r))
  rw [headId_eq_zero] at h
  refine ⟨fun heq => ?_, fun heq => ?_⟩
  · rw [heq, h] at hends
    exact absurd hends.1 List.not_mem_nil
  · rw [heq, h] at hends
    exact absurd hends.2 List.not_mem_nil

/-- A vertex without edges is connected to nothing. -/
theorem not_reachable_of_headId_zero (hne : ∀ p ∈ es, p.1 ≠ p.2) (h : headId x es = 0)
    (hxy : x ≠ y) : ¬ (edgeGraph es).Reachable x y := by
  refine not_reachable_of_closed (S := {x}) ?_ rfl hxy.symm
  rintro a rfl b hab
  rcases (edgeGraph_adj.mp hab).1 with hmem | hmem
  · exact absurd rfl (ne_of_headId_zero hne h _ hmem).1
  · exact absurd rfl (ne_of_headId_zero hne h _ hmem).2

variable {m : Nat} (hm : m ∣ 2 ^ 64) (hmv : m ∣ 256 ^ s.btValue)
include hm hmv

theorem run_setg_rest (hg : GStore s) (hx : x < s.nvertex) (hxy : x ≠ y)
    (value : UInt64) :
    ∃ G, G.length = (s.store .g).length ∧
      graphSetg x (value - UInt64.ofNat (s.gval y)) s = .ok () (s.withG G) ∧
      gvals m (s.withG G) x + gvals m (s.withG G) y = residue m value ∧
      ∀ a, a ≠ x → gvals m (s.withG G) a = gvals m s a := by
  obtain ⟨G, hlen, hset, hval⟩ := run_graphSetg hg hx (value - UInt64.ofNat (s.gval y))
  refine ⟨G, hlen, hset, ?_, ?_⟩
  · have h1 : gvals m (s.withG G) x = residue m value - gvals m s y := by
      rw [gvals, hval, if_pos rfl, cast_mod_of_dvd hmv]
      exact (residue_sub hm _ _).trans (by rw [residue_gval hm])
    have h2 : gvals m (s.withG G) y = gvals m s y := by
      rw [gvals, hval, if_neg hxy.symm]; rfl
    rw [h1, h2]
    ring
  · intro a ha
    rw [gvals, hval, if_neg ha]
    rfl

/-- The walk of `graph_add_edge` from `y`, when both ends have edges already: it ends well
exactly if the new edge joins two components. -/
theorem run_settleEdge_recalc (hrep : GraphRep s ((x, y) :: es)) (hg : GStore s)
    (hf : Forest es) (hx : headId x es ≠ 0) (hy : headId y es ≠ 0) (value : UInt64) :
    ∃ G, G.length = (s.store .g).length ∧
      (¬ (edgeGraph es).Reachable x y →
        settleEdge x y value (headId x es) (headId y es) (es.length + 1) s
          = .ok () { s.withG G with params.nelements := s.params.nelements + 1 } ∧
        gvals m (s.withG G) x + gvals m (s.withG G) y = residue m value ∧
        ∀ p ∈ es, gvals m (s.withG G) p.1 + gvals m (s.withG G) p.2
          = gvals m s p.1 + gvals m s p.2) ∧
      ((edgeGraph es).Reachable x y →
        settleEdge x y value (headId x es) (headId y es) (es.length + 1) s
          = .error (.ret (-EBADF)) (s.withG G)) := by
  obtain ⟨hxn, hyn, -⟩ := hrep.ends_of_suffix List.suffix_rfl
  have hne := hrep.ne
  obtain ⟨G, o, g', hlen, hwalk, hrun, hvals, hfuel⟩ :=
    run_graphRecalcFrom hm hmv hrep hg hyn
    (UInt64.ofNat (s.gval y)) (value - UInt64.ofNat (s.gval x)) (es.length + 1)
  rw [residue_sub hm, residue_gval hm, residue_gval hm] at hwalk
  have hsettle : settleEdge x y value (headId x es) (headId y es) (es.length + 1) s
      = EStateM.bind (answer o) (fun _ => modify fun t =>
        { t with params.nelements := t.params.nelements + 1 })
          (s.withG G) := by
    rw [settleEdge, if_neg hx, if_neg hy, run_bind_ok (run_graphGetg hg hxn),
      run_bind_ok (run_graphGetg hg hyn), run_bind, hrun]
    cases o <;> rfl
  refine ⟨G, hlen, ?_, ?_⟩
  · intro hnot
    have hforest : Forest ((x, y) :: es) := ⟨hnot, hf⟩
    obtain rfl := walk_eq_done hforest hne hwalk hfuel
    obtain ⟨hgx, hgy, hsums, -⟩ := walk_done hne List.suffix_rfl hwalk
    refine ⟨hsettle, ?_, ?_⟩
    · rw [hvals, hgx, hgy]
      ring
    · intro p hp
      obtain ⟨i, hi, hat, -⟩ := edgesAt_of_older hne hp
      rw [hvals]
      exact hsums i _ _ hat hi
  · intro hreach
    cases o with
    | fuel => exact absurd rfl hfuel
    | cycle => exact hsettle
    | done =>
        -- a finished walk would have cut `y` off from `x`
        obtain ⟨-, -, -, S, hyS, hxS, hclosed⟩ := walk_done hne List.suffix_rfl hwalk
        refine absurd hreach.symm (not_reachable_of_closed (S := S) ?_ hyS hxS)
        intro a ha b hab
        obtain ⟨hmem, -⟩ := edgeGraph_adj.mp hab
        rcases hmem with hmem | hmem
        · obtain ⟨i, hi, hab', -⟩ := edgesAt_of_older hne hmem
          exact hclosed i a b ha hab' hi
        · obtain ⟨i, hi, -, hab'⟩ := edgesAt_of_older hne hmem
          exact hclosed i a b ha hab' hi

/-- The second half of `graph_add_edge`: the sum of the new edge comes out as
`value` and no older sum changes, exactly if the edge joins two components. -/
theorem run_settleEdge (hrep : GraphRep s ((x, y) :: es)) (hg : GStore s) (hf : Forest es)
    (value : UInt64) :
    ∃ G, G.length = (s.store .g).length ∧
      (¬ (edgeGraph es).Reachable x y →
        settleEdge x y value (headId x es) (headId y es) (es.length + 1) s
          = .ok () { s.withG G with params.nelements := s.params.nelements + 1 } ∧
        gvals m (s.withG G) x + gvals m (s.withG G) y = residue m value ∧
        ∀ p ∈ es, gvals m (s.withG G) p.1 + gvals m (s.withG G) p.2
          = gvals m s p.1 + gvals m s p.2) ∧
      ((edgeGraph es).Reachable x y →
        settleEdge x y value (headId x es) (headId y es) (es.length + 1) s
          = .error (.ret (-EBADF)) (s.withG G)) := by
  obtain ⟨hx, hy, hxy⟩ := hrep.ends_of_suffix List.suffix_rfl
  have hne : ∀ p ∈ es, p.1 ≠ p.2 := fun p hp => hrep.ne p (List.mem_cons_of_mem _ hp)
  by_cases h0 : headId x es = 0
  · have hnot := not_reachable_of_headId_zero hne h0 hxy
    have hnone := ne_of_headId_zero hne h0
    obtain ⟨G, hlen, hrun, hnew, hframe⟩ := run_setg_rest hm hmv hg hx hxy value
    refine ⟨G, hlen, fun _ => ⟨?_, hnew, ?_⟩, fun hr => absurd hr hnot⟩
    · rw [settleEdge, if_pos h0, run_bind_ok (run_graphGetg hg hy), run_bind_ok hrun]
      rfl
    · intro p hp
      rw [hframe _ (hnone p hp).1, hframe _ (hnone p hp).2]
  · by_cases h1 : headId y es = 0
    · have hnot := not_reachable_of_headId_zero hne h1 hxy.symm
      have hnone := ne_of_headId_zero hne h1
      obtain ⟨G, hlen, hrun, hnew, hframe⟩ := run_setg_rest hm hmv hg hy hxy.symm value
      refine ⟨G, hlen, fun _ => ⟨?_, by rw [add_comm]; exact hnew, ?_⟩,
        fun hr => absurd hr.symm hnot⟩
      · rw [settleEdge, if_neg h0, if_pos h1, run_bind_ok (run_graphGetg hg hx),
          run_bind_ok hrun]
        rfl
      · intro p hp
        rw [hframe _ (hnone p hp).1, hframe _ (hnone p hp).2]
    · exact run_settleEdge_recalc hm hmv hrep hg hf h0 h1 value

end Change

/-! ## `mphf_chm_imp_insert` -/

section Insert

variable {s : ChmImp} {L : List Entry}

theorem vertex0_lt (h : 0 < s.nvertex) (key : UInt64) : s.vertex0 key < s.nvertex :=
  Nat.mod_lt _ h

theorem vertex1_lt (h : 0 < s.nvertex) (key : UInt64) : s.vertex1 key < s.nvertex :=
  Nat.mod_lt _ h

/-- A forest leaves room for one more edge id. -/
theorem GraphRep.length_lt {es : List (Nat × Nat)} (h : GraphRep s es)
    (hpos : 0 < s.nvertex) (hf : Forest es) : es.length + 1 ≤ s.nvertex := by
  have hlt := hf.length_lt (U := Finset.range s.nvertex) (fun p hp => ?_)
    (Finset.nonempty_range_iff.mpr hpos.ne')
  · simpa using hlt
  · have hends := h.ends p hp
    exact ⟨Finset.mem_range.mpr hends.1, Finset.mem_range.mpr hends.2.1⟩

theorem holds_congr {s' : ChmImp} (hgv : s'.gval = s.gval) (hbi : s'.biValue = s.biValue)
    (p : Entry) : s'.Holds p ↔ s.Holds p := by
  unfold ChmImp.Holds gvals
  rw [hgv, hbi]

theorem GraphRep.congr {s' : ChmImp} {es : List (Nat × Nat)} (h : GraphRep s es)
    (hbe : s'.be = s.be) (hn : s'.nvertex = s.nvertex)
    (hbv : s'.btVertex = s.btVertex) : GraphRep s' es := by
  have hstore : s'.store = s.store := by
    funext b
    rw [ChmImp.store, ChmImp.store, hbe]
  obtain ⟨wide, narrow, v, vlen, first, e, elen, edge, ends, count⟩ := h
  refine ⟨?_, ?_, ?_, ?_, ?_, ?_, ?_, ?_, ?_, ?_⟩
    <;> simp only [sizeofEdge, hstore, hn, hbe, hbv]
  all_goals assumption

theorem GStore.congr {s' : ChmImp} (h : GStore s) (hbe : s'.be = s.be)
    (hn : s'.nvertex = s.nvertex) (hbt : s'.btValue = s.btValue) : GStore s' := by
  have hstore : s'.store .g = s.store .g := by rw [ChmImp.store, ChmImp.store, hbe]
  exact ⟨by rw [hbe, hstore]; exact h.g, by rw [hstore, hn, hbt]; exact h.glen⟩

theorem Healthy.congr {s' : ChmImp} (h : Healthy s L) (hw : s'.writeable = s.writeable)
    (hbe : s'.be = s.be) (hn : s'.nvertex = s.nvertex) (hbv : s'.btVertex = s.btVertex)
    (hbi : s'.biValue = s.biValue) (hbt : s'.btValue = s.btValue) : Healthy s' L := by
  have hgv : s'.gval = s.gval := by
    funext a
    rw [ChmImp.gval, ChmImp.gval, ChmImp.store, ChmImp.store, hbe, hbt]
  exact ⟨h.rep.congr hbe hn hbv, h.gstore.congr hbe hn hbt, hw.trans h.writeable,
    hn ▸ h.pos, hbi ▸ h.bits,
    by rw [hbi, hbt]; exact h.room, h.forest, fun p hp => (holds_congr hgv hbi p).mpr (h.sums p hp)⟩

theorem run_checkWriteable (h : s.writeable = true) :
    chmImpCheckWriteable s = .ok () s := by
  simp [chmImpCheckWriteable, run_bind, h]

/-- **Everything an insert can do** to a healthy index. -/
theorem run_insert (h : Healthy s L) (key value : UInt64) :
    (s.vertex0 key = s.vertex1 key →
      mphfChmImpInsert key value s = .error (.ret (-EBADF)) s) ∧
    (s.vertex0 key ≠ s.vertex1 key →
      (edgeGraph (L.map Prod.fst)).Reachable (s.vertex0 key) (s.vertex1 key) →
        ∃ s', mphfChmImpInsert key value s = .error (.ret (-EBADF)) s' ∧ SameShape s s') ∧
    (¬ (edgeGraph (L.map Prod.fst)).Reachable (s.vertex0 key) (s.vertex1 key) →
      ∃ s', mphfChmImpInsert key value s = .ok () s' ∧ SameShape s s' ∧
        Healthy s' (((s.vertex0 key, s.vertex1 key), value) :: L)) := by
  set x := s.vertex0 key with hx
  set y := s.vertex1 key with hy
  have hrun : mphfChmImpInsert key value s
      = (if x = y then throw (.ret (-EBADF)) else graphAddEdge x y value : ChmM Unit)
        s := by
    rw [mphfChmImpInsert, run_bind_ok (run_checkWriteable h.writeable),
      run_bind_ok (run_get s), ← hx, ← hy]
    split_ifs <;> rfl
  rw [hrun]
  refine ⟨fun heq => by rw [if_pos heq]; rfl, ?_⟩
  by_cases hxy : x = y
  · refine ⟨fun hne => absurd hxy hne, fun hnot => ?_⟩
    exact absurd (hxy ▸ SimpleGraph.Reachable.refl (G := edgeGraph (L.map Prod.fst)) x)
      hnot
  · obtain ⟨V, E, hrep, hadd⟩ := run_link h.rep (vertex0_lt h.pos key)
      (vertex1_lt h.pos key) hxy (h.rep.length_lt h.pos h.forest) value
    obtain ⟨G, hlen, hnew, hold⟩ := run_settleEdge (s := s.withVE V E)
      (dvd_two_pow h.bits) (dvd_btValue h.room) hrep (h.gstore.withVE V E)
      h.forest value
    have hstores : ∀ b, (((s.withVE V E).withG G).be b).isSome = (s.be b).isSome := by
      intro b
      cases b with
      | g => simp [h.gstore.g]
      | v => simp [h.rep.v]
      | e => simp [h.rep.e]
    rw [if_neg hxy, hadd]
    refine ⟨fun _ hreach => ⟨_, hold hreach, ?_⟩, fun hnot => ?_⟩
    · exact ⟨rfl, rfl, rfl, rfl, rfl, rfl, rfl, rfl, rfl, rfl, rfl, rfl, hstores⟩
    · obtain ⟨hok, hsum, hsums⟩ := hnew hnot
      refine ⟨_, hok, ⟨rfl, rfl, rfl, rfl, rfl, rfl, rfl, rfl, rfl, rfl, rfl, rfl,
        hstores⟩, ?_⟩
      have hG : Healthy ((s.withVE V E).withG G) (((x, y), value) :: L) := by
        refine ⟨hrep.withG G, (h.gstore.withVE V E).withG hlen, h.writeable, h.pos,
          h.bits, h.room, ⟨hnot, h.forest⟩, ?_⟩
        intro p hp
        rcases List.mem_cons.mp hp with rfl | hp
        · exact hsum
        · have hkept := hsums p.1 (List.mem_map_of_mem hp)
          have hbefore := h.sums p hp
          have hsame : gvals (2 ^ s.biValue) (s.withVE V E)
              = gvals (2 ^ s.biValue) s := by
            funext a
            simp [gvals]
          exact (hsame ▸ hkept).trans hbefore
      exact hG.congr rfl rfl rfl rfl rfl rfl

end Insert

end Frozen.Mphf
