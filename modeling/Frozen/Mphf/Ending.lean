/-
# `Frozen.Mphf.Ending` — `graph_recalc` comes back

`graph_recalc` marks nothing as visited.  What ends it is the list of the vertices that
it stands on: a vertex that is on it already is answered with `-EBADF`, and so no list
has a vertex twice, and none is longer than there are vertices.  Every edge list it goes
through ends of itself, and the g-values that change underneath decide nothing.

So it comes back from every store whose edge lists end and touch their vertices, with
cycles, parallel edges and loops (`graphRecalc_ends`).  What `GraphRep` describes is one
kind of such stores (`GraphRep.wellFormed`).
-/
import Frozen.Mphf.Recalc

namespace Frozen.Mphf

open Frozen.Lib

/-! ## Edge lists -/

/-- The list of `v` from the edge `id` on: it ends after so many edges, each of which
touches `v` and leads to a vertex of the graph. -/
inductive EdgeList (s : ChmImp) (v : Nat) : Nat → Nat → Prop where
  | nil : EdgeList s v 0 0
  | near {id n : Nat} {edge : GraphEdge} : id ≠ 0 → graphGetEdge id s = .ok edge s →
      edge.vertex0 = v →
      edge.vertex1 < s.nvertex → EdgeList s v edge.next0 n → EdgeList s v id (n + 1)
  | far {id n : Nat} {edge : GraphEdge} : id ≠ 0 → graphGetEdge id s = .ok edge s →
      edge.vertex0 ≠ v →
      edge.vertex1 = v → edge.vertex0 < s.nvertex → EdgeList s v edge.next1 n →
      EdgeList s v id (n + 1)

/-- Every vertex has a g-value and an edge list. -/
structure WellFormed (s : ChmImp) : Prop where
  g : s.be .g = some (s.store .g)
  room : sizeofParams + s.nvertex * s.btValue ≤ (s.store .g).length
  lists : ∀ v < s.nvertex, ∃ id n, graphGetFirst v s = .ok id s ∧ EdgeList s v id n

section

variable {s : ChmImp} {G : List UInt8} {v : Nat}

theorem run_graphGetEdge_withG {id : Nat} {edge : GraphEdge}
    (h : graphGetEdge id s = .ok edge s) :
    graphGetEdge id (s.withG G) = .ok edge (s.withG G) := by
  have hoffset : edgeOffset (s.withG G) id = edgeOffset s id := rfl
  have hsize : sizeofEdge (s.withG G) = sizeofEdge s := rfl
  simp only [graphGetEdge, fastRead, run_bind, run_get, run_pure, withG_be_e, hoffset,
    hsize] at h ⊢
  cases hread : (s.be .e).bind fun st => readAt st (edgeOffset s id) (sizeofEdge s) with
  | none => simp [hread] at h
  | some bs =>
      simp only [hread, run_pure, EStateM.Result.ok.injEq, and_true] at h ⊢
      exact h

theorem run_graphGetFirst_withG {id : Nat} (h : graphGetFirst v s = .ok id s) :
    graphGetFirst v (s.withG G) = .ok id (s.withG G) := by
  simp only [graphGetFirst, fastRead, run_bind, run_get, run_pure, withG_be_v,
    withG_btVertex] at h ⊢
  cases hread : (s.be .v).bind fun st => readAt st (v * s.btVertex) s.btVertex with
  | none => simp [hread, chmError] at h
  | some bs =>
      simp only [hread, run_pure, EStateM.Result.ok.injEq, and_true] at h ⊢
      exact h

/-- An end of a call: 0 or `-EBADF`, with other g-values. -/
def Ended (s : ChmImp) (r : EStateM.Result Stop ChmImp Unit) : Prop :=
  ∃ G, G.length = (s.store .g).length ∧
  (r = .ok () (s.withG G) ∨ r = .error (.ret (-EBADF)) (s.withG G))

theorem WellFormed.getg (h : WellFormed s) (hG : G.length = (s.store .g).length)
    (hv : v < s.nvertex) : ∃ x, graphGetg v (s.withG G) = .ok x (s.withG G) := by
  refine ⟨_, run_graphGetg_word (withG_be_g s G) ?_⟩
  have hle := entry_le s.btValue hv
  have hroom := h.room
  rw [withG_btValue, hG]
  omega

theorem WellFormed.setg (h : WellFormed s) (hG : G.length = (s.store .g).length)
    (hv : v < s.nvertex) (x : UInt64) :
    ∃ G', G'.length = (s.store .g).length ∧
      graphSetg v x (s.withG G) = .ok () (s.withG G') := by
  have hle := entry_le s.btValue hv
  have hroom := h.room
  obtain ⟨G', hG', hrun, -⟩ := run_graphSetg_word (s := s.withG G) (by simp) (a := v)
    (by rw [withG_btValue, withG_store_g, hG]; omega) x
  exact ⟨G', by simpa [hG] using hG', by simpa using hrun⟩

/-- One length bounds all lists. -/
theorem WellFormed.bound (h : WellFormed s) :
    ∃ N, ∀ v < s.nvertex, ∃ id n, n < N ∧ graphGetFirst v s = .ok id s ∧
      EdgeList s v id n := by
  choose id n hlist using h.lists
  refine ⟨(Finset.range s.nvertex).attach.sup
    (fun v => n v.1 (Finset.mem_range.mp v.2)) + 1, fun v hv => ?_⟩
  refine ⟨id v hv, n v hv, Nat.lt_succ_of_le ?_, hlist v hv⟩
  exact Finset.le_sup
    (f := fun v : {v // v ∈ Finset.range s.nvertex} => n v.1 (Finset.mem_range.mp v.2))
    (Finset.mem_attach _ ⟨v, Finset.mem_range.mpr hv⟩)

/-! ## The recursion -/

/-- The call comes to one end, whatever bounds from `N` and `K` on it is given. -/
def Settles (s : ChmImp) (N K : Nat) (call : Nat → Nat → ChmM Unit)
    (G : List UInt8) : Prop :=
  ∃ r, Ended s r ∧ ∀ len ≥ N, ∀ depth ≥ K, call len depth (s.withG G) = r

/-- One call, and what comes behind it if it answers 0. -/
theorem Settles.bind {N K : Nat} {call : Nat → Nat → ChmM Unit}
    {rest : Nat → Nat → ChmM Unit} (hcall : Settles s N K call G)
    (hrest : ∀ G, G.length = (s.store .g).length → Settles s N K rest G) :
    Settles s N K (fun len depth => do call len depth; rest len depth) G := by
  obtain ⟨r, ⟨G₁, hG₁, hr⟩, hrun⟩ := hcall
  rcases hr with rfl | rfl
  · obtain ⟨r', hended, hrun'⟩ := hrest G₁ hG₁
    refine ⟨r', hended, fun len hlen depth hdepth => ?_⟩
    exact (run_bind_ok (hrun len hlen depth hdepth)).trans (hrun' len hlen depth hdepth)
  · exact ⟨_, ⟨G₁, hG₁, .inr rfl⟩,
      fun len hlen depth hdepth => run_bind_error (hrun len hlen depth hdepth)⟩

variable {path : List Nat} {N K : Nat}

/-- What the loop does with one edge. -/
def recalcEdge (recalc : Nat → List Nat → UInt64 → UInt64 → Nat → ChmM Unit)
    (vertex : Nat) (path : List Nat) (gOld gNew : UInt64) (skipEdge edgeId frn : Nat) :
    ChmM Unit := do
  if skipEdge ≠ edgeId then
    let frnGOld ← graphGetg frn
    recalc frn (vertex :: path) frnGOld (gOld + frnGOld - gNew) edgeId

theorem recalcEdge_settles (h : WellFormed s) (gOld gNew : UInt64) (skipEdge id : Nat)
    (hrec : ∀ w < s.nvertex, ∀ gO gN i G, G.length = (s.store .g).length →
      Settles s N K (fun len depth => graphRecalc len depth w (v :: path) gO gN i) G)
    {frn : Nat} (hfrn : frn < s.nvertex) (hG : G.length = (s.store .g).length) :
    Settles s N K (fun len depth => recalcEdge (graphRecalc len depth) v path gOld gNew
      skipEdge id frn) G := by
  by_cases hskip : skipEdge = id
  · refine ⟨.ok () (s.withG G), ⟨G, hG, .inl rfl⟩, fun len _ depth _ => ?_⟩
    show recalcEdge _ v path gOld gNew skipEdge id frn (s.withG G) = _
    rw [recalcEdge, if_neg (not_not.mpr hskip), run_pure]
  · obtain ⟨x, hget⟩ := h.getg hG hfrn
    obtain ⟨r, hended, hrun⟩ := hrec frn hfrn x (gOld + x - gNew) id G hG
    refine ⟨r, hended, fun len hlen depth hdepth => ?_⟩
    show recalcEdge _ v path gOld gNew skipEdge id frn (s.withG G) = _
    rw [recalcEdge, if_pos hskip, run_bind_ok hget]
    exact hrun len hlen depth hdepth

/-- **The loop over a list that ends**, if the calls it makes come back. -/
theorem recalcLoop_settles (h : WellFormed s) (gOld gNew : UInt64) (skipEdge : Nat)
    (hrec : ∀ w < s.nvertex, ∀ gO gN i G, G.length = (s.store .g).length →
      Settles s N K (fun len depth => graphRecalc len depth w (v :: path) gO gN i) G)
    {id n : Nat} (hlist : EdgeList s v id n) :
    ∀ {G : List UInt8}, G.length = (s.store .g).length →
      ∀ fuel : Nat → Nat, (∀ len ≥ N, n < fuel len) → Settles s N K
        (fun len depth => graphRecalcLoop (graphRecalc len depth) v path gOld gNew
          skipEdge (fuel len) id) G := by
  have hround : ∀ {fuel : Nat → Nat} {n : Nat}, (∀ len ≥ N, n + 1 < fuel len) →
      (∀ len ≥ N, n < fuel len - 1) ∧ ∀ len ≥ N, fuel len = fuel len - 1 + 1 :=
    fun hfuel =>
    ⟨fun len hlen => by have := hfuel len hlen; omega,
      fun len hlen => by have := hfuel len hlen; omega⟩
  induction hlist with
  | nil =>
      intro G hG fuel hfuel
      refine ⟨.ok () (s.withG G), ⟨G, hG, .inl rfl⟩, fun len hlen depth _ => ?_⟩
      show graphRecalcLoop _ v path gOld gNew skipEdge (fuel len) 0 (s.withG G) = _
      obtain ⟨m, hm⟩ := Nat.exists_eq_succ_of_ne_zero (Nat.ne_of_gt (hfuel len hlen))
      rw [hm, graphRecalcLoop, if_pos rfl, run_pure]
  | @near id n edge hid hget hnear hfar _ ih =>
      intro G hG fuel hfuel
      obtain ⟨hrest, hsucc⟩ := hround hfuel
      obtain ⟨r, hended, hrun⟩ :=
        (recalcEdge_settles h gOld gNew skipEdge id hrec hfar hG).bind
        fun G hG => ih hG _ hrest
      refine ⟨r, hended, fun len hlen depth hdepth => ?_⟩
      rw [← hrun len hlen depth hdepth]
      show graphRecalcLoop _ v path gOld gNew skipEdge (fuel len) id (s.withG G) = _
      rw [hsucc len hlen, graphRecalcLoop, if_neg hid,
        run_bind_ok (run_graphGetEdge_withG hget)]
      simp only [if_pos hnear, pure_bind, recalcEdge]
      split_ifs <;> simp only [bind_assoc, pure_bind]
  | @far id n edge hid hget hnot hnear hfar _ ih =>
      intro G hG fuel hfuel
      obtain ⟨hrest, hsucc⟩ := hround hfuel
      obtain ⟨r, hended, hrun⟩ :=
        (recalcEdge_settles h gOld gNew skipEdge id hrec hfar hG).bind
        fun G hG => ih hG _ hrest
      refine ⟨r, hended, fun len hlen depth hdepth => ?_⟩
      rw [← hrun len hlen depth hdepth]
      show graphRecalcLoop _ v path gOld gNew skipEdge (fuel len) id (s.withG G) = _
      rw [hsucc len hlen, graphRecalcLoop, if_neg hid,
        run_bind_ok (run_graphGetEdge_withG hget)]
      simp only [if_neg hnot, if_pos hnear, pure_bind, recalcEdge]
      split_ifs <;> simp only [bind_assoc, pure_bind]

/-- No list of vertices without repetition is longer than there are vertices. -/
theorem length_le_of_nodup {path : List Nat} {n : Nat} (hnodup : path.Nodup)
    (hlt : ∀ x ∈ path, x < n) : path.length ≤ n := by
  have hsub : path.toFinset ⊆ Finset.range n :=
    fun x hx => Finset.mem_range.mpr (hlt x (List.mem_toFinset.mp hx))
  have hcard := Finset.card_le_card hsub
  rwa [List.toFinset_card_of_nodup hnodup, Finset.card_range] at hcard

/-- **The recursion**, by the number of vertices that are not on the list. -/
theorem recalc_settles (h : WellFormed s)
    (hN : ∀ v < s.nvertex, ∃ id n, n < N ∧ graphGetFirst v s = .ok id s ∧
      EdgeList s v id n) (m : Nat) :
    ∀ {path : List Nat}, path.Nodup → (∀ x ∈ path, x < s.nvertex) →
      s.nvertex < m + path.length →
      ∀ v < s.nvertex, ∀ gOld gNew skipEdge G, G.length = (s.store .g).length →
        Settles s N m
          (fun len depth => graphRecalc len depth v path gOld gNew skipEdge) G := by
  induction m with
  | zero =>
      intro path hnodup hpath hm
      have hle := length_le_of_nodup hnodup hpath
      omega
  | succ m ih =>
      intro path hnodup hpath hm v hv gOld gNew skipEdge G hG
      have hpred : ∀ depth ≥ m + 1, ∃ d ≥ m, depth = d + 1 := fun depth hdepth =>
        ⟨depth - 1, by omega, by omega⟩
      by_cases hmem : v ∈ path
      · refine ⟨.error (.ret (-EBADF)) (s.withG G), ⟨G, hG, .inr rfl⟩,
          fun len _ depth hdepth => ?_⟩
        obtain ⟨d, -, rfl⟩ := hpred depth hdepth
        show graphRecalc len (d + 1) v path gOld gNew skipEdge (s.withG G) = _
        rw [graphRecalc, if_pos hmem]
        rfl
      · obtain ⟨edgeId, n, hn, hfirst, hlist⟩ := hN v hv
        have hpath' : ∀ x ∈ v :: path, x < s.nvertex := by
          intro x hx
          rcases List.mem_cons.mp hx with rfl | hx
          · exact hv
          · exact hpath x hx
        have hrec := ih (List.nodup_cons.mpr ⟨hmem, hnodup⟩) hpath'
            (by rw [List.length_cons]; omega)
        have hloop := recalcLoop_settles h gOld gNew skipEdge hrec hlist hG
            (fun len => len)
          fun len hlen => lt_of_lt_of_le hn hlen
        have hset : ∀ G, G.length = (s.store .g).length →
            Settles s N m (fun _ _ => graphSetg v gNew) G := by
          intro G hG
          obtain ⟨G', hG', hrun⟩ := h.setg hG hv gNew
          exact ⟨.ok () (s.withG G'), ⟨G', hG', .inl rfl⟩, fun _ _ _ _ => hrun⟩
        obtain ⟨r, hended, hrun⟩ := hloop.bind hset
        refine ⟨r, hended, fun len hlen depth hdepth => ?_⟩
        obtain ⟨d, hd, rfl⟩ := hpred depth hdepth
        rw [← hrun len hlen d hd]
        show graphRecalc len (d + 1) v path gOld gNew skipEdge (s.withG G) = _
        rw [graphRecalc]
        simp only [if_neg hmem]
        rw [run_bind_ok (run_graphGetFirst_withG hfirst)]

end

/-- **`graph_recalc` comes back** from every store whose edge lists end, with 0 or
`-EBADF`: from any vertex, with any list of vertices without repetition above it, as
soon as the depth exceeds the number of vertices that are not on the list. -/
theorem graphRecalc_ends {s : ChmImp} (h : WellFormed s) {vertex : Nat}
    (hv : vertex < s.nvertex) {path : List Nat} (hnodup : path.Nodup)
    (hpath : ∀ x ∈ path, x < s.nvertex) (gOld gNew : UInt64) (skipEdge : Nat) :
    ∃ r s', (r = .ok () s' ∨ r = .error (.ret (-EBADF)) s') ∧ ∃ N, ∀ len ≥ N, ∀ depth,
      s.nvertex - path.length < depth →
      graphRecalc len depth vertex path gOld gNew skipEdge s = r := by
  obtain ⟨N, hN⟩ := h.bound
  have hle := length_le_of_nodup hnodup hpath
  obtain ⟨r, ⟨G, -, hr⟩, hrun⟩ := recalc_settles h hN (s.nvertex - path.length + 1)
    hnodup hpath (by omega) vertex hv gOld gNew skipEdge (s.store .g) rfl
  rw [withG_self s _ h.g] at hrun
  exact ⟨r, s.withG G, hr, N, fun len hlen depth hdepth => hrun len hlen depth hdepth⟩

/-- Two vertices, two edges between them and a loop at the second. -/
def knotted : ChmImp :=
  { (default : ChmImp) with
    nvertex := 2
    btValue := 1
    btVertex := 1
    be := fun
      | .g => some (List.replicate 34 0)
      | .v => some [2, 3]
      | .e => some [0, 1, 0, 0, 0, 1, 1, 1, 1, 1, 2, 0] }

theorem knotted_wellFormed : WellFormed knotted where
  g := rfl
  room := by decide
  lists v hv := by
    have hold : EdgeList knotted 1 1 1 :=
      .far (by decide) rfl (by decide) rfl (by decide) .nil
    have hnew : EdgeList knotted 1 2 2 :=
      .far (by decide) rfl (by decide) rfl (by decide) hold
    have hold' : EdgeList knotted 0 1 1 := .near (by decide) rfl rfl (by decide) .nil
    match v, hv with
    | 0, _ => exact ⟨2, 2, rfl, .near (by decide) rfl rfl (by decide) hold'⟩
    | 1, _ => exact ⟨3, 3, rfl, .near (by decide) rfl rfl (by decide) hnew⟩

theorem graphRecalc_ends_knotted : WellFormed knotted ∧
    ∃ r s', (r = .ok () s' ∨ r = .error (.ret (-EBADF)) s') ∧ ∃ N, ∀ len ≥ N, ∀ depth,
      2 < depth → graphRecalc len depth 0 [] 7 9 0 knotted = r :=
  ⟨knotted_wellFormed,
    graphRecalc_ends knotted_wellFormed (by decide) List.nodup_nil (by decide) 7 9 0⟩

/-! ## Stores of this kind -/

/-- The lists of a represented graph end, whatever edges it has. -/
theorem GraphRep.edgeList {s : ChmImp} {es : List (Nat × Nat)}
    (h : GraphRep s es) (v : Nat) :
    ∀ r, r <:+ es → EdgeList s v (headId v r) (edgesAt v r).length
  | [], _ => .nil
  | (x, y) :: r, hs => by
      have ih := h.edgeList v r ((List.suffix_cons _ _).trans hs)
      obtain ⟨hx, hy, hxy⟩ := h.ends_of_suffix hs
      have hget := run_graphGetEdge h hs
      rw [headId, edgesAt]
      by_cases hvx : v = x
      · rw [if_pos (.inl hvx), if_pos hvx]
        subst hvx
        exact .near (Nat.succ_ne_zero _) hget rfl hy ih
      · by_cases hvy : v = y
        · rw [if_pos (.inr hvy), if_neg hvx, if_pos hvy]
          subst hvy
          exact .far (Nat.succ_ne_zero _) hget hxy rfl hx ih
        · rwa [if_neg (not_or.mpr ⟨hvx, hvy⟩), if_neg hvx, if_neg hvy]

theorem GraphRep.wellFormed {s : ChmImp} {es : List (Nat × Nat)} (h : GraphRep s es)
    (hg : GStore s) : WellFormed s where
  g := hg.g
  room := hg.glen.ge
  lists v hv := ⟨_, _, run_graphGetFirst h hv, h.edgeList v es List.suffix_rfl⟩

end Frozen.Mphf
