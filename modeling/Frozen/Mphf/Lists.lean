/-
# `Frozen.Mphf.Lists` — the edge lists as they are followed

An edge record is a node of two lists at once: the list of its first vertex goes on at
`next[0]`, that of its second at `next[1]`, and who follows a list compares vertices to
know which.  An id is the place of the record plus one, so that 0 can end a list.

`Chain s v id ids` is such a walk.  After any run of CREATE requests since a rebuild,
also one that left the index broken, every list ends and has the edges of its vertex,
each once (`lists_exact`).  What the code does about a list that has another vertex's
edge is never done.
-/
import Frozen.Mphf.Codec
import Frozen.Mphf.Update

namespace Frozen.Mphf

open Frozen.Lib

/-! ## Walks -/

/-- From edge `id` on, the list of `v` has the edges `ids` and ends. -/
inductive Chain (s : ChmImp) (v : Nat) : Nat → List Nat → Prop
  | stop : Chain s v 0 []
  | first {id : Nat} {edge : GraphEdge} {ids : List Nat} : id ≠ 0 →
      graphGetEdge id s = .ok edge s →
      edge.vertex0 = v → Chain s v edge.next0 ids → Chain s v id (id :: ids)
  | second {id : Nat} {edge : GraphEdge} {ids : List Nat} : id ≠ 0 →
      graphGetEdge id s = .ok edge s →
      edge.vertex0 ≠ v → edge.vertex1 = v → Chain s v edge.next1 ids →
      Chain s v id (id :: ids)

/-- A stored edge with an end at `v`. -/
def Incident (s : ChmImp) (v id : Nat) : Prop :=
  Stored s id ∧ ∃ edge, graphGetEdge id s = .ok edge s ∧
  (edge.vertex0 = v ∨ edge.vertex1 = v)

/-- The list of `v` ends and has the edges at `v`, each once. -/
def ListExact (s : ChmImp) (v : Nat) : Prop :=
  ∃ first ids, graphGetFirst v s = .ok first s ∧ Chain s v first ids ∧ ids.Nodup ∧
    ∀ id, id ∈ ids ↔ Incident s v id

section Rep

variable {s : ChmImp} {es : List (Nat × Nat)} {v : Nat}

theorem chain_headId (h : GraphRep s es) : ∀ r, r <:+ es →
    Chain s v (headId v r) ((edgesAt v r).map Prod.fst)
  | [], _ => .stop
  | (x, y) :: r, hs => by
      have hrest := chain_headId h r ((List.suffix_cons _ _).trans hs)
      have hget := run_graphGetEdge h hs
      rw [headId, edgesAt]
      by_cases hx : v = x
      · subst hx
        rw [if_pos (Or.inl rfl), if_pos rfl]
        exact .first (Nat.succ_ne_zero _) hget rfl hrest
      · by_cases hy : v = y
        · subst hy
          rw [if_pos (Or.inr rfl), if_neg hx, if_pos rfl]
          exact .second (Nat.succ_ne_zero _) hget (Ne.symm hx) rfl hrest
        · rw [if_neg (not_or.mpr ⟨hx, hy⟩), if_neg hx, if_neg hy]
          exact hrest

/-- Every stored edge is the newest of some rest of the list of edges. -/
theorem exists_suffix_of_stored {n : Nat} (hn : n < es.length) :
    ∃ x y r, (x, y) :: r <:+ es ∧ r.length = n := by
  have hlt : es.length - (n + 1) < es.length := by omega
  refine ⟨es[es.length - (n + 1)].1, es[es.length - (n + 1)].2,
    es.drop (es.length - (n + 1) + 1), ?_, ?_⟩
  · have hsuf := List.drop_suffix (es.length - (n + 1)) es
    rw [List.drop_eq_getElem_cons hlt] at hsuf
    exact hsuf
  · rw [List.length_drop]
    omega

theorem incident_iff (h : GraphRep s es) (hv : v < s.nvertex) (id : Nat) :
    id ∈ (edgesAt v es).map Prod.fst ↔ Incident s v id := by
  have hcount := edgeCount_eq h hv
  constructor
  · intro hmem
    obtain ⟨⟨i, w⟩, hiw, rfl⟩ := List.mem_map.mp hmem
    obtain ⟨r, x, y, hs, rfl, hends⟩ := (mem_edgesAt h.ne).mp hiw
    have hlen : r.length + 1 ≤ es.length := by simpa using hs.length_le
    refine ⟨⟨Nat.succ_le_succ (Nat.zero_le _), hcount ▸ hlen⟩, _,
      run_graphGetEdge h hs, ?_⟩
    rcases hends with ⟨rfl, -⟩ | ⟨rfl, -⟩
    · exact Or.inl rfl
    · exact Or.inr rfl
  · rintro ⟨⟨h1, h2⟩, edge, hget, hends⟩
    rw [hcount] at h2
    have hn : id - 1 < es.length := by omega
    obtain ⟨x, y, r, hs, hr⟩ := exists_suffix_of_stored hn
    obtain rfl : id = r.length + 1 := by omega
    rw [run_graphGetEdge h hs] at hget
    cases hget
    rcases hends with rfl | rfl
    · exact List.mem_map.mpr ⟨(r.length + 1, y),
        (mem_edgesAt h.ne).mpr ⟨r, _, y, hs, rfl, Or.inl ⟨rfl, rfl⟩⟩, rfl⟩
    · exact List.mem_map.mpr ⟨(r.length + 1, x),
        (mem_edgesAt h.ne).mpr ⟨r, x, _, hs, rfl, Or.inr ⟨rfl, rfl⟩⟩, rfl⟩

theorem GraphRep.listExact (h : GraphRep s es) (hv : v < s.nvertex) : ListExact s v :=
  ⟨headId v es, (edgesAt v es).map Prod.fst, run_graphGetFirst h hv,
    chain_headId h es List.suffix_rfl, edgesAt_nodup es, incident_iff h hv⟩

/-- The two answers "db inconsistency". -/
def inconsistent : List Int := [errorCode EMODULE 440, errorCode EMODULE 504]

theorem notMem_inconsistent {code : Int} (h : -4096 < code) : code ∉ inconsistent := by
  intro hmem
  have hle : code ≤ -4096 := by
    rcases List.mem_cons.mp hmem with rfl | hmem
    · exact errorCode_lt _ _
    · obtain rfl := List.mem_singleton.mp hmem
      exact errorCode_lt _ _
  omega

theorem graphFindEdge_consistent (h : GraphRep s es) (hv : v < s.nvertex) (w : Nat)
    {code : Int} {s' : ChmImp} (hrun : graphFindEdge v w s = .error (.ret code) s') :
    code ∉ inconsistent := by
  rw [graphFindEdge_eq h hv] at hrun
  split_ifs at hrun
  cases hrun
  exact notMem_inconsistent (by decide)

theorem graphRecalcFrom_consistent (h : GraphRep s es) (hg : GStore s)
    (hv : v < s.nvertex) (gOld gNew : UInt64) (skip : Nat) {code : Int} {s' : ChmImp}
    (hrun : graphRecalcFrom v gOld gNew skip s = .error (.ret code) s') :
    code ∉ inconsistent := by
  obtain ⟨G, o, g', -, -, hanswer, -, -⟩ :=
    run_graphRecalcFrom (m := 1) (one_dvd _) (one_dvd _) h hg hv gOld gNew skip
  rw [hanswer] at hrun
  cases o with
  | done => cases hrun
  | fuel => cases hrun
  | cycle =>
      cases hrun
      exact notMem_inconsistent (by decide)

end Rep

/-! ## Runs of CREATE -/

/-- The lists hold the edges `es`; as long as nothing is broken they have no cycle. -/
structure Linked (u : MphfUserdata) (es : List (Nat × Nat)) : Prop where
  rep : GraphRep u.mphf es
  gstore : GStore u.mphf
  pos : 0 < u.mphf.nvertex
  forest : u.broken = false → Forest es

section Create

variable {s : ChmImp} {es : List (Nat × Nat)}

/-- An insert that gets as far as its edge links it, whatever it answers then. -/
theorem insert_linked (hrep : GraphRep s es) (hg : GStore s) (hpos : 0 < s.nvertex)
    (hf : Forest es) (key value : UInt64) :
    ∃ s' es', GraphRep s' es' ∧ GStore s' ∧ s'.nvertex = s.nvertex ∧
      ((mphfChmImpInsert key value s = .ok () s' ∧ Forest es') ∨
        mphfChmImpInsert key value s = .error (.ret (-EBADF)) s' ∨
        (mphfChmImpInsert key value s = .error (.ret (errorCode EMODULE 308)) s' ∧
          Forest es')) := by
  cases hw : s.writeable with
  | false =>
      have hcheck : chmImpCheckWriteable s = .error (.ret (errorCode EMODULE 308)) s := by
        simp [chmImpCheckWriteable, run_bind, hw, chmError]
      refine ⟨s, es, hrep, hg, rfl, Or.inr (Or.inr ⟨?_, hf⟩)⟩
      rw [mphfChmImpInsert, run_bind_error hcheck]
  | true =>
      rw [mphfChmImpInsert, run_bind_ok (run_checkWriteable hw), run_bind_ok (run_get s)]
      simp only
      by_cases hxy : s.vertex0 key = s.vertex1 key
      · rw [if_pos hxy]
        exact ⟨s, es, hrep, hg, rfl, Or.inr (Or.inl rfl)⟩
      · rw [if_neg hxy]
        obtain ⟨V, E, hrep', hadd⟩ := run_link hrep (vertex0_lt hpos key)
          (vertex1_lt hpos key) hxy (hrep.length_lt hpos hf) value
        obtain ⟨G, hlen, hnew, hold⟩ := run_settleEdge (m := 1) (s := s.withVE V E)
          (one_dvd _) (one_dvd _) hrep' (hg.withVE V E) hf value
        have hg' : GStore ((s.withVE V E).withG G) := (hg.withVE V E).withG hlen
        rw [hadd]
        by_cases hreach : (edgeGraph es).Reachable (s.vertex0 key) (s.vertex1 key)
        · exact ⟨_, _, hrep'.withG G, hg', rfl, Or.inr (Or.inl (hold hreach))⟩
        · refine ⟨_, (s.vertex0 key, s.vertex1 key) :: es, ?_, ?_, ?_,
            Or.inl ⟨(hnew hreach).1, hreach, hf⟩⟩
          · exact (hrep'.withG G).congr rfl rfl rfl
          · exact hg'.congr rfl rfl rfl
          · rfl

variable {u : MphfUserdata}

/-- The step lemma: a CREATE keeps the lists and never answers that they are wrong. -/
theorem create_linked (h : Linked u es) {e : Event}
    (hact : e.request.action = some .create) :
    (∃ es', Linked (e.handle u).2 es') ∧ (e.handle u).2.mphf.nvertex = u.mphf.nvertex ∧
      ∀ code ∈ inconsistent, (e.handle u).1.ret ≠ some code := by
  obtain ⟨⟨action, input, output⟩, r1, r2⟩ := e
  obtain rfl : action = some .create := hact
  have hsame : ∀ {code : Int}, -4096 < code →
      Event.handle ⟨⟨some .create, input, output⟩, r1, r2⟩ u = (⟨some code, output⟩, u) →
      (∃ es', Linked (Event.handle ⟨⟨some .create, input, output⟩, r1, r2⟩ u).2 es') ∧
      (Event.handle ⟨⟨some .create, input, output⟩, r1, r2⟩ u).2.mphf.nvertex
        = u.mphf.nvertex ∧
      ∀ code ∈ inconsistent, (Event.handle ⟨⟨some .create, input, output⟩, r1, r2⟩
        u).1.ret ≠ some code := by
    intro code hcode hrun
    rw [hrun]
    exact ⟨⟨es, h⟩, rfl,
      fun c hc heq => notMem_inconsistent hcode (Option.some_inj.mp heq ▸ hc)⟩
  cases hb : u.broken with
  | true => exact hsame (by decide) (handler_broken hb (by decide) r1 r2 input output)
  | false =>
      by_cases hmiss : input = none ∨ output = none
      · exact hsame (by decide) (handler_invalid hb (by decide) r1 r2 hmiss)
      · obtain ⟨hin, hout⟩ := not_or.mp hmiss
        obtain ⟨key, rfl⟩ := Option.ne_none_iff_exists'.mp hin
        obtain ⟨value, rfl⟩ := Option.ne_none_iff_exists'.mp hout
        have hrun : Event.handle ⟨⟨some .create, some key, some value⟩, r1, r2⟩ u
            = mphfChange (mphfChmImpInsert key value)
              ⟨some .create, some key, some value⟩ u :=
          handler_unbroken hb (by decide) r1 r2 key value
        obtain ⟨s', es', hrep, hg, hn, hres⟩ :=
          insert_linked h.rep h.gstore h.pos (h.forest hb) key value
        have hpos : 0 < s'.nvertex := hn ▸ h.pos
        rw [hrun, mphfChange]
        rcases hres with ⟨hok, hf⟩ | herr | ⟨herr, hf⟩
        · rw [hok]
          exact ⟨⟨es', hrep, hg, hpos, fun _ => hf⟩, hn,
            fun c hc heq => notMem_inconsistent (by decide) (Option.some_inj.mp heq ▸ hc)⟩
        · rw [herr]
          exact ⟨⟨es', hrep, hg, hpos, fun hbr => by simp at hbr⟩, hn,
            fun c hc heq => notMem_inconsistent (by decide) (Option.some_inj.mp heq ▸ hc)⟩
        · rw [herr]
          refine ⟨⟨es', hrep, hg, hpos, fun _ => hf⟩, hn, fun c hc heq => ?_⟩
          obtain rfl : errorCode EMODULE 308 = c := Option.some_inj.mp heq
          exact absurd hc (by decide)

/-- The run lemma. -/
theorem run_linked : ∀ {u : MphfUserdata} (events : List Event), (∃ es, Linked u es) →
    (∀ e ∈ events, e.request.action = some .create) → ∃ es, Linked (after u events) es
  | _, [], h, _ => h
  | _, e :: events, ⟨_, h⟩, hact =>
      run_linked events (create_linked h (hact e List.mem_cons_self)).1
        fun e' he' => hact e' (List.mem_cons_of_mem _ he')

end Create

/-- **The lists are exact** after every run of CREATE requests since a rebuild, and
nothing that follows them finds them inconsistent. -/
theorem lists_exact {s s₀ : ChmImp} {r1 r2 : UInt64}
    (hstores : ∀ b, (s.be b).isSome = true)
    (hreb : mphfChmImpRebuild r1 r2 s = .ok () s₀) (hlt : s₀.nvertex < 2 ^ 56)
    (events : List Event) (hact : ∀ e ∈ events, e.request.action = some .create) :
    (∀ v < (after ⟨s₀, false⟩ events).mphf.nvertex,
      ListExact (after ⟨s₀, false⟩ events).mphf v) ∧
    (∀ v < (after ⟨s₀, false⟩ events).mphf.nvertex, ∀ w code s',
      graphFindEdge v w (after ⟨s₀, false⟩ events).mphf = .error (.ret code) s' →
      code ∉ inconsistent) ∧
    (∀ v < (after ⟨s₀, false⟩ events).mphf.nvertex, ∀ gOld gNew skip code s',
      graphRecalcFrom v gOld gNew skip (after ⟨s₀, false⟩ events).mphf
        = .error (.ret code) s' → code ∉ inconsistent) ∧
    ∀ e, e.request.action = some .create →
      ∀ code ∈ inconsistent, (replyAfter ⟨s₀, false⟩ events e).ret ≠ some code := by
  have hstart : ∃ es, Linked ⟨s₀, false⟩ es := by
    rcases run_rebuild_stores hstores r1 r2 with hrun | ⟨s', hrun, -⟩ | ⟨s', hrun, hr⟩
    · rw [hrun] at hreb
      cases hreb
    · rw [hrun] at hreb
      cases hreb
    · rw [hrun] at hreb
      cases hreb
      obtain ⟨G, hg, hglen⟩ := hr.g
      exact ⟨[], graphRep_blank hr.sized hlt hr.v hr.e, gstore_of_length hg hglen,
        hr.sized.pos, fun _ => trivial⟩
  obtain ⟨es, h⟩ := run_linked events hstart hact
  exact ⟨fun v hv => h.rep.listExact hv,
    fun v hv w _ _ => graphFindEdge_consistent h.rep hv w,
    fun v hv gOld gNew skip _ _ => graphRecalcFrom_consistent h.rep h.gstore hv
    gOld gNew skip, fun e he => (create_linked h he).2.2⟩

/-- Two edges of one pair of vertices: the second CREATE is refused, and its edge
is in the lists. -/
theorem lists_exact_tiny : ∃ s₀,
    mphfChmImpRebuild 0 1 { tinyIndex.mphf with params := ⟨1, 0, 0, 0⟩ } = .ok () s₀ ∧
    (after ⟨s₀, false⟩ [⟨createRequest 0 5, 0, 0⟩, ⟨createRequest 2 5, 0, 0⟩]).broken
      = true ∧
    ListExact (after ⟨s₀, false⟩
      [⟨createRequest 0 5, 0, 0⟩, ⟨createRequest 2 5, 0, 0⟩]).mphf 0 := by
  have hrun : passes (fun _ s₀ => decide (s₀.nvertex = 2) &&
      decide ((after ⟨s₀, false⟩
        [⟨createRequest 0 5, 0, 0⟩, ⟨createRequest 2 5, 0, 0⟩]).broken = true ∧
        (after ⟨s₀, false⟩
          [⟨createRequest 0 5, 0, 0⟩, ⟨createRequest 2 5, 0, 0⟩]).mphf.nvertex = 2))
      (mphfChmImpRebuild 0 1 { tinyIndex.mphf with params := ⟨1, 0, 0, 0⟩ })
        = true := by decide +kernel
  have hstores : ∀ b, (({ tinyIndex.mphf with params := ⟨1, 0, 0, 0⟩ } : ChmImp).be
      b).isSome = true := by
    intro b
    cases b <;> decide +kernel
  obtain ⟨⟨⟩, s₀, hreb, hpassed⟩ := exists_of_passes hrun
  simp only [Bool.and_eq_true, decide_eq_true_eq] at hpassed
  obtain ⟨hn, hb, hn'⟩ := hpassed
  refine ⟨s₀, hreb, hb, ?_⟩
  exact (lists_exact hstores hreb (by omega)
    [⟨createRequest 0 5, 0, 0⟩, ⟨createRequest 2 5, 0, 0⟩]
    (by simp [createRequest])).1 0 (by omega)

end Frozen.Mphf
