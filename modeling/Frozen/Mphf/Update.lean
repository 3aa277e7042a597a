/-
# `Frozen.Mphf.Update` — `mphf_chm_imp_update`

An update looks for the edge of the key's two vertices, in this order, and if it
finds one re-values the component of the second vertex without that edge.  The
walk keeps every other sum.  The new value of the second vertex is meant to
complete the edge's sum, but the code computes it from the old value of the SECOND
vertex itself, where `graph_add_edge` uses that of the first; so the sum comes out
right exactly if the two values agreed (`run_update_found`).

An edge also does not know its key: an update of a key that was never stored, but
whose vertices are those of one that was, re-values that one's edge.

`updates_correct_iff` says exactly which updates are right, over whole runs of inserts
and updates.
-/
import Frozen.Mphf.Run

namespace Frozen.Mphf

open Frozen.Lib

/-! ## `graph_find_edge` -/

/-- The id of the newest edge from `x` to `y`, in this order. -/
def findId (x y : Nat) : List (Nat × Nat) → Option Nat
  | [] => none
  | p :: r => if p = (x, y) then some (r.length + 1) else findId x y r

theorem findId_eq_some {x y id : Nat} :
    ∀ {es : List (Nat × Nat)}, findId x y es = some id →
    ∃ r, (x, y) :: r <:+ es ∧ id = r.length + 1
  | p :: r, h => by
      rw [findId] at h
      split_ifs at h with hp
      · cases h
        exact ⟨r, hp ▸ List.suffix_rfl, rfl⟩
      · obtain ⟨r', hs, hid⟩ := findId_eq_some h
        exact ⟨r', hs.trans (List.suffix_cons _ _), hid⟩

theorem findId_eq_none {x y : Nat} :
    ∀ {es : List (Nat × Nat)}, findId x y es = none ↔ (x, y) ∉ es
  | [] => by simp [findId]
  | p :: r => by
      rw [findId, List.mem_cons, not_or]
      split_ifs with hp
      · simp [hp]
      · rw [findId_eq_none]
        exact ⟨fun h => ⟨fun heq => hp heq.symm, h⟩, And.right⟩

section Find

variable {s : ChmImp} {es : List (Nat × Nat)} {x y : Nat}

theorem run_graphGetEdge_zero (h : GraphRep s es) (hx : x < s.nvertex) :
    graphGetEdge 0 s = .error (.ret (-ENOENT)) s := by
  have hpos := h.sizeofEdge_pos hx
  have hsize : sizeofEdge s ≤ 28 := by
    have := h.narrow
    unfold sizeofEdge
    omega
  have hoff : edgeOffset s 0 = 2 ^ 64 - sizeofEdge s := by
    rw [edgeOffset]
    omega
  have hlen : (s.store .e).length < 2 ^ 64 := by
    rw [h.elen]
    calc es.length * sizeofEdge s ≤ s.nvertex * 28 := Nat.mul_le_mul h.count hsize
      _ < 2 ^ 64 := by have := h.nvertex_lt; omega
  have hread : fastRead .e (edgeOffset s 0) (sizeofEdge s) s = .ok none s := by
    simp only [fastRead, run_bind, run_get, run_pure, h.e, Option.bind_some]
    rw [readAt_eq_none (by omega)]
  rw [graphGetEdge, run_bind_ok (run_get s), run_bind_ok hread]
  rfl

/-- The loop, started at the first edge of `x` in the list's rest `r`. -/
theorem run_graphFindEdgeLoop (h : GraphRep s es) :
    ∀ (r : List (Nat × Nat)), r <:+ es → headId x r ≠ 0 → ∀ n, r.length ≤ n →
      graphFindEdgeLoop x y n (headId x r) s = .ok (findId x y r) s
  | [], _, h0, _, _ => absurd rfl h0
  | (a, b) :: r, hs, h0, 0, hn => absurd hn (Nat.not_succ_le_zero _)
  | (a, b) :: r, hs, h0, n + 1, hn => by
      have hs' : r <:+ es := (List.suffix_cons _ _).trans hs
      have hn' : r.length ≤ n := Nat.le_of_succ_le_succ hn
      -- what is left to do once the edge is not the one looked for
      have hrest : (if headId x r ≠ 0 then graphFindEdgeLoop x y n (headId x r)
          else pure none) s = .ok (findId x y r) s := by
        split_ifs with hnext
        · exact run_graphFindEdgeLoop h r hs' hnext n hn'
        · have hnone : findId x y r = none := by
            rw [findId_eq_none]
            intro hmem
            exact (ne_of_headId_zero (fun p hp => h.ne p (hs'.subset hp))
              (not_not.mp hnext) _ hmem).1 rfl
          rw [hnone]
          rfl
      by_cases htouch : x = a ∨ x = b
      · rw [show headId x ((a, b) :: r) = r.length + 1 by simp [headId, htouch],
          graphFindEdgeLoop, run_bind_ok (run_graphGetEdge h hs), findId]
        by_cases hfound : (a, b) = (x, y)
        · cases hfound
          simp
        · have hnot : ¬ (x = a ∧ y = b) := fun hab => hfound (by rw [hab.1, hab.2])
          simp only [if_neg hnot, if_neg hfound]
          by_cases hxa : a = x
          · subst hxa
            rw [if_pos rfl, run_bind_ok (run_pure _ _)]
            exact hrest
          · have hxb : b = x := (htouch.resolve_left (Ne.symm hxa)).symm
            subst hxb
            rw [if_neg hxa, if_pos rfl, run_bind_ok (run_pure _ _)]
            exact hrest
      · rw [show headId x ((a, b) :: r) = headId x r by simp [headId, htouch]] at h0 ⊢
        rw [findId, if_neg (fun heq => htouch (Or.inl (congrArg Prod.fst heq).symm))]
        exact run_graphFindEdgeLoop h r hs' h0 (n + 1) (hn'.trans (Nat.le_succ n))

/-- `graph_find_edge` fails at a vertex without edges, where it looks for the edge 0. -/
theorem graphFindEdge_eq (h : GraphRep s es) (hx : x < s.nvertex) :
    graphFindEdge x y s
      = if headId x es = 0 then .error (.ret (-ENOENT)) s else .ok (findId x y es) s := by
  rw [graphFindEdge, run_bind_ok (run_graphGetFirst h hx), run_bind_ok (run_get s),
    edgeCount_eq h hx]
  split_ifs with h0
  · rw [h0, graphFindEdgeLoop, run_bind_error (run_graphGetEdge_zero h hx)]
  · exact run_graphFindEdgeLoop h es List.suffix_rfl h0 _ (Nat.le_succ _)

/-- `graph_find_edge` as the update calls it: a failure is "not found". -/
theorem run_graphFindEdge (h : GraphRep s es) (hx : x < s.nvertex) :
    onError (graphFindEdge x y) (pure none) s = .ok (findId x y es) s := by
  rw [onError, graphFindEdge_eq h hx]
  by_cases h0 : headId x es = 0
  · have hnone : findId x y es = none := by
      rw [findId_eq_none]
      exact fun hmem => (ne_of_headId_zero h.ne h0 _ hmem).1 rfl
    rw [if_pos h0, hnone]
    rfl
  · rw [if_neg h0]

end Find

/-! ## The update -/

/-- `L` with another value for the edge `e`. -/
def setEntry (e : Nat × Nat) (value : UInt64) (L : List Entry) : List Entry :=
  L.map fun p => if p.1 = e then (e, value) else p

theorem setEntry_fst (e : Nat × Nat) (value : UInt64) (L : List Entry) :
    (setEntry e value L).map Prod.fst = L.map Prod.fst := by
  rw [setEntry, List.map_map]
  refine List.map_congr_left fun p _ => ?_
  show (if p.1 = e then (e, value) else p).1 = p.1
  split_ifs with h
  · exact h.symm
  · rfl

theorem mem_setEntry {e : Nat × Nat} {value : UInt64} {L : List Entry} {p : Entry} :
    p ∈ setEntry e value L ↔ (p ∈ L ∧ p.1 ≠ e) ∨
      (p = (e, value) ∧ e ∈ L.map Prod.fst) := by
  simp only [setEntry, List.mem_map]
  constructor
  · rintro ⟨q, hq, rfl⟩
    split_ifs with h
    · exact Or.inr ⟨rfl, q, hq, h⟩
    · exact Or.inl ⟨hq, h⟩
  · rintro (⟨hp, hne⟩ | ⟨rfl, q, hq, hqe⟩)
    · exact ⟨p, hp, if_neg hne⟩
    · exact ⟨q, hq, if_pos hqe⟩

section Update

variable {s : ChmImp} {L : List Entry}

/-- An update whose edge is not found is an insert. -/
theorem run_update_missing (h : Healthy s L) {key : UInt64}
    (hmiss : (s.vertex0 key, s.vertex1 key) ∉ L.map Prod.fst) (value : UInt64) :
    mphfChmImpUpdate key value s = mphfChmImpInsert key value s := by
  rw [mphfChmImpUpdate, run_bind_ok (run_checkWriteable h.writeable),
    run_bind_ok (run_get s)]
  simp only
  split_ifs with hxy
  · rfl
  · rw [run_bind_ok (run_graphFindEdge h.rep (vertex0_lt h.pos key)),
      findId_eq_none.mpr hmiss]

/-- Another edge is at its first end under another id. -/
theorem edgesAt_of_other {es r : List (Nat × Nat)} {e p : Nat × Nat}
    (hne : ∀ p ∈ es, p.1 ≠ p.2) (hs : e :: r <:+ es) (hp : p ∈ es) (hpe : p ≠ e) :
    ∃ i, i ≠ r.length + 1 ∧ (i, p.2) ∈ edgesAt p.1 es := by
  obtain ⟨l, r', hsplit⟩ := List.append_of_mem hp
  have hs' : p :: r' <:+ es := hsplit ▸ List.suffix_append l (p :: r')
  refine ⟨r'.length + 1, fun heq => ?_,
    (edgesAt_of_suffix (a := p.1) (b := p.2) hne hs').1⟩
  have hsame :=
      (List.suffix_of_suffix_length_le hs' hs (by simpa using heq.le)).eq_of_length
    (by simpa using heq)
  exact hpe (List.cons.inj hsame).1

/-- **An update whose edge is found** answers 0 and keeps every other sum; the sum of
the edge itself becomes the value plus the difference of the two old g-values. -/
theorem run_update_found (h : Healthy s L) {key : UInt64}
    (hfound : (s.vertex0 key, s.vertex1 key) ∈ L.map Prod.fst) (value : UInt64) :
    ∃ s', mphfChmImpUpdate key value s = .ok () s' ∧ SameShape s s' ∧
      (gvals (2 ^ s.biValue) s' (s.vertex0 key) + gvals (2 ^ s.biValue) s' (s.vertex1 key)
        = residue (2 ^ s.biValue) value + gvals (2 ^ s.biValue) s (s.vertex0 key)
          - gvals (2 ^ s.biValue) s (s.vertex1 key)) ∧
      ∀ v, s'.Holds ((s.vertex0 key, s.vertex1 key), v) →
        Healthy s' (setEntry (s.vertex0 key, s.vertex1 key) v L) := by
  set x := s.vertex0 key with hx
  set y := s.vertex1 key with hy
  set m := 2 ^ s.biValue with hmdef
  have hm : m ∣ 2 ^ 64 := dvd_two_pow h.bits
  have hmv : m ∣ 256 ^ s.btValue := dvd_btValue h.room
  have hyn : y < s.nvertex := vertex1_lt h.pos key
  obtain ⟨id, hid⟩ : ∃ id, findId x y (L.map Prod.fst) = some id := by
    cases hf : findId x y (L.map Prod.fst) with
    | none => exact absurd hfound (findId_eq_none.mp hf)
    | some id => exact ⟨id, rfl⟩
  obtain ⟨r, hs, rfl⟩ := findId_eq_some hid
  have hxy : x ≠ y := h.rep.ne _ hfound
  -- the walk, then the second store of the same value
  obtain ⟨G₁, o, g', hlen₁, hwalk, hrun₁, hvals₁, hfuel⟩ :=
    run_graphRecalcFrom hm hmv h.rep h.gstore
    hyn (UInt64.ofNat (s.gval y)) (value - UInt64.ofNat (s.gval y)) (r.length + 1)
  rw [residue_sub hm, residue_gval hm] at hwalk
  obtain rfl := walk_eq_done h.forest h.rep.ne hwalk hfuel
  obtain ⟨hgx, hgy, hsums, -⟩ := walk_done h.rep.ne hs hwalk
  obtain ⟨G, hlen, hset, hval⟩ := run_graphSetg (h.gstore.withG hlen₁) (a := y) hyn
    (value - UInt64.ofNat (s.gval y))
  rw [withG_withG] at hset hval
  rw [withG_store_g] at hlen
  have hvals : gvals m (s.withG G) = g' := by
    funext a
    rw [gvals, hval]
    by_cases ha : a = y
    · rw [if_pos ha, withG_btValue, cast_mod_of_dvd hmv, ha, hgy, ← residue_gval hm,
        ← residue_sub hm]
      rfl
    · rw [if_neg ha]
      exact congrFun hvals₁ a
  have hrun : mphfChmImpUpdate key value s = .ok () (s.withG G) := by
    have hget : onError (some <$> graphGetg y) (pure none) s
        = .ok (some (UInt64.ofNat (s.gval y))) s := by
      have hmap : (some <$> graphGetg y) s = .ok (some (UInt64.ofNat (s.gval y))) s := by
        rw [map_eq_pure_bind, run_bind_ok (run_graphGetg h.gstore hyn)]
        rfl
      rw [onError, hmap]
    rw [mphfChmImpUpdate, run_bind_ok (run_checkWriteable h.writeable),
      run_bind_ok (run_get s)]
    simp only [← hx, ← hy, if_neg hxy]
    rw [run_bind_ok (run_graphFindEdge h.rep (vertex0_lt h.pos key)), hid]
    simp only
    rw [run_bind_ok hget]
    simp only
    rw [run_bind_ok hrun₁, hset]
  refine ⟨s.withG G, hrun, ?_, ?_, ?_⟩
  · refine ⟨rfl, rfl, rfl, rfl, rfl, rfl, rfl, rfl, rfl, rfl, rfl, rfl, fun b => ?_⟩
    cases b <;> simp [h.gstore.g]
  · rw [hvals, hgx, hgy]
    ring
  · intro v hv
    refine ⟨?_, h.gstore.withG (hlen.trans hlen₁), h.writeable, h.pos, h.bits,
      h.room, ?_, ?_⟩
    · rw [setEntry_fst]
      exact h.rep.withG G
    · rw [setEntry_fst]
      exact h.forest
    · intro p hp
      rcases mem_setEntry.mp hp with ⟨hp, hne⟩ | ⟨rfl, -⟩
      · obtain ⟨i, hi, hat⟩ := edgesAt_of_other h.rep.ne hs (List.mem_map_of_mem hp) hne
        have hkept := hsums i _ _ hat hi
        rw [← hvals] at hkept
        exact hkept.trans (h.sums p hp)
      · exact hv

end Update

/-! ## Runs of inserts and updates -/

/-- What each stored key was last created or written with. -/
abbrev Table := UInt64 → Option UInt64

/-- The table after one more request: an insert or update that answers 0 is noted. -/
def Event.note (e : Event) (u : MphfUserdata) (T : Table) : Table :=
  match e.request.input, e.request.output with
  | some key, some value =>
      if e.request.action ∈ [some .create, some .write] ∧ (e.handle u).1.ret = some 0 then
        Function.update T key (some value)
      else T
  | _, _ => T

def stored : MphfUserdata → Table → List Event → Table
  | _, T, [] => T
  | u, T, e :: events => stored (e.handle u).2 (e.note u T) events

/-- The updates that come out right: the two g-values of a stored key agree, and a key
that is not stored does not have the vertices of one that is. -/
def UpdateOk (s : ChmImp) (T : Table) (key : UInt64) : Prop :=
  (T key ≠ none → s.gval (s.vertex0 key) % 2 ^ s.biValue = s.gval (s.vertex1 key) % 2 ^
    s.biValue) ∧
  (T key = none → ∀ k, T k ≠ none →
    (s.vertex0 k, s.vertex1 k) ≠ (s.vertex0 key, s.vertex1 key))

/-- Every update of the run is one of these. -/
def UpdatesOk : MphfUserdata → Table → List Event → Prop
  | _, _, [] => True
  | u, T, e :: events =>
      (e.request.action = some .write → ∀ key, e.request.input = some key →
        UpdateOk u.mphf T key) ∧
      UpdatesOk (e.handle u).2 (e.note u T) events

/-- The entries `L` of a healthy index are the table's, one edge per stored key. -/
structure Indexed (s : ChmImp) (L : List Entry) (T : Table) : Prop where
  healthy : Healthy s L
  entry : ∀ k v, T k = some v → ((s.vertex0 k, s.vertex1 k), v) ∈ L
  owner : ∀ p ∈ L, ∃ k, T k = some p.2 ∧ (s.vertex0 k, s.vertex1 k) = p.1
  inj : ∀ k k', T k ≠ none → T k' ≠ none →
    (s.vertex0 k, s.vertex1 k) = (s.vertex0 k', s.vertex1 k') → k = k'

section Table

variable {s s' : ChmImp} {L : List Entry} {T : Table}

theorem Indexed.query (h : Indexed s L T) (hbits : s.biValue ≤ 63) {key value : UInt64}
    (hT : T key = some value) :
    mphfChmImpQuery key s
      = .ok (some (UInt64.ofNat (value.toNat % 2 ^ s.biValue))) s := by
  have hmem := h.entry key value hT
  have hne : s.vertex0 key ≠ s.vertex1 key :=
    (h.healthy.rep.ends _ (List.mem_map_of_mem hmem)).2.2
  rw [run_query h.healthy.gstore h.healthy.pos, if_neg hne,
    (answerFor_eq_iff hbits key value).mpr (h.healthy.sums _ hmem)]

theorem Indexed.insert (h : Indexed s L T) (hshape : SameShape s s') {key value : UInt64}
    (hnot : ¬ (edgeGraph (L.map Prod.fst)).Reachable (s.vertex0 key) (s.vertex1 key))
    (hh : Healthy s' (((s.vertex0 key, s.vertex1 key), value) :: L)) :
    Indexed s' (((s.vertex0 key, s.vertex1 key), value) :: L)
      (Function.update T key (some value)) := by
  -- the edge is new, so no stored key has it
  have hnew : ∀ k, T k ≠ none →
      (s.vertex0 k, s.vertex1 k) ≠ (s.vertex0 key, s.vertex1 key) := by
    intro k hk heq
    obtain ⟨v, hv⟩ := Option.ne_none_iff_exists'.mp hk
    have hmem := List.mem_map_of_mem (f := Prod.fst) (h.entry k v hv)
    rw [heq] at hmem
    have hne := h.healthy.rep.ne _ hmem
    exact hnot (edgeGraph_adj.mpr ⟨Or.inl hmem, hne⟩).reachable
  have hvert : ∀ k, (s'.vertex0 k, s'.vertex1 k) = (s.vertex0 k, s.vertex1 k) :=
      fun k => by
    rw [(hshape.vertices k).1, (hshape.vertices k).2]
  have hself : T key = none := not_not.mp fun hk => hnew key hk rfl
  have hdom : ∀ k, Function.update T key (some value) k ≠ none → k ≠ key →
      T k ≠ none := by
    intro k hk hkey
    rwa [Function.update_of_ne hkey] at hk
  refine ⟨hh, ?_, ?_, ?_⟩
  · intro k v hv
    rw [hvert]
    by_cases hkey : k = key
    · subst hkey
      rw [Function.update_self] at hv
      cases hv
      exact List.mem_cons_self
    · rw [Function.update_of_ne hkey] at hv
      exact List.mem_cons_of_mem _ (h.entry k v hv)
  · intro p hp
    rcases List.mem_cons.mp hp with rfl | hp
    · exact ⟨key, Function.update_self .., hvert key⟩
    · obtain ⟨k, hk, hke⟩ := h.owner p hp
      have hkey : k ≠ key := fun heq => by rw [heq, hself] at hk; cases hk
      exact ⟨k, by rw [Function.update_of_ne hkey, hk], (hvert k).trans hke⟩
  · intro k k' hk hk' heq
    rw [hvert, hvert] at heq
    by_cases hkey : k = key
    · by_cases hkey' : k' = key
      · rw [hkey, hkey']
      · exact absurd (heq.symm.trans (by rw [hkey])) (hnew k' (hdom k' hk' hkey'))
    · by_cases hkey' : k' = key
      · exact absurd (heq.trans (by rw [hkey'])) (hnew k (hdom k hk hkey))
      · exact h.inj k k' (hdom k hk hkey) (hdom k' hk' hkey') heq

theorem Indexed.setEntry (h : Indexed s L T) (hshape : SameShape s s')
    {key value : UInt64} (hkey : T key ≠ none)
    (hh : Healthy s' (setEntry (s.vertex0 key, s.vertex1 key) value L)) :
    Indexed s' (Frozen.Mphf.setEntry (s.vertex0 key, s.vertex1 key) value L)
      (Function.update T key (some value)) := by
  have hvert : ∀ k, (s'.vertex0 k, s'.vertex1 k) = (s.vertex0 k, s.vertex1 k) :=
      fun k => by
    rw [(hshape.vertices k).1, (hshape.vertices k).2]
  have hdom : ∀ k, Function.update T key (some value) k ≠ none → T k ≠ none := by
    intro k hk
    by_cases heq : k = key
    · exact heq ▸ hkey
    · rwa [Function.update_of_ne heq] at hk
  obtain ⟨old, hold⟩ := Option.ne_none_iff_exists'.mp hkey
  refine ⟨hh, ?_, ?_, ?_⟩
  · intro k v hv
    rw [hvert, mem_setEntry]
    by_cases heq : k = key
    · subst heq
      rw [Function.update_self] at hv
      cases hv
      exact Or.inr ⟨rfl, List.mem_map_of_mem (f := Prod.fst) (h.entry k old hold)⟩
    · rw [Function.update_of_ne heq] at hv
      refine Or.inl ⟨h.entry k v hv, fun hpair => heq (h.inj k key ?_ hkey hpair)⟩
      rw [hv]
      exact Option.some_ne_none _
  · intro p hp
    rcases mem_setEntry.mp hp with ⟨hp, hne⟩ | ⟨rfl, -⟩
    · obtain ⟨k, hk, hke⟩ := h.owner p hp
      have heq : k ≠ key := fun heq => hne (by rw [← hke, heq])
      exact ⟨k, by rw [Function.update_of_ne heq, hk], (hvert k).trans hke⟩
    · exact ⟨key, Function.update_self .., hvert key⟩
  · intro k k' hk hk' heq
    rw [hvert, hvert] at heq
    exact h.inj k k' (hdom k hk) (hdom k' hk') heq

end Table

section Steps

variable {b : Nat} {u : MphfUserdata} {T : Table}

/-- An unbroken index, for values of `b` bits, holds its table. -/
def Faithful (b : Nat) (u : MphfUserdata) (T : Table) : Prop :=
  u.broken = false → u.mphf.biValue = b ∧ ∃ L, Indexed u.mphf L T

theorem note_eq_self {e : Event} (hret : (e.handle u).1.ret ≠ some 0) :
    e.note u T = T := by
  unfold Event.note
  split
  · exact if_neg fun h => hret h.2
  · rfl

theorem note_answered {e : Event} (key value : UInt64) (hin : e.request.input = some key)
    (hout : e.request.output = some value)
    (hact : e.request.action ∈ [some .create, some .write])
    (hret : (e.handle u).1.ret = some 0) :
    e.note u T = Function.update T key (some value) := by
  unfold Event.note
  rw [hin, hout]
  exact if_pos ⟨hact, hret⟩

/-- The sum comes out as the value exactly if the two old g-values agree. -/
theorem holds_update_iff {s s' : ChmImp} {x y : Nat} {value : UInt64}
    (hbi : s'.biValue = s.biValue)
    (hsum : gvals (2 ^ s.biValue) s' x + gvals (2 ^ s.biValue) s' y
      = residue (2 ^ s.biValue) value + gvals (2 ^ s.biValue) s x - gvals
    (2 ^ s.biValue) s y) :
    s'.Holds ((x, y), value) ↔ s.gval x % 2 ^ s.biValue = s.gval y % 2 ^ s.biValue := by
  rw [← ZMod.natCast_eq_natCast_iff', ChmImp.Holds, hbi, hsum, sub_eq_iff_eq_add]
  exact add_right_inj _

/-- The shared half of an insert and of an update that becomes one. -/
theorem faithful_insert {L : List Entry} (hbi : u.mphf.biValue = b)
    (h : Indexed u.mphf L T) {e : Event} {key value : UInt64}
    (hin : e.request.input = some key) (hout : e.request.output = some value)
    (hact : e.request.action ∈ [some .create, some .write])
    (hrun : e.handle u = mphfChange (mphfChmImpInsert key value) e.request u) :
    Faithful b (e.handle u).2 (e.note u T) := by
  obtain ⟨hloop, hcycle, hjoin⟩ := run_insert h.healthy key value
  have hrefused : ∀ s', mphfChmImpInsert key value u.mphf = .error (.ret (-EBADF)) s' →
      Faithful b (e.handle u).2 (e.note u T) := by
    intro s' herr
    rw [hrun, mphfChange, herr]
    intro hb'
    simp at hb'
  by_cases hxy : u.mphf.vertex0 key = u.mphf.vertex1 key
  · exact hrefused _ (hloop hxy)
  · by_cases hreach : (edgeGraph (L.map Prod.fst)).Reachable (u.mphf.vertex0 key)
      (u.mphf.vertex1 key)
    · obtain ⟨s', herr, -⟩ := hcycle hxy hreach
      exact hrefused s' herr
    · obtain ⟨s', hok, hshape, hh⟩ := hjoin hreach
      have heq : e.handle u = (⟨some 0, e.request.output⟩, { u with mphf := s' }) := by
        rw [hrun, mphfChange, hok]
      rw [note_answered _ _ hin hout hact (by rw [heq]), heq]
      exact fun _ => ⟨hshape.biValue.trans hbi, _, h.insert hshape hreach hh⟩

/-- The step lemma for inserts and for updates that meet the condition. -/
theorem handle_faithful (h : Faithful b u T) (e : Event)
    (hact : e.request.action ∈ [some .create, some .write])
    (hok : e.request.action = some .write → ∀ key, e.request.input = some key →
      UpdateOk u.mphf T key) :
    Faithful b (e.handle u).2 (e.note u T) := by
  obtain ⟨⟨action, input, output⟩, r1, r2⟩ := e
  obtain ⟨a, rfl, ha⟩ : ∃ a, action = some a ∧ a ≠ .rebuild := by
    rcases List.mem_cons.mp hact with rfl | hact'
    · exact ⟨_, rfl, by decide⟩
    · obtain rfl := List.mem_singleton.mp hact'
      exact ⟨_, rfl, by decide⟩
  set e : Event := ⟨⟨some a, input, output⟩, r1, r2⟩ with he
  cases hb : u.broken with
  | true =>
      have hrun : e.handle u = (⟨some (-EBADF), output⟩, u) :=
        handler_broken hb ha r1 r2 input output
      rw [note_eq_self (by rw [hrun]; simp [EBADF]), hrun]
      exact h
  | false =>
      by_cases hmiss : input = none ∨ output = none
      · have hrun : e.handle u = (⟨some (-EINVAL), output⟩, u) :=
          handler_invalid hb ha r1 r2 hmiss
        rw [note_eq_self (by rw [hrun]; simp [EINVAL]), hrun]
        exact h
      · obtain ⟨hin, hout⟩ := not_or.mp hmiss
        obtain ⟨key, rfl⟩ := Option.ne_none_iff_exists'.mp hin
        obtain ⟨value, rfl⟩ := Option.ne_none_iff_exists'.mp hout
        obtain ⟨hbi, L, hL⟩ := h hb
        have hrun : e.handle u = _ := handler_unbroken hb ha r1 r2 key value
        rcases List.mem_cons.mp hact with hc | hw
        · cases hc
          exact faithful_insert hbi hL rfl rfl hact hrun
        · cases List.mem_singleton.mp hw
          obtain ⟨hagree, hfresh⟩ := hok rfl key rfl
          by_cases hkey : T key = none
          · -- not stored, and no stored key has its edge: the update is an insert
            have hmem : (u.mphf.vertex0 key, u.mphf.vertex1 key) ∉ L.map Prod.fst := by
              intro hmem
              obtain ⟨p, hp, hpe⟩ := List.mem_map.mp hmem
              obtain ⟨k, hk, hke⟩ := hL.owner p hp
              exact hfresh hkey k (by rw [hk]; exact Option.some_ne_none _)
                (hke.trans hpe)
            refine faithful_insert hbi hL rfl rfl hact (hrun.trans ?_)
            simp only [mphfChange, run_update_missing hL.healthy hmem, he]
          · obtain ⟨old, hold⟩ := Option.ne_none_iff_exists'.mp hkey
            have hmem := List.mem_map_of_mem (f := Prod.fst) (hL.entry key old hold)
            obtain ⟨s', hupd, hshape, hsum, hheal⟩ :=
              run_update_found hL.healthy hmem value
            have heq : e.handle u = (⟨some 0, some value⟩, { u with mphf := s' }) := by
              refine hrun.trans ?_
              simp only [mphfChange, hupd]
            rw [note_answered key value rfl rfl hact (by rw [heq]), heq]
            have hholds := (holds_update_iff hshape.biValue hsum).mpr (hagree hkey)
            exact fun _ => ⟨hshape.biValue.trans hbi, _,
              hL.setEntry hshape hkey (hheal value hholds)⟩

/-- The run lemma. -/
theorem run_faithful : ∀ {u : MphfUserdata} {T : Table} (events : List Event),
    Faithful b u T →
    (∀ e ∈ events, e.request.action ∈ [some .create, some .write]) →
      UpdatesOk u T events →
    Faithful b (after u events) (stored u T events)
  | _, _, [], h, _, _ => h
  | _, _, e :: events, h, hact, hok =>
      run_faithful events (handle_faithful h e (hact e List.mem_cons_self) hok.1)
        (fun e' he' => hact e' (List.mem_cons_of_mem _ he')) hok.2

end Steps

/-! ## Which updates are right -/

/-- A sum that comes out as anything at all comes out as some value. -/
theorem exists_holds (s : ChmImp) (hbits : s.biValue ≤ 63) (e : Nat × Nat) :
    ∃ v, s.Holds (e, v) := by
  have hm : 2 ^ s.biValue ∣ 2 ^ 64 := dvd_two_pow (hbits.trans (by norm_num))
  refine ⟨UInt64.ofNat (s.gval e.1) + UInt64.ofNat (s.gval e.2), ?_⟩
  rw [ChmImp.Holds, residue_add hm, residue_gval hm, residue_gval hm]

/-- **Updates over whole runs** of CREATE and WRITE from empty stores, every WRITE
before of the kind that comes out right: an update of a stored key answers 0, and
afterwards the key finds the new value and every other stored key its own EXACTLY
if the g-values of its two vertices agreed, modulo `2 ^ value_bits`. -/
theorem updates_correct_iff {cfg : ChmConfig} {r1 r2 : UInt64} {u₀ : MphfUserdata}
    (hcfg : mphfConfigure cfg emptyStores r1 r2 = .ok u₀) (hro : cfg.readonly.getD 0 = 0)
    (hbits : 1 ≤ cfg.bits ∧ cfg.bits ≤ 63) (hlt : u₀.mphf.nvertex < 2 ^ 56)
    (events : List Event)
    (hact : ∀ e ∈ events, e.request.action ∈ [some .create, some .write])
    (hok : UpdatesOk u₀ (fun _ => none) events) (hb : (after u₀ events).broken = false)
    (key value : UInt64) (hkey : stored u₀ (fun _ => none) events key ≠ none) :
    ∃ s', mphfChmImpUpdate key value (after u₀ events).mphf = .ok () s' ∧
      ((mphfChmImpQuery key s'
        = .ok (some (UInt64.ofNat (value.toNat % 2 ^ cfg.bits))) s' ∧
          ∀ k v, k ≠ key → stored u₀ (fun _ => none) events k = some v →
            mphfChmImpQuery k s'
              = .ok (some (UInt64.ofNat (v.toNat % 2 ^ cfg.bits))) s') ↔
        (after u₀ events).mphf.gval ((after u₀ events).mphf.vertex0 key) % 2 ^ cfg.bits
          = (after u₀ events).mphf.gval ((after u₀ events).mphf.vertex1 key) % 2 ^
            cfg.bits) := by
  obtain ⟨hinv₀, hb₀, hbi₀⟩ :=
    configure_inv hcfg hro ⟨hbits.1, hbits.2.trans (by norm_num)⟩ hlt
  have hstart : Faithful cfg.bits u₀ (fun _ => none) := fun _ =>
    ⟨hbi₀, [], hinv₀.healthy hb₀, by simp, by simp, by simp⟩
  obtain ⟨hbi, L, hL⟩ := run_faithful events hstart hact hok hb
  generalize after u₀ events = u at hbi hL ⊢
  generalize stored u₀ (fun _ => none) events = T at hL hkey ⊢
  obtain ⟨old, hold⟩ := Option.ne_none_iff_exists'.mp hkey
  have hmem := hL.entry key old hold
  obtain ⟨s', hupd, hshape, hsum, hheal⟩ :=
    run_update_found hL.healthy (List.mem_map_of_mem (f := Prod.fst) hmem) value
  refine ⟨s', hupd, ?_⟩
  have hbi' : s'.biValue = cfg.bits := hshape.biValue.trans hbi
  rw [← hbi']
  have hbits' : s'.biValue ≤ 63 := hbi'.trans_le hbits.2
  have hv := hshape.vertices key
  -- whatever the edge's sum is now, the other keys have kept theirs
  obtain ⟨v', hv'⟩ := exists_holds s' hbits' (u.mphf.vertex0 key, u.mphf.vertex1 key)
  have hidx := hL.setEntry hshape hkey (hheal v' hv')
  have hne : s'.vertex0 key ≠ s'.vertex1 key := by
    rw [hv.1, hv.2]
    exact hL.healthy.rep.ne _ (List.mem_map_of_mem (f := Prod.fst) hmem)
  have hself : mphfChmImpQuery key s'
      = .ok (some (UInt64.ofNat (value.toNat % 2 ^ s'.biValue))) s' ↔
      s'.Holds ((u.mphf.vertex0 key, u.mphf.vertex1 key), value) := by
    rw [run_query hidx.healthy.gstore hidx.healthy.pos, if_neg hne, ← hv.1, ← hv.2,
      ← answerFor_eq_iff hbits']
    simp
  rw [hshape.biValue, ← holds_update_iff hshape.biValue hsum, ← hself, ← hshape.biValue]
  refine ⟨And.left, fun hq => ⟨hq, fun k v hk hT => ?_⟩⟩
  exact hidx.query hbits' (by rw [Function.update_of_ne hk, hT])

/-- A key stored as 0 has two zero g-values, so its first update comes out right. -/
theorem updates_correct_iff_tiny :
    ∃ s', mphfChmImpUpdate 0 7 (after tinyIndex [⟨createRequest 0 0, 0, 0⟩]).mphf
      = .ok () s' ∧ mphfChmImpQuery 0 s' = .ok (some 7) s' := by
  obtain ⟨s', hupd, hiff⟩ := updates_correct_iff tinyIndex_configured rfl (by decide)
    (by decide +kernel) [⟨createRequest 0 0, 0, 0⟩] (by simp [createRequest])
    ⟨by simp [createRequest], trivial⟩ (by decide +kernel) 0 7 (by decide +kernel)
  exact ⟨s', hupd, (hiff.mpr (by decide +kernel)).1⟩

/-- With the key 0 stored as 5, an update to 7 answers 0 and the key then reads 12. -/
theorem update_reads_sum :
    (after tinyIndex [⟨createRequest 0 5, 0, 0⟩]).broken = false ∧
    stored tinyIndex (fun _ => none) [⟨createRequest 0 5, 0, 0⟩] 0 = some 5 ∧
    ∃ s' s'', mphfChmImpUpdate 0 7 (after tinyIndex [⟨createRequest 0 5, 0, 0⟩]).mphf
      = .ok () s' ∧ mphfChmImpQuery 0 s' = .ok (some 12) s'' ∧
      (12 : UInt64) ≠ UInt64.ofNat ((7 : UInt64).toNat % 2 ^ tinyConfig.bits) := by
  refine ⟨by decide +kernel, by decide +kernel, ?_⟩
  have hrun : passes
      (fun _ s' => passes (fun v _ => decide (v = some 12)) (mphfChmImpQuery 0 s'))
      (mphfChmImpUpdate 0 7 (after tinyIndex [⟨createRequest 0 5, 0, 0⟩]).mphf)
        = true := by decide +kernel
  obtain ⟨⟨⟩, s', hupd, hquery⟩ := exists_of_passes hrun
  obtain ⟨v, s'', hq, hv⟩ := exists_of_passes hquery
  rw [decide_eq_true_eq] at hv
  exact ⟨s', s'', hupd, by rw [hq, hv], by decide⟩

end Frozen.Mphf
