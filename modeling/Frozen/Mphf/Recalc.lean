/-
# `Frozen.Mphf.Recalc` — `graph_recalc` is the propagating walk

`graph_recalc` follows linked edge lists in one byte store and rewrites g-values
in another.  Its control flow does not depend on the g-values at all, and modulo
any `m` that divides both `2 ^ 64` (the arithmetic wraps there) and
`256 ^ bt_value` (the store truncates there) its arithmetic is that of the ring
`ZMod m`.  So it IS `propagate` on the graph the stores represent
(`run_graphRecalc`), and everything proved about the walk is true of the code.
-/
import Frozen.Mphf.Rep
import Frozen.Lib.Forest
import Frozen.Lib.Propagate
import Mathlib.Data.ZMod.Basic

namespace Frozen.Mphf

open Frozen.Lib

/-! ## Machine words modulo a divisor of `2 ^ 64` -/

/-- A 64-bit word modulo `m`. -/
def residue (m : Nat) (x : UInt64) : ZMod m := (x.toNat : ZMod m)

section Residue

variable {m : Nat}

/-- Truncating to `n` does not change a residue modulo a divisor of `n`. -/
theorem cast_mod_of_dvd {n : Nat} (h : m ∣ n) (a : Nat) :
    ((a % n : Nat) : ZMod m) = (a : ZMod m) := by
  rw [ZMod.natCast_eq_natCast_iff', Nat.mod_mod_of_dvd _ h]

variable (hm : m ∣ 2 ^ 64)
include hm

theorem residue_ofNat (a : Nat) : residue m (UInt64.ofNat a) = (a : ZMod m) := by
  rw [residue, UInt64.toNat_ofNat', cast_mod_of_dvd hm]

theorem residue_add (x y : UInt64) : residue m (x + y) = residue m x + residue m y := by
  rw [residue, UInt64.toNat_add, cast_mod_of_dvd hm, Nat.cast_add]
  rfl

theorem residue_sub (x y : UInt64) : residue m (x - y) = residue m x - residue m y := by
  have h := residue_add hm (x - y) y
  rw [UInt64.sub_add_cancel] at h
  rw [h]
  ring

end Residue

/-! ## The graph of an edge list -/

theorem edgesAt_symm {es : List (Nat × Nat)} (hne : ∀ p ∈ es, p.1 ≠ p.2) {v w i : Nat}
    (h : (i, w) ∈ edgesAt v es) : (i, v) ∈ edgesAt w es := by
  obtain ⟨r, x, y, hs, hi, hends⟩ := (mem_edgesAt hne).mp h
  refine (mem_edgesAt hne).mpr ⟨r, x, y, hs, hi, ?_⟩
  rcases hends with ⟨h1, h2⟩ | ⟨h1, h2⟩
  · exact Or.inr ⟨h2, h1⟩
  · exact Or.inl ⟨h2, h1⟩

/-- The multigraph of an edge list without loops, each edge under its id. -/
def incidence (es : List (Nat × Nat)) (hne : ∀ p ∈ es, p.1 ≠ p.2) :
    Incidence Nat Nat where
  ends a := edgesAt a es
  symm h := edgesAt_symm hne h
  irrefl h := by
    obtain ⟨r, x, y, hs, -, hends⟩ := (mem_edgesAt hne).mp h
    have hxy : x ≠ y := hne (x, y) (hs.subset List.mem_cons_self)
    rcases hends with ⟨rfl, rfl⟩ | ⟨rfl, rfl⟩
    · exact hxy.symm
    · exact hxy
  nodup _ := edgesAt_nodup es

/-! ## The simulation -/

/-- All g-values, modulo `m`. -/
def gvals (m : Nat) (s : ChmImp) : Nat → ZMod m := fun a => (s.gval a : ZMod m)

theorem residue_gval {m : Nat} (hm : m ∣ 2 ^ 64) (s : ChmImp) (a : Nat) :
    residue m (UInt64.ofNat (s.gval a)) = gvals m s a := residue_ofNat hm _

/-- What the C function answers for each way a walk can end. -/
def answer : Outcome → ChmImp → EStateM.Result Stop ChmImp Unit
  | .done, s => .ok () s
  | .cycle, s => .error (.ret (-EBADF)) s
  | .fuel, s => .error .loop s

/-- On states that differ from `s` only in the g-values, `mc` does to the stored
values what `p` does to their residues, and ends as `p` does. -/
def Simulates (m : Nat) (s : ChmImp) (mc : ChmM Unit)
    (p : (Nat → ZMod m) → Outcome × (Nat → ZMod m)) : Prop :=
  ∀ G, G.length = (s.store .g).length → ∃ G', G'.length = (s.store .g).length ∧
    mc (s.withG G) = answer (p (gvals m (s.withG G))).1 (s.withG G') ∧
    gvals m (s.withG G') = (p (gvals m (s.withG G))).2

section Simulation

variable {m : Nat} {s : ChmImp} {es : List (Nat × Nat)}

/-- The loop over the edges of `v`, started at the list's rest `r`. -/
theorem simulates_loop (hm : m ∣ 2 ^ 64) (hrep : GraphRep s es) (hg : GStore s)
    {recalc : Nat → List Nat → UInt64 → UInt64 → Nat → ChmM Unit}
    {p : List Nat → Nat → ZMod m → ZMod m → Nat → (Nat → ZMod m) →
      Outcome × (Nat → ZMod m)}
    (hrec : ∀ w < s.nvertex, ∀ path gO gN i, Simulates m s (recalc w path gO gN i)
      (p path w (residue m gO) (residue m gN) i))
    (v : Nat) (path : List Nat) (gOld gNew : UInt64) (skip : Nat) :
    ∀ (r : List (Nat × Nat)), r <:+ es → ∀ n, r.length < n →
      Simulates m s (graphRecalcLoop recalc v path gOld gNew skip n (headId v r))
        (visit (fun a g => if a.1 = skip then (.done, g)
            else p (v :: path) a.2 (g a.2)
              (residue m gOld + g a.2 - residue m gNew) a.1 g)
          (edgesAt v r))
  | [], _, 0, hn => absurd hn (Nat.not_lt_zero _)
  | [], _, n + 1, _ => fun G hG =>
      ⟨G, hG, by simp [headId, edgesAt, visit, graphRecalcLoop, answer], rfl⟩
  | (x, y) :: r, _, 0, hn => absurd hn (Nat.not_lt_zero _)
  | (x, y) :: r, hs, n + 1, hn => by
      have hs' : r <:+ es := (List.suffix_cons _ _).trans hs
      have hn' : r.length < n := by simpa using hn
      have hxy := hrep.ends_of_suffix hs
      -- one round at an edge of `v`, whichever end `v` is
      have hround : ∀ w, w < s.nvertex → ∀ G, G.length = (s.store .g).length →
          graphRecalcLoop recalc v path gOld gNew skip (n + 1) (r.length + 1) (s.withG G)
            = (do
                if skip ≠ r.length + 1 then
                  let frnGOld ← graphGetg w
                  recalc w (v :: path) frnGOld (gOld + frnGOld - gNew) (r.length + 1)
                graphRecalcLoop recalc v path gOld gNew skip n (headId v r)) (s.withG G) →
          edgesAt v ((x, y) :: r) = (r.length + 1, w) :: edgesAt v r →
          ∃ G', G'.length = (s.store .g).length ∧
            graphRecalcLoop recalc v path gOld gNew skip (n + 1)
              (r.length + 1) (s.withG G)
              = answer (visit (fun a g => if a.1 = skip then (.done, g)
                  else p (v :: path) a.2 (g a.2)
                    (residue m gOld + g a.2 - residue m gNew) a.1 g)
                (edgesAt v ((x, y) :: r)) (gvals m (s.withG G))).1 (s.withG G') ∧
            gvals m (s.withG G') = (visit (fun a g => if a.1 = skip then (.done, g)
                  else p (v :: path) a.2 (g a.2)
                    (residue m gOld + g a.2 - residue m gNew) a.1 g)
                (edgesAt v ((x, y) :: r)) (gvals m (s.withG G))).2 := by
        intro w hw G hG hrun hedges
        rw [hrun, hedges, visit]
        by_cases hskip : r.length + 1 = skip
        · rw [if_pos hskip, if_neg (by simpa using hskip.symm)]
          exact simulates_loop hm hrep hg hrec v path gOld gNew skip r hs' n hn' G hG
        · rw [if_neg hskip, if_pos (Ne.symm hskip)]
          have hget := run_graphGetg (hg.withG hG) (a := w) hw
          obtain ⟨G₁, hG₁, hcall, hvals⟩ := hrec w hw (v :: path)
            (UInt64.ofNat ((s.withG G).gval w))
            (gOld + UInt64.ofNat ((s.withG G).gval w) - gNew) (r.length + 1) G hG
          rw [residue_sub hm, residue_add hm, residue_ofNat hm] at hcall hvals
          change recalc w (v :: path) _ _ _ _
            = answer (p (v :: path) w (gvals m (s.withG G) w)
            (residue m gOld + gvals m (s.withG G) w - residue m gNew) _ _).1 _ at hcall
          change _ = (p (v :: path) w (gvals m (s.withG G) w)
            (residue m gOld + gvals m (s.withG G) w - residue m gNew) _ _).2 at hvals
          generalize p (v :: path) w (gvals m (s.withG G) w)
            (residue m gOld + gvals m (s.withG G) w - residue m gNew) (r.length + 1)
            (gvals m (s.withG G)) = res at hcall hvals ⊢
          obtain ⟨o, g'⟩ := res
          cases o with
          | done =>
              obtain ⟨G₂, hG₂, hloop, hvals₂⟩ :=
                simulates_loop hm hrep hg hrec v path gOld gNew skip r hs' n hn' G₁ hG₁
              simp only at hvals
              rw [hvals] at hloop hvals₂
              refine ⟨G₂, hG₂, ?_, hvals₂⟩
              rw [← hloop]
              simp only [run_bind, hget, hcall, answer]
          | cycle => exact ⟨G₁, hG₁, by simp only [run_bind, hget, hcall, answer], hvals⟩
          | fuel => exact ⟨G₁, hG₁, by simp only [run_bind, hget, hcall, answer], hvals⟩
      intro G hG
      have hedge := run_graphGetEdge (hrep.withG G) hs
      by_cases hx : v = x
      · subst hx
        rw [show headId v ((v, y) :: r) = r.length + 1 by simp [headId]]
        refine hround y hxy.2.1 G hG ?_ (by simp [edgesAt])
        rw [graphRecalcLoop, if_neg (Nat.succ_ne_zero _)]
        simp only [run_bind, hedge, if_true, run_pure]
      · by_cases hy : v = y
        · subst hy
          rw [show headId v ((x, v) :: r) = r.length + 1 by simp [headId]]
          refine hround x hxy.1 G hG ?_ (by simp [edgesAt, hx])
          rw [graphRecalcLoop, if_neg (Nat.succ_ne_zero _)]
          simp only [run_bind, hedge, if_neg (Ne.symm hx), if_true, run_pure]
        · rw [show headId v ((x, y) :: r) = headId v r by simp [headId, hx, hy],
            show edgesAt v ((x, y) :: r) = edgesAt v r by simp [edgesAt, hx, hy]]
          exact simulates_loop hm hrep hg hrec v path gOld gNew skip r hs' (n + 1)
            (by omega) G hG

/-- The whole call, by induction on its depth. -/
theorem simulates_recalc (hm : m ∣ 2 ^ 64) (hmv : m ∣ 256 ^ s.btValue)
    (hrep : GraphRep s es) (hg : GStore s) {len : Nat} (hlen : es.length < len) :
    ∀ (depth v : Nat) (path : List Nat) (gOld gNew : UInt64) (skip : Nat), v < s.nvertex →
      Simulates m s (graphRecalc len depth v path gOld gNew skip)
        (propagate (edgesAt · es) depth path v (residue m gOld) (residue m gNew) skip)
  | 0, _, _, _, _, _, _ => fun G hG => ⟨G, hG, rfl, rfl⟩
  | depth + 1, v, path, gOld, gNew, skip, hv => by
      intro G hG
      have hrep' := hrep.withG G
      by_cases hmem : v ∈ path
      · refine ⟨G, hG, ?_, ?_⟩
        · simp only [graphRecalc, propagate, if_pos hmem, run_bind, run_throw, answer]
        · simp only [propagate, if_pos hmem]
      · have hloop := simulates_loop hm hrep hg
          (fun w hw path gO gN i => simulates_recalc hm hmv hrep hg hlen depth w
            path gO gN i hw)
          v path gOld gNew skip es List.suffix_rfl len hlen G hG
        obtain ⟨G₁, hG₁, hcall, hvals⟩ := hloop
        rw [propagate, if_neg hmem]
        generalize visit _ (edgesAt v es) (gvals m (s.withG G)) = res at hcall hvals ⊢
        have hfirst := run_graphGetFirst hrep' (a := v) hv
        obtain ⟨o, g'⟩ := res
        cases o with
        | done =>
            obtain ⟨G₂, hG₂, hset, hval⟩ := run_graphSetg (hg.withG hG₁) (a := v) hv gNew
            rw [withG_store_g] at hG₂
            rw [withG_withG] at hset hval
            refine ⟨G₂, hG₂.trans hG₁, ?_, ?_⟩
            · simp only [graphRecalc, if_neg hmem, run_bind, hfirst, hcall, answer, hset]
            · funext b
              simp only [gvals, hval, Function.update_apply]
              by_cases hb : b = v
              · rw [if_pos hb, if_pos hb, withG_btValue, cast_mod_of_dvd hmv]
                rfl
              · rw [if_neg hb, if_neg hb]
                exact congrFun hvals b
        | cycle =>
            refine ⟨G₁, hG₁, ?_, hvals⟩
            simp only [graphRecalc, if_neg hmem, run_bind, hfirst, hcall, answer]
        | fuel =>
            refine ⟨G₁, hG₁, ?_, hvals⟩
            simp only [graphRecalc, if_neg hmem, run_bind, hfirst, hcall, answer]

theorem edgeCount_eq (hrep : GraphRep s es) {v : Nat} (hv : v < s.nvertex) :
    edgeCount s = es.length := by
  rw [edgeCount, hrep.e, Option.map_some, Option.getD_some, hrep.elen]
  exact Nat.mul_div_cancel _ (hrep.sizeofEdge_pos hv)

/-- **`graph_recalc` is the walk**: from a vertex with its stored g-value, the code
ends as `propagate` does, with the same values modulo `m`, and it does end. -/
theorem run_graphRecalcFrom (hm : m ∣ 2 ^ 64) (hmv : m ∣ 256 ^ s.btValue)
    (hrep : GraphRep s es) (hg : GStore s) {v : Nat} (hv : v < s.nvertex)
    (gOld gNew : UInt64) (skip : Nat) : ∃ G o g', G.length = (s.store .g).length ∧
      propagate (edgesAt · es) (s.nvertex + 1) [] v (residue m gOld) (residue m gNew) skip
        (gvals m s) = (o, g') ∧
      graphRecalcFrom v gOld gNew skip s = answer o (s.withG G) ∧
      gvals m (s.withG G) = g' ∧ o ≠ .fuel := by
  have hsim := simulates_recalc hm hmv hrep hg (Nat.lt_succ_self es.length)
    (s.nvertex + 1) v [] gOld gNew skip hv (s.store .g) rfl
  rw [withG_self _ _ hg.g] at hsim
  obtain ⟨G, hG, hrun, hvals⟩ := hsim
  have hfuel : (propagate (edgesAt · es) (s.nvertex + 1) [] v (residue m gOld)
      (residue m gNew) skip (gvals m s)).1 ≠ .fuel := by
    refine propagate_ne_fuel (U := Finset.range s.nvertex) ?_ _ _ _ _ _ _ _
      (Finset.mem_range.mpr hv) List.nodup_nil (by simp) (by simp)
    rintro a - ⟨i, w⟩ hw
    obtain ⟨r, x, y, hs, -, hends⟩ := (mem_edgesAt hrep.ne).mp hw
    have hxy := hrep.ends_of_suffix hs
    rcases hends with ⟨-, rfl⟩ | ⟨-, rfl⟩
    · exact Finset.mem_range.mpr hxy.2.1
    · exact Finset.mem_range.mpr hxy.1
  generalize propagate (edgesAt · es) (s.nvertex + 1) [] v (residue m gOld)
    (residue m gNew) skip (gvals m s) = res at hrun hvals hfuel ⊢
  refine ⟨G, res.1, res.2, hG, rfl, ?_, hvals, hfuel⟩
  rw [graphRecalcFrom, run_bind_ok (run_get s), edgeCount_eq hrep hv, hrun]

end Simulation

/-! ## Walks that start across one edge -/

section Across

variable {R : Type} [AddCommGroup R] {es r : List (Nat × Nat)} {x y : Nat}

/-- An edge of the list is at both its ends, under the same id. -/
theorem edgesAt_of_suffix (hne : ∀ p ∈ es, p.1 ≠ p.2) {r : List (Nat × Nat)} {a b : Nat}
    (hs : (a, b) :: r <:+ es) :
    (r.length + 1, b) ∈ edgesAt a es ∧ (r.length + 1, a) ∈ edgesAt b es :=
  ⟨(mem_edgesAt hne).mpr ⟨r, a, b, hs, rfl, Or.inl ⟨rfl, rfl⟩⟩,
    (mem_edgesAt hne).mpr ⟨r, a, b, hs, rfl, Or.inr ⟨rfl, rfl⟩⟩⟩

/-- A walk from `y` that skips an edge `(x, y)` and ends well leaves `x` alone,
keeps the sum of every other edge, and has found `y` cut off from `x`. -/
theorem walk_done (hne : ∀ p ∈ es, p.1 ≠ p.2) (hs : (x, y) :: r <:+ es) {d : Nat}
    {g g' : Nat → R} {gNew : R}
    (h : propagate (edgesAt · es) d [] y (g y) gNew (r.length + 1) g = (.done, g')) :
    g' x = g x ∧ g' y = gNew ∧
      (∀ i a b, (i, b) ∈ edgesAt a es → i ≠ r.length + 1 → g' a + g' b = g a + g b) ∧
      ∃ S : Set Nat, y ∈ S ∧ x ∉ S ∧
        ∀ i a b, a ∈ S → (i, b) ∈ edgesAt a es → i ≠ r.length + 1 → b ∈ S := by
  obtain ⟨S, hS⟩ :=
    propagate_done (I := incidence es hne) d [] y gNew (r.length + 1) g g' h
  have hxS : x ∉ S := hS.branch.sever x (edgesAt_of_suffix hne hs).2
  have hclosed : ∀ i a b, a ∈ S → (i, b) ∈ edgesAt a es → i ≠ r.length + 1 → b ∈ S := by
    intro i a b ha hab hi
    rcases hS.branch.closed a ha i b hab with ⟨-, hskip⟩ | hb
    · exact absurd hskip hi
    · exact hb
  refine ⟨hS.frame x hxS, hS.value, ?_, S, hS.branch.root, hxS, hclosed⟩
  intro i a b hab hi
  by_cases ha : a ∈ S
  · exact hS.sums a ha i b hab fun hc => hi hc.2
  · have hb : b ∉ S := fun hb => ha (hclosed i b a hb (edgesAt_symm hne hab) hi)
    rw [hS.frame a ha, hS.frame b hb]

/-- In a forest no walk meets its own path. -/
theorem walk_ne_cycle (hf : Forest es) (hne : ∀ p ∈ es, p.1 ≠ p.2) (d v skip : Nat)
    (gOld gNew : R) (g : Nat → R) :
    (propagate (edgesAt · es) d [] v gOld gNew skip g).1 ≠ .cycle := by
  have hadj : ∀ a i b, (i, b) ∈ edgesAt a es →
      ∃ r x y, (x, y) :: r <:+ es ∧ i = r.length + 1 ∧ s(a, b) = s(x, y) := by
    intro a i b hab
    obtain ⟨r, x, y, hs, hi, hends⟩ := (mem_edgesAt hne).mp hab
    refine ⟨r, x, y, hs, hi, ?_⟩
    rcases hends with ⟨rfl, rfl⟩ | ⟨rfl, rfl⟩
    · rfl
    · exact Sym2.eq_swap
  -- of two edges between the same vertices one is older, and joins them already
  have holder : ∀ {r x y r' x' y'}, (x, y) :: r <:+ es → (x', y') :: r' <:+ r →
      s(x, y) = s(x', y') → False := by
    intro r x y r' x' y' hs hs' heq
    refine hf.not_adj hs (edgeGraph_adj.mpr ⟨?_, hne _ (hs.subset List.mem_cons_self)⟩)
    have hmem : (x', y') ∈ r := hs'.subset List.mem_cons_self
    rcases Sym2.eq_iff.mp heq with ⟨rfl, rfl⟩ | ⟨rfl, rfl⟩
    · exact Or.inl hmem
    · exact Or.inr hmem
  refine propagate_ne_cycle (I := incidence es hne) hf.isAcyclic ?_ ?_ d [] v
    gOld gNew skip g ⟨v, .nil, .nil, rfl⟩ (fun u t h => nomatch h)
  · intro a i b hab
    refine edgeGraph_adj.mpr ⟨?_, ((incidence es hne).irrefl hab).symm⟩
    obtain ⟨r, x, y, hs, -, heq⟩ := hadj a i b hab
    have hmem : (x, y) ∈ es := hs.subset List.mem_cons_self
    rcases Sym2.eq_iff.mp heq with ⟨rfl, rfl⟩ | ⟨rfl, rfl⟩
    · exact Or.inl hmem
    · exact Or.inr hmem
  · intro a i i' b hab hab'
    obtain ⟨r, x, y, hs, rfl, heq⟩ := hadj a i b hab
    obtain ⟨r', x', y', hs', rfl, heq'⟩ := hadj a i' b hab'
    rcases Nat.lt_trichotomy r.length r'.length with hlt | hlt | hlt
    · have hin := List.suffix_of_suffix_length_le hs ((List.suffix_cons _ _).trans hs')
          (by simpa using hlt)
      exact (holder hs' hin (heq'.symm.trans heq)).elim
    · rw [hlt]
    · have hin := List.suffix_of_suffix_length_le hs' ((List.suffix_cons _ _).trans hs)
          (by simpa using hlt)
      exact (holder hs hin (heq.symm.trans heq')).elim

/-- So a walk that has enough fuel ends well. -/
theorem walk_eq_done (hf : Forest es) (hne : ∀ p ∈ es, p.1 ≠ p.2) {d v skip : Nat}
    {gOld gNew : R} {g g' : Nat → R} {o : Outcome}
    (h : propagate (edgesAt · es) d [] v gOld gNew skip g = (o, g'))
    (hfuel : o ≠ .fuel) : o = .done := by
  cases o with
  | done => rfl
  | cycle =>
      exact absurd (congrArg Prod.fst h) (walk_ne_cycle hf hne d v skip gOld gNew g)
  | fuel => exact absurd rfl hfuel

end Across

end Frozen.Mphf
