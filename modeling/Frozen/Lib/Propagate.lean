/-
# `Frozen.Lib.Propagate` — changing one vertex value while every edge sum stays

The vertices of a finite multigraph carry values in a commutative group, and what
is stored at an edge is the SUM of its two end values.  To change the value of
one vertex without changing any stored sum, the change has to be pushed through
everything the vertex is connected to, with alternating sign.  `propagate` does
that by a depth-first walk whose only memory is its own call path:

  * a vertex found on the call path means a cycle, and the walk stops there with
    part of the values already changed;
  * the edge it came by (`skip`) is not taken back.

Three results, from which the users of the walk are assembled:

    propagate_done      a walk that ends well has met a part `S` of the graph that
                        is cut off by the skipped edge, and kept every edge sum
    propagate_ne_fuel   on finitely many vertices the walk ends
    propagate_ne_cycle  on an acyclic graph without parallel edges it ends well

The first does NOT assume the graph is a forest: that the visited part is a tree
hanging on the skipped edge is a consequence of the walk not having failed.
-/
import Mathlib.Combinatorics.SimpleGraph.Acyclic
import Mathlib.Tactic

namespace Frozen.Lib

/-- An undirected multigraph without loops, given by the edges at each vertex,
each with its far end. -/
structure Incidence (V E : Type) where
  ends : V → List (E × V)
  symm : ∀ {v w e}, (e, w) ∈ ends v → (e, v) ∈ ends w
  irrefl : ∀ {v w e}, (e, w) ∈ ends v → w ≠ v
  nodup : ∀ v, ((ends v).map Prod.fst).Nodup

/-- How a walk ends. -/
inductive Outcome where
  | done
  | cycle
  | fuel
deriving DecidableEq, Repr

section Walk

variable {V E R : Type} [DecidableEq V] [DecidableEq E] [AddCommGroup R]

/-- Do `f` at each edge in turn, up to the first that does not end well. -/
def visit (f : E × V → (V → R) → Outcome × (V → R)) :
    List (E × V) → (V → R) → Outcome × (V → R)
  | [], g => (.done, g)
  | a :: as, g =>
      match f a g with
      | (.done, g') => visit f as g'
      | r => r

/-- Set the value of `v` from `gOld` to `gNew` and push the difference through
every edge but `skip`.  `path` holds the vertices the walk stands on. -/
def propagate (ends : V → List (E × V)) :
    Nat → List V → V → R → R → E → (V → R) → Outcome × (V → R)
  | 0, _, _, _, _, _, g => (.fuel, g)
  | d + 1, path, v, gOld, gNew, skip, g =>
      if v ∈ path then (.cycle, g)
      else
        match visit (fun a g =>
            if a.1 = skip then (.done, g)
            else propagate ends d (v :: path) a.2 (g a.2) (gOld + g a.2 - gNew) a.1 g)
          (ends v) g with
        | (.done, g') => (.done, Function.update g' v gNew)
        | r => r

end Walk

variable {V E R : Type}

namespace Incidence

variable (I : Incidence V E)

/-- An edge determines its far end. -/
theorem far_unique {v w w' : V} {e : E} (h : (e, w) ∈ I.ends v)
    (h' : (e, w') ∈ I.ends v) : w = w' := by
  have hinj := List.inj_on_of_nodup_map (I.nodup v) h h' rfl
  exact congrArg Prod.snd hinj

/-- The part of the graph behind `v` when `v` was entered by `skip`: closed under
every other edge, connected, away from `path`, and not containing the vertex
`skip` comes from. -/
structure Branch (path : List V) (v : V) (skip : E) (S : Set V) : Prop where
  root : v ∈ S
  fresh : ∀ x ∈ S, x ∉ path
  closed : ∀ x ∈ S, ∀ e w, (e, w) ∈ I.ends x → (x = v ∧ e = skip) ∨ w ∈ S
  linked : ∀ x ∈ S, Relation.ReflTransGen
    (fun a b => a ∈ S ∧ b ∈ S ∧ ∃ e, (e, b) ∈ I.ends a) v x
  sever : ∀ w, (skip, w) ∈ I.ends v → w ∉ S

variable {I}

/-- Two different edges at `v` lead to disjoint branches: a common vertex would
close a cycle through `v`, and `v` is on the path of both. -/
theorem Branch.disjoint {path : List V} {v w w' : V} {e e' : E} {S S' : Set V}
    (hS : I.Branch (v :: path) w e S) (hS' : I.Branch (v :: path) w' e' S')
    (he : (e, w) ∈ I.ends v) (he' : (e', w') ∈ I.ends v) (hne : e ≠ e') :
    ∀ x ∈ S', x ∉ S := by
  intro x hx' hx
  -- walk back from `x` to `w'` inside `S'`: no step leaves `S`
  have hback : ∀ y, Relation.ReflTransGen
      (fun a b => a ∈ S' ∧ b ∈ S' ∧ ∃ e, (e, b) ∈ I.ends a) w' y → y ∈ S → w' ∈ S := by
    intro y hy
    induction hy with
    | refl => exact id
    | @tail a b _ hab ih =>
        obtain ⟨ha, -, f, hf⟩ := hab
        intro hb
        apply ih
        rcases hS.closed b hb f a (I.symm hf) with ⟨rfl, rfl⟩ | ha'
        · -- the step is the edge `e` itself, so `a` is `v`
          have hav : a = v := I.far_unique (I.symm hf) (I.symm he)
          exact absurd (hav ▸ List.mem_cons_self) (hS'.fresh a ha)
        · exact ha'
  have hw' : w' ∈ S := hback x (hS'.linked x hx') hx
  rcases hS.closed w' hw' e' v (I.symm he') with ⟨-, rfl⟩ | hv
  · exact hne rfl
  · exact hS.fresh v hv List.mem_cons_self

end Incidence

/-! ## What a walk that ends well has done -/

section Done

variable [DecidableEq E] [AddCommGroup R] {I : Incidence V E}

/-- What one successful call leaves behind. -/
structure Kept (I : Incidence V E) (path : List V) (v : V) (gNew : R) (skip : E)
    (g g' : V → R) (S : Set V) : Prop where
  branch : I.Branch path v skip S
  frame : ∀ x, x ∉ S → g' x = g x
  value : g' v = gNew
  sums : ∀ x ∈ S, ∀ e w, (e, w) ∈ I.ends x → ¬ (x = v ∧ e = skip) →
    g' x + g' w = g x + g w

/-- The loop over the edges `l` at `v`, each behind its own branch. -/
structure KeptAll (I : Incidence V E) (path : List V) (v : V) (gOld gNew : R) (skip : E)
    (l : List (E × V)) (g g' : V → R) (S : E → Set V) : Prop where
  branch : ∀ a ∈ l, a.1 ≠ skip → I.Branch (v :: path) a.2 a.1 (S a.1)
  frame : ∀ x, (∀ a ∈ l, a.1 ≠ skip → x ∉ S a.1) → g' x = g x
  value : ∀ a ∈ l, a.1 ≠ skip → g' a.2 = gOld + g a.2 - gNew
  sums : ∀ a ∈ l, a.1 ≠ skip → ∀ x ∈ S a.1, ∀ e w, (e, w) ∈ I.ends x →
    ¬ (x = a.2 ∧ e = a.1) → g' x + g' w = g x + g w

/-- One more edge in front of the loop. -/
theorem KeptAll.cons {path : List V} {v : V} {gOld gNew : R} {skip : E} {a : E × V}
    {as : List (E × V)} {g g₁ g' : V → R} {S : E → Set V} {S₀ : Set V}
    (has : a.1 ≠ skip) (hsub : ∀ b ∈ a :: as, b ∈ I.ends v)
    (hnd : ((a :: as).map Prod.fst).Nodup)
    (hhead : Kept I (v :: path) a.2 (gOld + g a.2 - gNew) a.1 g g₁ S₀)
    (htail : KeptAll I path v gOld gNew skip as g₁ g' S) :
    KeptAll I path v gOld gNew skip (a :: as) g g' (Function.update S a.1 S₀) := by
  have hfst : ∀ b ∈ as, b.1 ≠ a.1 := by
    intro b hb heq
    simp only [List.map_cons, List.nodup_cons] at hnd
    exact hnd.1 (heq ▸ List.mem_map_of_mem hb)
  have hdisj : ∀ b ∈ as, b.1 ≠ skip → ∀ x ∈ S b.1, x ∉ S₀ := by
    intro b hb hbs
    exact hhead.branch.disjoint (htail.branch b hb hbs) (hsub a List.mem_cons_self)
      (hsub b (List.mem_cons_of_mem _ hb)) (hfst b hb).symm
  -- what the tail does not touch is what the head's branch holds
  have hg' : ∀ x ∈ S₀, g' x = g₁ x := fun x hx =>
    htail.frame x fun b hb hbs hxb => hdisj b hb hbs x hxb hx
  have hg₁ : ∀ b ∈ as, b.1 ≠ skip → ∀ x ∈ S b.1, g₁ x = g x := fun b hb hbs x hx =>
    hhead.frame x (hdisj b hb hbs x hx)
  refine ⟨?_, ?_, ?_, ?_⟩
  · intro b hb hbs
    rcases List.mem_cons.mp hb with rfl | hb
    · simpa using hhead.branch
    · rw [Function.update_of_ne (hfst b hb)]
      exact htail.branch b hb hbs
  · intro x hx
    have hxa : x ∉ S₀ := by
      have := hx a List.mem_cons_self has
      rwa [Function.update_self] at this
    have h1 : g' x = g₁ x := by
      refine htail.frame x fun b hb hbs hxb => ?_
      have := hx b (List.mem_cons_of_mem _ hb) hbs
      rw [Function.update_of_ne (hfst b hb)] at this
      exact this hxb
    rw [h1, hhead.frame x hxa]
  · intro b hb hbs
    rcases List.mem_cons.mp hb with rfl | hb
    · rw [hg' _ hhead.branch.root, hhead.value]
    · rw [htail.value b hb hbs, hg₁ b hb hbs _ (htail.branch b hb hbs).root]
  · intro b hb hbs x hx e w hew hnot
    rcases List.mem_cons.mp hb with rfl | hb
    · simp only [Function.update_self] at hx
      rcases hhead.branch.closed x hx e w hew with h | hw
      · exact absurd h hnot
      · rw [hg' x hx, hg' w hw, hhead.sums x hx e w hew hnot]
    · rw [Function.update_of_ne (hfst b hb)] at hx
      rw [htail.sums b hb hbs x hx e w hew hnot]
      rcases (htail.branch b hb hbs).closed x hx e w hew with h | hw
      · exact absurd h hnot
      · rw [hg₁ b hb hbs x hx, hg₁ b hb hbs w hw]

variable [DecidableEq V]

/-- A walk over all the edges at `v` but `skip`, closed up by setting `v`. -/
theorem KeptAll.close {path : List V} {v : V} {gOld gNew : R} {skip : E}
    {g g' : V → R} {S : E → Set V} (hv : v ∉ path) (hold : gOld = g v)
    (h : KeptAll I path v gOld gNew skip (I.ends v) g g' S) :
    Kept I path v gNew skip g (Function.update g' v gNew)
      ({v} ∪ {x | ∃ a ∈ I.ends v, a.1 ≠ skip ∧ x ∈ S a.1}) := by
  -- no branch reaches back to `v`
  have hnv : ∀ a ∈ I.ends v, a.1 ≠ skip → v ∉ S a.1 := fun a ha has hva =>
    (h.branch a ha has).fresh v hva List.mem_cons_self
  have hne : ∀ a ∈ I.ends v, a.1 ≠ skip → ∀ x ∈ S a.1, x ≠ v := fun a ha has x hx hxv =>
    hnv a ha has (hxv ▸ hx)
  refine ⟨⟨Or.inl rfl, ?_, ?_, ?_, ?_⟩, ?_, Function.update_self .., ?_⟩
  · rintro x (rfl | ⟨a, ha, has, hx⟩) hxp
    · exact hv hxp
    · exact (h.branch a ha has).fresh x hx (List.mem_cons_of_mem _ hxp)
  · rintro x (rfl | ⟨a, ha, has, hx⟩) e w hew
    · by_cases hes : e = skip
      · exact Or.inl ⟨rfl, hes⟩
      · exact Or.inr (Or.inr ⟨(e, w), hew, hes, (h.branch _ hew hes).root⟩)
    · right
      rcases (h.branch a ha has).closed x hx e w hew with ⟨rfl, rfl⟩ | hw
      · exact Or.inl (I.far_unique hew (I.symm ha))
      · exact Or.inr ⟨a, ha, has, hw⟩
  · rintro x (rfl | ⟨a, ha, has, hx⟩)
    · exact .refl
    · have hin : ∀ y ∈ S a.1,
          y ∈ ({v} ∪ {x | ∃ a ∈ I.ends v, a.1 ≠ skip ∧ x ∈ S a.1} : Set V) :=
        fun y hy => Or.inr ⟨a, ha, has, hy⟩
      refine .head ⟨Or.inl rfl, hin _ (h.branch a ha has).root, a.1, ha⟩ ?_
      refine Relation.ReflTransGen.mono ?_ _ _ ((h.branch a ha has).linked x hx)
      rintro y z ⟨hy, hz, hyz⟩
      exact ⟨hin y hy, hin z hz, hyz⟩
  · rintro w hw (rfl | ⟨a, ha, has, hwa⟩)
    · exact I.irrefl hw rfl
    · rcases (h.branch a ha has).closed w hwa skip v (I.symm hw) with ⟨-, rfl⟩ | hva
      · exact has rfl
      · exact hnv a ha has hva
  · intro x hx
    have hxv : x ≠ v := fun hxv => hx (Or.inl hxv)
    rw [Function.update_of_ne hxv]
    exact h.frame x fun a ha has hxa => hx (Or.inr ⟨a, ha, has, hxa⟩)
  · rintro x (rfl | ⟨a, ha, has, hx⟩) e w hew hnot
    · have hes : e ≠ skip := fun hes => hnot ⟨rfl, hes⟩
      rw [Function.update_self, Function.update_of_ne (I.irrefl hew),
        h.value _ hew hes, hold]
      abel
    · rw [Function.update_of_ne (hne a ha has x hx)]
      by_cases hback : x = a.2 ∧ e = a.1
      · -- the edge from the branch's root back to `v`
        obtain ⟨rfl, rfl⟩ := hback
        obtain rfl : w = v := I.far_unique hew (I.symm ha)
        rw [Function.update_self, h.value a ha has, hold]
        abel
      · rcases (h.branch a ha has).closed x hx e w hew with hc | hw
        · exact absurd hc hback
        · rw [Function.update_of_ne (hne a ha has w hw)]
          exact h.sums a ha has x hx e w hew hback

omit [DecidableEq V] in
theorem visit_done {path : List V} {v : V} {gOld gNew : R} {skip : E}
    {f : E × V → (V → R) → Outcome × (V → R)}
    (hskip : ∀ a g, a.1 = skip → f a g = (.done, g))
    (hf : ∀ a ∈ I.ends v, a.1 ≠ skip → ∀ g g', f a g = (.done, g') →
      ∃ S, Kept I (v :: path) a.2 (gOld + g a.2 - gNew) a.1 g g' S) :
    ∀ (l : List (E × V)), (∀ a ∈ l, a ∈ I.ends v) → (l.map Prod.fst).Nodup →
      ∀ g g', visit f l g = (.done, g') → ∃ S, KeptAll I path v gOld gNew skip l g g' S
  | [], _, _, g, g', h => by
      cases h
      exact ⟨fun _ => ∅, ⟨by simp, by simp, by simp, by simp⟩⟩
  | a :: as, hsub, hnd, g, g', h => by
      have hsub' : ∀ b ∈ as, b ∈ I.ends v :=
        fun b hb => hsub b (List.mem_cons_of_mem _ hb)
      have hnd' : (as.map Prod.fst).Nodup := (List.nodup_cons.mp hnd).2
      rw [visit] at h
      by_cases has : a.1 = skip
      · rw [hskip a g has] at h
        obtain ⟨S, hS⟩ := visit_done hskip hf as hsub' hnd' g g' h
        have hcons : ∀ {P : E × V → Prop}, (∀ b ∈ as, b.1 ≠ skip → P b) →
            ∀ b ∈ a :: as, b.1 ≠ skip → P b := by
          intro P hP b hb hbs
          rcases List.mem_cons.mp hb with rfl | hb
          · exact absurd has hbs
          · exact hP b hb hbs
        exact ⟨S, hcons hS.branch,
          fun x hx => hS.frame x fun b hb => hx b (List.mem_cons_of_mem _ hb),
          hcons hS.value, hcons hS.sums⟩
      · cases hfa : f a g with
        | mk o g₁ =>
            cases o with
            | done =>
                rw [hfa] at h
                obtain ⟨S₀, hS₀⟩ := hf a (hsub a List.mem_cons_self) has g g₁ hfa
                obtain ⟨S, hS⟩ := visit_done hskip hf as hsub' hnd' g₁ g' h
                exact ⟨_, KeptAll.cons has hsub hnd hS₀ hS⟩
            | cycle => rw [hfa] at h; cases h
            | fuel => rw [hfa] at h; cases h

/-- **A walk that ends well** has changed exactly one branch of the graph, the
one behind `v`, and kept the sum of every edge in it. -/
theorem propagate_done :
    ∀ (d : Nat) (path : List V) (v : V) (gNew : R) (skip : E) (g g' : V → R),
      propagate I.ends d path v (g v) gNew skip g = (.done, g') →
      ∃ S, Kept I path v gNew skip g g' S
  | 0, _, _, _, _, _, _, h => by cases h
  | d + 1, path, v, gNew, skip, g, g', h => by
      rw [propagate] at h
      split at h
      · cases h
      · rename_i hv
        split at h
        · rename_i g₁ hvisit
          cases h
          obtain ⟨S, hS⟩ : ∃ S, KeptAll I path v (g v) gNew skip (I.ends v) g g₁ S := by
            refine visit_done (fun a g ha => if_pos ha) ?_ (I.ends v)
              (fun _ ha => ha) (I.nodup v) g g₁ hvisit
            intro a _ has g₂ g₃ h₃
            rw [if_neg has] at h₃
            exact propagate_done d (v :: path) a.2 _ a.1 g₂ g₃ h₃
          exact ⟨_, hS.close hv rfl⟩
        · rename_i hnot
          exact absurd h (hnot _)

end Done

/-! ## The walk ends -/

section Ends

theorem visit_ne {o : Outcome} (ho : o ≠ .done)
    {f : E × V → (V → R) → Outcome × (V → R)} :
    ∀ (l : List (E × V)), (∀ a ∈ l, ∀ g, (f a g).1 ≠ o) → ∀ g, (visit f l g).1 ≠ o
  | [], _, _ => ho.symm
  | a :: as, hf, g => by
      have ha := hf a List.mem_cons_self g
      rw [visit]
      split
      · exact visit_ne ho as (fun b hb => hf b (List.mem_cons_of_mem _ hb)) _
      · exact ha

variable [DecidableEq V] [DecidableEq E] [AddCommGroup R]

/-- On a finite vertex set the call path, which never repeats a vertex, bounds
the depth. -/
theorem propagate_ne_fuel {ends : V → List (E × V)} {U : Finset V}
    (hU : ∀ v ∈ U, ∀ a ∈ ends v, a.2 ∈ U) :
    ∀ (d : Nat) (path : List V) (v : V) (gOld gNew : R) (skip : E) (g : V → R),
      v ∈ U → path.Nodup → (∀ x ∈ path, x ∈ U) → U.card < d + path.length →
      (propagate ends d path v gOld gNew skip g).1 ≠ .fuel
  | 0, path, _, _, _, _, _, _, hnd, hpU, hcard => by
      have hle : path.toFinset.card ≤ U.card :=
        Finset.card_le_card fun x hx => hpU x (List.mem_toFinset.mp hx)
      rw [List.toFinset_card_of_nodup hnd] at hle
      omega
  | d + 1, path, v, gOld, gNew, skip, g, hv, hnd, hpU, hcard => by
      rw [propagate]
      split
      · simp
      · rename_i hvp
        have hvisit := visit_ne (o := .fuel) (by simp) (ends v) (fun a ha g => by
          show (if a.1 = skip then (Outcome.done, g)
            else propagate ends d (v :: path) a.2 (g a.2) (gOld + g a.2 - gNew) a.1
              g).1 ≠ .fuel
          split
          · simp
          · refine propagate_ne_fuel hU d (v :: path) a.2 _ _ a.1 g (hU v hv a ha)
              (List.nodup_cons.mpr ⟨hvp, hnd⟩) ?_ (by simp only [List.length_cons]; omega)
            rintro x hx
            rcases List.mem_cons.mp hx with rfl | hx
            · exact hv
            · exact hpU x hx) g
        split
        · simp
        · exact hvisit

variable {I : Incidence V E}

/-- In an acyclic graph without parallel edges the next vertex is never on the
path: an edge back into the path could only be the one the walk came by. -/
theorem propagate_ne_cycle {G : SimpleGraph V} (hG : G.IsAcyclic)
    (hadj : ∀ v e w, (e, w) ∈ I.ends v → G.Adj v w)
    (hsimple : ∀ v e e' w, (e, w) ∈ I.ends v → (e', w) ∈ I.ends v → e = e') :
    ∀ (d : Nat) (path : List V) (v : V) (gOld gNew : R) (skip : E) (g : V → R),
      (∃ (r : V) (q : G.Walk v r), q.IsPath ∧ q.support = v :: path) →
      (∀ u t, path = u :: t → (skip, u) ∈ I.ends v) →
      (propagate I.ends d path v gOld gNew skip g).1 ≠ .cycle
  | 0, _, _, _, _, _, _, _, _ => by simp [propagate]
  | d + 1, path, v, gOld, gNew, skip, g, ⟨r, q, hq, hsupp⟩, hparent => by
      have hnd : (v :: path).Nodup := hsupp ▸ hq.support_nodup
      rw [propagate, if_neg (List.nodup_cons.mp hnd).1]
      have hvisit := visit_ne (o := .cycle) (by simp) (I.ends v) (fun a ha g => by
        show (if a.1 = skip then (Outcome.done, g)
          else propagate I.ends d (v :: path) a.2 (g a.2) (gOld + g a.2 - gNew) a.1
            g).1 ≠ .cycle
        split
        · simp
        · rename_i has
          have hva : G.Adj v a.2 := hadj v a.1 a.2 ha
          have hfresh : a.2 ∉ q.support := by
            intro hmem
            have hsnd : a.2 = q.snd := hG.eq_snd_of_adj_start hq hva hmem
            cases q with
            | nil => exact hva.ne (by simpa using hsnd.symm)
            | @cons _ u _ h q' =>
                -- the second vertex of the path is the parent, reached by `skip`
                have hq' : q'.support = path := by simpa using hsupp
                have hpath : path = u :: q'.support.tail := by
                  rw [← hq']
                  exact q'.cons_tail_support.symm
                have hau : a.2 = u := by simpa using hsnd
                exact has (hsimple v a.1 skip u (hau ▸ ha) (hparent u _ hpath))
          refine propagate_ne_cycle hG hadj hsimple d (v :: path) a.2 _ _ a.1 g ?_ ?_
          · refine ⟨r, .cons hva.symm q, ?_, ?_⟩
            · exact (SimpleGraph.Walk.cons_isPath_iff _ _).mpr ⟨hq, hfresh⟩
            · rw [SimpleGraph.Walk.support_cons, hsupp]
          · intro u t hut
            cases hut
            exact I.symm ha) g
      split
      · simp
      · exact hvisit

end Ends

end Frozen.Lib
