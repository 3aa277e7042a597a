/-
# `Frozen.Lib.Forest` — edge lists that never closed a cycle

A graph that grows one edge at a time, the newest edge first in its list.
`Forest es` says that every edge joined two vertices that were not connected when
it came.  Three consequences:

    Forest.isAcyclic    the graph has no cycle
    Forest.not_adj      no two edges of the list join the same two vertices
    Forest.length_lt    there are fewer edges than vertices

The last is the count behind union-find: a colouring whose colours are the
components loses one colour with every edge.
-/
import Mathlib.Combinatorics.SimpleGraph.Acyclic
import Mathlib.Tactic

namespace Frozen.Lib

variable {V : Type}

/-- The graph of an edge list. -/
def edgeGraph : List (V × V) → SimpleGraph V
  | [] => ⊥
  | p :: es => edgeGraph es ⊔ SimpleGraph.edge p.1 p.2

/-- Each edge joins two vertices that the older edges do not connect. -/
def Forest : List (V × V) → Prop
  | [] => True
  | p :: es => ¬ (edgeGraph es).Reachable p.1 p.2 ∧ Forest es

theorem edgeGraph_adj {a b : V} : ∀ {es : List (V × V)},
    (edgeGraph es).Adj a b ↔ ((a, b) ∈ es ∨ (b, a) ∈ es) ∧ a ≠ b
  | [] => by simp [edgeGraph]
  | (x, y) :: es => by
      rw [edgeGraph, SimpleGraph.sup_adj, SimpleGraph.edge_adj, @edgeGraph_adj a b es]
      simp only [List.mem_cons, Prod.mk.injEq]
      tauto

theorem Forest.of_suffix : ∀ {r es : List (V × V)}, r <:+ es → Forest es → Forest r
  | _, [], h, _ => by
      rw [List.suffix_nil.mp h]
      trivial
  | r, p :: es, h, hf => by
      rcases List.suffix_cons_iff.mp h with rfl | h
      · exact hf
      · exact Forest.of_suffix h hf.2

theorem Forest.isAcyclic : ∀ {es : List (V × V)}, Forest es → (edgeGraph es).IsAcyclic
  | [], _ => SimpleGraph.isAcyclic_bot
  | _ :: _, h =>
      SimpleGraph.IsAcyclic.sup_edge_of_not_reachable h.1 (Forest.isAcyclic h.2)

/-- The ends of an edge are not joined by an older edge. -/
theorem Forest.not_adj {es r : List (V × V)} {p : V × V} (h : Forest es)
    (hs : p :: r <:+ es) : ¬ (edgeGraph r).Adj p.1 p.2 := by
  intro hadj
  exact (Forest.of_suffix hs h).1 hadj.reachable

/-- A set that no edge leaves keeps its vertices apart from the rest. -/
theorem not_reachable_of_closed {G : SimpleGraph V} {S : Set V} {a b : V}
    (hclosed : ∀ x ∈ S, ∀ y, G.Adj x y → y ∈ S) (ha : a ∈ S) (hb : b ∉ S) :
    ¬ G.Reachable a b := by
  rintro ⟨q⟩
  induction q with
  | nil => exact hb ha
  | cons hadj _ ih => exact ih (hclosed _ ha _ hadj) hb

/-! ## Counting -/

/-- A colouring whose colour classes are connected, with as few colours as the
edges leave components. -/
theorem Forest.exists_colouring [DecidableEq V] (U : Finset V) :
    ∀ {es : List (V × V)}, Forest es → (∀ p ∈ es, p.1 ∈ U ∧ p.2 ∈ U) →
      ∃ c : V → V, (∀ a b, c a = c b → (edgeGraph es).Reachable a b) ∧
        (U.image c).card + es.length ≤ U.card
  | [], _, _ => ⟨id, fun a b hab => by rw [show a = b from hab], by simp⟩
  | (x, y) :: es, h, hU => by
      obtain ⟨c, hc, hcard⟩ :=
        Forest.exists_colouring U h.2 fun p hp => hU p (List.mem_cons_of_mem _ hp)
      have hxy : c x ≠ c y := fun heq => h.1 (hc x y heq)
      have hup : ∀ {a b}, c a = c b → (edgeGraph ((x, y) :: es)).Reachable a b :=
        fun heq => (hc _ _ heq).mono le_sup_left
      have hedge : (edgeGraph ((x, y) :: es)).Reachable x y := by
        refine SimpleGraph.Adj.reachable
          (edgeGraph_adj.mpr ⟨Or.inl List.mem_cons_self, ?_⟩)
        exact fun heq => hxy (congrArg c heq)
      -- repaint the component of `y` in the colour of `x`
      refine ⟨fun a => if c a = c y then c x else c a, ?_, ?_⟩
      · intro a b hab
        by_cases ha : c a = c y
        · by_cases hb : c b = c y
          · exact hup (ha.trans hb.symm)
          · simp only [if_pos ha, if_neg hb] at hab
            exact ((hup ha).trans hedge.symm).trans (hup hab)
        · by_cases hb : c b = c y
          · simp only [if_neg ha, if_pos hb] at hab
            exact ((hup hab).trans hedge).trans (hup hb.symm)
          · simp only [if_neg ha, if_neg hb] at hab
            exact hup hab
      · obtain ⟨hxU, hyU⟩ := hU (x, y) List.mem_cons_self
        have hsub : U.image (fun a => if c a = c y then c x else c a)
            ⊆ (U.image c).erase (c y) := by
          intro d hd
          obtain ⟨a, haU, rfl⟩ := Finset.mem_image.mp hd
          by_cases ha : c a = c y
          · simp only [if_pos ha]
            exact Finset.mem_erase.mpr ⟨hxy, Finset.mem_image_of_mem c hxU⟩
          · simp only [if_neg ha]
            exact Finset.mem_erase.mpr ⟨ha, Finset.mem_image_of_mem c haU⟩
        have hle := Finset.card_le_card hsub
        have hlost : ((U.image c).erase (c y)).card + 1 = (U.image c).card :=
          Finset.card_erase_add_one (Finset.mem_image_of_mem c hyU)
        rw [List.length_cons]
        omega

theorem Forest.length_lt [DecidableEq V] {U : Finset V} {es : List (V × V)}
    (h : Forest es) (hU : ∀ p ∈ es, p.1 ∈ U ∧ p.2 ∈ U) (hne : U.Nonempty) :
    es.length < U.card := by
  obtain ⟨c, -, hcard⟩ := Forest.exists_colouring U h hU
  have hpos : 0 < (U.image c).card := Finset.card_pos.mpr (hne.image c)
  omega

end Frozen.Lib
