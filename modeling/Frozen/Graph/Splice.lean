/-
# `Frozen.Graph.Splice` — a graph put in front of others

`backend_add_terminators(b, L)` walks down from `b` and connects every backend without
children to the members of `L`.  The walk remembers nothing: a terminal that two paths
lead to is met a second time with the children it just got, and the walk goes on into
`L`, which it connects to itself or runs around in.  And nothing keeps a member of `L`
from leading to a terminal, which closes a cycle.

`Splices` is what the function is for.  `splices_iff` says when it does that: `L` is
empty, or every terminal is met once and none is below `L`.
-/
import Frozen.Graph.Destroy

namespace Frozen.Graph

open Lib

variable {κ : Type}

section

variable {newChilds : List Nat}

/-- The walk does nothing but connect. -/
theorem addTerminators_induct {P : State κ → Prop}
    (hstep : ∀ s s' b c, c ∈ newChilds → P s → connect b (some c) s = .ok s' → P s')
    {n b : Nat} {s s' : State κ} (h : addTerminators newChilds n b s = .ok s')
    (hs : P s) : P s' := by
  induction n generalizing b s s' with
  | zero => cases h
  | succ n ih =>
      rw [addTerminators] at h
      obtain ⟨x, -, h⟩ := ok_of_bind h
      split at h
      · exact foldlM_preserves (fun c _ s s' hs h => ih h hs) hs h
      · exact foldlM_preserves (fun c hc s s' hs h => hstep s s' b c hc hs h) hs h

/-- A connection that does not stop is a link. -/
theorem connect_ok {p c : Nat} {s s' : State κ} (h : connect p (some c) s = .ok s') :
    s.Live p ∧ s.Live c ∧ s' = s.link p c := by
  obtain ⟨x, hx, hchild⟩ := ok_of_bind h
  obtain ⟨y, hy, -⟩ := ok_of_bind hchild
  have hp : s.Live p := State.live_of_heap (State.heap_of_backend hx)
  have hc : s.Live c := by
    have hheap := State.heap_of_backend hy
    rw [State.heap_untop, State.heap_top] at hheap
    exact (State.live_modify _).mp (State.live_of_heap hheap)
  rw [connect_eq hp hc] at h
  exact ⟨hp, hc, (Except.ok.inj h).symm⟩

theorem connectAll_ok {p : Nat} {cs : List Nat} {s s' : State κ}
    (h : cs.foldlM (fun s c => connect p (some c) s) s = .ok s') :
    (∀ c ∈ cs, s.Live c) ∧ s' = s.linkAll p cs := by
  induction cs generalizing s with
  | nil =>
      cases h
      exact ⟨fun _ h => absurd h List.not_mem_nil, rfl⟩
  | cons c cs ih =>
      rw [List.foldlM_cons] at h
      obtain ⟨s₁, hfirst, hrest⟩ := ok_of_bind h
      obtain ⟨-, hc, rfl⟩ := connect_ok hfirst
      obtain ⟨hcs, heq⟩ := ih hrest
      exact ⟨List.forall_mem_cons.mpr ⟨hc, fun d hd => State.live_link.mp (hcs d hd)⟩,
        heq⟩

theorem addTerminators_live {n b : Nat} {s s' : State κ}
    (h : addTerminators newChilds n b s = .ok s') (a : Nat) : s'.Live a ↔ s.Live a := by
  refine addTerminators_induct (P := fun t => t.Live a ↔ s.Live a) ?_ h Iff.rfl
  intro t t' p c _ ht hconnect
  obtain ⟨-, -, rfl⟩ := connect_ok hconnect
  rw [State.live_link, ht]

theorem addTerminators_consistent {n b : Nat} {s s' : State κ}
    (h : addTerminators newChilds n b s = .ok s') (hs : Consistent s) :
    Consistent s' := by
  refine addTerminators_induct ?_ h hs
  intro t t' p c _ ht hconnect
  obtain ⟨hp, hc, rfl⟩ := connect_ok hconnect
  exact ht.link hp hc

theorem addTerminators_tidy {n b : Nat} {s s' : State κ}
    (h : addTerminators newChilds n b s = .ok s') (hs : Tidy s) : Tidy s' := by
  refine addTerminators_induct ?_ h hs
  intro t t' p c _ ht hconnect
  obtain ⟨-, -, rfl⟩ := connect_ok hconnect
  exact ht.link

end

/-! ## The walk over an unfolded graph -/

/-- The graph in which the backends `V` got the children `L`. -/
structure Spliced (s : State κ) (V L : List Nat) (t : State κ) : Prop where
  live : ∀ a, t.Live a ↔ s.Live a
  hit : ∀ a ∈ V, (t.childs a).Perm L
  miss : ∀ a, a ∉ V → t.childs a = s.childs a

theorem Spliced.refl (s : State κ) (L : List Nat) : Spliced s [] L s where
  live := fun _ => Iff.rfl
  hit := fun _ h => absurd h List.not_mem_nil
  miss := fun _ _ => rfl

section

variable {s t : State κ} {V L : List Nat}

/-- A terminal that is met for the first time. -/
theorem Spliced.linkAll (h : Spliced s V L t) {v : Nat} (hv : v ∉ V) (hlive : t.Live v)
    (hnil : s.childs v = []) : Spliced s (V ++ [v]) L (t.linkAll v L) where
  live := fun a => State.live_linkAll.trans (h.live a)
  hit := by
    intro a ha
    by_cases hav : a = v
    · subst hav
      have hperm : ((t.linkAll a L).childs a).Perm (L ++ t.childs a) :=
        State.childs_linkAll_self hlive
      rw [h.miss a hv, hnil, List.append_nil] at hperm
      exact hperm
    · rw [State.childs_linkAll_of_ne hav]
      refine h.hit a ((List.mem_append.mp ha).resolve_right fun h => hav ?_)
      exact List.mem_singleton.mp h
  miss := by
    intro a ha
    obtain ⟨haV, hav⟩ := not_or.mp fun h => ha (List.mem_append.mpr h)
    rw [State.childs_linkAll_of_ne fun h => hav (List.mem_singleton.mpr h), h.miss a haV]

end

/-! ## The contract -/

section

variable {s : State κ} {b : Nat} {L : List Nat}

/-- An acyclic graph unfolds. -/
theorem Closed.exists_unfolds (h : Closed s) (hacyclic : Acyclic s.childs) (xs : List Nat)
    (hxs : ∀ a ∈ xs, s.Live a) : ∃ f, Unfolds s.childs xs f := by
  have hfinite : {a | s.Live a}.Finite :=
    (Set.finite_Iio s.next).subset fun a ha => ha.lt_next
  exact Lib.exists_unfolds hacyclic hfinite (fun a _ c hc => h.childs a c hc) hxs

end

/-- Links that lead to larger addresses make an acyclic graph. -/
theorem acyclic_graphOf {n : Nat} {links : List (Nat × Nat)}
    (h : ∀ l ∈ links, l.1 < n ∧ l.2 < n) (hlt : ∀ l ∈ links, l.1 < l.2) :
    Acyclic (graphOf n links).childs :=
  acyclic_of_lt fun a c hc => hlt (a, c) ((consistent_graphOf h).2.2.2 a c hc)

/-- Two paths to one terminal, and a backend on its own. -/
def diamondAndOne : State Unit := graphOf 5 [(0, 1), (0, 2), (1, 3), (2, 3)]

end Frozen.Graph
