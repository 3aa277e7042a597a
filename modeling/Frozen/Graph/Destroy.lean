/-
# `Frozen.Graph.Destroy` — a backend is destroyed with all it leads to

`backend_destroy` drops a reference and, when it was the last one, destroys the
children, takes the backend out of the lists of its parents and frees it.  Two slips
make this unsafe in general: a child that is still referenced stays, with the freed
backend among its parents; and the loop over the parents pops one and has
`backend_disconnect` delete a second, so a parent that is there twice keeps one link to
the freed backend.

`Doomed` describes the graphs where neither happens: below the backend nobody else holds
a reference, no link is double, and there is no cycle.  There `destroy` returns, and
`Prunes` says what it leaves: the survivors as they were, less the links to the dead.
-/
import Frozen.Lib.Fuel
import Frozen.Lib.Unfold
import Frozen.Graph.Loop

namespace Frozen.Graph

open Lib

variable {κ : Type}

/-! ## Reachability -/

/-- There is a path of child links. -/
abbrev State.Reaches (s : State κ) : Nat → Nat → Prop := Path s.childs

/-! ## Graphs that only lost links -/

/-- Every backend of `s'` was in `s`, with the same parents and references and no fewer
children. -/
def Shrinks (s s' : State κ) : Prop :=
  ∀ a x', s'.heap a = some x' → ∃ x, s.heap a = some x ∧ x'.refs = x.refs ∧
    x'.parents = x.parents ∧ x'.childs.items ⊆ x.childs.items

theorem Shrinks.childs_subset {s s' : State κ} (h : Shrinks s s') (a : Nat) :
    s'.childs a ⊆ s.childs a := by
  cases hx' : s'.heap a with
  | none =>
      rw [State.childs_of_none hx']
      exact List.nil_subset _
  | some x' =>
      obtain ⟨x, hx, -, -, hsub⟩ := h a x' hx'
      rw [State.childs_of_heap hx', State.childs_of_heap hx]
      exact hsub

theorem Shrinks.reaches {s s' : State κ} (h : Shrinks s s') {a b : Nat}
    (hr : s'.Reaches a b) :
    s.Reaches a b :=
  Relation.ReflTransGen.mono (fun a _ hb => h.childs_subset a hb) _ _ hr

/-- The backend and all below it, to a depth below `n`, have one reference and no double
link to a parent. -/
def Doomed (s : State κ) : Nat → Nat → Prop
  | 0, _ => False
  | n + 1, b => ∃ x, s.heap b = some x ∧ x.refs = 1 ∧ x.parents.items.Nodup ∧
      ∀ c ∈ x.childs.items, Doomed s n c

theorem Doomed.mono {s : State κ} {n m b : Nat} (hb : Doomed s n b) (hle : n ≤ m) :
    Doomed s m b := by
  induction n generalizing m b with
  | zero => exact hb.elim
  | succ n ih =>
      obtain ⟨x, hx, hrefs, hnodup, hchilds⟩ := hb
      cases m with
      | zero => omega
      | succ m => exact ⟨x, hx, hrefs, hnodup, fun c hc => ih (hchilds c hc) (by omega)⟩

theorem Doomed.of_shrinks {s s' : State κ} (h : Shrinks s s') (hclosed : Closed s')
    {n b : Nat} (hb : Doomed s n b) (hlive : s'.Live b) : Doomed s' n b := by
  induction n generalizing b with
  | zero => exact hb.elim
  | succ n ih =>
      obtain ⟨x, hx, hrefs, hnodup, hchilds⟩ := hb
      obtain ⟨x', hx'⟩ := State.live_iff.mp hlive
      obtain ⟨y, hy, hrefs', hparents', hsub⟩ := h b x' hx'
      obtain rfl : y = x := Option.some.inj (hy.symm.trans hx)
      refine ⟨x', hx', hrefs'.trans hrefs, by rw [hparents']; exact hnodup,
        fun c hc => ?_⟩
      refine ih (hchilds c (hsub hc)) (hclosed.childs b c ?_)
      rw [State.childs_of_heap hx']
      exact hc

theorem Doomed.of_reaches {s : State κ} {n b a : Nat} (hb : Doomed s n b)
    (h : s.Reaches b a) : ∃ m, m ≤ n ∧ Doomed s m a := by
  induction h with
  | refl => exact ⟨n, le_refl n, hb⟩
  | tail _ hchild ih =>
      obtain ⟨m, hle, hm⟩ := ih
      cases m with
      | zero => exact hm.elim
      | succ m =>
          obtain ⟨x, hx, -, -, hchilds⟩ := hm
          rw [State.childs_of_heap hx] at hchild
          exact ⟨m, by omega, hchilds _ hchild⟩

/-- No cycle leads back to a doomed backend. -/
theorem Doomed.not_reaches {s : State κ} {n b d : Nat} (hb : Doomed s n b)
    (hd : d ∈ s.childs b) : ¬ s.Reaches d b := by
  intro hr
  induction n with
  | zero => exact hb
  | succ n ih =>
      refine ih ?_
      obtain ⟨x, hx, -, -, hchilds⟩ := hb
      rw [State.childs_of_heap hx] at hd
      obtain ⟨m, hle, hm⟩ := (hchilds d hd).of_reaches hr
      exact hm.mono hle

/-- Only what it leads to matters. -/
theorem Doomed.congr {s s' : State κ} {n b : Nat} (hb : Doomed s n b)
    (h : ∀ a, s.Reaches b a → s'.heap a = s.heap a) : Doomed s' n b := by
  induction n generalizing b with
  | zero => exact hb
  | succ n ih =>
      obtain ⟨x, hx, hrefs, hnodup, hchilds⟩ := hb
      refine ⟨x, (h b .refl).trans hx, hrefs, hnodup,
        fun c hc => ih (hchilds c hc) fun a ha => h a ?_⟩
      refine .head ?_ ha
      rw [State.childs_of_heap hx]
      exact hc

/-- What a destruction leaves: the survivors, less the links to the dead. -/
structure Prunes (s s' : State κ) : Prop where
  next : s'.next = s.next
  kept : ∀ a x', s'.heap a = some x' → ∃ x, s.heap a = some x ∧
  x' = { x with childs := x'.childs } ∧
    x'.childs.items = x.childs.items.filter (fun c => s'.Live c) ∧
    ((∀ c ∈ x.childs.items, s'.Live c) → x' = x)
  /-- the parents of a survivor survive -/
  parents : ∀ a, s'.Live a → ∀ p ∈ s.parents a, s'.Live p
  tops : ∃ T : Nat → Bool, s'.tops.items = s.tops.items.filter T ∧
    (∀ t ∈ s.tops.items, T t = true → s'.Live t) ∧
    ∀ t, s'.Live t → (∀ c, t ∈ s.parents c → s'.Live c) → T t = true
  names : s'.names.items = s.names.items.filter fun a => s'.Live a

namespace Prunes

variable {s s' s'' : State κ}

theorem live (h : Prunes s s') {a : Nat} (ha : s'.Live a) : s.Live a := by
  obtain ⟨x', hx'⟩ := State.live_iff.mp ha
  obtain ⟨x, hx, -⟩ := h.kept a x' hx'
  exact State.live_of_heap hx

theorem shrinks (h : Prunes s s') : Shrinks s s' := by
  intro a x' hx'
  obtain ⟨x, hx, heq, hitems, -⟩ := h.kept a x' hx'
  refine ⟨x, hx, by rw [heq], by rw [heq], ?_⟩
  rw [hitems]
  exact List.filter_subset_self _

theorem parents_eq (h : Prunes s s') {a : Nat} (ha : s'.Live a) :
    s'.parents a = s.parents a := by
  obtain ⟨x', hx'⟩ := State.live_iff.mp ha
  obtain ⟨x, hx, -, hparents, -⟩ := h.shrinks a x' hx'
  rw [State.parents_of_heap hx', State.parents_of_heap hx, hparents]

theorem childs_eq (h : Prunes s s') {a : Nat} (ha : s'.Live a) :
    s'.childs a = (s.childs a).filter fun c => s'.Live c := by
  obtain ⟨x', hx'⟩ := State.live_iff.mp ha
  obtain ⟨x, hx, -, hitems, -⟩ := h.kept a x' hx'
  rw [State.childs_of_heap hx', State.childs_of_heap hx, hitems]

theorem count_childs (h : Prunes s s') {p c : Nat} (hp : s'.Live p) (hc : s'.Live c) :
    (s'.childs p).count c = (s.childs p).count c := by
  rw [h.childs_eq hp]
  exact List.count_filter (by simpa using hc)

theorem refl (h : Closed s) : Prunes s s where
  next := rfl
  kept := by
    intro a x hx
    refine ⟨x, hx, rfl, ?_, fun _ => rfl⟩
    rw [List.filter_eq_self.mpr]
    intro c hc
    rw [decide_eq_true_eq]
    refine h.childs a c ?_
    rw [State.childs_of_heap hx]
    exact hc
  parents := fun a _ p hp => h.parents a p hp
  tops := by
    refine ⟨fun _ => true, (List.filter_true _).symm, fun t ht _ => h.tops t ht,
      fun _ _ _ => rfl⟩
  names := by
    rw [List.filter_eq_self.mpr]
    intro a ha
    rw [decide_eq_true_eq]
    exact h.names a ha

/-- Filtering the survivors of two prunings is filtering those of the second. -/
theorem filter_filter (h : Prunes s' s'') (l : List Nat) :
    (l.filter fun c => s'.Live c).filter (fun c => s''.Live c) = l.filter fun c =>
      s''.Live c := by
  rw [List.filter_filter]
  refine List.filter_congr fun c _ => ?_
  by_cases hc : s''.Live c
  · simp [hc, h.live hc]
  · simp [hc]

theorem trans (h : Prunes s s') (h' : Prunes s' s'') : Prunes s s'' where
  next := h'.next.trans h.next
  kept := by
    intro a x'' hx''
    obtain ⟨x', hx', heq', hitems', hsame'⟩ := h'.kept a x'' hx''
    obtain ⟨x, hx, heq, hitems, hsame⟩ := h.kept a x' hx'
    refine ⟨x, hx, ?_, ?_, fun hall => ?_⟩
    · rw [heq', heq]
    · rw [hitems', hitems, h'.filter_filter]
    · obtain rfl := hsame fun c hc => h'.live (hall c hc)
      exact hsame' hall
  parents := by
    intro a ha p hp
    rw [← h.parents_eq (h'.live ha)] at hp
    exact h'.parents a ha p hp
  tops := by
    obtain ⟨T, hT, hdead, hkeep⟩ := h.tops
    obtain ⟨T', hT', hdead', hkeep'⟩ := h'.tops
    refine ⟨fun t => T' t && T t, ?_, fun t ht hTt => ?_, fun t ht hall => ?_⟩
    · rw [hT', hT, List.filter_filter]
    · obtain ⟨h₁, h₂⟩ := (Bool.and_eq_true _ _).mp hTt
      refine hdead' t ?_ h₁
      rw [hT]
      exact List.mem_filter.mpr ⟨ht, h₂⟩
    · refine (Bool.and_eq_true _ _).mpr
        ⟨hkeep' t ht fun c hc => ?_, hkeep t (h'.live ht) fun c hc => ?_⟩
      · rw [h.parents_eq (State.live_of_mem_parents hc)] at hc
        exact hall c hc
      · exact h'.live (hall c hc)
  names := by rw [h'.names, h.names, h'.filter_filter]

end Prunes

/-! ## While a destruction runs -/

/-- What holds while backends are being destroyed: one that is (`refs = 0`) has popped
children that still name it as a parent. -/
structure Sound (s : State κ) : Prop extends Closed s, Tidy s where
  half : ∀ p c, s.Live p → s.Live c → (s.childs p).count c ≤ (s.parents c).count p
  back : ∀ p x, s.heap p = some x → x.refs ≠ 0 → ∀ a, p ∈ s.parents a → a ∈ s.childs p

theorem Sound.of_consistent {s : State κ} (h : Consistent s) (ht : Tidy s) : Sound s where
  toClosed := h.toClosed
  toTidy := ht
  half := fun p c hp hc => (h.links p c hp hc).le
  back := by
    intro p x hx _ a ha
    rw [← List.count_pos_iff,
      h.links p a (State.live_of_heap hx) (State.live_of_mem_parents ha),
      List.count_pos_iff]
    exact ha

theorem Prunes.closed {s s' : State κ} (hp : Prunes s s') : Closed s' where
  childs := by
    intro a c hc
    rw [hp.childs_eq (State.live_of_mem_childs hc)] at hc
    exact of_decide_eq_true (List.mem_filter.mp hc).2
  parents := by
    intro a p hmem
    have ha := State.live_of_mem_parents hmem
    rw [hp.parents_eq ha] at hmem
    exact hp.parents a ha p hmem
  tops := by
    intro a ha
    obtain ⟨T, hT, hdead, -⟩ := hp.tops
    rw [hT] at ha
    obtain ⟨hmem, hTa⟩ := List.mem_filter.mp ha
    exact hdead a hmem hTa
  names := by
    intro a ha
    rw [hp.names] at ha
    exact of_decide_eq_true (List.mem_filter.mp ha).2

theorem Tidy.prunes {s s' : State κ} (h : Tidy s) (hp : Prunes s s') : Tidy s' where
  tops_nodup := by
    obtain ⟨T, hT, -⟩ := hp.tops
    rw [hT]
    exact h.tops_nodup.filter T
  tops_root := by
    intro a ha
    rw [hp.parents_eq (hp.closed.tops a ha)]
    obtain ⟨T, hT, -⟩ := hp.tops
    rw [hT] at ha
    exact h.tops_root a (List.mem_filter.mp ha).1
  names_nodup := by
    rw [hp.names]
    exact h.names_nodup.filter _
  named := by
    intro a ha x' hx'
    obtain ⟨x, hx, heq, -⟩ := hp.kept a x' hx'
    rw [hp.names] at ha
    rw [heq]
    exact h.named a (List.mem_filter.mp ha).1 x hx

theorem Consistent.prunes {s s' : State κ} (h : Consistent s) (hp : Prunes s s') :
    Consistent s' where
  toClosed := hp.closed
  links := by
    intro p c hlp hlc
    rw [hp.count_childs hlp hlc, hp.parents_eq hlc]
    exact h.links p c (hp.live hlp) (hp.live hlc)

theorem Sound.prunes {s s' : State κ} (h : Sound s) (hp : Prunes s s') : Sound s' where
  toClosed := hp.closed
  toTidy := h.toTidy.prunes hp
  half := by
    intro p c hlp hlc
    rw [hp.count_childs hlp hlc, hp.parents_eq hlc]
    exact h.half p c (hp.live hlp) (hp.live hlc)
  back := by
    intro p x' hx' hrefs a ha
    have hla := State.live_of_mem_parents ha
    rw [hp.parents_eq hla] at ha
    obtain ⟨x, hx, heq, -⟩ := hp.shrinks p x' hx'
    rw [hp.childs_eq (State.live_of_heap hx')]
    exact List.mem_filter.mpr ⟨h.back p x hx (heq ▸ hrefs) a ha, decide_eq_true hla⟩

section

variable {s : State κ} {b : Nat} {x : Backend κ} {f : Backend κ → Backend κ}

/-- The parents and names of a graph in which one backend changed its children. -/
theorem State.parents_modify (hx : s.heap b = some x)
    (hparents : (f x).parents = x.parents) (a : Nat) :
    (s.modify b f).parents a = s.parents a := by
  by_cases ha : a = b
  · subst ha
    rw [parents_of_heap (heap_modify_self f hx), parents_of_heap hx, hparents]
  · unfold parents
    rw [heap_modify_of_ne f ha]

theorem State.childs_modify_of_ne {a : Nat} (ha : a ≠ b) :
    (s.modify b f).childs a = s.childs a := by
  unfold childs
  rw [heap_modify_of_ne f ha]

theorem State.childs_modify_self (hx : s.heap b = some x) :
    (s.modify b f).childs b = (f x).childs.items := childs_of_heap (heap_modify_self f hx)

theorem Tidy.modify (h : Tidy s) (hx : s.heap b = some x)
    (hparents : (f x).parents = x.parents) (hname : (f x).name = x.name) :
    Tidy (s.modify b f) where
  tops_nodup := h.tops_nodup
  tops_root := by
    intro a ha
    rw [State.parents_modify hx hparents]
    exact h.tops_root a ha
  names_nodup := h.names_nodup
  named := by
    intro a ha y hy
    by_cases hab : a = b
    · subst hab
      obtain rfl := Option.some.inj ((State.heap_modify_self f hx).symm.trans hy)
      rw [hname]
      exact h.named a ha x hx
    · rw [State.heap_modify_of_ne f hab] at hy
      exact h.named a ha y hy

theorem Closed.modify (h : Closed s) (hx : s.heap b = some x)
    (hparents : (f x).parents = x.parents)
    (hchilds : (f x).childs.items ⊆ x.childs.items) : Closed (s.modify b f) where
  childs := by
    intro a c hc
    rw [State.live_modify]
    by_cases hab : a = b
    · subst hab
      rw [State.childs_modify_self hx] at hc
      refine h.childs a c ?_
      rw [State.childs_of_heap hx]
      exact hchilds hc
    · rw [State.childs_modify_of_ne hab] at hc
      exact h.childs a c hc
  parents := by
    intro a p hp
    rw [State.parents_modify hx hparents] at hp
    rw [State.live_modify]
    exact h.parents a p hp
  tops := fun a ha => (State.live_modify _).mpr (h.tops a ha)
  names := fun a ha => (State.live_modify _).mpr (h.names a ha)

/-- A backend that is being destroyed may lose children. -/
theorem Sound.modify (h : Sound s) (hx : s.heap b = some x)
    (hparents : (f x).parents = x.parents) (hname : (f x).name = x.name)
    (hchilds : (f x).childs.items.Sublist x.childs.items) (hrefs : (f x).refs = 0) :
    Sound (s.modify b f) where
  toClosed := h.toClosed.modify hx hparents hchilds.subset
  toTidy := h.toTidy.modify hx hparents hname
  half := by
    intro p c hp hc
    rw [State.live_modify] at hp hc
    rw [State.parents_modify hx hparents]
    by_cases hpb : p = b
    · subst hpb
      rw [State.childs_modify_self hx]
      refine (hchilds.count_le c).trans ?_
      rw [← State.childs_of_heap hx]
      exact h.half p c hp hc
    · rw [State.childs_modify_of_ne hpb]
      exact h.half p c hp hc
  back := by
    intro p y hy hne a ha
    rw [State.parents_modify hx hparents] at ha
    by_cases hpb : p = b
    · subst hpb
      obtain rfl := Option.some.inj ((State.heap_modify_self f hx).symm.trans hy)
      exact absurd hrefs hne
    · rw [State.heap_modify_of_ne f hpb] at hy
      rw [State.childs_modify_of_ne hpb]
      exact h.back p y hy hne a ha

end

/-! ## Out of the lists of the parents -/

/-- The graph after the loop over the parents `ps` of `b`. -/
structure Dropped (s : State κ) (b : Nat) (ps : List Nat) (s' : State κ) : Prop where
  next : s'.next = s.next
  names : s'.names = s.names
  heap : ∀ a, a ≠ b → s'.heap a = (s.heap a).map fun x =>
    { x with childs := if a ∈ ps then x.childs.delete (some b) else x.childs }
  self : ∀ x', s'.heap b = some x' → ∃ x, s.heap b = some x ∧ x'.name = x.name
  live : s'.Live b
  tops_nodup : s'.tops.items.Nodup
  tops : s'.tops.items.filter (fun t => t ≠ b) = s.tops.items.filter fun t =>
    t ≠ b ∧ t ∉ ps

/-- One round: the parent is popped, and the link to `b` deleted. -/
theorem Dropped.cons {s s' : State κ} {b p : Nat} {x : Backend κ} {l : Slots Nat}
    {ps : List Nat} (hx : s.heap b = some x) (hp : p ∉ ps) (ht : s.tops.items.Nodup)
    (h : Dropped ((s.modify b fun x => x.put l .parents).unlink p b) b ps s') :
    Dropped s b (p :: ps) s' where
  next := by
    rw [h.next, State.next_unlink]
    rfl
  names := by
    rw [h.names, State.names_unlink]
    rfl
  heap := by
    intro a ha
    rw [h.heap a ha, State.heap_unlink, State.heap_modify_of_ne _ ha]
    cases s.heap a with
    | none => rfl
    | some y =>
        simp only [Option.map_some, Option.some.injEq, if_neg ha]
        by_cases hap : a = p
        · subst hap
          simp [hp]
        · simp [hap]
  self := by
    intro x' hx'
    obtain ⟨y, hy, hname⟩ := h.self x' hx'
    obtain ⟨z, hz, hname'⟩ := State.name_of_unlink hy
    obtain rfl := Option.some.inj ((State.heap_modify_self _ hx).symm.trans hz)
    exact ⟨x, hx, hname.trans hname'.symm⟩
  live := h.live
  tops_nodup := h.tops_nodup
  tops := by
    have htops : ∀ K : Nat → Bool, K b = false →
        ((s.modify b fun x => x.put l .parents).unlink p b).tops.items.filter K
          = (s.tops.items.erase p).filter K := by
      intro K hK
      rw [State.unlink, State.filter_tops_top hK, ← Slots.items_delete]
      rfl
    rw [h.tops, htops _ (by simp), ht.erase_eq_filter, List.filter_filter]
    refine List.filter_congr fun t _ => ?_
    by_cases htp : t = p
    · simp [htp]
    · simp [htp]

/-- A backend without parents. -/
theorem Dropped.nil {s : State κ} {b : Nat} (hb : s.Live b) (ht : s.tops.items.Nodup) :
    Dropped s b [] s where
  next := rfl
  names := rfl
  heap := by
    intro a _
    simp
  self := fun x' hx' => ⟨x', hx', rfl⟩
  live := hb
  tops_nodup := ht
  tops := by simp

theorem whilePop_parents {b : Nat} (ps : List Nat) :
    ∀ s : State κ, s.parents b = ps → ps.Nodup →
    s.Live b → (∀ p ∈ ps, s.Live p) → s.tops.items.Nodup →
      ∃ s', (∀ n, ps.length < n →
          whilePop .parents (fun curr => disconnect curr (some b)) b n s = .ok s') ∧
        Dropped s b ps s' := by
  induction ps with
  | nil =>
      intro s hps _ hb _ ht
      obtain ⟨x, hx⟩ := State.live_iff.mp hb
      rw [State.parents_of_heap hx] at hps
      refine ⟨s, fun n hn => ?_, .nil hb ht⟩
      obtain ⟨n, rfl⟩ := Nat.exists_eq_succ_of_ne_zero (by omega : n ≠ 0)
      exact whilePop_nil _ _ hx hps
  | cons p ps ih =>
      intro s hps hnodup hb hlive ht
      obtain ⟨x, hx⟩ := State.live_iff.mp hb
      obtain ⟨hp, hnodup'⟩ := List.nodup_cons.mp hnodup
      have hitems : (x.list .parents).items = p :: ps :=
        (State.parents_of_heap hx).symm.trans hps
      let s₁ := s.modify b fun y => y.put (x.list .parents).pop.2 .parents
      have hlive₁ : ∀ a, s₁.Live a ↔ s.Live a := fun a => State.live_modify _
      have hps₁ : s₁.parents b = ps := by
        rw [State.parents_of_heap (State.heap_modify_self _ hx)]
        change (x.list .parents).pop.2.items = ps
        rw [Slots.items_pop, hitems]
        rfl
      have hps₂ : (s₁.unlink p b).parents b = ps := by
        rw [State.parents_unlink_self, hps₁, List.erase_of_not_mem hp]
      obtain ⟨s', hrun, hdropped⟩ := ih (s₁.unlink p b) hps₂ hnodup'
        (State.live_unlink.mpr ((hlive₁ b).mpr hb))
        (fun q hq => State.live_unlink.mpr
          ((hlive₁ q).mpr (hlive q (List.mem_cons_of_mem p hq))))
        (State.nodup_tops_unlink ht)
      refine ⟨s', fun n hn => ?_, hdropped.cons hx hp ht⟩
      obtain ⟨n, rfl⟩ := Nat.exists_eq_succ_of_ne_zero (by omega : n ≠ 0)
      rw [whilePop_cons _ _ hx hitems,
        disconnect_eq ((hlive₁ p).mpr (hlive p (List.mem_cons_self ..)))
        ((hlive₁ b).mpr hb)]
      exact hrun n (by rw [List.length_cons] at hn; omega)

/-- The graph after `freeSkeleton`. -/
structure Freed (s : State κ) (b : Nat) (s' : State κ) : Prop where
  next : s'.next = s.next
  heap : ∀ a, s'.heap a = if a = b then none else s.heap a
  tops : s'.tops.items = s.tops.items.erase b
  names : ∀ x, s.heap b = some x →
    s'.names.items = if x.name.isSome then s.names.items.erase b else s.names.items

theorem freeSkeleton_eq {s : State κ} {b : Nat} (hb : s.Live b) :
    ∃ s', freeSkeleton b s = .ok s' ∧ Freed s b s' := by
  obtain ⟨x, hx⟩ := State.live_iff.mp hb
  have hx' : (s.untop b).heap b = some x := hx
  refine ⟨_, by simp only [freeSkeleton, State.backend_of_heap hx']; rfl, ?_⟩
  refine ⟨?_, fun a => ?_, ?_, fun y hy => ?_⟩
  · simp only [State.free]
    split <;> rfl
  · simp only [State.free]
    split
    · rfl
    · split <;> rfl
  · rw [← Slots.items_delete]
    simp only [State.free]
    split <;> rfl
  · obtain rfl := Option.some.inj (hx.symm.trans hy)
    simp only [State.free]
    split
    · exact Slots.items_delete b _
    · rfl

theorem Freed.live {s s' : State κ} {b a : Nat} (h : Freed s b s') :
    s'.Live a ↔ s.Live a ∧ a ≠ b := by
  unfold State.Live
  rw [h.heap]
  split
  · rename_i hab
    simp [hab]
  · rename_i hab
    simp [hab]

/-- A link that is there at most once is deleted with all its copies. -/
theorem erase_eq_filter_of_count_le {l : List Nat} {a : Nat} (h : l.count a ≤ 1) :
    l.erase a = l.filter fun c => c ≠ a := by
  induction l with
  | nil => rfl
  | cons c l ih =>
      by_cases hc : c = a
      · subst hc
        rw [List.count_cons_self] at h
        have hnot : c ∉ l := List.count_eq_zero.mp (by omega)
        rw [List.erase_cons_head, List.filter_cons, if_neg (by simp),
          List.filter_eq_self.mpr]
        intro d hd
        simpa using fun h : d = c => hnot (h ▸ hd)
      · rw [List.count_cons_of_ne hc] at h
        rw [List.erase_cons_tail (by simpa using hc), List.filter_cons,
          if_pos (by simpa using hc), ih h]

/-- The last steps of a destruction, from a graph where no child names the backend. -/
theorem prunes_of_freed {s s' s'' : State κ} {b : Nat} (hs : Sound s)
    (hnodup : (s.parents b).Nodup) (hleaf : ∀ a, a ≠ b → b ∉ s.parents a)
    (hd : Dropped s b (s.parents b) s') (hf : Freed s' b s'') :
    Prunes s s'' ∧ ∀ a, s''.Live a ↔ s.Live a ∧ a ≠ b := by
  have hlive : ∀ a, s''.Live a ↔ s.Live a ∧ a ≠ b := by
    intro a
    rw [hf.live]
    refine and_congr_left fun ha => ?_
    unfold State.Live
    rw [hd.heap a ha, Option.isSome_map]
  obtain ⟨x', hx'⟩ := State.live_iff.mp hd.live
  obtain ⟨x, hx, hname⟩ := hd.self x' hx'
  have hcount : ∀ a, s.Live a → (s.childs a).count b ≤ (s.parents b).count a :=
    fun a ha => hs.half a b ha (State.live_of_heap hx)
  -- the survivors among backends that are there are all but `b`
  have hfilter : ∀ l : List Nat, (∀ c ∈ l, s.Live c) →
      l.filter (fun c => s''.Live c) = l.filter fun c => c ≠ b := by
    intro l hl
    refine List.filter_congr fun c hc => ?_
    simp [hlive, hl c hc]
  refine ⟨⟨hf.next.trans hd.next, ?_, ?_, ?_, ?_⟩, hlive⟩
  · intro a y' hy'
    have hab : a ≠ b := ((hlive a).mp (State.live_of_heap hy')).2
    rw [hf.heap, if_neg hab, hd.heap a hab] at hy'
    obtain ⟨y, hy, rfl⟩ := Option.map_eq_some_iff.mp hy'
    have hchilds := State.childs_of_heap hy
    have hla := State.live_of_heap hy
    refine ⟨y, hy, rfl, ?_, fun hall => ?_⟩
    · rw [← hchilds, hfilter _ (hs.childs a)]
      by_cases hmem : a ∈ s.parents b
      · rw [if_pos hmem, Slots.items_delete, ← hchilds]
        exact erase_eq_filter_of_count_le
          ((hcount a hla).trans (List.nodup_iff_count_le_one.mp hnodup a))
      · have hnot : b ∉ s.childs a := by
          have hle := hcount a hla
          rw [List.count_eq_zero.mpr hmem] at hle
          exact List.count_eq_zero.mp (by omega)
        rw [if_neg hmem, ← hchilds, List.filter_eq_self.mpr]
        intro c hc
        simpa using fun h : c = b => hnot (h ▸ hc)
    · have hnot : b ∉ y.childs.items := fun hb => ((hlive b).mp (hall b hb)).2 rfl
      rw [Slots.delete_of_notMem hnot, ite_self]
  · intro a ha p hp
    have hab := ((hlive a).mp ha).2
    refine (hlive p).mpr ⟨hs.parents a p hp, fun hpb => ?_⟩
    exact hleaf a hab (hpb ▸ hp)
  · refine ⟨fun t => t ≠ b ∧ t ∉ s.parents b, ?_, fun t ht hT => ?_, fun t ht hall => ?_⟩
    · rw [hf.tops, hd.tops_nodup.erase_eq_filter, ← hd.tops]
      refine List.filter_congr fun t _ => ?_
      by_cases htb : t = b <;> simp [htb]
    · exact (hlive t).mpr ⟨hs.tops t ht, (of_decide_eq_true hT).1⟩
    · refine decide_eq_true ⟨((hlive t).mp ht).2, fun hmem => ?_⟩
      exact ((hlive b).mp (hall b hmem)).2 rfl
  · rw [hf.names x' hx', hname, hd.names, hfilter _ hs.names]
    split
    · exact erase_eq_filter_of_count_le (List.nodup_iff_count_le_one.mp hs.names_nodup b)
    · rename_i hnone
      rw [List.filter_eq_self.mpr]
      intro a ha
      refine decide_eq_true fun hab => hnone ?_
      subst hab
      exact hs.named a ha x hx

/-- A backend without links is freed. -/
theorem freeSkeleton_leaf {s : State κ} {b : Nat} (hs : Consistent s) (ht : Tidy s)
    (hb : s.Live b) (hchilds : s.childs b = []) (hparents : s.parents b = []) :
    ∃ s', freeSkeleton b s = .ok s' ∧ Freed s b s' ∧ Prunes s s' ∧ ∀ a, s'.Live a ↔
      s.Live a ∧ a ≠ b := by
  have hleaf : ∀ a, b ∉ s.parents a := by
    intro a ha
    have hpos := List.count_pos_iff.mpr ha
    rw [← hs.links b a hb (State.live_of_mem_parents ha), hchilds] at hpos
    exact absurd hpos (lt_irrefl 0)
  obtain ⟨s', hfree, hfreed⟩ := freeSkeleton_eq hb
  have hdropped : Dropped s b (s.parents b) s := by
    rw [hparents]
    exact .nil hb ht.tops_nodup
  obtain ⟨hprunes, hlive⟩ := prunes_of_freed (.of_consistent hs ht)
    (by rw [hparents]; exact List.nodup_nil) (fun a _ => hleaf a) hdropped hfreed
  exact ⟨s', hfree, hfreed, hprunes, hlive⟩

/-! ## The recursion -/

/-- A change of one backend before a pruning, if it is not seen behind it. -/
theorem Prunes.of_modify {s s' : State κ} {b : Nat} {x : Backend κ}
    {f : Backend κ → Backend κ} (hp : Prunes (s.modify b f) s')
    (hx : s.heap b = some x) (hparents : (f x).parents = x.parents)
    (hself : ∀ x', s'.heap b = some x' → x' = { x with childs := x'.childs } ∧
      x'.childs.items = x.childs.items.filter (fun c => s'.Live c) ∧
      ((∀ c ∈ x.childs.items, s'.Live c) → x' = x)) :
    Prunes s s' where
  next := hp.next
  kept := by
    intro a x' hx'
    by_cases hab : a = b
    · subst hab
      exact ⟨x, hx, hself x' hx'⟩
    · obtain ⟨y, hy, hkept⟩ := hp.kept a x' hx'
      rw [State.heap_modify_of_ne f hab] at hy
      exact ⟨y, hy, hkept⟩
  parents := by
    intro a ha p hmem
    rw [← State.parents_modify hx hparents] at hmem
    exact hp.parents a ha p hmem
  tops := by
    obtain ⟨T, hT, hdead, hkeep⟩ := hp.tops
    refine ⟨T, hT, hdead, fun t ht hall => hkeep t ht fun c hc => hall c ?_⟩
    rw [← State.parents_modify hx hparents]
    exact hc
  names := hp.names

/-- The first child is popped and destroyed. -/
theorem Prunes.of_pop {s s' : State κ} {b d : Nat} {x : Backend κ} {l : Slots Nat}
    (hx : s.heap b = some x) (hitems : x.childs.items = d :: l.items)
    (hp : Prunes (s.modify b fun y => y.put l .childs) s') (hd : ¬ s'.Live d) :
    Prunes s s' := by
  refine hp.of_modify hx rfl fun x' hx' => ?_
  obtain ⟨y, hy, heq, hfilter, -⟩ := hp.kept b x' hx'
  obtain rfl := Option.some.inj ((State.heap_modify_self _ hx).symm.trans hy)
  refine ⟨heq, ?_, fun hall => ?_⟩
  · rw [hfilter, hitems, List.filter_cons, if_neg (by simpa using hd)]
    rfl
  · exact absurd (hall d (by rw [hitems]; exact List.mem_cons_self ..)) hd

/-- What `destroy d` does to the graph when the backend goes. -/
structure Destroys (s : State κ) (d : Nat) (s' : State κ) : Prop where
  prunes : Prunes s s'
  dead : ¬ s'.Live d
  spares : ∀ a, s.Live a → ¬ s.Reaches d a → s'.Live a

/-- What the loop over the children of a dying backend does. -/
structure Empties (s : State κ) (b : Nat) (s' : State κ) : Prop where
  prunes : Prunes s s'
  childs : s'.childs b = []
  spares : ∀ a, s.Live a → (∀ d ∈ s.childs b, ¬ s.Reaches d a) → s'.Live a

theorem shrinks_put {s : State κ} {b : Nat} {x : Backend κ} {l : Slots Nat}
    (hx : s.heap b = some x) (hsub : l.items ⊆ x.childs.items) :
    Shrinks s (s.modify b fun y => y.put l .childs) := by
  intro a x' hx'
  by_cases hab : a = b
  · subst hab
    obtain rfl := Option.some.inj ((State.heap_modify_self _ hx).symm.trans hx')
    exact ⟨x, hx, rfl, rfl, hsub⟩
  · rw [State.heap_modify_of_ne _ hab] at hx'
    exact ⟨x', hx', rfl, rfl, List.Subset.refl _⟩

/-- The loop ends when no children are left. -/
theorem Empties.nil {s : State κ} {b : Nat} (hs : Sound s) (hnil : s.childs b = []) :
    Empties s b s where
  prunes := .refl hs.toClosed
  childs := hnil
  spares := fun _ ha _ => ha

/-- **The loop over the children.**  By induction on how many there are; every round
destroys one at least. -/
theorem whilePop_childs {n : Nat}
    (hdestroy : ∀ (s : State κ) (d : Nat), Sound s → Doomed s n d →
      ∃ s', Returns (fun m => destroy m d s) s' ∧ Destroys s d s')
    {b : Nat} (k : Nat) : ∀ (s : State κ) (x : Backend κ), x.childs.items.length < k →
      s.heap b = some x → x.refs = 0 → Sound s → (∀ d ∈ x.childs.items, Doomed s n d) →
      (∀ a, b ∈ s.parents a → a ∈ x.childs.items) →
        ∃ s', (∃ N, ∀ m j, N ≤ m → N ≤ j → whilePop .childs (destroy m) b j s = .ok s') ∧
          Empties s b s' ∧ s'.Live b ∧ ∀ a, b ∉ s'.parents a := by
  induction k with
  | zero =>
      intro s x hlen
      omega
  | succ k ih =>
      intro s x hlen hx hrefs hs hdoomed hback
      cases hitems : x.childs.items with
      | nil =>
          refine ⟨s, ⟨1, fun m j _ hj => ?_⟩, .nil hs ?_, State.live_of_heap hx,
            fun a ha => ?_⟩
          · obtain ⟨j, rfl⟩ := Nat.exists_eq_succ_of_ne_zero (by omega : j ≠ 0)
            exact whilePop_nil _ _ hx hitems
          · rw [State.childs_of_heap hx, hitems]
          · have hmem := hback a ha
            rw [hitems] at hmem
            cases hmem
      | cons d cs =>
          have htail : (x.list .childs).pop.2.items = cs := by
            rw [Slots.items_pop]
            exact congrArg List.tail hitems
          let s₁ := s.modify b fun y => y.put (x.list .childs).pop.2 .childs
          have hx₁ : s₁.heap b = some (x.put (x.list .childs).pop.2 .childs) :=
            State.heap_modify_self _ hx
          have hsub : (x.list .childs).pop.2.items.Sublist x.childs.items := by
            rw [htail, hitems]
            exact List.sublist_cons_self d cs
          have hs₁ : Sound s₁ := hs.modify hx rfl rfl hsub hrefs
          have hshrinks₁ : Shrinks s s₁ := shrinks_put hx hsub.subset
          have hdoomed₁ : ∀ e ∈ x.childs.items, Doomed s₁ n e := by
            intro e he
            refine (hdoomed e he).of_shrinks hshrinks₁ hs₁.toClosed
              ((State.live_modify _).mpr ?_)
            refine hs.childs b e ?_
            rw [State.childs_of_heap hx]
            exact he
          have hd : d ∈ x.childs.items := by
            rw [hitems]
            exact List.mem_cons_self ..
          obtain ⟨s₂, ⟨N, hN⟩, hdes⟩ := hdestroy s₁ d hs₁ (hdoomed₁ d hd)
          -- a backend that is being destroyed is not below its children
          have hlive₂ : s₂.Live b := by
            refine hdes.spares b (State.live_of_heap hx₁) fun hr => ?_
            obtain ⟨m, -, hm⟩ := (hdoomed₁ d hd).of_reaches hr
            cases m with
            | zero => exact hm
            | succ m =>
                obtain ⟨y, hy, hone, -⟩ := hm
                obtain rfl := Option.some.inj (hx₁.symm.trans hy)
                exact absurd (hone.symm.trans hrefs) (by decide)
          obtain ⟨y, hy⟩ := State.live_iff.mp hlive₂
          obtain ⟨x₁, hx₁', heq, hfilter, -⟩ := hdes.prunes.kept b y hy
          obtain rfl := Option.some.inj (hx₁.symm.trans hx₁')
          have hs₂ := hs₁.prunes hdes.prunes
          have hyitems : y.childs.items = cs.filter fun c => s₂.Live c := by
            rw [hfilter, ← htail]
            rfl
          have hmem : ∀ e, e ∈ y.childs.items → e ∈ x.childs.items := by
            intro e he
            rw [hyitems] at he
            rw [hitems]
            exact List.mem_cons_of_mem d (List.mem_filter.mp he).1
          have hylen : y.childs.items.length < k := by
            have hle := List.length_filter_le (fun c => decide (s₂.Live c)) cs
            rw [hitems, List.length_cons] at hlen
            rw [hyitems]
            omega
          have hdoomed₂ : ∀ e ∈ y.childs.items, Doomed s₂ n e := by
            intro e he
            have hle : s₂.Live e := by
              rw [hyitems] at he
              exact of_decide_eq_true (List.mem_filter.mp he).2
            exact (hdoomed₁ e (hmem e he)).of_shrinks hdes.prunes.shrinks hs₂.toClosed hle
          have hback₂ : ∀ a, b ∈ s₂.parents a → a ∈ y.childs.items := by
            intro a ha
            have hla := State.live_of_mem_parents ha
            rw [hdes.prunes.parents_eq hla, State.parents_modify hx rfl] at ha
            have hmem' := hback a ha
            rw [hitems] at hmem'
            rcases List.mem_cons.mp hmem' with rfl | hcs
            · exact absurd hla hdes.dead
            · rw [hyitems]
              exact List.mem_filter.mpr ⟨hcs, decide_eq_true hla⟩
          obtain ⟨s₃, ⟨M, hM⟩, hemp, hlive₃, hleaf⟩ :=
            ih s₂ y hylen hy (by rw [heq]; exact hrefs) hs₂ hdoomed₂ hback₂
          refine ⟨s₃, ⟨max N M + 1, fun m j hm hj => ?_⟩,
            ⟨?_, hemp.childs, fun a ha hno => ?_⟩, hlive₃, hleaf⟩
          · obtain ⟨j, rfl⟩ := Nat.exists_eq_succ_of_ne_zero (by omega : j ≠ 0)
            have hitems' : (x.list .childs).items = d :: cs := hitems
            have hfirst : destroy m d s₁ = .ok s₂ := hN m (by omega)
            rw [whilePop_cons _ _ hx hitems', hfirst]
            exact hM m j (by omega) (by omega)
          · have hpop : x.childs.items = d :: (x.list .childs).pop.2.items := by
              rw [htail, hitems]
            exact Prunes.of_pop hx hpop (hdes.prunes.trans hemp.prunes)
              fun h => hdes.dead (hemp.prunes.live h)
          · rw [State.childs_of_heap hx] at hno
            have hla : s₂.Live a := hdes.spares a ((State.live_modify _).mpr ha)
              fun hr => hno d hd (hshrinks₁.reaches hr)
            refine hemp.spares a hla fun e he hr => ?_
            rw [State.childs_of_heap hy] at he
            exact hno e (hmem e he) (hshrinks₁.reaches (hdes.prunes.shrinks.reaches hr))

/-- **Destruction.**  A doomed backend is destroyed with all it leads to. -/
theorem destroy_doomed (n : Nat) : ∀ (s : State κ) (b : Nat), Sound s → Doomed s n b →
    ∃ s', Returns (fun m => destroy m b s) s' ∧ Destroys s b s' := by
  induction n with
  | zero =>
      intro s b _ hb
      exact hb.elim
  | succ n ih =>
      intro s b hs hb
      obtain ⟨x, hx, hrefs, hnodup, hchilds⟩ := id hb
      let dec : Backend κ → Backend κ := fun x => { x with refs := x.refs - 1 }
      have hzero : (dec x).refs = 0 := by
        change x.refs - 1 = 0
        rw [hrefs]
        decide
      let s₀ := s.modify b dec
      have hx₀ : s₀.heap b = some (dec x) := State.heap_modify_self _ hx
      have hs₀ : Sound s₀ := hs.modify hx rfl rfl (List.Sublist.refl _) hzero
      have hbelow : ∀ c ∈ x.childs.items, ¬ s.Reaches c b := by
        intro c hc
        refine hb.not_reaches ?_
        rw [State.childs_of_heap hx]
        exact hc
      have hchilds₀ : s₀.childs = s.childs := by
        funext a
        by_cases hab : a = b
        · rw [hab, State.childs_modify_self hx, State.childs_of_heap hx]
        · exact State.childs_modify_of_ne hab
      have hdoomed₀ : ∀ c ∈ x.childs.items, Doomed s₀ n c := by
        intro c hc
        refine (hchilds c hc).congr fun a ha => State.heap_modify_of_ne _ ?_
        rintro rfl
        exact hbelow c hc ha
      have hback₀ : ∀ a, b ∈ s₀.parents a → a ∈ x.childs.items := by
        intro a ha
        rw [State.parents_modify hx rfl] at ha
        have hmem := hs.back b x hx (by rw [hrefs]; decide) a ha
        rw [State.childs_of_heap hx] at hmem
        exact hmem
      obtain ⟨s₁, ⟨N, hN⟩, hemp, hlive₁, hleaf⟩ := whilePop_childs ih _ s₀ (dec x)
        (Nat.lt_succ_self _) hx₀ hzero hs₀ hdoomed₀ hback₀
      have hs₁ := hs₀.prunes hemp.prunes
      have hnodup₁ : (s₁.parents b).Nodup := by
        rw [hemp.prunes.parents_eq hlive₁, State.parents_of_heap hx₀]
        exact hnodup
      obtain ⟨s₂, hrun, hdrop⟩ := whilePop_parents _ s₁ rfl hnodup₁ hlive₁ (hs₁.parents b)
        hs₁.tops_nodup
      obtain ⟨s₃, hfree, hfreed⟩ := freeSkeleton_eq hdrop.live
      obtain ⟨hprunes, hlive₃⟩ :=
        prunes_of_freed hs₁ hnodup₁ (fun a _ => hleaf a) hdrop hfreed
      have hdead : ¬ s₃.Live b := fun h => ((hlive₃ b).mp h).2 rfl
      refine ⟨s₃, ?_, ⟨?_, hdead, fun a ha hno => ?_⟩⟩
      · refine .of_succ ⟨max N ((s₁.parents b).length + 1), fun m hm => ?_⟩
        have hcond : ¬ x.refs - 1 ≠ 0 := not_not.mpr hzero
        simp only [destroy, State.backend_of_heap hx]
        change (if x.refs - 1 ≠ 0 then _ else _) = _
        rw [if_neg hcond, hN m m (by omega) (by omega)]
        change (whilePop .parents _ b m s₁ >>= _) = _
        rw [hrun m (by omega)]
        exact hfree
      · refine (hemp.prunes.trans hprunes).of_modify hx rfl fun x' hx' => ?_
        exact absurd (State.live_of_heap hx') hdead
      · refine (hlive₃ a).mpr
          ⟨hemp.spares a ((State.live_modify _).mpr ha) fun c hc hr => ?_, ?_⟩
        · rw [hchilds₀] at hc
          rw [State.Reaches, hchilds₀] at hr
          exact hno (.head hc hr)
        · rintro rfl
          exact hno .refl

/-- What the backend leads to goes with it, and nothing else. -/
theorem Destroys.live_iff {s s' : State κ} {d : Nat} (h : Destroys s d s')
    (hs : Consistent s) {a : Nat} : s'.Live a ↔ s.Live a ∧ ¬ s.Reaches d a := by
  refine ⟨fun hla => ⟨h.prunes.live hla, fun hr => ?_⟩,
    fun ⟨hla, hno⟩ => h.spares a hla hno⟩
  induction hr with
  | refl => exact h.dead hla
  | tail _ hchild ih =>
      rename_i p c _
      have hlp := State.live_of_mem_childs hchild
      have hparent : p ∈ s.parents c := by
        rw [← List.count_pos_iff, ← hs.links p c hlp (hs.childs p c hchild),
          List.count_pos_iff]
        exact hchild
      exact ih (h.prunes.parents c hla p hparent)

end Frozen.Graph
