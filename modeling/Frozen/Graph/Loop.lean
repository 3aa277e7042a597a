/-
# `Frozen.Graph.Loop` — popping a list until it is empty

`backend_insert` and the clean-up of `backend_new` pop the children of a backend one after
the other and disconnect each.  `backend_disconnect` looks for the child in the list of
children too and deletes it there a second time, so of a child that is there twice both
links go, but only one entry in its list of parents.  `Drained` says what the loop leaves.
-/
import Frozen.Graph.Links

namespace Frozen.Graph

variable {κ : Type}

section

variable {side : Side} (func : Nat → State κ → Except Stop (State κ)) (n : Nat)
  {s : State κ} {b : Nat} {x : Backend κ}

theorem whilePop_nil (hx : s.heap b = some x) (hnil : (x.list side).items = []) :
    whilePop side func b (n + 1) s = .ok s := by
  have hpop : (x.list side).pop = (none, (x.list side).pop.2) := by
    refine Prod.ext ?_ rfl
    rw [Slots.pop_fst, hnil]
    rfl
  simp only [whilePop, State.backend_of_heap hx, bind, Except.bind]
  rw [hpop]

theorem whilePop_cons {c : Nat} {cs : List Nat} (hx : s.heap b = some x)
    (hcons : (x.list side).items = c :: cs) :
    whilePop side func b (n + 1) s
      = func c (s.modify b fun y => y.put (x.list side).pop.2 side) >>= whilePop side
        func b n := by
  have hpop : (x.list side).pop = (some c, (x.list side).pop.2) := by
    refine Prod.ext ?_ rfl
    rw [Slots.pop_fst, hcons]
    rfl
  simp only [whilePop, State.backend_of_heap hx, bind, Except.bind]
  rw [hpop]

end

/-! ## Disconnecting the children -/

/-- The graph after the children of `p` were popped and disconnected. -/
structure Drained (t : State κ) (p : Nat) (u : State κ) : Prop where
  next : u.next = t.next
  names : u.names = t.names
  live : ∀ a, u.Live a ↔ t.Live a
  fields : ∀ a x', u.heap a = some x' → ∃ x, t.heap a = some x ∧ x'.name = x.name
  childs_self : u.childs p = []
  childs : ∀ a, a ≠ p → u.childs a = t.childs a
  others : ∀ a q, q ≠ p → (u.parents a).count q = (t.parents a).count q
  parents_le : ∀ a, (u.parents a).count p ≤ (t.parents a).count p
  /-- a child that is there once loses the parent once -/
  once : ∀ a, (t.childs p).count a ≤ 1 →
    (u.parents a).count p = (t.parents a).count p - (t.childs p).count a
  /-- one that is there more often, or less often than the parent in its list, keeps it -/
  twice : ∀ a, (t.childs p).count a < (t.parents a).count p ∨
      2 ≤ (t.childs p).count a ∧ (t.childs p).count a = (t.parents a).count p →
    0 < (u.parents a).count p
  tops_nodup : t.tops.items.Nodup → u.tops.items.Nodup
  tops : t.tops.items.Nodup → ∀ a, a ≠ p →
    (a ∈ u.tops.items ↔ a ∈ t.tops.items ∨ a ∈ t.childs p ∧ u.parents a = [])

theorem Drained.refl {t : State κ} {p : Nat} (hnil : t.childs p = []) :
    Drained t p t where
  next := rfl
  names := rfl
  live := fun _ => Iff.rfl
  fields := fun _ x hx => ⟨x, hx, rfl⟩
  childs_self := hnil
  childs := fun _ _ => rfl
  others := fun _ _ _ => rfl
  parents_le := fun _ => le_refl _
  once := by
    intro a _
    rw [hnil]
    rfl
  twice := by
    intro a h
    rw [hnil, List.count_nil] at h
    omega
  tops_nodup := id
  tops := by
    intro _ a _
    rw [hnil]
    simp

theorem eq_nil_of_count_eq {l l' : List Nat} (h : ∀ q, l.count q ≤ l'.count q)
    (hnil : l' = []) : l = [] := by
  refine List.eq_nil_iff_forall_not_mem.mpr fun q hq => ?_
  have hle := h q
  rw [hnil, List.count_nil] at hle
  exact absurd (List.count_pos_iff.mpr hq) (by omega)

/-- One round. -/
theorem Drained.cons {t u : State κ} {p c : Nat} {x : Backend κ} {l : Slots Nat}
    (hx : t.heap p = some x) (hitems : x.childs.items = c :: l.items) (hc : t.Live c)
    (h : Drained ((t.modify p fun y => y.put l .childs).unlink p c) p u) :
    Drained t p u := by
  set t₁ := t.modify p fun y => y.put l .childs with ht₁def
  have hchilds : t.childs p = c :: l.items := (State.childs_of_heap hx).trans hitems
  have hchilds₁ : (t₁.unlink p c).childs p = l.items.erase c := by
    rw [State.childs_unlink_self, State.childs_of_heap (State.heap_modify_self _ hx)]
    rfl
  have hparents₁ : ∀ a, t₁.parents a = t.parents a := by
    intro a
    by_cases hap : a = p
    · rw [hap, State.parents_of_heap (State.heap_modify_self _ hx),
        State.parents_of_heap hx]
      rfl
    · unfold State.parents
      rw [State.heap_modify_of_ne _ hap]
  have hpos : 0 < (t.childs p).count c := by
    rw [hchilds]
    exact List.count_pos_iff.mpr (List.mem_cons_self ..)
  have hcount : ∀ a q, ((t₁.unlink p c).parents a).count q
      = (t.parents a).count q - if a = c ∧ p = q then 1 else 0 := by
    intro a q
    rw [State.count_parents_unlink, hparents₁]
  -- how often a child is left, and how often it was there
  have hleft : ∀ a, ((t₁.unlink p c).childs p).count a
      = (t.childs p).count a - (if c = a then 2 else 0) := by
    intro a
    rw [hchilds₁, hchilds, List.count_erase, List.count_cons]
    simp only [beq_iff_eq]
    split <;> omega
  refine ⟨?_, ?_, fun a => ?_, fun a x' hx' => ?_, h.childs_self, fun a ha => ?_,
    fun a q hq => ?_,
    fun a => ?_, fun a ha => ?_, fun a ha => ?_, fun ht => ?_, fun ht a ha => ?_⟩
  · rw [h.next, State.next_unlink]
    rfl
  · rw [h.names, State.names_unlink]
    rfl
  · rw [h.live, State.live_unlink, State.live_modify]
  · obtain ⟨y, hy, hname⟩ := h.fields a x' hx'
    obtain ⟨z, hz, hname'⟩ := State.name_of_unlink hy
    by_cases hap : a = p
    · subst hap
      obtain rfl := Option.some.inj ((State.heap_modify_self _ hx).symm.trans hz)
      exact ⟨x, hx, hname.trans hname'.symm⟩
    · rw [State.heap_modify_of_ne _ hap] at hz
      exact ⟨z, hz, hname.trans hname'.symm⟩
  · rw [h.childs a ha, State.childs_unlink_of_ne ha]
    unfold State.childs
    rw [State.heap_modify_of_ne _ ha]
  · rw [h.others a q hq, hcount, if_neg fun h => hq h.2.symm]
    rfl
  · have hle := h.parents_le a
    rw [hcount] at hle
    omega
  · have hl := hleft a
    by_cases hca : c = a
    · subst hca
      rw [h.once c (by omega), hcount, hl]
      simp
      omega
    · rw [if_neg hca] at hl
      rw [h.once a (by omega), hcount, hl, if_neg fun h => hca h.1.symm]
      rfl
  · have hl := hleft a
    refine h.twice a ?_
    rw [hcount]
    by_cases hca : c = a
    · subst hca
      rw [if_pos rfl] at hl
      rw [if_pos ⟨rfl, rfl⟩]
      omega
    · rw [if_neg hca] at hl
      rw [if_neg fun h => hca h.1.symm]
      omega
  · exact h.tops_nodup (State.nodup_tops_unlink ht)
  · have ht₁ : t₁.tops.items.Nodup := ht
    have herase : (t₁.parents c).erase p = (t₁.unlink p c).parents c :=
      State.parents_unlink_self.symm
    rw [h.tops (State.nodup_tops_unlink ht₁) a ha, State.mem_tops_unlink ht₁, herase,
      hchilds₁, hchilds]
    have hle : ∀ q, (u.parents a).count q ≤ ((t₁.unlink p c).parents a).count q := by
      intro q
      by_cases hq : q = p
      · rw [hq]
        exact h.parents_le a
      · exact (h.others a q hq).le
    constructor
    · rintro ((⟨-, htop⟩ | ⟨rfl, -, hroot⟩) | ⟨hmem, hroot⟩)
      · exact .inl htop
      · exact .inr ⟨List.mem_cons_self .., eq_nil_of_count_eq hle hroot⟩
      · exact .inr ⟨List.mem_cons_of_mem c (List.mem_of_mem_erase hmem), hroot⟩
    · rintro (htop | ⟨hmem, hroot⟩)
      · exact .inl (.inl ⟨ha, htop⟩)
      · by_cases hleft' : a ∈ l.items.erase c
        · exact .inr ⟨hleft', hroot⟩
        · -- it was met for the last time: its parents are those it keeps
          obtain rfl : a = c := by
            by_contra hac
            rcases List.mem_cons.mp hmem with hac' | hmem
            · exact hac hac'
            · exact hleft' ((List.mem_erase_of_ne hac).mpr hmem)
          refine .inl (.inr ⟨rfl, (State.live_modify _).mpr hc,
            eq_nil_of_count_eq (fun q => ?_) hroot⟩)
          by_cases hq : q = p
          · subst hq
            have hzero : ((t₁.unlink q a).childs q).count a = 0 := by
              rw [hchilds₁]
              exact List.count_eq_zero.mpr hleft'
            rw [h.once a (by omega), hzero]
            exact le_refl _
          · exact (h.others a q hq).ge

/-- The loop empties the list. -/
theorem whilePop_disconnect {p : Nat} (k : Nat) : ∀ (t : State κ), t.Live p →
    (t.childs p).length < k → (∀ c ∈ t.childs p, t.Live c) →
      ∃ u, (∀ n, k ≤ n →
        whilePop .childs (fun c => disconnect p (some c)) p n t = .ok u) ∧
        Drained t p u := by
  induction k with
  | zero =>
      intro t _ hlen
      omega
  | succ k ih =>
      intro t hp hlen hlive
      obtain ⟨x, hx⟩ := State.live_iff.mp hp
      rw [State.childs_of_heap hx] at hlen hlive
      cases hitems : x.childs.items with
      | nil =>
          refine ⟨t, fun n hn => ?_, .refl ((State.childs_of_heap hx).trans hitems)⟩
          obtain ⟨n, rfl⟩ := Nat.exists_eq_succ_of_ne_zero (by omega : n ≠ 0)
          exact whilePop_nil _ _ hx hitems
      | cons c cs =>
          have hitems' : (x.list .childs).items = c :: cs := hitems
          have htail : (x.list .childs).pop.2.items = cs := by
            rw [Slots.items_pop, hitems']
            rfl
          let t₁ := t.modify p fun y => y.put (x.list .childs).pop.2 .childs
          have hlive₁ : ∀ a, t₁.Live a ↔ t.Live a := fun a => State.live_modify _
          have hc : t.Live c := hlive c (by rw [hitems]; exact List.mem_cons_self ..)
          have hchilds₂ : (t₁.unlink p c).childs p = cs.erase c := by
            rw [State.childs_unlink_self,
              State.childs_of_heap (State.heap_modify_self _ hx), ← htail]
            rfl
          obtain ⟨u, hrun, hu⟩ :=
            ih (t₁.unlink p c) (State.live_unlink.mpr ((hlive₁ p).mpr hp)) (by
              have hle := List.length_erase_le (a := c) (l := cs)
              rw [hitems, List.length_cons] at hlen
              rw [hchilds₂]
              omega)
            (by
              intro d hd
              rw [hchilds₂] at hd
              refine State.live_unlink.mpr ((hlive₁ d).mpr (hlive d ?_))
              rw [hitems]
              exact List.mem_cons_of_mem c (List.mem_of_mem_erase hd))
          refine ⟨u, fun n hn => ?_, hu.cons hx (by rw [htail, hitems]) hc⟩
          obtain ⟨n, rfl⟩ := Nat.exists_eq_succ_of_ne_zero (by omega : n ≠ 0)
          have hfirst : disconnect p (some c) t₁ = .ok (t₁.unlink p c) :=
            disconnect_eq ((hlive₁ p).mpr hp) ((hlive₁ c).mpr hc)
          rw [whilePop_cons _ _ hx hitems', hfirst]
          exact hrun n (by omega)

end Frozen.Graph
