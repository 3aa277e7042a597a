/-
# `Frozen.Graph.Build` — the iteration of `backend_new`

Every item of a configuration makes a backend or refers to one by its name, and connects
it to the one before it, unless a `hash_null` stands between the two.  `ask` reads off
an item what it is for, and `newIterator_outcome` says what comes of it:

    skip      it is no hash
    cut       `hash_null`: the chain ends
    use       a backend that is there gets a child, or a hole
    make      a new backend gets a child, or a hole
    fail      nothing is left of the item, but a list may be in another order
-/
import Frozen.Graph.Undo

namespace Frozen.Graph

open Lib Binary

variable {κ : Type}

/-! ## Graphs with the same links -/

/-- The same backends with the same links; lists may be in another order. -/
structure Resembles (t u : State κ) : Prop where
  next : t.next ≤ u.next
  live : ∀ a, u.Live a ↔ t.Live a
  childs : ∀ a, u.childs a = t.childs a
  parents : ∀ a q, (u.parents a).count q = (t.parents a).count q
  tops : ∀ a, a ∈ u.tops.items ↔ a ∈ t.tops.items
  names : ∀ a, a ∈ u.names.items ↔ a ∈ t.names.items
  consistent : Consistent u
  tidy : Tidy u

theorem Resembles.refl {t : State κ} (h : Consistent t) (ht : Tidy t) : Resembles t t :=
  ⟨le_refl _, fun _ => Iff.rfl, fun _ => rfl, fun _ _ => rfl, fun _ => Iff.rfl,
    fun _ => Iff.rfl, h, ht⟩

/-! ## One more link, or a hole -/

/-- The graph after `connect b prev`. -/
structure Joined (t : State κ) (b : Nat) (prev : Option Nat) (u : State κ) : Prop where
  next : u.next = t.next
  names : u.names = t.names
  live : ∀ a, u.Live a ↔ t.Live a
  name : ∀ a x', u.heap a = some x' →
    ∃ x, t.heap a = some x ∧ x'.name = x.name ∧ x'.cls = x.cls
  childs : ∀ a, a ≠ b ∨ prev = none → u.childs a = t.childs a
  count_childs : ∀ a d,
    (u.childs a).count d = (t.childs a).count d + if a = b ∧ prev = some d then 1 else 0
  count_parents : ∀ a d,
    (u.parents a).count d = (t.parents a).count d + if prev = some a ∧ b = d then 1 else 0
  tops : t.tops.items.Nodup → ∀ a, a ∈ u.tops.items ↔
    prev ≠ some a ∧ (a ∈ t.tops.items ∨ a = b ∧ t.parents b = [])
  consistent : Consistent t → Consistent u
  tidy : Tidy t → Tidy u

/-- The graph after `connect b none`. -/
def State.addHole (s : State κ) (b : Nat) : State κ :=
  (s.modify b fun x => { x with childs := x.childs.add none }).top b

theorem State.heap_addHole {s : State κ} {a b : Nat} :
    (s.addHole b).heap a = (s.heap a).map fun x =>
    { x with childs := if a = b then x.childs.add none else x.childs } := by
  simp only [addHole, heap_top, heap_modify]
  by_cases hab : a = b
  · simp [hab]
  · simp [hab]

theorem State.live_addHole {s : State κ} {a b : Nat} :
    (s.addHole b).Live a ↔ s.Live a := by
  rw [Live, heap_addHole, Option.isSome_map]
  rfl

theorem State.childs_addHole {s : State κ} (a b : Nat) :
    (s.addHole b).childs a = s.childs a := by
  unfold childs
  rw [heap_addHole]
  cases s.heap a with
  | none => rfl
  | some x =>
      by_cases hab : a = b
      · simp [hab]
      · simp [hab]

theorem State.parents_addHole {s : State κ} (a b : Nat) :
    (s.addHole b).parents a = s.parents a := by
  unfold parents
  rw [heap_addHole]
  cases s.heap a <;> rfl

theorem State.mem_tops_addHole {s : State κ} {b : Nat} (hb : s.Live b) (a : Nat) :
    a ∈ (s.addHole b).tops.items ↔ a ∈ s.tops.items ∨ a = b ∧ s.parents b = [] := by
  obtain ⟨x, hx⟩ := live_iff.mp hb
  have hparents : (s.modify b fun x => { x with childs := x.childs.add none }).parents
      b = s.parents b := by
    rw [parents_of_heap (heap_modify_self _ hx), parents_of_heap hx]
  rw [addHole, mem_tops_top, live_modify, hparents]
  simp only [hb, true_and]
  rfl

/-- Only the tops may differ, and holes. -/
theorem Consistent.congr {s u : State κ} (h : Consistent s)
    (hlive : ∀ a, u.Live a ↔ s.Live a) (hchilds : ∀ a, u.childs a = s.childs a)
    (hparents : ∀ a, u.parents a = s.parents a) (htops : ∀ a ∈ u.tops.items, s.Live a)
    (hnames : u.names = s.names) : Consistent u where
  childs := by
    intro a c hc
    rw [hchilds] at hc
    exact (hlive c).mpr (h.childs a c hc)
  parents := by
    intro a p hp
    rw [hparents] at hp
    exact (hlive p).mpr (h.parents a p hp)
  tops := fun a ha => (hlive a).mpr (htops a ha)
  names := by
    intro a ha
    rw [hnames] at ha
    exact (hlive a).mpr (h.names a ha)
  links := by
    intro p c hp hc
    rw [hchilds, hparents]
    exact h.links p c ((hlive p).mp hp) ((hlive c).mp hc)

theorem Tidy.congr {s u : State κ} (h : Tidy s)
    (hparents : ∀ a, u.parents a = s.parents a) (hnodup : u.tops.items.Nodup)
    (hroot : ∀ a ∈ u.tops.items, s.parents a = []) (hnames : u.names = s.names)
    (hname : ∀ a x', u.heap a = some x' → ∃ x, s.heap a = some x ∧ x'.name = x.name) :
    Tidy u where
  tops_nodup := hnodup
  tops_root := by
    intro a ha
    rw [hparents]
    exact hroot a ha
  names_nodup := by
    rw [hnames]
    exact h.names_nodup
  named := by
    intro a ha x' hx'
    obtain ⟨x, hx, heq⟩ := hname a x' hx'
    rw [hnames] at ha
    rw [heq]
    exact h.named a ha x hx

theorem Consistent.addHole {s : State κ} {b : Nat} (h : Consistent s) (hb : s.Live b) :
    Consistent (s.addHole b) := by
  refine h.congr (fun a => State.live_addHole) (fun a => State.childs_addHole a b)
    (fun a => State.parents_addHole a b) (fun a ha => ?_) State.names_top
  rcases (State.mem_tops_addHole hb a).mp ha with ha | ⟨rfl, -⟩
  · exact h.tops a ha
  · exact hb

theorem Tidy.addHole {s : State κ} {b : Nat} (h : Tidy s) (hb : s.Live b) :
    Tidy (s.addHole b) := by
  refine h.congr (fun a => State.parents_addHole a b)
    (State.nodup_tops_top h.tops_nodup) (fun a ha => ?_)
    State.names_top fun a x' hx' => ?_
  · rcases (State.mem_tops_addHole hb a).mp ha with ha | ⟨rfl, hnil⟩
    · exact h.tops_root a ha
    · exact hnil
  · rw [State.heap_addHole] at hx'
    obtain ⟨x, hx, rfl⟩ := Option.map_eq_some_iff.mp hx'
    exact ⟨x, hx, rfl⟩

theorem joined_addHole {t : State κ} {b : Nat} (hb : t.Live b) :
    Joined t b none (t.addHole b) where
  next := by
    rw [State.addHole, State.next_top]
    rfl
  names := by
    rw [State.addHole, State.names_top]
    rfl
  live := fun a => State.live_addHole
  name := by
    intro a x' hx'
    rw [State.heap_addHole] at hx'
    obtain ⟨x, hx, rfl⟩ := Option.map_eq_some_iff.mp hx'
    exact ⟨x, hx, rfl, rfl⟩
  childs := fun a _ => State.childs_addHole a b
  count_childs := by
    intro a d
    rw [State.childs_addHole, if_neg (by simp)]
    rfl
  count_parents := by
    intro a d
    rw [State.parents_addHole, if_neg (by simp)]
    rfl
  tops := by
    intro _ a
    rw [State.mem_tops_addHole hb]
    simp
  consistent := fun h => h.addHole hb
  tidy := fun h => h.addHole hb

theorem joined_link {t : State κ} {b c : Nat} (hb : t.Live b) (hc : t.Live c) :
    Joined t b (some c) (t.link b c) where
  next := State.next_link
  names := State.names_link
  live := fun a => State.live_link
  name := by
    intro a x' hx'
    rw [State.heap_link] at hx'
    obtain ⟨x, hx, rfl⟩ := Option.map_eq_some_iff.mp hx'
    exact ⟨x, hx, rfl, rfl⟩
  childs := by
    rintro a (ha | ha)
    · exact State.childs_link_of_ne ha
    · cases ha
  count_childs := by
    intro a d
    rw [State.count_childs_link hb]
    simp only [Option.some.injEq]
  count_parents := by
    intro a d
    rw [State.count_parents_link hc]
    simp only [Option.some.injEq, eq_comm]
  tops := by
    intro ht a
    rw [State.mem_tops_link ht]
    simp only [hb, true_and, ne_eq, Option.some.injEq, eq_comm]
  consistent := fun h => h.link hb hc
  tidy := fun h => h.link

theorem connect_joined {t : State κ} {b : Nat} {prev : Option Nat} (hb : t.Live b)
    (hprev : ∀ c, prev = some c → t.Live c) :
    ∃ u, connect b prev t = .ok u ∧ Joined t b prev u := by
  cases prev with
  | none =>
      obtain ⟨x, hx⟩ := State.live_iff.mp hb
      refine ⟨t.addHole b, ?_, joined_addHole hb⟩
      simp only [connect, State.backend_of_heap hx]
      rfl
  | some c =>
      exact ⟨t.link b c, connect_eq hb (hprev c rfl), joined_link hb (hprev c rfl)⟩

/-! ## One more backend -/

/-- The graph `m` is `t` with one more backend, that has no links. -/
structure Besides (t : State κ) (b : Nat) (m : State κ) : Prop where
  next : t.next ≤ m.next
  fresh : ¬ t.Live b
  live : ∀ a, m.Live a ↔ t.Live a ∨ a = b
  childs_self : m.childs b = []
  parents_self : m.parents b = []
  childs : ∀ a, a ≠ b → m.childs a = t.childs a
  parents : ∀ a q, a ≠ b → (m.parents a).count q = (t.parents a).count q
  tops : ∀ a, a ≠ b → (a ∈ m.tops.items ↔ a ∈ t.tops.items)
  names : ∀ a, a ≠ b → (a ∈ m.names.items ↔ a ∈ t.names.items)
  consistent : Consistent m
  tidy : Tidy m

/-- It can be freed, and nothing is left of it. -/
theorem Besides.free {t m : State κ} {b : Nat} (h : Besides t b m) (ht : Closed t) :
    ∃ u, freeSkeleton b m = .ok u ∧ Resembles t u := by
  obtain ⟨u, hfree, hfreed, hprunes, hlive⟩ := freeSkeleton_leaf h.consistent h.tidy
    ((h.live b).mpr (.inr rfl)) h.childs_self h.parents_self
  have hne : ∀ a, t.Live a → a ≠ b := fun a ha hab => h.fresh (hab ▸ ha)
  have hlive' : ∀ a, u.Live a ↔ t.Live a := by
    intro a
    rw [hlive, h.live]
    constructor
    · rintro ⟨ha | ha, hab⟩
      · exact ha
      · exact absurd ha hab
    · exact fun ha => ⟨.inl ha, hne a ha⟩
  have hnone : u.heap b = none :=
    State.not_live_iff.mp fun hl => h.fresh ((hlive' b).mp hl)
  refine ⟨u, hfree, ?_, hlive', fun a => ?_, fun a q => ?_, fun a => ?_, fun a => ?_,
    h.consistent.prunes hprunes, h.tidy.prunes hprunes⟩
  · rw [hfreed.next]
    exact h.next
  · by_cases hab : a = b
    · rw [hab, State.childs_of_none hnone,
        State.childs_of_none (State.not_live_iff.mp h.fresh)]
    · rw [← h.childs a hab]
      unfold State.childs
      rw [hfreed.heap, if_neg hab]
  · by_cases hab : a = b
    · rw [hab, State.parents_of_none hnone,
        State.parents_of_none (State.not_live_iff.mp h.fresh)]
    · rw [← h.parents a q hab]
      unfold State.parents
      rw [hfreed.heap, if_neg hab]
  · rw [hfreed.tops, h.tidy.tops_nodup.mem_erase_iff]
    constructor
    · rintro ⟨hab, ha⟩
      exact (h.tops a hab).mp ha
    · intro ha
      have hab := hne a (ht.tops a ha)
      exact ⟨hab, (h.tops a hab).mpr ha⟩
  · rw [hprunes.names, List.mem_filter, decide_eq_true_eq, hlive']
    constructor
    · rintro ⟨ha, hla⟩
      exact (h.names a (hne a hla)).mp ha
    · intro ha
      have hla := ht.names a ha
      exact ⟨(h.names a (hne a hla)).mpr ha, hla⟩

/-- A backend as `backend_new_skeleton` makes it, with its name among the names. -/
def State.make (s : State κ) (x : Backend κ) : State κ :=
  if x.name.isSome then { s.alloc x with names := s.names.add (some s.next) }
  else s.alloc x

theorem State.heap_make {s : State κ} {x : Backend κ} :
    (s.make x).heap = (s.alloc x).heap := by
  unfold make
  split <;> rfl

theorem State.tops_make {s : State κ} {x : Backend κ} : (s.make x).tops = s.tops := by
  unfold make
  split <;> rfl

theorem State.next_make {s : State κ} {x : Backend κ} : (s.make x).next = s.next + 1 := by
  unfold make
  split <;> rfl

theorem State.mem_names_make {s : State κ} {x : Backend κ} {a : Nat} :
    a ∈ (s.make x).names.items ↔ a ∈ s.names.items ∨ a = s.next ∧ x.name.isSome := by
  unfold make
  split
  · rename_i hname
    change a ∈ (s.names.add (some s.next)).items ↔ _
    rw [Slots.mem_items_add]
    simp only [hname, and_true, or_comm]
  · rename_i hname
    simp only [hname, and_false, or_false, Bool.false_eq_true]
    rfl

theorem besides_make {t : State κ} {x : Backend κ} (h : Consistent t) (ht : Tidy t)
    (hc : x.childs = []) (hp : x.parents = []) : Besides t t.next (t.make x) := by
  have hfresh : ¬ t.Live t.next := fun hl => absurd hl.lt_next (lt_irrefl _)
  have hchilds : ∀ a, (t.make x).childs a = t.childs a := by
    intro a
    rw [State.childs, State.heap_make]
    exact State.childs_alloc (by rw [hc]; rfl) a
  have hparents : ∀ a, (t.make x).parents a = t.parents a := by
    intro a
    rw [State.parents, State.heap_make]
    exact State.parents_alloc (by rw [hp]; rfl) a
  have hlive : ∀ a, (t.make x).Live a ↔ t.Live a ∨ a = t.next := by
    intro a
    rw [State.Live, State.heap_make]
    exact State.live_alloc
  have hcons := h.alloc (x := x) (by rw [hc]; rfl) (by rw [hp]; rfl)
  have htidy := ht.alloc (x := x) h.toClosed (by rw [hp]; rfl)
  refine ⟨?_, hfresh, hlive, ?_, ?_, fun a _ => hchilds a,
    fun a q _ => by rw [hparents], fun a _ => ?_, fun a ha => ?_, ?_, ?_⟩
  · rw [State.next_make]
    omega
  · rw [hchilds, State.childs_of_none (State.not_live_iff.mp hfresh)]
  · rw [hparents, State.parents_of_none (State.not_live_iff.mp hfresh)]
  · rw [State.tops_make]
  · rw [State.mem_names_make]
    simp [ha]
  · refine ⟨⟨fun a c hmem => ?_, fun a q hmem => ?_, fun a ha => ?_, fun a ha => ?_⟩,
      fun p c hlp hlc => ?_⟩
    · rw [hchilds] at hmem
      exact (hlive c).mpr (.inl (h.childs a c hmem))
    · rw [hparents] at hmem
      exact (hlive q).mpr (.inl (h.parents a q hmem))
    · rw [State.tops_make] at ha
      exact (hlive a).mpr (.inl (h.tops a ha))
    · rcases State.mem_names_make.mp ha with ha | ⟨ha, -⟩
      · exact (hlive a).mpr (.inl (h.names a ha))
      · exact (hlive a).mpr (.inr ha)
    · have hlinks := hcons.links p c ((State.live_alloc).mpr ((hlive p).mp hlp))
        ((State.live_alloc).mpr ((hlive c).mp hlc))
      rw [State.childs_alloc (by rw [hc]; rfl), State.parents_alloc (by rw [hp]; rfl)]
        at hlinks
      rw [hchilds, hparents]
      exact hlinks
  · refine ⟨?_, fun a ha => ?_, ?_, fun a ha y hy => ?_⟩
    · rw [State.tops_make]
      exact ht.tops_nodup
    · rw [State.tops_make] at ha
      rw [hparents]
      exact ht.tops_root a ha
    · unfold State.make
      split
      · change (t.names.add (some t.next)).items.Nodup
        rw [(Slots.items_add _ _).nodup_iff, List.nodup_cons]
        exact ⟨fun hmem => hfresh (h.names _ hmem), ht.names_nodup⟩
      · exact ht.names_nodup
    · rw [State.heap_make] at hy
      rcases State.mem_names_make.mp ha with ha | ⟨rfl, hname⟩
      · exact htidy.named a ha y hy
      · obtain rfl := Option.some.inj (State.heap_alloc_self.symm.trans hy)
        exact hname

/-- The graph after `disconnect b none`. -/
def State.dropHole (s : State κ) (b : Nat) : State κ :=
  (s.untop b).modify b fun x => { x with childs := x.childs.delete none }

theorem State.heap_dropHole {s : State κ} {a b : Nat} :
    (s.dropHole b).heap a = (s.heap a).map fun x =>
    { x with childs := if a = b then x.childs.delete none else x.childs } := by
  simp only [dropHole, heap_modify, heap_untop]
  by_cases hab : a = b
  · simp [hab]
  · simp [hab]

theorem State.live_dropHole {s : State κ} {a b : Nat} :
    (s.dropHole b).Live a ↔ s.Live a := by
  rw [Live, heap_dropHole, Option.isSome_map]
  rfl

theorem State.childs_dropHole {s : State κ} (a b : Nat) :
    (s.dropHole b).childs a = s.childs a := by
  unfold childs
  rw [heap_dropHole]
  cases s.heap a with
  | none => rfl
  | some x =>
      by_cases hab : a = b
      · simp [hab]
      · simp [hab]

theorem State.parents_dropHole {s : State κ} (a b : Nat) :
    (s.dropHole b).parents a = s.parents a := by
  unfold parents
  rw [heap_dropHole]
  cases s.heap a <;> rfl

/-- A connection to a new backend that is taken back. -/
theorem Besides.disconnect {t m j : State κ} {b : Nat} {prev : Option Nat}
    (h : Besides t b m) (ht : Tidy t)
    (hprev : ∀ c, prev = some c → t.Live c ∧ (t.parents c = [] → c ∈ t.tops.items))
    (hj : connect b prev m = .ok j) :
    ∃ d, disconnect b prev j = .ok d ∧ Besides t b d := by
  have hb : m.Live b := (h.live b).mpr (.inr rfl)
  cases prev with
  | none =>
      obtain ⟨x, hx⟩ := State.live_iff.mp hb
      have hj' : j = m.addHole b := by
        simp only [connect, State.backend_of_heap hx] at hj
        exact (Except.ok.inj hj).symm
      subst hj'
      obtain ⟨y, hy⟩ := State.live_iff.mp (State.live_addHole.mpr hb)
      have hy' : ((m.addHole b).untop b).heap b = some y := hy
      have hlive : ∀ a, ((m.addHole b).dropHole b).Live a ↔ m.Live a := fun a =>
        State.live_dropHole.trans State.live_addHole
      have hchilds : ∀ a, ((m.addHole b).dropHole b).childs a = m.childs a := fun a =>
        (State.childs_dropHole a b).trans (State.childs_addHole a b)
      have hparents : ∀ a, ((m.addHole b).dropHole b).parents a = m.parents a := fun a =>
        (State.parents_dropHole a b).trans (State.parents_addHole a b)
      have hnames : ((m.addHole b).dropHole b).names = m.names := State.names_top
      have hnodup : (m.addHole b).tops.items.Nodup := (h.tidy.addHole hb).tops_nodup
      have htops : ∀ a, a ∈ ((m.addHole b).dropHole b).tops.items ↔
          a ≠ b ∧ a ∈ m.tops.items := by
        intro a
        change a ∈ ((m.addHole b).untop b).tops.items ↔ _
        rw [State.mem_tops_untop hnodup, State.mem_tops_addHole hb]
        refine and_congr_right fun hab => ?_
        simp [hab]
      refine ⟨(m.addHole b).dropHole b, ?_, ?_⟩
      · simp only [Graph.disconnect, State.backend_of_heap hy']
        rfl
      · refine ⟨?_, h.fresh, fun a => (hlive a).trans (h.live a), ?_, ?_,
          fun a ha => ?_, fun a q ha => ?_, fun a ha => ?_, fun a ha => ?_, ?_, ?_⟩
        · have hnext : ((m.addHole b).dropHole b).next = m.next := State.next_top
          rw [hnext]
          exact h.next
        · rw [hchilds, h.childs_self]
        · rw [hparents, h.parents_self]
        · rw [hchilds, h.childs a ha]
        · rw [hparents, h.parents a q ha]
        · rw [htops, h.tops a ha]
          simp [ha]
        · rw [hnames, h.names a ha]
        · exact h.consistent.congr hlive hchilds hparents
            (fun a ha => h.consistent.tops a ((htops a).mp ha).2) hnames
        · refine h.tidy.congr hparents (State.nodup_tops_untop hnodup)
            (fun a ha => h.tidy.tops_root a ((htops a).mp ha).2) hnames fun a x' hx' => ?_
          rw [State.heap_dropHole, State.heap_addHole, Option.map_map] at hx'
          obtain ⟨z, hz, rfl⟩ := Option.map_eq_some_iff.mp hx'
          exact ⟨z, hz, rfl⟩
  | some c =>
      obtain ⟨hlc, hctop⟩ := hprev c rfl
      have hc : m.Live c := (h.live c).mpr (.inl hlc)
      have hcb : c ≠ b := fun hcb => h.fresh (hcb ▸ hlc)
      obtain rfl : m.link b c = j := Except.ok.inj ((connect_eq hb hc).symm.trans hj)
      have herase : ((m.link b c).parents c).erase b = [] ↔ t.parents c = [] := by
        have hperm := (State.parents_link_self (p := b) hc).erase b
        rw [List.erase_cons_head] at hperm
        have hm : m.parents c = [] ↔ t.parents c = [] := by
          constructor
          · exact fun hnil => eq_nil_of_count_eq (fun q => (h.parents c q hcb).ge) hnil
          · exact fun hnil => eq_nil_of_count_eq (fun q => (h.parents c q hcb).le) hnil
        rw [← hm]
        constructor
        · intro hnil
          rw [hnil] at hperm
          exact hperm.symm.eq_nil
        · intro hnil
          rw [hnil] at hperm
          exact hperm.eq_nil
      refine ⟨(m.link b c).unlink b c,
        disconnect_eq (State.live_link.mpr hb) (State.live_link.mpr hc), ?_⟩
      refine ⟨?_, h.fresh, fun a => ?_, ?_, ?_, fun a ha => ?_, fun a q ha => ?_,
        fun a ha => ?_,
        fun a ha => ?_, (h.consistent.link hb hc).unlink, h.tidy.link.unlink⟩
      · rw [State.next_unlink, State.next_link]
        exact h.next
      · rw [State.live_unlink, State.live_link, h.live]
      · have hperm := State.childs_link_self (c := c) hb
        rw [h.childs_self] at hperm
        rw [State.childs_unlink_self, List.perm_singleton.mp hperm, List.erase_cons_head]
      · rw [State.parents_unlink_of_ne hcb.symm, State.parents_link_of_ne hcb.symm,
          h.parents_self]
      · rw [State.childs_unlink_of_ne ha, State.childs_link_of_ne ha, h.childs a ha]
      · rw [State.count_parents_unlink, State.count_parents_link hc, h.parents a q ha]
        omega
      · rw [State.mem_tops_unlink (State.nodup_tops_link h.tidy.tops_nodup),
          State.mem_tops_link h.tidy.tops_nodup, herase, h.tops a ha]
        by_cases hac : a = c
        · subst hac
          simp only [ha, ne_eq, not_true_eq_false, false_and, and_false,
            false_or, true_and, State.live_link.mpr hc]
          exact ⟨hctop, ht.tops_root a⟩
        · simp [ha, hac]
      · rw [State.names_unlink, State.names_link, h.names a ha]

/-! ## Names -/

/-- The name of a backend. -/
def State.nameOf (s : State κ) (b : Nat) : Option String := (s.heap b).bind Backend.name

/-- The first backend of a list that has a name. -/
def firstNamed (names : Slots Nat) (nameOf : Nat → Option String) (name : String) :
    Option Nat :=
  names.items.find? fun b => nameOf b = some name

/-- The backend that is called so. -/
def State.called (s : State κ) (name : String) : Option Nat :=
  firstNamed s.names s.nameOf name

theorem State.live_of_called {t : State κ} (h : Closed t) {name : String} {b : Nat}
    (hb : t.called name = some b) : t.Live b :=
  h.names b (List.mem_of_find?_eq_some hb)

/-- `backend_find` returns the backend that is called so. -/
theorem find_eq {t : State κ} (h : Closed t) (name : String) :
    find name t = .ok (t.called name) := by
  have hfind : ∀ bs : List Nat, (∀ b ∈ bs, t.Live b) →
      findIn name t bs = .ok (bs.find? fun b => t.nameOf b = some name) := by
    intro bs
    induction bs with
    | nil => exact fun _ => rfl
    | cons a bs ih =>
        intro hbs
        obtain ⟨ha, hrest⟩ := List.forall_mem_cons.mp hbs
        obtain ⟨x, hx⟩ := State.live_iff.mp ha
        have hname : t.nameOf a = x.name := by
          rw [State.nameOf, hx]
          rfl
        have hstep : findIn name t (a :: bs) =
            if x.name = some name then .ok (some a) else findIn name t bs := by
          rw [findIn, State.backend_of_heap hx]
          rfl
        rw [hstep, List.find?_cons, hname]
        by_cases heq : x.name = some name
        · simp only [heq, if_true, decide_true]
        · simp only [heq, if_false, decide_false, ih hrest]
  exact hfind _ h.names

theorem Joined.nameOf {t u : State κ} {b : Nat} {prev : Option Nat}
    (h : Joined t b prev u) : u.nameOf = t.nameOf := by
  funext a
  unfold State.nameOf
  cases hu : u.heap a with
  | none =>
      have hno : ¬ t.Live a := fun hl => State.not_live_iff.mpr hu ((h.live a).mpr hl)
      rw [State.not_live_iff.mp hno]
  | some x' =>
      obtain ⟨x, hx, hname, -⟩ := h.name a x' hu
      rw [hx]
      exact hname

theorem State.nameOf_make {t : State κ} {x : Backend κ} :
    (t.make x).nameOf = Function.update t.nameOf t.next x.name := by
  funext a
  unfold State.nameOf
  rw [State.heap_make]
  by_cases ha : a = t.next
  · rw [ha, State.heap_alloc_self, Function.update_self]
    rfl
  · rw [State.heap_alloc_of_ne ha, Function.update_of_ne ha]

theorem State.names_make {t : State κ} {x : Backend κ} :
    (t.make x).names = if x.name.isSome then t.names.add (some t.next) else t.names := by
  unfold make
  split <;> rfl

/-! ## Items -/

section

variable {env : Env κ}

/-- What an item of a configuration asks for. -/
inductive Ask where
  | skip
  | cut
  | use (b : Nat)
  | make (name : Option String)
  | fail

/-- What an item asks for, if `called` gives the backends their names and a new one is
to be at `next`. -/
def ask (env : Env κ) (called : String → Option Nat) (next : Nat) :
    Entry (ItemData κ) → Ask
  | .null => .cut
  | .item _ (.hash config) =>
      match env.string config "class", env.string config "name" with
      | none, none => .fail
      | none, some name =>
          match called name with
          | none => .fail
          | some b => .use b
      | some cls, name =>
          match env.classFind cls with
          | none => .fail
          | some cls => if (env.copy config).isSome ∧ newFails env cls next = false
              then .make name else .fail
  | _ => .skip

/-- The backend that `backend_new_skeleton` makes. -/
def skeleton (env : Env κ) (name : Option String) (cls : Class) (config : κ) :
    Backend κ :=
  { cls := cls, name := name, config := env.copy config, refs := 1, childs := [],
    parents := [] }

theorem newSkeleton_some {t : State κ} {name : Option String} {cls : String}
    {config : κ} {c : Class} (hc : env.classFind cls = some c)
    (hcopy : (env.copy config).isSome) :
    newSkeleton env name cls config t
      = .ok (some t.next, t.make (skeleton env name c config)) := by
  unfold newSkeleton
  rw [hc]
  simp only [hcopy]
  rfl

variable (env) in
/-- If the configuration cannot be copied nothing is left of the backend. -/
theorem newSkeleton_none {t : State κ} (name : Option String)
    (cls : String) (config : κ) (h : Consistent t) (ht : Tidy t)
    (hno : env.classFind cls = none ∨ env.copy config = none) :
    ∃ u, newSkeleton env name cls config t = .ok (none, u) ∧ Resembles t u := by
  unfold newSkeleton
  cases hc : env.classFind cls with
  | none => exact ⟨t, rfl, .refl h ht⟩
  | some c =>
      have hcopy : env.copy config = none :=
        hno.resolve_left (by rw [hc]; exact Option.some_ne_none c)
      obtain ⟨u, hfree, hres⟩ := (besides_make h ht rfl rfl :
        Besides t t.next (t.make (skeleton env name c config))).free h.toClosed
      refine ⟨u, ?_, hres⟩
      have hmake : (if name.isSome then
          { t.alloc (skeleton env name c config) with
            names := (t.alloc (skeleton env name c config)).names.add (some t.next) }
          else t.alloc (skeleton env name c config))
            = t.make (skeleton env name c config) := rfl
      rw [← hmake] at hfree
      simp only [skeleton, hcopy] at hfree
      simp only [hcopy, Option.isSome_none, Bool.false_eq_true, if_false]
      exact congrArg (· >>= fun s => Except.ok (none, s)) hfree

/-- What every item finds: a graph in order, and the last backend among the tops if it
is a root. -/
structure Ready (ctx : NewCtx κ) : Prop where
  consistent : Consistent ctx.state
  tidy : Tidy ctx.state
  prev : ∀ c, ctx.prev = some c →
    ctx.state.Live c ∧ (ctx.state.parents c = [] → c ∈ ctx.state.tops.items)

/-- What comes of an item. -/
inductive Outcome (ctx : NewCtx κ) : Ask → Except (Halt κ) (NewCtx κ) → Prop
  | skip : Outcome ctx .skip (.ok ctx)
  | cut : Outcome ctx .cut (.ok { ctx with prev := none })
  | use {b : Nat} {u : State κ} : ctx.state.Live b → Joined ctx.state b ctx.prev u →
      Outcome ctx (.use b) (.ok { ctx with state := u, prev := some b })
  | make {x : Backend κ} {u : State κ} : Besides ctx.state ctx.state.next
      (ctx.state.make x) → Joined (ctx.state.make x) ctx.state.next ctx.prev u →
      Outcome ctx (.make x.name)
        (.ok ⟨u, ctx.backends.add (some ctx.state.next), some ctx.state.next⟩)
  | fail {u : State κ} : Resembles ctx.state u →
      Outcome ctx .fail (.error (.broke { ctx with state := u }))

/-- An item with a class makes a backend, or fails. -/
theorem newItem_make {ctx : NewCtx κ} (h : Ready ctx) (name : Option String)
    {cls : String} {c : Class} {config : κ} (hc : env.classFind cls = some c)
    (hcopy : (env.copy config).isSome) :
    ∃ u, Resembles ctx.state u ∧ newFails env c ctx.state.next = true ∧
        newItem env name (some cls) config ctx = .ok (false, { ctx with state := u }) ∨
      Joined (ctx.state.make (skeleton env name c config)) ctx.state.next ctx.prev u ∧
        newFails env c ctx.state.next = false ∧ newItem env name (some cls) config ctx =
          .ok (true, ⟨u, ctx.backends.add (some ctx.state.next),
            some ctx.state.next⟩) := by
  have hbesides : Besides ctx.state ctx.state.next
      (ctx.state.make (skeleton env name c config)) :=
    besides_make h.consistent h.tidy rfl rfl
  have hb : (ctx.state.make (skeleton env name c config)).Live ctx.state.next :=
    (hbesides.live _).mpr (.inr rfl)
  obtain ⟨u, hconnect, hjoined⟩ :=
    connect_joined hb fun c hc => (hbesides.live c).mpr (.inl (h.prev c hc).1)
  obtain ⟨y, hy⟩ := State.live_iff.mp ((hjoined.live _).mpr hb)
  have hcls : y.cls = c := by
    obtain ⟨x, hx, -, heq⟩ := hjoined.name _ y hy
    rw [State.heap_make, State.heap_alloc_self] at hx
    cases hx
    exact heq
  have hitem : newItem env name (some cls) config ctx =
      if newFails env c ctx.state.next then do
        let s ← disconnect ctx.state.next ctx.prev u
        let s ← freeSkeleton ctx.state.next s
        .ok (false, { ctx with state := s })
      else .ok
        (true, ⟨u, ctx.backends.add (some ctx.state.next), some ctx.state.next⟩) := by
    simp only [newItem, newSkeleton_some hc hcopy]
    change (connect ctx.state.next ctx.prev (ctx.state.make _) >>= _) = _
    rw [hconnect]
    change (u.backend ctx.state.next >>= _) = _
    rw [State.backend_of_heap hy, ← hcls]
    rfl
  by_cases hfails : newFails env c ctx.state.next = true
  · obtain ⟨d, hdis, hbesides'⟩ := hbesides.disconnect h.tidy h.prev hconnect
    obtain ⟨v, hfree, hres⟩ := hbesides'.free h.consistent.toClosed
    refine ⟨v, .inl ⟨hres, hfails, ?_⟩⟩
    rw [hitem, if_pos hfails, hdis]
    change (freeSkeleton ctx.state.next d >>= _) = _
    rw [hfree]
    rfl
  · refine ⟨u, .inr ⟨hjoined, Bool.eq_false_iff.mpr hfails, ?_⟩⟩
    rw [hitem, if_neg hfails]

variable (env) in
/-- **What comes of an item** is what it asks for. -/
theorem newIterator_outcome {ctx : NewCtx κ} (h : Ready ctx) (e : Entry (ItemData κ)) :
    Outcome ctx (ask env ctx.state.called ctx.state.next e) (newIterator env e ctx) := by
  have hsame : Outcome ctx .fail (.error (.broke ctx)) :=
    .fail (.refl h.consistent h.tidy)
  cases e with
  | null => exact .cut
  | inline => exact .skip
  | last => exact .skip
  | item key data =>
      cases data with
      | other => exact .skip
      | hash config =>
          rw [newIterator, ask]
          cases hcls : env.string config "class" with
          | none =>
              cases hname : env.string config "name" with
              | none => exact hsame
              | some name =>
                  have hfind := find_eq h.consistent.toClosed name
                  cases hcalled : ctx.state.called name with
                  | none =>
                      simp only [newItem, hfind, hcalled]
                      exact hsame
                  | some b =>
                      have hb := State.live_of_called h.consistent.toClosed hcalled
                      obtain ⟨u, hconnect, hjoined⟩ :=
                        connect_joined hb fun c hc => (h.prev c hc).1
                      have hitem : newItem env (some name) none config ctx =
                          .ok (true, { ctx with state := u, prev := some b }) := by
                        simp only [newItem, hfind, hcalled, bind, Except.bind, hconnect]
                      rw [hitem]
                      simp only [hcalled]
                      exact .use hb hjoined
          | some cls =>
              cases hc : env.classFind cls with
              | none =>
                  obtain ⟨u, hskel, hres⟩ :=
                    newSkeleton_none env (env.string config "name")
                    cls config h.consistent h.tidy (.inl hc)
                  simp only [newItem, hskel, hc]
                  exact .fail hres
              | some c =>
                  by_cases hcopy : (env.copy config).isSome
                  · obtain ⟨u, ⟨hres, hfails, hitem⟩ | ⟨hjoined, hfails, hitem⟩⟩ :=
                      newItem_make h (env.string config "name") hc hcopy
                    · rw [hitem]
                      simp only [hc, hcopy, hfails, Bool.true_eq_false,
                        and_false, if_false]
                      exact .fail hres
                    · rw [hitem]
                      simp only [hc, hcopy, hfails, and_self, if_true]
                      exact .make (besides_make h.consistent h.tidy rfl rfl) hjoined
                  · obtain ⟨u, hskel, hres⟩ :=
                      newSkeleton_none env (env.string config "name")
                      cls config h.consistent h.tidy
                        (.inr (Option.not_isSome_iff_eq_none.mp hcopy))
                    simp only [newItem, hskel, hc, hcopy, Bool.false_eq_true,
                      false_and, if_false]
                    exact .fail hres

end

end Frozen.Graph
