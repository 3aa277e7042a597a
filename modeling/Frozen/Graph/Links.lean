/-
# `Frozen.Graph.Links` — one link, and what every list of the graph agrees on

`Consistent` is the representation invariant of the graph: a backend is in the list of
children of another as often as that one is in its list of parents, and every pointer in
any list leads to a backend that is there.  `Tidy` is what the two global lists need to
keep this up: no pointer twice, only roots among the tops and only backends with a name
among the names.

`connect` and `disconnect` between backends that are there never stop; `State.link` and
`State.unlink` are the graphs they leave, and both keep `Consistent` and `Tidy`.
-/
import Frozen.Graph.Backend

namespace Frozen.Graph

variable {κ : Type}

/-! ## What the heap is asked for -/

namespace State

/-- The children of a backend, in the order of an iteration. -/
def childs (s : State κ) (a : Nat) : List Nat :=
  match s.heap a with
  | some x => x.childs.items
  | none => []

def parents (s : State κ) (a : Nat) : List Nat :=
  match s.heap a with
  | some x => x.parents.items
  | none => []

variable {s : State κ} {a b : Nat} {x : Backend κ}

theorem childs_of_heap (h : s.heap a = some x) : s.childs a = x.childs.items := by
  rw [childs, h]

theorem parents_of_heap (h : s.heap a = some x) : s.parents a = x.parents.items := by
  rw [parents, h]

theorem childs_of_none (h : s.heap a = none) : s.childs a = [] := by
  rw [childs, h]

theorem parents_of_none (h : s.heap a = none) : s.parents a = [] := by
  rw [parents, h]

theorem live_iff : s.Live a ↔ ∃ x, s.heap a = some x := Option.isSome_iff_exists

theorem live_of_heap (h : s.heap a = some x) : s.Live a := live_iff.mpr ⟨x, h⟩

theorem not_live_iff : ¬ s.Live a ↔ s.heap a = none := Option.not_isSome_iff_eq_none

theorem live_of_mem_childs (h : b ∈ s.childs a) : s.Live a := by
  by_contra hdead
  rw [childs_of_none (not_live_iff.mp hdead)] at h
  cases h

theorem live_of_mem_parents (h : b ∈ s.parents a) : s.Live a := by
  by_contra hdead
  rw [parents_of_none (not_live_iff.mp hdead)] at h
  cases h

theorem Live.lt_next (h : s.Live a) : a < s.next := by
  by_contra hle
  exact not_live_iff.mpr (s.fresh a (not_lt.mp hle)) h

theorem backend_of_heap (h : s.heap a = some x) : s.backend a = .ok x := by
  rw [backend, h]

theorem backend_of_none (h : s.heap a = none) : s.backend a = .error .freed := by
  rw [backend, h]

theorem heap_of_backend (h : s.backend a = .ok x) : s.heap a = some x := by
  cases hx : s.heap a with
  | none =>
      rw [backend_of_none hx] at h
      cases h
  | some y =>
      rw [backend_of_heap hx] at h
      rw [Except.ok.inj h]

@[simp] theorem heap_untop : (s.untop b).heap = s.heap := rfl

@[simp] theorem names_untop : (s.untop b).names = s.names := rfl

@[simp] theorem next_untop : (s.untop b).next = s.next := rfl

@[simp] theorem heap_top : (s.top b).heap = s.heap := by
  unfold top
  split
  · rfl
  · split <;> rfl

@[simp] theorem names_top : (s.top b).names = s.names := by
  unfold top
  split
  · rfl
  · split <;> rfl

@[simp] theorem next_top : (s.top b).next = s.next := by
  unfold top
  split
  · rfl
  · split <;> rfl

theorem heap_modify (f : Backend κ → Backend κ) :
    (s.modify b f).heap a = if a = b then (s.heap b).map f else s.heap a := rfl

theorem heap_modify_self (f : Backend κ → Backend κ) (h : s.heap a = some x) :
    (s.modify a f).heap a = some (f x) := by
  rw [heap_modify, if_pos rfl, h]
  rfl

theorem heap_modify_of_ne (f : Backend κ → Backend κ) (h : a ≠ b) :
    (s.modify b f).heap a = s.heap a := by
  rw [heap_modify, if_neg h]

@[simp] theorem live_modify (f : Backend κ → Backend κ) :
    (s.modify b f).Live a ↔ s.Live a := by
  unfold Live
  rw [heap_modify]
  split
  · rename_i h
    rw [h, Option.isSome_map]
  · rfl

/-! ## The tops -/

theorem mem_tops_top {t : Nat} :
    t ∈ (s.top a).tops.items ↔ t ∈ s.tops.items ∨ t = a ∧ s.Live a ∧
      s.parents a = [] := by
  unfold top
  split
  · rename_i h
    rw [← not_live_iff] at h
    simp [h]
  · rename_i x h
    rw [parents_of_heap h, ← Slots.isEmpty_iff]
    have hlive := live_of_heap h
    split
    · rename_i hempty
      rw [Slots.mem_items_add, Slots.items_delete]
      by_cases ht : t = a
      · simp [ht, hlive, hempty]
      · simp [ht, List.mem_erase_of_ne ht]
    · rename_i hempty
      simp [hempty]

theorem nodup_tops_top (h : s.tops.items.Nodup) : (s.top a).tops.items.Nodup := by
  unfold top
  split
  · exact h
  · split
    · rw [(Slots.items_add _ _).nodup_iff, Slots.items_delete, List.nodup_cons]
      exact ⟨h.not_mem_erase, h.erase a⟩
    · exact h

theorem mem_tops_untop {t : Nat} (h : s.tops.items.Nodup) :
    t ∈ (s.untop a).tops.items ↔ t ≠ a ∧ t ∈ s.tops.items := by
  rw [untop, Slots.items_delete, h.mem_erase_iff]

theorem nodup_tops_untop (h : s.tops.items.Nodup) : (s.untop a).tops.items.Nodup := by
  rw [untop, Slots.items_delete]
  exact h.erase a

/-- Other backends stay among the tops as they are, in their order. -/
theorem filter_tops_top {K : Nat → Bool} (h : K a = false) :
    (s.top a).tops.items.filter K = s.tops.items.filter K := by
  unfold top
  split
  · rfl
  · split
    · rw [Slots.filter_items_add h, Slots.filter_items_delete h]
    · rfl

theorem filter_tops_untop {K : Nat → Bool} (h : K a = false) :
    (s.untop a).tops.items.filter K = s.tops.items.filter K :=
  Slots.filter_items_delete h _

end State

/-! ## The invariant -/

/-- Every pointer of a list leads to a backend that is there. -/
structure Closed (s : State κ) : Prop where
  childs : ∀ p, ∀ c ∈ s.childs p, s.Live c
  parents : ∀ c, ∀ p ∈ s.parents c, s.Live p
  tops : ∀ a ∈ s.tops.items, s.Live a
  names : ∀ a ∈ s.names.items, s.Live a

/-- The representation invariant. -/
structure Consistent (s : State κ) : Prop extends Closed s where
  links : ∀ p c, s.Live p → s.Live c → (s.childs p).count c = (s.parents c).count p

/-- What keeps the global lists in order. -/
structure Tidy (s : State κ) : Prop where
  tops_nodup : s.tops.items.Nodup
  tops_root : ∀ a ∈ s.tops.items, s.parents a = []
  names_nodup : s.names.items.Nodup
  named : ∀ a ∈ s.names.items, ∀ x, s.heap a = some x → x.name.isSome

theorem consistent_empty : Consistent (State.empty : State κ) where
  childs := fun _ _ h => absurd h List.not_mem_nil
  parents := fun _ _ h => absurd h List.not_mem_nil
  tops := fun _ h => absurd h List.not_mem_nil
  names := fun _ h => absurd h List.not_mem_nil
  links := fun _ _ _ _ => rfl

theorem tidy_empty : Tidy (State.empty : State κ) where
  tops_nodup := List.nodup_nil
  tops_root := fun _ h => absurd h List.not_mem_nil
  names_nodup := List.nodup_nil
  named := fun _ h => absurd h List.not_mem_nil

/-! ## One link -/

namespace State

/-- The graph after `connect p (some c)`. -/
def link (s : State κ) (p c : Nat) : State κ :=
  (((s.modify p fun x => { x with childs := x.childs.add (some c) }).top p).untop
    c).modify c fun x => { x with parents := x.parents.add (some p) }

/-- The graph after `disconnect p (some c)`. -/
def unlink (s : State κ) (p c : Nat) : State κ :=
  (((s.untop p).modify p fun x => { x with childs := x.childs.delete (some c) }).modify c
    fun x => { x with parents := x.parents.delete (some p) }).top c

variable {s : State κ} {p c a : Nat}

theorem heap_link : (s.link p c).heap a = (s.heap a).map fun x =>
    { x with
      childs := if a = p then x.childs.add (some c) else x.childs
      parents := if a = c then x.parents.add (some p) else x.parents } := by
  simp only [link, heap_modify, heap_untop, heap_top]
  by_cases hp : a = p <;> by_cases hc : a = c
  · subst hp hc
    simp [Function.comp_def]
  · subst hp
    simp [hc]
  · subst hc
    simp [hp]
  · simp [hp, hc]

theorem heap_unlink : (s.unlink p c).heap a = (s.heap a).map fun x =>
    { x with
      childs := if a = p then x.childs.delete (some c) else x.childs
      parents := if a = c then x.parents.delete (some p) else x.parents } := by
  simp only [unlink, heap_modify, heap_untop, heap_top]
  by_cases hp : a = p <;> by_cases hc : a = c
  · subst hp hc
    simp [Function.comp_def]
  · subst hp
    simp [hc]
  · subst hc
    simp [hp]
  · simp [hp, hc]

@[simp] theorem live_link : (s.link p c).Live a ↔ s.Live a := by
  rw [Live, heap_link, Option.isSome_map]
  rfl

@[simp] theorem live_unlink : (s.unlink p c).Live a ↔ s.Live a := by
  rw [Live, heap_unlink, Option.isSome_map]
  rfl

@[simp] theorem next_link : (s.link p c).next = s.next := by
  simp only [link, modify, next_untop, next_top]

@[simp] theorem next_unlink : (s.unlink p c).next = s.next := by
  simp only [unlink, next_top]
  rfl

@[simp] theorem names_link : (s.link p c).names = s.names := by
  simp only [link, modify, names_untop, names_top]

@[simp] theorem names_unlink : (s.unlink p c).names = s.names := by
  simp only [unlink, names_top]
  rfl

theorem childs_link_self (hp : s.Live p) :
    ((s.link p c).childs p).Perm (c :: s.childs p) := by
  obtain ⟨x, hx⟩ := live_iff.mp hp
  have hx' : (s.link p c).heap p = _ := heap_link
  rw [hx] at hx'
  rw [childs_of_heap hx', childs_of_heap hx]
  simp only [if_true]
  exact Slots.items_add c x.childs

theorem parents_link_self (hc : s.Live c) :
    ((s.link p c).parents c).Perm (p :: s.parents c) := by
  obtain ⟨x, hx⟩ := live_iff.mp hc
  have hx' : (s.link p c).heap c = _ := heap_link
  rw [hx] at hx'
  rw [parents_of_heap hx', parents_of_heap hx]
  simp only [if_true]
  exact Slots.items_add p x.parents

theorem childs_link_of_ne (h : a ≠ p) : (s.link p c).childs a = s.childs a := by
  unfold childs
  rw [heap_link]
  cases s.heap a <;> simp [h]

theorem parents_link_of_ne (h : a ≠ c) : (s.link p c).parents a = s.parents a := by
  unfold parents
  rw [heap_link]
  cases s.heap a <;> simp [h]

theorem childs_unlink_self : (s.unlink p c).childs p = (s.childs p).erase c := by
  unfold childs
  rw [heap_unlink]
  cases s.heap p with
  | none => rfl
  | some x => simp [Slots.items_delete]

theorem parents_unlink_self : (s.unlink p c).parents c = (s.parents c).erase p := by
  unfold parents
  rw [heap_unlink]
  cases s.heap c with
  | none => rfl
  | some x => simp [Slots.items_delete]

theorem childs_unlink_of_ne (h : a ≠ p) : (s.unlink p c).childs a = s.childs a := by
  unfold childs
  rw [heap_unlink]
  cases s.heap a <;> simp [h]

theorem parents_unlink_of_ne (h : a ≠ c) : (s.unlink p c).parents a = s.parents a := by
  unfold parents
  rw [heap_unlink]
  cases s.heap a <;> simp [h]

theorem count_childs_link {d : Nat} (hp : s.Live p) :
    ((s.link p c).childs a).count d = (s.childs a).count d + if a = p ∧ c = d then 1
      else 0 := by
  by_cases ha : a = p
  · subst ha
    rw [(childs_link_self hp).count_eq, List.count_cons]
    simp only [beq_iff_eq, true_and]
  · simp [childs_link_of_ne ha, ha]

theorem count_parents_link {d : Nat} (hc : s.Live c) :
    ((s.link p c).parents a).count d = (s.parents a).count d + if a = c ∧ p = d then 1
      else 0 := by
  by_cases ha : a = c
  · subst ha
    rw [(parents_link_self hc).count_eq, List.count_cons]
    simp only [beq_iff_eq, true_and]
  · simp [parents_link_of_ne ha, ha]

theorem count_childs_unlink {d : Nat} :
    ((s.unlink p c).childs a).count d = (s.childs a).count d - if a = p ∧ c = d then 1
      else 0 := by
  by_cases ha : a = p
  · subst ha
    rw [childs_unlink_self, List.count_erase]
    simp only [beq_iff_eq, true_and]
  · simp [childs_unlink_of_ne ha, ha]

theorem count_parents_unlink {d : Nat} :
    ((s.unlink p c).parents a).count d = (s.parents a).count d - if a = c ∧ p = d
      then 1 else 0 := by
  by_cases ha : a = c
  · subst ha
    rw [parents_unlink_self, List.count_erase]
    simp only [beq_iff_eq, true_and]
  · simp [parents_unlink_of_ne ha, ha]

theorem mem_tops_link {t : Nat} (h : s.tops.items.Nodup) :
    t ∈ (s.link p c).tops.items ↔
      t ≠ c ∧ (t ∈ s.tops.items ∨ t = p ∧ s.Live p ∧ s.parents p = []) := by
  let s₁ := s.modify p fun x => { x with childs := x.childs.add (some c) }
  have hparents : s₁.parents p = s.parents p := by
    unfold parents
    rw [heap_modify, if_pos rfl]
    cases s.heap p <;> rfl
  have h₁ : s₁.tops.items.Nodup := h
  change t ∈ ((s₁.top p).untop c).tops.items ↔ _
  rw [mem_tops_untop (nodup_tops_top h₁), mem_tops_top, live_modify, hparents]
  rfl

/-- Only the parent may come to the tops. -/
theorem live_of_mem_tops_link {t : Nat} (h : t ∈ (s.link p c).tops.items) :
    t ∈ s.tops.items ∨ s.Live t := by
  let s₁ := s.modify p fun x => { x with childs := x.childs.add (some c) }
  change t ∈ ((s₁.top p).untop c).tops.items at h
  rw [untop, Slots.items_delete] at h
  rcases mem_tops_top.mp (List.mem_of_mem_erase h) with h | ⟨rfl, hlive, -⟩
  · exact .inl h
  · exact .inr ((live_modify _).mp hlive)

theorem nodup_tops_link (h : s.tops.items.Nodup) : (s.link p c).tops.items.Nodup := by
  let s₁ := s.modify p fun x => { x with childs := x.childs.add (some c) }
  have h₁ : s₁.tops.items.Nodup := h
  change ((s₁.top p).untop c).tops.items.Nodup
  exact nodup_tops_untop (nodup_tops_top h₁)

theorem mem_tops_unlink {t : Nat} (h : s.tops.items.Nodup) :
    t ∈ (s.unlink p c).tops.items ↔
      t ≠ p ∧ t ∈ s.tops.items ∨ t = c ∧ s.Live c ∧ (s.parents c).erase p = [] := by
  let s₁ := ((s.untop p).modify p fun x =>
    { x with childs := x.childs.delete (some c) }).modify c
    fun x => { x with parents := x.parents.delete (some p) }
  have hparents : s₁.parents c = (s.parents c).erase p := by
    rw [← parents_unlink_self]
    unfold parents
    rw [unlink, heap_top]
  have htops : s₁.tops = (s.untop p).tops := rfl
  change t ∈ (s₁.top c).tops.items ↔ _
  rw [mem_tops_top, htops, mem_tops_untop h, hparents, live_modify, live_modify]
  rfl

/-- Only the child may come to the tops. -/
theorem live_of_mem_tops_unlink {t : Nat} (h : t ∈ (s.unlink p c).tops.items) :
    t ∈ s.tops.items ∨ s.Live t := by
  rw [unlink] at h
  rcases mem_tops_top.mp h with h | ⟨rfl, hlive, -⟩
  · have herase : t ∈ s.tops.items.erase p := by
      rw [← Slots.items_delete]
      exact h
    exact .inl (List.mem_of_mem_erase herase)
  · rw [live_modify, live_modify] at hlive
    exact .inr hlive

theorem nodup_tops_unlink (h : s.tops.items.Nodup) : (s.unlink p c).tops.items.Nodup :=
  nodup_tops_top (nodup_tops_untop h)

/-- The other fields of a backend do not change. -/
theorem name_of_link {x : Backend κ} (h : (s.link p c).heap a = some x) :
    ∃ y, s.heap a = some y ∧ y.name = x.name := by
  rw [heap_link] at h
  obtain ⟨y, hy, rfl⟩ := Option.map_eq_some_iff.mp h
  exact ⟨y, hy, rfl⟩

theorem name_of_unlink {x : Backend κ} (h : (s.unlink p c).heap a = some x) :
    ∃ y, s.heap a = some y ∧ y.name = x.name := by
  rw [heap_unlink] at h
  obtain ⟨y, hy, rfl⟩ := Option.map_eq_some_iff.mp h
  exact ⟨y, hy, rfl⟩

end State

section

variable {s : State κ} {p c : Nat}

theorem connect_eq (hp : s.Live p) (hc : s.Live c) :
    connect p (some c) s = .ok (s.link p c) := by
  obtain ⟨x, hx⟩ := State.live_iff.mp hp
  have hc' : (((s.modify p fun x => { x with childs := x.childs.add (some c) }).top
      p).untop c).Live c := by
    rw [State.Live, State.heap_untop, State.heap_top]
    exact (State.live_modify _).mpr hc
  obtain ⟨y, hy⟩ := State.live_iff.mp hc'
  simp only [connect, State.backend_of_heap hx, State.backend_of_heap hy]
  rfl

theorem disconnect_eq (hp : s.Live p) (hc : s.Live c) :
    disconnect p (some c) s = .ok (s.unlink p c) := by
  obtain ⟨x, hx⟩ := State.live_iff.mp hp
  have hx' : (s.untop p).heap p = some x := hx
  have hc' : ((s.untop p).modify p fun x =>
      { x with childs := x.childs.delete (some c) }).Live c :=
    (State.live_modify _).mpr hc
  obtain ⟨y, hy⟩ := State.live_iff.mp hc'
  simp only [disconnect, State.backend_of_heap hx', State.backend_of_heap hy]
  rfl

/-- A link to or from a backend that was freed is not followed. -/
theorem disconnect_freed (hp : s.Live p) (hc : ¬ s.Live c) :
    disconnect p (some c) s = .error .freed := by
  obtain ⟨x, hx⟩ := State.live_iff.mp hp
  have hx' : (s.untop p).heap p = some x := hx
  have hc' : ¬ ((s.untop p).modify p fun x =>
      { x with childs := x.childs.delete (some c) }).Live c :=
    fun h => hc ((State.live_modify _).mp h)
  simp only [disconnect, State.backend_of_heap hx',
    State.backend_of_none (State.not_live_iff.mp hc')]
  rfl

theorem Closed.link (h : Closed s) (hp : s.Live p) (hc : s.Live c) :
    Closed (s.link p c) where
  childs := by
    intro a d hd
    rw [State.live_link]
    by_cases ha : a = p
    · subst ha
      rcases List.mem_cons.mp ((State.childs_link_self hp).mem_iff.mp hd) with rfl | hd
      · exact hc
      · exact h.childs a d hd
    · rw [State.childs_link_of_ne ha] at hd
      exact h.childs a d hd
  parents := by
    intro a d hd
    rw [State.live_link]
    by_cases ha : a = c
    · subst ha
      rcases List.mem_cons.mp ((State.parents_link_self hc).mem_iff.mp hd) with rfl | hd
      · exact hp
      · exact h.parents a d hd
    · rw [State.parents_link_of_ne ha] at hd
      exact h.parents a d hd
  tops := by
    intro a ha
    rw [State.live_link]
    rcases State.live_of_mem_tops_link ha with ha | ha
    · exact h.tops a ha
    · exact ha
  names := by
    intro a ha
    rw [State.names_link] at ha
    rw [State.live_link]
    exact h.names a ha

theorem Closed.unlink (h : Closed s) : Closed (s.unlink p c) where
  childs := by
    intro a d hd
    rw [State.live_unlink]
    by_cases ha : a = p
    · subst ha
      rw [State.childs_unlink_self] at hd
      exact h.childs a d (List.mem_of_mem_erase hd)
    · rw [State.childs_unlink_of_ne ha] at hd
      exact h.childs a d hd
  parents := by
    intro a d hd
    rw [State.live_unlink]
    by_cases ha : a = c
    · subst ha
      rw [State.parents_unlink_self] at hd
      exact h.parents a d (List.mem_of_mem_erase hd)
    · rw [State.parents_unlink_of_ne ha] at hd
      exact h.parents a d hd
  tops := by
    intro a ha
    rw [State.live_unlink]
    rcases State.live_of_mem_tops_unlink ha with ha | ha
    · exact h.tops a ha
    · exact ha
  names := by
    intro a ha
    rw [State.names_unlink] at ha
    rw [State.live_unlink]
    exact h.names a ha

theorem Tidy.link (h : Tidy s) : Tidy (s.link p c) where
  tops_nodup := State.nodup_tops_link h.tops_nodup
  tops_root := by
    intro a ha
    obtain ⟨hne, ha⟩ := (State.mem_tops_link h.tops_nodup).mp ha
    rw [State.parents_link_of_ne hne]
    rcases ha with ha | ⟨rfl, -, hroot⟩
    · exact h.tops_root a ha
    · exact hroot
  names_nodup := by
    rw [State.names_link]
    exact h.names_nodup
  named := by
    intro a ha x hx
    rw [State.names_link] at ha
    obtain ⟨y, hy, hname⟩ := State.name_of_link hx
    exact hname ▸ h.named a ha y hy

theorem Tidy.unlink (h : Tidy s) : Tidy (s.unlink p c) where
  tops_nodup := State.nodup_tops_unlink h.tops_nodup
  tops_root := by
    intro a ha
    have hroot : s.parents a = [] → (s.unlink p c).parents a = [] := by
      intro hnil
      by_cases hc : a = c
      · subst hc
        rw [State.parents_unlink_self, hnil]
        rfl
      · rw [State.parents_unlink_of_ne hc, hnil]
    rcases (State.mem_tops_unlink h.tops_nodup).mp ha with ⟨-, ha⟩ | ⟨rfl, -, herase⟩
    · exact hroot (h.tops_root a ha)
    · rw [State.parents_unlink_self]
      exact herase
  names_nodup := by
    rw [State.names_unlink]
    exact h.names_nodup
  named := by
    intro a ha x hx
    rw [State.names_unlink] at ha
    obtain ⟨y, hy, hname⟩ := State.name_of_unlink hx
    exact hname ▸ h.named a ha y hy

/-- **A link keeps the lists in step.** -/
theorem Consistent.link (h : Consistent s) (hp : s.Live p) (hc : s.Live c) :
    Consistent (s.link p c) where
  toClosed := h.toClosed.link hp hc
  links := by
    intro a d ha hd
    rw [State.live_link] at ha hd
    rw [State.count_childs_link hp, State.count_parents_link hc, h.links a d ha hd]
    simp only [and_comm, eq_comm]

theorem Consistent.unlink (h : Consistent s) : Consistent (s.unlink p c) where
  toClosed := h.toClosed.unlink
  links := by
    intro a d ha hd
    rw [State.live_unlink] at ha hd
    rw [State.count_childs_unlink, State.count_parents_unlink, h.links a d ha hd]
    simp only [and_comm, eq_comm]

end

/-! ## Several links -/

namespace State

/-- The graph after `p` is connected to each of a list. -/
def linkAll (s : State κ) (p : Nat) (cs : List Nat) : State κ :=
  cs.foldl (fun s c => s.link p c) s

variable {s : State κ} {p a : Nat} {cs : List Nat}

theorem linkAll_cons {c : Nat} : s.linkAll p (c :: cs) = (s.link p c).linkAll p cs := rfl

@[simp] theorem live_linkAll : (s.linkAll p cs).Live a ↔ s.Live a := by
  induction cs generalizing s with
  | nil => rfl
  | cons c cs ih => rw [linkAll_cons, ih, live_link]

theorem childs_linkAll_of_ne (h : a ≠ p) : (s.linkAll p cs).childs a = s.childs a := by
  induction cs generalizing s with
  | nil => rfl
  | cons c cs ih => rw [linkAll_cons, ih, childs_link_of_ne h]

theorem childs_linkAll_self (hp : s.Live p) :
    ((s.linkAll p cs).childs p).Perm (cs ++ s.childs p) := by
  induction cs generalizing s with
  | nil => rfl
  | cons c cs ih =>
      rw [linkAll_cons]
      refine (ih (live_link.mpr hp)).trans ?_
      refine ((childs_link_self hp).append_left cs).trans ?_
      exact List.perm_middle

end State

theorem connectAll_eq {p : Nat} {cs : List Nat} {s : State κ} (hp : s.Live p)
    (hcs : ∀ c ∈ cs, s.Live c) :
    cs.foldlM (fun s c => connect p (some c) s) s = .ok (s.linkAll p cs) := by
  induction cs generalizing s with
  | nil => rfl
  | cons c cs ih =>
      obtain ⟨hc, hcs'⟩ := List.forall_mem_cons.mp hcs
      rw [List.foldlM_cons, connect_eq hp hc]
      exact ih (State.live_link.mpr hp) fun d hd => State.live_link.mpr (hcs' d hd)

theorem Consistent.linkAll {p : Nat} {cs : List Nat} {s : State κ} (h : Consistent s)
    (hp : s.Live p) (hcs : ∀ c ∈ cs, s.Live c) : Consistent (s.linkAll p cs) := by
  induction cs generalizing s with
  | nil => exact h
  | cons c cs ih =>
      obtain ⟨hc, hcs'⟩ := List.forall_mem_cons.mp hcs
      exact ih (h.link hp hc) (State.live_link.mpr hp) fun d hd =>
        State.live_link.mpr (hcs' d hd)

theorem Tidy.linkAll {p : Nat} {cs : List Nat} {s : State κ} (h : Tidy s) :
    Tidy (s.linkAll p cs) := by
  induction cs generalizing s with
  | nil => exact h
  | cons c cs ih => exact ih h.link

/-! ## A new backend -/

section

variable {s : State κ} {x : Backend κ}

theorem State.heap_alloc_of_ne {a : Nat} (h : a ≠ s.next) :
    (s.alloc x).heap a = s.heap a := if_neg h

theorem State.heap_alloc_self : (s.alloc x).heap s.next = some x := if_pos rfl

theorem State.live_alloc {a : Nat} : (s.alloc x).Live a ↔ s.Live a ∨ a = s.next := by
  by_cases ha : a = s.next
  · subst ha
    simp [Live, heap_alloc_self]
  · simp [Live, heap_alloc_of_ne ha, ha]

theorem State.childs_alloc (hx : x.childs.items = []) (a : Nat) :
    (s.alloc x).childs a = s.childs a := by
  by_cases ha : a = s.next
  · subst ha
    rw [childs_of_heap heap_alloc_self, hx, childs_of_none (s.fresh _ (le_refl _))]
  · unfold childs
    rw [heap_alloc_of_ne ha]

theorem State.parents_alloc (hx : x.parents.items = []) (a : Nat) :
    (s.alloc x).parents a = s.parents a := by
  by_cases ha : a = s.next
  · subst ha
    rw [parents_of_heap heap_alloc_self, hx, parents_of_none (s.fresh _ (le_refl _))]
  · unfold parents
    rw [heap_alloc_of_ne ha]

/-- Nothing leads to or from an address that was not handed out. -/
theorem Closed.childs_next (h : Closed s) (a : Nat) : s.next ∉ s.childs a := fun hmem =>
  absurd (h.childs a _ hmem).lt_next (lt_irrefl _)

theorem Closed.parents_next (h : Closed s) (a : Nat) : s.next ∉ s.parents a := fun hmem =>
  absurd (h.parents a _ hmem).lt_next (lt_irrefl _)

theorem Consistent.alloc (h : Consistent s) (hc : x.childs.items = [])
    (hp : x.parents.items = []) : Consistent (s.alloc x) where
  childs := by
    intro a c hmem
    rw [State.childs_alloc hc] at hmem
    exact State.live_alloc.mpr (.inl (h.childs a c hmem))
  parents := by
    intro a c hmem
    rw [State.parents_alloc hp] at hmem
    exact State.live_alloc.mpr (.inl (h.parents a c hmem))
  tops := fun a ha => State.live_alloc.mpr (.inl (h.tops a ha))
  names := fun a ha => State.live_alloc.mpr (.inl (h.names a ha))
  links := by
    intro p c hlp hlc
    rw [State.childs_alloc hc, State.parents_alloc hp]
    rcases State.live_alloc.mp hlp with hlp | rfl
    · rcases State.live_alloc.mp hlc with hlc | rfl
      · exact h.links p c hlp hlc
      · rw [List.count_eq_zero.mpr (h.childs_next p),
          State.parents_of_none (s.fresh _ (le_refl _))]
        rfl
    · rw [List.count_eq_zero.mpr (h.parents_next c),
        State.childs_of_none (s.fresh _ (le_refl _))]
      rfl

theorem Tidy.alloc (h : Tidy s) (hc : Closed s) (hp : x.parents.items = []) :
    Tidy (s.alloc x) where
  tops_nodup := h.tops_nodup
  tops_root := by
    intro a ha
    rw [State.parents_alloc hp]
    exact h.tops_root a ha
  names_nodup := h.names_nodup
  named := by
    intro a ha y hy
    rw [State.heap_alloc_of_ne (hc.names a ha).lt_next.ne] at hy
    exact h.named a ha y hy

end

/-! ## Small graphs -/

/-- A backend of a class without callbacks, as `backend_clone` makes it. -/
def plainBackend : Backend Unit where
  cls := { name := "plain", init := false, configure := false, fork := false }
  name := none
  config := none
  refs := 1
  childs := []
  parents := []

/-- `n` backends. -/
def plainBackends : Nat → State Unit
  | 0 => .empty
  | n + 1 => (plainBackends n).alloc plainBackend

/-- `n` backends with the given links, connected in this order. -/
def graphOf (n : Nat) (links : List (Nat × Nat)) : State Unit :=
  links.foldl (fun s l => s.link l.1 l.2) (plainBackends n)

theorem next_plainBackends (n : Nat) : (plainBackends n).next = n := by
  induction n with
  | zero => rfl
  | succ n ih => exact congrArg (· + 1) ih

theorem live_plainBackends {n a : Nat} : (plainBackends n).Live a ↔ a < n := by
  induction n with
  | zero => simp [plainBackends, State.empty, State.Live]
  | succ n ih =>
      rw [plainBackends, State.live_alloc, ih, next_plainBackends]
      omega

theorem childs_plainBackends (n a : Nat) : (plainBackends n).childs a = [] := by
  induction n with
  | zero => rfl
  | succ n ih => rw [plainBackends, State.childs_alloc rfl, ih]

theorem consistent_plainBackends (n : Nat) :
    Consistent (plainBackends n) ∧ Tidy (plainBackends n) := by
  induction n with
  | zero => exact ⟨consistent_empty, tidy_empty⟩
  | succ n ih => exact ⟨ih.1.alloc rfl rfl, ih.2.alloc ih.1.toClosed rfl⟩

/-- Links between the backends make a consistent graph. -/
theorem consistent_graphOf {n : Nat} {links : List (Nat × Nat)}
    (h : ∀ l ∈ links, l.1 < n ∧ l.2 < n) :
    Consistent (graphOf n links) ∧ Tidy (graphOf n links) ∧
      (∀ a, (graphOf n links).Live a ↔ a < n) ∧
      ∀ a, ∀ c ∈ (graphOf n links).childs a, (a, c) ∈ links := by
  have hfold : ∀ (links done : List (Nat × Nat)) (s : State Unit),
      (∀ l ∈ links, l.1 < n ∧ l.2 < n) →
      Consistent s → Tidy s → (∀ a, s.Live a ↔ a < n) →
      (∀ a, ∀ c ∈ s.childs a, (a, c) ∈ done) →
        let t := links.foldl (fun s l => s.link l.1 l.2) s
        Consistent t ∧ Tidy t ∧ (∀ a, t.Live a ↔ a < n) ∧ ∀ a, ∀ c ∈ t.childs a,
          (a, c) ∈ done ++ links := by
    intro links
    induction links with
    | nil =>
        intro done s _ hs ht hlive hchilds
        exact ⟨hs, ht, hlive, by simpa using hchilds⟩
    | cons l links ih =>
        intro done s hl hs ht hlive hchilds
        obtain ⟨hhere, hrest⟩ := List.forall_mem_cons.mp hl
        have hp := (hlive l.1).mpr hhere.1
        obtain ⟨h₁, h₂, h₃, h₄⟩ := ih (done ++ [l]) (s.link l.1 l.2) hrest
          (hs.link hp ((hlive l.2).mpr hhere.2)) ht.link
          (fun a => State.live_link.trans (hlive a)) (by
            intro a c hc
            by_cases ha : a = l.1
            · subst ha
              rcases List.mem_cons.mp ((State.childs_link_self hp).mem_iff.mp hc)
                with rfl | hc
              · exact List.mem_append_right _ (List.mem_singleton_self _)
              · exact List.mem_append_left _ (hchilds _ c hc)
            · rw [State.childs_link_of_ne ha] at hc
              exact List.mem_append_left _ (hchilds a c hc))
        exact ⟨h₁, h₂, h₃, by simpa using h₄⟩
  obtain ⟨hs, ht⟩ := consistent_plainBackends n
  refine hfold links [] (plainBackends n) h hs ht (fun _ => live_plainBackends) ?_
  intro a c hc
  rw [childs_plainBackends] at hc
  cases hc

end Frozen.Graph
