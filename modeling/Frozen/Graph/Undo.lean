/-
# `Frozen.Graph.Undo` — the clean-up of `backend_new`

The backends that were made are popped in the order in which they were made; of each the
children are disconnected, and it is freed.  Nothing disconnects it from its parents.
So the clean-up is right for graphs in which no backend that goes is the child of one
that stays, or of one that is popped later (`Cleanable`): a later one would be
disconnected from memory that was freed.  And of a child that stays and is there twice,
one entry in its list of parents is left (see `Drained`).

    undo_ok            what one round does, if it returns
    foldlM_undo        the clean-up of a cleanable graph returns
-/
import Frozen.Graph.Destroy

namespace Frozen.Graph

open Lib

variable {κ : Type}

/-! ## One round -/

/-- The loop returns only if every child is there. -/
theorem drained_of_ok {p n : Nat} {t u : State κ} (hp : t.Live p)
    (h : whilePop .childs (fun c => disconnect p (some c)) p n t = .ok u) :
    Drained t p u ∧ ∀ c ∈ t.childs p, t.Live c := by
  induction n generalizing t with
  | zero => cases h
  | succ n ih =>
      obtain ⟨x, hx⟩ := State.live_iff.mp hp
      rw [State.childs_of_heap hx]
      cases hitems : x.childs.items with
      | nil =>
          have hitems' : (x.list .childs).items = [] := hitems
          rw [whilePop_nil _ _ hx hitems'] at h
          cases h
          exact ⟨.refl ((State.childs_of_heap hx).trans hitems),
            fun _ h => absurd h List.not_mem_nil⟩
      | cons c cs =>
          have hitems' : (x.list .childs).items = c :: cs := hitems
          have htail : (x.list .childs).pop.2.items = cs := by
            rw [Slots.items_pop, hitems']
            rfl
          let t₁ := t.modify p fun y => y.put (x.list .childs).pop.2 .childs
          have hlive₁ : ∀ a, t₁.Live a ↔ t.Live a := fun a => State.live_modify _
          rw [whilePop_cons _ _ hx hitems'] at h
          by_cases hc : t.Live c
          · rw [disconnect_eq ((hlive₁ p).mpr hp) ((hlive₁ c).mpr hc)] at h
            obtain ⟨hdrained, hrest⟩ := ih (State.live_unlink.mpr ((hlive₁ p).mpr hp)) h
            refine ⟨hdrained.cons hx (by rw [htail, hitems]) hc, ?_⟩
            have hchilds : (t₁.unlink p c).childs p = cs.erase c := by
              rw [State.childs_unlink_self,
                State.childs_of_heap (State.heap_modify_self _ hx), ← htail]
              rfl
            intro d hd
            by_cases hdc : d = c
            · rw [hdc]
              exact hc
            · have hmem : d ∈ cs.erase c :=
                (List.mem_erase_of_ne hdc).mpr ((List.mem_cons.mp hd).resolve_left hdc)
              rw [← hchilds] at hmem
              exact (hlive₁ d).mp (State.live_unlink.mp (hrest d hmem))
          · rw [disconnect_freed ((hlive₁ p).mpr hp) fun h => hc ((hlive₁ c).mp h)] at h
            cases h

/-- The graph after one round of the clean-up. -/
structure Undone (t : State κ) (b : Nat) (u : State κ) : Prop where
  next : u.next = t.next
  live : ∀ a, u.Live a ↔ t.Live a ∧ a ≠ b
  name : ∀ a x', u.heap a = some x' → ∃ x, t.heap a = some x ∧ x'.name = x.name
  childs : ∀ a, a ≠ b → u.childs a = t.childs a
  others : ∀ a q, a ≠ b → q ≠ b → (u.parents a).count q = (t.parents a).count q
  parents_le : ∀ a, a ≠ b → (u.parents a).count b ≤ (t.parents a).count b
  once : ∀ a, a ≠ b → (t.childs b).count a ≤ 1 →
    (u.parents a).count b = (t.parents a).count b - (t.childs b).count a
  twice : ∀ a, a ≠ b → 2 ≤ (t.childs b).count a →
  (t.childs b).count a = (t.parents a).count b →
    b ∈ u.parents a
  tops_nodup : t.tops.items.Nodup → u.tops.items.Nodup
  tops : t.tops.items.Nodup → ∀ a, a ∈ u.tops.items ↔
    a ≠ b ∧ (a ∈ t.tops.items ∨ a ∈ t.childs b ∧ u.parents a = [])
  names : Tidy t → u.names.items = t.names.items.erase b

theorem Undone.of_drained {t d u : State κ} {b : Nat} (hd : Drained t b d)
    (hf : Freed d b u) (hb : d.Live b) : Undone t b u := by
  have hchilds : ∀ a, a ≠ b → u.childs a = d.childs a := by
    intro a ha
    unfold State.childs
    rw [hf.heap, if_neg ha]
  have hparents : ∀ a, a ≠ b → u.parents a = d.parents a := by
    intro a ha
    unfold State.parents
    rw [hf.heap, if_neg ha]
  refine ⟨hf.next.trans hd.next, fun a => ?_, fun a x' hx' => ?_, fun a ha => ?_,
    fun a q ha hq => ?_,
    fun a ha => ?_, fun a ha hle => ?_, fun a ha htwo heq => ?_, fun ht => ?_,
    fun ht a => ?_, fun htidy => ?_⟩
  · rw [hf.live, hd.live]
  · rw [hf.heap] at hx'
    split at hx'
    · cases hx'
    · exact hd.fields a x' hx'
  · rw [hchilds a ha, hd.childs a ha]
  · rw [hparents a ha, hd.others a q hq]
  · rw [hparents a ha]
    exact hd.parents_le a
  · rw [hparents a ha, hd.once a hle]
  · rw [hparents a ha]
    exact List.count_pos_iff.mp (hd.twice a (.inr ⟨htwo, heq⟩))
  · rw [hf.tops]
    exact (hd.tops_nodup ht).erase b
  · rw [hf.tops, (hd.tops_nodup ht).mem_erase_iff]
    refine and_congr_right fun ha => ?_
    rw [hd.tops ht a ha, hparents a ha]
  · obtain ⟨x', hx'⟩ := State.live_iff.mp hb
    obtain ⟨x, hx, hname⟩ := hd.fields b x' hx'
    rw [hf.names x' hx', hd.names]
    split
    · rfl
    · rename_i hnone
      rw [List.erase_of_not_mem fun hmem => hnone ?_]
      rw [hname]
      exact htidy.named b hmem x hx

/-- What a round does, if it returns. -/
theorem undo_ok {b n : Nat} {t u : State κ} (h : undo n b t = .ok u) :
    t.Live b ∧ (∀ c ∈ t.childs b, t.Live c) ∧ Undone t b u := by
  have hb : t.Live b := by
    by_contra hdead
    cases n with
    | zero => cases h
    | succ n =>
        rw [undo, whilePop, State.backend_of_none (State.not_live_iff.mp hdead)] at h
        cases h
  obtain ⟨d, hloop, hdone⟩ := ok_of_bind h
  obtain ⟨hdrained, hlive⟩ := drained_of_ok hb hloop
  obtain ⟨u', hfree, hfreed⟩ := freeSkeleton_eq ((hdrained.live b).mpr hb)
  cases hdone.symm.trans hfree
  exact ⟨hb, hlive, .of_drained hdrained hfreed ((hdrained.live b).mpr hb)⟩

/-- A round returns if every child is there. -/
theorem undo_returns {b : Nat} {t : State κ} (hb : t.Live b)
    (hlive : ∀ c ∈ t.childs b, t.Live c) : ∃ u, Returns (fun n => undo n b t) u := by
  obtain ⟨d, hloop, hdrained⟩ := whilePop_disconnect _ t hb (Nat.lt_succ_self _) hlive
  obtain ⟨u, hfree, -⟩ := freeSkeleton_eq ((hdrained.live b).mpr hb)
  refine ⟨u, (t.childs b).length.succ, fun n hn => ?_⟩
  simp only [undo, hloop n hn]
  exact hfree

theorem Undone.parents_nil {t u : State κ} {a b : Nat} (h : Undone t b u) (ha : a ≠ b)
    (hnil : t.parents a = []) : u.parents a = [] := by
  refine eq_nil_of_count_eq (fun q => ?_) hnil
  by_cases hq : q = b
  · rw [hq]
    exact h.parents_le a ha
  · exact (h.others a q ha hq).le

theorem Tidy.undone {t u : State κ} {b : Nat} (ht : Tidy t) (h : Undone t b u) :
    Tidy u where
  tops_nodup := h.tops_nodup ht.tops_nodup
  tops_root := by
    intro a ha
    obtain ⟨hne, htop | ⟨-, hnil⟩⟩ := (h.tops ht.tops_nodup a).mp ha
    · exact h.parents_nil hne (ht.tops_root a htop)
    · exact hnil
  names_nodup := by
    rw [h.names ht]
    exact ht.names_nodup.erase b
  named := by
    intro a ha x' hx'
    obtain ⟨x, hx, hname⟩ := h.name a x' hx'
    rw [h.names ht] at ha
    rw [hname]
    exact ht.named a (List.mem_of_mem_erase ha) x hx

/-! ## All rounds -/

/-- The rounds, one after another. -/
inductive Undos : State κ → List Nat → State κ → Prop
  | nil {t : State κ} : Undos t [] t
  | cons {t u v : State κ} {b : Nat} {bs : List Nat} :
      t.Live b → (∀ c ∈ t.childs b, t.Live c) → Undone t b u → Undos u bs v →
      Undos t (b :: bs) v

theorem undos_of_ok {n : Nat} {bs : List Nat} {t v : State κ}
    (h : bs.foldlM (fun s b => undo n b s) t = .ok v) : Undos t bs v := by
  induction bs generalizing t with
  | nil =>
      cases h
      exact .nil
  | cons b bs ih =>
      rw [List.foldlM_cons] at h
      obtain ⟨u, hfirst, hrest⟩ := ok_of_bind h
      obtain ⟨hb, hlive, hundone⟩ := undo_ok hfirst
      exact .cons hb hlive hundone (ih hrest)

namespace Undos

variable {t v : State κ} {bs : List Nat}

theorem live (h : Undos t bs v) (a : Nat) : v.Live a ↔ t.Live a ∧ a ∉ bs := by
  induction h with
  | nil => simp
  | cons _ _ hundone _ ih =>
      rw [ih, hundone.live, List.mem_cons, not_or, and_assoc]

theorem childs (h : Undos t bs v) {a : Nat} (ha : a ∉ bs) : v.childs a = t.childs a := by
  induction h with
  | nil => rfl
  | cons _ _ hundone _ ih =>
      obtain ⟨hab, ha⟩ := not_or.mp fun hor => ha (List.mem_cons.mpr hor)
      rw [ih ha, hundone.childs a hab]

theorem others (h : Undos t bs v) {a q : Nat} (ha : a ∉ bs) (hq : q ∉ bs) :
    (v.parents a).count q = (t.parents a).count q := by
  induction h with
  | nil => rfl
  | cons _ _ hundone _ ih =>
      obtain ⟨hab, ha⟩ := not_or.mp fun hor => ha (List.mem_cons.mpr hor)
      obtain ⟨hqb, hq⟩ := not_or.mp fun hor => hq (List.mem_cons.mpr hor)
      rw [ih ha hq, hundone.others a q hab hqb]

/-- While a backend waits for its round its children are there. -/
theorem live_childs (h : Undos t bs v) {p d : Nat} (hp : p ∈ bs)
    (hd : d ∈ t.childs p) : t.Live d := by
  induction h with
  | nil => cases hp
  | cons _ hlive hundone _ ih =>
      rename_i t u v b bs _ _
      by_cases hpb : p = b
      · subst hpb
        exact hlive d hd
      · have hp' := (List.mem_cons.mp hp).resolve_left hpb
        exact ((hundone.live d).mp (ih hp' (by rw [hundone.childs p hpb]; exact hd))).1

/-- The rounds do not return if a child goes before its parent. -/
theorem le_of_mem_childs (h : Undos t bs v) (hsorted : bs.Pairwise (· < ·)) {p c : Nat}
    (hp : p ∈ bs) (hc : c ∈ bs) (hmem : c ∈ t.childs p) : p ≤ c := by
  induction h with
  | nil => cases hp
  | cons _ _ hundone hrest ih =>
      rename_i t u v b bs _ _
      obtain ⟨hfirst, hsorted'⟩ := List.pairwise_cons.mp hsorted
      by_cases hpb : p = b
      · rcases List.mem_cons.mp hc with hcb | hc
        · omega
        · exact hpb ▸ (hfirst c hc).le
      · have hp' := (List.mem_cons.mp hp).resolve_left hpb
        have hmem' : c ∈ u.childs p := by
          rw [hundone.childs p hpb]
          exact hmem
        by_cases hcb : c = b
        · exact absurd hcb ((hundone.live c).mp (hrest.live_childs hp' hmem')).2
        · exact ih hsorted' hp' ((List.mem_cons.mp hc).resolve_left hcb) hmem'

/-- A child that stays and is there twice keeps its parent. -/
theorem mem_parents_of_twice (h : Undos t bs v) (hsorted : bs.Pairwise (· < ·))
    {p c : Nat} (hp : p ∈ bs) (hc : c ∉ bs) (htwo : 2 ≤ (t.childs p).count c)
    (heq : (t.childs p).count c = (t.parents c).count p) : p ∈ v.parents c := by
  induction h with
  | nil => cases hp
  | cons _ _ hundone hrest ih =>
      rename_i t u v b bs _ _
      obtain ⟨hfirst, hsorted'⟩ := List.pairwise_cons.mp hsorted
      obtain ⟨hcb, hc'⟩ := not_or.mp fun hor => hc (List.mem_cons.mpr hor)
      by_cases hpb : p = b
      · subst hpb
        have hp' : p ∉ bs := fun hmem => absurd (hfirst p hmem) (lt_irrefl p)
        rw [← List.count_pos_iff, hrest.others hc' hp', List.count_pos_iff]
        exact hundone.twice c hcb htwo heq
      · refine ih hsorted' ((List.mem_cons.mp hp).resolve_left hpb) hc' ?_ ?_
        · rw [hundone.childs p hpb]
          exact htwo
        · rw [hundone.childs p hpb, hundone.others c p hcb hpb]
          exact heq

theorem parents_nil (h : Undos t bs v) {a : Nat} (ha : a ∉ bs) (hnil : t.parents a = []) :
    v.parents a = [] := by
  induction h with
  | nil => exact hnil
  | cons _ _ hundone _ ih =>
      obtain ⟨hab, ha⟩ := not_or.mp fun hor => ha (List.mem_cons.mpr hor)
      exact ih ha (hundone.parents_nil hab hnil)

/-- What stays comes to the tops when it loses its last parent. -/
theorem tops (h : Undos t bs v) (ht : t.tops.items.Nodup) {a : Nat} (ha : a ∉ bs)
    (hlinks : ∀ q, t.Live q → (t.childs q).count a = (t.parents a).count q) :
    a ∈ v.tops.items ↔ a ∈ t.tops.items ∨ t.parents a ≠ [] ∧ v.parents a = [] := by
  induction h with
  | nil =>
      simp only [ne_eq, not_and_self, or_false]
  | cons hb _ hundone hrest ih =>
      rename_i t u v b bs _
      obtain ⟨hab, ha'⟩ := not_or.mp fun hor => ha (List.mem_cons.mpr hor)
      have hlinks' : ∀ q, u.Live q → (u.childs q).count a = (u.parents a).count q := by
        intro q hq
        obtain ⟨hq, hqb⟩ := (hundone.live q).mp hq
        rw [hundone.childs q hqb, hundone.others a q hab hqb, hlinks q hq]
      rw [ih (hundone.tops_nodup ht) ha' hlinks', hundone.tops ht a]
      have hchild : a ∈ t.childs b ↔ b ∈ t.parents a := by
        rw [← List.count_pos_iff, hlinks b hb, List.count_pos_iff]
      constructor
      · rintro (⟨-, htop | ⟨hmem, hnil⟩⟩ | ⟨hne, hnil⟩)
        · exact .inl htop
        · exact .inr ⟨List.ne_nil_of_mem (hchild.mp hmem), hrest.parents_nil ha' hnil⟩
        · exact .inr ⟨fun hnil' => hne (hundone.parents_nil hab hnil'), hnil⟩
      · rintro (htop | ⟨hne, hnil⟩)
        · exact .inl ⟨hab, .inl htop⟩
        · by_cases hu : u.parents a = []
          · obtain ⟨q, hq⟩ := List.exists_mem_of_ne_nil _ hne
            have hqb : q = b := by
              by_contra hqb
              have hpos := List.count_pos_iff.mpr hq
              rw [← hundone.others a q hab hqb, hu] at hpos
              exact absurd hpos (lt_irrefl 0)
            exact .inl ⟨hab, .inr ⟨hchild.mpr (hqb ▸ hq), hu⟩⟩
          · exact .inr ⟨hu, hnil⟩

theorem names (h : Undos t bs v) (ht : Tidy t) (a : Nat) :
    a ∈ v.names.items ↔ a ∈ t.names.items ∧ a ∉ bs := by
  induction h with
  | nil => simp
  | cons _ _ hundone _ ih =>
      rw [ih (ht.undone hundone), hundone.names ht, ht.names_nodup.mem_erase_iff,
        List.mem_cons, not_or]
      simp only [ne_eq, and_comm, and_left_comm, and_assoc]

end Undos

/-- Backends that may be taken back, in the order of the list. -/
structure Cleanable (t : State κ) (bs : List Nat) : Prop where
  tidy : Tidy t
  sorted : bs.Pairwise (· < ·)
  live : ∀ b ∈ bs, t.Live b
  childs : ∀ p, ∀ c ∈ t.childs p, t.Live c
  parents : ∀ c, c ∉ bs → ∀ p ∈ t.parents c, t.Live p
  tops : ∀ a ∈ t.tops.items, t.Live a
  names : ∀ a ∈ t.names.items, t.Live a
  links : ∀ p c, t.Live p → t.Live c → c ∉ bs →
  (t.childs p).count c = (t.parents c).count p
  /-- what goes has parents that go before -/
  inside : ∀ c ∈ bs, ∀ p, c ∈ t.childs p → p ∈ bs ∧ p ≤ c
  /-- what stays is linked once to what goes -/
  outside : ∀ p ∈ bs, ∀ c, c ∉ bs → (t.childs p).count c ≤ 1

theorem Cleanable.of_consistent {t : State κ} {bs : List Nat} (h : Consistent t)
    (ht : Tidy t) (hsorted : bs.Pairwise (· < ·)) (hlive : ∀ b ∈ bs, t.Live b)
    (hinside : ∀ c ∈ bs, ∀ p, c ∈ t.childs p → p ∈ bs ∧ p ≤ c)
    (houtside : ∀ p ∈ bs, ∀ c, c ∉ bs → (t.childs p).count c ≤ 1) : Cleanable t bs where
  tidy := ht
  sorted := hsorted
  live := hlive
  childs := h.childs
  parents := fun c _ => h.parents c
  tops := h.tops
  names := h.names
  links := fun p c hp hc _ => h.links p c hp hc
  inside := hinside
  outside := houtside

/-- When all are gone the graph is what it has to be. -/
theorem Cleanable.consistent {t : State κ} (h : Cleanable t []) : Consistent t where
  childs := h.childs
  parents := fun c => h.parents c List.not_mem_nil
  tops := h.tops
  names := h.names
  links := fun p c hp hc => h.links p c hp hc List.not_mem_nil

theorem Cleanable.undone {t u : State κ} {b : Nat} {bs : List Nat}
    (h : Cleanable t (b :: bs)) (hu : Undone t b u) : Cleanable u bs := by
  obtain ⟨hfirst, hsorted⟩ := List.pairwise_cons.mp h.sorted
  have hout : ∀ c, c ∉ bs → c ≠ b → c ∉ b :: bs := fun c hc hcb hmem =>
    (List.mem_cons.mp hmem).elim hcb hc
  have hnotin : b ∉ bs := fun hmem => absurd (hfirst b hmem) (lt_irrefl b)
  -- nobody else leads to the backend that goes
  have honly : ∀ p, p ≠ b → b ∉ t.childs p := by
    intro p hp hmem
    obtain ⟨hpbs, hle⟩ := h.inside b (List.mem_cons_self ..) p hmem
    rcases List.mem_cons.mp hpbs with hpb | hpbs
    · exact hp hpb
    · exact absurd (hfirst p hpbs) (by omega)
  have hcount : ∀ c, c ∉ bs → u.Live c → (u.parents c).count b = 0 := by
    intro c hc hlc
    obtain ⟨hlc, hcb⟩ := (hu.live c).mp hlc
    have hb := h.live b (List.mem_cons_self ..)
    rw [hu.once c hcb (h.outside b (List.mem_cons_self ..) c (hout c hc hcb)),
      h.links b c hb hlc (hout c hc hcb), Nat.sub_self]
  refine ⟨h.tidy.undone hu, hsorted, fun a ha => ?_, fun p c hc => ?_,
    fun c hc p hp => ?_, fun a ha => ?_,
    fun a ha => ?_, fun p c hp hc hcbs => ?_, fun c hc p hmem => ?_, fun p hp c hc => ?_⟩
  · exact (hu.live a).mpr
      ⟨h.live a (List.mem_cons_of_mem b ha), fun hab => hnotin (hab ▸ ha)⟩
  · have hpb := ((hu.live p).mp (State.live_of_mem_childs hc)).2
    rw [hu.childs p hpb] at hc
    exact (hu.live c).mpr ⟨h.childs p c hc, fun hcb => honly p hpb (hcb ▸ hc)⟩
  · have hlc := State.live_of_mem_parents hp
    have hcb := ((hu.live c).mp hlc).2
    have hpb : p ≠ b := by
      rintro rfl
      exact absurd (List.count_pos_iff.mpr hp)
        (by rw [hcount c hc hlc]; exact lt_irrefl 0)
    rw [← List.count_pos_iff, hu.others c p hcb hpb, List.count_pos_iff] at hp
    exact (hu.live p).mpr ⟨h.parents c (hout c hc hcb) p hp, hpb⟩
  · obtain ⟨hab, htop⟩ := (hu.tops h.tidy.tops_nodup a).mp ha
    refine (hu.live a).mpr ⟨?_, hab⟩
    rcases htop with htop | ⟨hmem, -⟩
    · exact h.tops a htop
    · exact h.childs b a hmem
  · rw [hu.names h.tidy, h.tidy.names_nodup.mem_erase_iff] at ha
    exact (hu.live a).mpr ⟨h.names a ha.2, ha.1⟩
  · obtain ⟨hlp, hpb⟩ := (hu.live p).mp hp
    obtain ⟨hlc, hcb⟩ := (hu.live c).mp hc
    rw [hu.childs p hpb, hu.others c p hcb hpb]
    exact h.links p c hlp hlc (hout c hcbs hcb)
  · have hpb := ((hu.live p).mp (State.live_of_mem_childs hmem)).2
    rw [hu.childs p hpb] at hmem
    obtain ⟨hpbs, hle⟩ := h.inside c (List.mem_cons_of_mem b hc) p hmem
    exact ⟨(List.mem_cons.mp hpbs).resolve_left hpb, hle⟩
  · have hpb : p ≠ b := fun hpb => hnotin (hpb ▸ hp)
    rw [hu.childs p hpb]
    by_cases hcb : c = b
    · rw [hcb, List.count_eq_zero.mpr (honly p hpb)]
      exact Nat.zero_le 1
    · exact h.outside p (List.mem_cons_of_mem b hp) c (hout c hc hcb)

/-- **The clean-up.**  Backends that may be taken back are. -/
theorem foldlM_undo {t : State κ} {bs : List Nat} (h : Cleanable t bs) :
    ∃ v, Returns (fun n => bs.foldlM (fun s b => undo n b s) t) v ∧ Undos t bs v ∧
      Consistent v ∧ Tidy v := by
  induction bs generalizing t with
  | nil => exact ⟨t, .of_forall fun n => rfl, .nil, h.consistent, h.tidy⟩
  | cons b bs ih =>
      have hb := h.live b (List.mem_cons_self ..)
      obtain ⟨u, hundo⟩ := undo_returns hb (h.childs b)
      obtain ⟨N, hN⟩ := hundo
      obtain ⟨-, -, hundone⟩ := undo_ok (hN N (le_refl N))
      obtain ⟨v, hrun, hundos, hcons, htidy⟩ := ih (h.undone hundone)
      refine ⟨v, ?_, .cons hb (h.childs b) hundone hundos, hcons, htidy⟩
      simp only [List.foldlM_cons]
      exact Returns.bind ⟨N, hN⟩ hrun

end Frozen.Graph
