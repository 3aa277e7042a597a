/-
# `Frozen.Graph.New` — `backend_new`

`plan` runs through a configuration without a graph: it keeps the names, the last
backend, the backends that are referred to or made, and the links between them.
`iterate_tracks` says that the iteration of `backend_new` makes just this of a graph.

A construction that fails is taken back by the clean-up, which frees what was made in
the order in which it was made.  What the clean-up cannot take back is read off the plan
(`Reversible`):

    a link from a backend that was there          nobody takes it away
    a link to a backend that was made before      the child is freed first
    two links to a backend that was there         one of its two parents stays
    a root that was no top, and is connected      it becomes a top

A configuration that ends with `hash_null` is not taken back at all, although
`backend_new` returns NULL.
-/
import Frozen.Graph.Build

namespace Frozen.Graph

open Lib Binary

variable {κ : Type} {env : Env κ} {s : State κ}

/-! ## Plans -/

/-- What a configuration comes to, up to an item: the address of the next backend, the
names, the last backend of the chain, the backends that were connected and the links,
from parent to child. -/
structure Plan where
  next : Nat
  names : Slots Nat
  nameOf : Nat → Option String
  prev : Option Nat
  used : List Nat
  links : List (Nat × Nat)

namespace Plan

def start (s : State κ) : Plan := ⟨s.next, s.names, s.nameOf, none, [], []⟩

/-- A backend comes to the chain. -/
def join (p : Plan) (b : Nat) : Plan :=
  { p with
    prev := some b
    used := b :: p.used
    links := match p.prev with
      | none => p.links
      | some c => (b, c) :: p.links }

/-- There is one more backend. -/
def extend (p : Plan) (name : Option String) : Plan :=
  { p with
    next := p.next + 1
    names := if name.isSome then p.names.add (some p.next) else p.names
    nameOf := Function.update p.nameOf p.next name }

def follow (p : Plan) : Ask → Option Plan
  | .skip => some p
  | .cut => some { p with prev := none }
  | .use b => some (p.join b)
  | .make name => some ((p.extend name).join p.next)
  | .fail => none

theorem count_links_join (p : Plan) (a b d : Nat) :
    (p.join b).links.count (a, d) = p.links.count (a, d) + if a = b ∧ p.prev = some d
      then 1 else 0 := by
  unfold join
  cases p.prev with
  | none => simp
  | some c =>
      rw [List.count_cons]
      simp only [beq_iff_eq, Prod.mk.injEq, Option.some.injEq]
      simp only [eq_comm]

end Plan

/-- The plan of a configuration, and whether every item passes. -/
def plan (env : Env κ) : List (Entry (ItemData κ)) → Plan → Plan × Bool
  | [], p => (p, true)
  | e :: es, p =>
      match p.follow (ask env (firstNamed p.names p.nameOf) p.next e) with
      | some p' => plan env es p'
      | none => (p, false)

/-! ## A graph that follows a plan -/

/-- The graph `t` is `s` with the backends and the links of a plan. -/
structure Follows (s : State κ) (p : Plan) (t : State κ) : Prop where
  consistent : Consistent t
  tidy : Tidy t
  le : s.next ≤ p.next
  live : ∀ a, t.Live a ↔ s.Live a ∨ s.next ≤ a ∧ a < p.next
  childs : ∀ a d, (t.childs a).count d = (s.childs a).count d + p.links.count (a, d)
  parents : ∀ a d, (t.parents a).count d = (s.parents a).count d + p.links.count (d, a)
  /-- a root that is connected is a top, or has got a parent -/
  tops : ∀ a, a < s.next → ((a ∈ t.tops.items ∨ s.parents a = [] ∧ t.parents a ≠ []) ↔
    a ∈ s.tops.items ∨ a ∈ p.used ∧ s.parents a = [])
  names : ∀ a, a < s.next → (a ∈ t.names.items ↔ a ∈ s.names.items)

theorem follows_start (h : Consistent s) (ht : Tidy s) : Follows s (.start s) s where
  consistent := h
  tidy := ht
  le := le_refl _
  live := by
    intro a
    change _ ↔ _ ∨ s.next ≤ a ∧ a < s.next
    refine ⟨.inl, fun hor => hor.resolve_right ?_⟩
    omega
  childs := fun _ _ => rfl
  parents := fun _ _ => rfl
  tops := by
    intro a _
    simp [Plan.start]
  names := fun _ _ => Iff.rfl

theorem Follows.parents_nil {p : Plan} {t : State κ} (h : Follows s p t) {a : Nat}
    (hnil : t.parents a = []) : s.parents a = [] := by
  refine eq_nil_of_count_eq (fun q => ?_) hnil
  rw [h.parents]
  exact Nat.le_add_right _ _

theorem Joined.parents_ne_nil {t u : State κ} {b c : Nat} {prev : Option Nat}
    (h : Joined t b prev u) (hc : prev = some c) : u.parents c ≠ [] := by
  intro hnil
  have hcount := h.count_parents c b
  rw [hnil, if_pos ⟨hc, rfl⟩] at hcount
  simp at hcount

theorem Joined.parents_nil_iff {t u : State κ} {a b : Nat} {prev : Option Nat}
    (h : Joined t b prev u) (ha : prev ≠ some a) :
    u.parents a = [] ↔ t.parents a = [] := by
  have hcount : ∀ q, (u.parents a).count q = (t.parents a).count q := by
    intro q
    rw [h.count_parents, if_neg fun hlink => ha hlink.1, Nat.add_zero]
  exact ⟨eq_nil_of_count_eq fun q => (hcount q).ge,
    eq_nil_of_count_eq fun q => (hcount q).le⟩

/-- The backend that was connected last is a top if it is a root. -/
theorem Joined.top {t u : State κ} {b : Nat} {prev : Option Nat}
    (h : Joined t b prev u) (ht : Tidy t) (hnil : u.parents b = []) :
    b ∈ u.tops.items := by
  have hprev : prev ≠ some b := fun hprev => h.parents_ne_nil hprev hnil
  exact (h.tops ht.tops_nodup b).mpr
    ⟨hprev, .inr ⟨rfl, (h.parents_nil_iff hprev).mp hnil⟩⟩

theorem Follows.join {p : Plan} {t u : State κ} {b : Nat} (h : Follows s p t)
    (hst : Tidy s) (hj : Joined t b p.prev u)
    (hprev : ∀ c, p.prev = some c → c ∈ p.used) : Follows s (p.join b) u where
  consistent := hj.consistent h.consistent
  tidy := hj.tidy h.tidy
  le := h.le
  live := fun a => (hj.live a).trans (h.live a)
  childs := by
    intro a d
    rw [hj.count_childs, h.childs, Plan.count_links_join, Nat.add_assoc]
  parents := by
    intro a d
    rw [hj.count_parents, h.parents, Plan.count_links_join, Nat.add_assoc]
    simp only [and_comm, eq_comm]
  tops := by
    intro a ha
    have hused : a ∈ (p.join b).used ↔ a = b ∨ a ∈ p.used := List.mem_cons
    have ih := h.tops a ha
    rw [hj.tops h.tidy.tops_nodup, hused]
    by_cases hpa : p.prev = some a
    · simp only [hpa, hprev a hpa, hj.parents_ne_nil hpa, ne_eq, not_true_eq_false,
        false_and, false_or, not_false_eq_true, and_true, or_true, true_and]
      exact ⟨.inr, fun hor => hor.elim (hst.tops_root a) id⟩
    · rw [ne_eq (u.parents a), hj.parents_nil_iff hpa]
      by_cases hab : a = b
      · subst hab
        simp only [ne_eq, hpa, not_false_eq_true, true_and, true_or]
        constructor
        · rintro ((htop | hnil) | ⟨hroot, -⟩)
          · exact .inr (h.parents_nil (h.tidy.tops_root a htop))
          · exact .inr (h.parents_nil hnil)
          · exact .inr hroot
        · rintro hor
          have hroot : s.parents a = [] := hor.elim (hst.tops_root a) id
          by_cases hnil : t.parents a = []
          · exact .inl (.inr hnil)
          · exact .inr ⟨hroot, hnil⟩
      · simp only [ne_eq, hpa, hab, not_false_eq_true, true_and, false_and,
          or_false, false_or]
        exact ih
  names := by
    intro a ha
    rw [hj.names]
    exact h.names a ha

theorem Besides.childs_eq {t m : State κ} {b : Nat} (h : Besides t b m) (a : Nat) :
    m.childs a = t.childs a := by
  by_cases hab : a = b
  · rw [hab, h.childs_self, State.childs_of_none (State.not_live_iff.mp h.fresh)]
  · exact h.childs a hab

theorem Besides.count_parents {t m : State κ} {b : Nat} (h : Besides t b m) (a q : Nat) :
    (m.parents a).count q = (t.parents a).count q := by
  by_cases hab : a = b
  · rw [hab, h.parents_self, State.parents_of_none (State.not_live_iff.mp h.fresh)]
  · exact h.parents a q hab

theorem Follows.extend {p : Plan} {t m : State κ} (h : Follows s p t)
    (hb : Besides t p.next m) (name : Option String) : Follows s (p.extend name) m where
  consistent := hb.consistent
  tidy := hb.tidy
  le := Nat.le_succ_of_le h.le
  live := by
    intro a
    have hle := h.le
    change _ ↔ _ ∨ s.next ≤ a ∧ a < p.next + 1
    rw [hb.live, h.live, or_assoc]
    refine or_congr_right ?_
    omega
  childs := by
    intro a d
    rw [hb.childs_eq]
    exact h.childs a d
  parents := by
    intro a d
    rw [hb.count_parents]
    exact h.parents a d
  tops := by
    intro a ha
    have hnil : m.parents a = [] ↔ t.parents a = [] :=
      ⟨eq_nil_of_count_eq fun q => (hb.count_parents a q).ge,
        eq_nil_of_count_eq fun q => (hb.count_parents a q).le⟩
    have hle := h.le
    rw [hb.tops a (by omega), ne_eq, hnil]
    exact h.tops a ha
  names := by
    intro a ha
    have hle := h.le
    rw [hb.names a (by omega)]
    exact h.names a ha

theorem Follows.resembles {p : Plan} {t u : State κ} (h : Follows s p t)
    (hr : Resembles t u) : Follows s p u where
  consistent := hr.consistent
  tidy := hr.tidy
  le := h.le
  live := fun a => (hr.live a).trans (h.live a)
  childs := by
    intro a d
    rw [hr.childs]
    exact h.childs a d
  parents := by
    intro a d
    rw [hr.parents]
    exact h.parents a d
  tops := by
    intro a ha
    have hnil : u.parents a = [] ↔ t.parents a = [] :=
      ⟨eq_nil_of_count_eq fun q => (hr.parents a q).ge,
        eq_nil_of_count_eq fun q => (hr.parents a q).le⟩
    rw [hr.tops, ne_eq, hnil]
    exact h.tops a ha
  names := fun a ha => (hr.names a).trans (h.names a ha)

/-! ## The iteration follows the plan -/

/-- The addresses of the backends that were made. -/
def Plan.made (s : State κ) (p : Plan) : List Nat := List.range' s.next (p.next - s.next)

theorem Plan.mem_made {p : Plan} (hle : s.next ≤ p.next) {a : Nat} :
    a ∈ p.made s ↔ s.next ≤ a ∧ a < p.next := by
  rw [made, List.mem_range'_1]
  omega

/-- What holds between two items. -/
structure Tracks (s : State κ) (p : Plan) (ctx : NewCtx κ) :
    Prop extends Follows s p ctx.state where
  next : ctx.state.next = p.next
  names_eq : ctx.state.names = p.names
  nameOf : ctx.state.nameOf = p.nameOf
  prev : ctx.prev = p.prev
  backends : ctx.backends = (p.made s).map some
  last : ∀ c, p.prev = some c →
    c ∈ p.used ∧ ctx.state.Live c ∧ (ctx.state.parents c = [] → c ∈ ctx.state.tops.items)

theorem tracks_start (h : Consistent s) (ht : Tidy s) :
    Tracks s (.start s) ⟨s, [], none⟩ where
  toFollows := follows_start h ht
  next := rfl
  names_eq := rfl
  nameOf := rfl
  prev := rfl
  backends := by simp [Plan.made, Plan.start]
  last := fun _ hc => by cases hc

theorem Tracks.ready {p : Plan} {ctx : NewCtx κ} (h : Tracks s p ctx) : Ready ctx where
  consistent := h.consistent
  tidy := h.tidy
  prev := by
    intro c hc
    rw [h.prev] at hc
    exact (h.last c hc).2

/-- One item. -/
theorem Tracks.step {p p' : Plan} {ctx : NewCtx κ} {e : Entry (ItemData κ)}
    (hst : Tidy s) (h : Tracks s p ctx)
    (hp : p.follow (ask env (firstNamed p.names p.nameOf) p.next e) = some p') :
    ∃ ctx', newIterator env e ctx = .ok ctx' ∧ Tracks s p' ctx' := by
  have ho := newIterator_outcome env h.ready e
  have hask : ask env ctx.state.called ctx.state.next e
      = ask env (firstNamed p.names p.nameOf) p.next e := by
    rw [h.next, ← h.names_eq, ← h.nameOf]
    rfl
  rw [hask] at ho
  generalize ask env (firstNamed p.names p.nameOf) p.next e = q at hp ho
  generalize newIterator env e ctx = r at ho
  have hused : ∀ c, p.prev = some c → c ∈ p.used := fun c hc => (h.last c hc).1
  cases ho with
  | skip =>
      cases hp
      exact ⟨ctx, rfl, h⟩
  | cut =>
      cases hp
      exact ⟨_, rfl, { h with prev := rfl, last := fun _ hc => by cases hc }⟩
  | use hb hjoined =>
      rename_i b u
      cases hp
      rw [h.prev] at hjoined
      refine ⟨_, rfl,
        { toFollows := h.join hst hjoined hused
          next := hjoined.next.trans h.next
          names_eq := hjoined.names.trans h.names_eq
          nameOf := hjoined.nameOf.trans h.nameOf
          prev := rfl
          backends := h.backends
          last := ?_ }⟩
      intro c hc
      cases hc
      exact ⟨List.mem_cons_self .., (hjoined.live b).mpr hb, hjoined.top h.tidy⟩
  | make hbesides hjoined =>
      rename_i x u
      cases hp
      rw [h.prev] at hjoined
      rw [h.next] at hbesides hjoined
      have hfollows := h.extend hbesides x.name
      refine ⟨_, rfl,
        { toFollows := hfollows.join hst hjoined hused
          next := ?_
          names_eq := ?_
          nameOf := ?_
          prev := ?_
          backends := ?_
          last := ?_ }⟩
      · rw [hjoined.next, State.next_make, h.next]
        rfl
      · rw [hjoined.names, State.names_make, h.names_eq, h.next]
        rfl
      · rw [hjoined.nameOf, State.nameOf_make, h.nameOf, h.next]
        rfl
      · rw [h.next]
        rfl
      · have hmade : ((p.extend x.name).join p.next).made s = p.made s ++ [p.next] := by
          have hle := h.le
          change List.range' s.next (p.next + 1 - s.next) = List.range' s.next
            (p.next - s.next) ++ [p.next]
          rw [Nat.sub_add_comm hle, List.range'_1_concat, Nat.add_sub_cancel' hle]
        rw [hmade, h.next, h.backends]
        exact Slots.add_map_some _ _
      · intro c hc
        cases hc
        exact ⟨List.mem_cons_self ..,
          (hjoined.live _).mpr ((hbesides.live _).mpr (.inr rfl)),
          hjoined.top hbesides.tidy⟩
  | fail => cases hp

/-- An item that fails. -/
theorem Tracks.fail {p : Plan} {ctx : NewCtx κ} {e : Entry (ItemData κ)}
    (h : Tracks s p ctx)
    (hp : p.follow (ask env (firstNamed p.names p.nameOf) p.next e) = none) :
    ∃ u, newIterator env e ctx = .error (.broke { ctx with state := u }) ∧
      Follows s p u := by
  have ho := newIterator_outcome env h.ready e
  have hask : ask env ctx.state.called ctx.state.next e
      = ask env (firstNamed p.names p.nameOf) p.next e := by
    rw [h.next, ← h.names_eq, ← h.nameOf]
    rfl
  rw [hask] at ho
  generalize ask env (firstNamed p.names p.nameOf) p.next e = q at hp ho
  generalize newIterator env e ctx = r at ho
  cases ho with
  | skip => cases hp
  | cut => cases hp
  | use => cases hp
  | make => cases hp
  | fail hr => exact ⟨_, rfl, h.resembles hr⟩

/-- The iteration over items. -/
def iterate (env : Env κ) (es : List (Entry (ItemData κ))) (ctx : NewCtx κ) :
    Except (Halt κ) (NewCtx κ) :=
  es.foldlM (fun ctx e => newIterator env e ctx) ctx

variable (env) in
/-- **The iteration makes what the plan says.** -/
theorem iterate_tracks (hst : Tidy s) (es : List (Entry (ItemData κ))) {p : Plan}
    {ctx : NewCtx κ} (h : Tracks s p ctx) :
    match plan env es p with
    | (p', true) => ∃ ctx', iterate env es ctx = .ok ctx' ∧ Tracks s p' ctx'
    | (p', false) => ∃ ctx', iterate env es ctx = .error (.broke ctx') ∧
        Follows s p' ctx'.state ∧ ctx'.backends.items = p'.made s := by
  induction es generalizing p ctx with
  | nil => exact ⟨ctx, rfl, h⟩
  | cons e es ih =>
      rw [plan]
      cases hp : p.follow (ask env (firstNamed p.names p.nameOf) p.next e) with
      | some p' =>
          obtain ⟨ctx', hrun, htracks⟩ := h.step hst hp
          have hcons : iterate env (e :: es) ctx = iterate env es ctx' := by
            rw [iterate, List.foldlM_cons, hrun]
            rfl
          rw [hcons]
          exact ih htracks
      | none =>
          obtain ⟨u, hrun, hfollows⟩ := h.fail hp
          refine ⟨{ ctx with state := u }, ?_, hfollows, ?_⟩
          · rw [iterate, List.foldlM_cons, hrun]
            rfl
          · change ctx.backends.items = _
            rw [h.backends, Slots.items_map_some]

/-! ## What can be taken back -/

/-- The clean-up returns, and leaves the lists in step. -/
structure Plan.Takeable (s : State κ) (p : Plan) : Prop where
  inside : ∀ l ∈ p.links, s.next ≤ l.2 → s.next ≤ l.1 ∧ l.1 ≤ l.2
  outside : ∀ l ∈ p.links, s.next ≤ l.1 → l.2 < s.next → p.links.count l ≤ 1

/-- The clean-up takes back all that was done. -/
structure Plan.Reversible (s : State κ) (p : Plan) : Prop extends p.Takeable s where
  parents : ∀ l ∈ p.links, s.next ≤ l.1
  tops : ∀ b ∈ p.used, b < s.next → s.parents b = [] → b ∈ s.tops.items

/-- A child in the end was one, or is one by a link. -/
theorem Follows.mem_childs {p : Plan} {t : State κ} (h : Follows s p t) {a d : Nat} :
    d ∈ t.childs a ↔ d ∈ s.childs a ∨ (a, d) ∈ p.links := by
  rw [← List.count_pos_iff, h.childs, Nat.add_pos_iff_pos_or_pos, List.count_pos_iff,
    List.count_pos_iff]

theorem Follows.mem_made {p : Plan} {t : State κ} (h : Follows s p t) {a : Nat}
    (ha : t.Live a) (hle : s.next ≤ a) : a ∈ p.made s :=
  (Plan.mem_made h.le).mpr
  (((h.live a).mp ha).resolve_left fun hl => absurd hl.lt_next (by omega))

theorem Follows.not_made {p : Plan} {t : State κ} (h : Follows s p t) {a : Nat}
    (ha : a < s.next) :
    a ∉ p.made s := fun hmem => absurd ((Plan.mem_made h.le).mp hmem).1 (by omega)

theorem Follows.count_childs_new {p : Plan} {t : State κ} (h : Follows s p t) {a : Nat}
    (ha : s.next ≤ a) (d : Nat) : (t.childs a).count d = p.links.count (a, d) := by
  rw [h.childs, State.childs_of_none (s.fresh a ha), List.count_nil, Nat.zero_add]

/-- What was made can be taken back. -/
theorem Follows.cleanable {p : Plan} {t : State κ} (h : Follows s p t) (hs : Closed s)
    (hp : p.Takeable s) : Cleanable t (p.made s) := by
  refine .of_consistent h.consistent h.tidy (List.pairwise_lt_range' _)
    (fun b hb => ?_) (fun c hc a hmem => ?_) fun a ha c hc => ?_
  · exact (h.live b).mpr (.inr ((Plan.mem_made h.le).mp hb))
  · have hcge := ((Plan.mem_made h.le).mp hc).1
    have hlink := (h.mem_childs.mp hmem).resolve_left fun hold =>
        absurd (hs.childs a c hold).lt_next (by omega)
    obtain ⟨hage, hle⟩ := hp.inside (a, c) hlink hcge
    exact ⟨h.mem_made (State.live_of_mem_childs hmem) hage, hle⟩
  · have hage := ((Plan.mem_made h.le).mp ha).1
    by_cases hmem : (a, c) ∈ p.links
    · have hclt : c < s.next := by
        by_contra hge
        exact hc (h.mem_made (h.consistent.childs a c (h.mem_childs.mpr (.inr hmem)))
          (Nat.not_lt.mp hge))
      rw [h.count_childs_new hage]
      exact hp.outside (a, c) hmem hage hclt
    · rw [h.count_childs_new hage, List.count_eq_zero.mpr hmem]
      exact Nat.zero_le 1

/-! ## No trace of a configuration -/

/-- The backends, their links, the tops and the names are what they were.  The lists
have no order: `list_add` puts an item into the first hole. -/
structure Restored (s v : State κ) : Prop where
  live : ∀ a, v.Live a ↔ s.Live a
  childs : ∀ a, (v.childs a).Perm (s.childs a)
  parents : ∀ a, (v.parents a).Perm (s.parents a)
  tops : v.tops.items.Perm s.tops.items
  names : v.names.items.Perm s.names.items

theorem Consistent.count_eq {t : State κ} (h : Consistent t) (a q : Nat) (hq : t.Live q) :
    (t.childs q).count a = (t.parents a).count q := by
  by_cases hla : t.Live a
  · exact h.links q a hq hla
  · rw [State.parents_of_none (State.not_live_iff.mp hla),
      List.count_eq_zero.mpr fun hmem => hla (h.childs q a hmem), List.count_nil]

theorem Follows.live_undone {p : Plan} {t v : State κ} (h : Follows s p t)
    (hu : Undos t (p.made s) v) (a : Nat) : v.Live a ↔ s.Live a := by
  rw [hu.live, h.live, Plan.mem_made h.le]
  constructor
  · rintro ⟨hla | hmem, hno⟩
    · exact hla
    · exact absurd hmem hno
  · intro hla
    refine ⟨.inl hla, fun hmem => ?_⟩
    exact absurd hla.lt_next (by omega)

/-- The links of a plan that is reversible are gone. -/
theorem Follows.parents_undone {p : Plan} {t v : State κ} (h : Follows s p t)
    (hs : Closed s) (hp : p.Reversible s) (hu : Undos t (p.made s) v)
    (hv : Closed v) (a : Nat) : (v.parents a).Perm (s.parents a) := by
  have hdead : ∀ b, s.next ≤ b → ¬ v.Live b := fun b hb hlb =>
    absurd ((h.live_undone hu b).mp hlb).lt_next (by omega)
  refine List.perm_iff_count.mpr fun q => ?_
  rcases Nat.lt_or_ge a s.next with ha | ha
  · rcases Nat.lt_or_ge q s.next with hq | hq
    · have hno : (q, a) ∉ p.links :=
        fun hmem => absurd (hp.parents _ hmem) (Nat.not_le.mpr hq)
      rw [hu.others (h.not_made ha) (h.not_made hq), h.parents,
        List.count_eq_zero.mpr hno, Nat.add_zero]
    · rw [List.count_eq_zero.mpr fun hmem =>
        absurd (hs.parents a q hmem).lt_next (by omega),
        List.count_eq_zero.mpr fun hmem => hdead q hq (hv.parents a q hmem)]
  · rw [State.parents_of_none (State.not_live_iff.mp (hdead a ha)),
      State.parents_of_none (s.fresh a ha)]

theorem Follows.restored {p : Plan} {t v : State κ} (h : Follows s p t) (hs : Closed s)
    (hst : Tidy s) (hp : p.Reversible s) (hu : Undos t (p.made s) v)
    (hv : Consistent v) (hvt : Tidy v) : Restored s v := by
  have hlive := h.live_undone hu
  have hparents := h.parents_undone hs hp hu hv.toClosed
  refine ⟨hlive, fun a => ?_, hparents, ?_, ?_⟩
  · rcases Nat.lt_or_ge a s.next with ha | ha
    · refine List.perm_iff_count.mpr fun d => ?_
      have hno : (a, d) ∉ p.links :=
        fun hmem => absurd (hp.parents _ hmem) (Nat.not_le.mpr ha)
      rw [hu.childs (h.not_made ha), h.childs, List.count_eq_zero.mpr hno, Nat.add_zero]
    · have hdead : ¬ v.Live a := fun hla => absurd ((hlive a).mp hla).lt_next (by omega)
      rw [State.childs_of_none (State.not_live_iff.mp hdead),
        State.childs_of_none (s.fresh a ha)]
  · have hmem : ∀ a, a < s.next → (a ∈ v.tops.items ↔ a ∈ s.tops.items) := by
      intro a ha
      have hnil : v.parents a = [] ↔ s.parents a = [] :=
        ⟨fun hnil => (hnil ▸ hparents a).symm.eq_nil,
          fun hnil => (hnil ▸ hparents a).eq_nil⟩
      rw [hu.tops h.tidy.tops_nodup (h.not_made ha) (h.consistent.count_eq a), hnil,
        and_comm (a := _ ≠ _), h.tops a ha]
      refine ⟨fun hor => hor.elim id fun hused => hp.tops a hused.1 ha hused.2, .inl⟩
    refine (List.perm_ext_iff_of_nodup hvt.tops_nodup hst.tops_nodup).mpr fun a => ?_
    constructor
    · exact fun ha => (hmem a ((hlive a).mp (hv.tops a ha)).lt_next).mp ha
    · exact fun ha => (hmem a (hs.tops a ha).lt_next).mpr ha
  · refine (List.perm_ext_iff_of_nodup hvt.names_nodup hst.names_nodup).mpr fun a => ?_
    constructor
    · intro ha
      have hlt := ((hlive a).mp (hv.names a ha)).lt_next
      exact (h.names a hlt).mp ((hu.names h.tidy a).mp ha).1
    · intro ha
      have hlt := (hs.names a ha).lt_next
      exact (hu.names h.tidy a).mpr ⟨(h.names a hlt).mpr ha, h.not_made hlt⟩

/-- Only a plan that is reversible leaves no trace. -/
theorem Follows.reversible {p : Plan} {t v : State κ} (h : Follows s p t) (hs : Closed s)
    (hu : Undos t (p.made s) v) (hr : Restored s v) : p.Reversible s := by
  have hsorted : (p.made s).Pairwise (· < ·) := List.pairwise_lt_range' _
  have hlink : ∀ {a d}, (a, d) ∈ p.links → d ∈ t.childs a :=
    fun hmem => h.mem_childs.mpr (.inr hmem)
  have hparents : ∀ l ∈ p.links, s.next ≤ l.1 := by
    rintro ⟨a, d⟩ hmem
    by_contra hlt
    have hcount := (hr.childs a).count_eq d
    have hpos : 0 < p.links.count (a, d) := List.count_pos_iff.mpr hmem
    rw [hu.childs (h.not_made (Nat.not_le.mp hlt)), h.childs] at hcount
    exact absurd hcount (Nat.ne_of_gt (Nat.lt_add_of_pos_right hpos))
  have hmade : ∀ {a d}, (a, d) ∈ p.links → a ∈ p.made s := fun hmem =>
    h.mem_made (State.live_of_mem_childs (hlink hmem)) (hparents _ hmem)
  refine ⟨⟨?_, ?_⟩, hparents, fun b hb hlt hroot => ?_⟩
  · rintro ⟨a, d⟩ hmem hd
    refine ⟨hparents _ hmem, hu.le_of_mem_childs hsorted (hmade hmem) ?_ (hlink hmem)⟩
    exact h.mem_made (h.consistent.childs a d (hlink hmem)) hd
  · rintro ⟨a, d⟩ hmem ha hd
    by_contra htwo
    rw [← h.count_childs_new ha, Nat.not_le] at htwo
    have hstays := hu.mem_parents_of_twice hsorted (hmade hmem) (h.not_made hd) htwo
      (h.consistent.count_eq d a (State.live_of_mem_childs (hlink hmem)))
    exact absurd (hs.parents d a ((hr.parents d).mem_iff.mp hstays)).lt_next
      (Nat.not_lt.mpr ha)
  · have hnil : v.parents b = [] := (hroot ▸ hr.parents b).eq_nil
    refine hr.tops.mem_iff.mp
      ((hu.tops h.tidy.tops_nodup (h.not_made hlt) (h.consistent.count_eq b)).mpr ?_)
    rcases (h.tops b hlt).mpr (.inr ⟨hb, hroot⟩) with htop | ⟨-, hne⟩
    · exact .inl htop
    · exact .inr ⟨hne, hnil⟩

/-! ## The contract of a construction -/

/-- The configuration leaves no trace if it does not construct a backend. -/
def TakenBack (s : State κ) : Plan × Bool → Prop
  | (p, true) => p.prev = none → p.next = s.next ∧ p.Reversible s
  | (p, false) => p.Reversible s

theorem new_eq_iterate (n : Nat) (config : Hash (ItemData κ)) :
    new env n config s = match iterate env (config.entries nullFlags) ⟨s, [], none⟩ with
      | .ok ctx => .ok (ctx.prev, ctx.state)
      | .error (.stop why) => .error why
      | .error (.broke ctx) =>
          ctx.backends.items.foldlM (fun s b => undo n b s) ctx.state >>= fun s =>
            .ok (none, s) := by
  rw [new, Hash.iter_eq_foldlM]
  rfl

/-- A configuration whose items all pass is not cleaned up. -/
theorem Tracks.restored_iff {p : Plan} {ctx : NewCtx κ} (h : Tracks s p ctx)
    (hs : Closed s) (hst : Tidy s) :
    Restored s ctx.state ↔ p.next = s.next ∧ p.Reversible s := by
  constructor
  · intro hr
    have hnext : p.next = s.next := by
      by_contra hne
      have hlt := lt_of_le_of_ne h.le (Ne.symm hne)
      have hnew := (hr.live s.next).mp ((h.live s.next).mpr (.inr ⟨le_refl _, hlt⟩))
      exact absurd hnew.lt_next (lt_irrefl _)
    refine ⟨hnext, h.toFollows.reversible hs ?_ hr⟩
    rw [Plan.made, hnext, Nat.sub_self]
    exact .nil
  · rintro ⟨hnext, hp⟩
    refine h.toFollows.restored hs hst hp ?_ h.consistent h.tidy
    rw [Plan.made, hnext, Nat.sub_self]
    exact .nil

/-- **A construction that returns `NULL`** leaves no trace exactly if the links of the
items that pass can be taken back; and if all pass, only if nothing was made. -/
theorem new_restored_iff (env : Env κ) (s : State κ) (config : Hash (ItemData κ))
    (hs : Consistent s) (ht : Tidy s) :
    (∃ r s', Returns (fun n => new env n config s) (r, s') ∧ (r = none → Restored s s')) ↔
      TakenBack s (plan env (config.entries nullFlags) (.start s)) := by
  have hrun := iterate_tracks env ht (config.entries nullFlags) (tracks_start hs ht)
  generalize plan env (config.entries nullFlags) (.start s) = q at hrun ⊢
  obtain ⟨p, passes⟩ := q
  cases passes with
  | true =>
      obtain ⟨ctx, hiter, htracks⟩ := hrun
      have hnew : ∀ n, new env n config s = .ok (ctx.prev, ctx.state) := by
        intro n
        rw [new_eq_iterate, hiter]
      rw [TakenBack, ← htracks.restored_iff hs.toClosed ht, ← htracks.prev]
      constructor
      · rintro ⟨r, s', ⟨N, hN⟩, hr⟩
        cases (hN N (le_refl N)).symm.trans (hnew N)
        exact hr
      · exact fun hr => ⟨_, _, .of_forall hnew, hr⟩
  | false =>
      obtain ⟨ctx, hiter, hfollows, hmade⟩ := hrun
      have hnew : ∀ n, new env n config s =
          ((p.made s).foldlM (fun s b => undo n b s) ctx.state >>= fun s =>
            .ok (none, s)) := by
        intro n
        rw [new_eq_iterate, hiter, ← hmade]
      constructor
      · rintro ⟨r, s', ⟨N, hN⟩, hr⟩
        have hreturn : new env N config s = .ok (r, s') := hN N (le_refl N)
        rw [hnew] at hreturn
        cases hundo : (p.made s).foldlM (fun s b => undo N b s) ctx.state with
        | error why =>
            rw [hundo] at hreturn
            cases hreturn
        | ok v =>
            rw [hundo] at hreturn
            cases hreturn
            exact hfollows.reversible hs.toClosed (undos_of_ok hundo) (hr rfl)
      · intro hp
        obtain ⟨v, ⟨N, hN⟩, hundos, hcons, htidy⟩ :=
          foldlM_undo (hfollows.cleanable hs.toClosed hp.toTakeable)
        refine ⟨none, v, ⟨N, fun n hn => ?_⟩, fun _ => ?_⟩
        · have hundo : (p.made s).foldlM (fun s b => undo n b s) ctx.state = .ok v :=
            hN n hn
          change new env n config s = _
          rw [hnew, hundo]
          rfl
        · exact hfollows.restored hs.toClosed ht hp hundos hcons htidy

/-- Items with or without a class and a name; every class is there and
no callback fails. -/
def classEnv : Env Bool where
  string := fun config key => if config then some key else none
  copy := some
  classFind :=
    fun name => some { name := name, init := false, configure := false, fork := false }
  init := fun _ => 0
  configure := fun _ => 0
  fork := fun _ _ => 0

/-- Two backends, and an item that has no class and no name. -/
def brokenChain : Hash (ItemData Bool) :=
  .item ⟨1, Binary.regular_one⟩ (.hash true) (.item ⟨1, Binary.regular_one⟩ (.hash true)
    (.item ⟨1, Binary.regular_one⟩ (.hash false) .stop))

/-- The second backend is in front of the first, that is freed before it:
neither side holds. -/
theorem new_restored_iff_brokenChain :
    (∃ r s', Returns (fun n => new classEnv n brokenChain .empty) (r, s') ∧
        (r = none → Restored .empty s')) ↔
      TakenBack (κ := Bool) .empty (plan classEnv (brokenChain.entries nullFlags)
        (.start (.empty : State Bool))) :=
  new_restored_iff classEnv .empty brokenChain consistent_empty tidy_empty

/-- The clean-up of the second backend touches the first, that was freed. -/
theorem new_touches_freed :
    ¬∀ (env : Env Bool) (s : State Bool) (config : Hash (ItemData Bool)),
      Consistent s → Tidy s →
      ∃ r s', Returns (fun n => new env n config s) (r, s') ∧
      (r = none → Restored s s') := by
  intro hall
  obtain ⟨r, s', ⟨N, hN⟩, -⟩ :=
    hall classEnv .empty brokenChain consistent_empty tidy_empty
  have hfreed : new classEnv (N + 2) brokenChain .empty = .error .freed := rfl
  cases (hN (N + 2) (Nat.le_add_right N 2)).symm.trans hfreed

end Frozen.Graph
