/-
# `Frozen.Graph.Shutdown` — the tops, and `backend_destroy_all`

`backend_destroy_all` destroys the backends of the list `backends_top`, so this list
has to have every backend without parents (`Rooted`).  `backend_connect` keeps it
so.  The others do not look after the parents of a link that goes, nor after a copy
without children:

    disconnect     a parent that is a root itself is no top any more
    destroy        so is every surviving parent of a backend that goes
    fork           a copy comes to the tops only with its first child

`Call.Rooting` are the calls where this does not matter.  When the tops are right
the loop of `backend_destroy_all` still has to find every root among them when its
turn comes (`Separate`): the destruction of a child of two roots takes the second
one from the tops.
-/
import Frozen.Graph.Run

namespace Frozen.Graph

open Lib Binary

variable {κ : Type} {env : Env κ} {s t u : State κ}

/-- The tops are the backends without parents. -/
def Rooted (s : State κ) : Prop := ∀ a, a ∈ s.tops.items ↔ s.Live a ∧ s.parents a = []

/-- Nobody holds a reference but the first. -/
def Unheld (s : State κ) : Prop := ∀ a x, s.heap a = some x → x.refs = 1

/-- `backend_destroy_all`. -/
def destroyAll : Nat → State κ → Except Stop (State κ)
  | 0, _ => .error .deep
  | n + 1, s =>
      match s.tops.pop with
      | (none, _) => .ok { s with tops := [], names := [] }
      | (some b, l) => do
          let s ← destroy n b { s with tops := l }
          destroyAll n s

namespace Call

/-- A call that neither inserts nor acquires. -/
def Plain : Call κ → Prop
  | insert _ _ => False
  | acquire _ => False
  | _ => True

/-- The call keeps the tops in step. -/
def Rooting (env : Env κ) (s : State κ) : Call κ → Prop
  | new config => Clean env s config
  | connect _ _ => True
  | disconnect parent child => parent = child ∨ s.parents parent ≠ []
  | insert _ _ => False
  | acquire _ => False
  | fork b => s.childs b ≠ []
  | destroy b => (∃ n, Doomed s n b) ∧
      ∀ p c, p ∈ s.parents c → s.Reaches b c → ¬ s.Reaches b p → s.parents p ≠ []

theorem Rooting.safe {call : Call κ} (h : call.Rooting env s) : call.Safe env s := by
  cases call with
  | new config => exact h
  | connect parent child => trivial
  | disconnect parent child => trivial
  | insert parent newChild => exact h.elim
  | acquire name => trivial
  | fork b => trivial
  | destroy b => exact .inr h.1

end Call

/-! ## One link -/

/-- A connection brings its parent to the tops. -/
theorem Joined.rooted {b : Nat} {prev : Option Nat} (h : Joined t b prev u)
    (ht : Tidy t) (hb : t.Live b)
    (hroot : ∀ a, a ≠ b → (a ∈ t.tops.items ↔ t.Live a ∧ t.parents a = [])) :
    Rooted u := by
  intro a
  rw [h.tops ht.tops_nodup, h.live]
  by_cases hprev : prev = some a
  · simp [hprev, h.parents_ne_nil hprev]
  · rw [h.parents_nil_iff hprev]
    by_cases hab : a = b
    · subst hab
      simp only [ne_eq, hprev, not_false_eq_true, true_and, hb]
      exact ⟨fun hor => hor.elim (ht.tops_root a) id, .inr⟩
    · simp only [ne_eq, hprev, not_false_eq_true, true_and, hab, false_and, or_false]
      exact hroot a hab

theorem Rooted.link {p c : Nat} (h : Rooted s) (ht : Tidy s) (hp : s.Live p)
    (hc : s.Live c) : Rooted (s.link p c) :=
  (joined_link hp hc).rooted ht hp fun a _ => h a

theorem Rooted.unlink {p c : Nat} (h : Rooted s) (ht : Tidy s)
    (hp : p = c ∨ s.parents p ≠ []) : Rooted (s.unlink p c) := by
  intro a
  rw [State.mem_tops_unlink ht.tops_nodup, State.live_unlink]
  by_cases hac : a = c
  · subst hac
    rw [State.parents_unlink_self]
    refine ⟨?_, fun hnil => .inr ⟨rfl, hnil⟩⟩
    rintro (⟨-, htop⟩ | ⟨-, hnil⟩)
    · obtain ⟨hlive, hnil⟩ := (h a).mp htop
      rw [hnil]
      exact ⟨hlive, rfl⟩
    · exact hnil
  · rw [State.parents_unlink_of_ne hac, ← h a]
    simp only [hac, false_and, or_false, and_iff_right_iff_imp]
    rintro htop rfl
    exact hp.elim hac fun hne => hne ((h a).mp htop).2

/-! ## Constructions -/

theorem Rooted.resembles (h : Rooted t) (hr : Resembles t u) : Rooted u := by
  intro a
  have hnil : u.parents a = [] ↔ t.parents a = [] :=
    ⟨eq_nil_of_count_eq fun q => (hr.parents a q).ge,
      eq_nil_of_count_eq fun q => (hr.parents a q).le⟩
  rw [hr.tops, hr.live, hnil]
  exact h a

/-- An item leaves the tops right, also one that fails. -/
theorem Outcome.rooted {ctx ctx' : NewCtx κ} {q : Ask} {r : Except (Halt κ) (NewCtx κ)}
    (h : Outcome ctx q r) (hready : Ready ctx) (hroot : Rooted ctx.state)
    (hr : r = .ok ctx' ∨ r = .error (.broke ctx')) : Rooted ctx'.state := by
  cases h with
  | skip =>
      obtain hr | hr := hr
      · cases hr
        exact hroot
      · cases hr
  | cut =>
      obtain hr | hr := hr
      · cases hr
        exact hroot
      · cases hr
  | use hb hjoined =>
      obtain hr | hr := hr
      · cases hr
        exact hjoined.rooted hready.tidy hb fun a _ => hroot a
      · cases hr
  | make hbesides hjoined =>
      obtain hr | hr := hr
      · cases hr
        refine hjoined.rooted hbesides.tidy ((hbesides.live _).mpr (.inr rfl))
          fun a ha => ?_
        have hnil : (ctx.state.make _).parents a = [] ↔ ctx.state.parents a = [] :=
          ⟨eq_nil_of_count_eq fun q => (hbesides.parents a q ha).ge,
            eq_nil_of_count_eq fun q => (hbesides.parents a q ha).le⟩
        rw [hbesides.tops a ha, hbesides.live, hnil, hroot a, or_iff_left ha]
      · cases hr
  | fail hres =>
      obtain hr | hr := hr
      · cases hr
      · cases hr
        exact hroot.resembles hres

theorem iterate_rooted (hst : Tidy s) {es : List (Entry (ItemData κ))} {p : Plan}
    {ctx ctx' : NewCtx κ} (h : Tracks s p ctx) (hroot : Rooted ctx.state)
    (hrun : iterate env es ctx = .ok ctx' ∨
      iterate env es ctx = .error (.broke ctx')) : Rooted ctx'.state := by
  induction es generalizing p ctx with
  | nil =>
      obtain hrun | hrun := hrun
      · cases hrun
        exact hroot
      · cases hrun
  | cons e es ih =>
      have hout := newIterator_outcome env h.ready e
      have hcons : iterate env (e :: es) ctx = newIterator env e ctx >>= iterate
          env es := by
        rw [iterate, List.foldlM_cons]
        rfl
      rw [hcons] at hrun
      cases hp : p.follow (ask env (firstNamed p.names p.nameOf) p.next e) with
      | some p' =>
          obtain ⟨ctx₁, hitem, htracks⟩ := h.step hst hp
          rw [hitem] at hrun hout
          exact ih htracks (hout.rooted h.ready hroot (.inl rfl)) hrun
      | none =>
          obtain ⟨v, hitem, -⟩ := h.fail hp
          rw [hitem] at hrun hout
          obtain hrun | hrun := hrun
          · cases hrun
          · cases hrun
            exact hout.rooted h.ready hroot (.inr rfl)

/-- The clean-up brings back to the tops what loses its last parent. -/
theorem Rooted.undos {bs : List Nat} (h : Rooted t) (hcons : Consistent t)
    (ht : Tidy t) (hu : Undos t bs u) (hclosed : Closed u) : Rooted u := by
  intro a
  by_cases ha : a ∈ bs
  · have hdead : ¬ u.Live a := fun hl => ((hu.live a).mp hl).2 ha
    exact ⟨fun htop => absurd (hclosed.tops a htop) hdead, fun hl => absurd hl.1 hdead⟩
  · rw [hu.tops ht.tops_nodup ha (hcons.count_eq a), hu.live, h a]
    constructor
    · rintro (⟨hl, hnil⟩ | ⟨hne, hnil⟩)
      · exact ⟨⟨hl, ha⟩, hu.parents_nil ha hnil⟩
      · obtain ⟨q, hq⟩ := List.exists_mem_of_ne_nil _ hne
        exact ⟨⟨State.live_of_mem_parents hq, ha⟩, hnil⟩
    · rintro ⟨⟨hl, -⟩, hnil⟩
      by_cases hold : t.parents a = []
      · exact .inl ⟨hl, hold⟩
      · exact .inr ⟨hold, hnil⟩

theorem Rooted.constructed {config : Hash (ItemData κ)} (h : Rooted s)
    (hs : Consistent s) (ht : Tidy s) (hc : Constructed env s config u) : Rooted u := by
  cases hc with
  | passes hiter _ => exact iterate_rooted ht (tracks_start hs ht) h (.inl hiter)
  | undone hiter hfollows hundos hcons _ =>
      exact (iterate_rooted ht (tracks_start hs ht) h (.inr hiter)).undos
        hfollows.consistent hfollows.tidy hundos hcons.toClosed

/-! ## Forks -/

/-- Among the backends from an address on, those with children are tops if they have no
parent, and those without are not. -/
def Topped (base : Nat) (s : State κ) : Prop :=
  ∀ a, base ≤ a → (a ∈ s.tops.items ↔ s.Live a ∧ s.parents a = [] ∧ s.childs a ≠ [])

theorem Topped.alloc {base : Nat} {x : Backend κ} (h : Topped base t) (ht : Closed t)
    (hc : x.childs = []) (hp : x.parents = []) : Topped base (t.alloc x) := by
  intro a ha
  rw [State.live_alloc, State.childs_alloc (by rw [hc]; rfl),
    State.parents_alloc (by rw [hp]; rfl)]
  by_cases hnew : a = t.next
  · have hdead : ¬ t.Live a := fun hl => absurd hl.lt_next (by omega)
    rw [State.childs_of_none (State.not_live_iff.mp hdead)]
    exact ⟨fun htop => absurd (ht.tops a htop) hdead, fun hor => absurd rfl hor.2.2⟩
  · rw [or_iff_left hnew]
    exact h a ha

theorem Topped.link {base p c : Nat} (h : Topped base t) (ht : Tidy t) (hp : t.Live p)
    (hc : t.Live c) : Topped base (t.link p c) := by
  intro a ha
  rw [State.mem_tops_link ht.tops_nodup, State.live_link]
  by_cases hac : a = c
  · subst hac
    have hne : (t.link p a).parents a ≠ [] := (joined_link hp hc).parents_ne_nil rfl
    simp [hne]
  · rw [State.parents_link_of_ne hac, h a ha]
    by_cases hap : a = p
    · subst hap
      have hne : (t.link a c).childs a ≠ [] := by
        intro hnil
        have hperm := State.childs_link_self (c := c) hp
        rw [hnil] at hperm
        exact List.cons_ne_nil _ _ hperm.nil_eq.symm
      simp only [ne_eq, hac, not_false_eq_true, true_and, hp, hne, and_true]
      exact ⟨fun hor => hor.elim (fun h => h.1) id, .inr⟩
    · rw [State.childs_link_of_ne hap]
      simp [hac, hap]

theorem Topped.linkAll {base p : Nat} {cs : List Nat} (h : Topped base t) (ht : Tidy t)
    (hp : t.Live p) (hcs : ∀ c ∈ cs, t.Live c) : Topped base (t.linkAll p cs) := by
  induction cs generalizing t with
  | nil => exact h
  | cons c cs ih =>
      obtain ⟨hc, hcs⟩ := List.forall_mem_cons.mp hcs
      exact ih (h.link ht hp hc) ht.link (State.live_link.mpr hp) fun d hd =>
        State.live_link.mpr (hcs d hd)

theorem copyAll_topped {base : Nat} {vs : List Nat} {f : Branches Nat}
    (hf : Unfolds s.childs vs f) (hlive : ∀ v ∈ f.post, s.Live v) (hle : s.next ≤ t.next)
    (hheap : ∀ a, a < s.next → t.heap a = s.heap a) (hcons : Consistent t)
    (htidy : Tidy t) (h : Topped base t) : Topped base (copyAll env f t).2 := by
  induction hf generalizing t with
  | nil => exact h
  | cons hbelow _ ih₁ ih₂ =>
      rename_i v vs below rest _
      rw [Branches.post, List.forall_mem_append] at hlive
      obtain ⟨hlive₁, hlive₂⟩ := hlive
      obtain ⟨hv, hlive₂⟩ := List.forall_mem_cons.mp hlive₂
      obtain ⟨x, hx⟩ := State.live_iff.mp hv
      have hx' : t.heap v = some x := (hheap v hv.lt_next).trans hx
      obtain ⟨g, hcopied, hroots, hpost, hext⟩ :=
        copyAll_copied env hbelow hlive₁ hle hheap
      obtain ⟨hcons₁, htidy₁⟩ :=
        copyAll_consistent env hbelow hlive₁ hle hheap hcons htidy
      have hnew : ∀ c ∈ (copyAll env below t).1, c ∈ g.post := by
        intro c hc
        rw [← hroots] at hc
        exact g.roots_sublist_post.subset hc
      have hcs : ∀ c ∈ (copyAll env below t).1,
          ((copyAll env below t).2.alloc (x.clone env)).Live c :=
        fun c hc => State.live_alloc.mpr (.inl (hcopied.live c (hnew c hc)))
      have hself : ((copyAll env below t).2.alloc (x.clone env)).Live
          (copyAll env below t).2.next :=
        State.live_alloc.mpr (.inr rfl)
      have hext₂ : Extends t _ (below.post.length + 1) :=
        hext.linkNew (x.clone env) (copyAll env below t).1 fun c hc => by
          have hmem := hnew c hc
          rw [hpost, List.mem_range'_1] at hmem
          exact hmem.1
      have halloc := htidy₁.alloc (x := x.clone env) hcons₁.toClosed rfl
      rw [copyAll, hx']
      refine ih₂ hlive₂ ?_ (fun a ha => (hext₂.heap a (by omega)).trans (hheap a ha))
        ?_ halloc.linkAll ?_
      · rw [hext₂.next]
        omega
      · exact (hcons₁.alloc rfl rfl).linkAll hself hcs
      · exact ((ih₁ hlive₁ hle hheap hcons htidy h).alloc hcons₁.toClosed rfl
          rfl).linkAll halloc hself hcs

/-- Only the roots of a copy have the parents of the roots. -/
theorem Copied.parents {par : List Nat} {f g : Branches Nat}
    (h : Copied env s t par f g) :
    ∀ a ∈ g.post, a ∈ g.roots ∧ t.parents a = par ∨ t.parents a ≠ [] := by
  induction h with
  | nil => exact fun _ h => absurd h List.not_mem_nil
  | cons _ hy _ _ hparents _ _ ih₁ ih₂ =>
      rw [Branches.post, List.forall_mem_append]
      refine ⟨fun a ha => ?_, List.forall_mem_cons.mpr ⟨?_, fun a ha => ?_⟩⟩
      · rcases ih₁ a ha with ⟨-, heq⟩ | hne
        · rw [heq]
          exact .inr (List.cons_ne_nil _ _)
        · exact .inr hne
      · exact .inl ⟨List.mem_cons_self .., (State.parents_of_heap hy).trans hparents⟩
      · rcases ih₂ a ha with ⟨hroot, heq⟩ | hne
        · exact .inl ⟨List.mem_cons_of_mem _ hroot, heq⟩
        · exact .inr hne

/-- The copy of a backend with children is a top. -/
theorem Rooted.fork {b : Nat} {f : Branches Nat} (h : Rooted s) (hs : Consistent s)
    (ht : Tidy s) (hf : Unfolds s.childs [b] f) (hlive : ∀ v ∈ f.post, s.Live v)
    (hne : s.childs b ≠ []) : Rooted (copyAll env f s).2 := by
  obtain ⟨g, hcopied, -, hpost, hext⟩ :=
    copyAll_copied env hf hlive (le_refl _) fun _ _ => rfl
  have hfresh : Topped s.next s := by
    intro a ha
    have hdead : ¬ s.Live a := fun hl => absurd hl.lt_next (by omega)
    exact ⟨fun htop => absurd (hs.tops a htop) hdead, fun hl => absurd hl.1 hdead⟩
  have htopped : Topped s.next (copyAll env f s).2 :=
    copyAll_topped hf hlive (le_refl _) (fun _ _ => rfl) hs ht hfresh
  intro a
  rcases Nat.lt_or_ge a s.next with ha | ha
  · have hfilter :=
      hext.tops (fun a => a < s.next) fun a ha => decide_eq_false (Nat.not_lt.mpr ha)
    have hmem : a ∈ (copyAll env f s).2.tops.items ↔ a ∈ s.tops.items := by
      have hiff : a ∈ (copyAll env f s).2.tops.items.filter (fun a => a < s.next) ↔
          a ∈ s.tops.items.filter fun a => a < s.next := by rw [hfilter]
      simpa [ha] using hiff
    rw [hmem, State.Live, State.parents, hext.heap a ha]
    exact h a
  · rw [htopped a ha]
    refine ⟨fun hl => ⟨hl.1, hl.2.1⟩, ?_⟩
    rintro ⟨hl, hnil⟩
    refine ⟨hl, hnil, ?_⟩
    have hmem : a ∈ g.post := by
      rw [hpost, List.mem_range'_1, ← hext.next]
      exact ⟨ha, hl.lt_next⟩
    have hroot : a ∈ g.roots :=
      ((hcopied.parents a hmem).resolve_right (not_not.mpr hnil)).1
    -- the only root is the copy of the backend itself
    cases hf with
    | cons hbelow hrest =>
        cases hrest
        rw [← hbelow.roots_eq] at hne
        cases hcopied with
        | cons _ hy _ hchilds _ hcopied' hnil' =>
            cases hnil'
            obtain rfl := List.mem_singleton.mp hroot
            rw [State.childs_of_heap hy, hchilds]
            cases hcopied' with
            | nil => exact absurd rfl hne
            | cons => exact List.cons_ne_nil _ _

/-! ## Destruction -/

theorem Rooted.destroys {b : Nat} (h : Rooted s) (hs : Consistent s) (hd : Destroys s b u)
    (hspared : ∀ p c, p ∈ s.parents c → s.Reaches b c → ¬ s.Reaches b p →
      s.parents p ≠ []) : Rooted u := by
  obtain ⟨T, hT, -, hkeep⟩ := hd.prunes.tops
  intro a
  rw [hT, List.mem_filter]
  constructor
  · rintro ⟨htop, hTa⟩
    have hl : u.Live a := hd.prunes.closed.tops a (hT ▸ List.mem_filter.mpr ⟨htop, hTa⟩)
    rw [hd.prunes.parents_eq hl]
    exact ⟨hl, ((h a).mp htop).2⟩
  · rintro ⟨hl, hnil⟩
    rw [hd.prunes.parents_eq hl] at hnil
    obtain ⟨hls, hno⟩ := (hd.live_iff hs).mp hl
    refine ⟨(h a).mpr ⟨hls, hnil⟩, hkeep a hl fun c hc => ?_⟩
    by_contra hdead
    refine hspared a c hc ?_ hno hnil
    by_contra hno'
    exact hdead ((hd.live_iff hs).mpr ⟨State.live_of_mem_parents hc, hno'⟩)

/-! ## References -/

namespace Unheld

variable {b : Nat}

theorem of_refs (h : Unheld s)
    (hu : ∀ a x', u.heap a = some x' → ∃ x, s.heap a = some x ∧ x'.refs = x.refs) :
    Unheld u := by
  intro a x' hx'
  obtain ⟨x, hx, hrefs⟩ := hu a x' hx'
  exact hrefs.trans (h a x hx)

theorem link {p c : Nat} (h : Unheld s) : Unheld (s.link p c) := by
  refine h.of_refs fun a x' hx' => ?_
  rw [State.heap_link] at hx'
  obtain ⟨x, hx, rfl⟩ := Option.map_eq_some_iff.mp hx'
  exact ⟨x, hx, rfl⟩

theorem unlink {p c : Nat} (h : Unheld s) : Unheld (s.unlink p c) := by
  refine h.of_refs fun a x' hx' => ?_
  rw [State.heap_unlink] at hx'
  obtain ⟨x, hx, rfl⟩ := Option.map_eq_some_iff.mp hx'
  exact ⟨x, hx, rfl⟩

theorem modify {f : Backend κ → Backend κ} (h : Unheld s)
    (hf : ∀ x, (f x).refs = x.refs) : Unheld (s.modify b f) := by
  refine h.of_refs fun a x' hx' => ?_
  by_cases hab : a = b
  · rw [State.heap_modify, if_pos hab] at hx'
    obtain ⟨x, hx, rfl⟩ := Option.map_eq_some_iff.mp hx'
    exact ⟨x, hab ▸ hx, hf x⟩
  · rw [State.heap_modify_of_ne f hab] at hx'
    exact ⟨x', hx', rfl⟩

theorem alloc {x : Backend κ} (h : Unheld s) (hx : x.refs = 1) : Unheld (s.alloc x) := by
  intro a y hy
  by_cases ha : a = s.next
  · rw [ha, State.heap_alloc_self] at hy
    cases hy
    exact hx
  · rw [State.heap_alloc_of_ne ha] at hy
    exact h a y hy

theorem connect {prev : Option Nat} (h : Unheld s) (hrun : connect b prev s = .ok u) :
    Unheld u := by
  cases prev with
  | none =>
      obtain ⟨x, -, hrun⟩ := ok_of_bind hrun
      cases hrun
      refine h.of_refs fun a x' hx' => ?_
      have hhole : (s.addHole b).heap a = some x' := hx'
      rw [State.heap_addHole] at hhole
      obtain ⟨x, hx, rfl⟩ := Option.map_eq_some_iff.mp hhole
      exact ⟨x, hx, rfl⟩
  | some c =>
      obtain ⟨-, -, rfl⟩ := connect_ok hrun
      exact h.link

theorem disconnect {prev : Option Nat} (h : Unheld s)
    (hrun : disconnect b prev s = .ok u) : Unheld u := by
  cases prev with
  | none =>
      obtain ⟨x, -, hrun⟩ := ok_of_bind hrun
      cases hrun
      exact modify (s := s.untop b) h fun _ => rfl
  | some c =>
      obtain ⟨-, -, rfl⟩ := disconnect_ok hrun
      exact h.unlink

theorem freeSkeleton (h : Unheld s) (hrun : freeSkeleton b s = .ok u) : Unheld u := by
  obtain ⟨x, hx, -⟩ := ok_of_bind hrun
  have hb : s.Live b := State.live_of_heap (State.heap_of_backend (s := s.untop b) hx)
  obtain ⟨u', hfree, hfreed⟩ := freeSkeleton_eq hb
  obtain rfl := Except.ok.inj (hfree.symm.trans hrun)
  refine h.of_refs fun a x' hx' => ?_
  rw [hfreed.heap] at hx'
  split at hx'
  · cases hx'
  · exact ⟨x', hx', rfl⟩

theorem newSkeleton {name : Option String} {cls : String} {config : κ} {r : Option Nat}
    (h : Unheld s) (hrun : newSkeleton env name cls config s = .ok (r, u)) :
    Unheld u := by
  unfold Graph.newSkeleton at hrun
  split at hrun
  · cases hrun
    exact h
  · rename_i c _
    have hmake : Unheld (s.make (skeleton env name c config)) := by
      intro a x hx
      rw [State.heap_make] at hx
      exact h.alloc rfl a x hx
    change (if (env.copy config).isSome
      then Except.ok (some s.next, s.make (skeleton env name c config))
      else do
        let s ← Graph.freeSkeleton s.next (s.make (skeleton env name c config))
        .ok (none, s)) = _ at hrun
    split at hrun
    · cases hrun
      exact hmake
    · obtain ⟨v, hfree, hrun⟩ := ok_of_bind hrun
      cases hrun
      exact hmake.freeSkeleton hfree

theorem newItem {name cls : Option String} {config : κ} {ctx ctx' : NewCtx κ} {go : Bool}
    (h : Unheld ctx.state) (hrun : newItem env name cls config ctx = .ok (go, ctx')) :
    Unheld ctx'.state := by
  cases cls with
  | none =>
      cases name with
      | none =>
          cases hrun
          exact h
      | some name =>
          obtain ⟨r, -, hrun⟩ := ok_of_bind hrun
          cases r with
          | none =>
              cases hrun
              exact h
          | some b =>
              obtain ⟨v, hconnect, hrun⟩ := ok_of_bind hrun
              cases hrun
              exact h.connect hconnect
  | some cls =>
      obtain ⟨⟨r, t⟩, hskel, hrun⟩ := ok_of_bind hrun
      have ht := h.newSkeleton hskel
      cases r with
      | none =>
          cases hrun
          exact ht
      | some b =>
          obtain ⟨v, hconnect, hrun⟩ := ok_of_bind hrun
          obtain ⟨x, -, hrun⟩ := ok_of_bind hrun
          split at hrun
          · obtain ⟨w, hdisconnect, hrun⟩ := ok_of_bind hrun
            obtain ⟨z, hfree, hrun⟩ := ok_of_bind hrun
            cases hrun
            exact ((ht.connect hconnect).disconnect hdisconnect).freeSkeleton hfree
          · cases hrun
            exact ht.connect hconnect

theorem iterate {es : List (Entry (ItemData κ))} {ctx ctx' : NewCtx κ}
    (h : Unheld ctx.state) (hrun : iterate env es ctx = .ok ctx' ∨
      iterate env es ctx = .error (.broke ctx')) : Unheld ctx'.state := by
  induction es generalizing ctx with
  | nil =>
      obtain hrun | hrun := hrun
      · cases hrun
        exact h
      · cases hrun
  | cons e es ih =>
      have hitem : ∀ ctx₁, newIterator env e ctx = .ok ctx₁ ∨
          newIterator env e ctx = .error (.broke ctx₁) → Unheld ctx₁.state := by
        intro ctx₁ hone
        unfold newIterator at hone
        split at hone
        · obtain hone | hone := hone
          · cases hone
            exact h
          · cases hone
        · split at hone
          · obtain hone | hone := hone <;> cases hone
          · rename_i hrun'
            obtain hone | hone := hone
            · cases hone
            · cases hone
              exact h.newItem hrun'
          · rename_i hrun'
            obtain hone | hone := hone
            · cases hone
              exact h.newItem hrun'
            · cases hone
        · obtain hone | hone := hone
          · cases hone
            exact h
          · cases hone
      have hcons : Graph.iterate env (e :: es) ctx = newIterator env e ctx >>=
          Graph.iterate env es := by
        rw [Graph.iterate, List.foldlM_cons]
        rfl
      rw [hcons] at hrun
      cases hone : newIterator env e ctx with
      | error why =>
          rw [hone] at hrun hitem
          obtain hrun | hrun := hrun
          · cases hrun
          · cases hrun
            exact hitem ctx' (.inr rfl)
      | ok ctx₁ =>
          rw [hone] at hrun hitem
          exact ih (hitem ctx₁ (.inl rfl)) hrun

theorem undo {n : Nat} (h : Unheld s) (hrun : undo n b s = .ok u) : Unheld u := by
  obtain ⟨d, hloop, hfree⟩ := ok_of_bind hrun
  have hd : Unheld d := whilePop_preserves (fun s x l hs _ _ => hs.modify fun _ => rfl)
    (fun c s s' hs hstep => hs.disconnect hstep) h hloop
  exact hd.freeSkeleton hfree

theorem new {n : Nat} {config : Hash (ItemData κ)} {r : Option Nat} (h : Unheld s)
    (hrun : new env n config s = .ok (r, u)) : Unheld u := by
  rw [new_eq_iterate] at hrun
  cases hiter : Graph.iterate env (config.entries nullFlags) ⟨s, [], none⟩ with
  | ok ctx =>
      rw [hiter] at hrun
      cases hrun
      exact iterate h (.inl hiter)
  | error halt =>
      rw [hiter] at hrun
      cases halt with
      | stop why => cases hrun
      | broke ctx =>
          obtain ⟨v, hclean, hrun⟩ := ok_of_bind hrun
          cases hrun
          exact foldlM_preserves (fun b _ s s' hs hundo => hs.undo hundo)
            (iterate h (.inr hiter)) hclean

theorem linkAll {p : Nat} {cs : List Nat} (h : Unheld s) : Unheld (s.linkAll p cs) := by
  induction cs generalizing s with
  | nil => exact h
  | cons c cs ih => exact ih h.link

theorem copyAll (f : Branches Nat) (h : Unheld s) : Unheld (copyAll env f s).2 := by
  induction f generalizing s with
  | nil => exact h
  | cons v below rest ih₁ ih₂ =>
      rw [Graph.copyAll]
      split
      · exact h
      · exact ih₂ ((ih₁ h).alloc rfl).linkAll

theorem prunes (h : Unheld s) (hp : Prunes s u) : Unheld u :=
  h.of_refs fun a x' hx' => by
    obtain ⟨x, hx, hrefs, -⟩ := hp.shrinks a x' hx'
    exact ⟨x, hx, hrefs⟩

end Unheld

/-! ## The loop over the tops -/

/-- Every root is still a top when its turn comes, and may be destroyed. -/
structure Separate (s : State κ) : Prop where
  acyclic : Acyclic s.childs
  nodup : ∀ a, (s.parents a).Nodup
  /-- no child of a later top goes with an earlier one -/
  apart : s.tops.items.Pairwise fun r t => ∀ c ∈ s.childs t, ¬ s.Reaches r c

theorem doomed_of_unfolds (hone : Unheld s) (hs : Closed s)
    (hnodup : ∀ a, (s.parents a).Nodup) {vs : List Nat} {f : Branches Nat}
    (hf : Unfolds s.childs vs f) (hvs : ∀ v ∈ vs, s.Live v) :
    ∃ n, ∀ v ∈ vs, Doomed s n v := by
  induction hf with
  | nil => exact ⟨0, fun _ h => absurd h List.not_mem_nil⟩
  | cons _ _ ih₁ ih₂ =>
      rename_i v vs below rest _ _
      obtain ⟨hv, hvs⟩ := List.forall_mem_cons.mp hvs
      obtain ⟨n, hn⟩ := ih₁ (hs.childs v)
      obtain ⟨m, hm⟩ := ih₂ hvs
      obtain ⟨x, hx⟩ := State.live_iff.mp hv
      rw [State.childs_of_heap hx] at hn
      have hself : Doomed s (n + 1) v :=
        ⟨x, hx, hone v x hx, State.parents_of_heap hx ▸ hnodup v, hn⟩
      exact ⟨max (n + 1) m, List.forall_mem_cons.mpr ⟨hself.mono (le_max_left ..),
        fun w hw => (hm w hw).mono (le_max_right ..)⟩⟩

/-- Every backend is below a root. -/
theorem Rooted.covered (h : Rooted s) (hs : Consistent s) (hacyclic : Acyclic s.childs)
    {a : Nat} (ha : s.Live a) : ∃ r ∈ s.tops.items, s.Reaches r a := by
  have hfinite : {a | s.Live a}.Finite :=
    (Set.finite_Iio s.next).subset fun a ha => ha.lt_next
  obtain ⟨r, hr, hno, hreach⟩ := hacyclic.exists_source hfinite
    (fun p c hc _ => State.live_of_mem_childs hc) ha
  refine ⟨r, (h r).mpr ⟨hr, List.eq_nil_iff_forall_not_mem.mpr fun p hp => hno p ?_⟩,
    hreach⟩
  rw [← List.count_pos_iff, hs.links p r (hs.parents r p hp) hr, List.count_pos_iff]
  exact hp

/-- A path to a survivor survives. -/
theorem Destroys.reaches {b v a : Nat} (hd : Destroys s b u) (hs : Consistent s)
    (hv : s.Live v) (hreach : s.Reaches v a) (ha : ¬ s.Reaches b a) : u.Reaches v a := by
  induction hreach using Relation.ReflTransGen.head_induction_on with
  | refl => exact .refl
  | head hedge hpath ih =>
      rename_i x y
      have hlive : ∀ z, s.Live z → s.Reaches z a → u.Live z := fun z hz hza =>
        (hd.live_iff hs).mpr ⟨hz, fun hbz => ha (hbz.trans hza)⟩
      have hy := hs.childs x y hedge
      refine .head ?_ (ih hy)
      rw [hd.prunes.childs_eq (hlive x hv (.head hedge hpath))]
      exact List.mem_filter.mpr ⟨hedge, decide_eq_true (hlive y hy hpath)⟩

/-- What the loop finds at every turn. -/
structure Clearable (s : State κ) : Prop where
  consistent : Consistent s
  tidy : Tidy s
  unheld : Unheld s
  separate : Separate s
  covered : ∀ a, s.Live a → ∃ r ∈ s.tops.items, s.Reaches r a

/-- The first top is popped. -/
def State.popTop (s : State κ) : State κ := { s with tops := s.tops.pop.2 }

theorem items_popTop {r : Nat} {rest : List Nat} (htops : s.tops.items = r :: rest) :
    s.popTop.tops.items = rest := by
  rw [State.popTop, Slots.items_pop, htops]
  rfl

theorem Clearable.popTop {r : Nat} {rest : List Nat} (h : Clearable s)
    (htops : s.tops.items = r :: rest) : Consistent s.popTop ∧ Tidy s.popTop := by
  have hsub : ∀ a ∈ s.popTop.tops.items, a ∈ s.tops.items := by
    intro a ha
    rw [items_popTop htops] at ha
    rw [htops]
    exact List.mem_cons_of_mem r ha
  have hnodup : s.popTop.tops.items.Nodup := by
    rw [items_popTop htops]
    exact (List.nodup_cons.mp (htops ▸ h.tidy.tops_nodup)).2
  exact ⟨h.consistent.congr (fun _ => Iff.rfl) (fun _ => rfl) (fun _ => rfl)
      (fun a ha => h.consistent.tops a (hsub a ha)) rfl,
    h.tidy.congr (fun _ => rfl) hnodup (fun a ha => h.tidy.tops_root a (hsub a ha)) rfl
      fun a x hx => ⟨x, hx, rfl⟩⟩

theorem Separate.destroys {r : Nat} {rest : List Nat} (h : Separate s)
    (htops : s.tops.items = r :: rest) (hd : Destroys s.popTop r u) : Separate u := by
  have hshrinks := hd.prunes.shrinks
  refine ⟨fun v hv => ?_, fun a => ?_, ?_⟩
  · exact h.acyclic v
      (Relation.TransGen.mono (fun a c hc => hshrinks.childs_subset a hc) _ _ hv)
  · by_cases ha : u.Live a
    · rw [hd.prunes.parents_eq ha]
      exact h.nodup a
    · rw [State.parents_of_none (State.not_live_iff.mp ha)]
      exact List.nodup_nil
  · obtain ⟨T, hT, -⟩ := hd.prunes.tops
    have hapart := h.apart
    rw [htops, List.pairwise_cons] at hapart
    rw [hT, items_popTop htops]
    refine (hapart.2.imp fun hno c hc hreach => ?_).filter T
    exact hno c (hshrinks.childs_subset _ hc) (hshrinks.reaches hreach)

/-- The root above a survivor is still a top. -/
theorem Clearable.covered_destroys {r : Nat} {rest : List Nat} (h : Clearable s)
    (htops : s.tops.items = r :: rest) (hd : Destroys s.popTop r u) {a : Nat}
    (ha : u.Live a) : ∃ t ∈ u.tops.items, u.Reaches t a := by
  have hs := (h.popTop htops).1
  have hapart := h.separate.apart
  rw [htops, List.pairwise_cons] at hapart
  obtain ⟨T, hT, -, hkeep⟩ := hd.prunes.tops
  obtain ⟨hla, hno⟩ := (hd.live_iff hs).mp ha
  obtain ⟨t, htop, hreach⟩ := h.covered a hla
  have hlt : s.Live t := h.consistent.tops t htop
  rw [htops] at htop
  have hrest : t ∈ rest :=
    (List.mem_cons.mp htop).resolve_left fun htr => hno (htr ▸ hreach)
  refine ⟨t, ?_, hd.reaches hs hlt hreach hno⟩
  rw [hT, items_popTop htops]
  refine List.mem_filter.mpr ⟨hrest, hkeep t ?_ fun c hc => ?_⟩
  · exact (hd.live_iff hs).mpr ⟨hlt, fun hrt => hno (hrt.trans hreach)⟩
  · have hlc := State.live_of_mem_parents hc
    refine (hd.live_iff hs).mpr ⟨hlc, hapart.1 t hrest c ?_⟩
    rw [← List.count_pos_iff, h.consistent.links t c hlt hlc, List.count_pos_iff]
    exact hc

/-- One turn of the loop. -/
theorem Clearable.step {r : Nat} {rest : List Nat} (h : Clearable s)
    (htops : s.tops.items = r :: rest) :
    ∃ u, Returns (fun n => destroy n r s.popTop) u ∧ Clearable u ∧
      u.tops.items.length ≤ rest.length := by
  have hr : s.Live r := h.consistent.tops r (by rw [htops]; exact List.mem_cons_self ..)
  obtain ⟨hs, ht⟩ := h.popTop htops
  obtain ⟨f, hf⟩ := h.consistent.exists_unfolds h.separate.acyclic [r] (by simpa using hr)
  obtain ⟨n, hdoomed⟩ := doomed_of_unfolds h.unheld h.consistent.toClosed
    h.separate.nodup hf (by simpa using hr)
  have hdoomed' : Doomed s.popTop n r :=
    (hdoomed r (List.mem_singleton_self r)).congr fun _ _ => rfl
  obtain ⟨u, hrun, hd⟩ := destroy_doomed n s.popTop r (.of_consistent hs ht) hdoomed'
  refine ⟨u, hrun, ⟨hs.prunes hd.prunes, ht.prunes hd.prunes,
    Unheld.prunes (s := s.popTop) h.unheld hd.prunes,
    h.separate.destroys htops hd, fun a ha => h.covered_destroys htops hd ha⟩, ?_⟩
  obtain ⟨T, hT, -⟩ := hd.prunes.tops
  rw [hT, items_popTop htops]
  exact List.length_filter_le T rest

/-- **`backend_destroy_all`** destroys all, if the roots are separate.  By induction on
how many tops there are. -/
theorem destroyAll_clears (k : Nat) : ∀ s : State κ, s.tops.items.length < k →
    Clearable s → ∃ s', Returns (fun n => destroyAll n s) s' ∧ ∀ a, ¬ s'.Live a := by
  induction k with
  | zero =>
      intro s hlen
      omega
  | succ k ih =>
      intro s hlen h
      have hpop : s.tops.pop.1 = s.tops.items.head? := Slots.pop_fst _
      cases htops : s.tops.items with
      | nil =>
          rw [htops] at hpop
          refine ⟨{ s with tops := [], names := [] },
            .of_succ (.of_forall fun n => ?_), fun a ha => ?_⟩
          · rw [destroyAll, ← Prod.mk.eta (p := s.tops.pop), hpop]
            rfl
          · obtain ⟨r, hr, -⟩ := h.covered a ha
            rw [htops] at hr
            cases hr
      | cons r rest =>
          obtain ⟨u, hrun, hu, hle⟩ := h.step htops
          rw [htops] at hpop hlen
          obtain ⟨s', hrun', hdead⟩ := ih u (by rw [List.length_cons] at hlen; omega) hu
          refine ⟨s', .of_succ ?_, hdead⟩
          have hstep : ∀ n, destroyAll (n + 1) s = destroy n r s.popTop >>=
              destroyAll n := by
            intro n
            rw [destroyAll, ← Prod.mk.eta (p := s.tops.pop), hpop]
            rfl
          simp only [hstep]
          exact hrun.bind hrun'

/-! ## Every run -/

section

variable (hinit : ∀ a, env.init a = 0) (hconfigure : ∀ a, env.configure a = 0)
  (hfork : ∀ a o, env.fork a o = 0)
include hinit hconfigure hfork

/-- **One call** keeps the tops in step. -/
theorem Call.rooted {call : Call κ} (hs : Consistent s) (ht : Tidy s)
    (hroot : Rooted s) (happlies : call.Applies s) (hok : call.Rooting env s)
    (h : Returns (fun n => call.run env n s) u) : Rooted u := by
  cases call with
  | new config =>
      obtain ⟨r, u', hnew, hconstructed⟩ := new_constructed env hs ht hok
      rw [h.unique (hnew.map Prod.snd)]
      exact hroot.constructed hs ht hconstructed
  | connect parent child =>
      obtain ⟨N, hN⟩ := h
      obtain ⟨hp, hc, rfl⟩ := connect_ok (hN N (le_refl N))
      exact hroot.link ht hp hc
  | disconnect parent child =>
      obtain ⟨N, hN⟩ := h
      obtain ⟨-, -, rfl⟩ := disconnect_ok (hN N (le_refl N))
      exact hroot.unlink ht hok
  | insert parent newChild => exact hok.elim
  | acquire name => exact hok.elim
  | fork b =>
      obtain ⟨f, hf, hlive, rfl⟩ :=
        fork_copyAll (forkFails_eq_false hinit hconfigure hfork) hs.toClosed happlies h
      exact hroot.fork hs ht hf hlive hok
  | destroy b =>
      obtain ⟨⟨n, hdoomed⟩, hspared⟩ := hok
      obtain ⟨s', hrun, hdestroys⟩ := destroy_doomed n s b (.of_consistent hs ht) hdoomed
      rw [h.unique hrun]
      exact hroot.destroys hs hdestroys hspared

/-- Without an acquisition there is one reference to every backend. -/
theorem Call.unheld {call : Call κ} (hs : Consistent s) (ht : Tidy s) (hone : Unheld s)
    (happlies : call.Applies s) (hok : call.Rooting env s)
    (h : Returns (fun n => call.run env n s) u) : Unheld u := by
  cases call with
  | new config =>
      obtain ⟨r, u', hnew, -⟩ := new_constructed env hs ht hok
      rw [h.unique (hnew.map Prod.snd)]
      obtain ⟨N, hN⟩ := hnew
      exact hone.new (hN N (le_refl N))
  | connect parent child =>
      obtain ⟨N, hN⟩ := h
      have hrun : Graph.connect parent (some child) s = .ok u := hN N (le_refl N)
      exact hone.connect hrun
  | disconnect parent child =>
      obtain ⟨N, hN⟩ := h
      have hrun : Graph.disconnect parent (some child) s = .ok u := hN N (le_refl N)
      exact hone.disconnect hrun
  | insert parent newChild => exact hok.elim
  | acquire name => exact hok.elim
  | fork b =>
      obtain ⟨f, -, -, rfl⟩ :=
        fork_copyAll (forkFails_eq_false hinit hconfigure hfork) hs.toClosed happlies h
      exact hone.copyAll f
  | destroy b =>
      obtain ⟨⟨n, hdoomed⟩, -⟩ := hok
      obtain ⟨s', hrun, hdestroys⟩ := destroy_doomed n s b (.of_consistent hs ht) hdoomed
      rw [h.unique hrun]
      exact hone.prunes hdestroys.prunes

/-- **Shutdown.**  After every sequence of calls that keep the tops in step they
are the backends without parents, and where the roots are separate
`backend_destroy_all` destroys all. -/
theorem reached_rooted (h : Reached env (Call.Rooting env) s) :
    Rooted s ∧ (Separate s → ∃ s', Returns (fun n => destroyAll n s) s' ∧ ∀ a,
      ¬ s'.Live a) := by
  have hall : (Consistent s ∧ Tidy s) ∧ Rooted s ∧ Unheld s := by
    refine h.invariant (P := fun s => (Consistent s ∧ Tidy s) ∧ Rooted s ∧ Unheld s) ?_ ?_
    · refine ⟨⟨consistent_empty, tidy_empty⟩, fun a => ?_, fun a x hx => by cases hx⟩
      exact ⟨fun h => absurd h List.not_mem_nil, fun h => by cases h.1⟩
    · rintro s call s' ⟨⟨hs, ht⟩, hroot, hone⟩ happlies hok hrun
      exact ⟨Call.consistent hinit hconfigure hfork hs ht happlies hok.safe hrun,
        Call.rooted hinit hconfigure hfork hs ht hroot happlies hok hrun,
        Call.unheld hinit hconfigure hfork hs ht hone happlies hok hrun⟩
  obtain ⟨⟨hs, ht⟩, hroot, hone⟩ := hall
  exact ⟨hroot, fun hsep => destroyAll_clears _ s (Nat.lt_succ_self _)
    ⟨hs, ht, hone, hsep, fun _ ha => hroot.covered hs hsep.acyclic ha⟩⟩

end

/-- One backend. -/
def itemConfig : Hash (ItemData Bool) := .item ⟨1, Binary.regular_one⟩ (.hash true) .stop

/-- Two backends are built, and connected. -/
theorem reached_rooted_pair :
    ∃ s : State Bool, Reached classEnv (Call.Rooting classEnv) s ∧
    s.Live 0 ∧ 0 ∈ s.parents 1 ∧ Rooted s ∧ ∃ s',
      Returns (fun n => destroyAll n s) s' ∧ ∀ a, ¬ s'.Live a := by
  have hruns : ∃ s₁ : State Bool,
      Returns (fun n => (Call.new itemConfig).run classEnv n .empty) s₁ ∧
      ∃ s₂, Returns (fun n => (Call.new itemConfig).run classEnv n s₁) s₂ ∧
        ∃ s₃, Returns (fun n => (Call.connect 0 1).run classEnv n s₂) s₃ ∧
          Call.Clean classEnv s₁ itemConfig ∧ s₂.Live 0 ∧ s₂.Live 1 ∧ s₃.next = 2 ∧
          s₃.childs 0 = [1] ∧ s₃.childs 1 = [] ∧ s₃.parents 0 = [] ∧
            s₃.parents 1 = [0] ∧ s₃.tops.items = [0] :=
    ⟨_, .of_forall fun _ => rfl, _, .of_forall fun _ => rfl, _, .of_forall fun _ => rfl,
      trivial, rfl, rfl, rfl, rfl, rfl, rfl, rfl, rfl⟩
  obtain ⟨s₁, hnew₁, s₂, hnew₂, s₃, hconnect, hclean, hlive₀, hlive₁, hnext, hchilds₀,
    hchilds₁, hparents₀, hparents₁, htops⟩ := hruns
  have h₁ : Reached classEnv (Call.Rooting classEnv) s₁ :=
    .step .empty (show (Call.new itemConfig).Applies .empty from trivial) trivial hnew₁
  have h₂ : Reached classEnv (Call.Rooting classEnv) s₂ :=
    .step h₁ (show (Call.new itemConfig).Applies s₁ from trivial) hclean hnew₂
  have h₃ : Reached classEnv (Call.Rooting classEnv) s₃ :=
    .step h₂ (show (Call.connect 0 1).Applies s₂ from ⟨hlive₀, hlive₁⟩) trivial hconnect
  have hcases : ∀ a, s₃.Live a → a = 0 ∨ a = 1 := by
    intro a ha
    have hlt := ha.lt_next
    omega
  have hsep : Separate s₃ := by
    refine ⟨acyclic_of_lt fun a c hc => ?_, fun a => ?_, ?_⟩
    · rcases hcases a (State.live_of_mem_childs hc) with rfl | rfl
      · rw [hchilds₀, List.mem_singleton] at hc
        rw [hc]
        decide
      · rw [hchilds₁] at hc
        cases hc
    · by_cases ha : s₃.Live a
      · rcases hcases a ha with rfl | rfl
        · rw [hparents₀]
          exact List.nodup_nil
        · rw [hparents₁]
          exact List.nodup_singleton 0
      · rw [State.parents_of_none (State.not_live_iff.mp ha)]
        exact List.nodup_nil
    · rw [htops]
      exact List.pairwise_singleton _ 0
  obtain ⟨hrooted, hclears⟩ :=
    reached_rooted (fun _ => rfl) (fun _ => rfl) (fun _ _ => rfl) h₃
  refine ⟨s₃, h₃, ?_, ?_, hrooted, hclears hsep⟩
  · exact State.live_of_mem_childs (b := 1)
      (by rw [hchilds₀]; exact List.mem_singleton_self 1)
  · rw [hparents₁]
    exact List.mem_singleton_self 0

/-- A root that loses its only child is no top any more. -/
theorem disconnected_root_untopped :
    ¬∀ s : State Bool, Reached classEnv (fun _ call => call.Plain) s → Rooted s := by
  intro hall
  have hruns : ∃ s₁ : State Bool,
      Returns (fun n => (Call.new chainConfig).run classEnv n .empty) s₁ ∧
      ∃ s₂, Returns (fun n => (Call.disconnect 1 0).run classEnv n s₁) s₂ ∧
        s₁.Live 1 ∧ s₁.Live 0 ∧ s₂.Live 1 ∧ s₂.parents 1 = [] ∧ s₂.tops.items = [0] :=
    ⟨_, .of_forall fun _ => rfl, _, .of_forall fun _ => rfl, rfl, rfl, rfl, rfl, rfl⟩
  obtain ⟨s₁, hnew, s₂, hdisconnect, hlive₁, hlive₀, hlive, hroot, htops⟩ := hruns
  have h₁ : Reached classEnv (fun _ call => call.Plain) s₁ :=
    .step .empty (show (Call.new chainConfig).Applies .empty from trivial) trivial hnew
  have h₂ : Reached classEnv (fun _ call => call.Plain) s₂ :=
    .step h₁ (show (Call.disconnect 1 0).Applies s₁ from ⟨hlive₁, hlive₀⟩)
    trivial hdisconnect
  have htop := (hall s₂ h₂ 1).mpr ⟨hlive, hroot⟩
  rw [htops] at htop
  exact absurd htop (by decide)

end Frozen.Graph
