/-
# `Frozen.Graph.Run` — calls, one after the other

`Reached` are the graphs that calls make of the empty one, each call with backends that
are there.  The invariant of the graph is not kept by all of them.  Which calls keep it
is read off the graph before the call (`Call.Safe`):

    new        every item passes, or the clean-up can take back what was made
    insert     no child of the parent is there twice
    destroy    a reference is left, or nothing below has a second one, a double link or a cycle

A link more or less, an acquisition and a fork keep it always.
-/
import Frozen.Graph.Fork
import Frozen.Graph.New

namespace Frozen.Graph

open Lib Binary

variable {κ : Type} {env : Env κ} {s t u : State κ}

/-! ## Calls -/

/-- A call of the interface. -/
inductive Call (κ : Type) where
  | new (config : Hash (ItemData κ))
  | connect (parent child : Nat)
  | disconnect (parent child : Nat)
  | insert (parent newChild : Nat)
  | acquire (name : String)
  | fork (b : Nat)
  | destroy (b : Nat)

namespace Call

/-- The graph that a call leaves. -/
def run (env : Env κ) (n : Nat) (s : State κ) : Call κ → Except Stop (State κ)
  | new config => Prod.snd <$> Graph.new env n config s
  | connect parent child => Graph.connect parent (some child) s
  | disconnect parent child => Graph.disconnect parent (some child) s
  | insert parent newChild => Graph.insert n parent newChild s
  | acquire name => Prod.snd <$> Graph.acquire name s
  | fork b => Prod.snd <$> Graph.fork env n b s
  | destroy b => Graph.destroy n b s

/-- The backends that the call is about are there. -/
def Applies (s : State κ) : Call κ → Prop
  | new _ => True
  | connect parent child => s.Live parent ∧ s.Live child
  | disconnect parent child => s.Live parent ∧ s.Live child
  | insert parent newChild => s.Live parent ∧ s.Live newChild
  | acquire _ => True
  | fork b => s.Live b
  | destroy b => s.Live b

/-- Somebody else holds a reference. -/
def Held (s : State κ) (b : Nat) : Prop := ∃ x, s.heap b = some x ∧ x.refs ≠ 1

/-- A construction passes, or can be taken back. -/
def Clean (env : Env κ) (s : State κ) (config : Hash (ItemData κ)) : Prop :=
  match plan env (config.entries nullFlags) (.start s) with
  | (_, true) => True
  | (p, false) => p.Takeable s

/-- The call keeps the lists in step. -/
def Safe (env : Env κ) (s : State κ) : Call κ → Prop
  | new config => Clean env s config
  | connect _ _ => True
  | disconnect _ _ => True
  | insert parent _ => (s.childs parent).Nodup
  | acquire _ => True
  | fork _ => True
  | destroy b => Held s b ∨ ∃ n, Doomed s n b

end Call

/-- The graphs that calls which meet a condition make of the empty one. -/
inductive Reached (env : Env κ) (ok : State κ → Call κ → Prop) : State κ → Prop
  | empty : Reached env ok .empty
  | step {s s' : State κ} {call : Call κ} : Reached env ok s →
      call.Applies s → ok s call →
      Returns (fun n => call.run env n s) s' → Reached env ok s'

/-- What calls keep that meet the condition, a run keeps. -/
theorem Reached.invariant {ok : State κ → Call κ → Prop} {P : State κ → Prop}
    (hempty : P .empty) (hstep : ∀ s call s', P s → call.Applies s → ok s call →
      Returns (fun n => call.run env n s) s' → P s')
    (h : Reached env ok s) : P s := by
  induction h with
  | empty => exact hempty
  | step _ happlies hok hrun ih => exact hstep _ _ _ ih happlies hok hrun

/-! ## References -/

theorem Consistent.modify {b : Nat} {x : Backend κ} {f : Backend κ → Backend κ}
    (h : Consistent s) (hx : s.heap b = some x) (hchilds : (f x).childs = x.childs)
    (hparents : (f x).parents = x.parents) : Consistent (s.modify b f) := by
  refine h.congr (fun a => State.live_modify f) (fun a => ?_)
    (State.parents_modify hx hparents) h.tops rfl
  by_cases hab : a = b
  · rw [hab, State.childs_modify_self hx, hchilds, State.childs_of_heap hx]
  · exact State.childs_modify_of_ne hab

theorem acquire_eq (hs : Closed s) (name : String) :
    acquire name s = .ok (s.called name, match s.called name with
      | none => s
      | some b => s.modify b fun x => { x with refs := x.refs + 1 }) := by
  unfold acquire
  rw [find_eq hs]
  change (match s.called name with
    | none => _
    | some b => _) = _
  cases s.called name <;> rfl

theorem destroy_held {n b : Nat} {x : Backend κ} (hx : s.heap b = some x)
    (hrefs : x.refs ≠ 1) :
    destroy (n + 1) b s = .ok (s.modify b fun x => { x with refs := x.refs - 1 }) := by
  have hne : x.refs - 1 ≠ 0 := fun h => hrefs (by
    rw [← UInt64.sub_add_cancel x.refs 1, h]
    rfl)
  rw [destroy, State.backend_of_heap hx]
  change (if x.refs - 1 ≠ 0 then _ else _) = _
  rw [if_pos hne]

/-! ## The loop that disconnects -/

theorem disconnect_ok {p c : Nat} {s' : State κ} (h : disconnect p (some c) s = .ok s') :
    s.Live p ∧ s.Live c ∧ s' = s.unlink p c := by
  obtain ⟨x, hx, hchild⟩ := ok_of_bind h
  obtain ⟨y, hy, -⟩ := ok_of_bind hchild
  have hp : s.Live p := State.live_of_heap (State.heap_of_backend (s := s.untop p) hx)
  have hc : s.Live c := (State.live_modify (s := s.untop p) _).mp
      (State.live_of_heap (State.heap_of_backend hy))
  rw [disconnect_eq hp hc] at h
  exact ⟨hp, hc, (Except.ok.inj h).symm⟩

/-- What a pop and the body keep, the loop keeps. -/
theorem whilePop_preserves {side : Side} {func : Nat → State κ → Except Stop (State κ)}
    {b n : Nat} {P : State κ → Prop}
    (hpop : ∀ s x l, P s → s.heap b = some x → l.items = (x.list side).items.tail →
      P (s.modify b fun y => y.put l side))
    (hfunc : ∀ c s s', P s → func c s = .ok s' → P s') {s' : State κ} (hs : P s)
    (h : whilePop side func b n s = .ok s') : P s' := by
  induction n generalizing s with
  | zero => cases h
  | succ n ih =>
      cases hx : s.heap b with
      | none =>
          rw [whilePop, State.backend_of_none hx] at h
          cases h
      | some x =>
          cases hitems : (x.list side).items with
          | nil =>
              rw [whilePop_nil _ _ hx hitems] at h
              cases h
              exact hs
          | cons c cs =>
              rw [whilePop_cons _ _ hx hitems] at h
              obtain ⟨s₁, hfirst, hrest⟩ := ok_of_bind h
              exact ih (hfunc c _ s₁
                (hpop s x (x.list side).pop.2 hs hx (Slots.items_pop _)) hfirst) hrest

/-- Children that are there once are disconnected on both sides. -/
theorem Consistent.drained {p : Nat} {d : State κ} (h : Consistent t) (ht : Tidy t)
    (hp : t.Live p) (hd : Drained t p d) (hnodup : (t.childs p).Nodup) :
    Consistent d where
  childs := by
    intro a c hc
    by_cases hap : a = p
    · rw [hap, hd.childs_self] at hc
      cases hc
    · rw [hd.childs a hap] at hc
      exact (hd.live c).mpr (h.childs a c hc)
  parents := by
    intro c q hq
    have hpos := List.count_pos_iff.mpr hq
    refine (hd.live q).mpr (h.parents c q (List.count_pos_iff.mp ?_))
    by_cases hqp : q = p
    · rw [hqp] at hpos ⊢
      exact hpos.trans_le (hd.parents_le c)
    · rwa [hd.others c q hqp] at hpos
  tops := by
    intro a ha
    by_cases hap : a = p
    · exact hap ▸ (hd.live p).mpr hp
    · rcases (hd.tops ht.tops_nodup a hap).mp ha with ha | ⟨hmem, -⟩
      · exact (hd.live a).mpr (h.tops a ha)
      · exact (hd.live a).mpr (h.childs p a hmem)
  names := by
    intro a ha
    rw [hd.names] at ha
    exact (hd.live a).mpr (h.names a ha)
  links := by
    intro q c hq hc
    rw [hd.live] at hq hc
    by_cases hqp : q = p
    · rw [hqp, hd.childs_self, hd.once c (List.nodup_iff_count_le_one.mp hnodup c),
        h.links p c hp hc, Nat.sub_self]
      rfl
    · rw [hd.childs q hqp, hd.others c q hqp]
      exact h.links q c hq hc

theorem Tidy.disconnected {p n : Nat} {d : State κ} (h : Tidy t)
    (hloop : whilePop .childs (fun c => disconnect p (some c)) p n t = .ok d) :
    Tidy d := by
  refine whilePop_preserves (fun s x l hs hx _ => hs.modify hx rfl rfl)
    (fun c s s' hs hrun => ?_) h hloop
  obtain ⟨-, -, rfl⟩ := disconnect_ok hrun
  exact hs.unlink

/-! ## Insertion -/

/-- The walk gives children only to backends without. -/
theorem addTerminators_childs {newChilds : List Nat} {n b : Nat} {s' : State κ}
    (h : addTerminators newChilds n b s = .ok s') {a : Nat} (ha : s.childs a ≠ []) :
    s'.childs a = s.childs a := by
  induction n generalizing b s s' with
  | zero => cases h
  | succ n ih =>
      rw [addTerminators] at h
      obtain ⟨x, hb, h⟩ := ok_of_bind h
      have hx : s.heap b = some x := State.heap_of_backend hb
      split at h
      · refine foldlM_preserves (P := fun t => t.childs a = s.childs a)
          (fun c _ t t' ht hrun => ?_) rfl h
        rw [ih hrun (ht ▸ ha), ht]
      · rename_i hnil
        obtain ⟨-, rfl⟩ := connectAll_ok h
        refine State.childs_linkAll_of_ne fun hab => ha ?_
        rw [hab, State.childs_of_heap hx]
        exact not_not.mp hnil

theorem insert_consistent {n parent newChild : Nat} {s' : State κ} (hs : Consistent s)
    (ht : Tidy s) (hnodup : (s.childs parent).Nodup)
    (h : insert n parent newChild s = .ok s') : Consistent s' ∧ Tidy s' := by
  obtain ⟨x, hparent, h⟩ := ok_of_bind h
  obtain ⟨t, hwalk, h⟩ := ok_of_bind h
  obtain ⟨d, hloop, h⟩ := ok_of_bind h
  have hx : s.heap parent = some x := State.heap_of_backend hparent
  have hp : t.Live parent :=
    (addTerminators_live hwalk parent).mpr (State.live_of_heap hx)
  -- the parent is no terminal, unless there is nothing to connect
  have hchilds : t.childs parent = s.childs parent := by
    cases hnil : x.childs.items with
    | nil =>
        rw [hnil] at hwalk
        exact addTerminators_induct (P := fun t => t.childs parent = s.childs parent)
          (fun _ _ _ c hc => absurd hc List.not_mem_nil) hwalk rfl
    | cons c cs =>
        refine addTerminators_childs hwalk ?_
        rw [State.childs_of_heap hx, hnil]
        exact List.cons_ne_nil c cs
  have hcons := addTerminators_consistent hwalk hs
  have htidy := addTerminators_tidy hwalk ht
  obtain ⟨hd, -⟩ := drained_of_ok hp hloop
  obtain ⟨hlp, hlc, rfl⟩ := connect_ok h
  exact ⟨(hcons.drained htidy hp hd (hchilds ▸ hnodup)).link hlp hlc,
    (htidy.disconnected hloop).link⟩

/-! ## Forks -/

/-- What was there is as it was. -/
structure Kept (t u : State κ) : Prop where
  next : t.next ≤ u.next
  heap : ∀ a, a < t.next → u.heap a = t.heap a

theorem Kept.trans {v : State κ} (h : Kept t u) (h' : Kept u v) : Kept t v where
  next := h.next.trans h'.next
  heap := by
    intro a ha
    rw [h'.heap a (ha.trans_le h.next), h.heap a ha]

theorem Kept.live {a : Nat} (h : Kept t u) (ha : t.Live a) : u.Live a := by
  unfold State.Live
  rw [h.heap a ha.lt_next]
  exact ha

/-- A loop over children that returns walked what is below them. -/
theorem forkChilds_unfolds {n : Nat}
    (ih : ∀ {b : Nat} {t u : State κ} {r : Option Nat}, s.Live b → s.next ≤ t.next →
      (∀ a, a < s.next → t.heap a = s.heap a) → forkRec env n b t = .ok (r, u) →
        (∃ f, Unfolds s.childs [b] f) ∧ Kept t u ∧ ∃ c, r = some c ∧
    t.next ≤ c ∧ u.Live c) {vs done : List Nat} {base : Nat} {r : Option (List Nat)}
    (hvs : ∀ v ∈ vs, s.Live v)
    (hle : s.next ≤ t.next) (hheap : ∀ a, a < s.next → t.heap a = s.heap a)
      (hbase : base ≤ t.next)
    (hdone : ∀ c ∈ done, base ≤ c ∧ t.Live c)
    (h : forkChilds (forkRec env n) (destroy n) vs done t = .ok (r, u)) :
    (∃ f, Unfolds s.childs vs f) ∧ Kept t u ∧ ∃ cs, r = some cs ∧ ∀ c ∈ cs, base ≤ c ∧
      u.Live c := by
  induction vs generalizing t done with
  | nil =>
      cases h
      refine ⟨⟨_, .nil⟩, ⟨le_refl _, fun _ _ => rfl⟩, _, rfl,
        fun c hc => hdone c (List.mem_reverse.mp hc)⟩
  | cons v vs ihvs =>
      obtain ⟨hv, hvs⟩ := List.forall_mem_cons.mp hvs
      obtain ⟨⟨w, t₁⟩, hfirst, -⟩ := ok_of_bind h
      obtain ⟨⟨f, hf⟩, hkept, c, rfl, hc, hlc⟩ := ih hv hle hheap hfirst
      rw [forkChilds_cons hfirst] at h
      obtain ⟨⟨g, hg⟩, hkept', hcs⟩ := ihvs hvs (hle.trans hkept.next)
        (fun a ha => (hkept.heap a (ha.trans_le hle)).trans (hheap a ha))
        (hbase.trans hkept.next)
        (List.forall_mem_cons.mpr ⟨⟨hbase.trans hc, hlc⟩, fun d hd =>
          ⟨(hdone d hd).1, hkept.live (hdone d hd).2⟩⟩) h
      cases hf with
      | cons hbelow _ => exact ⟨⟨_, .cons hbelow hg⟩, hkept.trans hkept', hcs⟩

section

variable (hok : ∀ cls a o, forkFails env cls a o = false)
include hok

/-- **A fork that returns** walked a graph that unfolds. -/
theorem forkRec_unfolds (hs : Closed s) {n : Nat} :
    ∀ {b : Nat} {t u : State κ} {r : Option Nat}, s.Live b →
    s.next ≤ t.next → (∀ a, a < s.next → t.heap a = s.heap a) →
      forkRec env n b t = .ok (r, u) →
      (∃ f, Unfolds s.childs [b] f) ∧ Kept t u ∧ ∃ c, r = some c ∧ t.next ≤ c ∧
      u.Live c := by
  induction n with
  | zero =>
      intro b t u r _ _ _ h
      cases h
  | succ n ih =>
      intro b t u r hb hle hheap h
      obtain ⟨x, hx⟩ := State.live_iff.mp hb
      have hx' : t.heap b = some x := (hheap b hb.lt_next).trans hx
      have hbelow : ∀ v ∈ x.childs.items, s.Live v := by
        rw [← State.childs_of_heap hx]
        exact hs.childs b
      obtain ⟨y, hy, hrun⟩ := ok_of_bind h
      obtain rfl : x = y := Option.some.inj (hx'.symm.trans (State.heap_of_backend hy))
      obtain ⟨⟨w, t₁⟩, hchilds, -⟩ := ok_of_bind hrun
      obtain ⟨⟨f, hf⟩, hkept, cs, rfl, hcs⟩ := forkChilds_unfolds ih hbelow hle hheap
        (le_refl t.next) (fun c hc => absurd hc List.not_mem_nil) hchilds
      rw [forkRec_succ hx' hchilds fun c hc => (hcs c hc).2, hok] at h
      cases h
      rw [← State.childs_of_heap hx] at hf
      refine ⟨⟨_, .cons hf .nil⟩, ⟨?_, fun a ha => ?_⟩, t₁.next, rfl, hkept.next, ?_⟩
      · rw [State.next_linkAll]
        exact hkept.next.trans (Nat.le_succ _)
      · have hne : a ≠ t₁.next := (ha.trans_le hkept.next).ne
        rw [State.heap_linkAll_of_notMem hne fun hmem => Nat.not_lt.mpr (hcs a hmem).1 ha,
          State.heap_alloc_of_ne hne, hkept.heap a ha]
      · exact State.live_linkAll.mpr (State.live_alloc.mpr (.inr rfl))

/-- Where no callback fails a fork that returns is a copy. -/
theorem fork_copyAll (hs : Closed s) {b : Nat} (hb : s.Live b)
    (h : Returns (fun n => Prod.snd <$> fork env n b s) u) :
    ∃ f, Unfolds s.childs [b] f ∧ (∀ v ∈ f.post, s.Live v) ∧ u = (copyAll env f s).2 := by
  obtain ⟨N, hN⟩ := id h
  cases hfork : forkRec env N b s with
  | error e =>
      have hrun := hN N (le_refl N)
      simp only [fork, hfork] at hrun
      cases hrun
  | ok q =>
      obtain ⟨⟨f, hf⟩, -⟩ := forkRec_unfolds hok hs hb (le_refl _) (fun _ _ => rfl) hfork
      have hlive := hs.live_post hf (by simpa using hb)
      have hsucceed : AllSucceed env s f s.next := by
        intro i v _
        unfold failsAt
        split
        · exact hok ..
        · rfl
      obtain ⟨M, hM⟩ := forkChilds_copyAll hf hlive (le_refl _) (fun _ _ => rfl) hsucceed
      have hcopy : Returns (fun n => fork env n b s) _ :=
        ⟨M, fun n hn => forkRec_of_forkChilds (hM n hn [])⟩
      exact ⟨f, hf, hlive, h.unique (hcopy.map Prod.snd)⟩

end

/-! ## Constructions -/

/-- What a construction leaves: the graph of the plan, or what the clean-up left of it. -/
inductive Constructed (env : Env κ) (s : State κ) (config : Hash (ItemData κ)) :
    State κ → Prop
  | passes {ctx : NewCtx κ} {p : Plan} : iterate env (config.entries nullFlags)
    ⟨s, [], none⟩ = .ok ctx →
      Tracks s p ctx → Constructed env s config ctx.state
  | undone {ctx : NewCtx κ} {p : Plan} {v : State κ} :
      iterate env (config.entries nullFlags) ⟨s, [], none⟩ = .error (.broke ctx) →
      Follows s p ctx.state →
      Undos ctx.state (p.made s) v → Consistent v → Tidy v → Constructed env s config v

theorem new_constructed (env : Env κ) {config : Hash (ItemData κ)} (hs : Consistent s)
    (ht : Tidy s) (hclean : Call.Clean env s config) :
    ∃ r u, Returns (fun n => new env n config s) (r, u) ∧ Constructed env s config u := by
  have hrun := iterate_tracks env ht (config.entries nullFlags) (tracks_start hs ht)
  rw [Call.Clean] at hclean
  generalize plan env (config.entries nullFlags) (.start s) = q at hrun hclean
  obtain ⟨p, passes⟩ := q
  cases passes with
  | true =>
      obtain ⟨ctx, hiter, htracks⟩ := hrun
      refine ⟨ctx.prev, ctx.state, .of_forall fun n => ?_, .passes hiter htracks⟩
      rw [new_eq_iterate, hiter]
  | false =>
      obtain ⟨ctx, hiter, hfollows, hmade⟩ := hrun
      obtain ⟨v, ⟨N, hN⟩, hundos, hcons, htidy⟩ :=
        foldlM_undo (hfollows.cleanable hs.toClosed hclean)
      refine ⟨none, v, ⟨N, fun n hn => ?_⟩, .undone hiter hfollows hundos hcons htidy⟩
      have hundo : (p.made s).foldlM (fun s b => undo n b s) ctx.state = .ok v := hN n hn
      rw [← hmade] at hundo
      change new env n config s = _
      rw [new_eq_iterate, hiter]
      change (ctx.backends.items.foldlM (fun s b => undo n b s) ctx.state >>= _) = _
      rw [hundo]
      rfl

theorem Constructed.consistent {config : Hash (ItemData κ)}
    (h : Constructed env s config u) : Consistent u ∧ Tidy u := by
  cases h with
  | passes _ htracks => exact ⟨htracks.consistent, htracks.tidy⟩
  | undone _ _ _ hcons htidy => exact ⟨hcons, htidy⟩

/-! ## Every call -/

section

variable (hinit : ∀ a, env.init a = 0) (hconfigure : ∀ a, env.configure a = 0)
  (hfork : ∀ a o, env.fork a o = 0)
include hinit hconfigure hfork

theorem forkFails_eq_false (cls : Class) (a o : Nat) : forkFails env cls a o = false := by
  simp [forkFails, hinit, hconfigure, hfork]

/-- **One call** keeps the lists in step, if it is safe. -/
theorem Call.consistent {call : Call κ} (hs : Consistent s) (ht : Tidy s)
    (happlies : call.Applies s) (hsafe : call.Safe env s)
    (h : Returns (fun n => call.run env n s) u) : Consistent u ∧ Tidy u := by
  cases call with
  | new config =>
      obtain ⟨r, u', hnew, hconstructed⟩ := new_constructed env hs ht hsafe
      rw [h.unique (hnew.map Prod.snd)]
      exact hconstructed.consistent
  | connect parent child =>
      obtain ⟨N, hN⟩ := h
      obtain ⟨hp, hc, rfl⟩ := connect_ok (hN N (le_refl N))
      exact ⟨hs.link hp hc, ht.link⟩
  | disconnect parent child =>
      obtain ⟨N, hN⟩ := h
      obtain ⟨-, -, rfl⟩ := disconnect_ok (hN N (le_refl N))
      exact ⟨hs.unlink, ht.unlink⟩
  | insert parent newChild =>
      obtain ⟨N, hN⟩ := h
      exact insert_consistent hs ht hsafe (hN N (le_refl N))
  | acquire name =>
      have hrun : Returns (fun _ => Graph.acquire name s) _ :=
        .of_forall fun _ => acquire_eq hs.toClosed name
      rw [h.unique (hrun.map Prod.snd)]
      cases hcalled : s.called name with
      | none => exact ⟨hs, ht⟩
      | some b =>
          obtain ⟨x, hx⟩ := State.live_iff.mp (State.live_of_called hs.toClosed hcalled)
          exact ⟨hs.modify hx rfl rfl, ht.modify hx rfl rfl⟩
  | fork b =>
      obtain ⟨f, hf, hlive, rfl⟩ :=
        fork_copyAll (forkFails_eq_false hinit hconfigure hfork) hs.toClosed happlies h
      exact copyAll_consistent env hf hlive (le_refl _) (fun _ _ => rfl) hs ht
  | destroy b =>
      rcases hsafe with ⟨x, hx, hrefs⟩ | ⟨n, hdoomed⟩
      · have hrun : Returns (fun n => Graph.destroy n b s) _ :=
          .of_succ (.of_forall fun n => destroy_held hx hrefs)
        rw [h.unique hrun]
        exact ⟨hs.modify hx rfl rfl, ht.modify hx rfl rfl⟩
      · obtain ⟨s', hrun, hdestroys⟩ :=
          destroy_doomed n s b (.of_consistent hs ht) hdoomed
        rw [h.unique hrun]
        exact ⟨hs.prunes hdestroys.prunes, ht.prunes hdestroys.prunes⟩

/-- **The invariant of the graph** holds after every sequence of calls that are safe. -/
theorem reached_consistent (h : Reached env (Call.Safe env) s) : Consistent s := by
  have hboth : Consistent s ∧ Tidy s :=
    h.invariant ⟨consistent_empty, tidy_empty⟩ fun _ _ _ ih happlies hsafe hrun =>
      Call.consistent hinit hconfigure hfork ih.1 ih.2 happlies hsafe hrun
  exact hboth.1

end

/-- Two backends, the second in front of the first. -/
def chainConfig : Hash (ItemData Bool) :=
  .item ⟨1, Binary.regular_one⟩ (.hash true)
  (.item ⟨1, Binary.regular_one⟩ (.hash true) .stop)

/-- The chain is built, copied, and destroyed. -/
theorem reached_consistent_chain :
    ∃ s : State Bool, Reached classEnv (Call.Safe classEnv) s ∧ Consistent s ∧
    s.Live 3 ∧ ¬ s.Live 1 := by
  have hruns : ∃ s₁ : State Bool,
      Returns (fun n => (Call.new chainConfig).run classEnv n .empty) s₁ ∧
      ∃ s₂, Returns (fun n => (Call.fork 1).run classEnv n s₁) s₂ ∧
        ∃ s₃, Returns (fun n => (Call.destroy 1).run classEnv n s₂) s₃ ∧
          s₁.Live 1 ∧ s₂.Live 1 ∧ Doomed s₂ 2 1 ∧ s₃.Live 3 ∧ ¬ s₃.Live 1 := by
    refine ⟨_, .of_forall fun _ => rfl, _,
      .of_succ (.of_succ (.of_forall fun _ => rfl)), _,
      .of_succ (.of_succ (.of_succ (.of_succ (.of_forall fun _ => rfl)))), rfl, rfl,
      ?_, rfl, by decide⟩
    refine ⟨_, rfl, rfl, by decide, fun c hc => ?_⟩
    obtain rfl := List.mem_singleton.mp hc
    exact ⟨_, rfl, rfl, by decide, fun c hc => absurd hc List.not_mem_nil⟩
  obtain ⟨s₁, hnew, s₂, hfork, s₃, hdestroy, hlive₁, hlive₂, hdoomed, hlive₃, hdead⟩ :=
    hruns
  have h₁ : Reached classEnv (Call.Safe classEnv) s₁ :=
    .step .empty (show (Call.new chainConfig).Applies .empty from trivial) trivial hnew
  have h₂ : Reached classEnv (Call.Safe classEnv) s₂ :=
    .step h₁ (show (Call.fork 1).Applies s₁ from hlive₁) trivial hfork
  have h₃ : Reached classEnv (Call.Safe classEnv) s₃ :=
    .step h₂ (show (Call.destroy 1).Applies s₂ from hlive₂) (.inr ⟨2, hdoomed⟩) hdestroy
  exact ⟨s₃, h₃, reached_consistent (fun _ => rfl) (fun _ => rfl) (fun _ _ => rfl) h₃,
    hlive₃, hdead⟩

/-- A child that was acquired survives its parent, and keeps it among its parents. -/
theorem acquired_child_dangles :
    ¬∀ s : State Bool, Reached classEnv (fun _ _ => True) s → Consistent s := by
  intro hall
  have hruns : ∃ s₁ : State Bool,
      Returns (fun n => (Call.new chainConfig).run classEnv n .empty) s₁ ∧
      ∃ s₂, Returns (fun n => (Call.acquire "name").run classEnv n s₁) s₂ ∧
        ∃ s₃, Returns (fun n => (Call.destroy 1).run classEnv n s₂) s₃ ∧
          s₂.Live 1 ∧ 1 ∈ s₃.parents 0 ∧ ¬ s₃.Live 1 :=
    ⟨_, .of_forall fun _ => rfl, _, .of_forall fun _ => rfl, _,
      .of_succ (.of_succ (.of_succ (.of_forall fun _ => rfl))), rfl,
      List.mem_singleton_self 1, by decide⟩
  obtain ⟨s₁, hnew, s₂, hacquire, s₃, hdestroy, hlive, hparent, hdead⟩ := hruns
  have h₁ : Reached classEnv (fun _ _ => True) s₁ :=
    .step .empty (show (Call.new chainConfig).Applies .empty from trivial) trivial hnew
  have h₂ : Reached classEnv (fun _ _ => True) s₂ :=
    .step h₁ (show (Call.acquire "name").Applies s₁ from trivial) trivial hacquire
  have h₃ : Reached classEnv (fun _ _ => True) s₃ :=
    .step h₂ (show (Call.destroy 1).Applies s₂ from hlive) trivial hdestroy
  exact hdead ((hall s₃ h₃).parents 0 1 hparent)

end Frozen.Graph
