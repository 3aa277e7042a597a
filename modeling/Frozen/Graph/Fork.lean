/-
# `Frozen.Graph.Fork` — `backend_fork`

A fork walks the unfolding of the graph in post-order and copies each vertex.  Where
every callback succeeds the result is `copyAll`.  Where one fails, the copies made
before are taken back, each by the call that made it: the copies of the earlier siblings
of every vertex on the way up are destroyed.  The copies of the children of the vertex
that fails are only disconnected, and stay.
-/
import Frozen.Graph.Copy

namespace Frozen.Graph

open Lib

variable {κ : Type} {env : Env κ} {s t : State κ}

/-! ## Every callback succeeds -/

/-- A callback fails for the copy, at `a`, of the backend at `v`. -/
def failsAt (env : Env κ) (s : State κ) (v a : Nat) : Bool :=
  match s.heap v with
  | some x => forkFails env x.cls a v
  | none => false

/-- The children are copied; then the backend. -/
theorem forkRec_succ {n v : Nat} {x : Backend κ} {cs : List Nat} {t₁ : State κ}
    (hx : t.heap v = some x)
    (hchilds : forkChilds (forkRec env n) (destroy n) x.childs.items [] t
      = .ok (some cs, t₁))
    (hcs : ∀ c ∈ cs, t₁.Live c) :
    forkRec env (n + 1) v t =
      let u := (t₁.alloc (x.clone env)).linkAll t₁.next cs
      if forkFails env x.cls t₁.next v then do
        let u ← cs.foldlM (fun s copy => disconnect t₁.next (some copy) s) u
        let u ← freeSkeleton t₁.next u
        .ok (none, u)
      else .ok (some t₁.next, u) := by
  rw [forkRec, State.backend_of_heap hx]
  change (forkChilds (forkRec env n) (destroy n) x.childs.items [] t >>= _) = _
  rw [hchilds]
  change (cs.foldlM (fun s copy => connect t₁.next (some copy) s)
    (t₁.alloc (x.clone env)) >>= _) = _
  rw [connectAll_eq (State.live_alloc.mpr (.inr rfl)) fun c hc =>
    State.live_alloc.mpr (.inl (hcs c hc))]
  rfl

theorem forkChilds_cons {fork : Nat → State κ → Except Stop (Option Nat × State κ)}
    {destroy : Nat → State κ → Except Stop (State κ)} {c w : Nat} {cs done : List Nat}
    {u : State κ} (h : fork c t = .ok (some w, u)) :
    forkChilds fork destroy (c :: cs) done t = forkChilds fork destroy cs
      (w :: done) u := by
  rw [forkChilds, h]
  rfl

theorem forkChilds_null {fork : Nat → State κ → Except Stop (Option Nat × State κ)}
    {destroy : Nat → State κ → Except Stop (State κ)} {c : Nat} {cs done : List Nat}
    {u : State κ} (h : fork c t = .ok (none, u)) :
    forkChilds fork destroy (c :: cs) done t =
      (done.foldlM (fun s copy => destroy copy s) u >>= fun s => .ok (none, s)) := by
  rw [forkChilds, h]
  rfl

/-- No vertex fails at the address that its copy gets. -/
def AllSucceed (env : Env κ) (s : State κ) (f : Branches Nat) (base : Nat) : Prop :=
  ∀ i v, f.post[i]? = some v → failsAt env s v (base + i) = false

theorem AllSucceed.cons {v base : Nat} {below rest : Branches Nat}
    (h : AllSucceed env s (.cons v below rest) base) :
    AllSucceed env s below base ∧ failsAt env s v (base + below.post.length) = false ∧
      AllSucceed env s rest (base + below.post.length + 1) := by
  refine ⟨fun i w hi => h i w ?_, h below.post.length v ?_, fun i w hi => ?_⟩
  · have hlt : i < below.post.length := (List.getElem?_eq_some_iff.mp hi).1
    rw [Branches.post, List.getElem?_append_left hlt]
    exact hi
  · rw [Branches.post, List.getElem?_append_right (le_refl _), Nat.sub_self]
    rfl
  · have hi' := h (below.post.length + 1 + i) w (by
      rw [Branches.post, List.getElem?_append_right (by omega),
        show below.post.length + 1 + i - below.post.length
          = i + 1 by omega, List.getElem?_cons_succ]
      exact hi)
    rwa [← Nat.add_assoc, ← Nat.add_assoc] at hi'

/-- **The walk**, when nothing fails. -/
theorem forkChilds_copyAll {vs : List Nat} {f : Branches Nat} (hf : Unfolds s.childs vs f)
    (hlive : ∀ v ∈ f.post, s.Live v) (hle : s.next ≤ t.next)
    (hheap : ∀ a, a < s.next → t.heap a = s.heap a) (hok : AllSucceed env s f t.next) :
    ∃ N, ∀ n, N ≤ n → ∀ done, forkChilds (forkRec env n) (destroy n) vs done t =
      .ok (some (done.reverse ++ (copyAll env f t).1), (copyAll env f t).2) := by
  induction hf generalizing t with
  | nil => exact ⟨0, fun n _ done => by rw [forkChilds, copyAll, List.append_nil]⟩
  | cons hbelow hrest ih₁ ih₂ =>
      rename_i v vs below rest
      obtain ⟨hok₁, hself, hok₂⟩ := hok.cons
      rw [Branches.post, List.forall_mem_append] at hlive
      obtain ⟨hlive₁, hlive₂⟩ := hlive
      obtain ⟨hv, hlive₂⟩ := List.forall_mem_cons.mp hlive₂
      obtain ⟨x, hx⟩ := State.live_iff.mp hv
      have hx' : t.heap v = some x := (hheap v hv.lt_next).trans hx
      obtain ⟨g, hcopied, hroots, hpost, hext⟩ :=
        copyAll_copied env hbelow hlive₁ hle hheap
      have hroot : ∀ c ∈ (copyAll env below t).1, c ∈ g.post := by
        intro c hc
        rw [← hroots] at hc
        exact g.roots_sublist_post.subset hc
      have hext₂ := hext.linkNew (x.clone env) (copyAll env below t).1 fun c hc => by
        have hmem := hroot c hc
        rw [hpost, List.mem_range'_1] at hmem
        exact hmem.1
      obtain ⟨N₁, hN₁⟩ := ih₁ hlive₁ hle hheap hok₁
      obtain ⟨N₂, hN₂⟩ := ih₂ (t := ((copyAll env below t).2.alloc (x.clone env)).linkAll
          (copyAll env below t).2.next (copyAll env below t).1) hlive₂
            (by rw [hext₂.next]; omega)
        (fun a ha => (hext₂.heap a (by omega)).trans (hheap a ha))
        (by rw [hext₂.next]; exact hok₂)
      have hfails : forkFails env x.cls (copyAll env below t).2.next v = false := by
        rw [failsAt, hx] at hself
        rw [hext.next]
        exact hself
      refine ⟨max N₁ N₂ + 1, fun n hn done => ?_⟩
      obtain ⟨n, rfl⟩ := Nat.exists_eq_succ_of_ne_zero (by omega : n ≠ 0)
      have hchilds := hN₁ n (by omega) []
      rw [State.childs_of_heap hx] at hchilds
      have hfirst := forkRec_succ hx' hchilds fun c hc => hcopied.live c (hroot c hc)
      simp only [List.reverse_nil, List.nil_append, hfails, Bool.false_eq_true,
        if_false] at hfirst
      rw [forkChilds_cons hfirst, hN₂ (n + 1) (by omega), copyAll, hx']
      simp only [List.reverse_cons, List.append_assoc, List.singleton_append]

/-- One child is a fork. -/
theorem forkRec_of_forkChilds {n b : Nat} {r : Option (List Nat)} {u : State κ}
    (h : forkChilds (forkRec env n) (destroy n) [b] [] s = .ok (r, u)) :
    forkRec env n b s = .ok (r.bind List.head?, u) := by
  obtain ⟨⟨w, u'⟩, hfork, -⟩ := ok_of_bind h
  cases w with
  | none =>
      rw [forkChilds_null hfork] at h
      cases h
      exact hfork
  | some w =>
      rw [forkChilds_cons hfork] at h
      cases h
      exact hfork

/-- Everything below a backend is there. -/
theorem Closed.live_post (hs : Closed s) {vs : List Nat} {f : Branches Nat}
    (hf : Unfolds s.childs vs f) (hvs : ∀ v ∈ vs, s.Live v) : ∀ v ∈ f.post, s.Live v := by
  intro w hw
  obtain ⟨v, hv, hpath⟩ := (mem_post_iff hf).mp hw
  induction hpath with
  | refl => exact hvs v hv
  | tail _ hedge _ => exact hs.childs _ _ hedge

/-- **A fork is a copy** of what the backend leads to, unfolded to a tree: a new backend
for every path, the same classes, configurations and order of children, no names, one
reference each, and nothing that was there before is touched. -/
theorem fork_copies (env : Env κ) (s : State κ) (b : Nat) (hs : Closed s)
    (hacyclic : Acyclic s.childs) (hb : s.Live b) (hinit : ∀ a, env.init a = 0)
    (hconfigure : ∀ a, env.configure a = 0) (hfork : ∀ a o, env.fork a o = 0) :
    ∃ f g r s', Unfolds s.childs [b] f ∧ Returns (fun n => fork env n b s) (some r, s') ∧
      Unfolds s'.childs [r] g ∧ Branches.Rel (IsCopy env s s') f g ∧ g.post.Nodup ∧
      (∀ a ∈ g.post, ¬ s.Live a) ∧ ∀ a, s.Live a → s'.heap a = s.heap a := by
  obtain ⟨f, hf⟩ := hs.exists_unfolds hacyclic [b] (by simpa using hb)
  have hlive := hs.live_post hf (by simpa using hb)
  have hok : AllSucceed env s f s.next := by
    intro i v _
    unfold failsAt
    split
    · simp [forkFails, hinit, hconfigure, hfork]
    · rfl
  obtain ⟨g, hcopied, hroots, hpost, hext⟩ :=
    copyAll_copied env hf hlive (le_refl _) fun _ _ => rfl
  obtain ⟨N, hN⟩ := forkChilds_copyAll hf hlive (le_refl _) (fun _ _ => rfl) hok
  cases hf with
  | cons hbelow hrest =>
      rename_i below rest
      cases hrest
      obtain ⟨x, hx⟩ := State.live_iff.mp hb
      have hroots' : ∃ r, g.roots = [r] ∧
          (copyAll env (.cons b below .nil) s).1 = [r] := by
        rw [hroots, copyAll, hx]
        exact ⟨_, rfl, rfl⟩
      obtain ⟨r, hr, hr'⟩ := hroots'
      refine ⟨_, g, r, _, .cons hbelow .nil, ⟨N, fun n hn => ?_⟩, hr ▸ hcopied.unfolds,
        hcopied.rel, ?_, ?_, ?_⟩
      · have hrun := forkRec_of_forkChilds (hN n hn [])
        rw [hr'] at hrun
        exact hrun
      · rw [hpost]
        exact List.nodup_range'
      · intro a ha hlive'
        rw [hpost, List.mem_range'_1] at ha
        exact absurd hlive'.lt_next (by omega)
      · exact fun a ha => hext.heap a ha.lt_next

/-- The callbacks of the copy at one address fail. -/
def envFailing (b : Nat) : Env Unit where
  string := fun _ _ => none
  copy := some
  classFind := fun _ => none
  init := fun a => if a = b then -1 else 0
  configure := fun _ => 0
  fork := fun _ _ => 0

/-- No callback fails. -/
def plainEnv : Env Unit := { envFailing 0 with init := fun _ => 0 }

theorem fork_copies_diamond :
    ∃ f g r s', Unfolds diamondAndOne.childs [0] f ∧
      Returns (fun n => fork plainEnv n 0 diamondAndOne) (some r, s') ∧
      Unfolds s'.childs [r] g ∧ Branches.Rel (IsCopy plainEnv diamondAndOne s') f g ∧
      g.post.Nodup ∧ (∀ a ∈ g.post, ¬ diamondAndOne.Live a) ∧
      ∀ a, diamondAndOne.Live a → s'.heap a = diamondAndOne.heap a := by
  have hlt : ∀ l ∈ [(0, 1), (0, 2), (1, 3), (2, 3)], l.1 < 5 ∧ l.2 < 5 := by decide
  obtain ⟨hs, -, hlive, -⟩ := consistent_graphOf hlt
  exact fork_copies plainEnv diamondAndOne 0 hs.toClosed (acyclic_graphOf hlt (by decide))
    ((hlive 0).mpr (by decide)) (fun _ => rfl) (fun _ => rfl) fun _ _ => rfl

/-! ## A callback fails -/

namespace State

/-- The graph after `p` is disconnected from each of a list. -/
def unlinkAll (s : State κ) (p : Nat) (cs : List Nat) : State κ :=
  cs.foldl (fun s c => s.unlink p c) s

variable {p a : Nat} {cs : List Nat}

theorem unlinkAll_cons {c : Nat} :
    s.unlinkAll p (c :: cs) = (s.unlink p c).unlinkAll p cs := rfl

@[simp] theorem live_unlinkAll : (s.unlinkAll p cs).Live a ↔ s.Live a := by
  induction cs generalizing s with
  | nil => rfl
  | cons c cs ih => rw [unlinkAll_cons, ih, live_unlink]

@[simp] theorem next_unlinkAll : (s.unlinkAll p cs).next = s.next := by
  induction cs generalizing s with
  | nil => rfl
  | cons c cs ih => rw [unlinkAll_cons, ih, next_unlink]

@[simp] theorem names_unlinkAll : (s.unlinkAll p cs).names = s.names := by
  induction cs generalizing s with
  | nil => rfl
  | cons c cs ih => rw [unlinkAll_cons, ih, names_unlink]

theorem heap_unlinkAll_of_notMem (hp : a ≠ p) (hcs : a ∉ cs) :
    (s.unlinkAll p cs).heap a = s.heap a := by
  induction cs generalizing s with
  | nil => rfl
  | cons c cs ih =>
      obtain ⟨hc, hrest⟩ := not_or.mp fun h => hcs (List.mem_cons.mpr h)
      rw [unlinkAll_cons, ih hrest, heap_unlink]
      simp [hp, hc]

theorem childs_unlinkAll_self : (s.unlinkAll p cs).childs p = (s.childs p).diff cs := by
  induction cs generalizing s with
  | nil => rfl
  | cons c cs ih => rw [unlinkAll_cons, ih, childs_unlink_self, List.diff_cons]

theorem parents_unlinkAll_of_notMem (h : a ∉ cs) :
    (s.unlinkAll p cs).parents a = s.parents a := by
  induction cs generalizing s with
  | nil => rfl
  | cons c cs ih =>
      obtain ⟨hc, hrest⟩ := not_or.mp fun hor => h (List.mem_cons.mpr hor)
      rw [unlinkAll_cons, ih hrest, parents_unlink_of_ne hc]

theorem filter_tops_unlinkAll {K : Nat → Bool} (hp : K p = false)
    (hcs : ∀ c ∈ cs, K c = false) :
    (s.unlinkAll p cs).tops.items.filter K = s.tops.items.filter K := by
  induction cs generalizing s with
  | nil => rfl
  | cons c cs ih =>
      obtain ⟨hc, hrest⟩ := List.forall_mem_cons.mp hcs
      rw [unlinkAll_cons, ih hrest, filter_tops_unlink hp hc]

end State

theorem disconnectAll_eq {p : Nat} {cs : List Nat} (hp : s.Live p)
    (hcs : ∀ c ∈ cs, s.Live c) :
    cs.foldlM (fun s c => disconnect p (some c) s) s = .ok (s.unlinkAll p cs) := by
  induction cs generalizing s with
  | nil => rfl
  | cons c cs ih =>
      obtain ⟨hc, hcs'⟩ := List.forall_mem_cons.mp hcs
      rw [List.foldlM_cons, disconnect_eq hp hc]
      exact ih (State.live_unlink.mpr hp) fun d hd => State.live_unlink.mpr (hcs' d hd)

theorem Consistent.unlinkAll {p : Nat} {cs : List Nat} (h : Consistent s) :
    Consistent (s.unlinkAll p cs) := by
  induction cs generalizing s with
  | nil => exact h
  | cons c cs ih => exact ih h.unlink

theorem Tidy.unlinkAll {p : Nat} {cs : List Nat} (h : Tidy s) :
    Tidy (s.unlinkAll p cs) := by
  induction cs generalizing s with
  | nil => exact h
  | cons c cs ih => exact ih h.unlink

/-- What is left of a graph when new backends were taken back: everything that was
there, as it was; and perhaps new backends. -/
structure Unwound (t u : State κ) : Prop where
  next : t.next ≤ u.next
  heap : ∀ a, a < t.next → u.heap a = t.heap a
  names : u.names.items = t.names.items
  tops : ∀ K : Nat → Bool, (∀ a, t.next ≤ a → K a = false) →
    u.tops.items.filter K = t.tops.items.filter K
  consistent : Consistent u
  tidy : Tidy u

theorem Unwound.of_extends {u v : State κ} {k : Nat} (h : Extends t u k)
    (h' : Unwound u v) : Unwound t v where
  next := by
    have hle := h'.next
    rw [h.next] at hle
    omega
  heap := by
    intro a ha
    rw [h'.heap a (by rw [h.next]; omega), h.heap a ha]
  names := h'.names.trans (congrArg _ h.names)
  tops := by
    intro K hK
    rw [h'.tops K fun a ha => hK a (by rw [h.next] at ha; omega), h.tops K hK]
  consistent := h'.consistent
  tidy := h'.tidy

/-- What an old backend leads to is old. -/
theorem Unwound.childs_old {u : State κ} (h : Unwound t u) (ht : Closed t) {a c : Nat}
    (ha : a < t.next) (hc : c ∈ u.childs a) : c < t.next := by
  refine (ht.childs a c ?_).lt_next
  unfold State.childs at hc ⊢
  rw [h.heap a ha] at hc
  exact hc

/-- A pruning that only takes new backends. -/
theorem Unwound.prunes {u v : State κ} (h : Unwound t u) (ht : Closed t) (hp : Prunes u v)
    (hold : ∀ a, a < t.next → u.Live a → v.Live a) : Unwound t v where
  next := hp.next ▸ h.next
  heap := by
    intro a ha
    rw [← h.heap a ha]
    cases hx : u.heap a with
    | none =>
        refine State.not_live_iff.mp fun hlive => ?_
        exact State.not_live_iff.mpr hx (hp.live hlive)
    | some x =>
        obtain ⟨x', hx'⟩ := State.live_iff.mp (hold a ha (State.live_of_heap hx))
        obtain ⟨y, hy, -, -, hsame⟩ := hp.kept a x' hx'
        obtain rfl := Option.some.inj (hx.symm.trans hy)
        rw [hx', hsame fun c hc => ?_]
        rw [← State.childs_of_heap hx] at hc
        exact hold c (h.childs_old ht ha hc) (h.consistent.childs a c hc)
  names := by
    rw [hp.names, ← h.names, List.filter_eq_self]
    intro a ha
    have hlt : a < t.next := by
      rw [h.names] at ha
      exact (ht.names a ha).lt_next
    exact decide_eq_true (hold a hlt (h.consistent.names a ha))
  tops := by
    intro K hK
    obtain ⟨T, hT, -, hkeep⟩ := hp.tops
    rw [← h.tops K hK, hT, List.filter_filter]
    refine List.filter_congr fun a ha => ?_
    cases hKa : K a with
    | false => rfl
    | true =>
        have hlt : a < t.next := by
          by_contra hle
          rw [hK a (Nat.le_of_not_lt hle)] at hKa
          cases hKa
        have hla := h.consistent.tops a ha
        refine hkeep a (hold a hlt hla) fun c hc => ?_
        have hlc := State.live_of_mem_parents hc
        have hmem : c ∈ u.childs a := by
          rw [← List.count_pos_iff, h.consistent.links a c hla hlc, List.count_pos_iff]
          exact hc
        exact hold c (h.childs_old ht hlt hmem) hlc
  consistent := h.consistent.prunes hp
  tidy := h.tidy.prunes hp

/-- The backend that fails is disconnected and freed; its children stay. -/
theorem unwind_self {u : State κ} {k : Nat} (hext : Extends t u k)
    (hcons : Consistent u) (htidy : Tidy u) (ht : Closed t) (x : Backend κ)
    {cs : List Nat} (hx : x.childs = []) (hx' : x.parents = [])
    (hcs : ∀ c ∈ cs, t.next ≤ c ∧ u.Live c) :
    ∃ v, (cs.foldlM (fun s copy => disconnect u.next (some copy) s)
      ((u.alloc x).linkAll u.next cs) >>=
        freeSkeleton u.next) = .ok v ∧ Unwound t v ∧ ∀ a, v.Live a ↔ u.Live a := by
  have hcurr : (u.alloc x).Live u.next := State.live_alloc.mpr (.inr rfl)
  have hcs' : ∀ c ∈ cs, (u.alloc x).Live c :=
    fun c hc => State.live_alloc.mpr (.inl (hcs c hc).2)
  have hnew : u.next ∉ cs := fun hmem => absurd (hcs _ hmem).2.lt_next (lt_irrefl _)
  let u₁ := (u.alloc x).linkAll u.next cs
  let u₂ := u₁.unlinkAll u.next cs
  have hext₁ : Extends t u₁ (k + 1) := hext.linkNew x _ fun c hc => (hcs c hc).1
  have hcons₁ : Consistent u₁ :=
    (hcons.alloc (by rw [hx]; rfl) (by rw [hx']; rfl)).linkAll hcurr hcs'
  have htidy₁ : Tidy u₁ := (htidy.alloc hcons.toClosed (by rw [hx']; rfl)).linkAll
  have hcons₂ : Consistent u₂ := hcons₁.unlinkAll
  have htidy₂ : Tidy u₂ := htidy₁.unlinkAll
  have hlive₂ : ∀ a, u₂.Live a ↔ u.Live a ∨ a = u.next := fun a => by
    rw [State.live_unlinkAll, State.live_linkAll, State.live_alloc]
  have hchilds₂ : u₂.childs u.next = [] := by
    have hself : u₁.childs u.next = cs := by
      rw [State.childs_of_heap (State.heap_linkAll_self [] hnew State.heap_alloc_self hx)]
      exact Slots.items_map_some cs
    rw [State.childs_unlinkAll_self, hself]
    refine List.eq_nil_iff_forall_not_mem.mpr fun c hc => ?_
    have hpos := List.count_pos_iff.mpr hc
    rw [List.count_diff] at hpos
    omega
  have hparents₂ : u₂.parents u.next = [] := by
    rw [State.parents_unlinkAll_of_notMem hnew,
      State.parents_of_heap (State.heap_linkAll_self [] hnew State.heap_alloc_self hx)]
    exact congrArg _ hx'
  obtain ⟨v, hfree, -, hprunes, hlive⟩ :=
    freeSkeleton_leaf hcons₂ htidy₂ ((hlive₂ u.next).mpr (.inr rfl)) hchilds₂ hparents₂
  have hunwound₂ : Unwound t u₂ := by
    refine ⟨?_, fun a ha => ?_, ?_, fun K hK => ?_, hcons₂, htidy₂⟩
    · rw [State.next_unlinkAll, hext₁.next]
      omega
    · have hne : a ≠ u.next := by
        rw [hext.next]
        omega
      rw [State.heap_unlinkAll_of_notMem hne fun hmem =>
        absurd (hcs a hmem).1 (by omega), hext₁.heap a ha]
    · rw [State.names_unlinkAll, hext₁.names]
    · rw [State.filter_tops_unlinkAll (hK _ (by rw [hext.next]; omega)) fun c hc =>
        hK c (hcs c hc).1, hext₁.tops K hK]
  refine ⟨v, ?_, hunwound₂.prunes ht hprunes fun a ha hla => (hlive a).mpr ⟨hla, ?_⟩,
    fun a => ?_⟩
  · rw [disconnectAll_eq (State.live_linkAll.mpr hcurr) fun c hc =>
      State.live_linkAll.mpr (hcs' c hc)]
    exact hfree
  · rw [hext.next]
    omega
  · rw [hlive, hlive₂]
    constructor
    · rintro ⟨hla | rfl, hne⟩
      · exact hla
      · exact absurd rfl hne
    · exact fun hla => ⟨.inl hla, hla.lt_next.ne⟩

/-- The first vertex that fails, in post-order, is `v`, which is the number `k`. -/
structure FirstFailure (env : Env κ) (s : State κ) (f : Branches Nat)
    (base k v : Nat) : Prop where
  vertex : f.post[k]? = some v
  fails : failsAt env s v (base + k) = true
  before : ∀ i w, i < k → f.post[i]? = some w → failsAt env s w (base + i) = false

theorem AllSucceed.or_first (env : Env κ) (s : State κ) (f : Branches Nat) (base : Nat) :
    AllSucceed env s f base ∨ ∃ k v, FirstFailure env s f base k v := by
  by_cases h : ∃ k v, f.post[k]? = some v ∧ failsAt env s v (base + k) = true
  · classical
    obtain ⟨v, hv, hfails⟩ := Nat.find_spec h
    refine .inr ⟨Nat.find h, v, hv, hfails, fun i w hi hw => ?_⟩
    refine Bool.eq_false_iff.mpr fun htrue => Nat.find_min h hi ⟨w, hw, htrue⟩
  · refine .inl fun i v hi => Bool.eq_false_iff.mpr fun htrue => h ⟨i, v, hi, htrue⟩

theorem FirstFailure.unique {f : Branches Nat} {base j k v w : Nat}
    (h : FirstFailure env s f base j v) (h' : FirstFailure env s f base k w) : v = w := by
  rcases lt_trichotomy j k with hlt | rfl | hlt
  · exact absurd h.fails (by rw [h'.before j v hlt h.vertex]; exact Bool.false_ne_true)
  · exact Option.some.inj (h.vertex.symm.trans h'.vertex)
  · exact absurd h'.fails (by rw [h.before k w hlt h'.vertex]; exact Bool.false_ne_true)

/-- Where the first failure of a forest is: below the first root, at it, or behind. -/
theorem FirstFailure.cases {w base k v : Nat} {below rest : Branches Nat}
    (h : FirstFailure env s (.cons w below rest) base k v) :
    FirstFailure env s below base k v ∨
    (AllSucceed env s below base ∧ v = w ∧
      failsAt env s w (base + below.post.length) = true) ∨
    (AllSucceed env s below base ∧ failsAt env s w (base + below.post.length) = false ∧
      FirstFailure env s rest (base + below.post.length + 1)
        (k - (below.post.length + 1)) v) := by
  have hleft : ∀ i, i < below.post.length →
    (Branches.cons w below rest).post[i]? = below.post[i]? := by
    intro i hi
    rw [Branches.post, List.getElem?_append_left hi]
  have hself : (Branches.cons w below rest).post[below.post.length]? = some w := by
    rw [Branches.post, List.getElem?_append_right (le_refl _), Nat.sub_self]
    rfl
  have hright : ∀ i, (Branches.cons w below rest).post[below.post.length + 1 + i]?
      = rest.post[i]? := by
    intro i
    rw [Branches.post, List.getElem?_append_right (by omega),
      show below.post.length + 1 + i - below.post.length
        = i + 1 by omega, List.getElem?_cons_succ]
  have hbelow : below.post.length ≤ k → AllSucceed env s below base := by
    intro hle i u hi
    have hlt : i < below.post.length := (List.getElem?_eq_some_iff.mp hi).1
    exact h.before i u (by omega) ((hleft i hlt).trans hi)
  rcases lt_trichotomy k below.post.length with hlt | heq | hgt
  · refine .inl ⟨(hleft k hlt).symm.trans h.vertex, h.fails, fun i u hi hu => ?_⟩
    exact h.before i u hi ((hleft i (by omega)).trans hu)
  · have hv : v = w := Option.some.inj (h.vertex.symm.trans (heq ▸ hself))
    refine .inr (.inl ⟨hbelow heq.ge, hv, ?_⟩)
    rw [← hv, ← heq]
    exact h.fails
  · obtain ⟨j, rfl⟩ := Nat.exists_eq_add_of_le (Nat.succ_le_of_lt hgt)
    have hj : below.post.length + 1 + j - (below.post.length + 1) = j :=
      Nat.add_sub_cancel_left ..
    refine .inr (.inr ⟨hbelow (by omega), h.before _ w (by omega) hself, ?_⟩)
    rw [hj]
    refine ⟨(hright j).symm.trans h.vertex, ?_, fun i u hi hu => ?_⟩
    · rw [Nat.add_assoc base, Nat.add_assoc base]
      exact h.fails
    · rw [Nat.add_assoc base, Nat.add_assoc base]
      exact h.before _ u (by omega) ((hright i).trans hu)

/-- **The walk**, when a callback fails: what was there is as it was, and a copy is left
exactly if the vertex has children. -/
theorem forkChilds_unwound {vs : List Nat} {f : Branches Nat} (hf : Unfolds s.childs vs f)
    (hlive : ∀ v ∈ f.post, s.Live v) (hle : s.next ≤ t.next)
    (hheap : ∀ a, a < s.next → t.heap a = s.heap a) (hcons : Consistent t)
    (htidy : Tidy t) {k v : Nat} (hfail : FirstFailure env s f t.next k v) :
    ∃ u, (∃ N, ∀ n, N ≤ n → ∀ done, forkChilds (forkRec env n) (destroy n) vs done t =
        (done.foldlM (fun s copy => destroy n copy s) u >>= fun s => .ok (none, s))) ∧
      Unwound t u ∧ ((∃ a, t.next ≤ a ∧ u.Live a) ↔ s.childs v ≠ []) := by
  induction hf generalizing t k with
  | nil => exact absurd hfail.vertex (by simp [Branches.post])
  | cons hbelow hrest ih₁ ih₂ =>
      rename_i w vs below rest
      rw [Branches.post, List.forall_mem_append] at hlive
      obtain ⟨hlive₁, hlive₂⟩ := hlive
      obtain ⟨hw, hlive₂⟩ := List.forall_mem_cons.mp hlive₂
      obtain ⟨x, hx⟩ := State.live_iff.mp hw
      have hx' : t.heap w = some x := (hheap w hw.lt_next).trans hx
      rcases hfail.cases with hin | ⟨hok, rfl, hself⟩ | ⟨hok, hself, hlater⟩
      · obtain ⟨u, ⟨N, hN⟩, hunwound, hleft⟩ := ih₁ hlive₁ hle hheap hcons htidy hin
        refine ⟨u, ⟨N + 1, fun n hn done => ?_⟩, hunwound, hleft⟩
        obtain ⟨n, rfl⟩ := Nat.exists_eq_succ_of_ne_zero (by omega : n ≠ 0)
        have hchilds : forkChilds (forkRec env n) (destroy n) x.childs.items [] t
            = .ok (none, u) := by
          rw [← State.childs_of_heap hx]
          exact hN n (by omega) []
        have hfirst : forkRec env (n + 1) w t = .ok (none, u) := by
          rw [forkRec, State.backend_of_heap hx']
          change (forkChilds (forkRec env n) (destroy n) x.childs.items [] t >>= _) = _
          rw [hchilds]
          rfl
        exact forkChilds_null hfirst
      · obtain ⟨g, hcopied, hroots, hpost, hext⟩ :=
          copyAll_copied env hbelow hlive₁ hle hheap
        obtain ⟨hcons₁, htidy₁⟩ :=
          copyAll_consistent env hbelow hlive₁ hle hheap hcons htidy
        obtain ⟨N, hN⟩ := forkChilds_copyAll hbelow hlive₁ hle hheap hok
        have hroot : ∀ c ∈ (copyAll env below t).1, t.next ≤ c ∧
            (copyAll env below t).2.Live c := by
          intro c hc
          rw [← hroots] at hc
          have hmem := g.roots_sublist_post.subset hc
          refine ⟨?_, hcopied.live c hmem⟩
          rw [hpost, List.mem_range'_1] at hmem
          exact hmem.1
        rw [failsAt, hx, ← hext.next] at hself
        obtain ⟨u, hundo, hunwound, hsame⟩ :=
          unwind_self hext hcons₁ htidy₁ hcons.toClosed (x.clone env) rfl rfl hroot
        refine ⟨u, ⟨N + 1, fun n hn done => ?_⟩, hunwound, ?_⟩
        · obtain ⟨n, rfl⟩ := Nat.exists_eq_succ_of_ne_zero (by omega : n ≠ 0)
          have hchilds := hN n (by omega) []
          rw [State.childs_of_heap hx] at hchilds
          have hfirst : forkRec env (n + 1) v t = .ok (none, u) := by
            rw [forkRec_succ hx' hchilds fun c hc => (hroot c hc).2]
            simp only [hself, if_true, List.reverse_nil, List.nil_append]
            rw [← bind_assoc, hundo]
            rfl
          exact forkChilds_null hfirst
        · -- the copies of the children are all that is left
          simp only [hsame]
          constructor
          · rintro ⟨a, ha, hla⟩ hnil
            rw [hnil] at hbelow
            cases hbelow
            exact absurd hla.lt_next (Nat.not_lt.mpr ha)
          · intro hne
            have hroots' : g.roots ≠ [] := by
              rw [← hbelow.roots_eq] at hne
              cases hcopied with
              | nil => exact absurd rfl hne
              | cons => exact List.cons_ne_nil _ _
            obtain ⟨c, hc⟩ := List.exists_mem_of_ne_nil _ hroots'
            exact ⟨c, hroot c (hroots ▸ hc)⟩
      · -- the tree of the first root is copied, and destroyed again
        have hf₁ : Unfolds s.childs [w] (.cons w below .nil) := .cons hbelow .nil
        have hlive' : ∀ a ∈ (Branches.cons w below .nil).post, s.Live a := by
          rw [Branches.post, List.forall_mem_append]
          exact ⟨hlive₁, by simpa [Branches.post] using hw⟩
        have hok' : AllSucceed env s (.cons w below .nil) t.next := by
          rcases AllSucceed.or_first env s (.cons w below .nil) t.next with hall
            | ⟨j, a, hfirst⟩
          · exact hall
          · rcases hfirst.cases with hin | ⟨-, -, htrue⟩ | ⟨-, -, hnil⟩
            · exact absurd hin.fails
                (by rw [hok _ _ hin.vertex]; exact Bool.false_ne_true)
            · exact absurd htrue (by rw [hself]; exact Bool.false_ne_true)
            · exact absurd hnil.vertex (by simp [Branches.post])
        obtain ⟨g, hcopied, hroots, hpost, hext⟩ :=
          copyAll_copied env hf₁ hlive' hle hheap
        obtain ⟨hcons₁, htidy₁⟩ := copyAll_consistent env hf₁ hlive' hle hheap hcons htidy
        obtain ⟨N₁, hN₁⟩ := forkChilds_copyAll hf₁ hlive' hle hheap hok'
        obtain ⟨curr, hcurr⟩ : ∃ curr,
          (copyAll env (.cons w below .nil) t).1 = [curr] := by
          rw [copyAll, hx']
          exact ⟨_, rfl⟩
        have hlen : (Branches.cons w below .nil).post.length = below.post.length + 1 := by
          simp [Branches.post]
        rw [hlen] at hext hpost
        let t₁ := (copyAll env (.cons w below .nil) t).2
        have hnext₁ : t₁.next = t.next + below.post.length + 1 := hext.next
        obtain ⟨u, ⟨N₂, hN₂⟩, hunwound, hleft⟩ := ih₂ (t := t₁) hlive₂ (by omega)
          (fun a ha => (hext.heap a (by omega)).trans (hheap a ha)) hcons₁ htidy₁
          (by rw [hnext₁]; exact hlater)
        have hmem : ∀ a, a ∈ g.post ↔ t.next ≤ a ∧ a < t₁.next := by
          intro a
          rw [hpost, List.mem_range'_1, hnext₁]
          omega
        have hcopied' : Copied env s u [] (.cons w below .nil) g :=
          hcopied.congr fun a ha => hunwound.heap a ((hmem a).mp ha).2
        have hreach : ∀ a, u.Reaches curr a ↔ t.next ≤ a ∧ a < t₁.next := by
          intro a
          have hunfolds := hcopied'.unfolds
          rw [hroots, hcurr] at hunfolds
          rw [← hmem, mem_post_iff hunfolds]
          simp
        obtain ⟨z, ⟨N₃, hN₃⟩, hdestroys⟩ := destroy_doomed _ u curr
          (.of_consistent hunwound.consistent hunwound.tidy)
          (hcopied'.doomed List.nodup_nil curr
            (by rw [hroots, hcurr]; exact List.mem_singleton_self _))
        have hlivez : ∀ a, z.Live a ↔
            u.Live a ∧ ¬ (t.next ≤ a ∧ a < t₁.next) := fun a => by
          rw [hdestroys.live_iff hunwound.consistent, hreach]
        refine ⟨z, ⟨max N₁ (max N₂ N₃), fun n hn done => ?_⟩, ?_, ?_⟩
        · have hfirst := forkRec_of_forkChilds (hN₁ n (by omega) [])
          rw [hcurr] at hfirst
          have hlast : destroy n curr u = .ok z := hN₃ n (by omega)
          rw [forkChilds_cons hfirst, hN₂ n (by omega), List.foldlM_cons, hlast]
          rfl
        · refine (hunwound.of_extends hext).prunes hcons.toClosed hdestroys.prunes
            fun a ha hla => ?_
          exact (hlivez a).mpr ⟨hla, by omega⟩
        · rw [← hleft]
          constructor
          · rintro ⟨a, ha, hla⟩
            obtain ⟨hla, hno⟩ := (hlivez a).mp hla
            exact ⟨a, by omega, hla⟩
          · rintro ⟨a, ha, hla⟩
            exact ⟨a, by omega, (hlivez a).mpr ⟨hla, by omega⟩⟩

/-! ## The contract of a fork -/

/-- What was there before a call is what there is behind it. -/
structure NoTrace (s s' : State κ) : Prop where
  live : ∀ a, s'.Live a ↔ s.Live a
  childs : ∀ a, s'.childs a = s.childs a
  parents : ∀ a, s'.parents a = s.parents a
  tops : s'.tops.items = s.tops.items

theorem Unwound.noTrace {u : State κ} (h : Unwound s u) (hs : Closed s)
    (hnone : ∀ a, s.next ≤ a → u.heap a = none) : NoTrace s u := by
  have hheap : ∀ a, u.heap a = s.heap a := by
    intro a
    rcases Nat.lt_or_ge a s.next with ha | ha
    · exact h.heap a ha
    · rw [hnone a ha, s.fresh a ha]
  have hold : ∀ a, u.Live a → a < s.next := by
    intro a hla
    by_contra hle
    exact State.not_live_iff.mpr (hnone a (Nat.le_of_not_lt hle)) hla
  refine ⟨fun a => ?_, fun a => ?_, fun a => ?_, ?_⟩
  · rw [State.Live, hheap]
    rfl
  · rw [State.childs, hheap]
    rfl
  · rw [State.parents, hheap]
    rfl
  · have htops :=
      h.tops (fun a => a < s.next) fun a ha => decide_eq_false (Nat.not_lt.mpr ha)
    rw [List.filter_eq_self.mpr fun a ha => ?_] at htops
    · rw [htops, List.filter_eq_self]
      exact fun a ha => decide_eq_true (hs.tops a ha).lt_next
    · exact decide_eq_true (hold a (h.consistent.tops a ha))

/-- **A fork that returns `NULL`** leaves no trace exactly if the first backend whose
callback fails, in the order in which the copies are made, has no children. -/
theorem fork_noTrace_iff (env : Env κ) (s : State κ) (b : Nat) (hs : Consistent s)
    (ht : Tidy s) (hacyclic : Acyclic s.childs) (hb : s.Live b) :
    ∃ f r s', Unfolds s.childs [b] f ∧ Returns (fun n => fork env n b s) (r, s') ∧
      ((r = none → NoTrace s s') ↔ ∀ k v, FirstFailure env s f s.next k v →
        s.childs v = []) := by
  obtain ⟨f, hf⟩ := hs.exists_unfolds hacyclic [b] (by simpa using hb)
  have hlive := hs.live_post hf (by simpa using hb)
  refine ⟨f, ?_⟩
  rcases AllSucceed.or_first env s f s.next with hok | ⟨k, v, hfail⟩
  · obtain ⟨N, hN⟩ := forkChilds_copyAll hf hlive (le_refl _) (fun _ _ => rfl) hok
    refine ⟨_, _, hf, ⟨N, fun n hn => forkRec_of_forkChilds (hN n hn [])⟩,
      iff_of_true ?_ ?_⟩
    · intro hnull
      cases hf with
      | cons hbelow hrest =>
          obtain ⟨x, hx⟩ := State.live_iff.mp hb
          rw [copyAll, hx] at hnull
          cases hnull
    · intro k v hfail
      exact absurd hfail.fails (by rw [hok _ _ hfail.vertex]; exact Bool.false_ne_true)
  · obtain ⟨u, ⟨N, hN⟩, hunwound, hleft⟩ :=
      forkChilds_unwound hf hlive (le_refl _) (fun _ _ => rfl) hs ht hfail
    refine ⟨none, u, hf, ⟨N, fun n hn => forkRec_of_forkChilds (hN n hn [])⟩, ?_⟩
    constructor
    · intro hno j w hfail'
      obtain rfl := hfail'.unique hfail
      by_contra hne
      obtain ⟨a, ha, hla⟩ := hleft.mpr hne
      exact absurd (((hno rfl).live a).mp hla).lt_next (Nat.not_lt.mpr ha)
    · intro hcond _
      have hnone : ∀ a, s.next ≤ a → u.heap a = none := by
        intro a ha
        exact State.not_live_iff.mp fun hla => hleft.mp ⟨a, ha, hla⟩ (hcond k v hfail)
      exact hunwound.noTrace hs.toClosed hnone

/-- A backend whose class has an `init`, in front of one without callbacks. -/
def initPair : State Unit :=
  ((State.empty.alloc
    { plainBackend with cls := { plainBackend.cls with init := true } }).alloc
    plainBackend).link 0 1

theorem initPair_graph : Consistent initPair ∧ Tidy initPair ∧ Acyclic initPair.childs ∧
    initPair.Live 0 := by
  have h₁ : Consistent (State.empty.alloc
      { plainBackend with cls := { plainBackend.cls with init := true }
        }) := consistent_empty.alloc rfl rfl
  have ht₁ : Tidy (State.empty.alloc
      { plainBackend with cls := { plainBackend.cls with init := true } }) :=
    tidy_empty.alloc consistent_empty.toClosed rfl
  refine ⟨(h₁.alloc rfl rfl).link rfl rfl, (ht₁.alloc h₁.toClosed rfl).link,
    acyclic_of_lt fun a c hc => ?_, rfl⟩
  by_cases ha : a = 0
  · subst ha
    rw [List.mem_singleton.mp hc]
    decide
  · rw [initPair, State.childs_link_of_ne ha, State.childs_alloc rfl,
      State.childs_alloc rfl] at hc
    cases hc

/-- The copy of the parent fails, and the parent has a child: neither side holds. -/
theorem fork_noTrace_iff_initPair :
    ∃ f r s', Unfolds initPair.childs [0] f ∧
      Returns (fun n => fork (envFailing 3) n 0 initPair) (r, s') ∧
      ((r = none → NoTrace initPair s') ↔
        ∀ k v, FirstFailure (envFailing 3) initPair f initPair.next k v →
        initPair.childs v = []) := by
  obtain ⟨hs, ht, hacyclic, hb⟩ := initPair_graph
  exact fork_noTrace_iff (envFailing 3) initPair 0 hs ht hacyclic hb

/-- The copy of the parent, at address 3, fails: that of the child stays. -/
theorem fork_leaves_child :
    ¬∀ (env : Env Unit) (s : State Unit) (b : Nat), Consistent s → Tidy s →
      Acyclic s.childs → s.Live b →
      ∃ r s', Returns (fun n => fork env n b s) (r, s') ∧ (r = none → NoTrace s s') := by
  intro hall
  obtain ⟨hs, ht, hacyclic, hb⟩ := initPair_graph
  obtain ⟨r, s', ⟨N, hN⟩, hno⟩ := hall (envFailing 3) initPair 0 hs ht hacyclic hb
  have hrun : ∃ u, fork (envFailing 3) (N + 2) 0 initPair = .ok (none, u) ∧ u.Live 2 :=
    ⟨_, rfl, rfl⟩
  obtain ⟨u, hu, hlive⟩ := hrun
  cases (hN (N + 2) (Nat.le_add_right N 2)).symm.trans hu
  exact absurd (((hno rfl).live 2).mp hlive) (by decide)

end Frozen.Graph
