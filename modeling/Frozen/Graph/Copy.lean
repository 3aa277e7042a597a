/-
# `Frozen.Graph.Copy` — a forest of backends, copied

`backend_fork_rec` copies what is below a backend before the backend itself, so the
copies of the vertices of an unfolding lie one behind the other in the heap, in
post-order.  `copyAll` is the graph after all of them were made, and `Copied` says what
it looks like: the copies are a forest of the same shape, disjoint from everything that
was there before.
-/
import Frozen.Graph.Splice

namespace Frozen.Graph

open Lib

variable {κ : Type}

/-! ## Many links from one backend -/

namespace State

variable {s : State κ} {p a : Nat} {cs : List Nat}

theorem heap_link_of_ne {c : Nat} (hp : a ≠ p) (hc : a ≠ c) :
    (s.link p c).heap a = s.heap a := by
  rw [heap_link]
  simp [hp, hc]

theorem heap_linkAll_of_notMem (hp : a ≠ p) (hcs : a ∉ cs) :
    (s.linkAll p cs).heap a = s.heap a := by
  induction cs generalizing s with
  | nil => rfl
  | cons c cs ih =>
      obtain ⟨hc, hrest⟩ := not_or.mp fun h => hcs (List.mem_cons.mpr h)
      rw [linkAll_cons, ih hrest, heap_link_of_ne hp hc]

/-- The children come behind those that are there, if there is no hole between them. -/
theorem heap_linkAll_self {x : Backend κ} (ds : List Nat) (hcs : p ∉ cs)
    (hx : s.heap p = some x) (hds : x.childs = ds.map some) :
    (s.linkAll p cs).heap p = some { x with childs := (ds ++ cs).map some } := by
  induction cs generalizing s x ds with
  | nil =>
      rw [List.append_nil, ← hds]
      exact hx
  | cons c cs ih =>
      obtain ⟨hc, hrest⟩ := not_or.mp fun h => hcs (List.mem_cons.mpr h)
      have hx₁ : (s.link p c).heap p
          = some { x with childs := (ds ++ [c]).map some } := by
        rw [heap_link, hx, Option.map_some, if_pos rfl, if_neg hc, hds,
          Slots.add_map_some]
      rw [linkAll_cons, ih _ hrest hx₁ rfl, List.append_assoc]
      rfl

/-- Every child gets the parent once. -/
theorem heap_linkAll_mem {x : Backend κ} (hnodup : cs.Nodup) (hp : a ≠ p) (hmem : a ∈ cs)
    (hx : s.heap a = some x) :
    (s.linkAll p cs).heap a = some { x with parents := x.parents.add (some p) } := by
  induction cs generalizing s with
  | nil => cases hmem
  | cons c cs ih =>
      obtain ⟨hc, hnodup'⟩ := List.nodup_cons.mp hnodup
      rw [linkAll_cons]
      rcases List.mem_cons.mp hmem with rfl | hmem
      · rw [heap_linkAll_of_notMem hp hc, heap_link, hx, Option.map_some,
          if_neg hp, if_pos rfl]
      · have hne : a ≠ c := fun h => hc (h ▸ hmem)
        exact ih hnodup' hmem ((heap_link_of_ne hp hne).trans hx)

@[simp] theorem next_linkAll : (s.linkAll p cs).next = s.next := by
  induction cs generalizing s with
  | nil => rfl
  | cons c cs ih => rw [linkAll_cons, ih, next_link]

@[simp] theorem names_linkAll : (s.linkAll p cs).names = s.names := by
  induction cs generalizing s with
  | nil => rfl
  | cons c cs ih => rw [linkAll_cons, ih, names_link]

/-- Links between others leave the rest of the tops as it is. -/
theorem filter_tops_link {K : Nat → Bool} {c : Nat} (hp : K p = false)
    (hc : K c = false) : (s.link p c).tops.items.filter K = s.tops.items.filter K := by
  let s₁ := s.modify p fun x => { x with childs := x.childs.add (some c) }
  change ((s₁.top p).untop c).tops.items.filter K = _
  rw [filter_tops_untop hc, filter_tops_top hp]
  rfl

theorem filter_tops_unlink {K : Nat → Bool} {c : Nat} (hp : K p = false)
    (hc : K c = false) :
    (s.unlink p c).tops.items.filter K = s.tops.items.filter K := by
  rw [unlink, filter_tops_top hc]
  exact filter_tops_untop hp

theorem filter_tops_linkAll {K : Nat → Bool} (hp : K p = false)
    (hcs : ∀ c ∈ cs, K c = false) :
    (s.linkAll p cs).tops.items.filter K = s.tops.items.filter K := by
  induction cs generalizing s with
  | nil => rfl
  | cons c cs ih =>
      obtain ⟨hc, hrest⟩ := List.forall_mem_cons.mp hcs
      rw [linkAll_cons, ih hrest, filter_tops_link hp hc]

end State

/-! ## Copies -/

variable (env : Env κ)

/-- The copies of the roots of a forest, and the graph with the copies of all of it. -/
def copyAll : Branches Nat → State κ → List Nat × State κ
  | .nil, s => ([], s)
  | .cons v below rest, s =>
      match s.heap v with
      | none => ([], s)
      | some x =>
          let r := copyAll below s
          let q := copyAll rest ((r.2.alloc (x.clone env)).linkAll r.2.next r.1)
          (r.2.next :: q.1, q.2)

/-- The second forest is, in `t`, a copy of the first one in `s`; the roots have the
parents `par`, and everything below has one parent. -/
inductive Copied (s t : State κ) : List Nat → Branches Nat → Branches Nat → Prop
  | nil {par : List Nat} : Copied s t par .nil .nil
  | cons {par : List Nat} {v w : Nat} {below rest below' rest' : Branches Nat}
      {x y : Backend κ} : s.heap v = some x → t.heap w = some y →
      y = { x.clone env with childs := y.childs, parents := y.parents } →
      y.childs.items = below'.roots → y.parents.items = par →
      Copied s t [w] below below' → Copied s t par rest rest' →
      Copied s t par (.cons v below rest) (.cons w below' rest')

/-- A copy of a backend: its class, a copy of its configuration, no name
and one reference. -/
def IsCopy (s t : State κ) (v w : Nat) : Prop :=
  ∃ x y, s.heap v = some x ∧ t.heap w = some y ∧ y.cls = x.cls ∧
  y.config = x.config.bind env.copy ∧
    y.name = none ∧ y.refs = 1

namespace Copied

variable {env} {s t u : State κ} {par : List Nat} {f g : Branches Nat}

theorem unfolds (h : Copied env s t par f g) : Unfolds t.childs g.roots g := by
  induction h with
  | nil => exact .nil
  | cons _ hy _ hchilds _ _ _ ih₁ ih₂ =>
      refine .cons ?_ ih₂
      rw [State.childs_of_heap hy, hchilds]
      exact ih₁

theorem rel (h : Copied env s t par f g) : Branches.Rel (IsCopy env s t) f g := by
  induction h with
  | nil => exact .nil
  | cons hx hy heq _ _ _ _ ih₁ ih₂ =>
      refine .cons ⟨_, _, hx, hy, ?_, ?_, ?_, ?_⟩ ih₁ ih₂
      · rw [heq]
        rfl
      · rw [heq]
        rfl
      · rw [heq]
        rfl
      · rw [heq]
        rfl

/-- Only the copies matter. -/
theorem congr (h : Copied env s t par f g) (hheap : ∀ w ∈ g.post, u.heap w = t.heap w) :
    Copied env s u par f g := by
  induction h with
  | nil => exact .nil
  | cons hx hy heq hchilds hparents _ _ ih₁ ih₂ =>
      rw [Branches.post, List.forall_mem_append] at hheap
      obtain ⟨hbelow, hrest⟩ := hheap
      obtain ⟨hself, hrest⟩ := List.forall_mem_cons.mp hrest
      exact .cons hx (hself.trans hy) heq hchilds hparents (ih₁ hbelow) (ih₂ hrest)

/-- The roots get a parent. -/
theorem reparent {par' : List Nat} (h : Copied env s t par f g) (hnodup : g.post.Nodup)
    (hroots : ∀ w ∈ g.roots, ∀ y, t.heap w = some y → ∃ l : Slots Nat,
      u.heap w = some { y with parents := l } ∧ (y.parents.items = par → l.items = par'))
    (hheap : ∀ w ∈ g.post, w ∉ g.roots → u.heap w = t.heap w) :
    Copied env s u par' f g := by
  induction h with
  | nil => exact .nil
  | cons hx hy heq hchilds hparents hbelow _ _ ih₂ =>
      rename_i w below rest below' rest' x y _ _
      rw [Branches.post, List.nodup_append] at hnodup
      obtain ⟨hnodup₁, hnodup₂, hapart⟩ := hnodup
      obtain ⟨hw, hnodup₂⟩ := List.nodup_cons.mp hnodup₂
      obtain ⟨hroot, hroots⟩ := List.forall_mem_cons.mp hroots
      obtain ⟨l, hu, hl⟩ := hroot y hy
      have hsub := rest'.roots_sublist_post.subset
      refine .cons hx hu ?_ hchilds (hl hparents) (hbelow.congr fun a ha => hheap a ?_ ?_)
        (ih₂ hnodup₂ hroots fun a ha hno => hheap a ?_ ?_)
      · rw [heq]
      · exact List.mem_append_left _ ha
      · intro hmem
        rcases List.mem_cons.mp hmem with rfl | hmem
        · exact hapart a ha a (List.mem_cons_self ..) rfl
        · exact hapart a ha a (List.mem_cons_of_mem w (hsub hmem)) rfl
      · exact List.mem_append_right _ (List.mem_cons_of_mem w ha)
      · intro hmem
        rcases List.mem_cons.mp hmem with rfl | hmem
        · exact hw ha
        · exact hno hmem

theorem live (h : Copied env s t par f g) : ∀ w ∈ g.post, t.Live w := by
  induction h with
  | nil => exact fun _ h => absurd h List.not_mem_nil
  | cons _ hy _ _ _ _ _ ih₁ ih₂ =>
      rw [Branches.post, List.forall_mem_append]
      exact ⟨ih₁, List.forall_mem_cons.mpr ⟨State.live_of_heap hy, ih₂⟩⟩

/-- Copies that nobody else links to may be destroyed. -/
theorem doomed (h : Copied env s t par f g) (hpar : par.Nodup) :
    ∀ w ∈ g.roots, Doomed t g.post.length w := by
  induction h with
  | nil => exact fun _ h => absurd h List.not_mem_nil
  | cons _ hy heq hchilds hparents _ _ ih₁ ih₂ =>
      rename_i w below rest below' rest' x y _ _ _
      have hlen : (Branches.cons w below' rest').post.length = below'.post.length + 1 +
          rest'.post.length := by
        rw [Branches.post, List.length_append, List.length_cons]
        omega
      rw [Branches.roots, hlen]
      refine List.forall_mem_cons.mpr ⟨?_, fun a ha => (ih₂ hpar a ha).mono (by omega)⟩
      have hself : Doomed t (below'.post.length + 1) w := by
        refine ⟨y, hy, by rw [heq]; rfl, by rw [hparents]; exact hpar, fun c hc => ?_⟩
        rw [hchilds] at hc
        exact ih₁ (List.nodup_singleton w) c hc
      exact hself.mono (by omega)

end Copied

section

variable {env} {s t : State κ}

/-- What copying leaves as it was, and where it puts the copies. -/
structure Extends (t u : State κ) (k : Nat) : Prop where
  next : u.next = t.next + k
  heap : ∀ a, a < t.next → u.heap a = t.heap a
  names : u.names = t.names
  tops : ∀ K : Nat → Bool, (∀ a, t.next ≤ a → K a = false) →
    u.tops.items.filter K = t.tops.items.filter K

theorem Extends.refl (t : State κ) : Extends t t 0 :=
  ⟨rfl, fun _ _ => rfl, rfl, fun _ _ => rfl⟩

theorem Extends.trans {u v : State κ} {j k : Nat} (h : Extends t u j)
    (h' : Extends u v k) : Extends t v (j + k) where
  next := by rw [h'.next, h.next, Nat.add_assoc]
  heap := by
    intro a ha
    rw [h'.heap a (by rw [h.next]; omega), h.heap a ha]
  names := h'.names.trans h.names
  tops := by
    intro K hK
    rw [h'.tops K fun a ha => hK a (by rw [h.next] at ha; omega), h.tops K hK]

/-- A new backend, linked to new ones. -/
theorem Extends.linkNew {u : State κ} {k : Nat} (h : Extends t u k) (x : Backend κ)
    (cs : List Nat) (hcs : ∀ c ∈ cs, t.next ≤ c) :
    Extends t ((u.alloc x).linkAll u.next cs) (k + 1) where
  next := by
    rw [State.next_linkAll]
    exact congrArg (· + 1) h.next
  heap := by
    intro a ha
    have hnew : a ≠ u.next := by
      rw [h.next]
      omega
    rw [State.heap_linkAll_of_notMem hnew fun hmem => absurd (hcs a hmem) (by omega),
      State.heap_alloc_of_ne hnew, h.heap a ha]
  names := (State.names_linkAll).trans h.names
  tops := by
    intro K hK
    rw [State.filter_tops_linkAll (hK _ (by rw [h.next]; omega)) fun c hc =>
      hK c (hcs c hc)]
    exact h.tops K hK

variable (env) in
/-- **The copies.** -/
theorem copyAll_copied {vs : List Nat} {f : Branches Nat} (hf : Unfolds s.childs vs f)
    (hlive : ∀ v ∈ f.post, s.Live v) (hle : s.next ≤ t.next)
    (hheap : ∀ a, a < s.next → t.heap a = s.heap a) :
    ∃ g, Copied env s (copyAll env f t).2 [] f g ∧ g.roots = (copyAll env f t).1 ∧
      g.post = List.range' t.next f.post.length ∧
      Extends t (copyAll env f t).2 f.post.length := by
  induction hf generalizing t with
  | nil => exact ⟨.nil, .nil, rfl, rfl, .refl t⟩
  | cons _ _ ih₁ ih₂ =>
      rename_i v vs below rest _ _
      rw [Branches.post, List.forall_mem_append] at hlive
      obtain ⟨hlive₁, hlive₂⟩ := hlive
      obtain ⟨hv, hlive₂⟩ := List.forall_mem_cons.mp hlive₂
      obtain ⟨x, hx⟩ := State.live_iff.mp hv
      have hx' : t.heap v = some x := (hheap v hv.lt_next).trans hx
      -- what is below, the backend itself, and the other trees
      obtain ⟨g₁, hcopied₁, hroots₁, hpost₁, hext₁⟩ := ih₁ (t := t) hlive₁ hle hheap
      let t₁ := (copyAll env below t).2
      let t₂ := (t₁.alloc (x.clone env)).linkAll t₁.next (copyAll env below t).1
      have hnew : ∀ w ∈ g₁.post, t.next ≤ w ∧ w < t₁.next := by
        intro w hw
        rw [hpost₁, List.mem_range'_1] at hw
        exact ⟨hw.1, hext₁.next ▸ hw.2⟩
      have hsub := g₁.roots_sublist_post.subset
      have hext₂ : Extends t t₂ (below.post.length + 1) := by
        refine hext₁.linkNew _ _ fun c hc => ?_
        rw [← hroots₁] at hc
        exact (hnew c (hsub hc)).1
      have hnodup₁ : g₁.post.Nodup := by
        rw [hpost₁]
        exact List.nodup_range'
      have hself : t₁.next ∉ g₁.post := fun h => absurd (hnew _ h).2 (lt_irrefl _)
      have hcopied₂ : Copied env s t₂ [t₁.next] below g₁ := by
        refine hcopied₁.reparent hnodup₁ (fun w hw y hy => ?_) fun w hw hno => ?_
        · have hne : w ≠ t₁.next := fun h => hself (h ▸ hsub hw)
          refine ⟨_, State.heap_linkAll_mem ?_ hne (hroots₁ ▸ hw)
            ((State.heap_alloc_of_ne hne).trans hy), fun hnil => ?_⟩
          · rw [← hroots₁]
            exact hnodup₁.sublist g₁.roots_sublist_post
          · have hperm := Slots.items_add t₁.next y.parents
            rw [hnil] at hperm
            exact List.perm_singleton.mp hperm
        · have hne : w ≠ t₁.next := fun h => hself (h ▸ hw)
          rw [State.heap_linkAll_of_notMem hne (hroots₁ ▸ hno),
            State.heap_alloc_of_ne hne]
      have hcurr : t₂.heap t₁.next
          = some { x.clone env with childs := g₁.roots.map some } := by
        rw [hroots₁]
        refine State.heap_linkAll_self [] ?_ State.heap_alloc_self rfl
        rw [← hroots₁]
        exact fun h => hself (hsub h)
      have hle₂ : s.next ≤ t₂.next := by
        rw [hext₂.next]
        omega
      obtain ⟨g₂, hcopied₃, hroots₂, hpost₂, hext₃⟩ :=
        ih₂ (t := t₂) hlive₂ hle₂ fun a ha =>
        (hext₂.heap a (by omega)).trans (hheap a ha)
      have hrun : copyAll env (.cons v below rest) t =
          (t₁.next :: (copyAll env rest t₂).1, (copyAll env rest t₂).2) := by
        rw [copyAll, hx']
      have hnext : t₂.next = t₁.next + 1 := State.next_linkAll
      have hlater : ∀ w, w < t₂.next → (copyAll env rest t₂).2.heap w = t₂.heap w :=
        hext₃.heap
      rw [hrun]
      refine ⟨.cons t₁.next g₁ g₂, ?_, ?_, ?_, ?_⟩
      · refine .cons hx ((hlater _ (by omega)).trans hcurr) rfl ?_ rfl
          (hcopied₂.congr fun w hw => hlater w ?_) hcopied₃
        · exact Slots.items_map_some _
        · have hlt := (hnew w hw).2
          omega
      · rw [Branches.roots, hroots₂]
      · rw [Branches.post, Branches.post, hpost₁, hpost₂, hnext, List.length_append,
          List.length_cons, hext₁.next, ← List.range'_append_1, List.range'_succ]
      · have hlen : (Branches.cons v below rest).post.length = below.post.length + 1 +
            rest.post.length := by
          rw [Branches.post, List.length_append, List.length_cons]
          omega
        rw [hlen]
        exact hext₂.trans hext₃

variable (env) in
/-- The lists stay in step. -/
theorem copyAll_consistent {vs : List Nat} {f : Branches Nat} (hf : Unfolds s.childs vs f)
    (hlive : ∀ v ∈ f.post, s.Live v) (hle : s.next ≤ t.next)
    (hheap : ∀ a, a < s.next → t.heap a = s.heap a) (hcons : Consistent t)
    (htidy : Tidy t) : Consistent (copyAll env f t).2 ∧ Tidy (copyAll env f t).2 := by
  induction hf generalizing t with
  | nil => exact ⟨hcons, htidy⟩
  | cons hbelow _ ih₁ ih₂ =>
      rename_i v vs below rest _
      rw [Branches.post, List.forall_mem_append] at hlive
      obtain ⟨hlive₁, hlive₂⟩ := hlive
      obtain ⟨hv, hlive₂⟩ := List.forall_mem_cons.mp hlive₂
      obtain ⟨x, hx⟩ := State.live_iff.mp hv
      have hx' : t.heap v = some x := (hheap v hv.lt_next).trans hx
      obtain ⟨g, hcopied, hroots, hpost, hext⟩ :=
        copyAll_copied env hbelow hlive₁ hle hheap
      obtain ⟨hcons₁, htidy₁⟩ := ih₁ hlive₁ hle hheap hcons htidy
      have hcs : ∀ c ∈ (copyAll env below t).1,
          ((copyAll env below t).2.alloc (x.clone env)).Live c := by
        intro c hc
        rw [← hroots] at hc
        exact State.live_alloc.mpr
          (.inl (hcopied.live c (g.roots_sublist_post.subset hc)))
      have hext₂ : Extends t _ (below.post.length + 1) :=
        hext.linkNew (x.clone env) (copyAll env below t).1 fun c hc => by
          rw [← hroots] at hc
          have hmem := g.roots_sublist_post.subset hc
          rw [hpost, List.mem_range'_1] at hmem
          exact hmem.1
      rw [copyAll, hx']
      refine ih₂ hlive₂ ?_ (fun a ha => (hext₂.heap a (by omega)).trans (hheap a ha))
        ?_ ?_
      · rw [hext₂.next]
        omega
      · exact (hcons₁.alloc rfl rfl).linkAll (State.live_alloc.mpr (.inr rfl)) hcs
      · exact (htidy₁.alloc hcons₁.toClosed rfl).linkAll

end

end Frozen.Graph
