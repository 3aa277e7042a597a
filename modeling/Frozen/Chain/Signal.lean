/-
# `Frozen.Chain.Signal` — the signal of a dead backend

`-EBADF` says that a backend is dead and has to be rebuilt.  A query is LOYAL if it
returns `-EBADF` whenever the leaf has answered it, and FAITHFUL if it returns `-EBADF` if
and only if one such answer ARRIVES: neither data/incapsulate nor request/rewrite is on
its way back.

Both are judgements about the events of a run and its code, and both are closed under
what handlers do: recode an answer that is not `-EBADF`, fail by themselves, go on to
the next query, come back from a child.  So they are followed through each class once.
Every class but two passes them up.  data/incapsulate returns the outcome of a
comparison in place of the error, and request/rewrite asks whether an unsigned number is
negative; neither ever returns `-EBADF`.
-/
import Frozen.Chain.Backend

namespace Frozen.Chain

variable {D W : Type}

theorem zero_ne_EBADF : (0 : Int) ≠ -EBADF := by decide

theorem EEXIST_ne_EBADF : -EEXIST ≠ -EBADF := by decide

/-! ## Judgements -/

/-- Something about the events before a query, the events after it, and its code. -/
abbrev Judgement := List Event → List Event → Int → Prop

/-- A query meets a judgement, whatever the request and the state. -/
def Judgement.Holds (P : Judgement) (q : Sem D W) : Prop :=
  ∀ request s, P s.events (q request s).state.events (q request s).ret

/-- A judgement that only `-EBADF` can put in question, and no class but two. -/
structure Judgement.Closed (P : Judgement) : Prop where
  quiet : ∀ {a r}, r ≠ -EBADF → P a a r
  fail : ∀ {a r}, r ≠ -EBADF → P a (a ++ [.failure r]) r
  trans : ∀ {a b c r r'}, P a b r → r ≠ -EBADF → P b c r' → P a c r'
  via : ∀ {a b r c}, c ≠ .incapsulate → c ≠ .rewrite → P a b r → P a (b ++ [.via c]) r

/-- `-EBADF` is returned if the leaf has answered it. -/
def loyal : Judgement :=
  fun a b r => ∃ new, b = a ++ new ∧ (.answer (-EBADF) ∈ new → r = -EBADF)

theorem loyal_closed : loyal.Closed where
  quiet := fun _ => ⟨[], (List.append_nil _).symm, fun h => nomatch h⟩
  fail := fun {a r} _ => ⟨[.failure r], rfl, fun h => by simp at h⟩
  trans := by
    rintro a b c r r' ⟨new, rfl, hret⟩ hr ⟨new', rfl, hret'⟩
    refine ⟨new ++ new', List.append_assoc .., fun hmem => ?_⟩
    rcases List.mem_append.mp hmem with hm | hm
    · exact absurd (hret hm) hr
    · exact hret' hm
  via := by
    rintro a b r c - - ⟨new, rfl, hret⟩
    refine ⟨new ++ [.via c], List.append_assoc .., fun hmem => hret ?_⟩
    simpa using hmem

/-- Neither data/incapsulate nor request/rewrite is come back to. -/
def Clear (events : List Event) : Prop :=
  .via .incapsulate ∉ events ∧ .via .rewrite ∉ events

/-- The leaf has answered `-EBADF`, and neither class is on the way back from there. -/
def Arrives (events : List Event) : Prop :=
  ∃ before after, events = before ++ .answer (-EBADF) :: after ∧ Clear after

theorem clear_append {a b : List Event} : Clear (a ++ b) ↔ Clear a ∧ Clear b := by
  simp only [Clear, List.mem_append, not_or]
  tauto

/-- The answer that arrives is in the first part or in the second. -/
theorem arrives_append {a b : List Event} :
    Arrives (a ++ b) ↔ Arrives b ∨ (Arrives a ∧ Clear b) := by
  constructor
  · rintro ⟨before, after, hsplit, hclear⟩
    rcases List.append_eq_append_iff.mp hsplit with ⟨mid, rfl, rfl⟩ | ⟨mid, rfl, hmid⟩
    · exact .inl ⟨mid, after, rfl, hclear⟩
    · cases mid with
      | nil => exact .inl ⟨[], after, hmid.symm, hclear⟩
      | cons e mid =>
          obtain ⟨rfl, rfl⟩ := List.cons_eq_cons.mp hmid
          obtain ⟨hmid, hb⟩ := clear_append.mp hclear
          exact .inr ⟨⟨before, mid, rfl, hmid⟩, hb⟩
  · rintro (⟨before, after, rfl, hclear⟩ | ⟨⟨before, after, rfl, hclear⟩, hb⟩)
    · exact ⟨a ++ before, after, (List.append_assoc ..).symm, hclear⟩
    · exact ⟨before, after ++ b, List.append_assoc .., clear_append.mpr ⟨hclear, hb⟩⟩

theorem not_arrives_nil : ¬ Arrives [] := by
  rintro ⟨before, after, hsplit, -⟩
  simp at hsplit

theorem not_arrives_failure (r : Int) : ¬ Arrives [.failure r] := by
  rintro ⟨before, after, hsplit, -⟩
  simp [List.singleton_eq_append_iff] at hsplit

theorem not_arrives_via (c : Class) : ¬ Arrives [.via c] := by
  rintro ⟨before, after, hsplit, -⟩
  simp [List.singleton_eq_append_iff] at hsplit

theorem arrives_via {a : List Event} {c : Class} (hc : c ≠ .incapsulate)
    (hc' : c ≠ .rewrite) : Arrives (a ++ [.via c]) ↔ Arrives a := by
  have hclear : Clear [.via c] := by
    simp [Clear, hc.symm, hc'.symm]
  rw [arrives_append]
  exact ⟨fun h => (h.resolve_left (not_arrives_via c)).1, fun h => .inr ⟨h, hclear⟩⟩

/-- `-EBADF` is returned if and only if it arrives. -/
def faithful : Judgement := fun a b r => ∃ new, b = a ++ new ∧ (r = -EBADF ↔ Arrives new)

theorem faithful_closed : faithful.Closed where
  quiet := fun h => ⟨[], (List.append_nil _).symm, iff_of_false h not_arrives_nil⟩
  fail := fun h => ⟨_, rfl, iff_of_false h (not_arrives_failure _)⟩
  trans := by
    rintro a b c r r' ⟨new, rfl, hret⟩ hr ⟨new', rfl, hret'⟩
    refine ⟨new ++ new', List.append_assoc .., ?_⟩
    rw [arrives_append, hret']
    exact ⟨.inl, fun h => h.resolve_right fun h => hr (hret.mpr h.1)⟩
  via := by
    rintro a b r c hc hc' ⟨new, rfl, hret⟩
    exact ⟨new ++ [.via c], List.append_assoc .., hret.trans (arrives_via hc hc').symm⟩

/-- Something has happened, and no answer `-EBADF` arrives. -/
def Quelled (a b : List Event) : Prop := ∃ new, b = a ++ new ∧ ¬ Arrives new

theorem Quelled.refl (a : List Event) : Quelled a a :=
  ⟨[], (List.append_nil _).symm, not_arrives_nil⟩

theorem Quelled.trans {a b c : List Event} : Quelled a b → Quelled b c → Quelled a c := by
  rintro ⟨new, rfl, hnew⟩ ⟨new', rfl, hnew'⟩
  refine ⟨new ++ new', List.append_assoc .., fun h => ?_⟩
  rcases arrives_append.mp h with h | h
  · exact hnew' h
  · exact hnew h.1

theorem Quelled.via {a b : List Event} {r : Int} (h : faithful a b r) {c : Class}
    (hc : c = .incapsulate ∨ c = .rewrite) : Quelled a (b ++ [.via c]) := by
  obtain ⟨new, rfl, -⟩ := h
  refine ⟨new ++ [.via c], List.append_assoc .., fun h => ?_⟩
  have hclear := ((arrives_append.mp h).resolve_left (not_arrives_via c)).2
  rcases hc with rfl | rfl
  · exact hclear.1 (List.mem_singleton_self _)
  · exact hclear.2 (List.mem_singleton_self _)

theorem Quelled.faithful {a b : List Event} (h : Quelled a b) {r : Int}
    (hr : r ≠ -EBADF) : Chain.faithful a b r := by
  obtain ⟨new, rfl, hnew⟩ := h
  exact ⟨new, rfl, iff_of_false hr hnew⟩

section Pieces

variable {L : DataLayer D} {P : Judgement} {q q' : Sem D W} {s : State W} {o : Out D W}
  {request : Request D}

/-- A code that is not `-EBADF` may be replaced by another. -/
theorem Judgement.Closed.recode (hP : P.Closed) {a b : List Event} {r r' : Int}
    (h : P a b r) (hr : r ≠ -EBADF) (hr' : r' ≠ -EBADF) : P a b r' :=
  hP.trans h hr (hP.quiet hr')

theorem ne_EBADF_of_nonneg {r : Int} (h : ¬ r < 0) : r ≠ -EBADF := by
  rintro rfl
  exact h (by decide)

theorem Judgement.Closed.orExist (hP : P.Closed) {a : List Event}
    (h : P a o.state.events o.ret) : P a (orExist o).state.events (orExist o).ret := by
  unfold Chain.orExist
  split_ifs with hneg
  · exact h
  · exact hP.recode h (ne_EBADF_of_nonneg hneg) EEXIST_ne_EBADF

theorem Judgement.Closed.override (hP : P.Closed) {a : List Event}
    (h : P a o.state.events o.ret) :
    P a (override L o).state.events (override L o).ret := by
  unfold Chain.override
  split_ifs with hbad hexist
  · exact h
  · exact hP.recode h hbad zero_ne_EBADF
  · exact hP.recode h hbad zero_ne_EBADF

/-- One query after another, if the first did not fail. -/
theorem Judgement.Closed.andThen (hP : P.Closed)
    (h : P s.events (q request s).state.events (q request s).ret) (h' : P.Holds q') :
    P s.events (andThen q q' request s).state.events (andThen q q' request s).ret := by
  unfold Chain.andThen
  dsimp only
  split_ifs with hneg
  · exact h
  · exact hP.trans h (ne_EBADF_of_nonneg hneg) (h' _ _)

theorem Judgement.Holds.withFront (h : P.Holds q) (front : Request D) :
    P.Holds (withFront front q) :=
  fun request s => h (front ++ request) s

theorem Judgement.Holds.after (h : P.Holds q) {s' : State W} (hev : s'.events = s.events)
    (request : Request D) : P s.events (q request s').state.events (q request s').ret :=
  hev ▸ h request s'

theorem backendPass_one (q : Sem D W) (request : Request D) (s : State W) :
    backendPass [q] request s
      = { q request s with ret := if (q request s).ret < 0 then (q request s).ret
        else 0 } := rfl

theorem Judgement.Holds.via (h : P.Holds q) (hP : P.Closed) {c : Class}
    (hc : c ≠ .incapsulate) (hc' : c ≠ .rewrite) : P.Holds (Chain.via c q) :=
  fun request s => hP.via hc hc' (h request s)

theorem Judgement.Holds.pass (h : P.Holds q) (hP : P.Closed) :
    P.Holds (backendPass [q]) := by
  intro request s
  rw [backendPass_one]
  dsimp only
  split_ifs with hneg
  · exact h request s
  · exact hP.recode (h request s) (ne_EBADF_of_nonneg hneg) zero_ne_EBADF

theorem Judgement.Holds.query_hash (h : P.Holds q) (hP : P.Closed)
    (childs : List (Sem D W)) : P.Holds (backendQuery L (.hash q) childs) :=
  fun request s => hP.override (h request s)

theorem Judgement.Holds.query_crwd {func : Action → Option (Sem D W)}
    {childs : List (Sem D W)} (hpass : P.Holds (backendPass childs)) (hP : P.Closed)
    (hfunc : ∀ a h, func a = some h → P.Holds h) :
    P.Holds (backendQuery L (.crwd func) childs) := by
  intro request s
  unfold backendQuery
  dsimp only
  split
  · exact hP.fail (by decide)
  · split_ifs
    · split
      · exact hpass request s
      · next hf => exact hP.override (hfunc _ _ hf request s)
    · exact hP.fail (by decide)

end Pieces

/-! ## Indexes -/

/-- The handler of an index that answers success and leaves HK(ret) to `backend_query`. -/
def Succeeds (h : Handler D W) : Prop :=
  ∀ request w, (h.run request w).1 = 0 ∧ ∀ item ∈ (h.run request w).2.1, item.1 ≠ .ret

section Index

variable {L : DataLayer D} {index : Handler D W} {s : State W} {request : Request D}

theorem query_events (h : Handler D W) :
    (h.query L request s).state.events = s.events := by
  unfold Handler.query backendQuery Chain.override
  dsimp only
  split_ifs <;> rfl

/-- What is left of the request when a successful index has answered. -/
theorem Succeeds.query (h : Succeeds index) (request : Request D) (s : State W) :
    (index.query L request s).ret = 0 ∧
    (index.query L request s).request
      = (request.assign (index.run request s.world).2.1).modify .ret (L.transfer 0) := by
  have h0 : (index.call request s).ret = 0 := (h request s.world).1
  have hexist : (0 : Int) ≠ -EEXIST := by decide
  unfold Handler.query backendQuery Chain.override
  dsimp only
  rw [h0, if_neg zero_ne_EBADF, if_neg hexist]
  exact ⟨rfl, rfl⟩

/-- A successful index is not fatal to index/fill. -/
theorem Succeeds.fill (h : Succeeds index) (u : FillUserdata) :
    fillFatal u (fillUpdate L u (index.query L) request s).1.ret
      (fillUpdate L u (index.query L) request s).2 = none := by
  have hzero : Int.bmod 0 (2 ^ 64) = 0 := by decide
  obtain ⟨hret, hrequest⟩ := h.query (L := L)
    ([(.action, L.action u.action), (.ret, L.ret u.stack)] ++ request) s
  have hret3 : (fillUpdate L u (index.query L) request s).2 = 0 := by
    unfold fillUpdate
    dsimp only
    rw [hrequest, Request.find_modify_self, Request.find_assign_of_ne (h _ _).2]
    simp [Request.find, L.transfer_ret, L.getRet_ret 0 hzero]
  rw [hret3]
  show fillFatal u ((index.query L) _ s).ret 0 = none
  rw [hret]
  simp [fillFatal]

end Index

/-! ## Class by class -/

section Classes

variable {L : DataLayer D} {P : Judgement} {child : Sem D W} {index : Handler D W}

theorem loyal_leaf (h : Handler D W) : loyal.Holds (leafQuery L h) := by
  refine Judgement.Holds.query_hash (fun request s => ?_) loyal_closed []
  refine ⟨[.answer (h.call request s).ret], rfl, fun hmem => ?_⟩
  simpa [eq_comm] using hmem

theorem faithful_leaf (h : Handler D W) : faithful.Holds (leafQuery L h) := by
  refine Judgement.Holds.query_hash (fun request s => ?_) faithful_closed []
  refine ⟨[.answer (h.call request s).ret], rfl, ?_⟩
  constructor
  · intro hret
    exact ⟨[], [], by simpa using hret, by simp [Clear]⟩
  · rintro ⟨before, after, hsplit, -⟩
    have hmem : Event.answer (-EBADF) ∈ [.answer (h.call request s).ret] := by
      rw [hsplit]
      exact List.mem_append_right _ List.mem_cons_self
    simpa [eq_comm] using hmem

theorem Judgement.Holds.list (h : P.Holds child) (hP : P.Closed) :
    P.Holds (listQuery L child) := by
  have hpass := h.pass hP
  have hlast : P.Holds fun request s => Chain.orExist (backendPass [child] request s) :=
    fun request s => hP.orExist (hpass request s)
  refine hpass.query_crwd hP fun a func hfunc request s => ?_
  cases a with
  | write =>
      cases hfunc
      unfold listsSet
      dsimp only
      split
      · exact hlast request s
      · split
        · exact hP.fail (errorCode_ne_EBADF _ _)
        · exact hP.andThen (hpass.withFront _ request s) hlast
  | delete =>
      cases hfunc
      unfold listsDelete
      split
      · exact hP.fail (errorCode_ne_EBADF _ _)
      · split
        · exact hP.fail (errorCode_ne_EBADF _ _)
        · exact hP.orExist (hpass.withFront _ request s)
  | _ => cases hfunc

theorem incapHandler_ret (u : IncapUserdata) (pass : Sem D W) (request : Request D)
    (s : State W) : (incapHandler L u pass request s).ret ≠ -EBADF := by
  unfold incapHandler
  dsimp only
  split_ifs <;> decide

theorem faithful_incapsulate (h : faithful.Holds child) (u : IncapUserdata) :
    faithful.Holds (incapsulateQuery L u (via .incapsulate child)) := by
  refine Judgement.Holds.query_hash (fun request s => ?_) faithful_closed _
  exact (Quelled.via (h _ s) (.inl rfl)).faithful (incapHandler_ret u _ request s)

theorem Judgement.Holds.lookup (h : P.Holds child) (hP : P.Closed) (hidx : Succeeds index)
    (u : LookupUserdata) : P.Holds (lookupQuery L u index child) := by
  have hpass := h.pass hP
  refine Judgement.Holds.query_hash (fun request s => ?_) hP _
  unfold lookupHandler
  split_ifs with hquery
  · split
    · exact hP.fail (by decide)
    · dsimp only
      rw [if_pos (hidx.query _ _).1]
      exact hP.orExist ((hpass.withFront _).after (query_events index) _)
  · exact hP.orExist (hpass request s)

theorem fillUpdate_events (u : FillUserdata) (index : Handler D W)
    (request : Request D) (s : State W) :
    (fillUpdate L u (index.query L) request s).1.state.events = s.events :=
  query_events index

theorem Judgement.Holds.fill (h : P.Holds child) (hP : P.Closed) (hidx : Succeeds index)
    (u : FillUserdata) : P.Holds (fillQuery L u index child) := by
  have hpass := h.pass hP
  refine Judgement.Holds.query_hash (fun request s => ?_) hP _
  unfold fillHandler
  split_ifs with hbefore
  · dsimp only
    rw [hidx.fill u]
    refine hP.orExist ?_
    -- the child's code, and no event since
    show P s.events (fillUpdate L u (index.query L) _ _).1.state.events
      (backendPass [child] request s).ret
    rw [fillUpdate_events]
    exact hpass request s
  · dsimp only
    rw [hidx.fill u]
    exact hP.orExist (hpass.after (fillUpdate_events u index request s) _)

theorem Judgement.Holds.switch (h : P.Holds child) (hP : P.Closed)
    {rules : List (SwitchRule D)} {backends : Nat → Sem D W}
    (hrules : ∀ rule ∈ rules, ∀ k, rule.backend = some k → P.Holds (backends k)) :
    P.Holds (switchQuery L rules backends child) := by
  have hpass := h.pass hP
  refine Judgement.Holds.query_hash (fun request s => ?_) hP _
  unfold switchHandler
  split
  · exact hP.orExist (hpass request s)
  · next rule hrule =>
      split
      · next k hk => exact hrules rule (List.mem_of_find?_eq_some hrule) k hk request s
      · dsimp only
        split_ifs with hzero
        · exact hpass request s
        · refine hP.recode (hpass request s) ?_ EEXIST_ne_EBADF
          rw [not_not.mp hzero]
          exact zero_ne_EBADF

/-- Whatever the index of the round, it is the one child. -/
theorem getD_one (q q' : Sem D W) (i : Nat) : [q].getD (i % [q].length) q' = q := by
  rw [List.length_singleton, Nat.mod_one]
  rfl

theorem Judgement.Holds.balancerLoop (h : P.Holds child) (hP : P.Closed)
    (u : BalancerUserdata) : ∀ n k, P.Holds (balancerLoop u [child] n k) := by
  intro n
  induction n with
  | zero => exact fun k request s => hP.quiet EEXIST_ne_EBADF
  | succ n ih =>
      intro k request s
      rw [Chain.balancerLoop, getD_one]
      exact hP.andThen (h request s) (ih (k + 1))

/-- The handler of every action the balancer serves. -/
theorem balancer_func {u : BalancerUserdata} {a : Action} {func : Sem D W}
    (h : (match a with
      | .create | .write | .read | .delete | .move | .count => some (balancerRequestRest u [child])
      | _ => none) = some func) : func = balancerLoop u [child] u.rounds 0 := by
  split at h
  all_goals first
    | exact (Option.some_inj.mp h).symm
    | cases h

theorem Judgement.Holds.balancer (h : P.Holds child) (hP : P.Closed)
    (u : BalancerUserdata) : P.Holds (balancerQuery L u child) := by
  refine (h.pass hP).query_crwd hP fun a func hfunc => ?_
  rw [balancer_func hfunc]
  exact h.balancerLoop hP u _ _

/-- `pass(request)` is `-EEXIST`, whatever the child answers. -/
theorem rewritePass_eq (ret : Int) : rewritePass ret = -EEXIST :=
  if_neg (not_lt.mpr (Int.emod_nonneg ret (by decide)))

theorem rewriteFuncAblock_ret (pass : Sem D W) : ∀ {script : Script D W}, script.Ends →
    ∀ request s, (rewriteFuncAblock L pass script request s).ret = -EEXIST := by
  intro script
  induction script with
  | set key value next ih => exact fun hends request s => ih hends _ s
  | update key value next ih => exact fun hends request s => ih hends _ s
  | pass next ih => exact fun hends request s => ih _ _ (hends _ _) _ _
  | query backend next ih => exact fun hends request s => ih _ _ (hends _ _) _ _
  | exit ret => exact fun hends => hends.elim
  | last => exact fun _ request s => rewritePass_eq _

/-- By induction on the script: each `pass` is quelled, and a query of another backend
is no event. -/
theorem rewriteFuncAblock_quelled {pass : Sem D W}
    (h : ∀ request s, Quelled s.events (pass request s).state.events) :
    ∀ {script : Script D W}, script.Ends →
      ∀ request s, Quelled s.events
        (rewriteFuncAblock L pass script request s).state.events := by
  intro script
  induction script with
  | set key value next ih => exact fun hends request s => ih hends _ s
  | update key value next ih => exact fun hends request s => ih hends _ s
  | pass next ih => exact fun hends request s =>
      (h request s).trans (ih _ _ (hends _ _) _ _)
  | query backend next ih =>
      intro hends request s
      have hnext := ih (backend.query L request s).ret (backend.query L request s).request
        (hends _ _) (backend.query L request s).request (backend.query L request s).state
      rw [query_events] at hnext
      exact hnext
  | exit ret => exact fun hends => hends.elim
  | last => exact fun _ request s => h request s

theorem faithful_rewrite (h : faithful.Holds child) {script : Request D → Script D W}
    (hends : ∀ request, (script request).Ends) :
    faithful.Holds (rewriteQuery L (some script) (via .rewrite child)) := by
  refine Judgement.Holds.query_hash (fun request s => ?_) faithful_closed _
  have hpass : ∀ request s, Quelled s.events
      (backendPass [via .rewrite child] request s).state.events :=
    fun request s => Quelled.via (h request s) (.inr rfl)
  refine (rewriteFuncAblock_quelled hpass (hends request) request s).faithful ?_
  show (rewriteFuncAblock L _ (script request) request s).ret ≠ -EBADF
  rw [rewriteFuncAblock_ret _ (hends request)]
  exact EEXIST_ne_EBADF

theorem Judgement.Holds.rewrite_none (h : P.Holds child) (hP : P.Closed) :
    P.Holds (rewriteQuery L none child) :=
  Judgement.Holds.query_hash (h.pass hP) hP _

theorem Judgement.Holds.splitLoop (h : P.Holds child) (hP : P.Closed)
    (u : SplitUserdata D) (input : D) :
    ∀ cuts start, P.Holds (splitLoop L u input child start cuts) := by
  intro cuts
  induction cuts with
  | nil =>
      exact fun _ request s => hP.andThen (h.withFront _ request s) fun _ _ =>
        hP.quiet zero_ne_EBADF
  | cons cut cuts ih => exact fun _ request s => hP.andThen (h.withFront _ request s) (ih cut)

theorem Judgement.Holds.split (h : P.Holds child) (hP : P.Closed) (u : SplitUserdata D) :
    P.Holds (splitQuery L u child) := by
  refine Judgement.Holds.query_hash (fun request s => ?_) hP _
  unfold splitHandler
  split
  · exact hP.fail (errorCode_ne_EBADF _ _)
  · exact (h.pass hP).splitLoop hP u _ _ _ request s

end Classes

/-! ## Whole chains -/

/-- Every index of a chain answers success. -/
def Backend.Indexed : Backend D W → Prop
  | .leaf _ => True
  | .list child | .incapsulate _ child | .balancer _ child | .rewrite _ child
  | .split _ child =>
      child.Indexed
  | .lookup _ index child | .fill _ index child => Succeeds index ∧ child.Indexed
  | .switch _ backends child => (∀ k, (backends k).Indexed) ∧ child.Indexed

/-- Neither data/incapsulate nor a script of request/rewrite anywhere, be
it behind a rule. -/
def Backend.Clean : Backend D W → Prop
  | .leaf _ => True
  | .incapsulate _ _ => False
  | .rewrite script child => script = none ∧ child.Clean
  | .list child | .lookup _ _ child | .fill _ _ child | .balancer _ child
  | .split _ child =>
      child.Clean
  | .switch rules backends child =>
      (∀ rule ∈ rules, ∀ k, rule.backend = some k → (backends k).Clean) ∧ child.Clean

section Chains

variable {L : DataLayer D}

/-- By induction on the chain, one class at a time. -/
theorem loyal_of_clean : ∀ {b : Backend D W}, b.Indexed → b.Clean →
    loyal.Holds (b.query L) := by
  have hvia : ∀ {q : Sem D W} {c : Class}, loyal.Holds q → c ≠ .incapsulate →
      c ≠ .rewrite → loyal.Holds (via c q) := fun h => h.via loyal_closed
  intro b
  induction b with
  | leaf handler => exact fun _ _ => loyal_leaf handler
  | list child ih =>
      exact fun hi hc => (hvia (ih hi hc) (by decide) (by decide)).list loyal_closed
  | incapsulate u child ih => exact fun _ hc => hc.elim
  | lookup u index child ih =>
      exact fun hi hc => (hvia (ih hi.2 hc) (by decide) (by decide)).lookup
        loyal_closed hi.1 u
  | fill u index child ih =>
      exact fun hi hc => (hvia (ih hi.2 hc) (by decide) (by decide)).fill
        loyal_closed hi.1 u
  | switch rules backends child ihr ih =>
      exact fun hi hc => (hvia (ih hi.2 hc.2) (by decide) (by decide)).switch loyal_closed
        fun rule hr k hk => hvia (ihr k (hi.1 k) (hc.1 rule hr k hk))
        (by decide) (by decide)
  | balancer u child ih =>
      exact fun hi hc => (hvia (ih hi hc) (by decide) (by decide)).balancer loyal_closed u
  | rewrite script child ih =>
      rintro hi ⟨rfl, hc⟩
      exact (hvia (ih hi hc) (by decide) (by decide)).rewrite_none loyal_closed
  | split u child ih =>
      exact fun hi hc => (hvia (ih hi hc) (by decide) (by decide)).split loyal_closed u

/-- The same for every chain. -/
theorem faithful_of_ends : ∀ {b : Backend D W}, b.Indexed → b.Ends →
    faithful.Holds (b.query L) := by
  have hvia : ∀ {q : Sem D W} {c : Class}, faithful.Holds q → c ≠ .incapsulate →
      c ≠ .rewrite → faithful.Holds (via c q) := fun h => h.via faithful_closed
  intro b
  induction b with
  | leaf handler => exact fun _ _ => faithful_leaf handler
  | list child ih =>
      exact fun hi he => (hvia (ih hi he) (by decide) (by decide)).list faithful_closed
  | incapsulate u child ih => exact fun hi he => faithful_incapsulate (ih hi he) u
  | lookup u index child ih =>
      exact fun hi he => (hvia (ih hi.2 he) (by decide) (by decide)).lookup
        faithful_closed hi.1 u
  | fill u index child ih =>
      exact fun hi he => (hvia (ih hi.2 he) (by decide) (by decide)).fill
        faithful_closed hi.1 u
  | switch rules backends child ihr ih =>
      exact fun hi he => (hvia (ih hi.2 he.2) (by decide) (by decide)).switch
        faithful_closed
        fun _ _ k _ => hvia (ihr k (hi.1 k) (he.1 k)) (by decide) (by decide)
  | balancer u child ih =>
      exact fun hi he => (hvia (ih hi he) (by decide) (by decide)).balancer
        faithful_closed u
  | rewrite script child ih =>
      intro hi he
      cases script with
      | none => exact (hvia (ih hi he.2) (by decide) (by decide)).rewrite_none faithful_closed
      | some script => exact faithful_rewrite (ih hi he.2) (he.1 script rfl)
  | split u child ih =>
      exact fun hi he => (hvia (ih hi he) (by decide) (by decide)).split faithful_closed u

/-- **The signal of a dead backend.**  In every run in which the leaf has answered
`-EBADF`, the top of a chain without data/incapsulate and request/rewrite returns
`-EBADF`, whatever the rules of its switches; and the top of any chain returns it if and
only if neither class is on the way back from one of these answers. -/
theorem dead_signal (L : DataLayer D) (b : Backend D W) (hindexed : b.Indexed)
    (request : Request D) (w : W)
    (hdead : Event.answer (-EBADF) ∈ (b.query L request ⟨w, []⟩).state.events) :
    (b.Clean → (b.query L request ⟨w, []⟩).ret = -EBADF) ∧
      (b.Ends → ((b.query L request ⟨w, []⟩).ret = -EBADF ↔
        Arrives (b.query L request ⟨w, []⟩).state.events)) := by
  constructor
  · intro hclean
    obtain ⟨new, hnew, hret⟩ := loyal_of_clean hindexed hclean request ⟨w, []⟩
    exact hret (by rwa [hnew] at hdead)
  · intro hends
    obtain ⟨new, hnew, hret⟩ := faithful_of_ends (L := L) hindexed hends request ⟨w, []⟩
    rw [hnew]
    exact hret

end Chains

/-! ## A small chain -/

/-- Items that hold a number or nothing. -/
def numbers : DataLayer (Option Int) where
  void := none
  action := fun a => some (match a with
    | .create => 0 | .delete => 1 | .move => 2 | .count => 3 | .custom =>
        4 | .rebuild => 5
    | .read => 19 | .write => 20 | .other n => n)
  getAction := fun d => d.map fun
    | 0 => .create | 1 => .delete | 2 => .move | 3 => .count | 4 =>
        .custom | 5 => .rebuild
    | 19 => .read | 20 => .write | n => .other n.toNat
  offt := some
  getOfft := id
  getSizet := fun d => d.map UInt64.ofInt
  getUintt := fun d => d.map UInt64.ofInt
  ret := some
  getRet := id
  transfer := fun r _ => some (Int.bmod r (2 ^ 64))
  write := fun v _ => some v.toNat
  multiply := fun m d => d.map (· * m)
  divide := fun m d => d.map (· / m)
  alloc := fun _ => some (some 0)
  slice := fun d _ _ => d
  compare := fun r r' => r.all fun item => r'.find item.1 == some item.2
  transfer_ret := fun _ _ => rfl
  getRet_ret := fun _ _ => rfl

/-- A handler that always gives the same answer. -/
def answering (ret : Int) : Handler (Option Int) Unit := ⟨fun _ w => (ret, [], w)⟩

def plainIncap : IncapUserdata :=
  { key := .offset, keyOut := .offsetOut, keyTo := .offsetTo, keyFrom := .offsetFrom
    count := .buffer, size := .size, multiply := 1, stack := 0 }

/-- A switch that sends a request with an insert to data/incapsulate, and
others to data/list. -/
def insertsAside : Backend (Option Int) Unit :=
  .switch [⟨some [(.insert, some 1)], some 0⟩]
    (fun _ => .incapsulate plainIncap (.leaf (answering (-EBADF))))
    (.list (.leaf (answering (-EBADF))))

/-- Through data/list the signal comes back, and through the switch for a request it
does not send aside. -/
theorem dead_signal_list :
    ((Backend.list (.leaf (answering (-EBADF)))).query numbers [(.action, some 19)]
      ⟨(), []⟩).ret
        = -EBADF ∧
      (insertsAside.query numbers [(.action, some 19)] ⟨(), []⟩).ret = -EBADF := by
  have hdead : Event.answer (-EBADF)
      ∈ ((Backend.list (.leaf (answering (-EBADF)))).query numbers
      [(.action, some 19)] ⟨(), []⟩).state.events := by
    decide
  have hevents : (insertsAside.query numbers [(.action, some 19)] ⟨(), []⟩).state.events
      = [.answer (-EBADF), .via .list, .via .switch] := by
    decide
  constructor
  · exact (dead_signal numbers (.list (.leaf (answering (-EBADF)))) trivial _ ()
      hdead).1 trivial
  · refine ((dead_signal numbers insertsAside ⟨fun _ => trivial, trivial⟩ _ () ?_).2
      ⟨fun _ => trivial, trivial⟩).mpr ?_
    · rw [hevents]
      exact List.mem_cons_self
    · exact ⟨[], _, hevents, by simp [Clear]⟩

/-- The leaf has answered `-EBADF` and the top returns something else. -/
def Lost (o : Out (Option Int) Unit) : Prop :=
  .answer (-EBADF) ∈ o.state.events ∧ o.ret ≠ -EBADF

instance (o : Out (Option Int) Unit) : Decidable (Lost o) :=
  inferInstanceAs (Decidable (_ ∧ _))

/-- Through data/incapsulate, and through a script that only passes, it does not. -/
theorem dead_signal_lost :
    Lost ((Backend.incapsulate plainIncap (.leaf (answering (-EBADF)))).query numbers []
        ⟨(), []⟩) ∧
      Lost ((Backend.rewrite (some fun _ => .last) (.leaf (answering (-EBADF)))).query
        numbers [] ⟨(), []⟩) := by
  decide

end Frozen.Chain
