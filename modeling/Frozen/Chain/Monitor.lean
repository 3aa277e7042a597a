/-
# `Frozen.Chain.Monitor` — sending a request again after a rebuild

`rebuildmon_handler` of backend/rebuild: when the request comes back with `-EBADF` the
reader rebuilds the index and the request is sent again, all of it.  Over index/fill
with `before = 0` the store has appended its record by then, and appends another one.

`create_spec` says what one pass through index/fill does; the number of records follows
by induction on the retries (`monitor_records`) and for whole runs (`creates_count`).
-/
import Frozen.Chain.Rebuild
import Frozen.Chain.Result

namespace Frozen.Chain

variable {D W : Type}

/-! ## `rebuildmon_handler` -/

/-- The handler, with the rebuild of its reader; `none` if it has not returned after so
many retries.  The code of the rebuild is not looked at. -/
def rebuildmonHandler (rebuild : RebuildUserdata D → State W →
      Option (Int × RebuildUserdata D × State W))
    (retryRequest : UInt64) (pass : Sem D W) :
    Nat → Request D → RebuildUserdata D → State W → Option (Out D W × RebuildUserdata D)
  | 0, _, _, _ => none
  | fuel + 1, request, u, s =>
      let o := pass request s
      if o.ret = -EBADF then
        match rebuild u o.state with
        | none => none
        | some (_, u', s') =>
            if retryRequest ≠ 0 then
              rebuildmonHandler rebuild retryRequest pass fuel o.request u' s'
            else some (⟨-EEXIST, o.request, s'⟩, u')
      else if o.ret < 0 then some (o, u)
      else some ({ o with ret := -EEXIST }, u)

/-! ## The chain -/

def Handler.onFst {A B : Type} (h : Handler D A) : Handler D (A × B) :=
  ⟨fun request w =>
    let (ret, items, a) := h.run request w.1
    (ret, items, (a, w.2))⟩

def Handler.onSnd {A B : Type} (h : Handler D B) : Handler D (A × B) :=
  ⟨fun request w =>
    let (ret, items, b) := h.run request w.2
    (ret, items, (w.1, b))⟩

/-- A query beside which its `-EBADF` answers are counted. -/
def counted (q : Sem D W) : Sem D (W × Nat) := fun request s =>
  let o := q request ⟨s.world.1, s.events⟩
  ⟨o.ret, o.request,
    ⟨(o.state.world, if o.ret = -EBADF then s.world.2 + 1 else s.world.2),
      o.state.events⟩⟩

/-- `request['action'] = create`. -/
def IsCreate (L : DataLayer D) (request : Request D) : Prop :=
  (request.find .action).bind L.getAction = some .create

/-- A rebuild monitor with `retry_request` over index/fill over a store.  The index
answers as it likes, as mphf with a `ssize_t` that is not `-EEXIST`, and leaves HK(ret)
to `backend_query`; CREATE appends one record to the store; reading adds none. -/
structure Monitor (D R I : Type) where
  layer : CountLayer D
  store : Handler D (List R)
  index : Handler D I
  fill : FillUserdata
  /-- The childs of the reader. -/
  reader : Sem D (List R × I)
  retryRequest : UInt64
  retry : retryRequest ≠ 0
  action : fill.action = .create
  fatal : fill.fatal ≠ 0
  before : fill.before = 0
  appends : ∀ request records, IsCreate layer.toDataLayer request →
    (store.run request records).1 = 0 ∧
    (∀ item ∈ (store.run request records).2.1, item.1 ≠ .action) ∧
      ∃ r, (store.run request records).2.2 = records ++ [r]
  plain : index.Plain
  answers : ∀ request i, (index.run request i).1 ≠ -EEXIST ∧
    ssize (index.run request i).1 = (index.run request i).1
  reads : ∀ request s, (reader request s).state.world.1 = s.world.1

namespace Monitor

variable {R I : Type} (m : Monitor D R I)

def storeQuery : Sem D ((List R × I) × Nat) :=
  quietly (m.store.onFst.query m.layer.toDataLayer)

def indexQuery : Sem D (List R × I) := m.index.onSnd.query m.layer.toDataLayer

/-- index/fill; what the index answers to it is counted. -/
def fillQuery : Sem D ((List R × I) × Nat) :=
  backendQuery m.layer.toDataLayer
    (.hash (fillHandler m.layer.toDataLayer m.fill (counted m.indexQuery)
      (backendPass [m.storeQuery])))
    [m.storeQuery]

/-- The rebuild reader, with the index as its writer. -/
def rebuild (fuel : Nat) (u : RebuildUserdata D) (s : State ((List R × I) × Nat)) :
    Option (Int × RebuildUserdata D × State ((List R × I) × Nat)) :=
  rebuildRebuild m.layer (quietly m.reader) (some fun _ => quietly m.indexQuery) fuel u s

/-- `backend_query` on the monitor. -/
def query (fuel : Nat) (request : Request D) (u : RebuildUserdata D)
    (s : State ((List R × I) × Nat)) :
    Option (Out D ((List R × I) × Nat) × RebuildUserdata D) :=
  (rebuildmonHandler (m.rebuild fuel) m.retryRequest (backendPass [m.fillQuery]) fuel
    request u s).map fun p => (override m.layer.toDataLayer p.1, p.2)

/-- One request that has completed. -/
structure Step (R I : Type) where
  before : State ((List R × I) × Nat)
  after : State ((List R × I) × Nat)

/-- Requests one after the other; `none` if one of them does not complete. -/
def run (fuel : Nat) : List (Request D) → RebuildUserdata D → State ((List R × I) × Nat) →
    Option (List (Step R I))
  | [], _, _ => some []
  | request :: requests, u, s =>
      match m.query fuel request u s with
      | none => none
      | some (o, u') => (run fuel requests u' o.state).map (⟨s, o.state⟩ :: ·)

end Monitor

/-- How many records the store has. -/
def records {R I : Type} (s : State ((List R × I) × Nat)) : Nat := s.world.1.1.length

/-- How often the index has answered `-EBADF` to index/fill. -/
def refused {R I : Type} (s : State ((List R × I) × Nat)) : Nat := s.world.2

section Create

variable {R I : Type} (m : Monitor D R I) {request : Request D}
  {s : State ((List R × I) × Nat)}

theorem store_spec (hreq : IsCreate m.layer.toDataLayer request) :
    (backendPass [m.storeQuery] request s).ret = 0 ∧
      IsCreate m.layer.toDataLayer (backendPass [m.storeQuery] request s).request ∧
      records (backendPass [m.storeQuery] request s).state = records s + 1 ∧
      refused (backendPass [m.storeQuery] request s).state = refused s := by
  obtain ⟨hret, hitems, r, hr⟩ := m.appends request s.world.1.1 hreq
  have hcall : (m.store.onFst.call request ⟨s.world.1, s.events⟩ : Out D
      (List R × I)).ret = 0 := hret
  have hexist : (0 : Int) ≠ -EEXIST := by decide
  have hquery : m.storeQuery request s = ⟨0,
      (request.assign (m.store.run request s.world.1.1).2.1).modify .ret
      (m.layer.transfer 0),
      ⟨((s.world.1.1 ++ [r], s.world.1.2), s.world.2), s.events⟩⟩ := by
    unfold Monitor.storeQuery quietly Handler.query backendQuery override
    dsimp only
    rw [hcall, if_neg zero_ne_EBADF, if_neg hexist, ← hr]
    rfl
  rw [backendPass_one, hquery]
  refine ⟨rfl, ?_, ?_, rfl⟩
  · unfold IsCreate
    dsimp only
    rw [Request.find_modify_of_ne (by decide), Request.find_assign_of_ne hitems]
    exact hreq
  · simp [records]

/-- The index has answered `-EBADF`, or it has stored what it answered. -/
theorem index_spec (request : Request D) (s : State ((List R × I) × Nat)) :
    Request.find .action (fillUpdate m.layer.toDataLayer m.fill (counted m.indexQuery)
      request s).1.request
        = request.find .action ∧
      records (fillUpdate m.layer.toDataLayer m.fill (counted m.indexQuery) request
        s).1.state = records s ∧
      ((fillUpdate m.layer.toDataLayer m.fill (counted m.indexQuery) request s).1.ret
        = -EBADF ∧
          refused (fillUpdate m.layer.toDataLayer m.fill (counted m.indexQuery)
            request s).1.state = refused s + 1 ∨
        (fillUpdate m.layer.toDataLayer m.fill (counted m.indexQuery) request s).1.ret
          = 0 ∧
          (fillUpdate m.layer.toDataLayer m.fill (counted m.indexQuery) request s).2
            ≠ -EBADF ∧
          (fillUpdate m.layer.toDataLayer m.fill (counted m.indexQuery) request s).2
            ≠ -EEXIST ∧
          refused (fillUpdate m.layer.toDataLayer m.fill (counted m.indexQuery)
            request s).1.state = refused s) := by
  set front : Request D :=
    [(.action, m.layer.action m.fill.action), (.ret, m.layer.ret m.fill.stack)]
    ++ request with hfront
  have hkeys : Key.action ∈ List.take 2 front.keys ∧
      Key.ret ∈ List.take 2 front.keys := by
    simp [hfront, Request.keys]
  set a := (m.index.run front s.world.1.2).1 with ha
  set items := (m.index.run front s.world.1.2).2.1 with hitems
  have hcall : (m.index.onSnd.call front ⟨s.world.1, s.events⟩ : Out D (List R × I))
      = ⟨a, front.assign items,
      ⟨(s.world.1.1, (m.index.run front s.world.1.2).2.2), s.events⟩⟩ := rfl
  obtain ⟨hexist, hrange⟩ := m.answers front s.world.1.2
  by_cases hbad : a = -EBADF
  · have hquery : m.indexQuery front ⟨s.world.1, s.events⟩ = ⟨-EBADF, front.assign items,
        ⟨(s.world.1.1, (m.index.run front s.world.1.2).2.2), s.events⟩⟩ := by
      unfold Monitor.indexQuery Handler.query backendQuery override
      dsimp only
      rw [hcall, if_pos hbad, hbad]
    unfold fillUpdate counted
    dsimp only
    rw [← hfront, hquery]
    refine ⟨Request.find_drop_assign_of_front hkeys.1, rfl, .inl ⟨rfl, ?_⟩⟩
    simp [refused]
  · have hquery : m.indexQuery front ⟨s.world.1, s.events⟩ = ⟨0,
        (front.assign items).modify .ret (m.layer.transfer a),
        ⟨(s.world.1.1, (m.index.run front s.world.1.2).2.2), s.events⟩⟩ := by
      unfold Monitor.indexQuery Handler.query backendQuery override
      dsimp only
      rw [hcall, if_neg hbad, if_neg hexist]
    have hstored : ((Request.find .ret
        ((front.assign items).modify .ret (m.layer.transfer a))).bind
        m.layer.getRet).getD m.fill.stack = a := by
      rw [Request.find_modify_self, Request.find_assign_of_ne (m.plain front s.world.1.2)]
      show ((some (m.layer.transfer a (m.layer.ret m.fill.stack))).bind
        m.layer.getRet).getD _ = a
      rw [m.layer.transfer_ret, show Int.bmod a (2 ^ 64) = a from hrange]
      simp [m.layer.getRet_ret a hrange]
    unfold fillUpdate counted
    dsimp only
    rw [← hfront, hquery, hstored]
    refine ⟨?_, rfl, .inr ⟨rfl, hbad, hexist, ?_⟩⟩
    · dsimp only
      rw [Request.drop_modify_of_front (by rw [Request.keys_assign]; exact hkeys.2),
        Request.find_drop_assign_of_front hkeys.1]
      rfl
    · show (if (0 : Int) = -EBADF then s.world.2 + 1 else s.world.2) = s.world.2
      exact if_neg zero_ne_EBADF

/-- One pass of a CREATE through index/fill appends one record,
whatever the index says. -/
theorem create_spec (hreq : IsCreate m.layer.toDataLayer request) :
    IsCreate m.layer.toDataLayer (m.fillQuery request s).request ∧
      records (m.fillQuery request s).state = records s + 1 ∧
      ((m.fillQuery request s).ret = -EBADF ∧
        refused (m.fillQuery request s).state = refused s + 1 ∨
        (m.fillQuery request s).ret = 0 ∧
        refused (m.fillQuery request s).state = refused s) := by
  obtain ⟨hret, hcreate, hrec, href⟩ := store_spec m (s := s) hreq
  set o := backendPass [m.storeQuery] request s with ho
  obtain ⟨haction, hrec', hanswer⟩ := index_spec m o.request o.state
  set i := fillUpdate m.layer.toDataLayer m.fill (counted m.indexQuery) o.request
    o.state with hi
  have hhandler : fillHandler m.layer.toDataLayer m.fill (counted m.indexQuery)
      (backendPass [m.storeQuery]) request s
        = (fillFatal m.fill i.1.ret i.2).elim (orExist { i.1 with ret := o.ret })
          fun ret => fail ret i.1.request i.1.state := by
    unfold fillHandler
    rw [if_pos m.before]
    dsimp only
    rw [← ho, ← hi]
    cases fillFatal m.fill i.1.ret i.2 <;> rfl
  have hkeep : IsCreate m.layer.toDataLayer i.1.request := by
    unfold IsCreate
    rw [haction]
    exact hcreate
  unfold Monitor.fillQuery backendQuery
  dsimp only
  rw [hhandler]
  rcases hanswer with ⟨hbad, href'⟩ | ⟨hzero, hbad, hexist, href'⟩
  · have hfatal : fillFatal m.fill i.1.ret i.2 = some (-EBADF) := by
      rw [fillFatal, if_neg m.fatal, hbad, if_pos zero_ne_EBADF.symm]
    rw [hfatal]
    exact ⟨hkeep, hrec'.trans hrec, .inl ⟨rfl, href'.trans (by rw [href])⟩⟩
  · by_cases h3 : i.2 = 0
    · have hfatal : fillFatal m.fill i.1.ret i.2 = none := by
        simp [fillFatal, hzero, h3]
      rw [hfatal, hret]
      exact ⟨hkeep, hrec'.trans hrec, .inr ⟨rfl, href'.trans href⟩⟩
    · have hfatal : fillFatal m.fill i.1.ret i.2 = some i.2 := by
        simp [fillFatal, hzero, h3, m.fatal]
      rw [hfatal, Option.elim_some]
      unfold override fail
      rw [if_neg hbad, if_neg hexist]
      refine ⟨?_, hrec'.trans hrec, .inr ⟨rfl, href'.trans href⟩⟩
      unfold IsCreate
      dsimp only
      rw [Request.find_modify_of_ne (by decide)]
      exact hkeep

/-- A rebuild only reads the store, and the counter is not for it. -/
theorem rebuild_records {fuel : Nat} {u u' : RebuildUserdata D}
    {s' : State ((List R × I) × Nat)} {ret : Int}
    (hrun : m.rebuild fuel u s = some (ret, u', s')) :
    records s' = records s ∧ refused s' = refused s := by
  have hindex : ∀ request (t : State ((List R × I) × Nat)),
      (quietly m.indexQuery request t).state.world.1.1 = t.world.1.1 := by
    intro request t
    unfold quietly Monitor.indexQuery Handler.query backendQuery override
    dsimp only
    split_ifs <;> rfl
  have hpass : ∀ request (t : State ((List R × I) × Nat)),
      (quietly m.reader request t).state.world.1.1 = t.world.1.1 :=
    fun request t => m.reads request _
  refine ⟨congrArg List.length ?_, ?_⟩
  · refine rebuild_keep (f := fun t => t.world.1.1) hpass ?_ fuel hrun
    intro write hwrite
    cases hwrite
    exact fun _ => hindex
  · refine rebuild_keep (f := fun t => t.world.2) (fun _ _ => rfl) ?_ fuel hrun
    intro write hwrite
    cases hwrite
    exact fun _ _ _ => rfl

/-- By induction on the retries: one record a pass. -/
theorem monitor_records (f : Nat) :
    ∀ fuel {request : Request D} {u u' : RebuildUserdata D}
    {s : State ((List R × I) × Nat)} {o}, IsCreate m.layer.toDataLayer request →
    rebuildmonHandler (m.rebuild f) m.retryRequest (backendPass [m.fillQuery]) fuel
      request u s = some (o, u') →
    records o.state + refused s = records s + 1 + refused o.state := by
  intro fuel
  induction fuel with
  | zero => exact fun _ hrun => nomatch hrun
  | succ fuel ih =>
      intro request u u' s o hreq hrun
      obtain ⟨hcreate, hrec, hanswer⟩ := create_spec m (s := s) hreq
      rw [rebuildmonHandler, backendPass_one] at hrun
      dsimp only at hrun
      rcases hanswer with ⟨hret, href⟩ | ⟨hret, href⟩
      · -- the record is there, and the request goes round again
        have hneg : -EBADF < 0 := by decide
        rw [hret, if_pos hneg, if_pos rfl] at hrun
        split at hrun
        · cases hrun
        · next r v t hrebuild =>
            rw [if_pos m.retry] at hrun
            obtain ⟨hrec', href'⟩ := rebuild_records m hrebuild
            have hrest := ih hcreate hrun
            omega
      · rw [hret, if_neg (lt_irrefl 0), if_neg zero_ne_EBADF, if_neg (lt_irrefl 0)]
          at hrun
        obtain ⟨rfl, -⟩ := Prod.mk.inj (Option.some_inj.mp hrun)
        show records (m.fillQuery request s).state + _
          = _ + refused (m.fillQuery request s).state
        omega

/-- **A CREATE through a rebuild monitor.**  In every run, each request that completes
adds one record, and one more for every time the index has answered it with `-EBADF`; so
exactly one if and only if the index never has. -/
theorem creates_count (m : Monitor D R I) (fuel : Nat) {requests : List (Request D)}
    (hcreate : ∀ request ∈ requests, IsCreate m.layer.toDataLayer request)
    (u : RebuildUserdata D) (s : State ((List R × I) × Nat))
    {steps : List (Monitor.Step R I)} (hrun : m.run fuel requests u s = some steps) :
    ∀ step ∈ steps,
      records step.after + refused step.before = records step.before + 1 + refused
        step.after ∧
      (records step.after = records step.before + 1 ↔
        refused step.after = refused step.before) := by
  induction requests generalizing u s steps with
  | nil =>
      cases hrun
      exact fun step hstep => nomatch hstep
  | cons request requests ih =>
      rw [Monitor.run] at hrun
      split at hrun
      · cases hrun
      · next o v hquery =>
          obtain ⟨rest, hrest, rfl⟩ := Option.map_eq_some_iff.mp hrun
          obtain ⟨⟨o', v'⟩, hhandler, heq⟩ := Option.map_eq_some_iff.mp hquery
          have hstate : o.state = o'.state := by
            rw [← (Prod.mk.inj heq).1]
            unfold override
            split_ifs <;> rfl
          have hcount :=
            monitor_records m fuel fuel (hcreate request List.mem_cons_self) hhandler
          intro step hstep
          rcases List.mem_cons.mp hstep with rfl | hstep
          · show records o.state + refused s = records s + 1 + refused o.state ∧
              (records o.state = records s + 1 ↔ refused o.state = refused s)
            rw [hstate]
            omega
          · exact ih (fun r hr => hcreate r (List.mem_cons_of_mem _ hr)) v o.state
              hrest step hstep

end Create

/-! ## An index that refuses once -/

/-- The index answers `-EBADF` to REBUILD, and to its first requests as often as
its number says. -/
def grudging : Handler (Option Int) Nat :=
  ⟨fun request i =>
    if request.find .action = some (some 5) then (-EBADF, [], i)
    else if i = 0 then (0, [], 0) else (-EBADF, [], i - 1)⟩

def grudgingMonitor : Monitor (Option Int) Unit Nat where
  layer := counters
  store := ⟨fun _ records => (0, [], records ++ [()])⟩
  index := grudging
  fill := { fatal := 1, before := 0, action := .create, stack := 0 }
  reader := fun request s => ⟨0, request.modify .ret fun _ => some 0, s⟩
  retryRequest := 1
  retry := by decide
  action := rfl
  fatal := by decide
  before := rfl
  appends := fun _ _ _ => ⟨rfl, (fun _ hitem => nomatch hitem), (), rfl⟩
  plain := by
    intro request w item hitem
    unfold grudging at hitem
    dsimp only at hitem
    split_ifs at hitem <;> cases hitem
  answers := by
    intro request i
    unfold grudging
    dsimp only
    split_ifs <;> dsimp only <;> decide
  reads := fun _ _ => rfl

/-- One CREATE, over an index that refuses `n` times. -/
def grudgingRun (n : Nat) : Option (List (Monitor.Step Unit Nat)) :=
  grudgingMonitor.run 2 [[(.action, some 0)]] plainRebuild ⟨((([], n), 0)), []⟩

/-- Three CREATEs, the first of which the index refuses once. -/
def threeCreates : Option (List (Monitor.Step Unit Nat)) :=
  grudgingMonitor.run 2 (.replicate 3 [(.action, some 0)]) plainRebuild
    ⟨((([], 1), 0)), []⟩

/-- They leave four records. -/
theorem creates_count_willing :
    (threeCreates.map fun steps => steps.map fun step => records step.after)
      = some [2, 3, 4] ∧ ∀ steps, threeCreates = some steps → ∀ step ∈ steps,
        records step.after + refused step.before = records step.before + 1 + refused
          step.after ∧
        (records step.after = records step.before + 1 ↔
          refused step.after = refused step.before) := by
  refine ⟨by decide, fun steps hrun => ?_⟩
  refine creates_count grudgingMonitor 2 ?_ _ _ hrun
  intro request hmem
  rw [List.eq_of_mem_replicate hmem]
  rfl

/-- If the index refuses the request once, it leaves two records. -/
theorem create_twice : (grudgingRun 1).map (fun steps => steps.map fun step =>
    (records step.before, records step.after)) = some [(0, 2)] := by
  decide

end Frozen.Chain
