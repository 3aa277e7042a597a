/-
# `Frozen.Chain.Watch` — the lists of the pool thread

Every pool is on lists that one thread goes through: `watch_one` and `watch_global` for
itself, `watch_perfork` for the list of its forks, which is the own list of the pool
they were forked from.  Configuration, forks and destruction change these lists while
the thread runs.

A pool is a number that is never used again, as no two pieces of memory are the same;
what is freed is seen.

    pool_watches       what is on the lists, in every run
    stale_of_run       what stays on `watch_perfork` when it should not
-/
import Frozen.Chain.Pool
import Frozen.Config.Lexer
import Frozen.Graph.List

namespace Frozen.Chain

open Lib Frozen.Graph

/-! ## Configuration -/

/-- What `hash_data_copy` finds, less the requests. -/
structure PoolConfig where
  parameter : Option (List UInt8)
  modePerfork : Option (List UInt8)
  modeGlobal : Option (List UInt8)
  tickInterval : Option UInt64
  action : Option (List UInt8)
  actionOne : Option (List UInt8)
  actionPerfork : Option (List UInt8)
  actionGlobal : Option (List UInt8)
  poolInterval : Option UInt64
  maxPerinstance : Option UInt64
  maxPerfork : Option UInt64
  maxGlobal : Option UInt64

def poolIntervalDefault : UInt64 := 5

def tickIntervalDefault : UInt64 := 5

/-- `pool_string_to_parameter`. -/
def poolStringToParameter : Option (List UInt8) → ParameterMethod
  | none => .ticks
  | some string =>
      -- "request", "ticks", "one"
      if Config.strcasecmp string [114, 101, 113, 117, 101, 115, 116] then .request
      else if Config.strcasecmp string [116, 105, 99, 107, 115] then .ticks
      else if Config.strcasecmp string [111, 110, 101] then .one
      else .ticks

/-- `pool_string_to_method`. -/
def poolStringToMethod : Option (List UInt8) → ChooseMethod
  | none => .first
  | some string =>
      -- "random", "first", "last", "highest", "lowest"
      if Config.strcasecmp string [114, 97, 110, 100, 111, 109] then .random
      else if Config.strcasecmp string [102, 105, 114, 115, 116] then .first
      else if Config.strcasecmp string [108, 97, 115, 116] then .last
      else if Config.strcasecmp string [104, 105, 103, 104, 101, 115, 116] then .highest
      else if Config.strcasecmp string [108, 111, 119, 101, 115, 116] then .lowest
      else .first

/-- `pool_string_to_action`. -/
def poolStringToAction : Option (List UInt8) → ActionMethod
  | none => .request
  | some string =>
      -- "destroy", "request"
      if Config.strcasecmp string [100, 101, 115, 116, 114, 111, 121] then .destroy
      else if Config.strcasecmp string [114, 101, 113, 117, 101, 115, 116] then .request
      else .request

/-! ## Pools -/

/-- `pool_userdata`, less the requests, with the handlers and the
childs of its backend. -/
structure PoolData extends Member where
  usageTicksCurr : UInt64
  usageTicksTime : UInt64
  /-- whose `perfork_childs_own` it is -/
  perforkChilds : Nat
  perforkChildsOwn : Slots Nat
  tickInterval : UInt64
  ruleOne : Rule
  rulePerfork : Rule
  ruleGlobal : Rule

/-- What a number stands for. -/
inductive Life where
  | unused
  | live (d : PoolData)
  | freed

/-- The static variables, and all pools. -/
structure Pools (W : Type) where
  poolInterval : UInt64
  runningPools : Nat
  watchOne : Slots Nat
  watchPerfork : Slots Nat
  watchGlobal : Slots Nat
  life : Nat → Life
  world : W

/-- Why there is no next state. -/
inductive PoolStop where
  | outOfFuel
  /-- freed memory is used -/
  | freed
  /-- nobody calls that -/
  | refused

variable {W : Type}

def Pools.empty (w : W) : Pools W :=
  ⟨poolIntervalDefault, 0, [], [], [], fun _ => .unused, w⟩

def Pools.setLife (s : Pools W) (id : Nat) (l : Life) : Pools W :=
  { s with life := Function.update s.life id l }

/-- `pool_init`, with the memory that there is for it. -/
def poolInit (s : Pools W) : Pools W :=
  let s := if s.runningPools = 0
    then { s with watchOne := [], watchPerfork := [], watchGlobal := [] } else s
  { s with runningPools := s.runningPools + 1 }

/-- `pool_configure_any`, with the time, the number of childs and the
owner of the list. -/
def poolConfigureAny (id : Nat) (parent : Option Nat) (perforkChilds : Nat)
    (now : UInt64) (childs : Nat) (config : PoolConfig) (s : Pools W) : Pools W :=
  let cfgActPerfork := config.actionPerfork.or config.action
  let cfgActGlobal := config.actionGlobal.or config.action
  let limit := fun (max : Option UInt64) => max.getD uintmaxMax
  let data : PoolData :=
    { createdOn := now
      usageParameter := 0
      usageTicksLast := 0
      parameter := poolStringToParameter config.parameter
      forked := perforkChilds ≠ id
      childs := childs
      died := false
      usageTicksCurr := 0
      usageTicksTime := 0
      perforkChilds := perforkChilds
      perforkChildsOwn := []
      tickInterval := config.tickInterval.getD tickIntervalDefault
      -- the action of `rule_one` is that of `rule_perfork`
      ruleOne := ⟨limit config.maxPerinstance, .random, poolStringToAction cfgActPerfork⟩
      rulePerfork :=
        ⟨limit config.maxPerfork, poolStringToMethod config.modePerfork,
          poolStringToAction cfgActPerfork⟩
      ruleGlobal := ⟨limit config.maxGlobal, poolStringToMethod config.modeGlobal,
        poolStringToAction cfgActGlobal⟩ }
  { s.setLife id (.live data) with
    -- an interval that is found is not used
    poolInterval :=
      if config.poolInterval.isNone then poolIntervalDefault else s.poolInterval
    watchOne := s.watchOne.add (some id)
    watchPerfork :=
      if config.maxPerfork.isSome then s.watchPerfork.add (some (parent.getD id))
      else s.watchPerfork
    watchGlobal :=
      if config.maxGlobal.isSome then s.watchGlobal.add (some id) else s.watchGlobal }

/-- `pool_configure`, behind `pool_init`. -/
def poolConfigure (id : Nat) (now : UInt64) (childs : Nat) (config : PoolConfig)
    (s : Pools W) : Except PoolStop (Pools W) :=
  match s.life id with
  | .unused => .ok (poolConfigureAny id none id now childs config (poolInit s))
  | _ => .error .refused

/-- `pool_fork`, behind `pool_init`. -/
def poolFork (id parent : Nat) (now : UInt64) (childs : Nat) (config : PoolConfig)
    (s : Pools W) : Except PoolStop (Pools W) :=
  match s.life id, s.life parent with
  | .unused, .live p =>
      let s := poolInit s
      let p := { p with perforkChildsOwn := p.perforkChildsOwn.add (some id) }
      .ok (poolConfigureAny id (some parent) parent now childs config
        (s.setLife parent (.live p)))
  | _, _ => .error .refused

/-- A fork takes itself off the list of the pool that it was forked from, which is in
the userdata of that pool. -/
def poolLeave (id : Nat) (d : PoolData) (s : Pools W) : Except PoolStop (Pools W) :=
  if d.perforkChilds = id then .ok s
  else
    match s.life d.perforkChilds with
    | .live p =>
        let p := { p with perforkChildsOwn := p.perforkChildsOwn.delete (some id) }
        .ok (s.setLife d.perforkChilds (.live p))
    | _ => .error .freed

def poolUnwatch (id : Nat) (s : Pools W) : Pools W :=
  { s.setLife id .freed with
    watchOne := s.watchOne.delete (some id)
    watchPerfork := s.watchPerfork.delete (some id)
    watchGlobal := s.watchGlobal.delete (some id)
    runningPools := s.runningPools - 1 }

/-- The last pool takes the lists with it. -/
def poolLast (s : Pools W) : Pools W :=
  if s.runningPools = 0
    then { s with watchOne := [], watchPerfork := [], watchGlobal := [] } else s

/-- `pool_destroy`. -/
def poolDestroy (id : Nat) (s : Pools W) : Except PoolStop (Pools W) :=
  match s.life id with
  | .live d => do
      let s ← poolLeave id d s
      .ok (poolLast (poolUnwatch id s))
  | _ => .error .refused

/-! ## The thread -/

section

variable (E : Surroundings W)

/-- The surroundings of a list of pools, which `Surroundings` knows by their place. -/
def Surroundings.at (ids : List Nat) : Surroundings W where
  query i := E.query (ids.getD i 0)
  action i := E.action (ids.getD i 0)
  destroy i := E.destroy (ids.getD i 0)
  random := E.random

/-- `backend->userdata`. -/
def Pools.data (s : Pools W) (id : Nat) : Except PoolStop PoolData :=
  match s.life id with
  | .live d => .ok d
  | _ => .error .freed

/-- What an action leaves in a pool. -/
def Pools.put (s : Pools W) (r : Nat × Member) : Pools W :=
  match s.life r.1 with
  | .live d => s.setLife r.1 (.live { d with toMember := r.2 })
  | _ => s

/-- An action on the pools of a list, each of which is there once. -/
def onGroup (ids : List Nat) (f : Group W → Except OutOfFuel (Group W)) (s : Pools W) :
    Except PoolStop (Pools W) := do
  let datas ← ids.mapM s.data
  match f ⟨datas.map PoolData.toMember, s.world⟩ with
  | .error _ => .error .outOfFuel
  | .ok g => .ok { (ids.zip g.members).foldl Pools.put s with world := g.world }

/-- `pool_group_limit`, for a list of pools. -/
def poolListLimit (n : Nat) (rule : Rule) (ids : List Nat) (s : Pools W) :
    Except PoolStop (Pools W) :=
  onGroup ids (fun g => (poolGroupLimit (E.at ids) n rule g).map Prod.snd) s

/-- The parameter of the only member is updated, and its own limit is looked at. -/
def poolUpdate (rule : Rule) (g : Group W) : Group W :=
  match g.members[0]? with
  | none => g
  | some m =>
      let (parameter, w) := poolParameterGet E 0 m g.world
      let g : Group W := ⟨g.members.set 0 { m with usageParameter := parameter }, w⟩
      if parameter > rule.limit then poolBackendAction E rule 0 g else g

def updateOne (id : Nat) (s : Pools W) : Except PoolStop (Pools W) := do
  let d ← s.data id
  onGroup [id] (fun g => .ok (poolUpdate (E.at [id]) d.ruleOne g)) s

def limitPerfork (n id : Nat) (s : Pools W) : Except PoolStop (Pools W) := do
  let d ← s.data id
  if d.rulePerfork.limit = uintmaxMax then return s
  let owner ← s.data d.perforkChilds
  poolListLimit E n d.rulePerfork owner.perforkChildsOwn.items s

def limitGlobal (n id : Nat) (s : Pools W) : Except PoolStop (Pools W) := do
  let d ← s.data id
  if d.ruleGlobal.limit = uintmaxMax then return s
  poolListLimit E n d.ruleGlobal s.watchGlobal.items s

/-- A round of `pool_main_thread`. -/
def poolRound (n : Nat) (s : Pools W) : Except PoolStop (Pools W) := do
  let s ← s.watchOne.items.foldlM (fun s id => updateOne E id s) s
  let s ← s.watchPerfork.items.foldlM (fun s id => limitPerfork E n id s) s
  s.watchGlobal.items.foldlM (fun s id => limitGlobal E n id s) s

/-! ## Runs -/

/-- What happens. -/
inductive PoolEvent where
  | configure (id : Nat) (now : UInt64) (childs : Nat) (config : PoolConfig)
  | fork (id parent : Nat) (now : UInt64) (childs : Nat) (config : PoolConfig)
  | destroy (id : Nat)
  | round (n : Nat)

def poolStep (s : Pools W) : PoolEvent → Except PoolStop (Pools W)
  | .configure id now childs config => poolConfigure id now childs config s
  | .fork id parent now childs config => poolFork id parent now childs config s
  | .destroy id => poolDestroy id s
  | .round n => poolRound E n s

def poolRun (events : List PoolEvent) (s : Pools W) : Except PoolStop (Pools W) :=
  events.foldlM (poolStep E) s

end

/-! ## What is on the lists -/

/-- The lists and the pools that there are. -/
structure Listed (s : Pools W) : Prop where
  one_nodup : s.watchOne.items.Nodup
  one : ∀ id, id ∈ s.watchOne.items ↔ ∃ d, s.life id = .live d
  global_nodup : s.watchGlobal.items.Nodup
  global : ∀ id ∈ s.watchGlobal.items, ∃ d, s.life id = .live d
  limited : ∀ id d, s.life id = .live d → d.ruleGlobal.limit ≠ uintmaxMax →
  id ∈ s.watchGlobal.items
  /-- a pool with a limit for forks has put the owner of its list there -/
  perfork : ∀ id d p, s.life id = .live d → d.rulePerfork.limit ≠ uintmaxMax →
    s.life d.perforkChilds = .live p → d.perforkChilds ∈ s.watchPerfork.items
  own_nodup : ∀ p d, s.life p = .live d → d.perforkChildsOwn.items.Nodup
  own : ∀ p d, s.life p = .live d → ∀ id, id ∈ d.perforkChildsOwn.items ↔
    id ≠ p ∧ ∃ d', s.life id = .live d' ∧ d'.perforkChilds = p
  owner : ∀ id d, s.life id = .live d → s.life d.perforkChilds ≠ .unused
  forked : ∀ id d, s.life id = .live d → d.forked = decide (d.perforkChilds ≠ id)

/-- And their number. -/
structure Watched (s : Pools W) : Prop extends Listed s where
  running : s.runningPools = s.watchOne.items.length

section

variable {s s' : Pools W} {id : Nat}

theorem Watched.not_live (h : Watched s) (hzero : s.runningPools = 0) (id : Nat)
    (d : PoolData) : s.life id ≠ .live d := by
  intro hlive
  have hmem := (h.one id).mpr ⟨d, hlive⟩
  have hlength := h.running
  rw [hzero] at hlength
  rw [List.eq_nil_of_length_eq_zero hlength.symm] at hmem
  cases hmem

/-- Without pools the lists may be empty. -/
theorem Listed.of_not_live (hone : s.watchOne = []) (hglobal : s.watchGlobal = [])
    (h : ∀ id d, s.life id ≠ .live d) : Listed s where
  one_nodup := by simp [hone]
  one id := by simpa [hone] using h id
  global_nodup := by simp [hglobal]
  global id hid := by simp [hglobal] at hid
  limited id d hd := absurd hd (h id d)
  perfork id d _ hd := absurd hd (h id d)
  own_nodup p d hd := absurd hd (h p d)
  own p d hd := absurd hd (h p d)
  owner id d hd := absurd hd (h id d)
  forked id d hd := absurd hd (h id d)

theorem poolInit_life (s : Pools W) : (poolInit s).life = s.life := by
  unfold poolInit
  split <;> rfl

/-- The first pool finds the lists empty. -/
theorem Watched.init (h : Watched s) :
    Listed (poolInit s) ∧
      (poolInit s).runningPools = (poolInit s).watchOne.items.length + 1 := by
  by_cases hzero : s.runningPools = 0
  · have hinit : poolInit s = { s with
        watchOne := [], watchPerfork := [], watchGlobal := [], runningPools := 1 } := by
      simp [poolInit, hzero]
    rw [hinit]
    exact ⟨.of_not_live rfl rfl (h.not_live hzero), rfl⟩
  · have hinit : poolInit s = { s with runningPools := s.runningPools + 1 } := by
      simp [poolInit, hzero]
    rw [hinit]
    exact ⟨⟨h.one_nodup, h.one, h.global_nodup, h.global, h.limited, h.perfork,
      h.own_nodup, h.own, h.owner, h.forked⟩, congrArg (· + 1) h.running⟩

/-! ## One more, one less -/

/-- A pool whose forks are `o`'s is on the list of `o`. -/
def Life.join (o id q : Nat) : Life → Life
  | .live d => .live (if q = o
    then { d with perforkChildsOwn := d.perforkChildsOwn.add (some id) } else d)
  | l => l

def Life.leave (o id q : Nat) : Life → Life
  | .live d => .live (if q = o
    then { d with perforkChildsOwn := d.perforkChildsOwn.delete (some id) } else d)
  | l => l

theorem Life.join_live {o q : Nat} {l : Life} {d' : PoolData} :
    l.join o id q = .live d' ↔
      ∃ d, l = .live d ∧ d' = if q = o
        then { d with perforkChildsOwn := d.perforkChildsOwn.add (some id) }
        else d := by
  cases l <;> simp [Life.join, eq_comm]

theorem Life.leave_live {o q : Nat} {l : Life} {d' : PoolData} :
    l.leave o id q = .live d' ↔
      ∃ d, l = .live d ∧
        d' = if q = o then { d
          with perforkChildsOwn := d.perforkChildsOwn.delete (some id) } else d := by
  cases l <;> simp [Life.leave, eq_comm]

/-- A new pool with the owner `o` of its list. -/
structure Joins (s s' : Pools W) (id o : Nat) (d : PoolData) : Prop where
  unused : s.life id = .unused
  there : o = id ∨ ∃ p, s.life o = .live p
  new : s'.life id = .live d
  others : ∀ q, q ≠ id → s'.life q = (s.life q).join o id q
  own : d.perforkChildsOwn = []
  owner : d.perforkChilds = o
  forked : d.forked = decide (o ≠ id)
  one : s'.watchOne = s.watchOne.add (some id)
  perfork : s'.watchPerfork = s.watchPerfork.add (some o) ∨
    d.rulePerfork.limit = uintmaxMax ∧ s'.watchPerfork = s.watchPerfork
  global : s'.watchGlobal = s.watchGlobal.add (some id) ∨
    d.ruleGlobal.limit = uintmaxMax ∧ s'.watchGlobal = s.watchGlobal

theorem nodup_add {l : Slots Nat} {a : Nat} (h : l.items.Nodup) (ha : a ∉ l.items) :
    (l.add (some a)).items.Nodup :=
  (Slots.items_add a l).nodup_iff.mpr (List.nodup_cons.mpr ⟨ha, h⟩)

section

variable {o : Nat} {d : PoolData}

/-- What a pool is that was there before. -/
theorem Joins.old (h : Joins s s' id o d) {q : Nat} {dq' : PoolData} (hq : q ≠ id) :
    s'.life q = .live dq' ↔ ∃ dq, s.life q = .live dq ∧
      dq' = if q = o then { dq
        with perforkChildsOwn := dq.perforkChildsOwn.add (some id) } else dq := by
  rw [h.others q hq, Life.join_live]

theorem Joins.live_iff (h : Joins s s' id o d) (q : Nat) :
    (∃ dq', s'.life q = .live dq') ↔ q = id ∨ ∃ dq, s.life q = .live dq := by
  by_cases hq : q = id
  · subst hq
    exact ⟨fun _ => .inl rfl, fun _ => ⟨d, h.new⟩⟩
  · rw [or_iff_right hq]
    constructor
    · rintro ⟨dq', hdq'⟩
      obtain ⟨dq, hdq, -⟩ := (h.old hq).mp hdq'
      exact ⟨dq, hdq⟩
    · rintro ⟨dq, hdq⟩
      exact ⟨_, (h.old hq).mpr ⟨dq, hdq, rfl⟩⟩

/-- What an old pool says of itself is what it said. -/
theorem Joins.old_data (h : Joins s s' id o d) {q : Nat} {dq' : PoolData} (hq : q ≠ id)
    (hdq' : s'.life q = .live dq') :
    ∃ dq, s.life q = .live dq ∧ dq'.perforkChilds = dq.perforkChilds ∧
      dq'.forked = dq.forked ∧
      dq'.rulePerfork = dq.rulePerfork ∧ dq'.ruleGlobal = dq.ruleGlobal := by
  obtain ⟨dq, hdq, rfl⟩ := (h.old hq).mp hdq'
  refine ⟨dq, hdq, ?_⟩
  split <;> exact ⟨rfl, rfl, rfl, rfl⟩

/-- Whose list a pool is on. -/
theorem Joins.owned_iff (h : Joins s s' id o d) (p q : Nat) :
    (∃ dq', s'.life q = .live dq' ∧ dq'.perforkChilds = p) ↔
      q = id ∧ o = p ∨ ∃ dq, s.life q = .live dq ∧ dq.perforkChilds = p := by
  by_cases hq : q = id
  · subst hq
    simp [h.new, h.owner, h.unused]
  · rw [or_iff_right fun hor => hq hor.1]
    constructor
    · rintro ⟨dq', hdq', howner⟩
      obtain ⟨dq, hdq, howner', -⟩ := h.old_data hq hdq'
      exact ⟨dq, hdq, howner' ▸ howner⟩
    · rintro ⟨dq, hdq, howner⟩
      refine ⟨_, (h.old hq).mpr ⟨dq, hdq, rfl⟩, ?_⟩
      split <;> exact howner

theorem Joins.mem_perfork (h : Joins s s' id o d) {q : Nat}
    (hq : q ∈ s.watchPerfork.items) : q ∈ s'.watchPerfork.items := by
  rcases h.perfork with hadd | ⟨-, hsame⟩
  · rw [hadd, Slots.mem_items_add]
    exact .inr hq
  · rwa [hsame]

theorem Joins.mem_global (h : Joins s s' id o d) {q : Nat}
    (hq : q ∈ s.watchGlobal.items) : q ∈ s'.watchGlobal.items := by
  rcases h.global with hadd | ⟨-, hsame⟩
  · rw [hadd, Slots.mem_items_add]
    exact .inr hq
  · rwa [hsame]

/-- **One more pool.** -/
theorem Listed.join (hs : Listed s) (h : Joins s s' id o d) : Listed s' where
  one_nodup := by
    rw [h.one]
    refine nodup_add hs.one_nodup fun hmem => ?_
    obtain ⟨d', hd'⟩ := (hs.one id).mp hmem
    rw [h.unused] at hd'
    cases hd'
  one q := by
    rw [h.one, Slots.mem_items_add, h.live_iff, hs.one]
  global_nodup := by
    rcases h.global with hadd | ⟨-, hsame⟩
    · rw [hadd]
      refine nodup_add hs.global_nodup fun hmem => ?_
      obtain ⟨d', hd'⟩ := hs.global id hmem
      rw [h.unused] at hd'
      cases hd'
    · rw [hsame]
      exact hs.global_nodup
  global q hq := by
    rw [h.live_iff]
    rcases h.global with hadd | ⟨-, hsame⟩
    · rw [hadd, Slots.mem_items_add] at hq
      exact hq.imp_right (hs.global q)
    · rw [hsame] at hq
      exact .inr (hs.global q hq)
  limited q dq' hdq' hlimit := by
    by_cases hq : q = id
    · subst hq
      rw [h.new] at hdq'
      cases hdq'
      rcases h.global with hadd | ⟨hmax, -⟩
      · rw [hadd, Slots.mem_items_add]
        exact .inl rfl
      · exact absurd hmax hlimit
    · obtain ⟨dq, hdq, -, -, -, hrule⟩ := h.old_data hq hdq'
      exact h.mem_global (hs.limited q dq hdq (hrule ▸ hlimit))
  perfork q dq' p' hdq' hlimit hp' := by
    by_cases hq : q = id
    · subst hq
      rw [h.new] at hdq'
      cases hdq'
      rcases h.perfork with hadd | ⟨hmax, -⟩
      · rw [hadd, Slots.mem_items_add, h.owner]
        exact .inl rfl
      · exact absurd hmax hlimit
    · obtain ⟨dq, hdq, howner, -, hrule, -⟩ := h.old_data hq hdq'
      have hne : dq.perforkChilds ≠ id := fun heq => hs.owner q dq hdq (heq ▸ h.unused)
      rw [howner] at hp' ⊢
      obtain ⟨p, hp, -⟩ := (h.old hne).mp hp'
      exact h.mem_perfork (hs.perfork q dq p hdq (hrule ▸ hlimit) hp)
  own_nodup p dp' hdp' := by
    by_cases hp : p = id
    · subst hp
      rw [h.new] at hdp'
      cases hdp'
      simp [h.own]
    · obtain ⟨dp, hdp, rfl⟩ := (h.old hp).mp hdp'
      split
      · refine nodup_add (hs.own_nodup p dp hdp) fun hmem => ?_
        obtain ⟨-, d', hd', -⟩ := (hs.own p dp hdp id).mp hmem
        rw [h.unused] at hd'
        cases hd'
      · exact hs.own_nodup p dp hdp
  own p dp' hdp' q := by
    rw [h.owned_iff]
    by_cases hp : p = id
    · subst hp
      rw [h.new] at hdp'
      cases hdp'
      rw [h.own]
      constructor
      · rintro ⟨⟩
      · rintro ⟨hne, ⟨rfl, -⟩ | ⟨dq, hdq, howner⟩⟩
        · exact absurd rfl hne
        · exact absurd h.unused (howner ▸ hs.owner q dq hdq)
    · obtain ⟨dp, hdp, rfl⟩ := (h.old hp).mp hdp'
      have hold := hs.own p dp hdp q
      split
      · next ho =>
          subst ho
          rw [Slots.mem_items_add, hold]
          constructor
          · rintro (rfl | ⟨hne, howned⟩)
            · exact ⟨Ne.symm hp, .inl ⟨rfl, rfl⟩⟩
            · exact ⟨hne, .inr howned⟩
          · rintro ⟨hne, ⟨rfl, -⟩ | howned⟩
            · exact .inl rfl
            · exact .inr ⟨hne, howned⟩
      · next ho =>
          rw [hold]
          refine and_congr_right fun _ => ?_
          rw [or_iff_right fun hor => ho hor.2.symm]
  owner q dq' hdq' hunused := by
    by_cases hq : q = id
    · subst hq
      rw [h.new] at hdq'
      cases hdq'
      rw [h.owner] at hunused
      by_cases ho : o = q
      · rw [ho, h.new] at hunused
        cases hunused
      · obtain ⟨p, hp⟩ := h.there.resolve_left ho
        rw [h.others o ho, hp] at hunused
        cases hunused
    · obtain ⟨dq, hdq, howner, -⟩ := h.old_data hq hdq'
      rw [howner] at hunused
      have hne : dq.perforkChilds ≠ id := fun heq => hs.owner q dq hdq (heq ▸ h.unused)
      rw [h.others _ hne] at hunused
      refine hs.owner q dq hdq ?_
      cases hlife : s.life dq.perforkChilds with
      | unused => rfl
      | live p => rw [hlife] at hunused; cases hunused
      | freed => rw [hlife] at hunused; cases hunused
  forked q dq' hdq' := by
    by_cases hq : q = id
    · subst hq
      rw [h.new] at hdq'
      cases hdq'
      rw [h.forked, h.owner]
    · obtain ⟨dq, hdq, howner, hforked, -⟩ := h.old_data hq hdq'
      rw [hforked, howner, hs.forked q dq hdq]

/-- A pool with the owner `o` of its list is destroyed. -/
structure Departs (s s' : Pools W) (id o : Nat) (d : PoolData) : Prop where
  old : s.life id = .live d
  owner : d.perforkChilds = o
  gone : s'.life id = .freed
  others : ∀ q, q ≠ id → s'.life q = (s.life q).leave o id q
  one : s'.watchOne.items = s.watchOne.items.erase id
  perfork : ∀ q, q ≠ id → q ∈ s.watchPerfork.items → q ∈ s'.watchPerfork.items
  global : s'.watchGlobal.items = s.watchGlobal.items.erase id

theorem Departs.rest (h : Departs s s' id o d) {q : Nat} {dq' : PoolData} (hq : q ≠ id) :
    s'.life q = .live dq' ↔ ∃ dq, s.life q = .live dq ∧
      dq' = if q = o then { dq
        with perforkChildsOwn := dq.perforkChildsOwn.delete (some id) } else dq := by
  rw [h.others q hq, Life.leave_live]

theorem Departs.ne (h : Departs s s' id o d) {q : Nat} {dq' : PoolData}
    (hdq' : s'.life q = .live dq') : q ≠ id := by
  rintro rfl
  rw [h.gone] at hdq'
  cases hdq'

theorem Departs.data (h : Departs s s' id o d) {q : Nat} {dq' : PoolData}
    (hdq' : s'.life q = .live dq') :
    ∃ dq, s.life q = .live dq ∧ dq'.perforkChilds = dq.perforkChilds ∧
      dq'.forked = dq.forked ∧
      dq'.rulePerfork = dq.rulePerfork ∧ dq'.ruleGlobal = dq.ruleGlobal := by
  obtain ⟨dq, hdq, rfl⟩ := (h.rest (h.ne hdq')).mp hdq'
  refine ⟨dq, hdq, ?_⟩
  split <;> exact ⟨rfl, rfl, rfl, rfl⟩

theorem Departs.live_iff (h : Departs s s' id o d) (q : Nat) :
    (∃ dq', s'.life q = .live dq') ↔ q ≠ id ∧ ∃ dq, s.life q = .live dq := by
  constructor
  · rintro ⟨dq', hdq'⟩
    obtain ⟨dq, hdq, -⟩ := h.data hdq'
    exact ⟨h.ne hdq', dq, hdq⟩
  · rintro ⟨hq, dq, hdq⟩
    exact ⟨_, (h.rest hq).mpr ⟨dq, hdq, rfl⟩⟩

theorem Departs.owned_iff (h : Departs s s' id o d) (p q : Nat) :
    (∃ dq', s'.life q = .live dq' ∧ dq'.perforkChilds = p) ↔
      q ≠ id ∧ ∃ dq, s.life q = .live dq ∧ dq.perforkChilds = p := by
  constructor
  · rintro ⟨dq', hdq', howner⟩
    obtain ⟨dq, hdq, howner', -⟩ := h.data hdq'
    exact ⟨h.ne hdq', dq, hdq, howner' ▸ howner⟩
  · rintro ⟨hq, dq, hdq, howner⟩
    refine ⟨_, (h.rest hq).mpr ⟨dq, hdq, rfl⟩, ?_⟩
    split <;> exact howner

/-- **One pool less.** -/
theorem Listed.leave (hs : Listed s) (h : Departs s s' id o d) : Listed s' where
  one_nodup := by
    rw [h.one]
    exact hs.one_nodup.erase id
  one q := by
    rw [h.one, hs.one_nodup.mem_erase_iff, h.live_iff, hs.one]
  global_nodup := by
    rw [h.global]
    exact hs.global_nodup.erase id
  global q hq := by
    rw [h.global, hs.global_nodup.mem_erase_iff] at hq
    exact (h.live_iff q).mpr ⟨hq.1, hs.global q hq.2⟩
  limited q dq' hdq' hlimit := by
    obtain ⟨dq, hdq, -, -, -, hrule⟩ := h.data hdq'
    rw [h.global, hs.global_nodup.mem_erase_iff]
    exact ⟨h.ne hdq', hs.limited q dq hdq (hrule ▸ hlimit)⟩
  perfork q dq' p' hdq' hlimit hp' := by
    obtain ⟨dq, hdq, howner, -, hrule, -⟩ := h.data hdq'
    obtain ⟨p, hp, -⟩ := h.data hp'
    have hne := h.ne hp'
    rw [howner] at hp hne ⊢
    exact h.perfork _ hne (hs.perfork q dq p hdq (hrule ▸ hlimit) hp)
  own_nodup p dp' hdp' := by
    obtain ⟨dp, hdp, rfl⟩ := (h.rest (h.ne hdp')).mp hdp'
    have hnodup := hs.own_nodup p dp hdp
    split
    · rw [Slots.items_delete]
      exact hnodup.erase id
    · exact hnodup
  own p dp' hdp' q := by
    obtain ⟨dp, hdp, rfl⟩ := (h.rest (h.ne hdp')).mp hdp'
    have hold := hs.own p dp hdp q
    rw [h.owned_iff]
    split
    · rw [Slots.items_delete, (hs.own_nodup p dp hdp).mem_erase_iff, hold]
      exact and_left_comm
    · next ho =>
        -- what is on another list is another pool
        rw [hold]
        refine and_congr_right fun _ => ⟨fun howned => ⟨?_, howned⟩, And.right⟩
        rintro rfl
        obtain ⟨dq, hdq, howner⟩ := howned
        rw [h.old] at hdq
        cases hdq
        exact ho (howner.symm.trans h.owner)
  owner q dq' hdq' hunused := by
    obtain ⟨dq, hdq, howner, -⟩ := h.data hdq'
    rw [howner] at hunused
    by_cases hgone : dq.perforkChilds = id
    · rw [hgone, h.gone] at hunused
      cases hunused
    · rw [h.others _ hgone] at hunused
      refine hs.owner q dq hdq ?_
      cases hlife : s.life dq.perforkChilds with
      | unused => rfl
      | live p => rw [hlife] at hunused; cases hunused
      | freed => rw [hlife] at hunused; cases hunused
  forked q dq' hdq' := by
    obtain ⟨dq, hdq, howner, hforked, -⟩ := h.data hdq'
    rw [hforked, howner, hs.forked q dq hdq]

end

/-! ## Steps -/

theorem setLife_life (s : Pools W) (id : Nat) (l : Life) (q : Nat) :
    (s.setLife id l).life q = if q = id then l else s.life q := by
  simp [Pools.setLife, Function.update_apply]

/-- What `pool_configure_any` puts on the lists, and where. -/
theorem configureAny_joins {o : Nat} {parent : Option Nat} {now : UInt64}
    {childs : Nat} {config : PoolConfig} {s₀ : Pools W} (hparent : parent.getD id = o)
    (hunused : s₀.life id = .unused) (hthere : o = id ∨ ∃ p, s₀.life o = .live p)
    (hlists : s.watchOne = s₀.watchOne ∧
      s.watchPerfork = s₀.watchPerfork ∧ s.watchGlobal = s₀.watchGlobal)
    (hlife : ∀ q, q ≠ id → s.life q = (s₀.life q).join o id q) :
    ∃ d, Joins s₀ (poolConfigureAny id parent o now childs config s) id o d := by
  obtain ⟨hone, hperfork, hglobal⟩ := hlists
  refine ⟨_, hunused, hthere, (setLife_life ..).trans (if_pos rfl), fun q hq => ?_,
    rfl, rfl, rfl, congrArg (Slots.add (some id)) hone, ?_, ?_⟩
  · exact ((setLife_life ..).trans (if_neg hq)).trans (hlife q hq)
  · cases hmax : config.maxPerfork with
    | none => exact .inr ⟨by simp, by simp [poolConfigureAny, hmax, hperfork]⟩
    | some max => exact .inl (by simp [poolConfigureAny, hmax, hparent, hperfork])
  · cases hmax : config.maxGlobal with
    | none => exact .inr ⟨by simp, by simp [poolConfigureAny, hmax, hglobal]⟩
    | some max => exact .inl (by simp [poolConfigureAny, hmax, hglobal])

theorem poolConfigure_joins {now : UInt64} {childs : Nat} {config : PoolConfig}
    (h : poolConfigure id now childs config s = .ok s') :
    (∃ d, Joins (poolInit s) s' id id d) ∧
      s'.runningPools = (poolInit s).runningPools := by
  unfold poolConfigure at h
  split at h
  · next hunused =>
      cases h
      refine ⟨configureAny_joins rfl (poolInit_life s ▸ hunused) (.inl rfl)
        ⟨rfl, rfl, rfl⟩ fun q hq => ?_, rfl⟩
      cases (poolInit s).life q with
      | live d => exact congrArg Life.live (if_neg hq).symm
      | unused => rfl
      | freed => rfl
  · cases h

theorem poolFork_joins {parent : Nat} {now : UInt64} {childs : Nat} {config : PoolConfig}
    (h : poolFork id parent now childs config s = .ok s') :
    (∃ d, Joins (poolInit s) s' id parent d) ∧
      s'.runningPools = (poolInit s).runningPools := by
  unfold poolFork at h
  split at h
  · next p hunused hlive =>
      cases h
      have hlive' : (poolInit s).life parent = .live p := poolInit_life s ▸ hlive
      refine ⟨configureAny_joins rfl (poolInit_life s ▸ hunused) (.inr ⟨p, hlive'⟩)
        ⟨rfl, rfl, rfl⟩ fun q hq => ?_, rfl⟩
      rw [setLife_life]
      split
      · next heq => rw [heq, hlive', Life.join, if_pos rfl]
      · next hne =>
          cases (poolInit s).life q with
          | live d => exact congrArg Life.live (if_neg hne).symm
          | unused => rfl
          | freed => rfl
  · cases h

/-- What is left of the owner of a list, and of all others. -/
theorem poolLeave_life {d : PoolData} (h : poolLeave id d s = .ok s') (q : Nat)
    (hq : q ≠ id) : s'.life q = (s.life q).leave d.perforkChilds id q := by
  unfold poolLeave at h
  split at h
  · next howner =>
      cases h
      cases s.life q with
      | live dq => exact congrArg Life.live (if_neg (howner ▸ hq)).symm
      | unused => rfl
      | freed => rfl
  · split at h
    · next p hp =>
        cases h
        rw [setLife_life]
        split
        · next heq => rw [heq, hp, Life.leave, if_pos rfl]
        · next hne =>
            cases s.life q with
            | live dq => exact congrArg Life.live (if_neg hne).symm
            | unused => rfl
            | freed => rfl
    · cases h

theorem poolLeave_lists {d : PoolData} (h : poolLeave id d s = .ok s') :
    s'.watchOne = s.watchOne ∧
    s'.watchPerfork = s.watchPerfork ∧ s'.watchGlobal = s.watchGlobal ∧
      s'.runningPools = s.runningPools := by
  unfold poolLeave at h
  split at h
  · cases h
    exact ⟨rfl, rfl, rfl, rfl⟩
  · split at h
    · cases h
      exact ⟨rfl, rfl, rfl, rfl⟩
    · cases h

/-- A pool less, and the lists with the last one. -/
theorem poolDestroy_departs (h : poolDestroy id s = .ok s') :
    ∃ o d s₁, Departs s s₁ id o d ∧
    s₁.watchPerfork = s.watchPerfork.delete (some id) ∧
      s₁.runningPools = s.runningPools - 1 ∧
    s' = poolLast s₁ := by
  unfold poolDestroy at h
  split at h
  · next d hlive =>
      obtain ⟨s₀, howner, hrest⟩ := ok_of_bind h
      cases hrest
      obtain ⟨hone, hperfork, hglobal, hrunning⟩ := poolLeave_lists howner
      refine ⟨d.perforkChilds, d, poolUnwatch id s₀,
        ⟨hlive, rfl, (setLife_life ..).trans (if_pos rfl), fun q hq => ?_,
        ?_, fun q hq hmem => ?_, ?_⟩, ?_, ?_, rfl⟩
      · exact ((setLife_life ..).trans (if_neg hq)).trans (poolLeave_life howner q hq)
      · rw [poolUnwatch, hone, Slots.items_delete]
      · rw [poolUnwatch, hperfork, Slots.items_delete]
        exact (List.mem_erase_of_ne hq).mpr hmem
      · rw [poolUnwatch, hglobal, Slots.items_delete]
      · rw [poolUnwatch, hperfork]
      · rw [poolUnwatch, hrunning]
  · cases h

/-! ## The thread does not touch the lists -/

/-- What an action does not change of a member. -/
def Member.Alike (m m' : Member) : Prop :=
  m'.createdOn = m.createdOn ∧ m'.usageTicksLast = m.usageTicksLast ∧
  m'.parameter = m.parameter ∧
    m'.forked = m.forked

theorem Member.Alike.refl (m : Member) : m.Alike m := ⟨rfl, rfl, rfl, rfl⟩

theorem Member.Alike.trans {m₁ m₂ m₃ : Member} (h : m₁.Alike m₂) (h' : m₂.Alike m₃) :
    m₁.Alike m₃ :=
  ⟨h'.1.trans h.1, h'.2.1.trans h.2.1, h'.2.2.1.trans h.2.2.1, h'.2.2.2.trans h.2.2.2⟩

theorem Member.Alike.symm {m₁ m₂ : Member} (h : m₁.Alike m₂) : m₂.Alike m₁ :=
  ⟨h.1.symm, h.2.1.symm, h.2.2.1.symm, h.2.2.2.symm⟩

/-- Members that are alike, one by one. -/
abbrev AllAlike (ms ms' : List Member) : Prop := List.Forall₂ Member.Alike ms ms'

theorem AllAlike.refl {ms : List Member} : AllAlike ms ms :=
  List.forall₂_same.mpr fun m _ => Member.Alike.refl m

theorem AllAlike.trans {ms₁ ms₂ ms₃ : List Member} (h : AllAlike ms₁ ms₂)
    (h' : AllAlike ms₂ ms₃) : AllAlike ms₁ ms₃ := by
  induction h generalizing ms₃ with
  | nil => exact h'
  | cons hm _ ih =>
      obtain _ | ⟨hm', hrest⟩ := h'
      exact .cons (hm.trans hm') (ih hrest)

theorem allAlike_set {ms : List Member} {i : Nat} {m m' : Member}
    (hi : ms[i]? = some m) (h : m.Alike m') : AllAlike ms (ms.set i m') := by
  induction ms generalizing i with
  | nil => simp at hi
  | cons a ms ih =>
      cases i with
      | zero =>
          obtain rfl := Option.some.inj hi
          exact .cons h AllAlike.refl
      | succ i => exact .cons (.refl a) (ih hi)

end

section

variable {E : Surroundings W} {rule : Rule}

theorem poolAct_alike (i : Nat) (m : Member) (w : W) :
    m.Alike (poolAct E rule i m w).1 := by
  unfold poolAct
  split
  · split <;> exact ⟨rfl, rfl, rfl, rfl⟩
  · exact .refl m

theorem poolBackendAction_alike (i : Nat) (g : Group W) :
    AllAlike g.members (poolBackendAction E rule i g).members := by
  unfold poolBackendAction
  cases hi : g.members[i]? with
  | none => exact AllAlike.refl
  | some m => exact allAlike_set hi (poolAct_alike i m g.world)

theorem poolRepeat_alike {n : Nat} {g g' : Group W} {acted : List Nat}
    (h : poolRepeat E rule n g = .ok (acted, g')) : AllAlike g.members g'.members := by
  induction n generalizing g acted with
  | zero => cases h
  | succ n ih =>
      rw [poolRepeat] at h
      split at h
      · split at h
        · cases h
          exact AllAlike.refl
        · next i w _ =>
            obtain ⟨⟨acted', g₁⟩, hrest, hend⟩ := ok_of_bind h
            cases hend
            exact (poolBackendAction_alike i { g with world := w }).trans (ih hrest)
      · cases h
        exact AllAlike.refl

theorem poolGroupLimit_alike {n : Nat} {g g' : Group W} {acted : List Nat}
    (h : poolGroupLimit E n rule g = .ok (acted, g')) :
    AllAlike g.members g'.members := by
  unfold poolGroupLimit at h
  split at h
  · cases h
    exact AllAlike.refl
  · split at h
    · cases h
      exact AllAlike.refl
    · exact poolRepeat_alike h

theorem poolUpdate_alike (g : Group W) :
    AllAlike g.members (poolUpdate E rule g).members := by
  unfold poolUpdate
  cases hi : g.members[0]? with
  | none => exact AllAlike.refl
  | some m =>
      simp only
      generalize poolParameterGet E 0 m g.world = r
      have hset : AllAlike g.members (g.members.set 0 { m with usageParameter := r.1 }) :=
        allAlike_set hi ⟨rfl, rfl, rfl, rfl⟩
      split
      · exact hset.trans (poolBackendAction_alike 0 ⟨_, r.2⟩)
      · exact hset

/-- A pool is what it was, up to what actions change of it. -/
inductive Life.Kept : Life → Life → Prop
  | unused : Kept .unused .unused
  | live {d : PoolData} {m : Member} : d.toMember.Alike m →
      Kept (.live d) (.live { d with toMember := m })
  | freed : Kept .freed .freed

/-- The lists are what they were, and the pools too. -/
structure Kept (s s' : Pools W) : Prop where
  running : s'.runningPools = s.runningPools
  one : s'.watchOne = s.watchOne
  perfork : s'.watchPerfork = s.watchPerfork
  global : s'.watchGlobal = s.watchGlobal
  life : ∀ q, (s.life q).Kept (s'.life q)

theorem Life.Kept.refl {l : Life} : l.Kept l := by
  cases l with
  | unused => exact .unused
  | live d => exact .live (.refl d.toMember)
  | freed => exact .freed

theorem Life.Kept.trans {l₁ l₂ l₃ : Life} (h : l₁.Kept l₂) (h' : l₂.Kept l₃) :
    l₁.Kept l₃ := by
  cases h with
  | unused => exact h'
  | freed => exact h'
  | @live d m hm =>
      obtain _ | hm' := h'
      exact .live (hm.trans hm')

theorem Kept.refl {s : Pools W} : Kept s s := ⟨rfl, rfl, rfl, rfl, fun _ => .refl⟩

theorem Kept.trans {s₁ s₂ s₃ : Pools W} (h : Kept s₁ s₂) (h' : Kept s₂ s₃) : Kept s₁ s₃ :=
  ⟨h'.running.trans h.running, h'.one.trans h.one, h'.perfork.trans h.perfork,
    h'.global.trans h.global, fun q => (h.life q).trans (h'.life q)⟩

theorem put_kept {s : Pools W} {r : Nat × Member} {d : PoolData}
    (h : s.life r.1 = .live d) (halike : d.toMember.Alike r.2) : Kept s (s.put r) := by
  unfold Pools.put
  rw [h]
  refine ⟨rfl, rfl, rfl, rfl, fun q => ?_⟩
  simp only [setLife_life]
  split
  · next heq =>
      rw [heq, h]
      exact .live halike
  · exact .refl

theorem foldl_put_kept {rs : List (Nat × Member)} {s : Pools W}
    (h : ∀ r ∈ rs, ∃ d, s.life r.1 = .live d ∧ d.toMember.Alike r.2) :
    Kept s (rs.foldl Pools.put s) := by
  induction rs generalizing s with
  | nil => exact .refl
  | cons r rs ih =>
      obtain ⟨d, hd, halike⟩ := h r (List.mem_cons_self ..)
      have hkept := put_kept hd halike
      refine hkept.trans (ih fun r' hr' => ?_)
      obtain ⟨d', hd', halike'⟩ := h r' (List.mem_cons_of_mem r hr')
      have hlife := hkept.life r'.1
      rw [hd'] at hlife
      generalize hnew : (s.put r).life r'.1 = l at hlife
      obtain _ | hm := hlife
      exact ⟨_, rfl, hm.symm.trans halike'⟩

theorem mapM_data {s : Pools W} {ids : List Nat} {datas : List PoolData}
    (h : ids.mapM s.data = .ok datas) :
    List.Forall₂ (fun id d => s.life id = .live d) ids datas := by
  induction ids generalizing datas with
  | nil =>
      cases h
      exact .nil
  | cons id ids ih =>
      rw [List.mapM_cons] at h
      obtain ⟨d, hd, h⟩ := ok_of_bind h
      obtain ⟨ds, hds, h⟩ := ok_of_bind h
      cases h
      refine .cons ?_ (ih hds)
      unfold Pools.data at hd
      split at hd
      · next d' hlife =>
          cases hd
          exact hlife
      · cases hd

theorem forall_zip {R : Member → Member → Prop} {s : Pools W} {ids : List Nat}
    {datas : List PoolData} {ms : List Member}
    (hdatas : List.Forall₂ (fun id d => s.life id = .live d) ids datas)
    (halike : List.Forall₂ R (datas.map PoolData.toMember) ms) :
    ∀ r ∈ ids.zip ms, ∃ d, s.life r.1 = .live d ∧ R d.toMember r.2 := by
  induction hdatas generalizing ms with
  | nil => simp
  | @cons id d ids datas hd _ ih =>
      obtain _ | ⟨hm, hrest⟩ := halike
      rintro r hr
      rcases List.mem_cons.mp hr with rfl | hr
      · exact ⟨d, hd, hm⟩
      · exact ih hrest r hr

theorem onGroup_kept {ids : List Nat} {f : Group W → Except OutOfFuel (Group W)}
    {s s' : Pools W} (hf : ∀ g g', f g = .ok g' → AllAlike g.members g'.members)
    (h : onGroup ids f s = .ok s') : Kept s s' := by
  obtain ⟨datas, hdatas, h⟩ := ok_of_bind h
  split at h
  · cases h
  · next g hg =>
      cases h
      have hkept := foldl_put_kept (forall_zip (mapM_data hdatas) (hf _ _ hg))
      exact ⟨hkept.running, hkept.one, hkept.perfork, hkept.global, hkept.life⟩

theorem poolListLimit_kept {n : Nat} {ids : List Nat} {s s' : Pools W}
    (h : poolListLimit E n rule ids s = .ok s') : Kept s s' := by
  refine onGroup_kept (fun g g' hg => ?_) h
  cases hlimit : poolGroupLimit (E.at ids) n rule g with
  | error e => simp [hlimit, Except.map] at hg
  | ok r =>
      rw [hlimit] at hg
      cases hg
      exact poolGroupLimit_alike hlimit

theorem updateOne_kept {id : Nat} {s s' : Pools W} (h : updateOne E id s = .ok s') :
    Kept s s' := by
  obtain ⟨d, -, h⟩ := ok_of_bind h
  refine onGroup_kept (fun g g' hg => ?_) h
  cases hg
  exact poolUpdate_alike g

theorem limitPerfork_kept {n id : Nat} {s s' : Pools W}
    (h : limitPerfork E n id s = .ok s') : Kept s s' := by
  obtain ⟨d, -, h⟩ := ok_of_bind h
  split at h
  · cases h
    exact .refl
  · obtain ⟨owner, -, h⟩ := ok_of_bind h
    exact poolListLimit_kept h

theorem limitGlobal_kept {n id : Nat} {s s' : Pools W}
    (h : limitGlobal E n id s = .ok s') : Kept s s' := by
  obtain ⟨d, -, h⟩ := ok_of_bind h
  split at h
  · cases h
    exact .refl
  · exact poolListLimit_kept h

theorem poolRound_kept {n : Nat} {s s' : Pools W} (h : poolRound E n s = .ok s') :
    Kept s s' := by
  obtain ⟨s₁, hone, h⟩ := ok_of_bind h
  obtain ⟨s₂, hperfork, hglobal⟩ := ok_of_bind h
  have h₁ : Kept s s₁ := foldlM_preserves
      (fun id _ _ _ hs hstep => hs.trans (updateOne_kept hstep)) .refl hone
  have h₂ : Kept s s₂ := foldlM_preserves
      (fun id _ _ _ hs hstep => hs.trans (limitPerfork_kept hstep)) h₁ hperfork
  exact foldlM_preserves (fun id _ _ _ hs hstep => hs.trans (limitGlobal_kept hstep))
    h₂ hglobal

end

/-! ## Runs -/

section

variable {E : Surroundings W} {s s' : Pools W}

theorem Kept.live (h : Kept s s') {q : Nat} {d' : PoolData} (hd' : s'.life q = .live d') :
    ∃ d m, s.life q = .live d ∧ d' = { d with toMember := m } ∧ d.toMember.Alike m := by
  have hlife := h.life q
  rw [hd'] at hlife
  generalize s.life q = l at hlife
  obtain _ | hm := hlife
  exact ⟨_, _, rfl, rfl, hm⟩

theorem Kept.live' (h : Kept s s') {q : Nat} {d : PoolData} (hd : s.life q = .live d) :
    ∃ m, s'.life q = .live { d with toMember := m } := by
  have hlife := h.life q
  rw [hd] at hlife
  generalize s'.life q = l at hlife
  obtain _ | hm := hlife
  exact ⟨_, rfl⟩

theorem Kept.live_iff (h : Kept s s') (q : Nat) :
    (∃ d, s'.life q = .live d) ↔ ∃ d, s.life q = .live d := by
  constructor
  · rintro ⟨d', hd'⟩
    obtain ⟨d, -, hd, -⟩ := h.live hd'
    exact ⟨d, hd⟩
  · rintro ⟨d, hd⟩
    obtain ⟨m, hm⟩ := h.live' hd
    exact ⟨_, hm⟩

theorem Watched.kept (hs : Watched s) (h : Kept s s') : Watched s' where
  one_nodup := h.one ▸ hs.one_nodup
  one q := by rw [h.one, h.live_iff, hs.one]
  global_nodup := h.global ▸ hs.global_nodup
  global q hq := (h.live_iff q).mpr (hs.global q (h.global ▸ hq))
  limited q d' hd' hlimit := by
    obtain ⟨d, m, hd, rfl, -⟩ := h.live hd'
    rw [h.global]
    exact hs.limited q d hd hlimit
  perfork q d' p' hd' hlimit hp' := by
    obtain ⟨d, m, hd, rfl, -⟩ := h.live hd'
    obtain ⟨p, m', hp, -⟩ := h.live hp'
    rw [h.perfork]
    exact hs.perfork q d p hd hlimit hp
  own_nodup p d' hd' := by
    obtain ⟨d, m, hd, rfl, -⟩ := h.live hd'
    exact hs.own_nodup p d hd
  own p d' hd' q := by
    obtain ⟨d, m, hd, rfl, -⟩ := h.live hd'
    rw [hs.own p d hd q]
    refine and_congr_right fun _ => ⟨?_, ?_⟩
    · rintro ⟨dq, hdq, howner⟩
      obtain ⟨m', hm'⟩ := h.live' hdq
      exact ⟨_, hm', howner⟩
    · rintro ⟨dq', hdq', howner⟩
      obtain ⟨dq, m', hdq, rfl, -⟩ := h.live hdq'
      exact ⟨dq, hdq, howner⟩
  owner q d' hd' hunused := by
    obtain ⟨d, m, hd, rfl, -⟩ := h.live hd'
    have hlife := h.life d.perforkChilds
    rw [show s'.life d.perforkChilds = .unused from hunused] at hlife
    generalize hl : s.life d.perforkChilds = l at hlife
    cases hlife
    exact hs.owner q d hd hl
  forked q d' hd' := by
    obtain ⟨d, m, hd, rfl, hm⟩ := h.live hd'
    exact hm.2.2.2.trans (hs.forked q d hd)
  running := by rw [h.running, h.one, hs.running]

theorem Watched.joins {id o : Nat} {d : PoolData} (hs : Watched s)
    (h : Joins (poolInit s) s' id o d)
    (hrunning : s'.runningPools = (poolInit s).runningPools) : Watched s' := by
  obtain ⟨hlisted, hnumber⟩ := hs.init
  refine ⟨hlisted.join h, ?_⟩
  rw [hrunning, hnumber, h.one, (Slots.items_add id _).length_eq, List.length_cons]

theorem Watched.departs {id o : Nat} {d : PoolData} (hs : Watched s)
    (h : Departs s s' id o d) (hrunning : s'.runningPools = s.runningPools - 1) :
    Watched s' := by
  refine ⟨hs.toListed.leave h, ?_⟩
  rw [hrunning, h.one, List.length_erase_of_mem ((hs.one id).mpr ⟨d, h.old⟩), hs.running]

theorem Watched.last (hs : Watched s) : Watched (poolLast s) := by
  unfold poolLast
  split
  · next hzero => exact ⟨.of_not_live rfl rfl (hs.not_live hzero), hzero⟩
  · exact hs

/-- **What each step keeps.** -/
theorem Watched.step (hs : Watched s) {e : PoolEvent} (h : poolStep E s e = .ok s') :
    Watched s' := by
  cases e with
  | configure id now childs config =>
      obtain ⟨⟨d, hjoins⟩, hrunning⟩ := poolConfigure_joins h
      exact hs.joins hjoins hrunning
  | fork id parent now childs config =>
      obtain ⟨⟨d, hjoins⟩, hrunning⟩ := poolFork_joins h
      exact hs.joins hjoins hrunning
  | destroy id =>
      obtain ⟨o, d, s₁, hdeparts, -, hrunning, rfl⟩ := poolDestroy_departs h
      exact (hs.departs hdeparts hrunning).last
  | round n => exact hs.kept (poolRound_kept h)

theorem watched_empty (w : W) : Watched (Pools.empty w) :=
  ⟨.of_not_live rfl rfl (fun _ _ h => by cases h), rfl⟩

theorem watched_of_run {w : W} {events : List PoolEvent}
    (h : poolRun E events (Pools.empty w) = .ok s) : Watched s :=
  foldlM_preserves (fun _ _ _ _ hs hstep => hs.step hstep) (watched_empty w) h

/-! ## What stays on `watch_perfork` -/

/-- How often an event puts a pool on `watch_perfork`. -/
def PoolEvent.enters (q : Nat) : PoolEvent → Nat
  | .configure id _ _ config => if id = q ∧ config.maxPerfork.isSome then 1 else 0
  | .fork _ parent _ _ config => if parent = q ∧ config.maxPerfork.isSome then 1 else 0
  | .destroy _ => 0
  | .round _ => 0

def entered (events : List PoolEvent) (q : Nat) : Nat :=
  (events.map (PoolEvent.enters q)).sum

/-- A pool that was put there more than once was destroyed, and there have been
pools ever since. -/
def Left (E : Surroundings W) (w : W) (events : List PoolEvent) (q : Nat) : Prop :=
  ∃ before after, events = before ++ .destroy q :: after ∧ 2 ≤ entered before q ∧
    ∀ mid rest, after = mid ++ rest →
      ∃ s, poolRun E (before ++ .destroy q :: mid) (Pools.empty w) = .ok s ∧
      s.runningPools ≠ 0

theorem entered_concat (events : List PoolEvent) (e : PoolEvent) (q : Nat) :
    entered (events ++ [e]) q = entered events q + e.enters q := by
  simp [entered]

theorem poolRun_concat (events : List PoolEvent) (e : PoolEvent) (s : Pools W) :
    poolRun E (events ++ [e]) s = (poolRun E events s).bind fun s => poolStep E s e := by
  rw [poolRun, List.foldlM_append]
  simp only [List.foldlM_cons, List.foldlM_nil, bind_pure]
  rfl

theorem left_concat {w : W} {events : List PoolEvent} {e : PoolEvent} {q : Nat}
    (hrun : poolRun E (events ++ [e]) (Pools.empty w) = .ok s') :
    Left E w (events ++ [e]) q ↔
      (e = .destroy q ∧ 2 ≤ entered events q ∨ Left E w events q) ∧
      s'.runningPools ≠ 0 := by
  constructor
  · rintro ⟨before, after, hsplit, htwice, hlast⟩
    have hnonzero : s'.runningPools ≠ 0 := by
      obtain ⟨s₁, hs₁, hne⟩ := hlast after [] (List.append_nil after).symm
      rw [← hsplit, hrun] at hs₁
      cases hs₁
      exact hne
    refine ⟨?_, hnonzero⟩
    cases after using List.reverseRecOn with
    | nil =>
        obtain ⟨rfl, heq⟩ := List.append_inj' hsplit rfl
        exact .inl ⟨(List.cons.inj heq).1, htwice⟩
    | append_singleton after e' =>
        rw [← List.cons_append, ← List.append_assoc] at hsplit
        obtain ⟨rfl, -⟩ := List.append_inj' hsplit rfl
        exact .inr ⟨before, after, rfl, htwice,
          fun mid rest h => hlast mid (rest ++ [e']) (by rw [h, List.append_assoc])⟩
  · rintro ⟨⟨rfl, htwice⟩ | ⟨before, after, rfl, htwice, hlast⟩, hne⟩
    · refine ⟨events, [], rfl, htwice, fun mid rest h => ⟨s', ?_, hne⟩⟩
      rw [(List.append_eq_nil_iff.mp h.symm).1]
      exact hrun
    · refine ⟨before, after ++ [e], by simp, htwice, fun mid rest h => ?_⟩
      cases rest using List.reverseRecOn with
      | nil =>
          rw [List.append_nil] at h
          refine ⟨s', ?_, hne⟩
          rw [← h, ← hrun]
          simp
      | append_singleton rest e' =>
          rw [← List.append_assoc] at h
          exact hlast mid rest (List.append_inj' h rfl).1

/-- What is on `watch_perfork`, and how often. -/
structure Counted (E : Surroundings W) (w : W) (events : List PoolEvent)
    (s : Pools W) : Prop where
  unused : ∀ q, s.life q = .unused → s.watchPerfork.items.count q = 0 ∧
  entered events q = 0
  live : ∀ q d, s.life q = .live d → s.watchPerfork.items.count q = entered events q
  freed : ∀ q, s.life q = .freed → (q ∈ s.watchPerfork.items ↔ Left E w events q)
  left : ∀ q, Left E w events q → s.life q = .freed
  zero : s.runningPools = 0 → s.watchPerfork = []

/-- One more on `watch_perfork`, or not. -/
theorem count_add (l : Slots Nat) (o q : Nat) :
    (l.add (some o)).items.count q = l.items.count q + if o = q then 1 else 0 := by
  rw [(Slots.items_add o l).count_eq, List.count_cons]
  simp

theorem poolInit_perfork (hzero : s.runningPools = 0 → s.watchPerfork = []) :
    (poolInit s).watchPerfork = s.watchPerfork := by
  unfold poolInit
  split
  · next h => exact (hzero h).symm
  · rfl

theorem configureAny_count (s : Pools W) (id : Nat) (parent : Option Nat)
    (now : UInt64) (childs : Nat) (config : PoolConfig) (q : Nat) :
    (poolConfigureAny id parent (parent.getD id) now childs config
      s).watchPerfork.items.count q =
      s.watchPerfork.items.count q + if parent.getD id = q ∧ config.maxPerfork.isSome
        then 1 else 0 := by
  cases hmax : config.maxPerfork with
  | none => simp [poolConfigureAny, hmax]
  | some max => simp [poolConfigureAny, hmax, count_add]

section

variable {w : W} {events : List PoolEvent} {e : PoolEvent} {id o : Nat} {d : PoolData}

theorem Counted.joins (hs : Counted E w events s) (h : Joins (poolInit s) s' id o d)
    (hrun : poolRun E (events ++ [e]) (Pools.empty w) = .ok s')
    (hrunning : s'.runningPools = (poolInit s).runningPools) (hnot : ∀ q, e ≠ .destroy q)
    (henters : ∀ q, e.enters q ≠ 0 → q = o)
    (hcount : ∀ q, s'.watchPerfork.items.count q = s.watchPerfork.items.count q +
      e.enters q) :
    Counted E w (events ++ [e]) s' := by
  have hne : s'.runningPools ≠ 0 := by
    rw [hrunning]
    exact Nat.succ_ne_zero _
  have hid : s.life id = .unused := poolInit_life s ▸ h.unused
  have hothers : ∀ q, q ≠ id → s'.life q = (s.life q).join o id q := by
    intro q hq
    rw [h.others q hq, poolInit_life]
  have hnone : ∀ q, q ≠ id → (∀ dq, s.life q ≠ .live dq) → e.enters q = 0 := by
    intro q hq hdead
    by_contra hpos
    obtain rfl := henters q hpos
    obtain ⟨p, hp⟩ := h.there.resolve_left hq
    exact hdead p (poolInit_life s ▸ hp)
  refine ⟨fun q hq => ?_, fun q dq hq => ?_, fun q hq => ?_, fun q hq => ?_,
    fun hzero => absurd hzero hne⟩
  · have hqid : q ≠ id := by
      rintro rfl
      rw [h.new] at hq
      cases hq
    rw [hothers q hqid] at hq
    cases hlife : s.life q with
    | unused =>
        obtain ⟨hcount₀, hentered₀⟩ := hs.unused q hlife
        have hzero := hnone q hqid (by simp [hlife])
        rw [hcount, entered_concat, hcount₀, hentered₀, hzero]
        exact ⟨rfl, rfl⟩
    | live dq => rw [hlife] at hq; cases hq
    | freed => rw [hlife] at hq; cases hq
  · rw [hcount, entered_concat]
    by_cases hqid : q = id
    · subst hqid
      obtain ⟨hcount₀, hentered₀⟩ := hs.unused q hid
      rw [hcount₀, hentered₀]
    · rw [hothers q hqid, Life.join_live] at hq
      obtain ⟨dq', hdq', -⟩ := hq
      rw [hs.live q dq' hdq']
  · have hqid : q ≠ id := by
      rintro rfl
      rw [h.new] at hq
      cases hq
    rw [hothers q hqid] at hq
    cases hlife : s.life q with
    | unused => rw [hlife] at hq; cases hq
    | live dq => rw [hlife] at hq; cases hq
    | freed =>
        rw [left_concat hrun, or_iff_right fun h => hnot q h.1, and_iff_left hne,
          ← hs.freed q hlife,
          ← List.count_pos_iff, ← List.count_pos_iff, hcount,
          hnone q hqid (by simp [hlife]), Nat.add_zero]
  · rw [left_concat hrun, or_iff_right fun h => hnot q h.1] at hq
    have hfreed := hs.left q hq.1
    have hqid : q ≠ id := by
      rintro rfl
      rw [hid] at hfreed
      cases hfreed
    rw [hothers q hqid, hfreed]
    rfl

theorem Counted.kept (hs : Counted E w events s) (h : Kept s s')
    (hrun : poolRun E (events ++ [e]) (Pools.empty w) = .ok s')
    (hnot : ∀ q, e ≠ .destroy q) (henters : ∀ q, e.enters q = 0) :
    Counted E w (events ++ [e]) s' := by
  refine ⟨fun q hq => ?_, fun q dq hq => ?_, fun q hq => ?_, fun q hq => ?_,
    fun hzero => ?_⟩
  · have hlife := h.life q
    rw [hq] at hlife
    generalize hl : s.life q = l at hlife
    cases hlife
    rw [h.perfork, entered_concat, henters]
    exact hs.unused q hl
  · obtain ⟨dq', m, hdq', -⟩ := h.live hq
    rw [h.perfork, entered_concat, henters]
    exact hs.live q dq' hdq'
  · have hlife := h.life q
    rw [hq] at hlife
    generalize hl : s.life q = l at hlife
    cases hlife
    rw [left_concat hrun, or_iff_right fun h => hnot q h.1, h.perfork,
      hs.freed q hl, h.running]
    refine ⟨fun hleft => ⟨hleft, fun hzero => ?_⟩, And.left⟩
    have hmem := (hs.freed q hl).mpr hleft
    rw [hs.zero hzero] at hmem
    cases hmem
  · rw [left_concat hrun, or_iff_right fun h => hnot q h.1] at hq
    have hlife := h.life q
    rw [hs.left q hq.1] at hlife
    generalize s'.life q = l at hlife
    cases hlife
    rfl
  · rw [h.perfork, hs.zero (h.running ▸ hzero)]

theorem poolLast_life (s : Pools W) : (poolLast s).life = s.life := by
  unfold poolLast
  split <;> rfl

theorem poolLast_running (s : Pools W) : (poolLast s).runningPools = s.runningPools := by
  unfold poolLast
  split <;> rfl

theorem poolLast_perfork (s : Pools W) :
    (poolLast s).watchPerfork = if s.runningPools = 0 then [] else s.watchPerfork := by
  unfold poolLast
  split <;> rfl

theorem Counted.departs (hs : Counted E w events s) (hwatched : Watched (poolLast s'))
    (h : Departs s s' id o d)
    (hperfork : s'.watchPerfork = s.watchPerfork.delete (some id))
    (hrun : poolRun E (events ++ [.destroy id]) (Pools.empty w) = .ok (poolLast s')) :
    Counted E w (events ++ [.destroy id]) (poolLast s') := by
  have hcount : ∀ q, q ≠ id →
      s'.watchPerfork.items.count q = s.watchPerfork.items.count q := by
    intro q hq
    rw [hperfork, Slots.items_delete, List.count_erase_of_ne hq]
  have hentered : ∀ q, entered (events ++ [.destroy id]) q = entered events q :=
    fun q => entered_concat ..
  refine ⟨fun q hq => ?_, fun q dq hq => ?_, fun q hq => ?_, fun q hq => ?_,
    fun hzero => ?_⟩
  · rw [poolLast_life] at hq
    have hqid : q ≠ id := by
      rintro rfl
      rw [h.gone] at hq
      cases hq
    rw [h.others q hqid] at hq
    cases hlife : s.life q with
    | unused =>
        obtain ⟨hcount₀, hentered₀⟩ := hs.unused q hlife
        rw [poolLast_perfork, hentered, hentered₀]
        split
        · exact ⟨rfl, rfl⟩
        · exact ⟨(hcount q hqid).trans hcount₀, rfl⟩
    | live dq => rw [hlife] at hq; cases hq
    | freed => rw [hlife] at hq; cases hq
  · have hne : (poolLast s').runningPools ≠ 0 :=
      fun hzero => hwatched.not_live hzero q dq hq
    rw [poolLast_life] at hq
    rw [poolLast_running] at hne
    have hqid := h.ne hq
    obtain ⟨dq', hdq', -⟩ := h.data hq
    rw [poolLast_perfork, if_neg hne, hentered, hcount q hqid, hs.live q dq' hdq']
  · rw [left_concat hrun, poolLast_running, poolLast_perfork]
    rw [poolLast_life] at hq
    by_cases hzero : s'.runningPools = 0
    · simp [hzero]
    · rw [if_neg hzero, and_iff_left hzero]
      by_cases hqid : q = id
      · subst hqid
        have hnot : ¬ Left E w events q := fun hleft => by
          have hfreed := hs.left q hleft
          rw [h.old] at hfreed
          cases hfreed
        rw [or_iff_left hnot, and_iff_right rfl, ← List.count_pos_iff, hperfork,
          Slots.items_delete, List.count_erase_self, hs.live q d h.old]
        omega
      · rw [h.others q hqid] at hq
        have hne : PoolEvent.destroy id ≠ .destroy q :=
          fun heq => hqid (PoolEvent.destroy.inj heq).symm
        rw [or_iff_right fun h => hne h.1]
        cases hlife : s.life q with
        | unused => rw [hlife] at hq; cases hq
        | live dq => rw [hlife] at hq; cases hq
        | freed => rw [← hs.freed q hlife, ← List.count_pos_iff, ← List.count_pos_iff,
            hcount q hqid]
  · rw [left_concat hrun] at hq
    rw [poolLast_life]
    rcases hq.1 with ⟨heq, -⟩ | hleft
    · rw [← PoolEvent.destroy.inj heq]
      exact h.gone
    · have hfreed := hs.left q hleft
      have hqid : q ≠ id := by
        rintro rfl
        rw [h.old] at hfreed
        cases hfreed
      rw [h.others q hqid, hfreed]
      rfl
  · rw [poolLast_running] at hzero
    rw [poolLast_perfork, if_pos hzero]

end

theorem counted_empty (w : W) : Counted E w [] (Pools.empty w) where
  unused _ _ := ⟨rfl, rfl⟩
  live _ _ h := by cases h
  freed _ h := by cases h
  left q h := by
    obtain ⟨before, after, h, -⟩ := h
    simp at h
  zero _ := rfl

theorem Counted.step {w : W} {events : List PoolEvent} {e : PoolEvent}
    (hs : Counted E w events s) (hwatched : Watched s)
    (hrun : poolRun E events (Pools.empty w) = .ok s) (h : poolStep E s e = .ok s') :
    Counted E w (events ++ [e]) s' := by
  have hrun' : poolRun E (events ++ [e]) (Pools.empty w) = .ok s' := by
    rw [poolRun_concat, hrun]
    exact h
  cases e with
  | configure id now childs config =>
      obtain ⟨⟨d, hjoins⟩, hrunning⟩ := poolConfigure_joins h
      refine hs.joins hjoins hrun' hrunning (fun _ => PoolEvent.noConfusion)
        (fun q hq => ?_) fun q => ?_
      · simp only [PoolEvent.enters, ne_eq, ite_eq_right_iff, Classical.not_imp] at hq
        exact hq.1.1.symm
      · have h : poolConfigure id now childs config s = .ok s' := h
        unfold poolConfigure at h
        split at h
        · cases h
          have hcount := configureAny_count (poolInit s) id none now childs config q
          rw [poolInit_perfork hs.zero] at hcount
          exact hcount
        · cases h
  | fork id parent now childs config =>
      obtain ⟨⟨d, hjoins⟩, hrunning⟩ := poolFork_joins h
      refine hs.joins hjoins hrun' hrunning (fun _ => PoolEvent.noConfusion)
        (fun q hq => ?_) fun q => ?_
      · simp only [PoolEvent.enters, ne_eq, ite_eq_right_iff, Classical.not_imp] at hq
        exact hq.1.1.symm
      · have h : poolFork id parent now childs config s = .ok s' := h
        unfold poolFork at h
        split at h
        · cases h
          rw [← poolInit_perfork hs.zero]
          exact configureAny_count _ id (some parent) now childs config q
        · cases h
  | destroy id =>
      have hwatched' := hwatched.step h
      obtain ⟨o, d, s₁, hdeparts, hperfork, -, rfl⟩ := poolDestroy_departs h
      exact hs.departs hwatched' hdeparts hperfork hrun'
  | round n =>
      exact hs.kept (poolRound_kept h) hrun' (fun _ => PoolEvent.noConfusion) fun _ => rfl

theorem counted_of_run {w : W} {events : List PoolEvent}
    (h : poolRun E events (Pools.empty w) = .ok s) : Counted E w events s := by
  induction events using List.reverseRecOn generalizing s with
  | nil =>
      cases h
      exact counted_empty w
  | append_singleton events e ih =>
      have hconcat := h
      rw [poolRun_concat] at hconcat
      obtain ⟨s₀, hs₀, hstep⟩ := ok_of_bind hconcat
      exact (ih hs₀).step (watched_of_run hs₀) hs₀ hstep

/-- **A destroyed pool stays on `watch_perfork`** exactly if it was put there more than
once, itself or for its forks, and there have been pools ever since. -/
theorem stale_of_run {w : W} {events : List PoolEvent}
    (h : poolRun E events (Pools.empty w) = .ok s) (q : Nat) :
    q ∈ s.watchPerfork.items ∧ s.life q = .freed ↔ Left E w events q := by
  have hcounted := counted_of_run h
  constructor
  · rintro ⟨hmem, hfreed⟩
    exact (hcounted.freed q hfreed).mp hmem
  · intro hleft
    have hfreed := hcounted.left q hleft
    exact ⟨(hcounted.freed q hfreed).mpr hleft, hfreed⟩

/-- **The lists of the pool thread, in every run.**  `watch_one` has each pool that
there is once and nothing else, and `running_pools` is their number.  A pool with a
limit for all is on `watch_global`, once, and only pools are there.  The own list of a
pool is its forks; a fork that has a limit for forks is on the list of a pool on
`watch_perfork`, unless that pool is gone. -/
theorem pool_watches {w : W} {events : List PoolEvent}
    (h : poolRun E events (Pools.empty w) = .ok s) :
    (s.watchOne.items.Nodup ∧ (∀ q, q ∈ s.watchOne.items ↔ ∃ d, s.life q = .live d) ∧
      s.runningPools = s.watchOne.items.length) ∧
    (s.watchGlobal.items.Nodup ∧ s.watchGlobal.items ⊆ s.watchOne.items ∧
      ∀ q d, s.life q = .live d → d.ruleGlobal.limit ≠ uintmaxMax →
      q ∈ s.watchGlobal.items) ∧
    (∀ p d, s.life p = .live d → d.perforkChildsOwn.items.Nodup ∧ ∀ q,
      q ∈ d.perforkChildsOwn.items ↔
      q ≠ p ∧ ∃ d', s.life q = .live d' ∧ d'.perforkChilds = p) ∧
    ∀ q d p, s.life q = .live d → d.rulePerfork.limit ≠ uintmaxMax →
      s.life d.perforkChilds = .live p →
      d.perforkChilds ∈ s.watchPerfork.items ∧
      (d.perforkChilds ≠ q → q ∈ p.perforkChildsOwn.items) := by
  have hs := watched_of_run h
  refine ⟨⟨hs.one_nodup, hs.one, hs.running⟩,
    ⟨hs.global_nodup, fun q hq => ?_, hs.limited⟩, fun p d hd => ?_,
    fun q d p hd hlimit hp => ⟨hs.perfork q d p hd hlimit hp, fun hne => ?_⟩⟩
  · exact (hs.one q).mpr (hs.global q hq)
  · exact ⟨hs.own_nodup p d hd, hs.own p d hd⟩
  · exact (hs.own _ p hp q).mpr ⟨hne.symm, d, hd, rfl⟩

/-- A limit of two for the forks of a pool. -/
def twoForks : PoolConfig :=
  -- "one", "destroy"
  { parameter := some [111, 110, 101], modePerfork := none, modeGlobal := none,
    tickInterval := none
    action := some [100, 101, 115, 116, 114, 111, 121], actionOne :=
      none, actionPerfork := none
    actionGlobal := none, poolInterval := none, maxPerinstance := none, maxPerfork :=
      some 2, maxGlobal := none }

/-- A pool with a fork, which is destroyed, another pool, and the end of the first one. -/
def forkedOnce : List PoolEvent :=
  [.configure 0 1 0 twoForks, .fork 1 0 2 0 twoForks, .round 4,
    .configure 2 3 0 twoForks, .destroy 1, .destroy 0]

theorem pool_watches_forkedOnce :
    ∃ s, poolRun nothing forkedOnce (Pools.empty ()) = .ok s ∧
    s.watchOne.items.Nodup ∧ s.runningPools = s.watchOne.items.length := by
  obtain ⟨s, hs⟩ : ∃ s, poolRun nothing forkedOnce (Pools.empty ()) = .ok s := ⟨_, rfl⟩
  obtain ⟨⟨hnodup, -, hrunning⟩, -⟩ := pool_watches hs
  exact ⟨s, hs, hnodup, hrunning⟩

/-- The first pool is destroyed and still on `watch_perfork`. -/
theorem stale_forkedOnce : ∃ s, poolRun nothing forkedOnce (Pools.empty ()) = .ok s ∧
    (0 ∈ s.watchPerfork.items ∧ s.life 0 = .freed ↔ Left nothing () forkedOnce 0) ∧
      s.watchPerfork.items = [0, 2] := by
  exact ⟨_, rfl, stale_of_run rfl 0, rfl⟩

end

end Frozen.Chain
