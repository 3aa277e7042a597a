/-
# `Frozen.Chain.Pool` — the limits of backend/pool

`pool_group_limit` acts on one member of a group after the other until the parameters of
the members add up to less than the limit.  After each action it asks for the parameter
of that member again.  A member that is destroyed reads zero if its parameter is `one`,
or if it is asked with a request and is a fork: its childs are gone then.  Ticks stay
what they were, and so may what the childs of the initial backend say.

    usageParameter_destroyed   what a destroyed member reads
    limited_of_mortal          if those that have to go read zero then, the limit works
    pool_limits_iff            when it works
-/
import Frozen.Core.Base
import Frozen.Lib.Fuel
import Frozen.Lib.Rank

namespace Frozen.Chain

open Lib

variable {W : Type}

/-! ## Members and rules -/

inductive ParameterMethod where
  | request | one | ticks
deriving DecidableEq, Repr

inductive ChooseMethod where
  | random | first | last | highest | lowest
deriving DecidableEq, Repr

inductive ActionMethod where
  | destroy | request
deriving DecidableEq, Repr

/-- A rule, less `action_request`. -/
structure Rule where
  limit : UInt64
  mode : ChooseMethod
  action : ActionMethod
deriving DecidableEq, Repr

/-- What a group has to do with a backend and its `pool_userdata`. -/
structure Member where
  createdOn : UInt64
  usageParameter : UInt64
  usageTicksLast : UInt64
  parameter : ParameterMethod
  /-- `perfork_childs` is not its own -/
  forked : Bool
  /-- `list_count(&backend->childs)` -/
  childs : Nat
  /-- the handlers are `pool_backend_request_died` -/
  died : Bool
deriving DecidableEq, Repr

/-- `lchilds`, and the world around. -/
structure Group (W : Type) where
  members : List Member
  world : W
deriving DecidableEq

/-- What is behind the members. -/
structure Surroundings (W : Type) where
  /-- what the childs of a member leave in the buffer of `parameter_request` -/
  query : Nat → W → UInt64 × W
  /-- `action_request` at the childs of a member -/
  action : Nat → W → W
  /-- `backend_destroy` of all childs of a member.  There is no pool among them:
  `pool_destroy` would wait for the lists that the thread holds locked. -/
  destroy : Nat → W → W
  random : W → Nat × W

section

variable (E : Surroundings W)

/-- `pool_parameter_get`; without childs nobody writes to the buffer. -/
def poolParameterGet (i : Nat) (m : Member) (w : W) : UInt64 × W :=
  match m.parameter with
  | .one => (if m.died then 0 else 1, w)
  | .ticks => (m.usageTicksLast, w)
  | .request => if m.childs = 0 then (0, w) else E.query i w

/-- What the action is, before the parameter is updated. -/
def poolAct (rule : Rule) (i : Nat) (m : Member) (w : W) : Member × W :=
  match rule.action with
  | .destroy =>
      if m.forked then ({ m with died := true, childs := 0 }, E.destroy i w)
      else ({ m with died := true }, w)
  | .request => (m, if m.childs = 0 then w else E.action i w)

/-- `pool_backend_action`. -/
def poolBackendAction (rule : Rule) (i : Nat) (g : Group W) : Group W :=
  match g.members[i]? with
  | none => g
  | some m =>
      let (m, w) := poolAct E rule i m g.world
      let (parameter, w) := poolParameterGet E i m w
      ⟨g.members.set i { m with usageParameter := parameter }, w⟩

/-! ## A round -/

/-- `pool_kill_check`. -/
def poolKillCheck (moreless : Member → Member → Bool) (best : Option (Nat × Member))
    (curr : Nat × Member) : Option (Nat × Member) :=
  match best with
  | none => some curr
  | some b => if moreless curr.2 b.2 then some curr else some b

structure PoolScan where
  parameterGroup : UInt64
  first : Option (Nat × Member)
  last : Option (Nat × Member)
  low : Option (Nat × Member)
  high : Option (Nat × Member)

def poolScanStep (s : PoolScan) (i : Nat) (m : Member) : PoolScan :=
  if m.usageParameter = 0 then s
  else
    { parameterGroup := s.parameterGroup + m.usageParameter
      first := poolKillCheck (fun a b => a.createdOn < b.createdOn) s.first (i, m)
      last := poolKillCheck (fun a b => a.createdOn > b.createdOn) s.last (i, m)
      low := poolKillCheck (fun a b => a.usageParameter < b.usageParameter) s.low (i, m)
      high :=
        poolKillCheck (fun a b => a.usageParameter > b.usageParameter) s.high (i, m) }

/-- The loop over `lchilds`. -/
def poolScan (members : List Member) : PoolScan :=
  members.zipIdx.foldl (fun s m => poolScanStep s m.2 m.1) ⟨0, none, none, none, none⟩

/-- The victim. -/
def poolChoose (mode : ChooseMethod) (g : Group W) : Option Nat × W :=
  match mode with
  | .random => (some ((E.random g.world).1 % g.members.length), (E.random g.world).2)
  | .first => ((poolScan g.members).first.map Prod.fst, g.world)
  | .last => ((poolScan g.members).last.map Prod.fst, g.world)
  | .highest => ((poolScan g.members).high.map Prod.fst, g.world)
  | .lowest => ((poolScan g.members).low.map Prod.fst, g.world)

/-- `repeat`, with the members that were acted upon, in order. -/
def poolRepeat (rule : Rule) : Nat → Group W → Except OutOfFuel (List Nat × Group W)
  | 0, _ => .error .outOfFuel
  | n + 1, g =>
      if (poolScan g.members).parameterGroup ≥ rule.limit then
        match poolChoose E rule.mode g with
        | (none, w) => .ok ([], { g with world := w })
        | (some i, w) => do
            let (acted, g) ← poolRepeat rule n
              (poolBackendAction E rule i { g with world := w })
            return (i :: acted, g)
      else .ok ([], g)

/-- `pool_group_limit`. -/
def poolGroupLimit (n : Nat) (rule : Rule) (g : Group W) :
    Except OutOfFuel (List Nat × Group W) :=
  if rule.limit = uintmaxMax then .ok ([], g)
  else if g.members.length = 0 then .ok ([], g)
  else poolRepeat E rule n g

end

/-! ## What it should do -/

/-- The parameter of a member as a number. -/
def usageAt (members : List Member) (i : Nat) : Nat :=
  ((members[i]?).map fun m => m.usageParameter.toNat).getD 0

def usageSum (members : List Member) : Nat :=
  (members.map fun m => m.usageParameter.toNat).sum

/-- The lower, the sooner; `random` has no order. -/
def ChooseMethod.key (mode : ChooseMethod) (m : Member) : Nat :=
  match mode with
  | .random => 0
  | .first => m.createdOn.toNat
  | .last => 2 ^ 64 - m.createdOn.toNat
  | .highest => 2 ^ 64 - m.usageParameter.toNat
  | .lowest => m.usageParameter.toNat

def keyAt (mode : ChooseMethod) (members : List Member) (i : Nat) : Nat :=
  ((members[i]?).map mode.key).getD 0

/-- The members with something to take, in the order of the mode. -/
def ranking (mode : ChooseMethod) (members : List Member) : List Nat :=
  rank members.length (fun i => usageAt members i ≠ 0) (keyAt mode members)

/-- Those that have to go. -/
def victims (rule : Rule) (members : List Member) : List Nat :=
  shortest rule.limit.toNat (usageAt members) (usageSum members)
    (ranking rule.mode members)

/-- It ends, the limit is kept, and those that had to go are those that
were acted upon. -/
def Limited (E : Surroundings W) (rule : Rule) (g : Group W) : Prop :=
  ∃ g', Returns (fun n => poolGroupLimit E n rule g) (victims rule g.members, g') ∧
    usageSum g'.members < rule.limit.toNat

/-! ## The scan -/

/-- A member that the mode prefers. -/
def ChooseMethod.moreless (mode : ChooseMethod) (a b : Member) : Bool :=
  match mode with
  | .random => false
  | .first => a.createdOn < b.createdOn
  | .last => a.createdOn > b.createdOn
  | .highest => a.usageParameter > b.usageParameter
  | .lowest => a.usageParameter < b.usageParameter

def PoolScan.pick (s : PoolScan) : ChooseMethod → Option (Nat × Member)
  | .random => none
  | .first => s.first
  | .last => s.last
  | .highest => s.high
  | .lowest => s.low

theorem moreless_iff {mode : ChooseMethod} {a b : Member} (hmode : mode ≠ .random) :
    mode.moreless a b = true ↔ mode.key a < mode.key b := by
  have ha := a.createdOn.toNat_lt
  have hb := b.createdOn.toNat_lt
  have hua := a.usageParameter.toNat_lt
  have hub := b.usageParameter.toNat_lt
  cases mode with
  | random => exact absurd rfl hmode
  | first => simp only [ChooseMethod.moreless, ChooseMethod.key, decide_eq_true_eq,
      UInt64.lt_iff_toNat_lt]
  | last =>
      simp only [ChooseMethod.moreless, ChooseMethod.key, decide_eq_true_eq, gt_iff_lt,
        UInt64.lt_iff_toNat_lt]
      omega
  | highest =>
      simp only [ChooseMethod.moreless, ChooseMethod.key, decide_eq_true_eq, gt_iff_lt,
        UInt64.lt_iff_toNat_lt]
      omega
  | lowest => simp only [ChooseMethod.moreless, ChooseMethod.key, decide_eq_true_eq,
      UInt64.lt_iff_toNat_lt]

theorem poolChoose_eq {E : Surroundings W} {mode : ChooseMethod}
    (hmode : mode ≠ .random) (g : Group W) :
    poolChoose E mode g = (((poolScan g.members).pick mode).map Prod.fst, g.world) := by
  cases mode with
  | random => exact absurd rfl hmode
  | first => rfl
  | last => rfl
  | highest => rfl
  | lowest => rfl

theorem pick_step (mode : ChooseMethod) (hmode : mode ≠ .random) (s : PoolScan)
    (i : Nat) (m : Member) : (poolScanStep s i m).pick mode
      = if m.usageParameter = 0 then s.pick mode
        else poolKillCheck mode.moreless (s.pick mode) (i, m) := by
  rw [poolScanStep]
  split_ifs
  · rfl
  · cases mode with
    | random => exact absurd rfl hmode
    | first => rfl
    | last => rfl
    | highest => rfl
    | lowest => rfl

theorem poolScan_append (members : List Member) (m : Member) :
    poolScan (members ++ [m]) = poolScanStep (poolScan members) members.length m := by
  rw [poolScan, List.zipIdx_append, List.foldl_append]
  simp [poolScan]

theorem usageSum_append (members : List Member) (m : Member) :
    usageSum (members ++ [m]) = usageSum members + m.usageParameter.toNat := by
  simp [usageSum]

/-- `parameter_group`: the sum, but for what does not fit. -/
theorem poolScan_parameterGroup (members : List Member) :
    (poolScan members).parameterGroup.toNat = usageSum members % 2 ^ 64 := by
  induction members using List.reverseRecOn with
  | nil => rfl
  | append_singleton members m ih =>
      rw [poolScan_append, usageSum_append, poolScanStep]
      split_ifs with hzero
      · rw [hzero, UInt64.toNat_zero, Nat.add_zero, ih]
      · rw [UInt64.toNat_add, ih, Nat.mod_add_mod]

section

variable {members : List Member} {m : Member} {i : Nat} {mode : ChooseMethod}

theorem usageAt_of_some (h : members[i]? = some m) :
    usageAt members i = m.usageParameter.toNat := by
  rw [usageAt, h, Option.map_some, Option.getD_some]

theorem keyAt_of_some (h : members[i]? = some m) : keyAt mode members i = mode.key m := by
  rw [keyAt, h, Option.map_some, Option.getD_some]

theorem exists_of_usageAt (h : usageAt members i ≠ 0) :
    ∃ m, members[i]? = some m ∧ m.usageParameter ≠ 0 := by
  cases hm : members[i]? with
  | none => simp [usageAt, hm] at h
  | some m =>
      rw [usageAt_of_some hm] at h
      exact ⟨m, rfl, fun hzero => h (by rw [hzero, UInt64.toNat_zero])⟩

theorem usageAt_ne_zero (h : members[i]? = some m) (hm : m.usageParameter ≠ 0) :
    usageAt members i ≠ 0 := by
  rw [usageAt_of_some h]
  exact fun hzero => hm (UInt64.toNat_inj.mp hzero)

theorem mem_ranking : i ∈ ranking mode members ↔ usageAt members i ≠ 0 := by
  rw [ranking, mem_rank, decide_eq_true_eq, and_iff_right_iff_imp]
  intro h
  obtain ⟨m, hm, -⟩ := exists_of_usageAt h
  exact (List.getElem?_eq_some_iff.mp hm).1

end

/-- No member has anything to take, or this one comes first. -/
def Foremost (mode : ChooseMethod) (members : List Member) : Option (Nat × Member) → Prop
  | none => ∀ (j : Nat) (m' : Member), members[j]? = some m' → m'.usageParameter = 0
  | some (i, m) => members[i]? = some m ∧ m.usageParameter ≠ 0 ∧
      ∀ j m', members[j]? = some m' → m'.usageParameter ≠ 0 → j ≠ i →
        mode.key m < mode.key m' ∨ mode.key m = mode.key m' ∧ i < j

theorem getElem?_snoc {members : List Member} {m m' : Member} {j : Nat}
    (h : (members ++ [m])[j]? = some m') :
    j < members.length ∧ members[j]? = some m' ∨ j = members.length ∧ m' = m := by
  rw [List.getElem?_append] at h
  split_ifs at h with hj
  · exact .inl ⟨hj, h⟩
  · obtain ⟨hlt, heq⟩ := List.getElem?_eq_some_iff.mp h
    rw [List.length_singleton] at hlt
    rw [List.getElem_singleton] at heq
    exact .inr ⟨by omega, heq.symm⟩

/-- What one more member changes. -/
theorem Foremost.step {mode : ChooseMethod} (hmode : mode ≠ .random)
    {members : List Member} {best : Option (Nat × Member)}
    (h : Foremost mode members best) (m : Member) : Foremost mode (members ++ [m])
      (if m.usageParameter = 0 then best
        else poolKillCheck mode.moreless best (members.length, m)) := by
  cases best with
  | none =>
      split_ifs with hzero
      · intro j m' hj
        rcases getElem?_snoc hj with ⟨-, hold⟩ | ⟨-, rfl⟩
        · exact h j m' hold
        · exact hzero
      · refine ⟨List.getElem?_concat_length, hzero, fun j m' hj hne hji => ?_⟩
        rcases getElem?_snoc hj with ⟨-, hold⟩ | ⟨rfl, -⟩
        · exact absurd (h j m' hold) hne
        · exact absurd rfl hji
  | some b =>
      obtain ⟨i, b⟩ := b
      obtain ⟨hi, hb, hfirst⟩ := h
      have hlt : i < members.length := (List.getElem?_eq_some_iff.mp hi).1
      have hi' : (members ++ [m])[i]? = some b := by
        rw [List.getElem?_append_left hlt, hi]
      split_ifs with hzero
      · refine ⟨hi', hb, fun j m' hj hne hji => ?_⟩
        rcases getElem?_snoc hj with ⟨-, hold⟩ | ⟨-, rfl⟩
        · exact hfirst j m' hold hne hji
        · exact absurd hzero hne
      · have hless := @moreless_iff mode m b hmode
        rw [poolKillCheck]
        split_ifs with hbetter
        · rw [hless] at hbetter
          refine ⟨List.getElem?_concat_length, hzero, fun j m' hj hne hji => ?_⟩
          rcases getElem?_snoc hj with ⟨hlt', hold⟩ | ⟨rfl, -⟩
          · by_cases hji' : j = i
            · subst hji'
              rw [hi, Option.some_inj] at hold
              subst hold
              exact .inl hbetter
            · have hbefore := hfirst j m' hold hne hji'
              omega
          · exact absurd rfl hji
        · rw [hless] at hbetter
          refine ⟨hi', hb, fun j m' hj hne hji => ?_⟩
          rcases getElem?_snoc hj with ⟨-, hold⟩ | ⟨rfl, rfl⟩
          · exact hfirst j m' hold hne hji
          · omega

theorem foremost_scan {mode : ChooseMethod} (hmode : mode ≠ .random)
    (members : List Member) :
    Foremost mode members ((poolScan members).pick mode) := by
  induction members using List.reverseRecOn with
  | nil =>
      have hpick : (poolScan []).pick mode = none := by cases mode <;> rfl
      rw [hpick]
      exact fun j m' hj => absurd hj (by simp)
  | append_singleton members m ih =>
      rw [poolScan_append, pick_step mode hmode]
      exact ih.step hmode m

/-- The victim is the first of those that have something to take. -/
theorem poolChoose_iff {E : Surroundings W} {mode : ChooseMethod}
    (hmode : mode ≠ .random) {g : Group W} {x : Nat} {w : W} :
    poolChoose E mode g = (some x, w) ↔ w = g.world ∧ usageAt g.members x ≠ 0 ∧
      ∀ y, usageAt g.members y ≠ 0 → y ≠ x → Before (keyAt mode g.members) x y := by
  have hscan := foremost_scan hmode g.members
  rw [poolChoose_eq hmode]
  cases hpick : (poolScan g.members).pick mode with
  | none =>
      rw [hpick] at hscan
      constructor
      · intro h
        cases h
      · rintro ⟨-, hx, -⟩
        obtain ⟨m, hm, hne⟩ := exists_of_usageAt hx
        exact absurd (hscan x m hm) hne
  | some b =>
      obtain ⟨i, b⟩ := b
      rw [hpick] at hscan
      obtain ⟨hi, hb, hfirst⟩ := hscan
      have hbefore : ∀ y, usageAt g.members y ≠ 0 → y ≠ i →
          Before (keyAt mode g.members) i y := by
        intro y hy hyi
        obtain ⟨m', hm', hne⟩ := exists_of_usageAt hy
        rw [Before, keyAt_of_some hi, keyAt_of_some hm']
        exact hfirst y m' hm' hne hyi
      constructor
      · intro h
        obtain ⟨hx, rfl⟩ := Prod.mk.inj h
        obtain rfl := Option.some_inj.mp hx
        exact ⟨rfl, usageAt_ne_zero hi hb, hbefore⟩
      · rintro ⟨rfl, hx, hless⟩
        by_cases hxi : x = i
        · rw [hxi]
          rfl
        · have hix := hbefore x hx hxi
          have hxi' := hless i (usageAt_ne_zero hi hb) (Ne.symm hxi)
          unfold Before at hix hxi'
          omega

/-! ## The actions -/

/-- One action after the other. -/
def poolActions (E : Surroundings W) (rule : Rule) (is : List Nat) (g : Group W) :
    Group W :=
  is.foldl (fun g i => poolBackendAction E rule i g) g

section

variable {E : Surroundings W} {rule : Rule} {g : Group W} {m : Member} {i j : Nat}
  {is : List Nat}

theorem poolBackendAction_of_ne (h : j ≠ i) :
    (poolBackendAction E rule i g).members[j]? = g.members[j]? := by
  rw [poolBackendAction]
  cases g.members[i]? with
  | none => rfl
  | some m => exact List.getElem?_set_ne h.symm

theorem poolActions_of_not_mem (h : j ∉ is) :
    (poolActions E rule is g).members[j]? = g.members[j]? := by
  induction is generalizing g with
  | nil => rfl
  | cons i is ih =>
      rw [poolActions, List.foldl_cons]
      exact (ih (List.not_mem_of_not_mem_cons h)).trans
        (poolBackendAction_of_ne (List.ne_of_not_mem_cons h))

theorem usageAt_of_not_mem (h : j ∉ is) :
    usageAt (poolActions E rule is g).members j = usageAt g.members j := by
  rw [usageAt, poolActions_of_not_mem h, usageAt]

theorem keyAt_of_not_mem {mode : ChooseMethod} (h : j ∉ is) :
    keyAt mode (poolActions E rule is g).members j = keyAt mode g.members j := by
  rw [keyAt, poolActions_of_not_mem h, keyAt]

/-- **What a destroyed member reads.** -/
theorem usageParameter_destroyed (hi : g.members[i]? = some m)
    (hdestroy : rule.action = .destroy) :
    usageAt (poolBackendAction E rule i g).members i =
      match m.parameter with
      | .one => 0
      | .ticks => m.usageTicksLast.toNat
      | .request => if m.forked = true ∨ m.childs = 0 then 0
          else (E.query i g.world).1.toNat := by
  have hlt := (List.getElem?_eq_some_iff.mp hi).1
  rw [poolBackendAction, hi]
  simp only
  rw [usageAt_of_some (List.getElem?_set_self hlt), poolAct, hdestroy]
  cases hfork : m.forked <;> cases hparam : m.parameter <;> simp [poolParameterGet]
  by_cases hchilds : m.childs = 0 <;> simp [hchilds]

end

/-! ## The loop -/

/-- The loop acts on this member next. -/
def Takes (rule : Rule) (members : List Member) (x : Nat) : Prop :=
  rule.limit.toNat ≤ usageSum members % 2 ^ 64 ∧ usageAt members x ≠ 0 ∧
    ∀ y, usageAt members y ≠ 0 → y ≠ x → Before (keyAt rule.mode members) x y

theorem usageSum_eq_zero {members : List Member} (h : ∀ i, usageAt members i = 0) :
    usageSum members = 0 := by
  rw [usageSum, List.sum_eq_zero_iff]
  intro u hu
  obtain ⟨m, hm, rfl⟩ := List.mem_map.mp hu
  obtain ⟨i, hi⟩ := List.mem_iff_getElem?.mp hm
  rw [← usageAt_of_some hi, h i]

section

variable {E : Surroundings W} {rule : Rule}

theorem limit_le_iff {members : List Member} :
    (poolScan members).parameterGroup ≥ rule.limit ↔
      rule.limit.toNat ≤ usageSum members % 2 ^ 64 := by
  rw [ge_iff_le, UInt64.le_iff_toNat_le, poolScan_parameterGroup]

/-- Above the limit there is a victim. -/
theorem exists_takes (hmode : rule.mode ≠ .random) (hlimit : 0 < rule.limit.toNat)
    {g : Group W} (hge : rule.limit.toNat ≤ usageSum g.members % 2 ^ 64) :
    ∃ x, poolChoose E rule.mode g = (some x, g.world) ∧ Takes rule g.members x := by
  cases hpick : (poolScan g.members).pick rule.mode with
  | none =>
      have hscan := foremost_scan hmode g.members
      rw [hpick] at hscan
      have hzero : usageSum g.members = 0 := usageSum_eq_zero fun i => by
        by_contra hne
        obtain ⟨m, hm, hm0⟩ := exists_of_usageAt hne
        exact hm0 (hscan i m hm)
      rw [hzero] at hge
      omega
  | some b =>
      have hchoose : poolChoose E rule.mode g = (some b.1, g.world) := by
        rw [poolChoose_eq hmode, hpick, Option.map_some]
      exact ⟨b.1, hchoose, hge, ((poolChoose_iff hmode).mp hchoose).2⟩

theorem poolRepeat_takes (hmode : rule.mode ≠ .random) {g : Group W} {x : Nat}
    (h : Takes rule g.members x) (n : Nat) : poolRepeat E rule (n + 1) g
      = (poolRepeat E rule n (poolBackendAction E rule x g)).map fun r =>
        (x :: r.1, r.2) := by
  have hchoose : poolChoose E rule.mode g = (some x, g.world) :=
    (poolChoose_iff hmode).mpr ⟨rfl, h.2⟩
  rw [poolRepeat, if_pos (limit_le_iff.mpr h.1), hchoose]
  cases hrest : poolRepeat E rule n (poolBackendAction E rule x g) with
  | error e => simp [hrest, Except.map, bind, Except.bind]
  | ok r => simp [hrest, Except.map, bind, Except.bind, pure, Except.pure]

theorem poolRepeat_below {g : Group W}
    (h : usageSum g.members % 2 ^ 64 < rule.limit.toNat) (n : Nat) :
    poolRepeat E rule (n + 1) g = .ok ([], g) := by
  rw [poolRepeat, if_neg (mt limit_le_iff.mp (not_le.mpr h))]

theorem returns_takes (hmode : rule.mode ≠ .random) {g g' : Group W} {x y : Nat}
    {acted : List Nat} (h : Takes rule g.members x)
    (hret : Returns (fun n => poolRepeat E rule n g) (y :: acted, g')) :
    y = x ∧ Returns (fun n => poolRepeat E rule n (poolBackendAction E rule x g))
      (acted, g') := by
  obtain ⟨N, hN⟩ := hret
  have hrest : ∀ n, N ≤ n → y = x ∧ poolRepeat E rule n (poolBackendAction E rule x g)
      = .ok (acted, g') := by
    intro n hn
    have hround := hN (n + 1) (Nat.le_succ_of_le hn)
    simp only [poolRepeat_takes hmode h] at hround
    cases hloop : poolRepeat E rule n (poolBackendAction E rule x g) with
    | error e => simp [hloop, Except.map] at hround
    | ok r =>
        simp only [hloop, Except.map, Except.ok.injEq, Prod.mk.injEq, List.cons.injEq]
          at hround
        exact ⟨hround.1.1.symm, by rw [← hround.1.2, ← hround.2]⟩
  exact ⟨(hrest N le_rfl).1, N, fun n hn => (hrest n hn).2⟩

/-- A run of the loop, in both directions. -/
theorem poolRepeat_iff (hmode : rule.mode ≠ .random) (hlimit : 0 < rule.limit.toNat)
    {g' : Group W} :
    ∀ {acted : List Nat} {g : Group W},
      Returns (fun n => poolRepeat E rule n g) (acted, g') ↔
      g' = poolActions E rule acted g ∧ usageSum g'.members % 2 ^ 64 < rule.limit.toNat ∧
      ∀ p x q, acted = p ++ x :: q → Takes rule (poolActions E rule p g).members x
  | [], g => by
      constructor
      · intro hret
        by_cases hge : rule.limit.toNat ≤ usageSum g.members % 2 ^ 64
        · obtain ⟨x, -, htakes⟩ := exists_takes (E := E) hmode hlimit hge
          obtain ⟨N, hN⟩ := hret
          have hround := hN (N + 1) (Nat.le_succ N)
          simp only [poolRepeat_takes hmode htakes] at hround
          cases hloop : poolRepeat E rule N (poolBackendAction E rule x g) with
          | error e => simp [hloop, Except.map] at hround
          | ok r => simp [hloop, Except.map] at hround
        · have hbelow := not_le.mp hge
          have hstop : Returns (fun n => poolRepeat E rule n g) ([], g) :=
            Returns.of_succ (Returns.of_forall (poolRepeat_below hbelow))
          obtain ⟨-, rfl⟩ := Prod.mk.inj (hret.unique hstop)
          exact ⟨rfl, hbelow, fun p x q h => absurd h (by simp)⟩
      · rintro ⟨rfl, hbelow, -⟩
        exact Returns.of_succ (Returns.of_forall (poolRepeat_below hbelow))
  | a :: acted, g => by
      have hsplit : (∀ p x q, a :: acted = p ++ x :: q →
          Takes rule (poolActions E rule p g).members x) ↔
          Takes rule g.members a ∧ ∀ p x q, acted = p ++ x :: q →
            Takes rule (poolActions E rule p (poolBackendAction E rule a g)).members
              x := by
        constructor
        · intro h
          exact ⟨h [] a acted rfl,
            fun p x q heq => h (a :: p) x q (by rw [heq, List.cons_append])⟩
        · rintro ⟨hfirst, hrest⟩ p x q heq
          cases p with
          | nil =>
              obtain ⟨rfl, -⟩ := List.cons.inj heq
              exact hfirst
          | cons y p =>
              obtain ⟨rfl, htail⟩ := List.cons.inj heq
              exact hrest p x q htail
      rw [hsplit]
      constructor
      · intro hret
        by_cases hge : rule.limit.toNat ≤ usageSum g.members % 2 ^ 64
        · obtain ⟨x, -, htakes⟩ := exists_takes (E := E) hmode hlimit hge
          obtain ⟨rfl, hrest⟩ := returns_takes hmode htakes hret
          obtain ⟨hg', hbelow, hall⟩ := (poolRepeat_iff hmode hlimit).mp hrest
          exact ⟨hg', hbelow, htakes, hall⟩
        · have hstop : Returns (fun n => poolRepeat E rule n g) ([], g) :=
            Returns.of_succ (Returns.of_forall (poolRepeat_below (not_le.mp hge)))
          have hnil := congrArg Prod.fst (hret.unique hstop)
          cases hnil
      · rintro ⟨hg', hbelow, htakes, hall⟩
        have hrest :=
          (poolRepeat_iff (g := poolBackendAction E rule a g) hmode hlimit).mpr
            ⟨hg', hbelow, hall⟩
        refine Returns.of_succ ?_
        simp only [poolRepeat_takes hmode htakes]
        exact hrest.map fun r => (a :: r.1, r.2)

/-! ## The limit -/

/-- The members that have to go let the loop go on to the next of them. -/
structure Yielding (E : Surroundings W) (rule : Rule) (g : Group W) : Prop where
  /-- the sum as a uintmax does not fall below the limit too early -/
  counted : ∀ p x q, victims rule g.members = p ++ x :: q →
    rule.limit.toNat ≤ usageSum (poolActions E rule p g).members % 2 ^ 64
  /-- what has gone reads zero, or comes after the next one -/
  yields : ∀ p x q, victims rule g.members = p ++ x :: q → ∀ y ∈ p,
    usageAt (poolActions E rule p g).members y = 0 ∨
      Before (keyAt rule.mode (poolActions E rule p g).members) x y
  enough : usageSum (poolActions E rule (victims rule g.members) g).members
    < rule.limit.toNat

theorem victims_front (rule : Rule) (members : List Member) :
    victims rule members <+: ranking rule.mode members := shortest_front

/-- A victim has something to take, and those that are not before it come after it. -/
theorem victims_spec {members : List Member} {p q : List Nat} {x : Nat}
    (h : victims rule members = p ++ x :: q) : x ∉ p ∧ usageAt members x ≠ 0 ∧
      ∀ y, usageAt members y ≠ 0 → y ∉ p → y ≠ x →
      Before (keyAt rule.mode members) x y := by
  obtain ⟨rest, hrest⟩ := victims_front rule members
  rw [h, List.append_assoc, List.cons_append] at hrest
  have hnodup : (ranking rule.mode members).Nodup := nodup_rank
  have hsorted : (ranking rule.mode members).Pairwise
      (Before (keyAt rule.mode members)) := pairwise_rank
  rw [← hrest] at hnodup hsorted
  have hx : usageAt members x ≠ 0 :=
    mem_ranking.mp (hrest ▸ List.mem_append_right p List.mem_cons_self)
  refine ⟨fun hp => (List.nodup_append.mp hnodup).2.2 x hp x List.mem_cons_self rfl,
    hx, fun y hy hyp hyx => ?_⟩
  have hmem : y ∈ p ++ x :: (q ++ rest) := hrest ▸ mem_ranking.mpr hy
  rcases List.mem_append.mp hmem with hin | hin
  · exact absurd hin hyp
  · exact List.rel_of_pairwise_cons (List.pairwise_append.mp hsorted).2.1
      (List.mem_of_ne_of_mem hyx hin)

theorem before_congr {key key' : Nat → Nat} {x y : Nat} (hx : key' x = key x)
    (hy : key' y = key y) : Before key' x y ↔ Before key x y := by
  rw [Before, Before, hx, hy]

/-- What the loop does when some of the victims have gone. -/
theorem takes_iff {g : Group W} {p q : List Nat} {x : Nat}
    (h : victims rule g.members = p ++ x :: q) :
    Takes rule (poolActions E rule p g).members x ↔
      rule.limit.toNat ≤ usageSum (poolActions E rule p g).members % 2 ^ 64 ∧
      ∀ y ∈ p, usageAt (poolActions E rule p g).members y = 0 ∨
        Before (keyAt rule.mode (poolActions E rule p g).members) x y := by
  obtain ⟨hxp, hx, hafter⟩ := victims_spec h
  constructor
  · rintro ⟨hle, -, hbefore⟩
    refine ⟨hle, fun y hy => ?_⟩
    by_cases hzero : usageAt (poolActions E rule p g).members y = 0
    · exact .inl hzero
    · exact .inr (hbefore y hzero fun hyx => hxp (hyx ▸ hy))
  · rintro ⟨hle, hgone⟩
    refine ⟨hle, by rwa [usageAt_of_not_mem hxp], fun y hy hyx => ?_⟩
    by_cases hyp : y ∈ p
    · exact (hgone y hyp).resolve_left hy
    · rw [usageAt_of_not_mem hyp] at hy
      exact (before_congr (keyAt_of_not_mem hxp) (keyAt_of_not_mem hyp)).mpr
        (hafter y hy hyp hyx)

theorem limited_iff_repeat (hmax : rule.limit ≠ uintmaxMax)
    (hlimit : 0 < rule.limit.toNat) {g g' : Group W} :
    Returns (fun n => poolGroupLimit E n rule g) (victims rule g.members, g') ↔
      Returns (fun n => poolRepeat E rule n g) (victims rule g.members, g') := by
  by_cases hempty : g.members.length = 0
  · have hsum : usageSum g.members % 2 ^ 64 < rule.limit.toNat := by
      rw [List.eq_nil_of_length_eq_zero hempty]
      exact hlimit
    have hstop : Returns (fun n => poolRepeat E rule n g) ([], g) :=
      Returns.of_succ (Returns.of_forall (poolRepeat_below hsum))
    have hreturn : Returns (fun n => poolGroupLimit E n rule g) ([], g) :=
      Returns.of_forall fun n => by rw [poolGroupLimit, if_neg hmax, if_pos hempty]
    constructor
    · exact fun h => h.unique hreturn ▸ hstop
    · exact fun h => h.unique hstop ▸ hreturn
  · have hsame : (fun n => poolGroupLimit E n rule g)
        = fun n => poolRepeat E rule n g := by
      funext n
      rw [poolGroupLimit, if_neg hmax, if_neg hempty]
    rw [hsame]

theorem limited_iff_yielding (hmode : rule.mode ≠ .random) (hlimit : 0 < rule.limit.toNat)
    (hmax : rule.limit ≠ uintmaxMax) {g : Group W} :
    Limited E rule g ↔ Yielding E rule g := by
  constructor
  · rintro ⟨g', hret, hsum⟩
    obtain ⟨rfl, -, htakes⟩ :=
      (poolRepeat_iff hmode hlimit).mp ((limited_iff_repeat hmax hlimit).mp hret)
    exact ⟨fun p x q h => ((takes_iff h).mp (htakes p x q h)).1,
      fun p x q h => ((takes_iff h).mp (htakes p x q h)).2, hsum⟩
  · rintro ⟨hcounted, hyields, henough⟩
    have hbelow := lt_of_le_of_lt (Nat.mod_le _ (2 ^ 64)) henough
    exact ⟨_, (limited_iff_repeat hmax hlimit).mpr
      ((poolRepeat_iff hmode hlimit).mpr ⟨rfl, hbelow,
      fun p x q h => (takes_iff h).mpr ⟨hcounted p x q h, hyields p x q h⟩⟩), henough⟩

end

/-! ## Mortals -/

/-- Reads zero once it is destroyed. -/
def Member.Mortal (m : Member) : Prop :=
  m.parameter = .one ∨ m.parameter = .request ∧ (m.forked = true ∨ m.childs = 0)

section

variable {E : Surroundings W} {rule : Rule} {g : Group W} {m : Member} {i : Nat}
  {is : List Nat}

theorem Member.Mortal.usageAt_eq (h : m.Mortal) (hi : g.members[i]? = some m)
    (hdestroy : rule.action = .destroy) :
    usageAt (poolBackendAction E rule i g).members i = 0 := by
  rw [usageParameter_destroyed hi hdestroy]
  rcases h with hone | ⟨hrequest, hgone⟩
  · rw [hone]
  · rw [hrequest]
    exact if_pos hgone

theorem usageSum_set : ∀ {members : List Member} {i : Nat} {m' : Member},
    members[i]? = some m →
    usageSum (members.set i m') + m.usageParameter.toNat = usageSum members +
      m'.usageParameter.toNat
  | [], _, _, h => by simp at h
  | a :: members, 0, m', h => by
      obtain rfl := Option.some_inj.mp h
      simp only [usageSum, List.set_cons_zero, List.map_cons, List.sum_cons]
      omega
  | a :: members, i + 1, m', h => by
      have hrest : usageSum (members.set i m') + m.usageParameter.toNat
          = usageSum members + m'.usageParameter.toNat := usageSum_set h
      simp only [usageSum, List.set_cons_succ, List.map_cons, List.sum_cons] at hrest ⊢
      omega

theorem usageSum_action (hi : g.members[i]? = some m) :
    usageSum (poolBackendAction E rule i g).members + usageAt g.members i
      = usageSum g.members + usageAt (poolBackendAction E rule i g).members i := by
  have hlt := (List.getElem?_eq_some_iff.mp hi).1
  rw [usageAt_of_some hi, poolBackendAction, hi]
  simp only
  rw [usageAt_of_some (List.getElem?_set_self hlt), usageSum_set hi]

/-- What is left when mortals have gone. -/
theorem poolActions_mortal (hdestroy : rule.action = .destroy) (hnodup : is.Nodup)
    (hmortal : ∀ i ∈ is, ∃ m, g.members[i]? = some m ∧ m.Mortal) :
    (∀ i ∈ is, usageAt (poolActions E rule is g).members i = 0) ∧
      usageSum (poolActions E rule is g).members + (is.map (usageAt g.members)).sum
        = usageSum g.members := by
  induction is using List.reverseRecOn with
  | nil => simp [poolActions]
  | append_singleton is x ih =>
      have hxis : x ∉ is :=
        fun hx => (List.nodup_append.mp hnodup).2.2 x hx x List.mem_cons_self rfl
      obtain ⟨hzero, hsum⟩ :=
        ih hnodup.of_append_left fun i hi => hmortal i (List.mem_append_left _ hi)
      obtain ⟨m, hm, hmort⟩ := hmortal x (by simp)
      have hm' : (poolActions E rule is g).members[x]? = some m := by
        rw [poolActions_of_not_mem hxis, hm]
      have hx := hmort.usageAt_eq (E := E) hm' hdestroy
      have hstep := @usageSum_action _ E rule _ _ _ hm'
      have heq : poolActions E rule (is ++ [x]) g = poolBackendAction E rule x
          (poolActions E rule is g) := by
        rw [poolActions, List.foldl_append]
        rfl
      rw [heq]
      constructor
      · intro i hi
        rcases List.mem_append.mp hi with hi | hi
        · have hne : i ≠ x := fun h => hxis (h ▸ hi)
          rw [usageAt, poolBackendAction_of_ne hne, ← usageAt, hzero i hi]
        · rw [List.mem_singleton.mp hi, hx]
      · rw [hx, usageAt_of_not_mem hxis] at hstep
        rw [List.map_append, List.sum_append]
        simp only [List.map_cons, List.map_nil, List.sum_cons, List.sum_nil]
        omega

/-- The members without anything to take do not count. -/
theorem ranking_sum (mode : ChooseMethod) (members : List Member) :
    ((ranking mode members).map (usageAt members)).sum = usageSum members := by
  have hskip : ∀ is : List Nat,
      ((is.filter fun i => usageAt members i ≠ 0).map (usageAt members)).sum
      = (is.map (usageAt members)).sum := by
    intro is
    induction is with
    | nil => rfl
    | cons i is ih =>
        by_cases hzero : usageAt members i = 0
        · rw [List.filter_cons_of_neg (by simpa using hzero), ih, List.map_cons,
            List.sum_cons, hzero, Nat.zero_add]
        · rw [List.filter_cons_of_pos (by simpa using hzero), List.map_cons,
            List.sum_cons, ih, List.map_cons, List.sum_cons]
  have hrange : (List.range members.length).map (usageAt members)
      = members.map fun m => m.usageParameter.toNat := by
    refine List.ext_getElem (by simp) fun i h _ => ?_
    rw [List.getElem_map, List.getElem_range, List.getElem_map]
    exact usageAt_of_some (List.getElem?_eq_getElem (by simpa using h))
  rw [ranking, rank, ((List.perm_insertionSort _ _).map _).sum_eq, hskip,
    hrange, usageSum]

/-- **Mortals**: if those that have to go read zero then, and all parameters fit into a
uintmax, the limit works. -/
theorem limited_of_mortal (hdestroy : rule.action = .destroy)
    (hmode : rule.mode ≠ .random) (hlimit : 0 < rule.limit.toNat)
    (hmax : rule.limit ≠ uintmaxMax) (hfits : usageSum g.members < 2 ^ 64)
    (hmortal : ∀ i ∈ victims rule g.members, ∀ m, g.members[i]? = some m → m.Mortal) :
    Limited E rule g := by
  have hnodup : (victims rule g.members).Nodup :=
    (victims_front rule g.members).sublist.nodup nodup_rank
  have hmember : ∀ i ∈ victims rule g.members, ∃ m, g.members[i]? = some m ∧
      m.Mortal := by
    intro i hi
    obtain ⟨m, hm, -⟩ :=
      exists_of_usageAt (mem_ranking.mp ((victims_front rule g.members).subset hi))
    exact ⟨m, hm, hmortal i hi m hm⟩
  have hgone : ∀ p q, victims rule g.members = p ++ q →
      (∀ i ∈ p, usageAt (poolActions E rule p g).members i = 0) ∧
        usageSum (poolActions E rule p g).members + (p.map (usageAt g.members)).sum
          = usageSum g.members := by
    intro p q h
    rw [h] at hnodup
    exact poolActions_mortal hdestroy hnodup.of_append_left fun i hi =>
      hmember i (h ▸ List.mem_append_left q hi)
  rw [limited_iff_yielding hmode hlimit hmax]
  refine ⟨fun p x q h => ?_, fun p x q h y hy => .inl ((hgone p _ h).1 y hy), ?_⟩
  · have hsum := (hgone p _ h).2
    have hneeded := shortest_needed h
    rw [Nat.mod_eq_of_lt (by omega)]
    omega
  · have hsum := (hgone _ [] (List.append_nil _).symm).2
    have henough := shortest_enough hlimit (ranking_sum rule.mode g.members)
    rw [← victims] at henough
    omega

end

/-! ## When it works -/

/-- **When the limit works**: a group without a limit is below it already; in any other,
each member that has to go reads zero then, or comes after the next one, and the sum
fits into a uintmax as far as that matters. -/
theorem pool_limits_iff (E : Surroundings W) (rule : Rule) (hmode : rule.mode ≠ .random)
    (hlimit : 0 < rule.limit.toNat) (g : Group W) :
    Limited E rule g ↔
      if rule.limit = uintmaxMax then usageSum g.members < rule.limit.toNat
      else Yielding E rule g := by
  split_ifs with hmax
  · have hreturn : Returns (fun n => poolGroupLimit E n rule g) ([], g) :=
      Returns.of_forall fun n => by rw [poolGroupLimit, if_pos hmax]
    constructor
    · rintro ⟨g', hret, hsum⟩
      obtain ⟨-, rfl⟩ := Prod.mk.inj (hret.unique hreturn)
      exact hsum
    · intro hsum
      have hvictims : victims rule g.members = [] := by
        rw [victims]
        cases ranking rule.mode g.members with
        | nil => rfl
        | cons i is => rw [shortest, if_pos hsum]
      exact ⟨g, by rwa [hvictims], hsum⟩
  · exact limited_iff_yielding hmode hlimit hmax

/-- Nothing behind the members. -/
def nothing : Surroundings Unit :=
  { query := fun _ w => (0, w), action := fun _ w => w, destroy := fun _ w => w,
    random := fun w => (0, w) }

/-- A fork with five ticks and one child. -/
def ticking : Member :=
  { createdOn := 0, usageParameter := 5, usageTicksLast := 5, parameter := .ticks,
    forked := true, childs := 1, died := false }

def destroyAbove (limit : UInt64) : Rule :=
  { limit := limit, mode := .first, action := .destroy }

/-- Two members of which each counts as one. -/
def twoOnes : Group Unit :=
  ⟨[{ ticking with createdOn := 1, usageParameter := 1, parameter := .one },
    { ticking with usageParameter := 1, parameter := .one }], ()⟩

theorem pool_limits_iff_ones : victims (destroyAbove 2) twoOnes.members = [1] ∧
    (Limited nothing (destroyAbove 2) twoOnes ↔
      if (destroyAbove 2).limit = uintmaxMax
        then usageSum twoOnes.members < (destroyAbove 2).limit.toNat
      else Yielding nothing (destroyAbove 2) twoOnes) :=
  ⟨by decide, pool_limits_iff nothing (destroyAbove 2) (by decide) (by decide) twoOnes⟩

/-- The fork is destroyed, and destroyed. -/
theorem pool_ticks : (∀ n, poolGroupLimit nothing n (destroyAbove 3) ⟨[ticking], ()⟩
    = .error .outOfFuel) ∧ ¬ Limited nothing (destroyAbove 3) ⟨[ticking], ()⟩ := by
  have hdead : ∀ n, poolRepeat nothing (destroyAbove 3) n
      ⟨[{ ticking with childs := 0, died := true }], ()⟩ = .error .outOfFuel := by
    intro n
    induction n with
    | zero => rfl
    | succ n ih =>
        have hround : poolRepeat nothing (destroyAbove 3) (n + 1)
            ⟨[{ ticking with childs := 0, died := true }], ()⟩ = (do
                let r ← poolRepeat nothing (destroyAbove 3) n
                  ⟨[{ ticking with childs := 0, died := true }], ()⟩
                return (0 :: r.1, r.2)) := rfl
        rw [hround, ih]
        rfl
  have hall : ∀ n, poolGroupLimit nothing n (destroyAbove 3) ⟨[ticking], ()⟩
      = .error .outOfFuel := by
    intro n
    cases n with
    | zero => rfl
    | succ n =>
        have hround : poolGroupLimit nothing (n + 1) (destroyAbove 3) ⟨[ticking], ()⟩
            = (do
                let r ← poolRepeat nothing (destroyAbove 3) n
                  ⟨[{ ticking with childs := 0, died := true }], ()⟩
                return (0 :: r.1, r.2)) := rfl
        rw [hround, hdead]
        rfl
  refine ⟨hall, ?_⟩
  rintro ⟨g', ⟨N, hN⟩, -⟩
  exact nomatch (hall N).symm.trans (hN N le_rfl)

end Frozen.Chain
