/-
# `Frozen.Chain.Round` — a round of the pool thread keeps all limits

A round goes through three lists: the parameter of each pool is updated and compared
with its own limit, then each group of forks is cut down, and then all pools together.
Pools that are destroyed when they have to go, and read zero then, never give back what
an earlier limit has taken, so that after the round every limit is kept at once.

    put_spec            what an action on a list leaves in its pools
    poolListLimit_limits   one list
    poolRound_limits    all lists
-/
import Frozen.Chain.Watch

namespace Frozen.Chain

open Lib Frozen.Graph

variable {W : Type}

/-! ## Parameters -/

/-- `usage_parameter` of a pool. -/
def Pools.usage (s : Pools W) (id : Nat) : Nat :=
  match s.life id with
  | .live d => d.usageParameter.toNat
  | _ => 0

def Pools.usageOf (s : Pools W) (ids : List Nat) : Nat := (ids.map s.usage).sum

theorem usage_of_live {s : Pools W} {id : Nat} {d : PoolData} (h : s.life id = .live d) :
    s.usage id = d.usageParameter.toNat := by
  rw [Pools.usage, h]

theorem usageOf_le {s s' : Pools W} (h : ∀ q, s'.usage q ≤ s.usage q) (ids : List Nat) :
    s'.usageOf ids ≤ s.usageOf ids :=
  List.sum_le_sum fun q _ => h q

/-! ## Members -/

section

variable {E : Surroundings W} {rule : Rule}

/-- A member with less to take, which still reads zero once it is destroyed. -/
structure Member.Lowered (m m' : Member) : Prop where
  mortal : m'.Mortal
  usage : m'.usageParameter.toNat ≤ m.usageParameter.toNat

theorem poolAct_mortal {m : Member} (h : m.Mortal) (i : Nat) (w : W) (u : UInt64) :
    Member.Mortal { (poolAct E rule i m w).1 with usageParameter := u } := by
  unfold poolAct
  cases rule.action with
  | request => exact h
  | destroy =>
      cases hforked : m.forked with
      | false => exact h.imp_right fun h =>
          ⟨h.1, h.2.imp_left fun h' => by simp [hforked] at h'⟩
      | true => exact h.imp_right fun h => ⟨h.1, .inr rfl⟩

/-- A mortal that is destroyed reads zero. -/
theorem Member.Mortal.parameter_eq {m : Member} (h : m.Mortal)
    (hdestroy : rule.action = .destroy) (i : Nat) (w : W) :
    (poolParameterGet E i (poolAct E rule i m w).1 (poolAct E rule i m w).2).1 = 0 := by
  rw [poolAct, hdestroy]
  rcases h with hone | ⟨hrequest, hgone⟩
  · cases hforked : m.forked <;> simp [poolParameterGet, hone]
  · cases hforked : m.forked with
    | true => simp [poolParameterGet, hrequest]
    | false =>
        have hchilds : m.childs = 0 := hgone.resolve_left (by simp [hforked])
        simp [poolParameterGet, hrequest, hchilds]

abbrev AllLowered (ms ms' : List Member) : Prop := List.Forall₂ Member.Lowered ms ms'

theorem AllLowered.refl {ms : List Member} (h : ∀ m ∈ ms, m.Mortal) : AllLowered ms ms :=
  List.forall₂_same.mpr fun m hm => ⟨h m hm, le_rfl⟩

theorem AllLowered.mortal {ms ms' : List Member} (h : AllLowered ms ms') :
    ∀ m ∈ ms', m.Mortal := by
  induction h with
  | nil => simp
  | cons hm _ ih =>
      intro m hmem
      rcases List.mem_cons.mp hmem with rfl | hmem
      · exact hm.mortal
      · exact ih m hmem

theorem AllLowered.trans {ms₁ ms₂ ms₃ : List Member} (h : AllLowered ms₁ ms₂)
    (h' : AllLowered ms₂ ms₃) : AllLowered ms₁ ms₃ := by
  induction h generalizing ms₃ with
  | nil => exact h'
  | cons hm _ ih =>
      obtain _ | ⟨hm', hrest⟩ := h'
      exact .cons ⟨hm'.mortal, hm'.usage.trans hm.usage⟩ (ih hrest)

theorem allLowered_set {ms : List Member} {i : Nat} {m m' : Member}
    (hms : ∀ m ∈ ms, m.Mortal) (hi : ms[i]? = some m) (h : m.Lowered m') :
    AllLowered ms (ms.set i m') := by
  induction ms generalizing i with
  | nil => simp at hi
  | cons a ms ih =>
      have hrest : ∀ m ∈ ms, m.Mortal := fun m hm => hms m (List.mem_cons_of_mem a hm)
      cases i with
      | zero =>
          obtain rfl := Option.some.inj hi
          exact .cons h (AllLowered.refl hrest)
      | succ i => exact .cons ⟨hms a (List.mem_cons_self ..), le_rfl⟩ (ih hrest hi)

/-- What is left of a group in which a mortal is destroyed. -/
theorem poolBackendAction_lowered (hdestroy : rule.action = .destroy) (i : Nat)
    {g : Group W} (hg : ∀ m ∈ g.members, m.Mortal) :
    AllLowered g.members (poolBackendAction E rule i g).members := by
  unfold poolBackendAction
  cases hi : g.members[i]? with
  | none => exact AllLowered.refl hg
  | some m =>
      have hm := hg m (List.mem_of_getElem? hi)
      refine allLowered_set hg hi ⟨poolAct_mortal hm i g.world _, ?_⟩
      rw [hm.parameter_eq hdestroy]
      exact Nat.zero_le _

theorem poolRepeat_lowered (hdestroy : rule.action = .destroy) {n : Nat}
    {g g' : Group W} {acted : List Nat} (hg : ∀ m ∈ g.members, m.Mortal)
    (h : poolRepeat E rule n g = .ok (acted, g')) :
    AllLowered g.members g'.members := by
  induction n generalizing g acted with
  | zero => cases h
  | succ n ih =>
      rw [poolRepeat] at h
      split at h
      · split at h
        · cases h
          exact AllLowered.refl hg
        · next i w _ =>
            obtain ⟨⟨acted', g₁⟩, hrest, hend⟩ := ok_of_bind h
            cases hend
            have haction :=
              poolBackendAction_lowered (E := E) (g := ⟨g.members, w⟩) hdestroy i hg
            exact haction.trans (ih haction.mortal hrest)
      · cases h
        exact AllLowered.refl hg

theorem poolGroupLimit_lowered (hdestroy : rule.action = .destroy) {n : Nat}
    {g g' : Group W} {acted : List Nat} (hg : ∀ m ∈ g.members, m.Mortal)
    (h : poolGroupLimit E n rule g = .ok (acted, g')) :
    AllLowered g.members g'.members := by
  unfold poolGroupLimit at h
  split at h
  · cases h
    exact AllLowered.refl hg
  · split at h
    · cases h
      exact AllLowered.refl hg
    · exact poolRepeat_lowered hdestroy hg h

end

/-! ## A list of pools -/

/-- `ids` stand for pools. -/
def Live (s : Pools W) (ids : List Nat) : Prop := ∀ id ∈ ids, ∃ d, s.life id = .live d

theorem mapM_data_ok {s : Pools W} {ids : List Nat} (h : Live s ids) :
    ∃ datas, ids.mapM s.data = .ok datas := by
  induction ids with
  | nil => exact ⟨[], rfl⟩
  | cons id ids ih =>
      obtain ⟨d, hd⟩ := h id (List.mem_cons_self ..)
      obtain ⟨ds, hds⟩ := ih fun q hq => h q (List.mem_cons_of_mem id hq)
      refine ⟨d :: ds, ?_⟩
      rw [List.mapM_cons, Pools.data, hd, hds]
      rfl

theorem put_self {s : Pools W} {r : Nat × Member} {d : PoolData}
    (hd : s.life r.1 = .live d) :
    (s.put r).life r.1 = .live { d with toMember := r.2 } := by
  rw [Pools.put, hd]
  exact (setLife_life ..).trans (if_pos rfl)

theorem put_other {s : Pools W} {r : Nat × Member} {q : Nat} (hq : q ≠ r.1) :
    (s.put r).life q = s.life q := by
  unfold Pools.put
  cases s.life r.1 with
  | live d => exact (setLife_life ..).trans (if_neg hq)
  | unused => rfl
  | freed => rfl

theorem foldl_put_other {rs : List (Nat × Member)} {s : Pools W} {q : Nat}
    (hq : q ∉ rs.map Prod.fst) : (rs.foldl Pools.put s).life q = s.life q := by
  induction rs generalizing s with
  | nil => rfl
  | cons r rs ih =>
      simp only [List.map_cons, List.mem_cons, not_or] at hq
      obtain ⟨hne, hrest⟩ := hq
      rw [List.foldl_cons, ih hrest, put_other hne]

/-- What an action leaves in a pool of a list without repetitions. -/
theorem foldl_put_mem {rs : List (Nat × Member)} {s : Pools W} {id : Nat} {m : Member}
    {d : PoolData} (hnodup : (rs.map Prod.fst).Nodup) (hmem : (id, m) ∈ rs)
    (hd : s.life id = .live d) :
    (rs.foldl Pools.put s).life id = .live { d with toMember := m } := by
  induction rs generalizing s with
  | nil => cases hmem
  | cons r rs ih =>
      obtain ⟨hhead, hrest⟩ := List.nodup_cons.mp hnodup
      rw [List.foldl_cons]
      rcases List.mem_cons.mp hmem with rfl | hmem
      · rw [foldl_put_other hhead, put_self hd]
      · have hne : id ≠ r.1 := by
          rintro rfl
          exact hhead (List.mem_map.mpr ⟨_, hmem, rfl⟩)
        exact ih hrest hmem ((put_other hne).trans hd)

theorem usageSum_datas {s : Pools W} {ids : List Nat} {datas : List PoolData}
    (h : List.Forall₂ (fun id d => s.life id = .live d) ids datas) :
    usageSum (datas.map PoolData.toMember) = s.usageOf ids := by
  induction h with
  | nil => rfl
  | @cons id d ids datas hd _ ih =>
      simp only [usageSum, Pools.usageOf, List.map_cons, List.sum_cons,
        usage_of_live hd] at ih ⊢
      rw [ih]

/-! ## Pools that have to obey -/

/-- Whoever has to go is destroyed, and the limits tell who that is. -/
structure PoolData.Strict (d : PoolData) : Prop where
  one : d.ruleOne.action = .destroy
  perfork : d.rulePerfork.action = .destroy ∧ d.rulePerfork.mode ≠ .random ∧
  0 < d.rulePerfork.limit.toNat
  global : d.ruleGlobal.action = .destroy ∧ d.ruleGlobal.mode ≠ .random ∧
  0 < d.ruleGlobal.limit.toNat

/-- The pools of a round. -/
structure Governed (s : Pools W) : Prop where
  watched : Watched s
  mortal : ∀ q d, s.life q = .live d → d.toMember.Mortal
  strict : ∀ q d, s.life q = .live d → d.Strict
  /-- nothing is on `watch_perfork` that is gone, or whose list is gone -/
  perfork : ∀ q ∈ s.watchPerfork.items, ∃ d p, s.life q = .live d ∧
  s.life d.perforkChilds = .live p

section

variable {E : Surroundings W} {rule : Rule} {s s' : Pools W}

theorem Governed.kept (hs : Governed s) (h : Kept s s')
    (hmortal : ∀ q d, s'.life q = .live d → d.toMember.Mortal) : Governed s' where
  watched := hs.watched.kept h
  mortal := hmortal
  strict q d hd := by
    obtain ⟨d₀, m, hd₀, rfl, -⟩ := h.live hd
    have hstrict := hs.strict q d₀ hd₀
    exact ⟨hstrict.one, hstrict.perfork, hstrict.global⟩
  perfork q hq := by
    obtain ⟨d, p, hd, hp⟩ := hs.perfork q (h.perfork ▸ hq)
    obtain ⟨m, hm⟩ := h.live' hd
    obtain ⟨m', hm'⟩ := h.live' hp
    exact ⟨_, _, hm, hm'⟩

/-- The parameters of all pools add up to a uintmax. -/
def Fits (s : Pools W) : Prop := s.usageOf s.watchOne.items < 2 ^ 64

/-- Different pools do not add up to more than all. -/
theorem usageOf_le_all (hs : Watched s) {ids : List Nat} (hnodup : ids.Nodup)
    (hlive : Live s ids) : s.usageOf ids ≤ s.usageOf s.watchOne.items := by
  obtain ⟨l, hperm, hsub⟩ :=
    List.subperm_of_subset hnodup fun q hq => (hs.one q).mpr (hlive q hq)
  calc s.usageOf ids = s.usageOf l := ((hperm.map s.usage).sum_eq).symm
    _ ≤ s.usageOf s.watchOne.items :=
      (hsub.map s.usage).sum_le_sum fun _ _ => Nat.zero_le _

theorem Fits.lower (hfits : Fits s) (h : Kept s s')
    (hle : ∀ q, s'.usage q ≤ s.usage q) : Fits s' := by
  unfold Fits
  rw [h.one]
  exact lt_of_le_of_lt (usageOf_le hle _) hfits

theorem datas_mortal {ids : List Nat} {datas : List PoolData}
    (h : List.Forall₂ (fun id d => s.life id = .live d) ids datas)
    (hmortal : ∀ q d, s.life q = .live d → d.toMember.Mortal) :
    ∀ m ∈ datas.map PoolData.toMember, m.Mortal := by
  induction h with
  | nil => simp
  | @cons id d ids datas hd _ ih => exact List.forall_mem_cons.mpr ⟨hmortal id d hd, ih⟩

/-- Where a list of pools has been worked on, and what it has become. -/
theorem put_cases {rs : List (Nat × Member)} {R : Member → Member → Prop}
    (hnodup : (rs.map Prod.fst).Nodup)
    (h : ∀ r ∈ rs, ∃ d, s.life r.1 = .live d ∧ R d.toMember r.2) (q : Nat) :
    (q ∉ rs.map Prod.fst ∧ (rs.foldl Pools.put s).life q = s.life q) ∨
      ∃ d m, (q, m) ∈ rs ∧ s.life q = .live d ∧ R d.toMember m ∧
        (rs.foldl Pools.put s).life q = .live { d with toMember := m } := by
  by_cases hq : q ∈ rs.map Prod.fst
  · obtain ⟨⟨q, m⟩, hmem, rfl⟩ := List.mem_map.mp hq
    obtain ⟨d, hd, hR⟩ := h _ hmem
    exact .inr ⟨d, m, hmem, hd, hR, foldl_put_mem hnodup hmem hd⟩
  · exact .inl ⟨hq, foldl_put_other hq⟩

theorem usageOf_put {ids : List Nat} {ms : List Member} (hnodup : ids.Nodup)
    (hlength : ids.length = ms.length) (hlive : Live s ids) :
    ((ids.zip ms).foldl Pools.put s).usageOf ids = usageSum ms := by
  have hfst : (ids.zip ms).map Prod.fst = ids := List.map_fst_zip hlength.le
  have hsnd : (ids.zip ms).map Prod.snd = ms := List.map_snd_zip hlength.ge
  have hnodup' : ((ids.zip ms).map Prod.fst).Nodup := by rwa [hfst]
  have hmap : ∀ s' : Pools W,
      (∀ r ∈ ids.zip ms, s'.usage r.1 = r.2.usageParameter.toNat) →
      ids.map s'.usage = ms.map fun m => m.usageParameter.toNat := by
    intro s' hs'
    calc ids.map s'.usage = ((ids.zip ms).map Prod.fst).map s'.usage := by rw [hfst]
      _ = (ids.zip ms).map fun r => r.2.usageParameter.toNat := by
          rw [List.map_map]
          exact List.map_congr_left hs'
      _ = ((ids.zip ms).map Prod.snd).map fun m => m.usageParameter.toNat := by
          rw [List.map_map]
          rfl
      _ = ms.map fun m => m.usageParameter.toNat := by rw [hsnd]
  rw [Pools.usageOf, usageSum, hmap _ fun r hr => ?_]
  obtain ⟨d, hd⟩ := hlive r.1 (hfst ▸ List.mem_map_of_mem hr)
  exact usage_of_live (foldl_put_mem hnodup' hr hd)

/-- **One list**: the limit is reached, and nothing grows. -/
theorem poolListLimit_limits (hs : Governed s) (hfits : Fits s) {ids : List Nat}
    (hnodup : ids.Nodup) (hlive : Live s ids) (hdestroy : rule.action = .destroy)
    (hmode : rule.mode ≠ .random) (hlimit : 0 < rule.limit.toNat)
    (hmax : rule.limit ≠ uintmaxMax) :
    ∃ s', Returns (fun n => poolListLimit E n rule ids s) s' ∧ Governed s' ∧ Kept s s' ∧
      (∀ q, s'.usage q ≤ s.usage q) ∧ s'.usageOf ids < rule.limit.toNat := by
  obtain ⟨datas, hdatas⟩ := mapM_data_ok hlive
  have hforall := mapM_data hdatas
  have hmortal := datas_mortal hforall hs.mortal
  have hsum : usageSum (datas.map PoolData.toMember) < 2 ^ 64 := by
    rw [usageSum_datas hforall]
    exact lt_of_le_of_lt (usageOf_le_all hs.watched hnodup hlive) hfits
  obtain ⟨g', ⟨N, hN⟩, hless⟩ := limited_of_mortal (E := E.at ids)
    (g := ⟨datas.map PoolData.toMember, s.world⟩)
    hdestroy hmode hlimit hmax hsum fun i _ m hi => hmortal m (List.mem_of_getElem? hi)
  have hlowered := poolGroupLimit_lowered hdestroy hmortal (hN N le_rfl)
  have hlength : ids.length = g'.members.length := by
    rw [hforall.length_eq, ← List.length_map PoolData.toMember, hlowered.length_eq]
  have hnodup' : ((ids.zip g'.members).map Prod.fst).Nodup := by
    rwa [List.map_fst_zip hlength.le]
  have hreturn : ∀ n, N ≤ n → poolListLimit E n rule ids s =
      .ok { (ids.zip g'.members).foldl Pools.put s with world := g'.world } := by
    intro n hn
    have hn' : poolGroupLimit (E.at ids) n rule ⟨datas.map PoolData.toMember, s.world⟩
        = .ok (_, g') := hN n hn
    simp only [poolListLimit, onGroup, hdatas, hn', bind, Except.bind, Except.map]
  have hkept := poolListLimit_kept (hreturn N le_rfl)
  have hcases := put_cases hnodup' (forall_zip hforall hlowered)
  refine ⟨_, ⟨N, hreturn⟩, hs.kept hkept fun q d hd => ?_, hkept, fun q => ?_, ?_⟩
  · rcases hcases q with ⟨-, hsame⟩ | ⟨d₀, m, -, hd₀, hlow, hnew⟩
    · exact hs.mortal q d (hsame ▸ hd)
    · have hd : ((ids.zip g'.members).foldl Pools.put s).life q = .live d := hd
      rw [hnew] at hd
      cases hd
      exact hlow.mortal
  · rcases hcases q with ⟨-, hsame⟩ | ⟨d₀, m, -, hd₀, hlow, hnew⟩
    · refine le_of_eq ?_
      show Pools.usage ((ids.zip g'.members).foldl Pools.put s) q = _
      rw [Pools.usage, hsame, ← Pools.usage]
    · show Pools.usage ((ids.zip g'.members).foldl Pools.put s) q ≤ _
      rw [usage_of_live hnew, usage_of_live hd₀]
      exact hlow.usage
  · refine lt_of_eq_of_lt ?_ hless
    exact usageOf_put hnodup hlength hlive

/-! ## The round -/

/-- From one state of the second and third part of a round to a later one. -/
def Lower (s s' : Pools W) : Prop := Kept s s' ∧ ∀ q, s'.usage q ≤ s.usage q

theorem Lower.refl (s : Pools W) : Lower s s := ⟨.refl, fun _ => le_rfl⟩

theorem Lower.trans (s₁ s₂ s₃ : Pools W) (h : Lower s₁ s₂) (h' : Lower s₂ s₃) :
    Lower s₁ s₃ :=
  ⟨h.1.trans h'.1, fun q => (h'.2 q).trans (h.2 q)⟩

/-- The own limit of a pool is kept. -/
def WithinOne (q : Nat) (s : Pools W) : Prop :=
  ∀ d, s.life q = .live d → s.usage q ≤ d.ruleOne.limit.toNat

/-- The limit of a pool for the forks on its list is kept. -/
def WithinPerfork (q : Nat) (s : Pools W) : Prop :=
  ∀ d p, s.life q = .live d → s.life d.perforkChilds = .live p →
  d.rulePerfork.limit ≠ uintmaxMax →
    s.usageOf p.perforkChildsOwn.items < d.rulePerfork.limit.toNat

/-- The limit of a pool for all pools that have one is kept. -/
def WithinGlobal (q : Nat) (s : Pools W) : Prop :=
  ∀ d, s.life q = .live d → d.ruleGlobal.limit ≠ uintmaxMax →
    s.usageOf s.watchGlobal.items < d.ruleGlobal.limit.toNat

theorem WithinOne.lower {q : Nat} (hs : WithinOne q s) (h : Lower s s') :
    WithinOne q s' := by
  intro d' hd'
  obtain ⟨d, m, hd, rfl, -⟩ := h.1.live hd'
  exact (h.2 q).trans (hs d hd)

theorem WithinPerfork.lower {q : Nat} (hs : WithinPerfork q s) (h : Lower s s') :
    WithinPerfork q s' := by
  intro d' p' hd' hp' hlimit
  obtain ⟨d, m, hd, rfl, -⟩ := h.1.live hd'
  obtain ⟨p, m', hp, rfl, -⟩ := h.1.live hp'
  exact lt_of_le_of_lt (usageOf_le h.2 _) (hs d p hd hp hlimit)

theorem WithinGlobal.lower {q : Nat} (hs : WithinGlobal q s) (h : Lower s s') :
    WithinGlobal q s' := by
  intro d' hd' hlimit
  obtain ⟨d, m, hd, rfl, -⟩ := h.1.live hd'
  rw [h.1.global]
  exact lt_of_le_of_lt (usageOf_le h.2 _) (hs d hd hlimit)

/-- The pools behind the first part of a round. -/
structure Bounded (s₀ s : Pools W) : Prop where
  governed : Governed s
  kept : Kept s₀ s
  fits : Fits s

theorem data_live {q : Nat} {d : PoolData} (h : s.life q = .live d) :
    s.data q = .ok d := by
  rw [Pools.data, h]

theorem limitPerfork_limits {s₀ : Pools W} {q : Nat} (hq : q ∈ s₀.watchPerfork.items)
    (hs : Bounded s₀ s) :
    ∃ s', Returns (fun n => limitPerfork E n q s) s' ∧ Bounded s₀ s' ∧ Lower s s' ∧
      WithinPerfork q s' := by
  obtain ⟨d, p, hd, hp⟩ := hs.governed.perfork q (hs.kept.perfork ▸ hq)
  by_cases hmax : d.rulePerfork.limit = uintmaxMax
  · refine ⟨s, .of_forall fun n => ?_, hs, .refl s, fun d' p' hd' _ hlimit => ?_⟩
    · simp [limitPerfork, data_live hd, hmax, bind, Except.bind, pure, Except.pure]
    · rw [hd] at hd'
      cases hd'
      exact absurd hmax hlimit
  · have hstrict := (hs.governed.strict q d hd).perfork
    have hlive : Live s p.perforkChildsOwn.items := by
      intro r hr
      obtain ⟨-, dr, hdr, -⟩ := (hs.governed.watched.own _ p hp r).mp hr
      exact ⟨dr, hdr⟩
    obtain ⟨s', hret, hs', hkept, hlower, hless⟩ :=
      poolListLimit_limits (E := E) hs.governed hs.fits
      (hs.governed.watched.own_nodup _ p hp) hlive hstrict.1 hstrict.2.1 hstrict.2.2 hmax
    refine ⟨s', ?_, ⟨hs', hs.kept.trans hkept, hs.fits.lower hkept hlower⟩,
      ⟨hkept, hlower⟩, ?_⟩
    · simpa [limitPerfork, data_live hd, data_live hp, hmax, bind, Except.bind] using hret
    · intro d' p' hd' hp' hlimit
      obtain ⟨m, hm⟩ := hkept.live' hd
      rw [hm] at hd'
      cases hd'
      obtain ⟨m', hm'⟩ := hkept.live' hp
      rw [hm'] at hp'
      cases hp'
      exact hless

theorem limitGlobal_limits {s₀ : Pools W} {q : Nat} (hq : q ∈ s₀.watchGlobal.items)
    (hs : Bounded s₀ s) :
    ∃ s', Returns (fun n => limitGlobal E n q s) s' ∧ Bounded s₀ s' ∧ Lower s s' ∧
      WithinGlobal q s' := by
  obtain ⟨d, hd⟩ := hs.governed.watched.global q (hs.kept.global ▸ hq)
  by_cases hmax : d.ruleGlobal.limit = uintmaxMax
  · refine ⟨s, .of_forall fun n => ?_, hs, .refl s, fun d' hd' hlimit => ?_⟩
    · simp [limitGlobal, data_live hd, hmax, bind, Except.bind, pure, Except.pure]
    · rw [hd] at hd'
      cases hd'
      exact absurd hmax hlimit
  · have hstrict := (hs.governed.strict q d hd).global
    obtain ⟨s', hret, hs', hkept, hlower, hless⟩ :=
      poolListLimit_limits (E := E) hs.governed hs.fits
      hs.governed.watched.global_nodup hs.governed.watched.global hstrict.1 hstrict.2.1
      hstrict.2.2 hmax
    refine ⟨s', ?_, ⟨hs', hs.kept.trans hkept, hs.fits.lower hkept hlower⟩,
      ⟨hkept, hlower⟩, ?_⟩
    · simpa [limitGlobal, data_live hd, hmax, bind, Except.bind] using hret
    · intro d' hd' hlimit
      obtain ⟨m, hm⟩ := hkept.live' hd
      rw [hm] at hd'
      cases hd'
      rw [hkept.global]
      exact hless

theorem poolBackendAction_singleton (m : Member) (w : W) :
    poolBackendAction E rule 0 ⟨[m], w⟩ =
      ⟨[{ (poolAct E rule 0 m w).1 with
          usageParameter := (poolParameterGet E 0 (poolAct E rule 0 m w).1
            (poolAct E rule 0 m w).2).1 }],
        (poolParameterGet E 0 (poolAct E rule 0 m w).1 (poolAct E rule 0 m w).2).2⟩ := rfl

/-- What the update of a parameter leaves. -/
theorem poolUpdate_spec {m : Member} (hm : m.Mortal)
    (hdestroy : rule.action = .destroy) (w : W) :
    ∃ m' w', poolUpdate E rule ⟨[m], w⟩ = ⟨[m'], w'⟩ ∧ m'.Mortal ∧
      m'.usageParameter.toNat ≤ rule.limit.toNat := by
  simp only [poolUpdate, List.getElem?_cons_zero, List.set_cons_zero]
  generalize poolParameterGet E 0 m w = r
  have hm' : Member.Mortal { m with usageParameter := r.1 } := hm
  split
  · rw [poolBackendAction_singleton, hm'.parameter_eq hdestroy]
    exact ⟨_, _, rfl, poolAct_mortal hm' 0 r.2 0, Nat.zero_le _⟩
  · next hnot =>
      refine ⟨_, _, rfl, hm', ?_⟩
      exact Nat.le_of_not_lt fun hlt => hnot (UInt64.lt_iff_toNat_lt.mpr hlt)

/-- From one state of the first part of a round to a later one: what a pool reads is
what it read, or within its limit. -/
def Updates (s s' : Pools W) : Prop :=
  Kept s s' ∧ ∀ q, s'.usage q = s.usage q ∨ WithinOne q s'

theorem updateOne_updates (hs : Governed s) {q : Nat} (hq : q ∈ s.watchOne.items) :
    ∃ s', updateOne E q s = .ok s' ∧ Governed s' ∧ Updates s s' ∧ WithinOne q s' := by
  obtain ⟨d, hd⟩ := (hs.watched.one q).mp hq
  obtain ⟨m', w', hupdate, hmortal, hlimit⟩ := poolUpdate_spec (E := E.at [q])
    (hs.mortal q d hd) (hs.strict q d hd).one s.world
  have hreturn : updateOne E q s = .ok { s.put (q, m') with world := w' } := by
    simp only [updateOne, onGroup, data_live hd, List.mapM_cons, List.mapM_nil, bind,
      Except.bind, pure, Except.pure,
      List.map_cons, List.map_nil, hupdate, List.zip_cons_cons, List.zip_nil_right,
      List.foldl_cons, List.foldl_nil]
  have hkept := updateOne_kept hreturn
  have hnew : (s.put (q, m')).life q = .live { d with toMember := m' } := put_self hd
  have hwithin : WithinOne q { s.put (q, m') with world := w' } := by
    have husage : Pools.usage { s.put (q, m') with world := w' } q
        = m'.usageParameter.toNat := usage_of_live hnew
    intro d' hd'
    have hd' : (s.put (q, m')).life q = .live d' := hd'
    rw [hnew] at hd'
    cases hd'
    rw [husage]
    exact hlimit
  refine ⟨_, hreturn, hs.kept hkept fun r dr hdr => ?_, ⟨hkept, fun r => ?_⟩, hwithin⟩
  · have hdr : (s.put (q, m')).life r = .live dr := hdr
    by_cases hr : r = q
    · subst hr
      rw [hnew] at hdr
      cases hdr
      exact hmortal
    · rw [put_other hr] at hdr
      exact hs.mortal r dr hdr
  · by_cases hr : r = q
    · exact .inr (hr ▸ hwithin)
    · refine .inl ?_
      show Pools.usage (s.put (q, m')) r = _
      rw [Pools.usage, put_other hr, Pools.usage]

theorem WithinOne.updates {q : Nat} (hs : WithinOne q s) (h : Updates s s') :
    WithinOne q s' := by
  rcases h.2 q with hsame | hnew
  · intro d' hd'
    obtain ⟨d, m, hd, rfl, -⟩ := h.1.live hd'
    rw [hsame]
    exact hs d hd
  · exact hnew

theorem Updates.refl (s : Pools W) : Updates s s := ⟨.refl, fun _ => .inl rfl⟩

theorem Updates.trans (s₁ s₂ s₃ : Pools W) (h : Updates s₁ s₂) (h' : Updates s₂ s₃) :
    Updates s₁ s₃ := by
  refine ⟨h.1.trans h'.1, fun q => ?_⟩
  rcases h.2 q with hsame | hnew
  · rcases h'.2 q with hsame' | hnew'
    · exact .inl (hsame'.trans hsame)
    · exact .inr hnew'
  · exact .inr (hnew.updates h')

/-- What the first part of a round finds adds up to a uintmax. -/
def FitsUpdated (E : Surroundings W) (s : Pools W) : Prop :=
  ∀ s', s.watchOne.items.foldlM (fun s id => updateOne E id s) s = .ok s' → Fits s'

theorem poolRound_governed (hs : Governed s) (hfits : FitsUpdated E s) :
    ∃ s', Returns (fun n => poolRound E n s) s' ∧ Kept s s' ∧
      (∀ q ∈ s'.watchOne.items, WithinOne q s') ∧
      (∀ q ∈ s'.watchPerfork.items, WithinPerfork q s') ∧ ∀ q ∈ s'.watchGlobal.items,
      WithinGlobal q s' := by
  have hupdate : ∀ q ∈ s.watchOne.items, ∀ s', Governed s' ∧ Kept s s' → ∃ s'',
      Returns (fun _ => updateOne E q s') s'' ∧ (Governed s'' ∧ Kept s s'') ∧
      Updates s' s'' ∧ WithinOne q s'' := by
    intro q hq s' hs'
    obtain ⟨s'', hret, hs'', hupdates, hwithin⟩ :=
      updateOne_updates hs'.1 (hs'.2.one ▸ hq)
    exact ⟨s'', .of_forall fun _ => hret, ⟨hs'', hs'.2.trans hupdates.1⟩,
      hupdates, hwithin⟩
  obtain ⟨s₁, hret₁, ⟨hs₁, hkept₁⟩, -, hone⟩ :=
    returns_foldlM (f := fun _ s id => updateOne E id s)
    Updates.refl Updates.trans (fun _ _ _ h => h.updates) hupdate ⟨hs, .refl⟩
  have hfits₁ : Fits s₁ := hfits s₁ (hret₁.choose_spec _ le_rfl)
  have hforks : ∀ q ∈ s₁.watchPerfork.items, ∀ s', Bounded s₁ s' → ∃ s'',
      Returns (fun n => limitPerfork E n q s') s'' ∧ Bounded s₁ s'' ∧ Lower s' s'' ∧
      WithinPerfork q s'' :=
    fun q hq s' => limitPerfork_limits hq
  obtain ⟨s₂, hret₂, hs₂, hlower₂, hperfork⟩ :=
    returns_foldlM (f := fun n s id => limitPerfork E n id s)
    Lower.refl Lower.trans (fun _ _ _ h => h.lower) hforks ⟨hs₁, .refl, hfits₁⟩
  have hall : ∀ q ∈ s₂.watchGlobal.items, ∀ s', Bounded s₂ s' → ∃ s'',
      Returns (fun n => limitGlobal E n q s') s'' ∧ Bounded s₂ s'' ∧ Lower s' s'' ∧
      WithinGlobal q s'' :=
    fun q hq s' => limitGlobal_limits hq
  obtain ⟨s₃, hret₃, hs₃, hlower₃, hglobal⟩ :=
    returns_foldlM (f := fun n s id => limitGlobal E n id s)
    Lower.refl Lower.trans (fun _ _ _ h => h.lower) hall ⟨hs₂.governed, .refl, hs₂.fits⟩
  have hlower := Lower.trans s₁ s₂ s₃ hlower₂ hlower₃
  refine ⟨s₃, hret₁.bind (hret₂.bind hret₃), (hkept₁.trans hlower₂.1).trans hlower₃.1,
    fun q hq => ?_, fun q hq => ?_, fun q hq => ?_⟩
  · rw [hlower.1.one, hkept₁.one] at hq
    exact (hone q hq).lower hlower
  · rw [hlower.1.perfork] at hq
    exact (hperfork q hq).lower hlower₃
  · rw [hlower₃.1.global] at hq
    exact hglobal q hq

/-- **A round keeps all limits at once**, in every run that has left nothing on
`watch_perfork` that is gone and no fork behind: if all pools are mortal, their rules
destroy in a fixed order at limits that are not 0, and what the pools read adds up to a
uintmax, the round ends, and then the parameter of each pool is within its own limit,
the parameters of the forks of a pool that limits them add up to less than that limit,
and so do those of all pools for each limit for all. -/
theorem poolRound_limits {w : W} {events : List PoolEvent}
    (hrun : poolRun E events (Pools.empty w) = .ok s) (hleft : ∀ q, ¬ Left E w events q)
    (howner : ∀ q d, s.life q = .live d → ∃ p, s.life d.perforkChilds = .live p)
    (hmortal : ∀ q d, s.life q = .live d → d.toMember.Mortal)
    (hstrict : ∀ q d, s.life q = .live d → d.Strict) (hfits : FitsUpdated E s) :
    ∃ s', Returns (fun n => poolRound E n s) s' ∧ Kept s s' ∧
      (∀ q ∈ s'.watchOne.items, WithinOne q s') ∧
      (∀ q ∈ s'.watchPerfork.items, WithinPerfork q s') ∧ ∀ q ∈ s'.watchGlobal.items,
      WithinGlobal q s' := by
  have hcounted := counted_of_run hrun
  refine poolRound_governed ⟨watched_of_run hrun, hmortal, hstrict, fun q hq => ?_⟩ hfits
  cases hlife : s.life q with
  | unused =>
      have hpos := List.count_pos_iff.mpr hq
      rw [(hcounted.unused q hlife).1] at hpos
      exact absurd hpos (lt_irrefl 0)
  | live d =>
      obtain ⟨p, hp⟩ := howner q d hlife
      exact ⟨d, p, rfl, hp⟩
  | freed => exact absurd ((hcounted.freed q hlife).mp hq) (hleft q)

/-- A pool that limits its forks to one at a time, with three forks. -/
def threeForks : List PoolEvent :=
  [.configure 0 1 0 twoForks, .fork 1 0 2 0 twoForks, .fork 2 0 3 0 twoForks,
    .fork 3 0 4 0 twoForks]

theorem threeForks_run : ∃ s, poolRun nothing threeForks (Pools.empty ()) = .ok s ∧
    (∀ q ∈ [0, 1, 2, 3], ∃ d p, s.life q = .live d ∧ s.life d.perforkChilds = .live p ∧
      d.toMember.Mortal ∧
      d.Strict) ∧ s.watchOne.items = [0, 1, 2, 3] ∧
        s.watchPerfork.items = [0, 0, 0, 0] ∧ FitsUpdated nothing s := by
  have hstrict : ∀ d : PoolData, d.ruleOne.action = .destroy →
    d.rulePerfork = ⟨2, .first, .destroy⟩ →
      d.ruleGlobal = ⟨uintmaxMax, .first, .destroy⟩ → d.Strict := by
    intro d hone hperfork hglobal
    refine ⟨hone, ?_, ?_⟩
    · rw [hperfork]
      decide
    · rw [hglobal]
      decide
  refine ⟨_, rfl, ?_, rfl, rfl, fun s' hs' => ?_⟩
  · simp only [List.forall_mem_cons]
    refine ⟨⟨_, _, rfl, rfl, .inl rfl, hstrict _ rfl rfl rfl⟩,
      ⟨_, _, rfl, rfl, .inl rfl, hstrict _ rfl rfl rfl⟩,
      ⟨_, _, rfl, rfl, .inl rfl, hstrict _ rfl rfl rfl⟩,
      ⟨_, _, rfl, rfl, .inl rfl, hstrict _ rfl rfl rfl⟩, by simp⟩
  · obtain rfl := Except.ok.inj hs'
    unfold Fits
    decide

/-- Two of them have to go. -/
theorem poolRound_limits_threeForks :
    ∃ s s', poolRun nothing threeForks (Pools.empty ()) = .ok s ∧
    Returns (fun n => poolRound nothing n s) s' ∧ WithinPerfork 0 s' := by
  obtain ⟨s, hrun, hall, hone, hperfork, hfits⟩ := threeForks_run
  have hpools : ∀ q d, s.life q = .live d → ∃ p, s.life d.perforkChilds = .live p ∧
      d.toMember.Mortal ∧ d.Strict := by
    intro q d hd
    have hmem : q ∈ [0, 1, 2, 3] := hone ▸ ((watched_of_run hrun).one q).mpr ⟨d, hd⟩
    obtain ⟨d', p, hd', hp⟩ := hall q hmem
    rw [hd] at hd'
    cases hd'
    exact ⟨p, hp⟩
  have hleft : ∀ q, ¬ Left nothing () threeForks q := by
    rintro q ⟨before, after, hsplit, -⟩
    have hmem : PoolEvent.destroy q ∈ threeForks := by simp [hsplit]
    simp [threeForks] at hmem
  obtain ⟨s', hret, hkept, -, hwithin, -⟩ := poolRound_limits hrun hleft
    (fun q d hd => (hpools q d hd).imp fun _ h => h.1)
    (fun q d hd => (hpools q d hd).choose_spec.2.1)
    (fun q d hd => (hpools q d hd).choose_spec.2.2) hfits
  exact ⟨s, s', hrun, hret, hwithin 0 (by rw [hkept.perfork, hperfork]; decide)⟩

end

end Frozen.Chain
