/-
# `Frozen.Chain.Retry` — a rebuild that fails

`rebuildmon_handler` sends its request again after a rebuild, and does not look at what
the rebuild came to:

    retry:   ret = backend_pass(…)
             if ret = -EBADF:   rebuild, retry
             return ret < 0 ? ret : -EEXIST

So no failure of a rebuild stops it (`monitor_stops_iff`): only another answer to the
request does, and without one it goes on for ever.
-/
import Frozen.Chain.Monitor

namespace Frozen.Chain

variable {D W : Type}

/-! ## What a rebuild spends -/

section

variable {L : CountLayer D} {pass : Sem D W} {writer : Option (Sent → Sem D W)}
  {n n' : Nat}

theorem rebuildRebuild_mono (hle : n ≤ n') {u : RebuildUserdata D} {s : State W}
    {r : Int × RebuildUserdata D × State W}
    (h : rebuildRebuild L pass writer n u s = some r) :
    rebuildRebuild L pass writer n' u s = some r := by
  induction n generalizing n' u s with
  | zero => cases h
  | succ n ih =>
      obtain ⟨n', rfl⟩ := Nat.exists_eq_succ_of_ne_zero (Nat.ne_zero_of_lt hle)
      rw [rebuildRebuild] at h ⊢
      cases hround : rebuildRound L pass writer u s with
      | done u' s' => rwa [hround] at h
      | stop ret u' s' => rwa [hround] at h
      | redo u' s' =>
          rw [hround] at h
          exact ih (Nat.le_of_succ_le_succ hle) h

end

/-! ## A monitor and what is behind it -/

/-- A query beside which its runs are counted. -/
def tallied (q : Sem D W) : Sem D (W × Nat) := fun request s =>
  let o := q request ⟨s.world.1, s.events⟩
  ⟨o.ret, o.request, ⟨(o.state.world, s.world.2 + 1), o.state.events⟩⟩

/-- A rebuild monitor with `retry_request`, its childs, and those of its reader
with the writer. -/
structure Watch (D W : Type) where
  layer : CountLayer D
  childs : Sem D W
  reader : Sem D W
  writer : Option (Sent → Sem D W)
  retryRequest : UInt64
  retry : retryRequest ≠ 0

/-- When the request is sent. -/
structure Attempt (D W : Type) where
  request : Request D
  userdata : RebuildUserdata D
  state : State (W × Nat)

/-- How often it was sent before. -/
def Attempt.sent (a : Attempt D W) : Nat := a.state.world.2

namespace Watch

variable (m : Watch D W)

def rebuild (fuel : Nat) (u : RebuildUserdata D) (s : State (W × Nat)) :
    Option (Int × RebuildUserdata D × State (W × Nat)) :=
  rebuildRebuild m.layer (quietly m.reader)
    (m.writer.map fun write sent => quietly (write sent)) fuel u s

/-- The answer of the childs. -/
def answer (a : Attempt D W) : Out D (W × Nat) := tallied m.childs a.request a.state

def handler (fuel n : Nat) (a : Attempt D W) :
    Option (Out D (W × Nat) × RebuildUserdata D) :=
  rebuildmonHandler (m.rebuild fuel) m.retryRequest (tallied m.childs) n a.request
    a.userdata a.state

/-- The handler returns. -/
def Returns (a : Attempt D W) (o : Out D (W × Nat)) : Prop :=
  ∃ fuel n u, m.handler fuel n a = some (o, u)

/-- The childs answer `-EBADF`, the rebuild returns, and this is what there is now. -/
def Rebuilt (a : Attempt D W) (ret : Int) (a' : Attempt D W) : Prop :=
  (m.answer a).ret = -EBADF ∧ a'.request = (m.answer a).request ∧
    ∃ fuel, m.rebuild fuel a.userdata (m.answer a).state
      = some (ret, a'.userdata, a'.state)

/-- The attempts of one request. -/
inductive Attempts (start : Attempt D W) : Nat → Attempt D W → Prop
  | first : Attempts start 0 start
  | again {k : Nat} {a : Attempt D W} {ret : Int} {a' : Attempt D W} :
      Attempts start k a → m.Rebuilt a ret a' → Attempts start (k + 1) a'

/-- A failed rebuild stops the request: the handler returns a negative value, and has
not sent it again. -/
def Stops (start : Attempt D W) : Prop :=
  ∀ k a ret a', m.Attempts start k a → m.Rebuilt a ret a' → ret < 0 →
    ∃ o, m.Returns start o ∧ o.ret < 0 ∧ o.state.world.2 = start.sent + (k + 1)

end Watch

section

variable {m : Watch D W} {a a' start : Attempt D W} {o : Out D (W × Nat)} {ret : Int}
  {k fuel fuel' n n' : Nat} {u : RebuildUserdata D}

theorem Watch.handler_succ : m.handler fuel (n + 1) a =
    if (m.answer a).ret = -EBADF then
      (m.rebuild fuel a.userdata (m.answer a).state).bind fun r =>
        m.handler fuel n ⟨(m.answer a).request, r.2.1, r.2.2⟩
    else some (if (m.answer a).ret < 0 then m.answer a
      else { m.answer a with ret := -EEXIST }, a.userdata) := by
  unfold Watch.handler Watch.answer
  rw [rebuildmonHandler]
  dsimp only
  generalize tallied m.childs a.request a.state = o
  by_cases hbad : o.ret = -EBADF
  · rw [if_pos hbad, if_pos hbad]
    cases m.rebuild fuel a.userdata o.state with
    | none => rfl
    | some r => exact if_pos m.retry
  · rw [if_neg hbad, if_neg hbad]
    split_ifs <;> rfl

/-- Without `-EBADF` the handler returns. -/
theorem Watch.handler_answered (hbad : (m.answer a).ret ≠ -EBADF) :
    m.handler fuel (n + 1) a =
    some (if (m.answer a).ret < 0 then m.answer a
      else { m.answer a with ret := -EEXIST }, a.userdata) := by
  rw [Watch.handler_succ, if_neg hbad]

theorem Watch.rebuild_mono (hle : fuel ≤ fuel') {u : RebuildUserdata D}
    {s : State (W × Nat)} {r : Int × RebuildUserdata D × State (W × Nat)}
    (h : m.rebuild fuel u s = some r) : m.rebuild fuel' u s = some r :=
  rebuildRebuild_mono hle h

theorem Watch.handler_mono (hle : fuel ≤ fuel')
    {r : Out D (W × Nat) × RebuildUserdata D} (h : m.handler fuel n a = some r) :
    m.handler fuel' n a = some r := by
  induction n generalizing a with
  | zero => cases h
  | succ n ih =>
      rw [Watch.handler_succ] at h ⊢
      by_cases hbad : (m.answer a).ret = -EBADF
      · rw [if_pos hbad] at h ⊢
        obtain ⟨t, hrebuild, hrest⟩ := Option.bind_eq_some_iff.mp h
        exact Option.bind_eq_some_iff.mpr ⟨t, m.rebuild_mono hle hrebuild, ih hrest⟩
      · rwa [if_neg hbad] at h ⊢

theorem Watch.Rebuilt.unique {ret' : Int} {a'' : Attempt D W} (h : m.Rebuilt a ret a')
    (h' : m.Rebuilt a ret' a'') : ret = ret' ∧ a' = a'' := by
  obtain ⟨-, hrequest, fuel, hrun⟩ := h
  obtain ⟨-, hrequest', fuel', hrun'⟩ := h'
  have hsame := (m.rebuild_mono (le_max_left fuel fuel') hrun).symm.trans
      (m.rebuild_mono (le_max_right fuel fuel') hrun')
  obtain ⟨rfl, hrest⟩ := Prod.mk.inj (Option.some.inj hsame)
  obtain ⟨hu, hs⟩ := Prod.mk.inj hrest
  cases a'
  cases a''
  cases hu
  cases hs
  cases hrequest.trans hrequest'.symm
  exact ⟨rfl, rfl⟩

/-- **The step**: after a rebuild, whatever it came to, the handler does what it does
for the request that is sent again. -/
theorem Watch.Rebuilt.returns_iff (h : m.Rebuilt a ret a') :
    m.Returns a o ↔ m.Returns a' o := by
  obtain ⟨hbad, hrequest, fuel, hrun⟩ := h
  constructor
  · rintro ⟨fuel', n, u, hreturn⟩
    cases n with
    | zero => cases hreturn
    | succ n =>
        rw [Watch.handler_succ, if_pos hbad] at hreturn
        obtain ⟨t, hrebuild, hrest⟩ := Option.bind_eq_some_iff.mp hreturn
        have hsame := (m.rebuild_mono (le_max_left fuel fuel') hrun).symm.trans
          (m.rebuild_mono (le_max_right fuel fuel') hrebuild)
        cases Option.some.inj hsame
        rw [← hrequest] at hrest
        exact ⟨fuel', n, u, hrest⟩
  · rintro ⟨fuel', n, u, hreturn⟩
    refine ⟨max fuel fuel', n + 1, u, ?_⟩
    rw [Watch.handler_succ, if_pos hbad]
    refine Option.bind_eq_some_iff.mpr
      ⟨_, m.rebuild_mono (le_max_left fuel fuel') hrun, ?_⟩
    rw [← hrequest]
    exact m.handler_mono (le_max_right fuel fuel') hreturn

/-- By induction on the attempts. -/
theorem Watch.Attempts.returns_iff (h : m.Attempts start k a) :
    m.Returns start o ↔ m.Returns a o := by
  induction h with
  | first => exact Iff.rfl
  | again _ hrebuilt ih => exact ih.trans hrebuilt.returns_iff

theorem Watch.rebuild_sent {s s' : State (W × Nat)} {u' : RebuildUserdata D}
    (h : m.rebuild fuel u s = some (ret, u', s')) : s'.world.2 = s.world.2 := by
  refine rebuild_keep (f := fun t => t.world.2) (fun _ _ => rfl) ?_ fuel h
  intro write hwrite
  obtain ⟨write', -, rfl⟩ := Option.map_eq_some_iff.mp hwrite
  exact fun _ _ _ => rfl

theorem Watch.Rebuilt.sent (h : m.Rebuilt a ret a') : a'.sent = a.sent + 1 := by
  obtain ⟨-, -, fuel, hrun⟩ := h
  exact Watch.rebuild_sent hrun

theorem Watch.Attempts.sent (h : m.Attempts start k a) : a.sent = start.sent + k := by
  induction h with
  | first => rfl
  | again _ hrebuilt ih => rw [hrebuilt.sent, ih, Nat.add_assoc]

/-- The handler returns after the attempt that is answered by something
else than `-EBADF`. -/
theorem Watch.returns_of_answered (hbad : (m.answer a).ret ≠ -EBADF) (h : m.Returns a o) :
    o.ret < 0 ∧ o.state.world.2 = a.sent + 1 := by
  obtain ⟨fuel, n, u, hreturn⟩ := h
  cases n with
  | zero => cases hreturn
  | succ n =>
      rw [Watch.handler_answered hbad] at hreturn
      obtain ⟨rfl, -⟩ := Prod.mk.inj (Option.some.inj hreturn)
      split_ifs with hneg
      · exact ⟨hneg, rfl⟩
      · exact ⟨(by decide : -EEXIST < 0), rfl⟩

theorem Watch.Attempts.cons (hrebuilt : m.Rebuilt start ret a')
    (h : m.Attempts a' k a) : m.Attempts start (k + 1) a := by
  induction h with
  | first => exact .again .first hrebuilt
  | again _ hnext ih => exact .again ih hnext

/-- By induction on the retries. -/
theorem Watch.exists_answered (n : Nat) : ∀ a, m.handler fuel n a = some (o, u) →
    ∃ k a', m.Attempts a k a' ∧ (m.answer a').ret ≠ -EBADF := by
  induction n with
  | zero => exact fun a h => nomatch h
  | succ n ih =>
      intro a h
      by_cases hbad : (m.answer a).ret = -EBADF
      · rw [Watch.handler_succ, if_pos hbad] at h
        obtain ⟨t, hrebuild, hrest⟩ := Option.bind_eq_some_iff.mp h
        obtain ⟨k, a', hattempts, hanswer⟩ := ih _ hrest
        exact ⟨k + 1, a', hattempts.cons ⟨hbad, rfl, fuel, hrebuild⟩, hanswer⟩
      · exact ⟨0, a, .first, hbad⟩

/-- The handler returns exactly if some attempt is answered by something
else than `-EBADF`. -/
theorem Watch.exists_returns_iff :
    (∃ o, m.Returns start o) ↔ ∃ k a, m.Attempts start k a ∧
      (m.answer a).ret ≠ -EBADF := by
  constructor
  · rintro ⟨o, fuel, n, u, hreturn⟩
    exact Watch.exists_answered n start hreturn
  · rintro ⟨k, a, hattempts, hanswer⟩
    exact ⟨_, hattempts.returns_iff.mpr ⟨0, 1, _, Watch.handler_answered hanswer⟩⟩

/-- A request is counted as often as it was sent. -/
theorem Watch.Returns.sent (h : m.Returns a o) : a.sent < o.state.world.2 := by
  obtain ⟨k, a', hattempts, hanswer⟩ := Watch.exists_returns_iff.mp ⟨o, h⟩
  have hlast := (Watch.returns_of_answered hanswer (hattempts.returns_iff.mp h)).2
  rw [hlast, hattempts.sent]
  omega

end

/-- **A failed rebuild stops the request** exactly if none fails; and the handler
returns exactly if some attempt is answered by something else than `-EBADF`. -/
theorem monitor_stops_iff (m : Watch D W) (start : Attempt D W) :
    (m.Stops start ↔ ∀ k a ret a', m.Attempts start k a → m.Rebuilt a ret a' → 0 ≤ ret) ∧
      ((∃ o, m.Returns start o) ↔ ∃ k a, m.Attempts start k a ∧
        (m.answer a).ret ≠ -EBADF) := by
  refine ⟨⟨fun hstops k a ret a' hattempts hrebuilt => ?_,
    fun hnone k a ret a' hattempts hrebuilt hret => ?_⟩, Watch.exists_returns_iff⟩
  · by_contra hret
    obtain ⟨o, hreturns, -, hsent⟩ :=
      hstops k a ret a' hattempts hrebuilt (Int.not_le.mp hret)
    -- the request was sent once more
    have hagain := Watch.Attempts.again hattempts hrebuilt
    have hmore := (hagain.returns_iff.mp hreturns).sent
    rw [hagain.sent] at hmore
    omega
  · exact absurd hret (Int.not_lt.mpr (hnone k a ret a' hattempts hrebuilt))

/-! ## A reader that fails -/

theorem retry_one : (1 : UInt64) ≠ 0 := by
  decide

/-- The childs always answer `-EBADF`, and the reader cannot be read. -/
def hopeless : Watch (Option Int) Unit where
  layer := counters
  childs := fun request s => ⟨-EBADF, request, s⟩
  reader := fun request s => ⟨-EINVAL, request, s⟩
  writer := none
  retryRequest := 1
  retry := retry_one

def hopelessStart : Attempt (Option Int) Unit where
  request := [(.action, some 0)]
  userdata := { plainRebuild with reqRebuild := none }
  state := ⟨((), 0), []⟩

/-- Its rebuilds fail, and it never returns. -/
theorem monitor_never_stops :
    ¬ hopeless.Stops hopelessStart ∧ ¬ ∃ o, hopeless.Returns hopelessStart o := by
  have hnever : ¬ ∃ o, hopeless.Returns hopelessStart o := by
    rw [Watch.exists_returns_iff]
    rintro ⟨k, a, -, hanswer⟩
    exact hanswer rfl
  refine ⟨fun hstops => ?_, hnever⟩
  have hrebuilt : ∃ a', hopeless.Rebuilt hopelessStart (-EINVAL) a' := by
    refine ⟨⟨_, _, _⟩, rfl, rfl, 1, rfl⟩
  obtain ⟨a', hrebuilt⟩ := hrebuilt
  obtain ⟨o, hreturns, -⟩ :=
    hstops 0 hopelessStart (-EINVAL) a' .first hrebuilt (by decide)
  exact hnever ⟨o, hreturns⟩

end Frozen.Chain
