/-
# `Frozen.Chain.Balancer` — the fairness of request/balancer

`balancer_request_rest` in the mode `counting` passes a request to `clone` members of
the pool, one after the other; a counter that is kept from request to request says
which.  Here it is taken one delivery at a time: a run is requests and their deliveries,
each of which succeeds, and the handler is the deliveries of one request
(`balancerRequestRest_of_run`).

`clone_i` is counted down after a delivery and compared with 0 then.  The first delivery
is made in any case, and from 0 it is a long way down.

    balancer_fair_iff   which pools are served fairly
-/
import Frozen.Chain.Signal
import Frozen.Lib.Cycle
import Frozen.Lib.Machine

namespace Frozen.Chain

open Lib

variable {D W : Type}

/-! ## Deliveries -/

/-- The balancer between two deliveries: `userdata->counter`, `clone_i` if it is at a
request, the request as it is by now, and the state of the pool. -/
structure Balancing (D W : Type) where
  counter : UInt64
  cloneI : Option UInt64
  request : Request D
  state : State W

/-- A new request, or the next delivery of the last one. -/
inductive BalancerMove (D : Type) where
  | accept (request : Request D)
  | deliver

inductive BalancerLabel where
  | accepted
  /-- To which member. -/
  | delivered (i : Nat)
deriving DecidableEq, Repr

/-- `--clone_i > 0`: what is left to count down, or the request is done. -/
def countDown (cloneI : UInt64) : Option UInt64 :=
  if cloneI - 1 > 0 then some (cloneI - 1) else none

section

variable (clone : UInt64) (pool : List (Sem D W))

/-- One round of `redo`; a delivery that fails would end the run. -/
def balancerStep (b : Balancing D W) :
    BalancerMove D → Option (Balancing D W × BalancerLabel)
  | .accept request =>
      match b.cloneI with
      | some _ => none
      | none => some ({ b with cloneI := some clone, request := request }, .accepted)
  | .deliver =>
      match b.cloneI with
      | none => none
      | some cloneI =>
          let i := b.counter.toNat % pool.length
          match pool[i]? with
          | none => none
          | some child =>
              let o := child b.request b.state
              if o.ret < 0 then none
              else
                some ({ counter := b.counter + 1, cloneI := countDown cloneI, request := o.request,
                        state := o.state }, .delivered i)

/-- After `balancer_configure`. -/
def balancerIdle (s : State W) : Balancing D W := ⟨0, none, [], s⟩

end

/-! ## What it should do -/

/-- The members that the requests were delivered to, the last request first. -/
abbrev Served := List (List Nat)

namespace Served

def next : Served → BalancerLabel → Served
  | h, .accepted => [] :: h
  | d :: h, .delivered i => (d ++ [i]) :: h
  | [], .delivered i => [[i]]

/-- All deliveries, in order. -/
def order (h : Served) : List Nat := h.reverse.flatten

@[simp] theorem order_nil : order [] = [] := rfl

@[simp] theorem order_accepted (h : Served) : order ([] :: h) = order h := by
  simp [order]

@[simp] theorem order_delivered (d : List Nat) (h : Served) (i : Nat) :
    order ((d ++ [i]) :: h) = order (d :: h) ++ [i] := by
  simp [order]

end Served

/-- Every request is delivered `clone` times, to the members in turn. -/
structure Fair (n : Nat) (clone : UInt64) (b : Balancing D W) (h : Served) : Prop where
  finished : ∀ d ∈ if b.cloneI = none then h else h.tail, d.length = clone.toNat
  present : ∀ d ∈ h, d.length ≤ clone.toNat
  cyclic : h.order = cycle n h.order.length
  balanced : ∀ i < n, ∀ j < n, h.order.count i ≤ h.order.count j + 1

/-! ## A step -/

section

variable {clone : UInt64} {pool : List (Sem D W)} {b b' : Balancing D W}
  {l : BalancerLabel}

theorem balancerStep_accept {request : Request D}
    (h : balancerStep clone pool b (.accept request) = some (b', l)) :
    b.cloneI = none ∧ b' = { b with cloneI := some clone, request := request } ∧
      l = .accepted := by
  cases hc : b.cloneI with
  | some c => simp [balancerStep, hc] at h
  | none =>
      simp only [balancerStep, hc, Option.some_inj, Prod.mk.injEq] at h
      exact ⟨rfl, h.1.symm, h.2.symm⟩

theorem balancerStep_deliver (h : balancerStep clone pool b .deliver = some (b', l)) :
    ∃ c child, b.cloneI = some c ∧ pool[b.counter.toNat % pool.length]? = some child ∧
      ¬ (child b.request b.state).ret < 0 ∧
      b' = { counter := b.counter + 1, cloneI := countDown c,
             request := (child b.request b.state).request,
             state := (child b.request b.state).state } ∧
      l = .delivered (b.counter.toNat % pool.length) := by
  cases hc : b.cloneI with
  | none => simp [balancerStep, hc] at h
  | some c =>
      cases hchild : pool[b.counter.toNat % pool.length]? with
      | none => simp [balancerStep, hc, hchild] at h
      | some child =>
          simp only [balancerStep, hc, hchild] at h
          split_ifs at h with hret
          simp only [Option.some_inj, Prod.mk.injEq] at h
          exact ⟨c, child, rfl, rfl, hret, h.1.symm, h.2.symm⟩

end

/-! ## Counting down -/

theorem toNat_sub_one {c : UInt64} (h : c ≠ 0) : (c - 1).toNat + 1 = c.toNat := by
  have hpos : c.toNat ≠ 0 := fun h0 => h (UInt64.toNat_inj.mp h0)
  have hle : (1 : UInt64) ≤ c := by
    rw [UInt64.le_iff_toNat_le, UInt64.toNat_one]
    omega
  rw [UInt64.toNat_sub_of_le _ _ hle, UInt64.toNat_one]
  omega

theorem countDown_some {c c' : UInt64} (h : c ≠ 0) (hc : countDown c = some c') :
    c' ≠ 0 ∧ c'.toNat + 1 = c.toNat := by
  unfold countDown at hc
  split_ifs at hc with hpos
  cases hc
  exact ⟨UInt64.pos_iff_ne_zero.mp hpos, toNat_sub_one h⟩

theorem countDown_none {c : UInt64} (h : c ≠ 0) (hc : countDown c = none) :
    c.toNat = 1 := by
  unfold countDown at hc
  split_ifs at hc with hpos
  have hzero : c - 1 = 0 := not_not.mp (mt UInt64.pos_iff_ne_zero.mpr hpos)
  rw [← toNat_sub_one h, hzero]
  rfl

/-! ## A run -/

section

variable {clone : UInt64} {pool : List (Sem D W)} {b b' : Balancing D W} {h : Served}
  {l : BalancerLabel}

/-- `clone_i` is what the last request still has to be delivered; the counter is at
the next member. -/
structure Served.Counted (n : Nat) (clone : UInt64) (b : Balancing D W) (h : Served) :
    Prop where
  counter : b.counter.toNat = h.order.length % 2 ^ 64
  cyclic : h.order.length ≤ 2 ^ 64 → h.order = cycle n h.order.length
  idle : b.cloneI = none → ∀ d ∈ h, d.length = clone.toNat
  busy : ∀ c, b.cloneI = some c → ∃ d h', h = d :: h' ∧ c ≠ 0 ∧
  d.length + c.toNat = clone.toNat ∧
    ∀ d ∈ h', d.length = clone.toNat

theorem Served.Counted.idle_start (s : State W) :
    Counted (D := D) pool.length clone (balancerIdle s) [] where
  counter := rfl
  cyclic := fun _ => rfl
  idle := fun _ _ hd => absurd hd List.not_mem_nil
  busy := fun _ hc => nomatch hc

/-- What a step preserves. -/
theorem Served.Counted.step (hclone : clone ≠ 0) (hinv : Counted pool.length clone b h)
    {a : BalancerMove D} (hstep : balancerStep clone pool b a = some (b', l)) :
    Counted pool.length clone b' (h.next l) := by
  cases a with
  | accept request =>
      obtain ⟨hidle, rfl, rfl⟩ := balancerStep_accept hstep
      have hdone := hinv.idle hidle
      refine ⟨?_, ?_, fun hc => ?_, ?_⟩
      · rw [next, order_accepted]
        exact hinv.counter
      · rw [next, order_accepted]
        exact hinv.cyclic
      · cases hc
      · rintro c hc
        cases hc
        exact ⟨[], h, rfl, hclone, Nat.zero_add _, hdone⟩
  | deliver =>
      obtain ⟨c, child, hc, -, -, rfl, rfl⟩ := balancerStep_deliver hstep
      obtain ⟨d, h', rfl, hc0, hleft, hdone⟩ := hinv.busy c hc
      have hcount := hinv.counter
      refine ⟨?_, ?_, ?_, ?_⟩
      · show (b.counter + 1).toNat = _
        rw [next, order_delivered, List.length_append, UInt64.toNat_add, hcount]
        simp
      · rw [next, order_delivered, List.length_append, List.length_singleton, cycle_succ]
        intro hle
        have hlt : (order (d :: h')).length % 2 ^ 64 = (order (d :: h')).length :=
          Nat.mod_eq_of_lt (by omega)
        rw [hcount, hlt, ← hinv.cyclic (by omega)]
      · intro hnone x hx
        have hlast := countDown_none hc0 hnone
        rcases List.mem_cons.mp hx with rfl | hx
        · rw [List.length_append, List.length_singleton]
          omega
        · exact hdone x hx
      · intro c' hc'
        obtain ⟨hc0', hone⟩ := countDown_some hc0 hc'
        refine ⟨_, _, rfl, hc0', ?_, hdone⟩
        rw [List.length_append, List.length_singleton]
        omega

theorem Served.Counted.fair {n : Nat} (hinv : Counted n clone b h)
    (hlt : h.order.length < 2 ^ 64) : Fair n clone b h where
  finished := by
    cases hc : b.cloneI with
    | none => exact hinv.idle hc
    | some c =>
        obtain ⟨d, h', rfl, -, -, hdone⟩ := hinv.busy c hc
        exact hdone
  present := by
    intro d hd
    cases hc : b.cloneI with
    | none => exact (hinv.idle hc d hd).le
    | some c =>
        obtain ⟨d', h', rfl, -, hleft, hdone⟩ := hinv.busy c hc
        rcases List.mem_cons.mp hd with rfl | hd
        · omega
        · exact (hdone d hd).le
  cyclic := hinv.cyclic hlt.le
  balanced := by
    intro i hi j hj
    rw [hinv.cyclic hlt.le]
    exact count_cycle_le hi hj

/-- Nothing has been delivered; a request may have come. -/
structure Served.Unserved (s : State W) (clone : UInt64) (b : Balancing D W)
    (h : Served) : Prop where
  counter : b.counter = 0
  state : b.state = s
  request : b.cloneI = none ∧ h = [] ∨ b.cloneI = some clone ∧ h = [[]]

/-- If the first member fails whatever it is asked, no delivery is part of a run. -/
theorem Served.Unserved.step {s : State W} (hpool : pool ≠ [])
    (hfail : ∀ request, ((pool.head hpool) request s).ret < 0)
    (hinv : Unserved s clone b h) {a : BalancerMove D}
    (hstep : balancerStep clone pool b a = some (b', l)) :
    Unserved s clone b' (h.next l) := by
  cases a with
  | accept request =>
      obtain ⟨hidle, rfl, rfl⟩ := balancerStep_accept hstep
      rcases hinv.request with ⟨-, rfl⟩ | ⟨hbusy, -⟩
      · exact ⟨hinv.counter, hinv.state, .inr ⟨rfl, rfl⟩⟩
      · rw [hidle] at hbusy
        cases hbusy
  | deliver =>
      obtain ⟨c, child, -, hchild, hret, -, -⟩ := balancerStep_deliver hstep
      rw [hinv.counter, UInt64.toNat_zero, Nat.zero_mod, ← List.head?_eq_getElem?,
        List.head?_eq_some_head hpool, Option.some_inj] at hchild
      rw [hinv.state, ← hchild] at hret
      exact absurd (hfail b.request) hret

theorem Served.Unserved.fair {n : Nat} {s : State W} (hinv : Unserved s clone b h) :
    Fair n clone b h := by
  rcases hinv.request with ⟨hidle, rfl⟩ | ⟨hbusy, rfl⟩
  · exact ⟨by simp, by simp, rfl, by simp⟩
  · exact ⟨by simp [hbusy], by simp, rfl, by simp [Served.order]⟩

end

/-! ## The handler -/

/-- How often a request is delivered. -/
def roundsOf (cloneI : UInt64) : Nat := if cloneI = 0 then 2 ^ 64 else cloneI.toNat

theorem countDown_rounds {c c' : UInt64} (hc : countDown c = some c') :
    roundsOf c = roundsOf c' + 1 := by
  by_cases hc0 : c = 0
  · subst hc0
    obtain rfl : 0 - 1 = c' := Option.some_inj.mp hc
    decide
  · obtain ⟨hc0', hone⟩ := countDown_some hc0 hc
    rw [roundsOf, if_neg hc0, roundsOf, if_neg hc0', hone]

theorem countDown_last {c : UInt64} (hc : countDown c = none) : roundsOf c = 1 := by
  have hc0 : c ≠ 0 := by
    rintro rfl
    cases hc
  rw [roundsOf, if_neg hc0]
  exact countDown_none hc0 hc

section

variable {clone : UInt64} {pool : List (Sem D W)} {u : BalancerUserdata}

/-- The deliveries of a request, up to the last, are the rounds of `redo`. -/
theorem balancerLoop_of_run (hmode : u.mode = .counting) :
    ∀ {n k : Nat} {b b' : Balancing D W}
    {labels : List BalancerLabel} {c : UInt64}, b.cloneI = some c →
      b.counter.toNat = (u.counter + k) % 2 ^ 64 →
    run (balancerStep clone pool) b (.replicate n .deliver) = some (b', labels) →
      b'.cloneI = none →
    roundsOf c = n ∧ balancerLoop u pool n k b.request b.state
      = ⟨-EEXIST, b'.request, b'.state⟩
  | 0, _, b, _, _, c, hc, _, hrun, hdone => by
      cases hrun
      rw [hc] at hdone
      cases hdone
  | n + 1, k, b, b', _, c, hc, hcounter, hrun, hdone => by
      obtain ⟨b₁, l, ls, hstep, hrest, -⟩ := run_cons hrun
      obtain ⟨c', child, hc', hchild, hret, rfl, -⟩ := balancerStep_deliver hstep
      obtain rfl := Option.some_inj.mp (hc.symm.trans hc')
      have hindex : u.index k % pool.length = b.counter.toNat % pool.length := by
        rw [BalancerUserdata.index, hmode, hcounter]
      have hround : balancerLoop u pool (n + 1) k b.request b.state
          = balancerLoop u pool n (k + 1) (child b.request b.state).request
            (child b.request b.state).state := by
        rw [balancerLoop, andThen, hindex, List.getD_eq_getElem?_getD, hchild,
          Option.getD_some]
        exact if_neg hret
      rw [hround]
      cases hleft : countDown c with
      | none =>
          cases n with
          | zero =>
              cases hrest
              exact ⟨countDown_last hleft, rfl⟩
          | succ n =>
              obtain ⟨_, _, _, hblocked, -, -⟩ := run_cons hrest
              obtain ⟨_, _, hsome, -⟩ := balancerStep_deliver hblocked
              rw [hleft] at hsome
              cases hsome
      | some c' =>
          have hnext : (b.counter + 1).toNat = (u.counter + (k + 1)) % 2 ^ 64 := by
            rw [UInt64.toNat_add, hcounter, UInt64.toNat_one, Nat.mod_add_mod,
              Nat.add_assoc]
          obtain ⟨hrounds, hloop⟩ := balancerLoop_of_run hmode hleft hnext hrest hdone
          exact ⟨by rw [countDown_rounds hleft, hrounds], hloop⟩

/-- **A request and all its deliveries** are a call of the handler. -/
theorem balancerRequestRest_of_run (hmode : u.mode = .counting) {n : Nat}
    {b b' : Balancing D W} {labels : List BalancerLabel} {request : Request D}
    (hcounter : b.counter.toNat = u.counter % 2 ^ 64)
    (hrun : run (balancerStep u.clone pool) b
      (.accept request :: .replicate n .deliver) = some (b', labels))
    (hdone : b'.cloneI = none) :
    u.rounds = n ∧ balancerRequestRest u pool request b.state
      = ⟨-EEXIST, b'.request, b'.state⟩ := by
  obtain ⟨b₁, l, ls, hstep, hrest, -⟩ := run_cons hrun
  obtain ⟨-, rfl, -⟩ := balancerStep_accept hstep
  obtain ⟨hrounds, hloop⟩ := balancerLoop_of_run (k := 0)
    (b := { b with cloneI := some u.clone, request := request }) hmode rfl
    hcounter hrest hdone
  have hpool : pool.length ≠ 0 := by
    intro hempty
    cases n with
    | zero =>
        cases hrest
        cases hdone
    | succ n =>
        obtain ⟨_, _, _, hfirst, -, -⟩ := run_cons hrest
        obtain ⟨_, child, _, hchild, -⟩ := balancerStep_deliver hfirst
        rw [List.eq_nil_of_length_eq_zero hempty] at hchild
        cases hchild
  have hround : u.rounds = n := hrounds
  rw [balancerRequestRest, if_neg hpool, hround]
  exact ⟨rfl, hloop⟩

end

/-! ## Fairness -/

/-- The first delivery is made whatever `clone` is. -/
theorem run_first {clone : UInt64} {pool : List (Sem D W)} (hpool : pool ≠ [])
    {s : State W} {request : Request D} (hret : ¬ ((pool.head hpool) request s).ret < 0) :
    ∃ b, run (balancerStep clone pool) (balancerIdle s) [.accept request, .deliver]
      = some (b, [.accepted, .delivered 0]) := by
  cases pool with
  | nil => exact absurd rfl hpool
  | cons child rest =>
      rw [List.head_cons] at hret
      exact ⟨⟨1, countDown clone, (child request s).request, (child request s).state⟩,
        by simp [run, balancerStep, balancerIdle, hret]⟩

/-- **The pool is served fairly** in every run exactly if `clone` is not 0, or the first
delivery never succeeds. -/
theorem balancer_fair_iff (clone : UInt64) (pool : List (Sem D W)) (hpool : pool ≠ [])
    (s : State W) :
    (∀ moves b labels, run (balancerStep clone pool) (balancerIdle s) moves
      = some (b, labels) → (Served.order (labels.foldl .next [])).length < 2 ^ 64 →
        Fair pool.length clone b (labels.foldl .next [])) ↔
      clone ≠ 0 ∨ ∀ request, ((pool.head hpool) request s).ret < 0 := by
  constructor
  · intro hall
    by_contra hnot
    obtain ⟨hzero, hsome⟩ := not_or.mp hnot
    obtain rfl := not_not.mp hzero
    obtain ⟨request, hret⟩ := not_forall.mp hsome
    obtain ⟨b, hrun⟩ := run_first hpool hret
    have hfair := hall _ b _ hrun (by decide)
    exact absurd (hfair.present [0] List.mem_cons_self) (by decide)
  · rintro (hclone | hfail) moves b labels hrun hlt
    · have hinv := run_invariant Served.next (Served.Counted pool.length clone)
        (fun _ _ _ _ _ hinv hstep => hinv.step hclone hstep) (.idle_start s) hrun
      exact hinv.fair hlt
    · have hstart : Served.Unserved (D := D) s clone (balancerIdle s) [] :=
        ⟨rfl, rfl, .inl ⟨rfl, rfl⟩⟩
      have hinv := run_invariant Served.next (Served.Unserved s clone)
        (fun _ _ _ _ _ hinv hstep => hinv.step hpool hfail hstep) hstart hrun
      exact hinv.fair

/-- Two members that answer 0. -/
def twoLeaves : List (Sem (Option Int) Unit) :=
  [leafQuery numbers (answering 0), leafQuery numbers (answering 0)]

/-- Three deliveries for each request, to two members. -/
theorem balancer_fair_iff_two :
    twoLeaves ≠ [] ∧
      ((∀ moves b labels, run (balancerStep 3 twoLeaves) (balancerIdle ⟨(), []⟩) moves
        = some (b, labels) → (Served.order (labels.foldl .next [])).length < 2 ^ 64 →
          Fair twoLeaves.length 3 b (labels.foldl .next [])) ↔
        (3 : UInt64) ≠ 0 ∨ ∀ request,
        ((twoLeaves.head (List.cons_ne_nil _ _)) request ⟨(), []⟩).ret < 0) :=
  ⟨List.cons_ne_nil _ _, balancer_fair_iff 3 twoLeaves (List.cons_ne_nil _ _) ⟨(), []⟩⟩

/-- With `clone` 0 a request has been delivered three times, and 2^64 - 3
deliveries are left. -/
theorem balancer_clone_zero :
    (run (balancerStep 0 twoLeaves) (balancerIdle ⟨(), []⟩)
      [.accept [], .deliver, .deliver, .deliver]).map
        (fun r => (r.1.cloneI, r.2))
      = some (some 0xFFFFFFFFFFFFFFFD,
        [.accepted, .delivered 0, .delivered 1, .delivered 0]) ∧
    ¬ ∀ moves b labels,
      run (balancerStep 0 twoLeaves) (balancerIdle ⟨(), []⟩) moves = some (b, labels) →
      (Served.order (labels.foldl .next [])).length < 2 ^ 64 →
        Fair twoLeaves.length 0 b (labels.foldl .next []) := by
  refine ⟨by decide, fun hall => ?_⟩
  obtain ⟨b, hrun⟩ := @run_first _ _ 0 twoLeaves (List.cons_ne_nil _ _) ⟨(), []⟩ []
    (by decide)
  exact absurd ((hall _ b _ hrun (by decide)).present [0] List.mem_cons_self) (by decide)

end Frozen.Chain
