/-
# `Frozen.Chain.Linear` — request/balancer in linear mode

The first `linear_len` bytes of a field choose the backend that a request goes to: they
are read into an array of zeros, whose first eight bytes are an index into
`linear_pool`.  A slot of the pool is filled when it is first used, with a fork of the
only child, and a fork that answers `-EBADF` is destroyed and replaced while the request
is under way.

A run is requests and their deliveries, one at a time, and the handler is the deliveries
of one request (`balancerRequestLinear_of_run`).  Forks are numbered in the order in
which they are made.

    linear_routes   what goes where in every run
-/
import Frozen.Binary.Buffer
import Frozen.Chain.Balancer

namespace Frozen.Chain

open Lib

variable {D W : Type}

/-! ## Configuration -/

def MAX_LINEAR_LEN : UInt64 := 8

/-- The size of `linear_pool` in bytes, if `linear_len` is accepted. -/
def linearPoolBytes (linearLen : UInt64) : Option UInt64 :=
  if linearLen > MAX_LINEAR_LEN then none else (safePow 256 linearLen).bind (safeMul · 8)

/-- What is configured in linear mode, less what `backend_fork` and `data_query` are. -/
structure LinearUserdata (D : Type) where
  field : Key
  forkReq : Request D
  linearLen : UInt64
  clone : UInt64

/-- `balancer_configure` as far as linear mode goes; `calloc` may refuse.  The result is
how many slots the pool has. -/
def balancerConfigureLinear (calloc : UInt64 → Bool) (linearLen : UInt64) :
    Except Int Nat :=
  match linearPoolBytes linearLen with
  | none => .error (errorCode 14 193)
  | some t => if calloc t then .ok (t.toNat / 8) else .error (errorCode 14 240)

/-! ## The pool -/

/-- What the balancer asks of data, and the law of a read that does not fail. -/
structure FieldLayer (D : Type) where
  content : D → List UInt8
  /-- `ACTION_READ` of the first bytes: the answer, and what is copied -/
  read : D → Nat → Int × List UInt8
  copies : ∀ d n, 0 ≤ (read d n).1 → (read d n).2 = (content d).take n
  /-- `DATA_STRING` of an array -/
  string : List UInt8 → D

/-- The childs of the balancer, and what it makes of them. -/
structure Nursery (D W : Type) where
  /-- `list_count(&backend->childs)` -/
  childs : Nat
  /-- whether the fork of a number is made, with this request -/
  forks : Nat → Request D → Bool
  /-- `backend_query` of a fork -/
  query : Nat → Sem D W

/-- `linear_pool`, with the number of the next fork. -/
structure LinearPool where
  slots : Nat
  slot : Nat → Option Nat
  next : Nat

/-- `*((size_t *)array)`. -/
def arrayVal (array : List UInt8) : Nat := leNat (array.take 8)

section

variable (F : FieldLayer D) (u : LinearUserdata D) (nursery : Nursery D W)

/-- `linear_get_backend`; `none` is an access outside the pool. -/
def linearGetBackend (pool : LinearPool) (array : List UInt8) :
    Option (Option Nat × LinearPool) :=
  let val := arrayVal array
  if val < pool.slots then
    match pool.slot val with
    | some curr => some (some curr, pool)
    | none =>
        if nursery.childs ≠ 1 then some (none, pool)
        else if nursery.forks pool.next ((u.field, F.string array) :: u.forkReq) then
          some (some pool.next,
            { pool with
              slot := Function.update pool.slot val (some pool.next)
              next := pool.next + 1 })
        else some (none, { pool with next := pool.next + 1 })
  else none

/-- `linear_remove_backend`. -/
def linearRemoveBackend (pool : LinearPool) (array : List UInt8) : Option LinearPool :=
  if arrayVal array < pool.slots then
    some { pool with slot := Function.update pool.slot (arrayVal array) none }
  else none

/-! ## Deliveries -/

/-- The request that is under way: `field` as it was read, `array`,
`curr` and `clone_i`. -/
structure Routing (D : Type) where
  field : D
  array : List UInt8
  curr : Nat
  cloneI : UInt64

/-- The balancer between two deliveries. -/
structure Linear (D W : Type) where
  pool : LinearPool
  busy : Option (Routing D)
  request : Request D
  state : State W

/-- A request that has reached a fork: its field, the fork, and what that has answered. -/
structure Delivery (D : Type) where
  field : D
  curr : Nat
  ret : Int

inductive LinearLabel (D : Type) where
  /-- the request is not served -/
  | refused (ret : Int)
  | accepted (field : D)
  /-- with what the handler returns, if this was the last delivery -/
  | delivered (d : Delivery D) (result : Option Int)
  /-- an access outside the pool -/
  | fault

/-- `array`: the first bytes of the field, and zeros. -/
def linearArray (field : D) : List UInt8 :=
  Binary.overlay (F.read field u.linearLen.toNat).2 (List.replicate 9 0)

/-- Up to `redo`. -/
def linearAccept (request : Request D) (b : Linear D W) : Linear D W × LinearLabel D :=
  match request.find u.field with
  | none => (b, .refused (errorCode 14 315))
  | some field =>
      if (F.read field u.linearLen.toNat).1 < 0 then (b, .refused (errorCode 14 319))
      else
        let array := linearArray F u field
        match linearGetBackend F u nursery b.pool array with
        | none => (b, .fault)
        | some (none, pool) => ({ b with pool := pool }, .refused (errorCode 14 322))
        | some (some curr, pool) =>
            ({ b with
              pool := pool
              busy := some ⟨field, array, curr, u.clone⟩
              request := request }, .accepted field)

/-- One round of `redo`. -/
def linearRound (b : Linear D W) (r : Routing D) : Linear D W × LinearLabel D :=
  let o := nursery.query r.curr b.request b.state
  let d : Delivery D := ⟨r.field, r.curr, o.ret⟩
  let b := { b with request := o.request, state := o.state }
  if o.ret < 0 then
    if o.ret = -EBADF then
      match linearRemoveBackend b.pool r.array with
      | none => ({ b with busy := none }, .fault)
      | some pool =>
          match linearGetBackend F u nursery pool r.array with
          | none => ({ b with busy := none }, .fault)
          | some (none, pool) => ({ b with pool := pool, busy := none },
              .delivered d (some (errorCode 14 330)))
          | some (some curr, pool) =>
              ({ b with pool := pool, busy := some { r with curr := curr } },
                .delivered d none)
    else ({ b with busy := none }, .delivered d (some o.ret))
  else
    match countDown r.cloneI with
    | some cloneI =>
        ({ b with busy := some { r with cloneI := cloneI } }, .delivered d none)
    | none => ({ b with busy := none }, .delivered d (some (-EEXIST)))

def linearStep (b : Linear D W) : BalancerMove D → Option (Linear D W × LinearLabel D)
  | .accept request =>
      match b.busy with
      | some _ => none
      | none => some (linearAccept F u nursery request b)
  | .deliver =>
      match b.busy with
      | none => none
      | some r => some (linearRound F u nursery b r)

/-- How the handler ends. -/
inductive LinearStop where
  | outOfFuel
  | outOfBounds

/-- `redo`. -/
def linearLoop : Nat → Linear D W → Routing D → Except LinearStop (Int × Linear D W)
  | 0, _, _ => .error .outOfFuel
  | n + 1, b, r =>
      match linearRound F u nursery b r with
      | (b, .delivered _ (some ret)) => .ok (ret, b)
      | (b, .delivered _ none) =>
          match b.busy with
          | some r => linearLoop n b r
          | none => .error .outOfBounds
      | _ => .error .outOfBounds

/-- `balancer_request_linear`. -/
def balancerRequestLinear (n : Nat) (request : Request D) (b : Linear D W) :
    Except LinearStop (Int × Linear D W) :=
  match linearAccept F u nursery request b with
  | (b, .refused ret) => .ok (ret, b)
  | (b, .accepted _) =>
      match b.busy with
      | some r => linearLoop F u nursery n b r
      | none => .error .outOfBounds
  | _ => .error .outOfBounds

end

/-- The pool after `calloc`, and no request. -/
def linearIdle (slots : Nat) (s : State W) : Linear D W :=
  ⟨⟨slots, fun _ => none, 0⟩, none, [], s⟩

/-! ## The index -/

section

variable {F : FieldLayer D} {u : LinearUserdata D}

def FieldLayer.Readable (F : FieldLayer D) (u : LinearUserdata D) (field : D) : Prop :=
  0 ≤ (F.read field u.linearLen.toNat).1

/-- The first `linear_len` bytes of a field, with zeros for those that
it does not have. -/
def FieldLayer.firstBytes (F : FieldLayer D) (u : LinearUserdata D) (field : D) :
    List UInt8 :=
  (F.content field).take u.linearLen.toNat
    ++ List.replicate (u.linearLen.toNat - (F.content field).length) 0

/-- Where in `linear_pool` the fork for a field is. -/
def linearIndex (F : FieldLayer D) (u : LinearUserdata D) (field : D) : Nat :=
  arrayVal (linearArray F u field)

theorem length_firstBytes (field : D) :
    (F.firstBytes u field).length = u.linearLen.toNat := by
  rw [FieldLayer.firstBytes, List.length_append, List.length_take, List.length_replicate]
  omega

/-- The bytes of the array that were not read are zeros. -/
theorem linearIndex_eq {field : D} (hlen : u.linearLen.toNat ≤ 7)
    (hread : F.Readable u field) :
    linearIndex F u field = leNat (F.firstBytes u field) := by
  have hfill : leNat (F.firstBytes u field)
      = leNat ((F.content field).take u.linearLen.toNat) := by
    rw [FieldLayer.firstBytes, leNat_append, leNat_replicate_zero, Nat.mul_zero,
      Nat.add_zero]
  have hfits : ((F.content field).take u.linearLen.toNat).length ≤ 8 := by
    rw [List.length_take]
    omega
  rw [linearIndex, arrayVal, linearArray, F.copies _ _ hread, Binary.overlay,
    List.take_append,
    List.take_of_length_le hfits, List.drop_replicate, List.take_replicate,
    leNat_append, leNat_replicate_zero, Nat.mul_zero, Nat.add_zero, hfill]

theorem linearIndex_lt {field : D} (hlen : u.linearLen.toNat ≤ 7)
    (hread : F.Readable u field) :
    linearIndex F u field < 256 ^ u.linearLen.toNat := by
  have hlt := leNat_lt (F.firstBytes u field)
  rwa [length_firstBytes, ← linearIndex_eq hlen hread] at hlt

theorem linearIndex_inj {field field' : D} (hlen : u.linearLen.toNat ≤ 7)
    (hread : F.Readable u field) (hread' : F.Readable u field') :
    linearIndex F u field = linearIndex F u field' ↔
      F.firstBytes u field = F.firstBytes u field' := by
  rw [linearIndex_eq hlen hread, linearIndex_eq hlen hread']
  exact ⟨leNat_inj (by rw [length_firstBytes, length_firstBytes]), fun h => by rw [h]⟩

/-! ## Configuration -/

theorem linearPoolBytes_ofNat : ∀ n : Fin 9,
    linearPoolBytes (UInt64.ofNat n) = if n.val ≤ 7
      then some (UInt64.ofNat (8 * 256 ^ n.val)) else none := by
  decide

/-- A length is accepted if the pool of that length is not beyond `size_t`. -/
theorem linearPoolBytes_some {linearLen t : UInt64}
    (h : linearPoolBytes linearLen = some t) :
    linearLen.toNat ≤ 7 ∧ t.toNat / 8 = 256 ^ linearLen.toNat := by
  have hmax : ¬ linearLen > MAX_LINEAR_LEN := by
    intro hgt
    rw [linearPoolBytes, if_pos hgt] at h
    cases h
  have hle : linearLen.toNat ≤ 8 := UInt64.le_iff_toNat_le.mp (UInt64.not_lt.mp hmax)
  have htable := linearPoolBytes_ofNat ⟨linearLen.toNat, Nat.lt_succ_of_le hle⟩
  rw [UInt64.ofNat_toNat, h] at htable
  by_cases hseven : linearLen.toNat ≤ 7
  · rw [if_pos hseven] at htable
    have hpow : 256 ^ linearLen.toNat ≤ 256 ^ 7 := Nat.pow_le_pow_right (by decide) hseven
    have hfits : 8 * 256 ^ linearLen.toNat < 2 ^ 64 := by omega
    refine ⟨hseven, ?_⟩
    rw [Option.some_inj.mp htable, UInt64.toNat_ofNat_of_lt' hfits]
    exact Nat.mul_div_cancel_left _ (by decide)
  · rw [if_neg hseven] at htable
    cases htable

theorem balancerConfigureLinear_ok {calloc : UInt64 → Bool} {linearLen : UInt64}
    {slots : Nat} (h : balancerConfigureLinear calloc linearLen = .ok slots) :
    linearLen.toNat ≤ 7 ∧ slots = 256 ^ linearLen.toNat := by
  unfold balancerConfigureLinear at h
  cases hpool : linearPoolBytes linearLen with
  | none => simp [hpool] at h
  | some t =>
      rw [hpool] at h
      have hsome := linearPoolBytes_some hpool
      cases hcalloc : calloc t with
      | false => simp [hcalloc] at h
      | true =>
          simp only [hcalloc, if_true, Except.ok.injEq] at h
          exact ⟨hsome.1, h ▸ hsome.2⟩

end

/-! ## What the pool keeps -/

/-- The deliveries of a run, the last one first. -/
def LinearLabel.after : List (Delivery D) → LinearLabel D → List (Delivery D)
  | past, .delivered d _ => d :: past
  | past, _ => past

def deliveries (labels : List (LinearLabel D)) : List (Delivery D) :=
  labels.foldl LinearLabel.after []

/-- No delivery to the fork has been answered with `-EBADF`. -/
def Alive (past : List (Delivery D)) (i : Nat) : Prop :=
  ∀ e ∈ past, e.curr = i → e.ret ≠ -EBADF

section

variable {F : FieldLayer D} {u : LinearUserdata D} {nursery : Nursery D W}

/-- What `linear_pool` has to do with the deliveries so far. -/
structure Housed (F : FieldLayer D) (u : LinearUserdata D) (pool : LinearPool)
    (past : List (Delivery D)) : Prop where
  size : pool.slots = 256 ^ u.linearLen.toNat
  numbered : ∀ v i, pool.slot v = some i → i < pool.next
  unshared : ∀ v v' i, pool.slot v = some i → pool.slot v' = some i → v = v'
  readable : ∀ e ∈ past, F.Readable u e.field
  made : ∀ e ∈ past, e.curr < pool.next
  home : ∀ e ∈ past, ∀ v, pool.slot v = some e.curr → v = linearIndex F u e.field
  alive : ∀ e ∈ past, Alive past e.curr →
  pool.slot (linearIndex F u e.field) = some e.curr
  own : ∀ e ∈ past, ∀ e' ∈ past, e.curr = e'.curr →
  linearIndex F u e.field = linearIndex F u e'.field

/-- Between deliveries, the fork of the request that is under way is in the
slot of its field. -/
structure Steady (F : FieldLayer D) (u : LinearUserdata D) (b : Linear D W)
    (past : List (Delivery D)) : Prop where
  housed : Housed F u b.pool past
  busy : ∀ r, b.busy = some r → F.Readable u r.field ∧ r.array = linearArray F u r.field ∧
    b.pool.slot (linearIndex F u r.field) = some r.curr

/-- A pool with one more fork. -/
def LinearPool.fork (pool : LinearPool) (v : Nat) : LinearPool :=
  { pool with slot := Function.update pool.slot v (some pool.next), next := pool.next + 1 }

def LinearPool.remove (pool : LinearPool) (v : Nat) : LinearPool :=
  { pool with slot := Function.update pool.slot v none }

namespace LinearPool

variable {pool : LinearPool} {v w i : Nat}

theorem fork_slot_self : (pool.fork v).slot v = some pool.next := Function.update_self ..

theorem fork_slot_of_ne (h : w ≠ v) : (pool.fork v).slot w = pool.slot w :=
  Function.update_of_ne h ..

theorem remove_slot_self : (pool.remove v).slot v = none := Function.update_self ..

theorem remove_slot_of_ne (h : w ≠ v) : (pool.remove v).slot w = pool.slot w :=
  Function.update_of_ne h ..

theorem fork_slot (h : (pool.fork v).slot w = some i) :
    w = v ∧ pool.next = i ∨ w ≠ v ∧ pool.slot w = some i := by
  by_cases heq : w = v
  · subst heq
    rw [fork_slot_self, Option.some_inj] at h
    exact .inl ⟨rfl, h⟩
  · rw [fork_slot_of_ne heq] at h
    exact .inr ⟨heq, h⟩

theorem remove_slot (h : (pool.remove v).slot w = some i) : pool.slot w = some i := by
  by_cases heq : w = v
  · subst heq
    rw [remove_slot_self] at h
    cases h
  · rwa [remove_slot_of_ne heq] at h

end LinearPool

theorem linearRemoveBackend_eq {pool : LinearPool} {array : List UInt8}
    (hv : arrayVal array < pool.slots) :
    linearRemoveBackend pool array = some (pool.remove (arrayVal array)) := if_pos hv

/-- Inside of the pool there is a fork, or one is made. -/
theorem linearGetBackend_eq (hchilds : nursery.childs = 1)
    (hforks : ∀ i request, nursery.forks i request = true) {pool : LinearPool}
    {array : List UInt8} (hv : arrayVal array < pool.slots) :
    linearGetBackend F u nursery pool array
      = some (match pool.slot (arrayVal array) with
              | some curr => (some curr, pool)
              | none => (some pool.next, pool.fork (arrayVal array))) := by
  rw [linearGetBackend, if_pos hv]
  cases pool.slot (arrayVal array) with
  | some curr => rfl
  | none =>
      simp only [hchilds, hforks, ne_eq, not_true_eq_false, if_false, if_true]
      rfl

theorem Housed.start (hsize : slots = 256 ^ u.linearLen.toNat) :
    Housed F u ⟨slots, fun _ => none, 0⟩ [] where
  size := hsize
  numbered := fun _ _ h => nomatch h
  unshared := fun _ _ _ h => nomatch h
  readable := fun _ he => absurd he List.not_mem_nil
  made := fun _ he => absurd he List.not_mem_nil
  home := fun _ he => absurd he List.not_mem_nil
  alive := fun _ he => absurd he List.not_mem_nil
  own := fun _ he => absurd he List.not_mem_nil

variable {pool : LinearPool} {past : List (Delivery D)}

theorem Housed.fork (h : Housed F u pool past) {v : Nat} (hv : pool.slot v = none) :
    Housed F u (pool.fork v) past := by
  refine ⟨h.size, ?_, ?_, h.readable, ?_, ?_, ?_, h.own⟩
  · intro w i hw
    rcases LinearPool.fork_slot hw with ⟨-, rfl⟩ | ⟨-, hw⟩
    · exact Nat.lt_succ_self _
    · exact Nat.lt_succ_of_lt (h.numbered w i hw)
  · intro w w' i hw hw'
    rcases LinearPool.fork_slot hw with ⟨rfl, hi⟩ | ⟨-, hold⟩ <;>
      rcases LinearPool.fork_slot hw' with ⟨rfl, hi'⟩ | ⟨-, hold'⟩
    · rfl
    · exact absurd (h.numbered w' i hold') (hi ▸ lt_irrefl _)
    · exact absurd (h.numbered w i hold) (hi' ▸ lt_irrefl _)
    · exact h.unshared w w' i hold hold'
  · exact fun e he => Nat.lt_succ_of_lt (h.made e he)
  · intro e he w hw
    rcases LinearPool.fork_slot hw with ⟨-, hnext⟩ | ⟨-, hw⟩
    · exact absurd (h.made e he) (hnext ▸ lt_irrefl _)
    · exact h.home e he w hw
  · intro e he halive
    have hin := h.alive e he halive
    have hne : linearIndex F u e.field ≠ v := by
      rintro rfl
      rw [hv] at hin
      cases hin
    rw [LinearPool.fork_slot_of_ne hne, hin]

theorem Housed.deliver (h : Housed F u pool past) {d : Delivery D}
    (hread : F.Readable u d.field)
    (hd : pool.slot (linearIndex F u d.field) = some d.curr) :
    Housed F u pool (d :: past) where
  size := h.size
  numbered := h.numbered
  unshared := h.unshared
  readable := List.forall_mem_cons.mpr ⟨hread, h.readable⟩
  made := List.forall_mem_cons.mpr ⟨h.numbered _ _ hd, h.made⟩
  home := List.forall_mem_cons.mpr ⟨fun v hv => h.unshared _ _ _ hv hd, h.home⟩
  alive := List.forall_mem_cons.mpr ⟨fun _ => hd, fun e he halive =>
    h.alive e he fun e' he' => halive e' (List.mem_cons_of_mem _ he')⟩
  own := by
    have hpast : ∀ e ∈ past, e.curr = d.curr →
        linearIndex F u e.field = linearIndex F u d.field := fun e he heq =>
      (h.home e he _ (hd.trans (congrArg some heq.symm))).symm
    exact List.forall_mem_cons.mpr
      ⟨List.forall_mem_cons.mpr
        ⟨fun _ => rfl, fun e he heq => (hpast e he heq.symm).symm⟩,
        fun e he => List.forall_mem_cons.mpr ⟨hpast e he, h.own e he⟩⟩

theorem Housed.remove (h : Housed F u pool past) {v i : Nat}
    (hv : pool.slot v = some i) (hdead : ¬ Alive past i) :
    Housed F u (pool.remove v) past := by
  refine ⟨h.size, fun w j hw => h.numbered w j (LinearPool.remove_slot hw),
    fun w w' j hw hw' => h.unshared w w' j (LinearPool.remove_slot hw)
    (LinearPool.remove_slot hw'), h.readable,
    h.made, fun e he w hw => h.home e he w (LinearPool.remove_slot hw), ?_, h.own⟩
  intro e he halive
  have hin := h.alive e he halive
  have hne : linearIndex F u e.field ≠ v := by
    rintro rfl
    rw [hv, Option.some_inj] at hin
    exact hdead (hin ▸ halive)
  rw [LinearPool.remove_slot_of_ne hne, hin]

/-- A living fork is in the slot of its field, and no other fork is. -/
theorem Housed.same_iff (h : Housed F u pool past) (hlen : u.linearLen.toNat ≤ 7)
    {d : Delivery D} (hread : F.Readable u d.field)
    (hd : pool.slot (linearIndex F u d.field) = some d.curr) {e : Delivery D}
    (he : e ∈ past) (halive : Alive past e.curr) :
    e.curr = d.curr ↔ F.firstBytes u e.field = F.firstBytes u d.field := by
  rw [← linearIndex_inj hlen (h.readable e he) hread]
  constructor
  · intro heq
    exact (h.home e he _ (heq ▸ hd)).symm
  · intro heq
    have hin := h.alive e he halive
    rw [heq, hd, Option.some_inj] at hin
    exact hin.symm

theorem Housed.get (h : Housed F u pool past) (hchilds : nursery.childs = 1)
    (hforks : ∀ i request, nursery.forks i request = true) {array : List UInt8}
    (hv : arrayVal array < pool.slots) :
    ∃ curr pool', linearGetBackend F u nursery pool array = some (some curr, pool') ∧
      Housed F u pool' past ∧ pool'.slot (arrayVal array) = some curr ∧
      (pool.slot (arrayVal array) = none → pool' = pool.fork (arrayVal array)) := by
  rw [linearGetBackend_eq hchilds hforks hv]
  cases hslot : pool.slot (arrayVal array) with
  | some curr => exact ⟨curr, pool, rfl, h, hslot, fun hnone => nomatch hnone⟩
  | none =>
      exact ⟨pool.next, _, rfl, h.fork hslot, LinearPool.fork_slot_self, fun _ => rfl⟩

/-! ## A step -/

variable {b b' : Linear D W} {l : LinearLabel D}

/-- What a step from a steady balancer does: no access is outside of the pool. -/
structure Routed (F : FieldLayer D) (u : LinearUserdata D) (b b' : Linear D W)
    (l : LinearLabel D) : Prop where
  inside : l ≠ .fault
  accepted : ∀ field, l = .accepted field → F.Readable u field
  delivered : ∀ d result, l = .delivered d result → F.Readable u d.field ∧
    b.pool.slot (linearIndex F u d.field) = some d.curr ∧
    (d.ret = -EBADF → b'.pool = (b.pool.remove (linearIndex F u d.field)).fork
      (linearIndex F u d.field))

theorem linearAccept_steady (hlen : u.linearLen.toNat ≤ 7) (hchilds : nursery.childs = 1)
    (hforks : ∀ i request, nursery.forks i request = true) (h : Steady F u b past)
    {request : Request D} (hstep : linearAccept F u nursery request b = (b', l)) :
    Steady F u b' (LinearLabel.after past l) ∧ Routed F u b b' l := by
  unfold linearAccept at hstep
  cases hfield : request.find u.field with
  | none =>
      simp only [hfield, Prod.mk.injEq] at hstep
      obtain ⟨rfl, rfl⟩ := hstep
      exact ⟨h, by simp, by simp, by simp⟩
  | some field =>
      simp only [hfield] at hstep
      split_ifs at hstep with hfail
      · obtain ⟨rfl, rfl⟩ := Prod.mk.inj hstep
        exact ⟨h, by simp, by simp, by simp⟩
      · have hread : F.Readable u field := not_lt.mp hfail
        have hlt := linearIndex_lt hlen hread
        rw [← h.housed.size] at hlt
        obtain ⟨curr, pool', hget, hhoused, hslot, -⟩ := h.housed.get hchilds hforks hlt
        simp only [hget, Prod.mk.injEq] at hstep
        obtain ⟨rfl, rfl⟩ := hstep
        refine ⟨⟨hhoused, ?_⟩, by simp, ?_, by simp⟩
        · rintro r hr
          cases hr
          exact ⟨hread, rfl, hslot⟩
        · rintro _ ⟨⟩
          exact hread

theorem linearRound_steady (hlen : u.linearLen.toNat ≤ 7) (hchilds : nursery.childs = 1)
    (hforks : ∀ i request, nursery.forks i request = true) (h : Steady F u b past)
    {r : Routing D} (hbusy : b.busy = some r)
    (hstep : linearRound F u nursery b r = (b', l)) :
    Steady F u b' (LinearLabel.after past l) ∧ Routed F u b b' l := by
  obtain ⟨hread, harray, hslot⟩ := h.busy r hbusy
  have hindex : arrayVal r.array = linearIndex F u r.field := by rw [harray, linearIndex]
  have hlt : arrayVal r.array < b.pool.slots := by
    rw [hindex, h.housed.size]
    exact linearIndex_lt hlen hread
  have hpast := h.housed.deliver (d := ⟨r.field, r.curr,
      (nursery.query r.curr b.request b.state).ret⟩) hread hslot
  unfold linearRound at hstep
  by_cases hneg : (nursery.query r.curr b.request b.state).ret < 0
  · by_cases hdead : (nursery.query r.curr b.request b.state).ret = -EBADF
    · have hremoved :=
        hpast.remove hslot fun halive => halive _ List.mem_cons_self rfl hdead
      obtain ⟨curr, pool', hget, hhoused, hin, hpool⟩ :=
        @Housed.get _ _ _ _ nursery _ _ hremoved hchilds hforks r.array hlt
      rw [hindex] at hin hpool
      simp only [if_pos hneg, if_pos hdead, linearRemoveBackend_eq hlt, hindex, hget,
        Prod.mk.injEq] at hstep
      obtain ⟨rfl, rfl⟩ := hstep
      refine ⟨⟨hhoused, ?_⟩, by simp, by simp, ?_⟩
      · rintro r' hr'
        cases hr'
        exact ⟨hread, harray, hin⟩
      · rintro d result ⟨⟩
        exact ⟨hread, hslot, fun _ => hpool LinearPool.remove_slot_self⟩
    · simp only [if_pos hneg, if_neg hdead, Prod.mk.injEq] at hstep
      obtain ⟨rfl, rfl⟩ := hstep
      refine ⟨⟨hpast, fun r' hr' => nomatch hr'⟩, by simp, by simp, ?_⟩
      rintro d result ⟨⟩
      exact ⟨hread, hslot, fun hret => absurd hret hdead⟩
  · have hret : (nursery.query r.curr b.request b.state).ret ≠ -EBADF :=
      fun hret => hneg (hret ▸ by decide)
    simp only [if_neg hneg] at hstep
    cases hleft : countDown r.cloneI with
    | none =>
        simp only [hleft, Prod.mk.injEq] at hstep
        obtain ⟨rfl, rfl⟩ := hstep
        refine ⟨⟨hpast, fun r' hr' => nomatch hr'⟩, by simp, by simp, ?_⟩
        rintro d result ⟨⟩
        exact ⟨hread, hslot, fun hdead => absurd hdead hret⟩
    | some cloneI =>
        simp only [hleft, Prod.mk.injEq] at hstep
        obtain ⟨rfl, rfl⟩ := hstep
        refine ⟨⟨hpast, ?_⟩, by simp, by simp, ?_⟩
        · rintro r' hr'
          cases hr'
          exact ⟨hread, harray, hslot⟩
        · rintro d result ⟨⟩
          exact ⟨hread, hslot, fun hdead => absurd hdead hret⟩

theorem linearStep_steady (hlen : u.linearLen.toNat ≤ 7) (hchilds : nursery.childs = 1)
    (hforks : ∀ i request, nursery.forks i request = true) (h : Steady F u b past)
    {a : BalancerMove D} (hstep : linearStep F u nursery b a = some (b', l)) :
    Steady F u b' (LinearLabel.after past l) ∧ Routed F u b b' l := by
  cases hbusy : b.busy with
  | none =>
      cases a with
      | accept request =>
          simp only [linearStep, hbusy, Option.some_inj] at hstep
          exact linearAccept_steady hlen hchilds hforks h hstep
      | deliver => simp [linearStep, hbusy] at hstep
  | some r =>
      cases a with
      | accept request => simp [linearStep, hbusy] at hstep
      | deliver =>
          simp only [linearStep, hbusy, Option.some_inj] at hstep
          exact linearRound_steady hlen hchilds hforks h hbusy hstep

/-! ## The handler -/

theorem linearStep_deliver (hstep : linearStep F u nursery b .deliver = some (b', l)) :
    ∃ r, b.busy = some r ∧ linearRound F u nursery b r = (b', l) := by
  cases hbusy : b.busy with
  | none => simp [linearStep, hbusy] at hstep
  | some r =>
      simp only [linearStep, hbusy, Option.some_inj] at hstep
      exact ⟨r, rfl, hstep⟩

theorem linearRound_busy {r r' : Routing D}
    (hstep : linearRound F u nursery b r = (b', l)) (hbusy : b'.busy = some r') :
    ∃ d, l = .delivered d none := by
  unfold linearRound at hstep
  simp only at hstep
  split at hstep
  · split at hstep
    · split at hstep
      · cases hstep
        cases hbusy
      · split at hstep
        · cases hstep
          cases hbusy
        · cases hstep
          cases hbusy
        · cases hstep
          exact ⟨_, rfl⟩
    · cases hstep
      cases hbusy
  · split at hstep
    · cases hstep
      exact ⟨_, rfl⟩
    · cases hstep
      cases hbusy

theorem linearLoop_of_run :
    ∀ {n : Nat} {b b' : Linear D W} {labels : List (LinearLabel D)} {r : Routing D}
    {d : Delivery D} {ret : Int}, b.busy = some r →
    run (linearStep F u nursery) b (.replicate n .deliver)
      = some (b', labels ++ [.delivered d (some ret)]) →
    linearLoop F u nursery n b r = .ok (ret, b')
  | 0, _, _, _, _, _, _, _, hrun => by
      have hnil := congrArg Prod.snd (Option.some_inj.mp hrun)
      exact absurd hnil (by simp)
  | n + 1, b, b', labels, r, d, ret, hbusy, hrun => by
      obtain ⟨b₁, l, ls, hstep, hrest, hlabels⟩ := run_cons hrun
      obtain ⟨r₀, hr₀, hround⟩ := linearStep_deliver hstep
      obtain rfl := Option.some_inj.mp (hbusy.symm.trans hr₀)
      cases n with
      | zero =>
          cases hrest
          obtain ⟨-, hl⟩ :=
            List.append_inj' (hlabels.trans (List.nil_append [l]).symm) rfl
          rw [List.singleton_inj] at hl
          subst hl
          rw [linearLoop, hround]
      | succ n =>
          obtain ⟨_, l₂, ls₂, hnext, -, hls⟩ := run_cons hrest
          obtain ⟨r', hr', -⟩ := linearStep_deliver hnext
          obtain ⟨d', rfl⟩ := linearRound_busy hround hr'
          cases labels with
          | nil =>
              rw [List.nil_append, hls] at hlabels
              simp at hlabels
          | cons l₀ labels =>
              obtain ⟨-, htail⟩ := List.cons.inj hlabels
              rw [← htail] at hrest
              have hloop := linearLoop_of_run hr' hrest
              rw [linearLoop, hround]
              simp only [hr']
              exact hloop

/-- **A request and its deliveries**, up to the last, are a call of the handler. -/
theorem balancerRequestLinear_of_run {n : Nat} {labels : List (LinearLabel D)}
    {request : Request D} {d : Delivery D} {field : D} {ret : Int}
    (hrun : run (linearStep F u nursery) b (.accept request :: .replicate n .deliver)
      = some (b', .accepted field :: labels ++ [.delivered d (some ret)])) :
    balancerRequestLinear F u nursery n request b = .ok (ret, b') := by
  obtain ⟨b₁, l, ls, hstep, hrest, hlabels⟩ := run_cons hrun
  rw [List.cons_append] at hlabels
  obtain ⟨rfl, rfl⟩ := List.cons.inj hlabels
  have haccept : linearAccept F u nursery request b = (b₁, .accepted field) := by
    cases hbusy : b.busy with
    | some r => simp [linearStep, hbusy] at hstep
    | none => simpa [linearStep, hbusy] using hstep
  cases n with
  | zero =>
      have hnil := congrArg Prod.snd (Option.some_inj.mp hrest)
      exact absurd hnil (by simp)
  | succ n =>
      obtain ⟨_, _, _, hfirst, -, -⟩ := run_cons hrest
      obtain ⟨r, hr, -⟩ := linearStep_deliver hfirst
      rw [balancerRequestLinear, haccept]
      simp only [hr]
      exact linearLoop_of_run hr hrest

end

/-! ## Routing -/

/-- **Where the requests go**, whatever length is accepted: the index of a field is
inside of the pool, and no access is not.  Two requests go to one fork if and only if
they begin with the same bytes, while that fork has not died.  A fork that dies is
replaced by a new one, and the other slots stay as they are. -/
theorem linear_routes (F : FieldLayer D) (u : LinearUserdata D) (nursery : Nursery D W)
    (calloc : UInt64 → Bool) (slots : Nat)
    (hconf : balancerConfigureLinear calloc u.linearLen = .ok slots)
    (hchilds : nursery.childs = 1)
    (hforks : ∀ i request, nursery.forks i request = true) (s : State W)
    (moves : List (BalancerMove D)) (b : Linear D W) (labels : List (LinearLabel D))
    (hrun : run (linearStep F u nursery) (linearIdle slots s) moves = some (b, labels)) :
    slots = 256 ^ u.linearLen.toNat ∧
    (∀ field, F.Readable u field → linearIndex F u field < 256 ^ u.linearLen.toNat) ∧
    .fault ∉ labels ∧
    (∀ pre d result post, labels = pre ++ .delivered d result :: post →
      ∀ e ∈ deliveries pre, Alive (deliveries pre) e.curr →
        (e.curr = d.curr ↔ F.firstBytes u e.field = F.firstBytes u d.field)) ∧
    (∀ b' d result, linearStep F u nursery b .deliver
      = some (b', .delivered d result) → d.ret = -EBADF →
      b'.pool.slot = Function.update b.pool.slot (linearIndex F u d.field)
        (some b.pool.next) ∧
      (∀ v, b.pool.slot v ≠ some b.pool.next) ∧ ∀ e ∈ deliveries labels,
      e.curr ≠ b.pool.next) := by
  obtain ⟨hlen, hslots⟩ := balancerConfigureLinear_ok hconf
  have hstart : Steady F u (linearIdle (D := D) slots s) [] :=
    ⟨Housed.start hslots, fun r hr => nomatch hr⟩
  have hsteady : ∀ b past a b' l, Steady F u b past →
      linearStep F u nursery b a = some (b', l) →
      Steady F u b' (LinearLabel.after past l) := fun b past a b' l h hstep =>
    (linearStep_steady hlen hchilds hforks h hstep).1
  have hend : Steady F u b (deliveries labels) := run_invariant _ _ hsteady hstart hrun
  refine ⟨hslots, fun field hread => linearIndex_lt hlen hread, ?_, ?_, ?_⟩
  · intro hfault
    obtain ⟨pre, post, rfl⟩ := List.append_of_mem hfault
    exact run_label _ _ hsteady (P := fun _ l => l ≠ .fault)
      (fun b past a b' l h hstep =>
        (linearStep_steady hlen hchilds hforks h hstep).2.inside) hstart hrun rfl
  · rintro pre d result post rfl
    exact run_label _ _ hsteady
      (P := fun past l => ∀ d result, l = .delivered d result → ∀ e ∈ past,
        Alive past e.curr →
        (e.curr = d.curr ↔ F.firstBytes u e.field = F.firstBytes u d.field))
      (fun b past a b' l h hstep d result hl e he halive =>
        have hd := (linearStep_steady hlen hchilds hforks h hstep).2.delivered d result hl
        h.housed.same_iff hlen hd.1 hd.2.1 he halive) hstart hrun d result rfl
  · intro b' d result hstep hdead
    obtain ⟨-, hd, hpool⟩ :=
      (linearStep_steady hlen hchilds hforks hend hstep).2.delivered d result rfl
    refine ⟨?_, fun v hv => lt_irrefl _ (hend.housed.numbered v _ hv),
      fun e he => (hend.housed.made e he).ne⟩
    rw [hpool hdead]
    exact Function.update_idem _ _ _

/-- Fields that are bytes. -/
def rawFields : FieldLayer (List UInt8) :=
  ⟨id, fun d n => (0, d.take n), fun _ _ _ => rfl, id⟩

/-- The first fork is dead, the others are not. -/
def firstDead : Nursery (List UInt8) Unit :=
  ⟨1, fun _ _ => true, fun i request s => ⟨if i = 0 then -EBADF else 0, request, s⟩⟩

/-- Three requests, two of which begin with the same byte. -/
def threeRequests : List (BalancerMove (List UInt8)) :=
  [.accept [(.buffer, [7, 1])], .deliver, .deliver, .accept [(.buffer, [9])], .deliver,
    .accept [(.buffer, [7, 2])], .deliver]

theorem linear_routes_dead :
    ∃ b labels, run (linearStep rawFields ⟨.buffer, [], 1, 1⟩ firstDead)
      (linearIdle 256 ⟨(), []⟩) threeRequests
        = some (b, labels) ∧
      (deliveries labels).map (fun d => (d.curr, d.ret))
        = [(1, 0), (2, 0), (1, 0), (0, -EBADF)] ∧
      LinearLabel.fault ∉ labels := by
  refine ⟨_, _, rfl, rfl, ?_⟩
  exact (linear_routes rawFields ⟨.buffer, [], 1, 1⟩ firstDead (fun _ => true) 256 rfl
    rfl (fun _ _ => rfl) ⟨(), []⟩ threeRequests _ _ rfl).2.2.1

end Frozen.Chain
