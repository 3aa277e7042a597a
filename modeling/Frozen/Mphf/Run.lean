/-
# `Frozen.Mphf.Run` — runs of the index from an empty storage

A run is a list of requests, each with the two numbers `random()` would answer if
the request is a rebuild.  Beside the real state a run determines the entries
inserted since the last rebuild that worked (`inserted`); `Inv u L` says that an
unbroken index is healthy with exactly these entries, and `handle_inv` that no
request but an update can spoil it.

Two facts about whole runs are assembled from it: a key reads back the value it
was created with, and an insert is accepted exactly if it joins two components.
-/
import Frozen.Mphf.Handler
import Frozen.Mphf.Rebuild

namespace Frozen.Mphf

open Frozen.Lib

/-! ## Runs -/

/-- One request, with the random numbers at hand. -/
structure Event where
  request : MphfRequest
  r1 : UInt64
  r2 : UInt64

/-- The handler's answer to one request and the state after it. -/
def Event.handle (e : Event) (u : MphfUserdata) : MphfReply × MphfUserdata :=
  mphfHandler e.r1 e.r2 e.request u

/-- The state after a run. -/
def after (u : MphfUserdata) (events : List Event) : MphfUserdata :=
  events.foldl (fun u e => (e.handle u).2) u

/-- The answer to a request sent after a run. -/
def replyAfter (u : MphfUserdata) (events : List Event) (e : Event) : MphfReply :=
  (e.handle (after u events)).1

/-- A rebuild that works. -/
def Event.Rebuilds (e : Event) (u : MphfUserdata) : Prop :=
  e.request.action = some .rebuild ∧ ∃ s, mphfChmImpRebuild e.r1 e.r2 u.mphf = .ok () s

/-- The entries after one more request: a rebuild that works forgets them, an insert
that answers 0 adds one. -/
def Event.record (e : Event) (u : MphfUserdata) (L : List Entry) : List Entry :=
  match e.request.action with
  | some .rebuild =>
      match mphfChmImpRebuild e.r1 e.r2 u.mphf with
      | .ok _ _ => []
      | .error _ _ => L
  | some .create =>
      match e.request.input, e.request.output with
      | some key, some value =>
          if (e.handle u).1.ret = some 0 then
            ((u.mphf.vertex0 key, u.mphf.vertex1 key), value) :: L
          else L
      | _, _ => L
  | _ => L

/-- The entries inserted since the last rebuild that worked, newest first. -/
def inserted : MphfUserdata → List Entry → List Event → List Entry
  | _, L, [] => L
  | u, L, e :: events => inserted (e.handle u).2 (e.record u L) events

def createRequest (key value : UInt64) : MphfRequest :=
  ⟨some .create, some key, some value⟩

def readRequest (key cell : UInt64) : MphfRequest := ⟨some .read, some key, some cell⟩

theorem after_append (u : MphfUserdata) (as bs : List Event) :
    after u (as ++ bs) = after (after u as) bs := List.foldl_append

theorem inserted_append : ∀ (u : MphfUserdata) (L : List Entry) (as bs : List Event),
    inserted u L (as ++ bs) = inserted (after u as) (inserted u L as) bs
  | _, _, [], _ => rfl
  | u, L, e :: as, bs => inserted_append (e.handle u).2 (e.record u L) as bs

/-! ## The invariant -/

/-- Between two requests: the stores answer and the sizes are right, and an index
that is not broken holds exactly the entries `L`. -/
structure Inv (u : MphfUserdata) (L : List Entry) : Prop where
  usable : Usable u.mphf
  sized : Sized u.mphf
  healthy : u.broken = false → Healthy u.mphf L

section Step

variable {u : MphfUserdata} {L : List Entry}

/-- A broken index refuses whatever is not a rebuild. -/
theorem handler_broken (hb : u.broken = true) {a : Action} (ha : a ≠ .rebuild)
    (r1 r2 : UInt64) (input output : Option UInt64) :
    mphfHandler r1 r2 ⟨some a, input, output⟩ u = (⟨some (-EBADF), output⟩, u) := by
  simp only [mphfHandler]
  rw [if_neg ha, if_pos hb]

/-- What an unbroken index does for each action, with both cells at hand. -/
theorem handler_unbroken (hb : u.broken = false) {a : Action} (ha : a ≠ .rebuild)
    (r1 r2 : UInt64) (key value : UInt64) :
    mphfHandler r1 r2 ⟨some a, some key, some value⟩ u
      = match a with
        | .create => mphfChange (mphfChmImpInsert key value)
          ⟨some a, some key, some value⟩ u
        | .write =>
            mphfChange (mphfChmImpUpdate key value) ⟨some a, some key, some value⟩ u
        | .read =>
            match mphfChmImpQuery key u.mphf with
            | .ok none data => (⟨some (-ENOENT), some value⟩, { u with mphf := data })
            | .ok (some x) data => (⟨some 0, some x⟩, { u with mphf := data })
            | .error stop data => (⟨stop.code, some value⟩, { u with mphf := data })
        | .delete => mphfChange (mphfChmImpDelete key) ⟨some a, some key, some value⟩ u
        | _ => (⟨some 0, some value⟩, u) := by
  simp only [mphfHandler]
  rw [if_neg ha, if_neg (by rw [hb]; decide)]
  cases a <;> rfl

theorem handler_invalid (hb : u.broken = false) {a : Action} (ha : a ≠ .rebuild)
    (r1 r2 : UInt64) {input output : Option UInt64}
    (hmiss : input = none ∨ output = none) :
    mphfHandler r1 r2 ⟨some a, input, output⟩ u = (⟨some (-EINVAL), output⟩, u) := by
  simp only [mphfHandler]
  rw [if_neg ha, if_neg (by rw [hb]; decide)]
  cases input with
  | none => rfl
  | some _ =>
      cases output with
      | none => rfl
      | some _ => rcases hmiss with h | h <;> cases h

/-- What a request other than a rebuild and an update does: it answers, keeps the
sizes and hashes, and adds at most the entry it was sent to add. -/
structure Mild (u : MphfUserdata) (L : List Entry) (e : Event) : Prop where
  answers : (e.handle u).1.ret ≠ none
  shape : SameShape u.mphf (e.handle u).2.mphf
  inv : Inv (e.handle u).2 (e.record u L)
  grows : L ⊆ e.record u L

theorem mild_of_same {e : Event} (h : Inv u L) {reply : MphfReply}
    (hrun : e.handle u = (reply, u)) (hans : reply.ret ≠ none) (hrec : e.record u L = L) :
    Mild u L e := by
  refine ⟨?_, ?_, ?_, ?_⟩
  · rw [hrun]
    exact hans
  · rw [hrun]
    exact SameShape.refl _
  · rw [hrun, hrec]
    exact h
  · rw [hrec]
    exact fun _ => id

/-- Only an answer 0 to an insert is recorded. -/
theorem record_eq_self {e : Event} {a : Action} (ha : a ≠ .rebuild)
    (hact : e.request.action = some a) (hret : (e.handle u).1.ret ≠ some 0) :
    e.record u L = L := by
  unfold Event.record
  rw [hact]
  cases a with
  | create =>
      simp only [if_neg hret]
      split <;> rfl
  | rebuild => exact absurd rfl ha
  | _ => rfl

theorem mild_create (h : Inv u L) (hb : u.broken = false) (key value r1 r2 : UInt64) :
    Mild u L ⟨createRequest key value, r1, r2⟩ := by
  set e : Event := ⟨createRequest key value, r1, r2⟩
  have hhandle : e.handle u = mphfChange (mphfChmImpInsert key value) e.request u :=
    handler_unbroken hb (by decide) r1 r2 key value
  have hrec : e.record u L = if (e.handle u).1.ret = some 0 then
      ((u.mphf.vertex0 key, u.mphf.vertex1 key), value) :: L else L := rfl
  -- a refused insert leaves a broken index of the same shape
  have hrefused : ∀ s', mphfChmImpInsert key value u.mphf = .error (.ret (-EBADF)) s' →
      SameShape u.mphf s' → Mild u L e := by
    intro s' hrun hshape
    have heq : e.handle u = (⟨some (-EBADF), some value⟩, ⟨s', true⟩) := by
      rw [hhandle, mphfChange, hrun]
      simp [Stop.code, hb, e, createRequest]
    rw [heq, if_neg (by simp [EBADF])] at hrec
    refine ⟨?_, ?_, ?_, ?_⟩
    · rw [heq]
      exact Option.some_ne_none _
    · rw [heq]
      exact hshape
    · rw [heq]
      exact ⟨h.usable.sameShape hshape, h.sized.sameShape hshape, fun hb' => nomatch hb'⟩
    · rw [hrec]
      exact fun _ => id
  obtain ⟨hloop, hcycle, hjoin⟩ := run_insert (h.healthy hb) key value
  by_cases hxy : u.mphf.vertex0 key = u.mphf.vertex1 key
  · exact hrefused u.mphf (hloop hxy) (SameShape.refl _)
  · by_cases hreach : (edgeGraph (L.map Prod.fst)).Reachable (u.mphf.vertex0 key)
      (u.mphf.vertex1 key)
    · obtain ⟨s', hrun, hshape⟩ := hcycle hxy hreach
      exact hrefused s' hrun hshape
    · obtain ⟨s', hrun, hshape, hhealthy⟩ := hjoin hreach
      have heq : e.handle u = (⟨some 0, some value⟩, ⟨s', u.broken⟩) := by
        rw [hhandle, mphfChange, hrun]
        rfl
      rw [heq, if_pos rfl] at hrec
      refine ⟨?_, ?_, ?_, ?_⟩
      · rw [heq]
        exact Option.some_ne_none _
      · rw [heq]
        exact hshape
      · rw [heq, hrec]
        exact ⟨h.usable.sameShape hshape, h.sized.sameShape hshape, fun _ => hhealthy⟩
      · rw [hrec]
        exact List.subset_cons_self _ _

theorem handle_read (h : Inv u L) (hb : u.broken = false) (key cell r1 r2 : UInt64) :
    Event.handle ⟨readRequest key cell, r1, r2⟩ u
      = (if u.mphf.vertex0 key = u.mphf.vertex1 key then ⟨some (-ENOENT), some cell⟩
          else ⟨some 0, some (u.mphf.answerFor key)⟩, u) := by
  have hquery := run_query (h.healthy hb).gstore (h.healthy hb).pos key
  have hrun := handler_unbroken hb (a := .read) (by decide) r1 r2 key cell
  simp only [hquery] at hrun
  refine hrun.trans ?_
  split_ifs <;> rfl

/-- Everything but rebuilds, updates and inserts into an unbroken index leaves the
index alone. -/
theorem handle_quiet (h : Inv u L) (e : Event) (hr : e.request.action ≠ some .rebuild)
    (hw : e.request.action ≠ some .write)
    (hc : ∀ key value, e.request = createRequest key value → u.broken = true) :
    ∃ reply, e.handle u = (reply, u) ∧ reply.ret ≠ none ∧ e.record u L = L := by
  obtain ⟨⟨action, input, output⟩, r1, r2⟩ := e
  cases action with
  | none => exact ⟨⟨some (-ENOSYS), output⟩, rfl, Option.some_ne_none _, rfl⟩
  | some a =>
      have ha : a ≠ .rebuild := fun heq => hr (congrArg some heq)
      cases hb : u.broken with
      | true =>
          have hrun : Event.handle ⟨⟨some a, input, output⟩, r1, r2⟩ u
              = (⟨some (-EBADF), output⟩, u) :=
            handler_broken hb ha r1 r2 input output
          refine ⟨_, hrun, Option.some_ne_none _, ?_⟩
          exact record_eq_self ha rfl (by rw [hrun]; simp [EBADF])
      | false =>
          by_cases hmiss : input = none ∨ output = none
          · have hrun : Event.handle ⟨⟨some a, input, output⟩, r1, r2⟩ u
                = (⟨some (-EINVAL), output⟩, u) := handler_invalid hb ha r1 r2 hmiss
            refine ⟨_, hrun, Option.some_ne_none _, ?_⟩
            exact record_eq_self ha rfl (by rw [hrun]; simp [EINVAL])
          · obtain ⟨hin, hout⟩ := not_or.mp hmiss
            obtain ⟨key, rfl⟩ := Option.ne_none_iff_exists'.mp hin
            obtain ⟨value, rfl⟩ := Option.ne_none_iff_exists'.mp hout
            have hrun : Event.handle ⟨⟨some a, some key, some value⟩, r1, r2⟩ u = _ :=
              handler_unbroken hb ha r1 r2 key value
            cases a with
            | create =>
                have hbroken := hc key value rfl
                rw [hb] at hbroken
                cases hbroken
            | read =>
                refine ⟨_, handle_read h hb key value r1 r2, ?_, rfl⟩
                split_ifs <;> exact Option.some_ne_none _
            | delete =>
                have hsame : mphfChange (mphfChmImpDelete key)
                    ⟨some .delete, some key, some value⟩ u
                    = (⟨some (errorCode EMODULE 751), some value⟩, u) := by
                  have hne : (Stop.ret (errorCode EMODULE 751) == .ret (-EBADF))
                      = false := by decide
                  simp only [mphfChange, mphfChmImpDelete, chmError, run_throw,
                    Stop.code, hne, Bool.or_false]
                exact ⟨_, hrun.trans hsame, Option.some_ne_none _, rfl⟩
            | write => exact absurd rfl hw
            | rebuild => exact absurd rfl ha
            | move => exact ⟨_, hrun, Option.some_ne_none _, rfl⟩
            | count => exact ⟨_, hrun, Option.some_ne_none _, rfl⟩
            | custom => exact ⟨_, hrun, Option.some_ne_none _, rfl⟩
            | other n => exact ⟨_, hrun, Option.some_ne_none _, rfl⟩

/-- The step lemma for everything but rebuilds and updates. -/
theorem handle_mild (h : Inv u L) (e : Event) (hr : e.request.action ≠ some .rebuild)
    (hw : e.request.action ≠ some .write) : Mild u L e := by
  by_cases hc : ∀ key value, e.request = createRequest key value → u.broken = true
  · obtain ⟨reply, hrun, hans, hrec⟩ := handle_quiet h e hr hw hc
    exact mild_of_same h hrun hans hrec
  · push Not at hc
    obtain ⟨key, value, heq, hb⟩ := hc
    obtain ⟨request, r1, r2⟩ := e
    obtain rfl : request = createRequest key value := heq
    exact mild_create h (Bool.eq_false_iff.mpr hb) key value r1 r2

/-- The step lemma for rebuilds: with a number of vertices in range, the request is
answered and the invariant holds for what is recorded. -/
theorem handle_rebuild (h : Inv u L) (e : Event) (hr : e.request.action = some .rebuild)
    (hlt : (e.handle u).2.mphf.nvertex < 2 ^ 56) :
    (e.handle u).1.ret ≠ none ∧ (e.handle u).2.mphf.biValue = u.mphf.biValue ∧
      Inv (e.handle u).2 (e.record u L) := by
  have hhandle : e.handle u = match mphfChmImpRebuild e.r1 e.r2 u.mphf with
      | .ok _ data =>
          (⟨some (-EBADF), e.request.output⟩, { mphf := data, broken := false })
      | .error stop data => (⟨stop.code, e.request.output⟩, { u with mphf := data }) := by
    show mphfHandler e.r1 e.r2 e.request u = _
    unfold mphfHandler
    rw [hr]
    rfl
  have hrec : e.record u L = match mphfChmImpRebuild e.r1 e.r2 u.mphf with
      | .ok _ _ => []
      | .error _ _ => L := by
    unfold Event.record
    rw [hr]
  rcases run_rebuild h.usable e.r1 e.r2 with hrun | ⟨s', hrun, hbig⟩
    | ⟨s', hrun, hu, hs, hbi, hh⟩
  · rw [hrun] at hhandle hrec
    rw [hhandle, hrec]
    refine ⟨Option.some_ne_none _, rfl, ?_, ?_, ?_⟩
    · exact ⟨h.usable.writeable, h.usable.stores, h.usable.bits, h.usable.bytes⟩
    · exact ⟨h.sized.nvertex, h.sized.capacity, h.sized.biVertex, h.sized.btVertex⟩
    · exact fun hb => (h.healthy hb).congr rfl rfl rfl rfl rfl rfl
  · rw [hrun] at hhandle
    rw [hhandle] at hlt
    exact absurd hlt (not_lt.mpr hbig)
  · rw [hrun] at hhandle hrec
    rw [hhandle] at hlt
    rw [hhandle, hrec]
    exact ⟨Option.some_ne_none _, hbi, hu, hs, fun _ => hh hlt⟩

end Step

/-! ## Whole runs -/

/-- No state of the run has `2 ^ 56` vertices or more. -/
def Small (u : MphfUserdata) (events : List Event) : Prop :=
  ∀ n, (after u (events.take n)).mphf.nvertex < 2 ^ 56

theorem Small.tail {u : MphfUserdata} {e : Event} {events : List Event}
    (h : Small u (e :: events)) : Small (e.handle u).2 events := fun n => h (n + 1)

theorem Small.head {u : MphfUserdata} {events : List Event} (h : Small u events) :
    u.mphf.nvertex < 2 ^ 56 := by
  have h0 := h 0
  rwa [List.take_zero] at h0

/-- It is enough to look at the states the run really passes. -/
theorem small_of_le {u : MphfUserdata} {events : List Event}
    (h : ∀ n < events.length + 1, (after u (events.take n)).mphf.nvertex < 2 ^ 56) :
    Small u events := by
  intro n
  rcases Nat.lt_or_ge n (events.length + 1) with hn | hn
  · exact h n hn
  · rw [List.take_of_length_le (by omega)]
    have hlast := h events.length (Nat.lt_succ_self _)
    rwa [List.take_length] at hlast

theorem Small.append : ∀ {u : MphfUserdata} {as bs : List Event}, Small u (as ++ bs) →
    Small u as ∧ Small (after u as) bs
  | u, [], bs, h => ⟨fun n => by rw [List.take_nil]; exact h.head, h⟩
  | u, a :: as, bs, h => by
      obtain ⟨h1, h2⟩ : Small _ as ∧ Small _ bs := Small.append h.tail
      refine ⟨fun n => ?_, h2⟩
      cases n with
      | zero => exact h.head
      | succ n => exact h1 n

section Runs

variable {u : MphfUserdata} {L : List Entry}

/-- The run lemma: along a run without updates every request is answered and the
invariant holds. -/
theorem run_inv : ∀ {u : MphfUserdata} {L : List Entry} (events : List Event), Inv u L →
    (∀ e ∈ events, e.request.action ≠ some .write) → Small u events →
    Inv (after u events) (inserted u L events) ∧
      (after u events).mphf.biValue = u.mphf.biValue
  | _, _, [], h, _, _ => ⟨h, rfl⟩
  | u, L, e :: events, h, hact, hsmall => by
      have hact' : ∀ e' ∈ events, e'.request.action ≠ some .write :=
        fun e' he' => hact e' (List.mem_cons_of_mem _ he')
      have hw := hact e List.mem_cons_self
      have hstep : Inv (e.handle u).2 (e.record u L) ∧
          (e.handle u).2.mphf.biValue = u.mphf.biValue := by
        by_cases hr : e.request.action = some .rebuild
        · obtain ⟨-, hbi, hinv⟩ := handle_rebuild h e hr hsmall.tail.head
          exact ⟨hinv, hbi⟩
        · have hmild := handle_mild h e hr hw
          exact ⟨hmild.inv, hmild.shape.biValue⟩
      obtain ⟨hinv, hbi⟩ := run_inv events hstep.1 hact' hsmall.tail
      exact ⟨hinv, hbi.trans hstep.2⟩

/-- Along a run without rebuilds and updates the hashes stay and entries are kept. -/
theorem run_mild : ∀ {u : MphfUserdata} {L : List Entry} (events : List Event), Inv u L →
    (∀ e ∈ events, e.request.action ≠ some .rebuild ∧ e.request.action ≠ some .write) →
    (∀ key, (after u events).mphf.vertex0 key = u.mphf.vertex0 key ∧
      (after u events).mphf.vertex1 key = u.mphf.vertex1 key) ∧ L ⊆ inserted u L events
  | _, _, [], _, _ => ⟨fun _ => ⟨rfl, rfl⟩, fun _ => id⟩
  | u, L, e :: events, h, hact => by
      obtain ⟨hr, hw⟩ := hact e List.mem_cons_self
      have hmild := handle_mild h e hr hw
      obtain ⟨hv, hsub⟩ := run_mild events hmild.inv fun e' he' =>
        hact e' (List.mem_cons_of_mem _ he')
      refine ⟨fun key => ?_, List.Subset.trans hmild.grows hsub⟩
      obtain ⟨hv0, hv1⟩ := hmild.shape.vertices key
      exact ⟨(hv key).1.trans hv0, (hv key).2.trans hv1⟩

theorem run_answers (h : Inv u L) {pre post : List Event} {e : Event}
    (hact : ∀ e' ∈ pre ++ e :: post, e'.request.action ≠ some .write)
    (hsmall : Small u (pre ++ e :: post)) : (replyAfter u pre e).ret ≠ none := by
  obtain ⟨hpre, hrest⟩ := hsmall.append
  obtain ⟨hinv, -⟩ :=
    run_inv pre h (fun e' he' => hact e' (List.mem_append_left _ he')) hpre
  by_cases hr : e.request.action = some .rebuild
  · exact (handle_rebuild hinv e hr hrest.tail.head).1
  · exact (handle_mild hinv e hr (hact e (by simp))).answers

end Runs

/-! ## Broken indexes stay broken -/

section Broken

variable {u : MphfUserdata}

/-- An insert that answers `-EBADF` leaves a broken index. -/
theorem broken_of_create {e : Event} (ha : e.request.action = some .create)
    (hret : (e.handle u).1.ret = some (-EBADF)) : (e.handle u).2.broken = true := by
  obtain ⟨⟨action, input, output⟩, r1, r2⟩ := e
  cases ha
  cases hb : u.broken with
  | true =>
      have hrun : Event.handle ⟨⟨some .create, input, output⟩, r1, r2⟩ u = _ :=
        handler_broken hb (by decide) r1 r2 input output
      rw [hrun]
      exact hb
  | false =>
      by_cases hmiss : input = none ∨ output = none
      · have hrun : Event.handle ⟨⟨some .create, input, output⟩, r1, r2⟩ u = _ :=
          handler_invalid hb (by decide) r1 r2 hmiss
        rw [hrun] at hret
        exact absurd (Option.some_inj.mp hret) (by decide)
      · obtain ⟨hin, hout⟩ := not_or.mp hmiss
        obtain ⟨key, rfl⟩ := Option.ne_none_iff_exists'.mp hin
        obtain ⟨value, rfl⟩ := Option.ne_none_iff_exists'.mp hout
        have hrun : Event.handle ⟨⟨some .create, some key, some value⟩, r1, r2⟩ u
            = mphfChange (mphfChmImpInsert key value)
              ⟨some .create, some key, some value⟩ u :=
          handler_unbroken hb (by decide) r1 r2 key value
        rw [hrun] at hret ⊢
        unfold mphfChange at hret ⊢
        cases hins : mphfChmImpInsert key value u.mphf with
        | ok _ s' =>
            rw [hins] at hret
            exact absurd (Option.some_inj.mp hret) (by decide)
        | error stop s' =>
            rw [hins] at hret
            cases stop with
            | loop => cases hret
            | ret code =>
                have hcode : code = -EBADF := Option.some_inj.mp hret
                simp [hcode]

/-- Nothing but a rebuild that works mends it. -/
theorem broken_step (hb : u.broken = true) {e : Event} (hr : ¬ e.Rebuilds u) :
    (e.handle u).2.broken = true := by
  obtain ⟨⟨action, input, output⟩, r1, r2⟩ := e
  cases action with
  | none => exact hb
  | some a =>
      by_cases ha : a = .rebuild
      · subst ha
        have hrun : Event.handle ⟨⟨some .rebuild, input, output⟩, r1, r2⟩ u
            = match mphfChmImpRebuild r1 r2 u.mphf with
              | .ok _ data => (⟨some (-EBADF), output⟩, { mphf := data, broken := false })
              | .error stop data => (⟨stop.code, output⟩, { u with mphf := data }) := rfl
        rw [hrun]
        cases hreb : mphfChmImpRebuild r1 r2 u.mphf with
        | ok _ s' => exact absurd ⟨rfl, s', hreb⟩ hr
        | error stop s' => exact hb
      · have hrun : Event.handle ⟨⟨some a, input, output⟩, r1, r2⟩ u = _ :=
          handler_broken hb ha r1 r2 input output
        rw [hrun]
        exact hb

theorem broken_run : ∀ {u : MphfUserdata} (events : List Event), u.broken = true →
    (∀ pre e post, events = pre ++ e :: post → ¬ e.Rebuilds (after u pre)) →
    (after u events).broken = true
  | _, [], hb, _ => hb
  | u, e :: events, hb, hr => by
      refine broken_run events (broken_step hb (hr [] e events rfl))
        fun pre e' post heq => ?_
      exact hr (e :: pre) e' post (by rw [heq]; rfl)

theorem replyAfter_broken {events : List Event} (hb : (after u events).broken = true)
    {q : Event} {a : Action} (hq : q.request.action = some a) (ha : a ≠ .rebuild) :
    (replyAfter u events q).ret = some (-EBADF) := by
  obtain ⟨⟨action, input, output⟩, r1, r2⟩ := q
  cases hq
  have hrun : Event.handle ⟨⟨some a, input, output⟩, r1, r2⟩ (after u events) = _ :=
    handler_broken hb ha r1 r2 input output
  rw [replyAfter, hrun]

end Broken

/-! ## The start -/

/-- `value_bits` as configured. -/
def ChmConfig.bits (cfg : ChmConfig) : Nat :=
  (cfg.valueBits.getD VALUE_BITS_DEFAULT).toNat

/-- Three stores without contents. -/
def emptyStores : Be → Option (List UInt8) := fun _ => some []

theorem chmImpConfigure_spec (cfg : ChmConfig) (stores : Be → Option (List UInt8))
    (hstores : ∀ b, (stores b).isSome = true) (hro : cfg.readonly.getD 0 = 0) :
    ∃ data, chmImpConfigure cfg stores = .ok data ∧ data.be = stores ∧
      data.writeable = true ∧
      data.biValue = cfg.bits ∧ data.btValue = bitsToBytes cfg.bits ∧
      data.nelementsMin = cfg.nelementsMin.getD CAPACITY_MIN_DEFAULT ∧
      data.params = ⟨0, 0, 0, 0⟩ := by
  have hg : stores .g ≠ none := Option.isSome_iff_ne_none.mp (hstores .g)
  have hcfg : chmImpConfigure cfg stores = .ok _ := if_neg hg
  refine ⟨_, hcfg, rfl, ?_, rfl, rfl, rfl, rfl⟩
  simp [hstores, hro]

/-- An index configured for writing on empty stores starts without entries. -/
theorem configure_inv {cfg : ChmConfig} {r1 r2 : UInt64} {u : MphfUserdata}
    (hcfg : mphfConfigure cfg emptyStores r1 r2 = .ok u) (hro : cfg.readonly.getD 0 = 0)
    (hbits : 1 ≤ cfg.bits ∧ cfg.bits ≤ 64) (hlt : u.mphf.nvertex < 2 ^ 56) :
    Inv u [] ∧ u.broken = false ∧ u.mphf.biValue = cfg.bits := by
  obtain ⟨data, hdata, hbe, hw, hbi, hbt, -, hp⟩ :=
    chmImpConfigure_spec cfg emptyStores (fun _ => rfl) hro
  have hu : Usable data := ⟨hw, fun b => by rw [hbe]; rfl, hbi ▸ hbits, by rw [hbt, hbi]⟩
  have hload : chmImpLoad r1 r2 data = mphfChmImpRebuild r1 r2 data := by
    have hread : fastRead .g 0 sizeofParams data = .ok none data := by
      simp [fastRead, run_bind, hbe, emptyStores, readAt, sizeofParams]
    have hparam : chmImpParamRead data = .ok false data := by
      rw [chmImpParamRead, run_bind_ok hread]
      simp only [run_bind, run_modify, run_pure, ← hp]
    rw [chmImpLoad, run_bind_ok hparam]
    rfl
  rw [mphfConfigure, hdata] at hcfg
  simp only [hload] at hcfg
  rcases run_rebuild hu r1 r2 with hrun | ⟨s', hrun, -⟩ | ⟨s', hrun, hu', hs, hbi', hh⟩
  · rw [hrun] at hcfg
    cases hcfg
  · rw [hrun] at hcfg
    cases hcfg
  · rw [hrun] at hcfg
    cases hcfg
    exact ⟨⟨hu', hs, fun _ => hh hlt⟩, rfl, hbi'.trans hbi⟩

/-! ## Reading back what was created -/

section Correct

variable {cfg : ChmConfig} {r1 r2 : UInt64} {u₀ : MphfUserdata}

theorem ne_write_of_mem {events : List Event}
    (hact : ∀ e ∈ events, e.request.action ∈ [some .create, some .read, some .rebuild]) :
    ∀ e ∈ events, e.request.action ≠ some .write := by
  intro e he hw
  have hmem := hact e he
  rw [hw] at hmem
  exact absurd hmem (by decide)

theorem record_create {u : MphfUserdata} {L : List Entry} {c : Event} {key value : UInt64}
    (hc : c.request = createRequest key value) (hret : (c.handle u).1.ret = some 0) :
    ((u.mphf.vertex0 key, u.mphf.vertex1 key), value) ∈ c.record u L := by
  unfold Event.record
  rw [hc]
  simp only [createRequest, if_pos hret, List.mem_cons_self]

/-- The entry of an insert that answers 0 is there until the next rebuild. -/
theorem entry_stays {u : MphfUserdata} {L : List Entry} (h : Inv u L)
    {pre mid : List Event} {c : Event} {key value : UInt64}
    (hwrite : ∀ e ∈ pre ++ c :: mid, e.request.action ≠ some .write)
    (hsmall : Small u (pre ++ c :: mid)) (hc : c.request = createRequest key value)
    (hret : (replyAfter u pre c).ret = some 0)
    (hmid : ∀ e ∈ mid, e.request.action ≠ some .rebuild) :
    (((after u (pre ++ c :: mid)).mphf.vertex0 key,
      (after u (pre ++ c :: mid)).mphf.vertex1 key), value)
      ∈ inserted u L (pre ++ c :: mid) := by
  obtain ⟨hpre, -⟩ := hsmall.append
  obtain ⟨hinv, -⟩ :=
    run_inv pre h (fun e he => hwrite e (List.mem_append_left _ he)) hpre
  have hmild :=
    handle_mild hinv c (by simp [hc, createRequest]) (by simp [hc, createRequest])
  -- recorded at `c`, the entry never leaves, and the hashes stay
  obtain ⟨hv, hsub⟩ := run_mild mid hmild.inv fun e he =>
    ⟨hmid e he, hwrite e (List.mem_append_right _ (List.mem_cons_of_mem _ he))⟩
  have hmem := hsub (record_create (L := inserted u L pre) hc hret)
  rw [after_append, inserted_append]
  show (((after (c.handle (after u pre)).2 mid).mphf.vertex0 key,
      (after (c.handle (after u pre)).2 mid).mphf.vertex1 key), value)
    ∈ inserted (c.handle (after u pre)).2 (c.record (after u pre) (inserted u L pre)) mid
  rw [(hv key).1, (hv key).2, (hmild.shape.vertices key).1, (hmild.shape.vertices key).2]
  exact hmem

theorem read_entry {u : MphfUserdata} {L : List Entry} (h : Inv u L)
    (hbits : u.mphf.biValue ≤ 63) {key cell value : UInt64}
    (hmem : ((u.mphf.vertex0 key, u.mphf.vertex1 key), value) ∈ L) {q : Event}
    (hq : q.request = readRequest key cell) (hret : (q.handle u).1.ret = some 0) :
    (q.handle u).1.output = some (UInt64.ofNat (value.toNat % 2 ^ u.mphf.biValue)) := by
  obtain ⟨request, q1, q2⟩ := q
  obtain rfl : request = readRequest key cell := hq
  cases hb : u.broken with
  | true =>
      have hrun : Event.handle ⟨readRequest key cell, q1, q2⟩ u = _ :=
        handler_broken hb (by decide) q1 q2 (some key) (some cell)
      rw [hrun] at hret
      exact absurd (Option.some_inj.mp hret) (by decide)
  | false =>
      have hh := h.healthy hb
      have hne : u.mphf.vertex0 key ≠ u.mphf.vertex1 key :=
        (hh.rep.ends _ (List.mem_map_of_mem hmem)).2.2
      rw [handle_read h hb, if_neg hne]
      exact congrArg some ((answerFor_eq_iff hbits key value).mpr (hh.sums _ hmem))

/-- **The index over whole runs** of CREATE, READ and REBUILD, from empty stores:
a key whose CREATE answered 0, with no REBUILD since, reads back its value modulo
`2 ^ value_bits` or is not answered 0; and after a CREATE that answered `-EBADF` every
action but REBUILD is answered `-EBADF` until a rebuild works. -/
theorem index_correct (hcfg : mphfConfigure cfg emptyStores r1 r2 = .ok u₀)
    (hro : cfg.readonly.getD 0 = 0) (hbits : 1 ≤ cfg.bits ∧ cfg.bits ≤ 63)
    (events : List Event)
    (hact : ∀ e ∈ events, e.request.action ∈ [some .create, some .read, some .rebuild])
    (hsmall : Small u₀ events) :
    (∀ pre c mid key value, events = pre ++ c :: mid →
      c.request = createRequest key value →
      (replyAfter u₀ pre c).ret = some 0 → (∀ e ∈ mid, e.request.action ≠ some .rebuild) →
      ∀ q cell, q.request = readRequest key cell → (replyAfter u₀ events q).ret = some 0 →
        (replyAfter u₀ events q).output
          = some (UInt64.ofNat (value.toNat % 2 ^ cfg.bits))) ∧
    (∀ pre c mid, events = pre ++ c :: mid → c.request.action = some .create →
      (replyAfter u₀ pre c).ret = some (-EBADF) →
      (∀ m₁ e m₂, mid = m₁ ++ e :: m₂ → ¬ e.Rebuilds (after u₀ (pre ++ c :: m₁))) →
      ∀ q a, q.request.action = some a → a ≠ .rebuild →
        (replyAfter u₀ events q).ret = some (-EBADF)) := by
  have hwrite := ne_write_of_mem hact
  obtain ⟨hinv₀, -, hbi₀⟩ :=
    configure_inv hcfg hro ⟨hbits.1, hbits.2.trans (by norm_num)⟩ hsmall.head
  constructor
  · rintro pre c mid key value rfl hc hret hmid q cell hq hread
    obtain ⟨hinv', hbi'⟩ := run_inv (pre ++ c :: mid) hinv₀ hwrite hsmall
    have hmem := entry_stays hinv₀ hwrite hsmall hc hret hmid
    have hout := read_entry hinv' (by rw [hbi', hbi₀]; exact hbits.2) hmem hq hread
    rwa [hbi', hbi₀] at hout
  · rintro pre c mid rfl hc hret hnone q a hq ha
    refine replyAfter_broken ?_ hq ha
    rw [after_append]
    refine broken_run mid (broken_of_create hc hret) fun m₁ e m₂ heq => ?_
    have := hnone m₁ e m₂ heq
    rwa [after_append] at this

/-- The smallest index: two vertices, values of eight bits, and (with the hashes 0 and
1) the key 0 at the vertices 0 and 1. -/
def tinyConfig : ChmConfig := ⟨some 1, some 0, some 1, some 8, none⟩

def tinyIndex : MphfUserdata :=
  (mphfConfigure tinyConfig emptyStores 0 1).toOption.getD default

theorem tinyIndex_configured :
    mphfConfigure tinyConfig emptyStores 0 1 = .ok tinyIndex := by
  have hok : (mphfConfigure tinyConfig emptyStores 0 1).isOk = true := by decide +kernel
  unfold tinyIndex
  cases h : mphfConfigure tinyConfig emptyStores 0 1 with
  | ok u => rfl
  | error stop => simp [h, Except.isOk, Except.toBool] at hok

theorem index_correct_tiny :
    (replyAfter tinyIndex [⟨createRequest 0 261, 0, 0⟩] ⟨readRequest 0 0, 0, 0⟩).output
      = some 5 ∧
    (replyAfter tinyIndex [⟨createRequest 2 5, 0, 0⟩, ⟨createRequest 0 5, 0, 0⟩]
      ⟨readRequest 2 0, 0, 0⟩).ret = some (-EBADF) := by
  constructor
  · exact (index_correct tinyIndex_configured rfl (by decide)
    [⟨createRequest 0 261, 0, 0⟩]
      (by simp [createRequest]) (small_of_le (by decide +kernel))).1 [] _ [] 0 261 rfl rfl
      (by decide +kernel) (by simp) ⟨readRequest 0 0, 0, 0⟩ 0 rfl (by decide +kernel)
  · exact (index_correct tinyIndex_configured rfl (by decide)
      [⟨createRequest 2 5, 0, 0⟩, ⟨createRequest 0 5, 0, 0⟩]
      (by simp [createRequest]) (small_of_le (by decide +kernel))).2
        [⟨createRequest 2 5, 0, 0⟩] _ []
      rfl rfl (by decide +kernel) (by simp) ⟨readRequest 2 0, 0, 0⟩ .read rfl (by decide)

/-- **An insert is accepted exactly if it joins two components** of the graph of the
edges inserted since the last rebuild, and is answered `-EBADF` in every other case. -/
theorem insert_accepts_iff (hcfg : mphfConfigure cfg emptyStores r1 r2 = .ok u₀)
    (hro : cfg.readonly.getD 0 = 0) (hbits : 1 ≤ cfg.bits ∧ cfg.bits ≤ 64)
    (events : List Event)
    (hact : ∀ e ∈ events, e.request.action ∈ [some .create, some .read, some .rebuild])
    (hsmall : Small u₀ events) (hb : (after u₀ events).broken = false)
    (key value : UInt64) :
    ((∃ s', mphfChmImpInsert key value (after u₀ events).mphf = .ok () s') ↔
      (after u₀ events).mphf.vertex0 key ≠ (after u₀ events).mphf.vertex1 key ∧
      ¬ (edgeGraph ((inserted u₀ [] events).map Prod.fst)).Reachable
        ((after u₀ events).mphf.vertex0 key) ((after u₀ events).mphf.vertex1 key)) ∧
    (¬ ((after u₀ events).mphf.vertex0 key ≠ (after u₀ events).mphf.vertex1 key ∧
      ¬ (edgeGraph ((inserted u₀ [] events).map Prod.fst)).Reachable
        ((after u₀ events).mphf.vertex0 key) ((after u₀ events).mphf.vertex1 key)) →
      ∃ s', mphfChmImpInsert key value (after u₀ events).mphf
        = .error (.ret (-EBADF)) s') := by
  have hwrite := ne_write_of_mem hact
  obtain ⟨hinv₀, -, -⟩ := configure_inv hcfg hro hbits hsmall.head
  obtain ⟨hinv, -⟩ := run_inv events hinv₀ hwrite hsmall
  obtain ⟨hloop, hcycle, hjoin⟩ := run_insert (hinv.healthy hb) key value
  have hrefused : ¬ ((after u₀ events).mphf.vertex0 key
      ≠ (after u₀ events).mphf.vertex1 key ∧
      ¬ (edgeGraph ((inserted u₀ [] events).map Prod.fst)).Reachable
        ((after u₀ events).mphf.vertex0 key) ((after u₀ events).mphf.vertex1 key)) →
      ∃ s', mphfChmImpInsert key value (after u₀ events).mphf
        = .error (.ret (-EBADF)) s' := by
    intro hnot
    by_cases hxy : (after u₀ events).mphf.vertex0 key = (after u₀ events).mphf.vertex1 key
    · exact ⟨_, hloop hxy⟩
    · obtain ⟨s', hrun, -⟩ := hcycle hxy (not_not.mp fun hr => hnot ⟨hxy, hr⟩)
      exact ⟨s', hrun⟩
  refine ⟨⟨?_, ?_⟩, hrefused⟩
  · rintro ⟨s', hok⟩
    by_contra hnot
    obtain ⟨s'', herr⟩ := hrefused hnot
    rw [hok] at herr
    cases herr
  · rintro ⟨-, hr⟩
    obtain ⟨s', hok, -⟩ := hjoin hr
    exact ⟨s', hok⟩

theorem insert_accepts_iff_tiny :
    (∃ s', mphfChmImpInsert 0 5 (after tinyIndex []).mphf = .ok () s') ∧
    ∃ s', mphfChmImpInsert 2 5 (after tinyIndex [⟨createRequest 0 5, 0, 0⟩]).mphf
      = .error (.ret (-EBADF)) s' := by
  constructor
  · refine (insert_accepts_iff tinyIndex_configured rfl (by decide) [] (by simp)
      (small_of_le (by decide +kernel)) (by decide +kernel) 0 5).1.mpr
        ⟨by decide +kernel, ?_⟩
    have hne : (after tinyIndex []).mphf.vertex0 0
        ≠ (after tinyIndex []).mphf.vertex1 0 := by
      decide +kernel
    rw [inserted, List.map_nil, edgeGraph, SimpleGraph.reachable_bot]
    exact hne
  · refine (insert_accepts_iff tinyIndex_configured rfl (by decide)
      [⟨createRequest 0 5, 0, 0⟩]
      (by simp [createRequest]) (small_of_le (by decide +kernel))
      (by decide +kernel) 2 5).2 ?_
    rintro ⟨hne, hnot⟩
    refine hnot (SimpleGraph.Adj.reachable (edgeGraph_adj.mpr ⟨?_, hne⟩))
    decide +kernel

end Correct

end Frozen.Mphf
