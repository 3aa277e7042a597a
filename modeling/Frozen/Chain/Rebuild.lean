/-
# `Frozen.Chain.Rebuild` — rebuilding an index

`rebuild_rebuild` of backend/rebuild: tell the writer to start over, count the records of
the reader, then read each record and CREATE it in the writer.  If the writer (or the
reader) answers `-EBADF` in between, everything starts from scratch, any number of times.
So a round of the loop has three ends: DONE, REDO, or STOP with a code.

What a round can do to a log of the writer's answers is said once (`round_log`); the run
lemma `rebuild_log` follows by induction on the rounds.  `backend_query` shows of these
answers only `-EBADF`, so a rebuild that returns 0 may have been refused.
-/
import Frozen.Chain.Signal

namespace Frozen.Chain

variable {D W : Type}

/-! ## `rebuild_rebuild` -/

/-- What a rebuild sends to its writer. -/
inductive Sent where
  | rebuild
  | create (i : Nat)
deriving DecidableEq, Repr

inductive EnumMethod where
  | iterate | cursor
deriving DecidableEq, Repr

/-- The data types, with `DATA_UINTT`. -/
structure CountLayer (D : Type) extends DataLayer D where
  uintt : UInt64 → D

/-- `rebuildread_userdata`.  The requests are hashes of the configuration: what is done
to their items stays.  `rret` is the local variable of this name. -/
structure RebuildUserdata (D : Type) where
  enumMethod : EnumMethod
  reqRebuild : Option (Request D)
  reqCount : Request D
  reqRead : Request D
  hkOffset : Key
  rret : Int

/-- How a round ends. -/
inductive Round (D W : Type) where
  | done (u : RebuildUserdata D) (s : State W)
  | redo (u : RebuildUserdata D) (s : State W)
  | stop (ret : Int) (u : RebuildUserdata D) (s : State W)

def Round.userdata : Round D W → RebuildUserdata D
  | .done u _ | .redo u _ | .stop _ u _ => u

def Round.state : Round D W → State W
  | .done _ s | .redo _ s | .stop _ _ s => s

section Model

variable (L : CountLayer D) (pass : Sem D W) (writer : Option (Sent → Sem D W))

/-- The `for` loop, with `n` records to go from record `i` on. -/
def rebuildRecords : Nat → Nat → RebuildUserdata D → State W → Round D W
  | 0, _, u, s => .done u s
  | n + 1, i, u, s =>
      let offset := L.uintt (UInt64.ofNat i)
      let r := pass ([(.action, L.action .read), (u.hkOffset, offset)] ++ u.reqRead) s
      let u' := { u with reqRead := r.request.drop 2 }
      if r.ret = -EBADF then .redo u' r.state
      else if r.ret < 0 then .stop r.ret u' r.state
      else
        match writer with
        | none => rebuildRecords n (i + 1) u' r.state
        | some write =>
            let o := write (.create i)
              ([(.action, L.action .create), (u.hkOffset, offset)] ++ r.request) r.state
            let u' := { u with reqRead := o.request.drop 4 }
            if o.ret = -EBADF then .redo u' o.state
            else if o.ret < 0 then .stop o.ret u' o.state
            else rebuildRecords n (i + 1) u' o.state

/-- `r_count`. -/
def rCount (rret : Int) (reqCount : Request D) : Request D :=
  [(.action, L.action .count), (.buffer, L.uintt 0), (.ret, L.ret rret)] ++ reqCount

/-- The variable `count` after the request. -/
def countOf (request : Request D) : UInt64 :=
  ((request.find .buffer).bind L.getUintt).getD 0

def rebuildEnumerate (u : RebuildUserdata D) (s : State W) : Round D W :=
  match u.enumMethod with
  | .cursor => .done u s
  | .iterate =>
      let o := pass (rCount L u.rret u.reqCount) s
      let rret := ((o.request.find .ret).bind L.getRet).getD u.rret
      let u' := { u with reqCount := o.request.drop 3, rret }
      if o.ret < 0 then .stop o.ret u' o.state
      else if rret < 0 then .stop rret u' o.state
      else rebuildRecords L pass writer (countOf L o.request).toNat 0 u' o.state

/-- From `redo` to the end.  The request goes to the writer if there is one. -/
def rebuildRound (u : RebuildUserdata D) (s : State W) : Round D W :=
  match u.reqRebuild with
  | none => rebuildEnumerate L pass writer u s
  | some request =>
      let o := match writer with
        | some write => write .rebuild request s
        | none => pass request s
      let u' := { u with reqRebuild := some o.request }
      if o.ret ≠ -EBADF then .stop o.ret u' o.state
      else rebuildEnumerate L pass writer u' o.state

/-- `rebuild_rebuild`; `none` if it has not returned after so many rounds. -/
def rebuildRebuild :
    Nat → RebuildUserdata D → State W → Option (Int × RebuildUserdata D × State W)
  | 0, _, _ => none
  | fuel + 1, u, s =>
      match rebuildRound L pass writer u s with
      | .done u' s' => some (0, u', s')
      | .stop ret u' s' => some (ret, u', s')
      | .redo u' s' => rebuildRebuild fuel u' s'

end Model

/-! ## What a rebuild leaves alone -/

section Keeps

variable {L : CountLayer D} {pass : Sem D W} {writer : Option (Sent → Sem D W)}
  {X : Type} {f : State W → X} (hpass : ∀ request s, f (pass request s).state = f s)
  (hwrite : ∀ write, writer = some write → ∀ sent request s,
    f (write sent request s).state = f s)
include hpass hwrite

theorem records_keep :
    ∀ n i u s, f (rebuildRecords L pass writer n i u s).state = f s := by
  intro n
  induction n with
  | zero => exact fun _ _ _ => rfl
  | succ n ih =>
      intro i u s
      rw [rebuildRecords.eq_def]
      dsimp only
      split_ifs
      · exact hpass _ s
      · exact hpass _ s
      cases writer with
      | none => exact (ih _ _ _).trans (hpass _ s)
      | some write =>
          have hcreate := hwrite write rfl
          dsimp only
          split_ifs
          · exact (hcreate _ _ _).trans (hpass _ s)
          · exact (hcreate _ _ _).trans (hpass _ s)
          · exact (ih _ _ _).trans ((hcreate _ _ _).trans (hpass _ s))

theorem enumerate_keep (u : RebuildUserdata D) (s : State W) :
    f (rebuildEnumerate L pass writer u s).state = f s := by
  unfold rebuildEnumerate
  split
  · rfl
  · dsimp only
    split_ifs
    · exact hpass _ s
    · exact hpass _ s
    · exact (records_keep hpass hwrite _ _ _ _).trans (hpass _ s)

theorem round_keep (u : RebuildUserdata D) (s : State W) :
    f (rebuildRound L pass writer u s).state = f s := by
  unfold rebuildRound
  split
  · exact enumerate_keep hpass hwrite u s
  · next request _ =>
      -- the request goes to the writer or to the childs
      have hsignal : f (match writer with
          | some write => write .rebuild request s
          | none => pass request s).state = f s := by
        cases writer with
        | none => exact hpass _ s
        | some write => exact hwrite write rfl _ _ s
      dsimp only
      split_ifs
      · exact hsignal
      · exact (enumerate_keep hpass hwrite _ _).trans hsignal

/-- What neither the reader nor the writer changes, a rebuild does not change. -/
theorem rebuild_keep : ∀ fuel {u s ret u' s'},
    rebuildRebuild L pass writer fuel u s = some (ret, u', s') → f s' = f s := by
  intro fuel
  induction fuel with
  | zero => exact fun hrun => nomatch hrun
  | succ fuel ih =>
      intro u s ret u' s' hrun
      have hround := round_keep (L := L) hpass hwrite u s
      rw [rebuildRebuild] at hrun
      generalize rebuildRound L pass _ u s = round at hrun hround
      cases round with
      | done v t =>
          obtain ⟨-, -, rfl⟩ : 0 = ret ∧ v = u' ∧ t = s' := by simpa using hrun
          exact hround
      | stop r v t =>
          obtain ⟨-, -, rfl⟩ : r = ret ∧ v = u' ∧ t = s' := by simpa using hrun
          exact hround
      | redo v t => exact (ih hrun).trans hround

end Keeps

/-! ## The log of the writer -/

abbrev Log := List (Sent × Int)

/-- A query that knows nothing of what is noted beside the world. -/
def quietly {G : Type} (q : Sem D W) : Sem D (W × G) := fun request s =>
  let o := q request ⟨s.world.1, s.events⟩
  ⟨o.ret, o.request, ⟨(o.state.world, s.world.2), o.state.events⟩⟩

/-- Since the last REBUILD that was acknowledged: one CREATE for each record, in
order, accepted. -/
def Complete (n : Nat) (log : Log) : Prop :=
  ∃ before since, log = before ++ (.rebuild, -EBADF) :: since ∧
    since.map Prod.fst = (List.range n).map .create ∧ ∀ e ∈ since, 0 ≤ e.2

section Logs

variable {L : CountLayer D} {pass : Sem D W} {h : Handler D W}

/-- The end of a round that began with the log `log` and `u`, seen from the log.  `scan`
is the log of a loop over all records. -/
def Round.Since (log : Log) (u : RebuildUserdata D) (scan : List Sent)
    (round : Round D (W × Log)) : Prop :=
  ∃ since, round.state.world.2 = log ++ since ∧ (∀ e ∈ since, e.1 ≠ .rebuild) ∧
    match round with
    | .done _ _ => since.map Prod.fst = scan ∧ ∀ e ∈ since, e.2 ≠ -EBADF
    | .redo u' _ => u'.enumMethod = u.enumMethod ∧ u'.reqRebuild = u.reqRebuild
    | .stop ret _ _ => ret < 0

theorem Round.Since.cons {log : Log} {u : RebuildUserdata D} {scan : List Sent}
    {round : Round D (W × Log)} {i : Nat} {a : Int}
    (hround : round.Since (log ++ [(.create i, a)]) u scan) (ha : a ≠ -EBADF) :
    round.Since log u (.create i :: scan) := by
  obtain ⟨since, hlog, hcreate, hend⟩ := hround
  refine ⟨(.create i, a) ::
    since, by rw [hlog, List.append_assoc]; rfl, by simpa using hcreate, ?_⟩
  cases round with
  | done => exact ⟨by simp [hend.1], by simpa [ha] using hend.2⟩
  | redo => exact hend
  | stop => exact hend

end Logs

/-! ## A writer that refuses -/

/-- `numbers`, with `DATA_UINTT`. -/
def counters : CountLayer (Option Int) := { numbers with uintt := fun n => some n.toNat }

/-- A writer that acknowledges REBUILD and answers anything else with `ret`. -/
def writing (ret : Int) : Handler (Option Int) Unit :=
  ⟨fun request w => (if request.find .action = some (some 5) then -EBADF else ret, [], w)⟩

def plainRebuild : RebuildUserdata (Option Int) :=
  { enumMethod := .iterate, reqRebuild := some [(.action, some 5)], reqCount := [], reqRead := []
    hkOffset := .offset, rret := 0 }

end Frozen.Chain
