/-
# `Frozen.Ipc.Moves` — what one step can do

The two step functions, inverted once: `ClientMove` and `ServerMove` list every way a
step can go, with the program counter it starts from, its guard and the state it
leaves.  Every invariant below is proved by cases on them.

The second half is the start: `shmem_init` on any segment, and on a fresh one.
-/
import Frozen.Ipc.Shmem

namespace Frozen.Ipc

open Frozen.Lib

/-! ## The moves -/

/-- Every way a step of call `c` can go. -/
inductive ClientMove (call : Call) (c : Nat) (s : State) : State → Label → Prop
  | start (hpc : s.client c = .start) (hsem : 0 < s.semFree) :
      ClientMove call c s ({ s with semFree := s.semFree - 1 }.setClient c (.scan 0)) .tau
  | hit (i : Nat) (hpc : s.client c = .scan i) (hi : i < s.nitems)
      (hst : s.status i = .free) :
      ClientMove call c s ((s.setStatus i .writing).setClient c (.convert i))
        (.acquire c i)
  | miss (i : Nat) (hpc : s.client c = .scan i) (hi : i < s.nitems)
      (hst : s.status i ≠ .free) :
      ClientMove call c s (s.setClient c (.scan (i + 1))) .tau
  | null (i : Nat) (hpc : s.client c = .scan i) (hi : s.nitems ≤ i) :
      ClientMove call c s (s.setClient c (.returned (errorCode EMODULE 257))) .null
  | convert (i : Nat) (hpc : s.client c = .convert i) (hok : call.Converts s.itemSize)
      (bytes : List UInt8) (hb : bytes = (convertTo s.itemSize call.buffer).1) :
      ClientMove call c s
        ((s.write i bytes.length fun k => bytes.getD k 0).setClient c (.setResult i))
        (.send c ((s.write i bytes.length fun k => bytes.getD k 0).content i))
  | fail (i : Nat) (hpc : s.client c = .convert i) (hok : ¬ call.Converts s.itemSize)
      (bytes : List UInt8) (hb : bytes = (convertTo s.itemSize call.buffer).1) :
      ClientMove call c s ((s.write i bytes.length fun k => bytes.getD k 0).setClient c
        (.returned (errorCode EMODULE 263))) .tau
  | setResult (i : Nat) (hpc : s.client c = .setResult i) :
      ClientMove call c s
        ({ s with returnResult := Function.update s.returnResult i (call.fAsync == 0) }.setClient
          c (.casWritten i)) .tau
  | publish (i : Nat) (hpc : s.client c = .casWritten i) (hst : s.status i = .writing) :
      ClientMove call c s ((s.setStatus i .written).setClient c (.postWritten i)) (.publish c i)
  | lost (i : Nat) (hpc : s.client c = .casWritten i) (hst : s.status i ≠ .writing) :
      ClientMove call c s (s.setClient c (.returned (-EFAULT))) .tau
  | post (i : Nat) (hpc : s.client c = .postWritten i) :
      ClientMove call c s ((s.semPost i .written).setClient c
        (if call.fAsync = 0 then .waitDone i else .returned 0)) .tau
  | wake (i : Nat) (hpc : s.client c = .waitDone i) (hsem : 0 < s.semDone i) :
      ClientMove call c s
        ({ s with semDone := Function.update s.semDone i (s.semDone i - 1) }.setClient c
          (if call.returnResult ≠ 0 then .readBack i else .casFree i)) .tau
  | readBack (i : Nat) (hpc : s.client c = .readBack i) :
      ClientMove call c s (s.setClient c (.casFree i)) (.readBack c i (s.content i))
  | release (i : Nat) (hpc : s.client c = .casFree i) (hst : s.status i = .execDone) :
      ClientMove call c s ((s.setStatus i .free).setClient c (.postFree i)) (.release i)
  | strange (i : Nat) (hpc : s.client c = .casFree i) (hst : s.status i ≠ .execDone) :
      ClientMove call c s (s.setClient c (.returned (errorCode EMODULE 283))) .tau
  | done (i : Nat) (hpc : s.client c = .postFree i) :
      ClientMove call c s ((s.semPost i .free).setClient c (.returned (-EEXIST))) .tau

theorem clientStep_move {call : Call} {c : Nat} {s s' : State} {l : Label}
    (h : clientStep call c s = some (s', l)) : ClientMove call c s s' l := by
  unfold clientStep at h
  cases hpc : s.client c with
  | start =>
      simp only [hpc] at h
      split_ifs at h with hsem
      cases h
      exact .start hpc hsem
  | scan i =>
      simp only [hpc, State.cas] at h
      split_ifs at h with hi hst
      · cases h
        exact .hit i hpc hi hst
      · cases h
        exact .miss i hpc hi hst
      · cases h
        exact .null i hpc (not_lt.mp hi)
  | convert i =>
      simp only [hpc] at h
      split_ifs at h with hok
      · cases h
        exact .convert i hpc hok _ rfl
      · cases h
        exact .fail i hpc hok _ rfl
  | setResult i =>
      simp only [hpc] at h
      cases h
      exact .setResult i hpc
  | casWritten i =>
      simp only [hpc, State.cas] at h
      split_ifs at h with hst
      · cases h
        exact .publish i hpc hst
      · cases h
        exact .lost i hpc hst
  | postWritten i =>
      simp only [hpc] at h
      cases h
      exact .post i hpc
  | waitDone i =>
      simp only [hpc] at h
      by_cases hsem : 0 < s.semDone i
      · rw [if_pos hsem] at h
        cases h
        exact .wake i hpc hsem
      · rw [if_neg hsem] at h
        cases h
  | readBack i =>
      simp only [hpc] at h
      cases h
      exact .readBack i hpc
  | casFree i =>
      simp only [hpc, State.cas] at h
      split_ifs at h with hst
      · cases h
        exact .release i hpc hst
      · cases h
        exact .strange i hpc hst
  | postFree i =>
      simp only [hpc] at h
      cases h
      exact .done i hpc
  | returned ret =>
      simp only [hpc] at h
      cases h

/-- Every way a step of the server can go. -/
inductive ServerMove (output : Nat → UInt8) (s : State) : State → Label → Prop
  | start (hpc : s.server = .wait) (hsem : 0 < s.semWritten) :
      ServerMove output s
        ({ s with semWritten := s.semWritten - 1 }.setServer (.scan 0)) .tau
  | hit (i : Nat) (hpc : s.server = .scan i) (hi : i < s.nitems)
      (hst : s.status i = .written) :
      ServerMove output s ((s.setStatus i .executing).setServer (.exec i)) .tau
  | miss (i : Nat) (hpc : s.server = .scan i) (hi : i < s.nitems)
      (hst : s.status i ≠ .written) :
      ServerMove output s (s.setServer (.scan (i + 1))) .tau
  | null (i : Nat) (hpc : s.server = .scan i) (hi : s.nitems ≤ i) :
      ServerMove output s (s.setServer .dead) .null
  | execute (i : Nat) (hpc : s.server = .exec i) :
      ServerMove output s ((s.write i s.itemSize output).setServer (.readResult i))
        (.execute i (s.content i) output)
  | readResult (i : Nat) (hpc : s.server = .readResult i) :
      ServerMove output s
        (s.setServer (.casDone i (if s.returnResult i then .execDone else .free))) .tau
  | finish (i : Nat) (new : Status) (hpc : s.server = .casDone i new)
      (hst : s.status i = .executing) :
      ServerMove output s ((s.setStatus i new).setServer (.post i new))
        (if new = .free then .release i else .tau)
  | lost (i : Nat) (new : Status) (hpc : s.server = .casDone i new)
      (hst : s.status i ≠ .executing) :
      ServerMove output s (s.setServer .dead) .tau
  | post (i : Nat) (new : Status) (hpc : s.server = .post i new) :
      ServerMove output s ((s.semPost i new).setServer .wait) .tau

theorem serverStep_move {output : Nat → UInt8} {s s' : State} {l : Label}
    (h : serverStep output s = some (s', l)) : ServerMove output s s' l := by
  unfold serverStep at h
  cases hpc : s.server with
  | wait =>
      simp only [hpc] at h
      split_ifs at h with hsem
      cases h
      exact .start hpc hsem
  | scan i =>
      simp only [hpc, State.cas] at h
      split_ifs at h with hi hst
      · cases h
        exact .hit i hpc hi hst
      · cases h
        exact .miss i hpc hi hst
      · cases h
        exact .null i hpc (not_lt.mp hi)
  | exec i =>
      simp only [hpc] at h
      cases h
      exact .execute i hpc
  | readResult i =>
      simp only [hpc] at h
      cases h
      exact .readResult i hpc
  | casDone i new =>
      simp only [hpc, State.cas] at h
      by_cases hst : s.status i = .executing
      · rw [if_pos hst] at h
        cases h
        exact .finish i new hpc hst
      · rw [if_neg hst] at h
        cases h
        exact .lost i new hpc hst
  | post i new =>
      simp only [hpc] at h
      cases h
      exact .post i new hpc
  | dead =>
      simp only [hpc] at h
      cases h

/-- A step is a move of one of the calls or of the server. -/
theorem step_move {calls : Calls} {s s' : State} {a : Act} {l : Label}
    (h : step calls s a = some (s', l)) :
    (∃ c < calls.ncalls, ClientMove (calls.call c) c s s' l) ∨
      ∃ output, ServerMove output s s' l := by
  cases a with
  | client c =>
      simp only [step] at h
      split_ifs at h with hc
      exact Or.inl ⟨c, hc, clientStep_move h⟩
  | server output => exact Or.inr ⟨output, serverStep_move h⟩

/-! ## `shmem_init` -/

section Init

/-- The loop touches the two fields it sets, of the blocks it passes. -/
theorem shmemInitLoop_spec : ∀ (n : Nat) (m : Shm),
    let m' := (List.range n).foldl shmemInitBlock m
    m'.itemSize = m.itemSize ∧ m'.nitems = m.nitems ∧ m'.semFree = m.semFree ∧
      m'.semWritten = m.semWritten ∧ m'.status = m.status ∧
      m'.returnResult = m.returnResult ∧
      m'.data = m.data ∧ ∀ i < n, m'.semDone i = 0 ∧
      m'.dataRelPtr i = i * m.itemSize % 2 ^ 32
  | 0, m => ⟨rfl, rfl, rfl, rfl, rfl, rfl, rfl, fun i hi => absurd hi (Nat.not_lt_zero i)⟩
  | n + 1, m => by
      obtain ⟨h1, h2, h3, h4, h5, h6, h7, h8⟩ := shmemInitLoop_spec n m
      rw [List.range_succ, List.foldl_append, List.foldl_cons, List.foldl_nil]
      refine ⟨h1, h2, h3, h4, h5, h6, h7, fun i hi => ?_⟩
      have h0 : semInit ((List.foldl shmemInitBlock m (List.range n)).semDone n) 0
          = 0 := by
        simp [semInit]
      simp only [shmemInitBlock, h0, h1]
      rcases Nat.lt_succ_iff_lt_or_eq.mp hi with hlt | rfl
      · rw [Function.update_of_ne hlt.ne, Function.update_of_ne hlt.ne]
        exact h8 i hlt
      · rw [Function.update_self, Function.update_self]
        exact ⟨rfl, rfl⟩

theorem shmemInit_status (m : Shm) : (shmemInit m).status = m.status :=
  (shmemInitLoop_spec m.nitems _).2.2.2.2.1

theorem shmemInit_nitems (m : Shm) : (shmemInit m).nitems = m.nitems :=
  (shmemInitLoop_spec m.nitems _).2.1

theorem shmemInit_itemSize (m : Shm) : (shmemInit m).itemSize = m.itemSize :=
  (shmemInitLoop_spec m.nitems _).1

theorem shmemInit_semFree (m : Shm) :
    (shmemInit m).semFree = semInit m.semFree m.nitems :=
  (shmemInitLoop_spec m.nitems _).2.2.1

theorem shmemInit_semWritten (m : Shm) : (shmemInit m).semWritten = 0 :=
  (shmemInitLoop_spec m.nitems _).2.2.2.1.trans (by simp [semInit])

theorem shmemInit_block (m : Shm) {i : Nat} (hi : i < m.nitems) :
    (shmemInit m).semDone i = 0 ∧ (shmemInit m).dataRelPtr i = i * m.itemSize % 2 ^ 32 :=
  (shmemInitLoop_spec m.nitems _).2.2.2.2.2.2.2 i hi

end Init

end Frozen.Ipc
