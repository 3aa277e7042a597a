/-
# `Frozen.Ipc.Slots` — semaphores against blocks

How the two shared semaphores account for the blocks.  Every FREE block is a token of
`sem_free`, or spoken for by a caller that has passed `sem_wait` and is scanning, or
its post is still to come; every WRITTEN block likewise.  On top of the totals the
blocks have to be in the right PLACES: a scan is a single pass, so ahead of every
scanner there must be a block left for it, whatever the others do (`Covered`).

`Slots` is kept by every step, whether or not conversions succeed (`slots_step`).
From it: no scan ever comes up empty and the server never dies; and at rest the FREE
blocks are counted exactly.
-/
import Frozen.Ipc.Moves
import Frozen.Lib.Tally

namespace Frozen.Ipc

open Frozen.Lib

/-! ## What a program counter stands for -/

def Status.isFree : Status → Bool
  | .free => true
  | _ => false

def Status.isWritten : Status → Bool
  | .written => true
  | _ => false

@[simp] theorem Status.isFree_eq {x : Status} : x.isFree = true ↔ x = .free := by
  cases x <;> simp [isFree]

@[simp] theorem Status.isWritten_eq {x : Status} : x.isWritten = true ↔ x = .written := by
  cases x <;> simp [isWritten]

namespace Pc

/-- Where a scanning call looks next. -/
def scanPos : Pc → Option Nat
  | .scan i => some i
  | _ => none

def isScan : Pc → Bool
  | .scan _ => true
  | _ => false

def isPostFree : Pc → Bool
  | .postFree _ => true
  | _ => false

def isPostWritten : Pc → Bool
  | .postWritten _ => true
  | _ => false

/-- The block a call works on. -/
def block : Pc → Option Nat
  | .convert i | .setResult i | .casWritten i | .postWritten i | .waitDone i | .readBack i
  | .casFree i => some i
  | _ => none

/-- A call that owes the semaphores nothing. -/
def quiet (pc : Pc) : Bool := !pc.isScan && !pc.isPostFree && !pc.isPostWritten

theorem scanPos_ne_none {pc : Pc} : pc.scanPos ≠ none ↔ pc.isScan = true := by
  cases pc <;> simp [scanPos, isScan]

theorem scanPos_of_quiet {pc : Pc} (h : pc.quiet = true) : pc.scanPos = none := by
  cases pc <;> simp_all [quiet, scanPos, isScan]

end Pc

namespace Listen

def scanPos : Listen → Option Nat
  | .scan i => some i
  | _ => none

def isScan : Listen → Bool
  | .scan _ => true
  | _ => false

/-- The server has freed a block and not posted it yet. -/
def owesFree : Listen → Bool
  | .post _ .free => true
  | _ => false

/-- The block whose request the server runs. -/
def busy : Listen → Option Nat
  | .exec i | .readResult i | .casDone i _ => some i
  | _ => none

/-- The status a finished block is about to get, or has just got. -/
def outcome : Listen → Option Status
  | .casDone _ new | .post _ new => some new
  | _ => none

end Listen

/-! ## The accounts -/

/-- The accounts balance, and ahead of every scanner there is a block for it.  `debt` is
what `sem_free` never got. -/
structure Slots (m debt : Nat) (s : State) : Prop where
  free : tally s.nitems (fun i => (s.status i).isFree = true)
    = s.semFree + tally m (fun c => (s.client c).isScan = true)
      + tally m (fun c => (s.client c).isPostFree = true) + s.server.owesFree.toNat + debt
  freeAhead : Covered s.nitems m (fun i => (s.status i).isFree = true)
    (Pc.scanPos ∘ s.client)
  written : tally s.nitems (fun i => (s.status i).isWritten = true)
    = s.semWritten + s.server.isScan.toNat + tally m
      (fun c => (s.client c).isPostWritten = true)
  writtenAhead : Covered s.nitems 1 (fun i => (s.status i).isWritten = true) fun _ =>
    s.server.scanPos
  range : ∀ c i, (s.client c).block = some i → i < s.nitems
  busy : ∀ i, s.server.busy = some i → i < s.nitems ∧ s.status i = .executing
  outcome : ∀ new, s.server.outcome = some new → new = .free ∨ new = .execDone

section Client

variable {m debt c : Nat} {s s' : State} {pc : Pc}

theorem range_update (h : ∀ d i, (s.client d).block = some i → i < s.nitems)
    (hpc : ∀ i, pc.block = some i → i < s.nitems) :
    ∀ d i, (Function.update s.client c pc d).block = some i → i < s.nitems := by
  intro d i hd
  by_cases hdc : d = c
  · rw [hdc, Function.update_self] at hd
    exact hpc i hd
  · rw [Function.update_of_ne hdc] at hd
    exact h d i hd

theorem scanPos_update (h : pc.scanPos = (s.client c).scanPos) :
    Pc.scanPos ∘ Function.update s.client c pc = Pc.scanPos ∘ s.client := by
  rw [Function.comp_update]
  exact Function.update_eq_iff.mpr ⟨h, fun _ _ => rfl⟩

theorem busy_update {i : Nat}
    (h : ∀ j, s.server.busy = some j → j < s.nitems ∧ s.status j = .executing)
    (hst : s.status i ≠ .executing) (new : Status) :
    ∀ j, s.server.busy = some j → j < s.nitems ∧
      Function.update s.status i new j = .executing := by
  intro j hj
  obtain ⟨hjn, hjst⟩ := h j hj
  have hji : j ≠ i := fun heq => hst (heq ▸ hjst)
  exact ⟨hjn, by rw [Function.update_of_ne hji]; exact hjst⟩

theorem ahead_update {P : Status → Bool} {n k i : Nat} {pos : Nat → Option Nat}
    (h : Covered n k (fun j => P (s.status j) = true) pos)
    (hP : P (s.status i) = false) (new : Status) :
    Covered n k (fun j => P (Function.update s.status i new j) = true) pos := by
  refine h.mono fun j _ hj => ?_
  have hji : j ≠ i := fun heq => by rw [heq, hP] at hj; cases hj
  rw [Function.update_of_ne hji]
  exact hj

/-- A call moves on without touching status words or shared semaphores. -/
theorem Slots.quiet (h : Slots m debt s) (hn : s'.nitems = s.nitems)
    (hst : s'.status = s.status) (hsf : s'.semFree = s.semFree)
    (hsw : s'.semWritten = s.semWritten) (hsrv : s'.server = s.server)
    (hcl : s'.client = Function.update s.client c pc)
    (hold : (s.client c).quiet = true) (hnew : pc.quiet = true)
    (hblock : ∀ i, pc.block = some i → (s.client c).block = some i) :
    Slots m debt s' := by
  have hq : ∀ {pc : Pc}, pc.quiet = true → pc.isScan = false ∧ pc.isPostFree = false ∧
      pc.isPostWritten = false := by
    intro pc hpc
    cases pc <;> simp_all [Pc.quiet, Pc.isScan, Pc.isPostFree, Pc.isPostWritten]
  obtain ⟨o1, o2, o3⟩ := hq hold
  obtain ⟨n1, n2, n3⟩ := hq hnew
  have hpos : Pc.scanPos ∘ s'.client = Pc.scanPos ∘ s.client := by
    rw [hcl]
    exact scanPos_update
      ((Pc.scanPos_of_quiet hnew).trans (Pc.scanPos_of_quiet hold).symm)
  refine ⟨?_, ?_, ?_, ?_, ?_, ?_, ?_⟩
  · rw [hn, hst, hsf, hsrv, hcl, tally_keep Pc.isScan (n1.trans o1.symm),
      tally_keep Pc.isPostFree (n2.trans o2.symm)]
    exact h.free
  · rw [hn, hst, hpos]
    exact h.freeAhead
  · rw [hn, hst, hsw, hsrv, hcl, tally_keep Pc.isPostWritten (n3.trans o3.symm)]
    exact h.written
  · rw [hn, hst, hsrv]
    exact h.writtenAhead
  · rw [hn, hcl]
    exact range_update h.range fun i hi => h.range c i (hblock i hi)
  · rw [hn, hst, hsrv]
    exact h.busy
  · rw [hsrv]
    exact h.outcome

/-- A call that scans has a FREE block ahead. -/
theorem Slots.exists_free (h : Slots m debt s) (hc : c < m) {i : Nat}
    (hpc : s.client c = .scan i) : ∃ j < s.nitems, i ≤ j ∧ s.status j = .free := by
  obtain ⟨j, hj, hij, hfree⟩ :=
    h.freeAhead.exists_slot (i := i) hc (by simp [hpc, Pc.scanPos])
  exact ⟨j, hj, hij, Status.isFree_eq.mp hfree⟩

/-- So no scan of a call runs out of blocks. -/
theorem Slots.scan_lt (h : Slots m debt s) (hc : c < m) {i : Nat}
    (hpc : s.client c = .scan i) : i < s.nitems := by
  obtain ⟨j, hj, hij, -⟩ := h.exists_free hc hpc
  exact lt_of_le_of_lt hij hj

/-- Every move of a call keeps the accounts. -/
theorem slots_client {call : Call} {l : Label} (h : Slots m debt s) (hc : c < m)
    (hmove : ClientMove call c s s' l) : Slots m debt s' := by
  have hfree := h.free
  have hwritten := h.written
  -- how the three counts of calls change when `c` moves on
  have hscan := fun pc => @tally_keep m c Pc Pc.isScan s.client pc
  have hpf := fun pc => @tally_keep m c Pc Pc.isPostFree s.client pc
  have hpw := fun pc => @tally_keep m c Pc Pc.isPostWritten s.client pc
  cases hmove with
  | start hpc hsem =>
      have h1 :=
        tally_gain Pc.isScan (f := s.client) (v := .scan 0) hc (by rw [hpc]; rfl) rfl
      have hroom : tally m (fun c => (Pc.scanPos ∘ s.client) c ≠ none)
          < tally s.nitems (fun i => (s.status i).isFree = true) := by
        have hne : tally m (fun c => (Pc.scanPos ∘ s.client) c ≠ none)
            = tally m (fun c => (s.client c).isScan = true) :=
          tally_congr fun c _ => Pc.scanPos_ne_none
        omega
      refine ⟨?_, ?_, ?_, h.writtenAhead, range_update h.range (by simp [Pc.block]),
        h.busy, h.outcome⟩
      · simp only [State.setClient, h1, hpf (.scan 0) (by rw [hpc]; rfl)]
        omega
      · exact h.freeAhead.start hc (by simp [hpc, Pc.scanPos]) hroom
          (Function.comp_update ..)
      · simp only [State.setClient, hpw (.scan 0) (by rw [hpc]; rfl)]
        exact hwritten
  | hit i hpc hi hst =>
      have h1 := tally_lose Pc.isScan (f := s.client) (v := .convert i) hc
          (by rw [hpc]; rfl) rfl
      have h4 := tally_lose Status.isFree (f := s.status) (v := .writing) hi
          (by rw [hst]; rfl) rfl
      refine ⟨?_, ?_, ?_, ?_, range_update h.range (by simp [Pc.block, hi]),
        ?_, h.outcome⟩
      · simp only [State.setClient, State.setStatus, hpf (.convert i) (by rw [hpc]; rfl)]
        omega
      · refine h.freeAhead.take hc (by simp [hpc, Pc.scanPos]) hi (by simp [hst])
          (Function.comp_update ..) fun j => ?_
        by_cases hj : j = i
        · simp [hj]
        · simp [hj]
      · simp only [State.setClient, State.setStatus, hpw (.convert i) (by rw [hpc]; rfl),
          tally_keep Status.isWritten (i := i) (f := s.status) (v := .writing)
            (by rw [hst]; rfl)]
        exact hwritten
      · exact ahead_update h.writtenAhead (by rw [hst]; rfl) .writing
      · exact busy_update h.busy (by rw [hst]; decide) .writing
  | miss i hpc hi hst =>
      have h1 := hscan (.scan (i + 1)) (by rw [hpc]; rfl)
      refine ⟨?_, ?_, ?_, h.writtenAhead, range_update h.range (by simp [Pc.block]),
        h.busy, h.outcome⟩
      · simp only [State.setClient, h1, hpf (.scan (i + 1)) (by rw [hpc]; rfl)]
        exact hfree
      · exact h.freeAhead.miss hc (by simp [hpc, Pc.scanPos]) (by simpa using hst)
          (Function.comp_update ..)
      · simp only [State.setClient, hpw (.scan (i + 1)) (by rw [hpc]; rfl)]
        exact hwritten
  | null i hpc hi =>
      exact absurd (h.scan_lt hc hpc) (not_lt.mpr hi)
  | convert i hpc hok bytes hb =>
      exact h.quiet rfl rfl rfl rfl rfl rfl (by rw [hpc]; rfl) rfl
        (by simp [hpc, Pc.block])
  | fail i hpc hok bytes hb =>
      exact h.quiet rfl rfl rfl rfl rfl rfl (by rw [hpc]; rfl) rfl (by simp [Pc.block])
  | setResult i hpc =>
      exact h.quiet rfl rfl rfl rfl rfl rfl (by rw [hpc]; rfl) rfl
        (by simp [hpc, Pc.block])
  | publish i hpc hst =>
      have hi : i < s.nitems := h.range c i (by rw [hpc]; rfl)
      have h3 := tally_gain Pc.isPostWritten (f := s.client) (v := .postWritten i) hc
        (by rw [hpc]; rfl) rfl
      have h5 := tally_gain Status.isWritten (f := s.status) (v := .written) hi
          (by rw [hst]; rfl) rfl
      refine ⟨?_, ?_, ?_, ?_, range_update h.range (by simp [Pc.block, hi]),
        ?_, h.outcome⟩
      · simp only [State.setClient, State.setStatus,
          hscan (.postWritten i) (by rw [hpc]; rfl),
          hpf (.postWritten i) (by rw [hpc]; rfl),
          tally_keep Status.isFree (i := i) (f := s.status) (v := .written)
            (by rw [hst]; rfl)]
        exact hfree
      · show Covered s.nitems m _
          (Pc.scanPos ∘ Function.update s.client c (.postWritten i))
        rw [scanPos_update (by rw [hpc]; rfl)]
        exact ahead_update h.freeAhead (by rw [hst]; rfl) .written
      · simp only [State.setClient, State.setStatus]
        omega
      · exact ahead_update h.writtenAhead (by rw [hst]; rfl) .written
      · exact busy_update h.busy (by rw [hst]; decide) .written
  | lost i hpc hst =>
      exact h.quiet rfl rfl rfl rfl rfl rfl (by rw [hpc]; rfl) rfl (by simp [Pc.block])
  | post i hpc =>
      set pc : Pc := if call.fAsync = 0 then .waitDone i else .returned 0 with hpcdef
      have hflags : pc.isScan = false ∧ pc.isPostFree = false ∧ pc.isPostWritten = false ∧
          pc.scanPos = none ∧ ∀ j, pc.block = some j → j = i := by
        rw [hpcdef]
        split_ifs
          <;> simp [Pc.isScan, Pc.isPostFree, Pc.isPostWritten, Pc.scanPos, Pc.block]
      obtain ⟨hf1, hf2, hf3, hf4, hf5⟩ := hflags
      have h3 :=
        tally_lose Pc.isPostWritten (f := s.client) (v := pc) hc (by rw [hpc]; rfl) hf3
      refine ⟨?_, ?_, ?_, h.writtenAhead, range_update h.range fun j hj => ?_,
        h.busy, h.outcome⟩
      · simp only [State.setClient, State.semPost, hscan pc (by rw [hpc, hf1]; rfl),
          hpf pc (by rw [hpc, hf2]; rfl)]
        exact hfree
      · show Covered s.nitems m _ (Pc.scanPos ∘ Function.update s.client c pc)
        rw [scanPos_update (by rw [hpc, hf4]; rfl)]
        exact h.freeAhead
      · simp only [State.setClient, State.semPost]
        omega
      · exact hf5 j hj ▸ h.range c i (by rw [hpc]; rfl)
  | wake i hpc hsem =>
      refine h.quiet rfl rfl rfl rfl rfl rfl (by rw [hpc]; rfl) ?_ ?_
      · split_ifs <;> rfl
      · split_ifs <;> simp [hpc, Pc.block]
  | readBack i hpc =>
      exact h.quiet rfl rfl rfl rfl rfl rfl (by rw [hpc]; rfl) rfl
        (by simp [hpc, Pc.block])
  | release i hpc hst =>
      have hi : i < s.nitems := h.range c i (by rw [hpc]; rfl)
      have h2 := tally_gain Pc.isPostFree (f := s.client) (v := .postFree i) hc
          (by rw [hpc]; rfl) rfl
      have h4 :=
        tally_gain Status.isFree (f := s.status) (v := .free) hi (by rw [hst]; rfl) rfl
      refine ⟨?_, ?_, ?_, ?_, range_update h.range (by simp [Pc.block]), ?_, h.outcome⟩
      · simp only [State.setClient, State.setStatus,
          hscan (.postFree i) (by rw [hpc]; rfl)]
        omega
      · show Covered s.nitems m _ (Pc.scanPos ∘ Function.update s.client c (.postFree i))
        rw [scanPos_update (by rw [hpc]; rfl)]
        exact ahead_update h.freeAhead (by rw [hst]; rfl) .free
      · simp only [State.setClient, State.setStatus, hpw (.postFree i) (by rw [hpc]; rfl),
          tally_keep Status.isWritten (i := i) (f := s.status) (v := .free)
            (by rw [hst]; rfl)]
        exact hwritten
      · exact ahead_update h.writtenAhead (by rw [hst]; rfl) .free
      · exact busy_update h.busy (by rw [hst]; decide) .free
  | strange i hpc hst =>
      exact h.quiet rfl rfl rfl rfl rfl rfl (by rw [hpc]; rfl) rfl (by simp [Pc.block])
  | done i hpc =>
      have h2 := tally_lose Pc.isPostFree (f := s.client) (v := .returned (-EEXIST)) hc
        (by rw [hpc]; rfl) rfl
      refine ⟨?_, ?_, ?_, h.writtenAhead, range_update h.range (by simp [Pc.block]),
        h.busy, h.outcome⟩
      · simp only [State.setClient, State.semPost,
          hscan (.returned (-EEXIST)) (by rw [hpc]; rfl)]
        omega
      · show Covered s.nitems m _
          (Pc.scanPos ∘ Function.update s.client c (.returned (-EEXIST)))
        rw [scanPos_update (by rw [hpc]; rfl)]
        exact h.freeAhead
      · simp only [State.setClient, State.semPost,
          hpw (.returned (-EEXIST)) (by rw [hpc]; rfl)]
        exact hwritten

end Client

section Server

variable {m debt : Nat} {s s' : State}

/-- The server is the one scanner for WRITTEN blocks. -/
theorem one_scanner (x y : Option Nat) :
    ∀ c < 1, (fun _ => y) c = Function.update (fun _ => x) 0 y c := by
  intro c hc
  rw [Nat.lt_one_iff.mp hc, Function.update_self]

/-- The server moves on without touching status words or shared semaphores. -/
theorem Slots.setServer (h : Slots m debt s) {pc : Listen}
    (howes : pc.owesFree = s.server.owesFree) (hscan : pc.isScan = s.server.isScan)
    (hpos : pc.scanPos = s.server.scanPos)
    (hbusy : ∀ i, pc.busy = some i → s.server.busy = some i)
    (hout : ∀ new, pc.outcome = some new → new = .free ∨ new = .execDone) :
    Slots m debt (s.setServer pc) := by
  refine ⟨?_, h.freeAhead, ?_, ?_, h.range, fun i hi => h.busy i (hbusy i hi), hout⟩
  · simp only [State.setServer, howes]
    exact h.free
  · simp only [State.setServer, hscan]
    exact h.written
  · simp only [State.setServer, hpos]
    exact h.writtenAhead

/-- When the server scans it has a WRITTEN block ahead. -/
theorem Slots.exists_written (h : Slots m debt s) {i : Nat} (hpc : s.server = .scan i) :
    ∃ j < s.nitems, i ≤ j ∧ s.status j = .written := by
  obtain ⟨j, hj, hij, hwritten⟩ := h.writtenAhead.exists_slot (c := 0) (i := i)
    Nat.zero_lt_one (by simp [hpc, Listen.scanPos])
  exact ⟨j, hj, hij, Status.isWritten_eq.mp hwritten⟩

/-- Every move of the server keeps the accounts; none of them kills it. -/
theorem slots_server {output : Nat → UInt8} {l : Label} (h : Slots m debt s)
    (hmove : ServerMove output s s' l) :
    Slots m debt s' ∧ s'.server ≠ .dead ∧ l ≠ .null := by
  have hfree := h.free
  have hwritten := h.written
  have hahead := h.writtenAhead
  cases hmove with
  | start hpc hsem =>
      rw [hpc] at hfree hwritten hahead
      simp only [Listen.isScan, Bool.toNat_false] at hwritten
      have hroom : tally 1 (fun c => (fun _ => Listen.wait.scanPos) c ≠ none)
          < tally s.nitems (fun i => (s.status i).isWritten = true) := by
        have hzero : tally 1 (fun c => (fun _ => Listen.wait.scanPos) c ≠ none) = 0 :=
          tally_eq_zero.mpr fun _ _ => by simp [Listen.scanPos]
        omega
      refine ⟨⟨hfree, h.freeAhead, ?_, ?_, h.range, ?_, ?_⟩, by simp, by simp⟩
      · simp only [State.setServer, Listen.isScan, Bool.toNat_true]
        omega
      · exact (hahead.start Nat.zero_lt_one rfl hroom rfl).congr (one_scanner _ _)
      · simp [Listen.busy]
      · simp [Listen.outcome]
  | hit i hpc hi hst =>
      rw [hpc] at hfree hwritten hahead
      simp only [Listen.isScan, Bool.toNat_true] at hwritten
      have h5 := tally_lose Status.isWritten (f := s.status) (v := .executing) hi
          (by rw [hst]; rfl) rfl
      refine ⟨⟨?_, ?_, ?_, ?_, h.range, ?_, ?_⟩, by simp, by simp⟩
      · simp only [State.setServer, State.setStatus,
          tally_keep Status.isFree (i := i) (f := s.status) (v := .executing)
            (by rw [hst]; rfl)]
        exact hfree
      · exact ahead_update h.freeAhead (by rw [hst]; rfl) .executing
      · simp only [State.setServer, State.setStatus, Listen.isScan, Bool.toNat_false]
        omega
      · refine (hahead.take Nat.zero_lt_one (i := i) rfl hi (by simp [hst]) rfl
          fun j => ?_).congr (one_scanner _ _)
        by_cases hj : j = i
        · simp [hj]
        · simp [hj]
      · intro j hj
        obtain rfl : i = j := by simpa [Listen.busy] using hj
        exact ⟨hi, by simp⟩
      · simp [Listen.outcome]
  | miss i hpc hi hst =>
      rw [hpc] at hfree hwritten hahead
      refine ⟨⟨hfree, h.freeAhead, hwritten, ?_, h.range, ?_, ?_⟩, by simp, by simp⟩
      · exact (hahead.miss Nat.zero_lt_one rfl (by simpa using hst) rfl).congr
          (one_scanner _ _)
      · simp [Listen.busy]
      · simp [Listen.outcome]
  | null i hpc hi =>
      obtain ⟨j, hj, hij, -⟩ := h.exists_written hpc
      exact absurd (lt_of_lt_of_le hj hi) (not_lt.mpr hij)
  | execute i hpc =>
      refine ⟨?_, by simp, by simp⟩
      have hw : Slots m debt (s.write i s.itemSize output) :=
        ⟨h.free, h.freeAhead, h.written, h.writtenAhead, h.range, h.busy, h.outcome⟩
      refine hw.setServer ?_ ?_ ?_ ?_ ?_
      all_goals simp [State.write, hpc, Listen.owesFree, Listen.isScan, Listen.scanPos,
        Listen.busy, Listen.outcome]
  | readResult i hpc =>
      refine ⟨h.setServer ?_ ?_ ?_ ?_ ?_, by simp, by simp⟩
      · simp [hpc, Listen.owesFree]
      · simp [hpc, Listen.isScan]
      · simp [hpc, Listen.scanPos]
      · simp [hpc, Listen.busy]
      · rintro new hnew
        cases hnew
        split_ifs <;> simp
  | finish i new hpc hst =>
      have hi : i < s.nitems := (h.busy i (by rw [hpc]; rfl)).1
      have hnew := h.outcome new (by rw [hpc]; rfl)
      rw [hpc] at hfree hwritten hahead
      have hnw : Status.isWritten new = false := by
        rcases hnew with rfl | rfl <;> rfl
      refine ⟨⟨?_, ?_, ?_, ?_, h.range, ?_, ?_⟩, by simp, by split_ifs <;> simp⟩
      · rcases hnew with rfl | rfl
        · have h4 := tally_gain Status.isFree (f := s.status) (v := .free) hi
              (by rw [hst]; rfl) rfl
          simp only [State.setServer, State.setStatus, Listen.owesFree, Bool.toNat_true,
            Bool.toNat_false] at hfree ⊢
          omega
        · simp only [State.setServer, State.setStatus,
            tally_keep Status.isFree (i := i) (f := s.status) (v := .execDone)
              (by rw [hst]; rfl)]
          exact hfree
      · exact ahead_update h.freeAhead (by rw [hst]; rfl) new
      · simp only [State.setServer, State.setStatus,
          tally_keep Status.isWritten (i := i) (f := s.status) (v := new)
            (by rw [hst, hnw]; rfl)]
        exact hwritten
      · exact ahead_update hahead (by rw [hst]; rfl) new
      · simp [Listen.busy]
      · rintro new' hnew'
        cases hnew'
        exact hnew
  | lost i new hpc hst => exact absurd (h.busy i (by rw [hpc]; rfl)).2 hst
  | post i new hpc =>
      have hnew := h.outcome new (by rw [hpc]; rfl)
      rw [hpc] at hfree hwritten hahead
      rcases hnew with rfl | rfl
      · refine ⟨⟨?_, h.freeAhead, hwritten, hahead, h.range, ?_, ?_⟩, by simp, by simp⟩
        · simp only [State.setServer, State.semPost, Listen.owesFree, Bool.toNat_true,
            Bool.toNat_false] at hfree ⊢
          omega
        · simp [Listen.busy]
        · simp [Listen.outcome]
      · refine ⟨⟨hfree, h.freeAhead, hwritten, hahead, h.range, ?_, ?_⟩, by simp, by simp⟩
        · simp [Listen.busy]
        · simp [Listen.outcome]

end Server

/-! ## Whole runs -/

/-- What `sem_free` lacks at the start: nothing, unless `nitems` is too large for it. -/
def debtOf (nitems : Nat) : Nat := nitems - semInit 0 nitems

theorem semInit_le (nitems : Nat) : semInit 0 nitems ≤ nitems := by
  unfold semInit
  split_ifs
  · exact Nat.mod_le _ _
  · exact Nat.zero_le _

theorem slots_initial (m nitems itemSize : Nat) :
    Slots m (debtOf nitems) (initial nitems itemSize) := by
  have hst : (initial nitems itemSize).status = fun _ => .free :=
    shmemInit_status (zeroed nitems itemSize)
  have hn : (initial nitems itemSize).nitems = nitems :=
    shmemInit_nitems (zeroed nitems itemSize)
  have hsf : (initial nitems itemSize).semFree = semInit 0 nitems :=
    shmemInit_semFree (zeroed nitems itemSize)
  have hsw : (initial nitems itemSize).semWritten = 0 :=
    shmemInit_semWritten (zeroed nitems itemSize)
  have hcl : (initial nitems itemSize).client = fun _ => .start := rfl
  have hsrv : (initial nitems itemSize).server = .wait := rfl
  have hnone : ∀ {P : Pc → Bool}, P .start = false →
      tally m (fun _ => P .start = true) = 0 := by
    intro P hP
    exact tally_eq_zero.mpr fun _ _ => by simp [hP]
  refine ⟨?_, ?_, ?_, ?_, ?_, ?_, ?_⟩
  · have hall : tally nitems (fun _ => Status.isFree .free = true) = nitems :=
      tally_eq_self.mpr fun _ _ => rfl
    have hle := semInit_le nitems
    rw [hn, hst, hsf, hcl, hsrv, hall, hnone (P := Pc.isScan) rfl,
      hnone (P := Pc.isPostFree) rfl]
    simp only [Listen.owesFree, Bool.toNat_false, debtOf]
    omega
  · intro k
    have hzero : tally m (fun c => ∃ i,
        (Pc.scanPos ∘ (initial nitems itemSize).client) c = some i ∧ k ≤ i)
        = 0 := tally_eq_zero.mpr fun c _ => by simp [hcl, Pc.scanPos]
    rw [hzero]
    exact Nat.zero_le _
  · have hzero : tally nitems (fun _ => Status.isWritten .free = true) = 0 :=
      tally_eq_zero.mpr fun _ _ => by simp [Status.isWritten]
    rw [hn, hst, hsw, hcl, hsrv, hzero, hnone (P := Pc.isPostWritten) rfl]
    rfl
  · intro k
    have hzero : tally 1 (fun c => ∃ i,
        (fun _ => (initial nitems itemSize).server.scanPos) c = some i ∧ k ≤ i)
        = 0 := tally_eq_zero.mpr fun c _ => by simp [hsrv, Listen.scanPos]
    rw [hzero]
    exact Nat.zero_le _
  · simp [hcl, Pc.block]
  · simp [hsrv, Listen.busy]
  · simp [hsrv, Listen.outcome]

/-- No move of a call is a scan that came up empty. -/
theorem client_ne_null {m debt c : Nat} {s s' : State} {call : Call} {l : Label}
    (h : Slots m debt s) (hc : c < m) (hmove : ClientMove call c s s' l) : l ≠ .null := by
  cases hmove with
  | null i hpc hi =>
      exact absurd (h.scan_lt hc hpc) (not_lt.mpr hi)
  | _ => simp

/-- The step lemma. -/
theorem slots_step {calls : Calls} {debt : Nat} {s s' : State} {a : Act} {l : Label}
    (h : Slots calls.ncalls debt s ∧ s.server ≠ .dead)
    (hstep : step calls s a = some (s', l)) :
    (Slots calls.ncalls debt s' ∧ s'.server ≠ .dead) ∧ l ≠ .null := by
  rcases step_move hstep with ⟨c, hc, hmove⟩ | ⟨output, hmove⟩
  · refine ⟨⟨slots_client h.1 hc hmove, ?_⟩, client_ne_null h.1 hc hmove⟩
    have hsrv : s'.server = s.server := by
      cases hmove <;> rfl
    rw [hsrv]
    exact h.2
  · obtain ⟨hslots, halive, hnull⟩ := slots_server h.1 hmove
    exact ⟨⟨hslots, halive⟩, hnull⟩

/-- **No scan comes up empty.**  Over a fresh segment of any size, in every interleaving
of any number of calls with the server, `shmem_get_block` never returns NULL, every
caller that is scanning has a block for it ahead, and the server loop never ends. -/
theorem scans_never_fail (nitems itemSize : Nat) (calls : Calls)
    (acts : List Act) (s : State) (ls : List Label)
    (hrun : run (step calls) (initial nitems itemSize) acts = some (s, ls)) :
    (∀ l ∈ ls, l ≠ .null) ∧ s.server ≠ .dead ∧
      (∀ c < calls.ncalls, ∀ i, s.client c = .scan i → ∃ j < s.nitems, i ≤ j ∧
        s.status j = .free) ∧
      ∀ i, s.server = .scan i → ∃ j < s.nitems, i ≤ j ∧ s.status j = .written := by
  have hstart : Slots calls.ncalls (debtOf nitems) (initial nitems itemSize) ∧
      (initial nitems itemSize).server ≠ .dead :=
    ⟨slots_initial _ _ _, fun h => nomatch h⟩
  -- no history is needed
  have hinv := run_invariant (fun _ _ => ())
    (fun s (_ : Unit) => Slots calls.ncalls (debtOf nitems) s ∧ s.server ≠ .dead)
    (fun _ _ _ _ _ h hs => (slots_step h hs).1) (h := ()) hstart hrun
  refine ⟨?_, hinv.2, fun c hc i hi => hinv.1.exists_free hc hi,
    fun i hi => hinv.1.exists_written hi⟩
  intro l hl
  obtain ⟨pre, post, rfl⟩ := List.append_of_mem hl
  exact run_label (fun _ _ => ())
    (fun s (_ : Unit) => Slots calls.ncalls (debtOf nitems) s ∧ s.server ≠ .dead)
    (fun _ _ _ _ _ h hs => (slots_step h hs).1) (P := fun _ l => l ≠ .null)
    (fun _ _ _ _ _ h hs => (slots_step h hs).2) (h := ()) hstart hrun

/-- One synchronous call that carries the byte 7. -/
def oneCall : Calls := ⟨1, fun _ => ⟨.none, 1, none, .raw [7]⟩⟩

/-- The call writes its request, the server runs it and leaves all bytes 9, the call
takes the answer. -/
def oneRound : List Act :=
  List.replicate 6 (.client 0) ++ List.replicate 6 (.server fun _ => 9)
    ++ List.replicate 4 (.client 0)

theorem scans_never_fail_oneRound :
    ∃ s ls, run (step oneCall) (initial 1 16) oneRound = some (s, ls) ∧
      s.client 0 = .returned (-EEXIST) ∧ (∀ l ∈ ls, l ≠ .null) ∧ s.server ≠ .dead := by
  have hrun : ((run (step oneCall) (initial 1 16) oneRound).map fun p => p.1.client 0)
      = some (.returned (-EEXIST)) := by
    decide +kernel
  obtain ⟨⟨s, ls⟩, h, hpc⟩ := Option.map_eq_some_iff.mp hrun
  have hsafe := scans_never_fail 1 16 oneCall oneRound s ls h
  exact ⟨s, ls, h, hpc, hsafe.1, hsafe.2.1⟩

/-! ## Restarting the server -/

/-- After `shmem_init` both semaphores count their blocks. -/
def Accounted (m : Shm) : Prop :=
  (shmemInit m).semFree = tally (shmemInit m).nitems
  (fun i => (shmemInit m).status i = .free) ∧
  (shmemInit m).semWritten = tally (shmemInit m).nitems
  (fun i => (shmemInit m).status i = .written)

/-- The old segments a restart gets right: those whose blocks are all FREE; or, where
`nitems` is too large for a semaphore, those without a WRITTEN block that happen to have
as many FREE ones as the value `sem_init` leaves. -/
def Restartable (m : Shm) : Prop :=
  if m.nitems ≤ SEM_VALUE_MAX then ∀ i < m.nitems, m.status i = .free
  else (∀ i < m.nitems, m.status i ≠ .written) ∧
    tally m.nitems (fun i => m.status i = .free) = semInit m.semFree m.nitems

/-- **A restart re-establishes the accounts exactly on restartable segments**:
`shmem_init` sets the semaphores but never the status words. -/
theorem restart_accounted_iff (m : Shm) : Accounted m ↔ Restartable m := by
  unfold Accounted Restartable
  rw [shmemInit_semFree, shmemInit_semWritten, shmemInit_nitems, shmemInit_status,
    eq_comm (a := 0), tally_eq_zero]
  split_ifs with hsize
  · have hval : semInit m.semFree m.nitems = m.nitems := by
      have hmod : m.nitems % 2 ^ 32 = m.nitems :=
        Nat.mod_eq_of_lt (by unfold SEM_VALUE_MAX at hsize; omega)
      rw [semInit, hmod, if_pos hsize]
    rw [hval, eq_comm, tally_eq_self]
    refine ⟨And.left, fun hfree => ⟨hfree, fun i hi hw => ?_⟩⟩
    rw [hfree i hi] at hw
    cases hw
  · rw [eq_comm, and_comm]

/-- One block, left WRITING by a client that died: `sem_free` is 1 and
no block is FREE. -/
theorem restart_miscounts :
    ¬ Accounted { zeroed 1 1000 with status := fun _ => .writing } := by
  rintro ⟨hfree, -⟩
  have hnone : tally 1 (fun _ => Status.writing = .free) = 0 :=
    tally_eq_zero.mpr fun _ _ => by simp
  rw [shmemInit_semFree, shmemInit_nitems, shmemInit_status] at hfree
  exact absurd (hfree.trans hnone) (by decide)

end Frozen.Ipc
