/-
# `Frozen.Ipc.Owner` — whose block it is

The segment does not say which call a block belongs to.  A HISTORY of the run does:
folded from the labels, it records who acquired each block, what each call sent, how
often each request was run and what the run left behind.

`Life` lists every stage of a block between its acquisition and its release, as one
joint view of the status word, the owner's program counter, the server's, the block's
semaphore and the history.  A token of `sem_done` is there in one stage only, so none
is left over for the next owner.  `Owned` says that every block that is not FREE is
in a stage of its one owner's life; every step keeps it (`owned_step`).
-/
import Frozen.Ipc.Slots

namespace Frozen.Ipc

open Frozen.Lib

/-! ## The history -/

structure History where
  owner : Nat → Option Nat
  sent : Nat → Nat → UInt8
  published : Nat → Bool
  runs : Nat → Nat
  /-- What the server left in the block after the call's request. -/
  left : Nat → Nat → UInt8

def History.empty : History :=
  { owner := fun _ => none, sent := fun _ _ => 0, published := fun _ => false,
    runs := fun _ => 0
    left := fun _ _ => 0 }

/-- A run of a block is a run of its owner's request. -/
def History.next (h : History) : Label → History
  | .acquire c i => { h with owner := Function.update h.owner i (some c) }
  | .send c content => { h with sent := Function.update h.sent c content }
  | .publish c _ => { h with published := Function.update h.published c true }
  | .execute i _ output =>
      match h.owner i with
      | none => h
      | some c =>
          { h with runs := Function.update h.runs c (h.runs c + 1)
                   left := Function.update h.left c output }
  | .release i => { h with owner := Function.update h.owner i none }
  | _ => h

/-! ## The life of a block -/

/-- What the server is doing with a block. -/
inductive Task where
  | exec | readResult | casDone (new : Status) | post
deriving DecidableEq

/-- What the server is doing with block `i`.  Once it has freed a block it
is done with it. -/
def Listen.task : Listen → Nat → Option Task
  | .exec j, i => if i = j then some .exec else none
  | .readResult j, i => if i = j then some .readResult else none
  | .casDone j new, i => if i = j then some (.casDone new) else none
  | .post j .execDone, i => if i = j then some .post else none
  | _, _ => none

/-- A block and its owner, seen together. -/
structure View where
  status : Status
  pc : Pc
  task : Option Task
  semDone : Nat
  returnResult : Bool
  published : Bool
  runs : Nat

def State.view (s : State) (h : History) (i c : Nat) : View :=
  { status := s.status i, pc := s.client c, task := s.server.task i,
    semDone := s.semDone i
    returnResult := s.returnResult i, published := h.published c, runs := h.runs c }

/-- Where the owner can be once its request is WRITTEN, until it is woken. -/
def Sent (call : Call) (i : Nat) (pc : Pc) : Prop :=
  pc = .postWritten i ∨ pc = .waitDone i ∧ call.fAsync = 0 ∨ pc = .returned 0 ∧
  call.fAsync ≠ 0

/-- The stages of a block `i` that a call owns. -/
inductive Life (itemSize : Nat) (call : Call) (i : Nat) : View → Prop
  | convert (rr : Bool) : Life itemSize call i
    ⟨.writing, .convert i, none, 0, rr, false, 0⟩
  | setResult (rr : Bool) : Life itemSize call i
      ⟨.writing, .setResult i, none, 0, rr, false, 0⟩
  | casWritten :
      Life itemSize call i ⟨.writing, .casWritten i, none, 0, call.fAsync == 0, false, 0⟩
  | failed (rr : Bool) (h : ¬ call.Converts itemSize) :
      Life itemSize call i ⟨.writing, .returned (errorCode EMODULE 263), none, 0,
        rr, false, 0⟩
  | written (pc : Pc) (hpc : Sent call i pc) :
      Life itemSize call i ⟨.written, pc, none, 0, call.fAsync == 0, true, 0⟩
  | exec (pc : Pc) (hpc : Sent call i pc) :
      Life itemSize call i ⟨.executing, pc, some .exec, 0, call.fAsync == 0, true, 0⟩
  | readResult (pc : Pc) (hpc : Sent call i pc) :
      Life itemSize call i
        ⟨.executing, pc, some .readResult, 0, call.fAsync == 0, true, 1⟩
  | casDone (pc : Pc) (hpc : Sent call i pc) :
      Life itemSize call i ⟨.executing, pc,
        some (.casDone (if call.fAsync = 0 then .execDone else .free)), 0,
        call.fAsync == 0, true, 1⟩
  | post (pc : Pc) (hpc : Sent call i pc) (h : call.fAsync = 0) :
      Life itemSize call i ⟨.execDone, pc, some .post, 0, true, true, 1⟩
  | token (pc : Pc) (hpc : Sent call i pc) (h : call.fAsync = 0) :
      Life itemSize call i ⟨.execDone, pc, none, 1, true, true, 1⟩
  | woken (pc : Pc) (hpc : pc = .readBack i ∨ pc = .casFree i) (h : call.fAsync = 0) :
      Life itemSize call i ⟨.execDone, pc, none, 0, true, true, 1⟩

namespace Pc

/-- A call that has no block yet. -/
def early : Pc → Bool
  | .start | .scan _ => true
  | _ => false

/-- The block a call may still touch.  An asynchronous call that has published its request
only posts `sem_written`; the server may have freed the block before that. -/
def holds (call : Call) : Pc → Option Nat
  | .convert i | .setResult i | .casWritten i | .waitDone i | .readBack i
  | .casFree i => some i
  | .postWritten i => if call.fAsync = 0 then some i else none
  | _ => none

end Pc

section Life

variable {itemSize i : Nat} {call : Call} {v : View}

theorem Life.not_early (h : Life itemSize call i v) : v.pc.early = false := by
  cases h with
  | written pc hpc | exec pc hpc | readResult pc hpc | casDone pc hpc | post pc hpc
  | token pc hpc =>
      rcases hpc with rfl | ⟨rfl, -⟩ | ⟨rfl, -⟩ <;> rfl
  | woken pc hpc => rcases hpc with rfl | rfl <;> rfl
  | _ => rfl

/-- An owner works on the block it owns. -/
theorem Life.holds (h : Life itemSize call i v) {k : Nat}
    (hk : v.pc.holds call = some k) : k = i := by
  cases h with
  | written pc hpc | exec pc hpc | readResult pc hpc | casDone pc hpc | post pc hpc
  | token pc hpc =>
      rcases hpc with rfl | ⟨rfl, -⟩ | ⟨rfl, -⟩ <;> simp_all [Pc.holds]
  | woken pc hpc => rcases hpc with rfl | rfl <;> simp_all [Pc.holds]
  | _ => simp_all [Pc.holds]

theorem Life.runs (h : Life itemSize call i v) (hv : v.published = false) :
    v.runs = 0 := by
  cases h with
  | _ => first | rfl | cases hv

theorem Life.runs_le (h : Life itemSize call i v) : v.runs ≤ 1 := by
  cases h with
  | _ => simp

theorem Life.status_ne (h : Life itemSize call i v) : v.status ≠ .free := by
  cases h with
  | _ => simp

/-! What each move makes of the stage it starts from. -/

theorem Life.of_convert (h : Life itemSize call i v) (hpc : v.pc = .convert i) :
    Life itemSize call i { v with pc := .setResult i } ∧
      (¬ call.Converts itemSize →
        Life itemSize call i { v with pc := .returned (errorCode EMODULE 263) }) ∧
      v.published = false ∧ v.runs = 0 := by
  cases h with
  | convert rr => exact ⟨.setResult rr, .failed rr, rfl, rfl⟩
  | _ => simp_all [Sent]

theorem Life.of_setResult (h : Life itemSize call i v) (hpc : v.pc = .setResult i) :
    Life itemSize call i
      { v with pc := .casWritten i, returnResult := call.fAsync == 0 } := by
  cases h with
  | setResult rr => exact .casWritten
  | _ => simp_all [Sent]

theorem Life.of_casWritten (h : Life itemSize call i v) (hpc : v.pc = .casWritten i) :
    v.status = .writing ∧
      Life itemSize call i
        { v with status := .written, pc := .postWritten i, published := true } := by
  cases h with
  | casWritten => exact ⟨rfl, .written _ (Or.inl rfl)⟩
  | _ => simp_all [Sent]

theorem Life.of_postWritten (h : Life itemSize call i v) (hpc : v.pc = .postWritten i) :
    Life itemSize call i
      { v with pc := if call.fAsync = 0 then .waitDone i else .returned 0 } := by
  have hsent : Sent call i (if call.fAsync = 0 then .waitDone i else .returned 0) := by
    by_cases ha : call.fAsync = 0
    · exact Or.inr (Or.inl ⟨if_pos ha, ha⟩)
    · exact Or.inr (Or.inr ⟨if_neg ha, ha⟩)
  cases h with
  | written pc => exact .written _ hsent
  | exec pc => exact .exec _ hsent
  | readResult pc => exact .readResult _ hsent
  | casDone pc => exact .casDone _ hsent
  | post pc _ ha => exact .post _ hsent ha
  | token pc _ ha => exact .token _ hsent ha
  | _ => simp_all

theorem Life.of_waitDone (h : Life itemSize call i v) (hpc : v.pc = .waitDone i)
    (hsem : 0 < v.semDone) (pc : Pc) (hnew : pc = .readBack i ∨ pc = .casFree i) :
    Life itemSize call i { v with pc, semDone := v.semDone - 1 } := by
  cases h with
  | token pc _ ha => exact .woken _ hnew ha
  | _ => simp_all

theorem Life.of_readBack (h : Life itemSize call i v) (hpc : v.pc = .readBack i) :
    v.runs = 1 ∧ Life itemSize call i { v with pc := .casFree i } := by
  cases h with
  | woken pc _ ha => exact ⟨rfl, .woken _ (Or.inr rfl) ha⟩
  | _ => simp_all [Sent]

theorem Life.of_casFree (h : Life itemSize call i v) (hpc : v.pc = .casFree i) :
    v.status = .execDone ∧ v.task = none ∧ v.semDone = 0 ∧ v.published = true ∧
      v.runs = 1 := by
  cases h with
  | woken pc => exact ⟨rfl, rfl, rfl, rfl, rfl⟩
  | _ => simp_all [Sent]

theorem Life.of_written (h : Life itemSize call i v) (hst : v.status = .written) :
    Life itemSize call i { v with status := .executing, task := some .exec } := by
  cases h with
  | written pc hpc => exact .exec pc hpc
  | _ => simp_all

theorem Life.of_exec (h : Life itemSize call i v) (htask : v.task = some .exec) :
    v.published = true ∧ v.runs = 0 ∧
      Life itemSize call i { v with task := some .readResult, runs := v.runs + 1 } := by
  cases h with
  | exec pc hpc => exact ⟨rfl, rfl, .readResult pc hpc⟩
  | _ => simp_all

theorem Life.of_readResult (h : Life itemSize call i v)
    (htask : v.task = some .readResult) : Life itemSize call i
      { v with task := some (.casDone (if v.returnResult then .execDone else .free))
        } := by
  cases h with
  | readResult pc hpc =>
      simp only [beq_iff_eq]
      exact .casDone pc hpc
  | _ => simp_all

theorem Life.of_casDone (h : Life itemSize call i v) {new : Status}
    (htask : v.task = some (.casDone new)) :
    v.status = .executing ∧ v.semDone = 0 ∧ v.published = true ∧ v.runs = 1 ∧
      (new = .execDone ∧
        Life itemSize call i { v with status := .execDone, task := some .post } ∨
        new = .free ∧ v.pc.holds call = none) := by
  cases h with
  | casDone pc hpc =>
      refine ⟨rfl, rfl, rfl, rfl, ?_⟩
      by_cases ha : call.fAsync = 0
      · have hnew : new = .execDone := by simpa [ha, eq_comm] using htask
        exact Or.inl ⟨hnew, by simpa [ha] using Life.post pc hpc ha⟩
      · have hnew : new = .free := by simpa [ha, eq_comm] using htask
        refine Or.inr ⟨hnew, ?_⟩
        rcases hpc with rfl | ⟨rfl, hsync⟩ | ⟨rfl, -⟩
        · simp [Pc.holds, ha]
        · exact absurd hsync ha
        · rfl
  | _ => simp_all

theorem Life.of_post (h : Life itemSize call i v) (htask : v.task = some .post) :
    Life itemSize call i { v with task := none, semDone := v.semDone + 1 } := by
  cases h with
  | post pc hpc ha => exact .token pc hpc ha
  | _ => simp_all

end Life

/-! ## Every block has one owner -/

structure Owned (calls : Calls) (s : State) (h : History) : Prop where
  life : ∀ i c, h.owner i = some c →
    c < calls.ncalls ∧ i < s.nitems ∧ Life s.itemSize (calls.call c) i (s.view h i c)
  loose : ∀ i, h.owner i = none →
    s.status i = .free ∧ s.server.task i = none ∧ (i < s.nitems → s.semDone i = 0)
  unique : ∀ i j c, h.owner i = some c → h.owner j = some c → i = j
  holds : ∀ c i, (s.client c).holds (calls.call c) = some i → h.owner i = some c
  fresh : ∀ c, (s.client c).early = true → h.published c = false
  unrun : ∀ c, h.published c = false → h.runs c = 0
  settled : ∀ c, h.published c = true → h.runs c = 1 ∨ ∃ i, h.owner i = some c

/-- Nothing but block `i` and call `c` has changed. -/
structure Elsewhere (i c : Nat) (s s' : State) (h h' : History) : Prop where
  nitems : s'.nitems = s.nitems
  itemSize : s'.itemSize = s.itemSize
  status : ∀ j, j ≠ i → s'.status j = s.status j
  client : ∀ d, d ≠ c → s'.client d = s.client d
  task : ∀ j, j ≠ i → s'.server.task j = s.server.task j
  semDone : ∀ j, j ≠ i → s'.semDone j = s.semDone j
  returnResult : ∀ j, j ≠ i → s'.returnResult j = s.returnResult j
  published : ∀ d, d ≠ c → h'.published d = h.published d
  runs : ∀ d, d ≠ c → h'.runs d = h.runs d

section Kept

variable {calls : Calls} {i c : Nat} {s s' : State} {h h' : History}

theorem Elsewhere.view (he : Elsewhere i c s s' h h') {j d : Nat} (hj : j ≠ i)
    (hd : d ≠ c) : s'.view h' j d = s.view h j d := by
  unfold State.view
  rw [he.status j hj, he.client d hd, he.task j hj, he.semDone j hj, he.returnResult j hj,
    he.published d hd, he.runs d hd]

/-- The owner of another block is another call. -/
theorem Owned.ne_owner (hown : Owned calls s h) (ho : h.owner i = some c) {j d : Nat}
    (hj : j ≠ i) (hjd : h.owner j = some d) : d ≠ c := by
  intro hdc
  exact hj (hown.unique j i c (hdc ▸ hjd) ho)

theorem Owned.advance (hown : Owned calls s h) (ho : h.owner i = some c)
    (he : Elsewhere i c s s' h h') (howner : h'.owner = h.owner)
    (hlife : Life s.itemSize (calls.call c) i (s'.view h' i c)) : Owned calls s' h' := by
  refine ⟨?_, ?_, ?_, ?_, ?_, ?_, ?_⟩
  · intro j d hjd
    rw [howner] at hjd
    rw [he.nitems, he.itemSize]
    obtain ⟨hd, hj, hl⟩ := hown.life j d hjd
    by_cases hji : j = i
    · subst hji
      obtain rfl : c = d := Option.some_inj.mp (ho.symm.trans hjd)
      exact ⟨hd, hj, hlife⟩
    · rw [he.view hji (hown.ne_owner ho hji hjd)]
      exact ⟨hd, hj, hl⟩
  · intro j hj
    rw [howner] at hj
    have hji : j ≠ i := by
      rintro rfl
      rw [ho] at hj
      cases hj
    rw [he.status j hji, he.task j hji, he.semDone j hji, he.nitems]
    exact hown.loose j hj
  · rw [howner]
    exact hown.unique
  · intro d k hk
    rw [howner]
    by_cases hd : d = c
    · subst hd
      exact hlife.holds hk ▸ ho
    · rw [he.client d hd] at hk
      exact hown.holds d k hk
  · intro d hd
    by_cases hdc : d = c
    · subst hdc
      exact absurd hd
        (by rw [show (s'.client d).early = false from hlife.not_early]; decide)
    · rw [he.client d hdc] at hd
      rw [he.published d hdc]
      exact hown.fresh d hd
  · intro d hd
    by_cases hdc : d = c
    · subst hdc
      exact hlife.runs hd
    · rw [he.published d hdc] at hd
      rw [he.runs d hdc]
      exact hown.unrun d hd
  · intro d hd
    rw [howner]
    by_cases hdc : d = c
    · exact Or.inr ⟨i, hdc ▸ ho⟩
    · rw [he.published d hdc] at hd
      rw [he.runs d hdc]
      exact hown.settled d hd

theorem Owned.release (hown : Owned calls s h) (ho : h.owner i = some c)
    (he : Elsewhere i c s s' h h') (howner : h'.owner = Function.update h.owner i none)
    (hblock : s'.status i = .free ∧ s'.server.task i = none ∧ s'.semDone i = 0)
    (hpc : (s'.client c).holds (calls.call c) = none ∧ (s'.client c).early = false)
    (hruns : h'.published c = true ∧ h'.runs c = 1) : Owned calls s' h' := by
  have hother : ∀ j d, h'.owner j = some d → j ≠ i ∧ h.owner j = some d := by
    intro j d hjd
    have hji : j ≠ i := by
      rintro rfl
      simp [howner] at hjd
    rw [howner, Function.update_of_ne hji] at hjd
    exact ⟨hji, hjd⟩
  refine ⟨?_, ?_, ?_, ?_, ?_, ?_, ?_⟩
  · intro j d hjd
    obtain ⟨hji, hjd⟩ := hother j d hjd
    rw [he.view hji (hown.ne_owner ho hji hjd), he.nitems, he.itemSize]
    exact hown.life j d hjd
  · intro j hj
    by_cases hji : j = i
    · subst hji
      exact ⟨hblock.1, hblock.2.1, fun _ => hblock.2.2⟩
    · rw [howner, Function.update_of_ne hji] at hj
      rw [he.status j hji, he.task j hji, he.semDone j hji, he.nitems]
      exact hown.loose j hj
  · intro j k d hj hk
    exact hown.unique j k d (hother j d hj).2 (hother k d hk).2
  · intro d k hk
    have hdc : d ≠ c := by
      rintro rfl
      rw [hpc.1] at hk
      cases hk
    rw [he.client d hdc] at hk
    have hkd := hown.holds d k hk
    have hki : k ≠ i := by
      rintro rfl
      exact hdc (Option.some_inj.mp (hkd.symm.trans ho))
    rw [howner, Function.update_of_ne hki]
    exact hkd
  · intro d hd
    have hdc : d ≠ c := by
      rintro rfl
      rw [hpc.2] at hd
      cases hd
    rw [he.client d hdc] at hd
    rw [he.published d hdc]
    exact hown.fresh d hd
  · intro d hd
    have hdc : d ≠ c := by
      rintro rfl
      rw [hruns.1] at hd
      cases hd
    rw [he.published d hdc] at hd
    rw [he.runs d hdc]
    exact hown.unrun d hd
  · intro d hd
    by_cases hdc : d = c
    · exact Or.inl (hdc ▸ hruns.2)
    · rw [he.published d hdc] at hd
      rw [he.runs d hdc]
      rcases hown.settled d hd with hr | ⟨k, hk⟩
      · exact Or.inl hr
      · have hki : k ≠ i := by
          rintro rfl
          exact hdc (Option.some_inj.mp (hk.symm.trans ho))
        exact Or.inr ⟨k, by rw [howner, Function.update_of_ne hki]; exact hk⟩

/-- A step that no owned block and no owner notices. -/
theorem Owned.frame (hown : Owned calls s h) (hn : s'.nitems = s.nitems)
    (hsize : s'.itemSize = s.itemSize) (hst : s'.status = s.status)
    (hsem : s'.semDone = s.semDone) (hrr : s'.returnResult = s.returnResult)
    (htask : ∀ j, s'.server.task j = s.server.task j)
    (hclient : ∀ j d, h.owner j = some d → s'.client d = s.client d)
    (hholds : ∀ d k, (s'.client d).holds (calls.call d) = some k →
      (s.client d).holds (calls.call d) = some k)
    (hearly : ∀ d, (s'.client d).early = true → (s.client d).early = true) :
    Owned calls s' h := by
  refine ⟨?_, ?_, hown.unique, fun d k hk => hown.holds d k (hholds d k hk),
    fun d hd => hown.fresh d (hearly d hd), hown.unrun, hown.settled⟩
  · intro j d hjd
    have hview : s'.view h j d = s.view h j d := by
      unfold State.view
      rw [hst, hsem, hrr, htask, hclient j d hjd]
    rw [hview, hn, hsize]
    exact hown.life j d hjd
  · rw [hn, hst, hsem]
    intro j hj
    rw [htask j]
    exact hown.loose j hj

theorem Owned.idle_of_early (hown : Owned calls s h) (hpc : (s.client c).early = true)
    (j : Nat) : h.owner j ≠ some c := by
  intro hj
  have hlate := (hown.life j c hj).2.2.not_early
  exact absurd (hpc.symm.trans hlate) (by decide)

/-- A FREE block is acquired by a call that had none. -/
theorem Owned.acquire (hown : Owned calls s h) (hc : c < calls.ncalls) (hi : i < s.nitems)
    (hpc : (s.client c).early = true) (hst : s.status i = .free) :
    Owned calls ((s.setStatus i .writing).setClient c (.convert i))
      (h.next (.acquire c i)) := by
  have hnone : h.owner i = none := by
    cases ho : h.owner i with
    | none => rfl
    | some d => exact absurd hst (hown.life i d ho).2.2.status_ne
  obtain ⟨-, htask, hsem⟩ := hown.loose i hnone
  have hpub := hown.fresh c hpc
  have hidle : ∀ j, h.owner j ≠ some c := hown.idle_of_early hpc
  refine ⟨?_, ?_, ?_, ?_, ?_, hown.unrun, ?_⟩
  · intro j d hjd
    by_cases hji : j = i
    · subst hji
      obtain rfl : c = d := by simpa [History.next] using hjd
      refine ⟨hc, hi, ?_⟩
      simpa [State.view, History.next, hpub, hown.unrun c hpub, htask, hsem hi] using
        Life.convert (s.returnResult j)
    · have hjd : h.owner j = some d := by simpa [History.next, hji] using hjd
      have hdc : d ≠ c := fun heq => hidle j (heq ▸ hjd)
      simpa [State.view, History.next, hji, hdc] using hown.life j d hjd
  · intro j hj
    by_cases hji : j = i
    · subst hji
      simp [History.next] at hj
    · have hj : h.owner j = none := by simpa [History.next, hji] using hj
      simpa [hji] using hown.loose j hj
  · intro j k d hj hk
    by_cases hji : j = i
    · by_cases hki : k = i
      · exact hji.trans hki.symm
      · have hk : h.owner k = some d := by simpa [History.next, hki] using hk
        obtain rfl : c = d := by simpa [History.next, hji] using hj
        exact absurd hk (hidle k)
    · have hj : h.owner j = some d := by simpa [History.next, hji] using hj
      by_cases hki : k = i
      · obtain rfl : c = d := by simpa [History.next, hki] using hk
        exact absurd hj (hidle j)
      · exact hown.unique j k d hj (by simpa [History.next, hki] using hk)
  · intro d k hk
    by_cases hdc : d = c
    · subst hdc
      obtain rfl : i = k := by simpa [Pc.holds] using hk
      simp [History.next]
    · have hkd : h.owner k = some d := hown.holds d k (by simpa [hdc] using hk)
      have hki : k ≠ i := by
        rintro rfl
        rw [hnone] at hkd
        cases hkd
      simpa [History.next, hki] using hkd
  · intro d hd
    by_cases hdc : d = c
    · subst hdc
      exact hpub
    · exact hown.fresh d (by simpa [hdc] using hd)
  · intro d hd
    rcases hown.settled d hd with hr | ⟨k, hk⟩
    · exact Or.inl hr
    · have hki : k ≠ i := by
        rintro rfl
        rw [hnone] at hk
        cases hk
      exact Or.inr ⟨k, by simpa [History.next, hki] using hk⟩

end Kept

section Steps

variable {calls : Calls} {c : Nat} {s s' : State} {h : History} {l : Label}

theorem Owned.idle (hown : Owned calls s h) (hn : s'.nitems = s.nitems)
    (hsize : s'.itemSize = s.itemSize) (hst : s'.status = s.status)
    (hsem : s'.semDone = s.semDone) (hrr : s'.returnResult = s.returnResult)
    (hsrv : s'.server = s.server) {pc : Pc}
    (hclient : s'.client = Function.update s.client c pc)
    (hidle : ∀ j, h.owner j ≠ some c) (hholds : pc.holds (calls.call c) = none)
    (hearly : pc.early = true → (s.client c).early = true) : Owned calls s' h := by
  refine hown.frame hn hsize hst hsem hrr (fun _ => by rw [hsrv]) ?_ ?_ ?_
  · intro j d hjd
    have hdc : d ≠ c := by
      rintro rfl
      exact hidle j hjd
    rw [hclient, Function.update_of_ne hdc]
  · intro d k hk
    rw [hclient] at hk
    by_cases hdc : d = c
    · subst hdc
      rw [Function.update_self, hholds] at hk
      cases hk
    · rwa [Function.update_of_ne hdc] at hk
  · intro d hd
    rw [hclient] at hd
    by_cases hdc : d = c
    · subst hdc
      rw [Function.update_self] at hd
      exact hearly hd
    · rwa [Function.update_of_ne hdc] at hd

/-- A call that holds a block owns it, and the block is in a stage of its life. -/
theorem Owned.of_holds (hown : Owned calls s h) {i : Nat}
    (hholds : (s.client c).holds (calls.call c) = some i) :
    h.owner i = some c ∧ Life s.itemSize (calls.call c) i (s.view h i c) := by
  have ho := hown.holds c i hholds
  exact ⟨ho, (hown.life i c ho).2.2⟩

/-- Every move of a call keeps the owners. -/
theorem owned_client (hown : Owned calls s h) (hc : c < calls.ncalls)
    (hmove : ClientMove (calls.call c) c s s' l) : Owned calls s' (h.next l) := by
  cases hmove with
  | start hpc | miss i hpc | null i hpc =>
      exact hown.idle rfl rfl rfl rfl rfl rfl rfl
        (hown.idle_of_early (by rw [hpc]; rfl)) rfl fun _ => by rw [hpc]; rfl
  | hit i hpc hi hst => exact hown.acquire hc hi (by rw [hpc]; rfl) hst
  | convert i hpc hok bytes hb =>
      obtain ⟨ho, hlife⟩ := hown.of_holds (by rw [hpc]; rfl)
      have hl := (hlife.of_convert hpc).1
      refine hown.advance ho ?_ rfl
        (by simpa [State.view, State.write, History.next] using hl)
      constructor <;> simp +contextual [State.write, History.next]
  | fail i hpc hok bytes hb =>
      obtain ⟨ho, hlife⟩ := hown.of_holds (by rw [hpc]; rfl)
      have hl := (hlife.of_convert hpc).2.1 hok
      refine hown.advance ho ?_ rfl
        (by simpa [State.view, State.write, History.next] using hl)
      constructor <;> simp +contextual [State.write, History.next]
  | setResult i hpc =>
      obtain ⟨ho, hlife⟩ := hown.of_holds (by rw [hpc]; rfl)
      have hl := hlife.of_setResult hpc
      refine hown.advance ho ?_ rfl (by simpa [State.view, History.next] using hl)
      constructor <;> simp +contextual [History.next]
  | publish i hpc hst =>
      obtain ⟨ho, hlife⟩ := hown.of_holds (by rw [hpc]; rfl)
      have hl := (hlife.of_casWritten hpc).2
      refine hown.advance ho ?_ rfl (by simpa [State.view, History.next] using hl)
      constructor <;> simp +contextual [History.next]
  | lost i hpc hst =>
      obtain ⟨ho, hlife⟩ := hown.of_holds (by rw [hpc]; rfl)
      exact absurd (hlife.of_casWritten hpc).1 hst
  | post i hpc =>
      by_cases ho : h.owner i = some c
      · have hl := (hown.life i c ho).2.2.of_postWritten hpc
        refine hown.advance ho ?_ rfl
          (by simpa [State.view, State.semPost, History.next] using hl)
        constructor <;> simp +contextual [State.semPost, History.next]
      · -- the server has been faster, and the block may have another owner by now
        have ha : (calls.call c).fAsync ≠ 0 := by
          intro ha
          exact ho (hown.holds c i (by simp [hpc, Pc.holds, ha]))
        rw [if_neg ha]
        refine hown.idle rfl rfl rfl rfl rfl rfl rfl (fun j hj => ?_) rfl fun he => by
          cases he
        obtain ⟨-, -, hl⟩ := hown.life j c hj
        have hpc' : (s.view h j c).pc = .postWritten i := hpc
        have hji : j = i := by
          generalize s.view h j c = v at hl hpc'
          cases hl <;> simp_all [Sent]
        exact ho (hji ▸ hj)
  | wake i hpc hsem =>
      obtain ⟨ho, hlife⟩ := hown.of_holds (by rw [hpc]; rfl)
      have hl := hlife.of_waitDone hpc hsem
        (if (calls.call c).returnResult ≠ 0 then .readBack i else .casFree i)
        (by split_ifs <;> simp)
      refine hown.advance ho ?_ rfl (by simpa [State.view, History.next] using hl)
      constructor <;> simp +contextual [History.next]
  | readBack i hpc =>
      obtain ⟨ho, hlife⟩ := hown.of_holds (by rw [hpc]; rfl)
      have hl := (hlife.of_readBack hpc).2
      refine hown.advance ho ?_ rfl (by simpa [State.view, History.next] using hl)
      constructor <;> simp +contextual [History.next]
  | release i hpc hst =>
      obtain ⟨ho, hlife⟩ := hown.of_holds (by rw [hpc]; rfl)
      obtain ⟨-, htask, hsem, hpub, hruns⟩ := hlife.of_casFree hpc
      refine hown.release ho ?_ rfl ⟨by simp, htask, hsem⟩
        (by simp [Pc.holds, Pc.early]) ⟨hpub, hruns⟩
      constructor <;> simp +contextual [History.next]
  | strange i hpc hst =>
      obtain ⟨ho, hlife⟩ := hown.of_holds (by rw [hpc]; rfl)
      exact absurd (hlife.of_casFree hpc).1 hst
  | done i hpc =>
      refine hown.idle rfl rfl rfl rfl rfl rfl rfl (fun j hj => ?_) rfl fun he => by
        cases he
      have hl := (hown.life j c hj).2.2
      have hpc' : (s.view h j c).pc = .postFree i := hpc
      generalize s.view h j c = v at hl hpc'
      cases hl <;> simp_all [Sent]

/-- The block the server works on has an owner, and is in a stage of its life. -/
theorem Owned.of_task (hown : Owned calls s h) {i : Nat} {t : Task}
    (htask : s.server.task i = some t) :
    ∃ c, h.owner i = some c ∧ Life s.itemSize (calls.call c) i (s.view h i c) := by
  cases ho : h.owner i with
  | none => exact absurd (htask.symm.trans (hown.loose i ho).2.1) (Option.some_ne_none _)
  | some c => exact ⟨c, rfl, (hown.life i c ho).2.2⟩

/-- The server moves on without touching a block; it may touch the shared semaphores. -/
theorem Owned.listen (hown : Owned calls s h) (hn : s'.nitems = s.nitems)
    (hsize : s'.itemSize = s.itemSize) (hst : s'.status = s.status)
    (hsem : s'.semDone = s.semDone) (hrr : s'.returnResult = s.returnResult)
    (hclient : s'.client = s.client)
    (htask : ∀ j, s'.server.task j = s.server.task j) : Owned calls s' h := by
  refine hown.frame hn hsize hst hsem hrr htask ?_ ?_ ?_
  all_goals
    rw [hclient]
    simp

/-- Every move of the server keeps the owners. -/
theorem owned_server (hown : Owned calls s h) {output : Nat → UInt8}
    (hmove : ServerMove output s s' l) : Owned calls s' (h.next l) := by
  cases hmove with
  | start hpc | miss i hpc | null i hpc =>
      exact hown.listen rfl rfl rfl rfl rfl rfl fun _ => by simp [hpc, Listen.task]
  | hit i hpc hi hst =>
      obtain ⟨c, ho⟩ : ∃ c, h.owner i = some c := by
        cases ho : h.owner i with
        | none => exact absurd (hst.symm.trans (hown.loose i ho).1) (by decide)
        | some c => exact ⟨c, rfl⟩
      have hl := (hown.life i c ho).2.2.of_written hst
      refine hown.advance ho ?_ rfl
        (by simpa [State.view, History.next, Listen.task] using hl)
      constructor <;> simp +contextual [History.next, Listen.task, hpc]
  | execute i hpc =>
      have htask : s.server.task i = some .exec := by simp [hpc, Listen.task]
      obtain ⟨c, ho, hlife⟩ := hown.of_task htask
      have hl := (hlife.of_exec htask).2.2
      refine hown.advance ho ?_ (by simp [History.next, ho])
        (by simpa [State.view, State.write, History.next, ho, Listen.task] using hl)
      constructor <;> simp +contextual [State.write, History.next, Listen.task, hpc, ho]
  | readResult i hpc =>
      have htask : s.server.task i = some .readResult := by simp [hpc, Listen.task]
      obtain ⟨c, ho, hlife⟩ := hown.of_task htask
      have hl : Life s.itemSize (calls.call c) i { s.view h i c with
          task := some (.casDone (if s.returnResult i then .execDone else .free)) } :=
        hlife.of_readResult htask
      refine hown.advance ho ?_ rfl
        (by simpa [State.view, History.next, Listen.task] using hl)
      constructor <;> simp +contextual [History.next, Listen.task, hpc]
  | finish i new hpc hst =>
      have htask : s.server.task i = some (.casDone new) := by simp [hpc, Listen.task]
      obtain ⟨c, ho, hlife⟩ := hown.of_task htask
      obtain ⟨-, hsem, hpub, hruns, ⟨rfl, hl⟩ | ⟨rfl, hpc'⟩⟩ := hlife.of_casDone htask
      · refine hown.advance ho ?_ rfl
          (by simpa [State.view, History.next, Listen.task] using hl)
        constructor <;> simp +contextual [History.next, Listen.task, hpc]
      · refine hown.release ho ?_ rfl ⟨by simp, by simp [Listen.task], hsem⟩
          ⟨hpc', hlife.not_early⟩ ⟨hpub, hruns⟩
        constructor <;> simp +contextual [History.next, Listen.task, hpc]
  | lost i new hpc hst =>
      have htask : s.server.task i = some (.casDone new) := by simp [hpc, Listen.task]
      obtain ⟨c, ho, hlife⟩ := hown.of_task htask
      exact absurd (hlife.of_casDone htask).1 hst
  | post i new hpc =>
      cases new with
      | execDone =>
          have htask : s.server.task i = some .post := by simp [hpc, Listen.task]
          obtain ⟨c, ho, hlife⟩ := hown.of_task htask
          have hl := hlife.of_post htask
          refine hown.advance ho ?_ rfl
            (by simpa [State.view, State.semPost, History.next, Listen.task] using hl)
          constructor <;> simp +contextual [State.semPost, History.next, Listen.task, hpc]
      | _ =>
          exact hown.listen rfl rfl rfl rfl rfl rfl fun _ => by simp [hpc, Listen.task]

/-- The step lemma. -/
theorem owned_step (hown : Owned calls s h) {a : Act}
    (hstep : step calls s a = some (s', l)) : Owned calls s' (h.next l) := by
  rcases step_move hstep with ⟨c, hc, hmove⟩ | ⟨output, hmove⟩
  · exact owned_client hown hc hmove
  · exact owned_server hown hmove

theorem owned_initial (calls : Calls) (nitems itemSize : Nat) :
    Owned calls (initial nitems itemSize) .empty := by
  refine ⟨?_, fun i _ => ⟨?_, rfl, fun hi => ?_⟩, ?_, ?_, fun _ _ => rfl,
    fun _ _ => rfl, ?_⟩
  · intro i c h
    cases h
  · exact congrFun (shmemInit_status (zeroed nitems itemSize)) i
  · have hn : (initial nitems itemSize).nitems = nitems :=
      shmemInit_nitems (zeroed nitems itemSize)
    rw [hn] at hi
    exact (shmemInit_block (zeroed nitems itemSize) hi).1
  · intro i j c h
    cases h
  · intro c i h
    cases h
  · intro c h
    cases h

end Steps

end Frozen.Ipc
