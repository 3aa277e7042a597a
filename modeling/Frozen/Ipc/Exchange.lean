/-
# `Frozen.Ipc.Exchange` — requests and answers in their own blocks

What the owners of `Frozen.Ipc.Owner` buy: as long as the data areas do not overlap, a
block holds what its owner sent until the server runs it, and what the server left
from then on.  `data_rel_ptr` is an `unsigned int`, so the areas overlap as soon as the
last one would start at 2^32 or later; then two calls write over each other.

Two more results about whole runs: every run is finite, so "exactly once" can be said
of runs that have come to their end; and at rest all blocks are FREE if and only if
every call that has returned could convert its buffer, because the early return of a
failed conversion leaves the block WRITING for good.
-/
import Frozen.Ipc.Owner

namespace Frozen.Ipc

open Frozen.Lib

/-! ## Data areas -/

/-- The fields no step changes. -/
structure Laid (n size : Nat) (s : State) : Prop where
  nitems : s.nitems = n
  itemSize : s.itemSize = size
  dataRelPtr : ∀ i < n, s.dataRelPtr i = i * size % 2 ^ 32

/-- The last data area starts where `data_rel_ptr` can still say it. -/
def Fits (nitems itemSize : Nat) : Prop := (nitems - 1) * itemSize < 2 ^ 32

section Areas

variable {nitems itemSize : Nat} {s : State}

theorem laid_initial (nitems itemSize : Nat) :
    Laid nitems itemSize (initial nitems itemSize) :=
  ⟨shmemInit_nitems (zeroed nitems itemSize), shmemInit_itemSize (zeroed nitems itemSize),
    fun _ hi => (shmemInit_block (zeroed nitems itemSize) hi).2⟩

theorem laid_step {calls : Calls} {s' : State} {a : Act} {l : Label}
    (h : Laid nitems itemSize s) (hstep : step calls s a = some (s', l)) :
    Laid nitems itemSize s' := by
  have hsame : s'.nitems = s.nitems ∧ s'.itemSize = s.itemSize ∧
      s'.dataRelPtr = s.dataRelPtr := by
    rcases step_move hstep with ⟨c, -, hmove⟩ | ⟨output, hmove⟩
    · cases hmove <;> exact ⟨rfl, rfl, rfl⟩
    · cases hmove with
      | post i new => cases new <;> exact ⟨rfl, rfl, rfl⟩
      | _ => exact ⟨rfl, rfl, rfl⟩
  obtain ⟨hn, hsize, hptr⟩ := hsame
  exact ⟨hn.trans h.nitems, hsize.trans h.itemSize, hptr ▸ h.dataRelPtr⟩

/-- Where the areas fit they are where they should be. -/
theorem Laid.ptr (h : Laid nitems itemSize s) (hfit : Fits nitems itemSize) {i : Nat}
    (hi : i < nitems) : s.dataRelPtr i = i * itemSize := by
  rw [h.dataRelPtr i hi]
  refine Nat.mod_eq_of_lt (lt_of_le_of_lt ?_ hfit)
  exact Nat.mul_le_mul_right _ (Nat.le_sub_one_of_lt hi)

theorem area_ne {i j k k' n : Nat} (hij : i ≠ j) (hk : k < n) (hk' : k' < n) :
    i * n + k ≠ j * n + k' := by
  intro heq
  have hdiv : (i * n + k) / n = (j * n + k') / n := by rw [heq]
  have hn : 0 < n := Nat.zero_lt_of_lt hk
  rw [Nat.add_comm, Nat.add_mul_div_right _ _ hn, Nat.div_eq_of_lt hk,
    Nat.add_comm (j * n),
    Nat.add_mul_div_right _ _ hn, Nat.div_eq_of_lt hk', Nat.zero_add,
    Nat.zero_add] at hdiv
  exact hij hdiv

/-- A write into one area leaves the others alone. -/
theorem content_write_ne (h : Laid nitems itemSize s) (hfit : Fits nitems itemSize)
    {i j n : Nat} (hi : i < nitems) (hj : j < nitems) (hij : j ≠ i) (hn : n ≤ itemSize)
    (bytes : Nat → UInt8) {k : Nat} (hk : k < itemSize) :
    (s.write i n bytes).content j k = s.content j k := by
  refine if_neg ?_
  rintro ⟨hlo, hhi⟩
  replace hlo : s.dataRelPtr i ≤ s.dataRelPtr j + k := hlo
  replace hhi : s.dataRelPtr j + k < s.dataRelPtr i + n := hhi
  rw [h.ptr hfit hi, h.ptr hfit hj] at hlo hhi
  have hk' : j * itemSize + k - i * itemSize < itemSize := by omega
  exact area_ne hij hk hk' (by omega)

theorem content_write_self {i n : Nat} (bytes : Nat → UInt8) {k : Nat} (hk : k < n) :
    (s.write i n bytes).content i k = bytes k := by
  show (if s.dataRelPtr i ≤ s.dataRelPtr i + k ∧
    s.dataRelPtr i + k < s.dataRelPtr i + n then
    bytes (s.dataRelPtr i + k - s.dataRelPtr i) else _) = bytes k
  rw [if_pos ⟨Nat.le_add_right _ _, Nat.add_lt_add_left hk _⟩, Nat.add_sub_cancel_left]

/-- A conversion writes no further than the area. -/
theorem length_convertTo_le (itemSize : Nat) (b : Buffer) :
    (convertTo itemSize b).1.length ≤ itemSize := by
  cases b with
  | missing => exact Nat.zero_le _
  | raw bytes =>
      unfold convertTo
      dsimp only
      split_ifs with h0 h8
      · exact Nat.zero_le _
      · exact List.length_take_le _ _
      · rw [List.length_append, length_leBytes, List.length_take]
        omega
  | other written ok => exact List.length_take_le _ _

end Areas

/-! ## What a block carries -/

/-- The owner has written its request. -/
def Filled (s : State) (h : History) (i c : Nat) : Prop :=
  s.client c = .setResult i ∨ s.client c = .casWritten i ∨ h.published c = true

/-- Block `i` holds what its owner `c` sent, then what the server left. -/
structure Carries (s : State) (h : History) (i c : Nat) : Prop where
  sent : Filled s h i c → h.runs c = 0 → ∀ k < s.itemSize, s.content i k = h.sent c k
  left : h.runs c = 1 → ∀ k < s.itemSize, s.content i k = h.left c k

section Carries

variable {calls : Calls} {s s' : State} {h h' : History} {l : Label}
  {nitems itemSize : Nat}

/-- A step that neither writes into the block nor is seen in its owner's history. -/
theorem Carries.frame {i c : Nat} (hc : Carries s h i c)
    (hsize : s'.itemSize = s.itemSize)
    (hcontent : ∀ k < s.itemSize, s'.content i k = s.content i k)
    (hfilled : Filled s' h' i c → Filled s h i c) (hruns : h'.runs c = h.runs c)
    (hsent : h'.sent c = h.sent c) (hleft : h'.left c = h.left c) :
    Carries s' h' i c := by
  refine ⟨?_, ?_⟩
  · intro hf hr k hk
    rw [hsize] at hk
    rw [hcontent k hk, hsent]
    exact hc.sent (hfilled hf) (hruns ▸ hr) k hk
  · intro hr k hk
    rw [hsize] at hk
    rw [hcontent k hk, hleft]
    exact hc.left (hruns ▸ hr) k hk

/-- Where a moving call goes, seen from block `i`. -/
theorem filled_update {c d i : Nat} {pc : Pc}
    (hclient : s'.client = Function.update s.client c pc)
    (hpub : h'.published d = h.published d)
    (hpc : pc = .setResult i ∨ pc = .casWritten i → Filled s h i c) :
    Filled s' h' i d → Filled s h i d := by
  rintro hf
  by_cases hdc : d = c
  · subst hdc
    rw [Filled, hclient, Function.update_self, hpub] at hf
    rcases hf with hf | hf | hf
    · exact hpc (Or.inl hf)
    · exact hpc (Or.inr hf)
    · exact Or.inr (Or.inr hf)
  · rwa [Filled, hclient, Function.update_of_ne hdc, hpub] at hf

/-- What a call converts stays in its own area. -/
theorem content_convert_ne {i j c d : Nat} (hown : Owned calls s h)
    (hlaid : Laid nitems itemSize s) (hfit : Fits nitems itemSize)
    (ho : h.owner i = some c) (hjd : h.owner j = some d) (hji : j ≠ i)
    {bytes : List UInt8}
    (hb : bytes = (convertTo s.itemSize (calls.call c).buffer).1) : ∀ k < s.itemSize,
      (s.write i bytes.length fun k => bytes.getD k 0).content j k = s.content j k := by
  intro k hk
  have hi := (hown.life i c ho).2.1
  have hj := (hown.life j d hjd).2.1
  have hle : bytes.length ≤ itemSize := by
    rw [hb, hlaid.itemSize]
    exact length_convertTo_le _ _
  rw [hlaid.nitems] at hi hj
  rw [hlaid.itemSize] at hk
  exact content_write_ne hlaid hfit hi hj hji hle _ hk

/-- Every move of a call keeps what the blocks carry. -/
theorem carries_client {c : Nat} (hown : Owned calls s h) (hlaid : Laid nitems itemSize s)
    (hfit : Fits nitems itemSize) (hcar : ∀ i d, h.owner i = some d → Carries s h i d)
    (hmove : ClientMove (calls.call c) c s s' l) :
    ∀ i d, (h.next l).owner i = some d → Carries s' (h.next l) i d := by
  intro j d hjd
  cases hmove with
  | hit i hpc hi hst =>
      by_cases hji : j = i
      · subst hji
        obtain rfl : c = d := by simpa [History.next] using hjd
        have hpub := hown.fresh c (by rw [hpc]; rfl)
        refine ⟨fun hf => ?_, fun hr => ?_⟩
        · simp [Filled, History.next, hpub] at hf
        · rw [show (h.next (.acquire c j)).runs c = h.runs c from rfl,
            hown.unrun c hpub] at hr
          cases hr
      · have hjd : h.owner j = some d := by simpa [History.next, hji] using hjd
        exact (hcar j d hjd).frame rfl (fun _ _ => rfl)
          (filled_update rfl rfl (by simp)) rfl rfl rfl
  | convert i hpc hok bytes hb =>
      obtain ⟨ho, hlife⟩ := hown.of_holds (by rw [hpc]; rfl)
      by_cases hji : j = i
      · subst hji
        obtain rfl : c = d := Option.some_inj.mp (ho.symm.trans hjd)
        have hruns := (hlife.of_convert hpc).2.2.2
        refine ⟨fun _ _ k _ => ?_, fun hr => ?_⟩
        · exact (congrFun (Function.update_self c _ h.sent) k).symm
        · exact absurd (hruns.symm.trans hr) Nat.zero_ne_one
      · have hdc := hown.ne_owner ho hji hjd
        refine (hcar j d hjd).frame rfl (content_convert_ne hown hlaid hfit ho hjd hji hb)
          (filled_update rfl rfl ?_) rfl (Function.update_of_ne hdc _ _) rfl
        rintro (hj | hj) <;> cases hj
        exact absurd rfl hji
  | fail i hpc hok bytes hb =>
      obtain ⟨ho, hlife⟩ := hown.of_holds (by rw [hpc]; rfl)
      by_cases hji : j = i
      · subst hji
        obtain rfl : c = d := Option.some_inj.mp (ho.symm.trans hjd)
        obtain ⟨-, -, hpub, hruns⟩ := hlife.of_convert hpc
        refine ⟨fun hf => ?_, fun hr => ?_⟩
        · rcases hf with hf | hf | hf
          · simp at hf
          · simp at hf
          · exact absurd (hpub.symm.trans hf) Bool.false_ne_true
        · exact absurd (hruns.symm.trans hr) Nat.zero_ne_one
      · exact (hcar j d hjd).frame rfl (content_convert_ne hown hlaid hfit ho hjd hji hb)
          (filled_update rfl rfl (by simp)) rfl rfl rfl
  | publish i hpc hst =>
      have ho : h.owner i = some c := hown.holds c i (by rw [hpc]; rfl)
      refine (hcar j d hjd).frame rfl (fun _ _ => rfl) ?_ rfl rfl rfl
      by_cases hji : j = i
      · subst hji
        obtain rfl : c = d := Option.some_inj.mp (ho.symm.trans hjd)
        exact fun _ => Or.inr (Or.inl hpc)
      · exact filled_update rfl (Function.update_of_ne (hown.ne_owner ho hji hjd) _ _)
          (by simp)
  | release i hpc hst =>
      have hjd : h.owner j = some d := by
        by_cases hji : j = i
        · simp [History.next, hji] at hjd
        · simpa [History.next, hji] using hjd
      exact (hcar j d hjd).frame rfl (fun _ _ => rfl) (filled_update rfl rfl (by simp))
        rfl rfl rfl
  | post i hpc =>
      refine (hcar j d hjd).frame rfl (fun _ _ => rfl) (filled_update rfl rfl ?_)
        rfl rfl rfl
      split_ifs <;> simp
  | wake i hpc hsem =>
      refine (hcar j d hjd).frame rfl (fun _ _ => rfl) (filled_update rfl rfl ?_)
        rfl rfl rfl
      split_ifs <;> simp
  | setResult i hpc =>
      refine (hcar j d hjd).frame rfl (fun _ _ => rfl) (filled_update rfl rfl ?_)
        rfl rfl rfl
      rintro (hj | hj) <;> cases hj
      exact Or.inl hpc
  | start | miss | null | readBack | done | lost | strange  =>
      exact (hcar j d hjd).frame rfl (fun _ _ => rfl) (filled_update rfl rfl (by simp))
        rfl rfl rfl

/-- Every move of the server keeps what the blocks carry. -/
theorem carries_server (hown : Owned calls s h) (hlaid : Laid nitems itemSize s)
    (hfit : Fits nitems itemSize) (hcar : ∀ i d, h.owner i = some d → Carries s h i d)
    {output : Nat → UInt8} (hmove : ServerMove output s s' l) :
    ∀ i d, (h.next l).owner i = some d → Carries s' (h.next l) i d := by
  intro j d hjd
  cases hmove with
  | execute i hpc =>
      have htask : s.server.task i = some .exec := by simp [hpc, Listen.task]
      obtain ⟨c, ho, hlife⟩ := hown.of_task htask
      have hnext : h.next (.execute i (s.content i) output) =
          { h with runs := Function.update h.runs c (h.runs c + 1)
                   left := Function.update h.left c output } := by
        simp only [History.next, ho]
      rw [hnext] at hjd ⊢
      obtain ⟨-, hruns, -⟩ := hlife.of_exec htask
      by_cases hji : j = i
      · subst hji
        obtain rfl : c = d := Option.some_inj.mp (ho.symm.trans hjd)
        refine ⟨fun _ hr => ?_, fun _ k hk => ?_⟩
        · exact absurd ((Function.update_self c _ h.runs).symm.trans hr)
            (Nat.succ_ne_zero _)
        · refine (content_write_self output hk).trans ?_
          exact (congrFun (Function.update_self c _ h.left) k).symm
      · have hdc := hown.ne_owner ho hji hjd
        have hi := (hown.life i c ho).2.1
        have hj := (hown.life j d hjd).2.1
        rw [hlaid.nitems] at hi hj
        refine (hcar j d hjd).frame rfl (fun k hk => ?_) id
          (Function.update_of_ne hdc _ _) rfl (Function.update_of_ne hdc _ _)
        rw [hlaid.itemSize] at hk
        exact content_write_ne hlaid hfit hi hj hji (le_of_eq hlaid.itemSize) output hk
  | finish i new hpc hst =>
      have hjd : h.owner j = some d := by
        by_cases hnew : new = .free
        · by_cases hji : j = i
          · simp [History.next, hnew, hji] at hjd
          · simpa [History.next, hnew, hji] using hjd
        · simpa [History.next, hnew] using hjd
      split_ifs <;> exact (hcar j d hjd).frame rfl (fun _ _ => rfl) id rfl rfl rfl
  | post i new hpc =>
      cases new <;> exact (hcar j d hjd).frame rfl (fun _ _ => rfl) id rfl rfl rfl
  | start | hit | miss | null | readResult | lost =>
      exact (hcar j d hjd).frame rfl (fun _ _ => rfl) id rfl rfl rfl

end Carries

/-! ## Every run ends -/

section Bound

/-- The steps a call has ahead of it, and those it still causes the server. -/
def Pc.work (n : Nat) : Pc → Nat
  | .start => n + (n + 7) + 10
  | .scan i => (n - i) + (n + 7) + 9
  | .convert _ => (n + 7) + 8
  | .setResult _ => (n + 7) + 7
  | .casWritten _ => (n + 7) + 6
  | .postWritten _ => (n + 7) + 5
  | .waitDone _ => 4
  | .readBack _ => 3
  | .casFree _ => 2
  | .postFree _ => 1
  | .returned _ => 0

def Listen.work (n : Nat) : Listen → Nat
  | .wait => 0
  | .scan i => (n - i) + 6
  | .exec _ => 5
  | .readResult _ => 4
  | .casDone _ _ => 3
  | .post _ _ => 2
  | .dead => 0

/-- All that is left to do: the calls, the tokens of `sem_written`, the server. -/
def State.work (m : Nat) (s : State) : Nat :=
  ∑ c ∈ Finset.range m, (s.client c).work s.nitems + (s.nitems + 7) * s.semWritten
    + s.server.work s.nitems

theorem sum_work_update {m n c : Nat} (hc : c < m) (client : Nat → Pc) (pc : Pc) :
    ∑ d ∈ Finset.range m, (Function.update client c pc d).work n + (client c).work n
      = ∑ d ∈ Finset.range m, (client d).work n + pc.work n := by
  have hmem := Finset.mem_range.mpr hc
  have hcomp : (fun d => (Function.update client c pc d).work n)
      = Function.update (fun d => (client d).work n) c (pc.work n) :=
    Function.comp_update (Pc.work n) client c pc
  have hsplit :=
    Finset.sum_eq_add_sum_sdiff_singleton_of_mem hmem fun d => (client d).work n
  rw [hcomp, Finset.sum_update_of_mem hmem, hsplit]
  omega

theorem work_client {m c : Nat} (hc : c < m) {s s' : State} {pc : Pc}
    (hn : s'.nitems = s.nitems) (hclient : s'.client = Function.update s.client c pc)
    (hsrv : s'.server = s.server)
    (hless : pc.work s.nitems + (s.nitems + 7) * s'.semWritten
      < (s.client c).work s.nitems + (s.nitems + 7) * s.semWritten) : s'.work m
    < s.work m := by
  have hsum := @sum_work_update _ s.nitems _ hc s.client pc
  unfold State.work
  rw [hn, hclient, hsrv]
  omega

theorem work_step {calls : Calls} {debt : Nat} {s s' : State} {a : Act} {l : Label}
    (h : Slots calls.ncalls debt s) (hstep : step calls s a = some (s', l)) :
    s'.work calls.ncalls < s.work calls.ncalls := by
  rcases step_move hstep with ⟨c, hc, hmove⟩ | ⟨output, hmove⟩
  · cases hmove with
    | post i hpc =>
        refine work_client hc rfl rfl rfl ?_
        rw [hpc]
        simp only [State.setClient, State.semPost, Nat.mul_add]
        split_ifs <;> simp only [Pc.work] <;> omega
    | wake i hpc hsem =>
        refine work_client hc rfl rfl rfl (Nat.add_lt_add_right ?_ _)
        rw [hpc]
        split_ifs <;> simp [Pc.work]
    | start hpc | hit i hpc hi | miss i hpc hi | null i hpc | convert i hpc | fail i hpc
    | setResult i hpc | publish i hpc | lost i hpc | readBack i hpc | release i hpc
    | strange i hpc
    | done i hpc =>
        refine work_client hc rfl rfl rfl (Nat.add_lt_add_right ?_ _)
        rw [hpc]
        simp only [Pc.work]
        omega
  · unfold State.work
    cases hmove with
    | start hpc hsem =>
        obtain ⟨k, hk⟩ := Nat.exists_eq_add_one_of_ne_zero hsem.ne'
        simp only [State.setServer, hpc, Listen.work, hk, Nat.mul_add, Nat.add_sub_cancel]
        omega
    | post i new hpc =>
        have hpost : (s.semPost i new).semWritten = s.semWritten ∧
            (s.semPost i new).client = s.client ∧
            (s.semPost i new).nitems = s.nitems := by
          rcases h.outcome new (by rw [hpc]; rfl) with rfl | rfl <;> exact ⟨rfl, rfl, rfl⟩
        simp only [State.setServer, hpost, hpc, Listen.work]
        omega
    | hit i hpc | miss i hpc hi | null i hpc | execute i hpc | readResult i hpc
    | finish i new hpc
    | lost i new hpc =>
        refine Nat.add_lt_add_left ?_ _
        simp only [State.setServer, hpc, Listen.work]
        omega

theorem work_initial (m nitems itemSize : Nat) :
    (initial nitems itemSize).work m = m * (2 * nitems + 17) := by
  have hn : (initial nitems itemSize).nitems = nitems :=
    shmemInit_nitems (zeroed nitems itemSize)
  have hsw : (initial nitems itemSize).semWritten = 0 :=
    shmemInit_semWritten (zeroed nitems itemSize)
  have hclient : (initial nitems itemSize).client = fun _ => .start := rfl
  have hsrv : (initial nitems itemSize).server = .wait := rfl
  rw [State.work, hn, hsw, hclient, hsrv, Finset.sum_const, Finset.card_range]
  simp only [Pc.work, Listen.work, smul_eq_mul]
  ring

end Bound

/-! ## Whole runs -/

/-- What has happened in a run. -/
def history (ls : List Label) : History := ls.foldl History.next .empty

/-- What holds in every reachable state. -/
structure Exchange (calls : Calls) (nitems itemSize : Nat) (s : State) (h : History) :
    Prop where
  slots : Slots calls.ncalls (debtOf nitems) s
  alive : s.server ≠ .dead
  laid : Laid nitems itemSize s
  owned : Owned calls s h

section Runs

variable {calls : Calls} {nitems itemSize : Nat} {s s' : State} {h : History}
  {a : Act} {l : Label}

theorem exchange_step (hex : Exchange calls nitems itemSize s h)
    (hstep : step calls s a = some (s', l)) :
    Exchange calls nitems itemSize s' (h.next l) := by
  obtain ⟨⟨hslots, halive⟩, -⟩ := slots_step ⟨hex.slots, hex.alive⟩ hstep
  exact ⟨hslots, halive, laid_step hex.laid hstep, owned_step hex.owned hstep⟩

theorem exchange_initial (calls : Calls) (nitems itemSize : Nat) :
    Exchange calls nitems itemSize (initial nitems itemSize) .empty :=
  ⟨slots_initial _ _ _, (fun h => nomatch h), laid_initial _ _, owned_initial _ _ _⟩

/-- The run lemma. -/
theorem run_exchange {acts : List Act} {ls : List Label}
    (hrun : run (step calls) (initial nitems itemSize) acts = some (s, ls)) :
    Exchange calls nitems itemSize s (history ls) :=
  run_invariant History.next (Exchange calls nitems itemSize)
    (fun _ _ _ _ _ => exchange_step) (exchange_initial _ _ _) hrun

/-- A published request that has not been run waits in a WRITTEN block, or the server is
about to run it. -/
theorem Owned.waiting {c : Nat} (hown : Owned calls s h) (hpub : h.published c = true)
    (hruns : h.runs c ≠ 1) :
    ∃ i < s.nitems, s.status i = .written ∨ s.server.task i = some .exec := by
  rcases hown.settled c hpub with hr | ⟨i, hi⟩
  · exact absurd hr hruns
  · obtain ⟨-, hlt, hl⟩ := hown.life i c hi
    have hview : (s.view h i c).status = .written ∨ (s.view h i c).task = some .exec := by
      have h1 : (s.view h i c).published = true := hpub
      have h2 : (s.view h i c).runs ≠ 1 := hruns
      generalize s.view h i c = v at hl h1 h2
      cases hl <;> simp_all
    exact ⟨i, hlt, hview⟩

/-- As long as a published request has not been run, there is a step to take. -/
theorem Exchange.unblocked {c : Nat} (hex : Exchange calls nitems itemSize s h)
    (hpub : h.published c = true) (hruns : h.runs c ≠ 1) :
    ∃ a, step calls s a ≠ none := by
  obtain ⟨i, hi, hwait⟩ := hex.owned.waiting hpub hruns
  -- the server can move unless it waits for a token
  by_cases hsrv : s.server = .wait ∧ s.semWritten = 0
  · have hwritten := hex.slots.written
    have hst : s.status i = .written := by
      refine hwait.resolve_right ?_
      rw [hsrv.1]
      exact fun h => nomatch h
    have hpos : 0 < tally s.nitems (fun i => (s.status i).isWritten = true) :=
      tally_pos.mpr ⟨i, hi, by rw [hst]; rfl⟩
    rw [hwritten, hsrv.1, hsrv.2] at hpos
    have hpost : 0 < tally calls.ncalls (fun c => (s.client c).isPostWritten = true) := by
      simpa [Listen.isScan] using hpos
    obtain ⟨d, hd, hpc⟩ := tally_pos.mp hpost
    refine ⟨.client d, ?_⟩
    cases hcl : s.client d with
    | postWritten j => simp [step, hd, clientStep, hcl]
    | _ => simp [hcl, Pc.isPostWritten] at hpc
  · refine ⟨.server fun _ => 0, ?_⟩
    cases hcl : s.server with
    | wait =>
        have hsem : 0 < s.semWritten := Nat.pos_of_ne_zero fun h0 => hsrv ⟨hcl, h0⟩
        simp [step, serverStep, hcl, hsem]
    | dead => exact absurd hcl hex.alive
    | scan j =>
        simp only [step, serverStep, hcl]
        split_ifs
        · cases s.cas j .written .executing <;> simp
        · simp
    | casDone j new =>
        simp only [step, serverStep, hcl]
        cases s.cas j .executing new <;> simp
    | _ => simp [step, serverStep, hcl]

/-- What the protocol promises of a step, given what has happened before it. -/
def Sound (calls : Calls) (itemSize : Nat) (h : History) : Label → Prop
  | .acquire _ i => h.owner i = none
  | .send c content =>
      ∀ k < (convertTo itemSize (calls.call c).buffer).1.length,
        content k = (convertTo itemSize (calls.call c).buffer).1.getD k 0
  | .publish c i => h.owner i = some c
  | .execute i input _ =>
      ∃ c, h.owner i = some c ∧ h.published c = true ∧ h.runs c = 0 ∧
        ∀ k < itemSize, input k = h.sent c k
  | .readBack c i content =>
      h.owner i = some c ∧ h.runs c = 1 ∧ ∀ k < itemSize, content k = h.left c k
  | .release i => ∃ c, h.owner i = some c ∧ h.runs c = 1
  | .null => False
  | .tau => True

theorem sound_client {c : Nat} (hex : Exchange calls nitems itemSize s h)
    (hc : c < calls.ncalls) (hcar : ∀ i d, h.owner i = some d → Carries s h i d)
    (hmove : ClientMove (calls.call c) c s s' l) : Sound calls itemSize h l := by
  have hown := hex.owned
  have hnull := client_ne_null hex.slots hc hmove
  cases hmove with
  | hit i hpc hi hst =>
      cases ho : h.owner i with
      | none => exact ho
      | some d => exact absurd hst (hown.life i d ho).2.2.status_ne
  | null => exact absurd rfl hnull
  | convert i hpc hok bytes hb =>
      rw [hex.laid.itemSize] at hb
      subst hb
      exact fun k hk => content_write_self _ hk
  | publish i hpc hst => exact hown.holds c i (by rw [hpc]; rfl)
  | readBack i hpc =>
      obtain ⟨ho, hlife⟩ := hown.of_holds (by rw [hpc]; rfl)
      have hruns : h.runs c = 1 := (hlife.of_readBack hpc).1
      refine ⟨ho, hruns, fun k hk => (hcar i c ho).left hruns k ?_⟩
      rw [hex.laid.itemSize]
      exact hk
  | release i hpc hst =>
      obtain ⟨ho, hlife⟩ := hown.of_holds (by rw [hpc]; rfl)
      exact ⟨c, ho, (hlife.of_casFree hpc).2.2.2.2⟩
  | _ => exact trivial

theorem sound_server (hex : Exchange calls nitems itemSize s h)
    (hcar : ∀ i d, h.owner i = some d → Carries s h i d) {output : Nat → UInt8}
    (hmove : ServerMove output s s' l) : Sound calls itemSize h l := by
  have hown := hex.owned
  have hnull := (slots_server hex.slots hmove).2.2
  cases hmove with
  | null => exact absurd rfl hnull
  | execute i hpc =>
      have htask : s.server.task i = some .exec := by simp [hpc, Listen.task]
      obtain ⟨c, ho, hlife⟩ := hown.of_task htask
      obtain ⟨hpub, hruns, -⟩ := hlife.of_exec htask
      refine ⟨c, ho, hpub, hruns,
        fun k hk => (hcar i c ho).sent (Or.inr (Or.inr hpub)) hruns k ?_⟩
      rw [hex.laid.itemSize]
      exact hk
  | finish i new hpc hst =>
      have htask : s.server.task i = some (.casDone new) := by simp [hpc, Listen.task]
      obtain ⟨c, ho, hlife⟩ := hown.of_task htask
      have hruns := (hlife.of_casDone htask).2.2.2.1
      split_ifs
      · exact ⟨c, ho, hruns⟩
      · exact trivial
  | _ => exact trivial

/-- The step lemma where the areas fit. -/
theorem carries_step (hfit : Fits nitems itemSize)
    (hinv : Exchange calls nitems itemSize s h ∧ ∀ i d, h.owner i = some d →
      Carries s h i d)
    (hstep : step calls s a = some (s', l)) :
    (Exchange calls nitems itemSize s' (h.next l) ∧
      ∀ i d, (h.next l).owner i = some d → Carries s' (h.next l) i d) ∧
        Sound calls itemSize h l := by
  obtain ⟨hex, hcar⟩ := hinv
  have hex' := exchange_step hex hstep
  rcases step_move hstep with ⟨c, hc, hmove⟩ | ⟨output, hmove⟩
  · exact ⟨⟨hex', carries_client hex.owned hex.laid hfit hcar hmove⟩,
      sound_client hex hc hcar hmove⟩
  · exact ⟨⟨hex', carries_server hex.owned hex.laid hfit hcar hmove⟩,
      sound_server hex hcar hmove⟩

/-- **Slot safety.**  Over a fresh segment whose last data area starts below 2^32, in
every interleaving of any number of calls with the server: a block is acquired only when
nobody owns it, and from then until its release only its owner works on it; a request is
run only once published, at most once and on the bytes its call sent, and exactly once
by the time nobody can move any more, which every run reaches; and a call reads back
what the server left in the call's own block after running the call's own request. -/
theorem exchange_safe (nitems itemSize : Nat) (hfit : Fits nitems itemSize)
    (calls : Calls) (acts : List Act) (s : State) (ls : List Label)
    (hrun : run (step calls) (initial nitems itemSize) acts = some (s, ls)) :
    (∀ pre l post, ls = pre ++ l :: post → Sound calls itemSize (history pre) l) ∧
      (∀ i < nitems, s.status i = .free ↔ (history ls).owner i = none) ∧
      (∀ c i, (s.client c).holds (calls.call c) = some i → (history ls).owner i = some c) ∧
      (∀ c, (history ls).published c = true → (history ls).runs c ≤ 1) ∧
      (∀ c, (history ls).published c = true → (∀ a, step calls s a = none) →
        (history ls).runs c = 1) ∧
      acts.length ≤ calls.ncalls * (2 * nitems + 17) := by
  have hstart : Exchange calls nitems itemSize (initial nitems itemSize) .empty ∧
      ∀ i d, History.empty.owner i = some d →
      Carries (initial nitems itemSize) .empty i d :=
    ⟨exchange_initial _ _ _, fun i d h => nomatch h⟩
  have hex : Exchange calls nitems itemSize s (history ls) := run_exchange hrun
  refine ⟨?_, ?_, hex.owned.holds, ?_, ?_, ?_⟩
  · rintro pre l post rfl
    exact run_label History.next
      (fun s h => Exchange calls nitems itemSize s h ∧ ∀ i d, h.owner i = some d →
        Carries s h i d)
      (fun _ _ _ _ _ hinv hs => (carries_step hfit hinv hs).1)
      (fun _ _ _ _ _ hinv hs => (carries_step hfit hinv hs).2) hstart hrun
  · intro i hi
    cases ho : (history ls).owner i with
    | none => simpa using (hex.owned.loose i ho).1
    | some d =>
        exact iff_of_false (hex.owned.life i d ho).2.2.status_ne (Option.some_ne_none d)
  · intro c hpub
    rcases hex.owned.settled c hpub with hr | ⟨i, hi⟩
    · exact hr.le
    · exact (hex.owned.life i c hi).2.2.runs_le
  · intro c hpub hstuck
    by_contra hruns
    obtain ⟨a, ha⟩ := hex.unblocked hpub hruns
    exact ha (hstuck a)
  · have hlen := run_length_le (f := State.work calls.ncalls)
      (P := fun s => Slots calls.ncalls (debtOf nitems) s ∧ s.server ≠ .dead)
      (fun _ _ _ _ hs hstep => ⟨(slots_step hs hstep).1, work_step hs.1 hstep⟩)
      ⟨slots_initial _ _ _, (fun h => nomatch h)⟩ hrun
    exact hlen.trans (le_of_eq (work_initial _ _ _))

end Runs

theorem exchange_safe_oneRound :
    ∃ s ls, run (step oneCall) (initial 1 16) oneRound = some (s, ls) ∧ Fits 1 16 ∧
      (history ls).published 0 = true ∧ (history ls).runs 0 = 1 ∧
      ∀ pre l post, ls = pre ++ l :: post → Sound oneCall 16 (history pre) l := by
  have hrun : ((run (step oneCall) (initial 1 16) oneRound).map fun p =>
      ((history p.2).published 0, (history p.2).runs 0)) = some (true, 1) := by
    decide +kernel
  obtain ⟨⟨s, ls⟩, h, hdone⟩ := Option.map_eq_some_iff.mp hrun
  have hfit : Fits 1 16 := by
    unfold Fits
    decide
  have hsafe := exchange_safe 1 16 hfit oneCall oneRound s ls h
  exact ⟨s, ls, h, hfit, congrArg Prod.fst hdone, congrArg Prod.snd hdone, hsafe.1⟩

/-- Two blocks of 2^32 bytes: both data areas start at 0.  Both calls send, the server
answers 1 to the first and 2 to the second, and the first call reads its answer. -/
def bothRounds : List Act :=
  List.replicate 6 (.client 0) ++ List.replicate 7 (.client 1)
    ++ List.replicate 6 (.server fun _ => 1) ++ List.replicate 7 (.server fun _ => 2)
    ++ List.replicate 2 (.client 0)

def twoCalls : Calls := ⟨2, fun _ => ⟨.none, 1, none, .raw [7]⟩⟩

/-- What the last step read back, if it did, and what the server had
left for that call. -/
def lastReadBack (ls : List Label) : Option (UInt8 × UInt8) :=
  match ls.getLast? with
  | some (.readBack c _ content) => some (content 0, (history ls.dropLast).left c 0)
  | _ => none

/-- The first call reads the answer to the second. -/
theorem exchange_mixes_answers :
    (∀ c < 2, (twoCalls.call c).Converts (2 ^ 32)) ∧
      ∃ s ls, run (step twoCalls) (initial 2 (2 ^ 32)) bothRounds = some (s, ls) ∧
        ∃ pre l post, ls = pre ++ l :: post ∧
        ¬ Sound twoCalls (2 ^ 32) (history pre) l := by
  have hok : (convertTo (2 ^ 32) (.raw [7])).2 = true := by decide +kernel
  refine ⟨fun _ _ => hok, ?_⟩
  have hrun : ((run (step twoCalls) (initial 2 (2 ^ 32)) bothRounds).map fun p =>
      lastReadBack p.2) = some (some (2, 1)) := by
    decide +kernel
  obtain ⟨⟨s, ls⟩, h, hlast⟩ := Option.map_eq_some_iff.mp hrun
  refine ⟨s, ls, h, ?_⟩
  simp only [lastReadBack] at hlast
  split at hlast
  case h_2 => cases hlast
  case h_1 c i content hget =>
    have hread : content 0 = 2 ∧ (history ls.dropLast).left c 0 = 1 := by
      simpa using hlast
    refine ⟨ls.dropLast, .readBack c i content, [],
      (List.dropLast_append_getLast? _ hget).symm, ?_⟩
    rintro ⟨-, -, hsame⟩
    have h0 := hsame 0 (by decide)
    rw [hread.1, hread.2] at h0
    exact absurd h0 (by decide)

/-! ## Blocks at rest -/

/-- No call is under way and the server has nothing to do. -/
structure AtRest (calls : Calls) (s : State) : Prop where
  calls : ∀ c < calls.ncalls, s.client c = .start ∨ ∃ ret, s.client c = .returned ret
  server : s.server = .wait
  semWritten : s.semWritten = 0

/-- A call whose buffer cannot be converted never gets past the conversion, and keeps the
block it has acquired. -/
def Jammed (calls : Calls) (s : State) (h : History) : Prop :=
  ∀ c, ¬ (calls.call c).Converts s.itemSize → (s.client c).early = true ∨
    ∃ i, h.owner i = some c ∧
      (s.client c = .convert i ∨ s.client c = .returned (errorCode EMODULE 263))

section Rest

variable {calls : Calls} {nitems itemSize : Nat} {s s' : State} {h : History}
  {a : Act} {l : Label}

theorem errorCode_ne_zero : errorCode EMODULE 263 ≠ 0 := by decide

theorem Life.unpublished {i : Nat} {call : Call} {v : View} (hl : Life itemSize call i v)
    (hpc : v.pc = .convert i ∨ v.pc = .returned (errorCode EMODULE 263)) :
    v.published = false := by
  cases hl with
  | convert | setResult | casWritten | failed => rfl
  | written pc hs | exec pc hs | readResult pc hs | casDone pc hs | post pc hs
  | token pc hs =>
      rcases hs with rfl | ⟨rfl, -⟩ | ⟨rfl, -⟩ <;> simp [errorCode_ne_zero.symm] at hpc
  | woken pc hs => rcases hs with rfl | rfl <;> simp at hpc

theorem jammed_client {c : Nat} (hex : Exchange calls nitems itemSize s h)
    (hc : c < calls.ncalls) (hj : Jammed calls s h)
    (hmove : ClientMove (calls.call c) c s s' l) : Jammed calls s' (h.next l) := by
  have hown := hex.owned
  have hnull := client_ne_null hex.slots hc hmove
  have hsize : s'.itemSize = s.itemSize := by
    cases hmove <;> rfl
  intro d hd
  rw [hsize] at hd
  have hold := hj d hd
  by_cases hdc : d = c
  · subst hdc
    cases hmove with
    | start | miss => exact Or.inl (by simp [Pc.early])
    | null => exact absurd rfl hnull
    | hit i hpc hi hst => exact Or.inr ⟨i, by simp [History.next], by simp⟩
    | convert i hpc hok => exact absurd hok hd
    | fail i hpc hok =>
        exact Or.inr ⟨i, hown.holds d i (by rw [hpc]; rfl), by simp⟩
    | setResult i hpc | publish i hpc | lost i hpc | post i hpc | wake i hpc
    | readBack i hpc
    | release i hpc | strange i hpc | done i hpc =>
        rw [hpc] at hold
        rcases hold with he | ⟨k, -, hk | hk⟩ <;> contradiction
  · have hpc : s'.client d = s.client d := by
      cases hmove <;> exact Function.update_of_ne hdc _ _
    rw [hpc]
    refine hold.imp_right ?_
    rintro ⟨i, hi, hat⟩
    refine ⟨i, ?_, hat⟩
    cases hmove with
    | hit j hpcj hj hst =>
        have hij : i ≠ j := by
          rintro rfl
          exact (hown.life i d hi).2.2.status_ne hst
        simpa [History.next, hij] using hi
    | release j hpcj hst =>
        have hij : i ≠ j := by
          rintro rfl
          have ho : h.owner i = some c := hown.holds c i (by rw [hpcj]; rfl)
          exact hdc (Option.some_inj.mp (hi.symm.trans ho))
        simpa [History.next, hij] using hi
    | _ => exact hi

theorem jammed_server (hex : Exchange calls nitems itemSize s h) (hj : Jammed calls s h)
    {output : Nat → UInt8} (hmove : ServerMove output s s' l) :
    Jammed calls s' (h.next l) := by
  have hown := hex.owned
  have hsame : s'.itemSize = s.itemSize ∧ s'.client = s.client := by
    cases hmove with
    | post i new => cases new <;> exact ⟨rfl, rfl⟩
    | _ => exact ⟨rfl, rfl⟩
  intro d hd
  rw [hsame.1] at hd
  rw [hsame.2]
  refine (hj d hd).imp_right ?_
  rintro ⟨i, hi, hat⟩
  refine ⟨i, ?_, hat⟩
  cases hmove with
  | execute j hpc =>
      simp only [History.next]
      split <;> exact hi
  | finish j new hpc hst =>
      split_ifs with hnew
      · -- the owner of a block that the server frees has published its request
        have hij : i ≠ j := by
          rintro rfl
          have htask : s.server.task i = some (.casDone new) := by simp [hpc, Listen.task]
          have hl := (hown.life i d hi).2.2
          have hpub := (hl.of_casDone htask).2.2.1
          exact Bool.false_ne_true ((hl.unpublished hat).symm.trans hpub)
        simpa [History.next, hij] using hi
      · exact hi
  | _ => exact hi

theorem run_jammed {acts : List Act} {ls : List Label}
    (hrun : run (step calls) (initial nitems itemSize) acts = some (s, ls)) :
    Jammed calls s (history ls) := by
  have hinv := run_invariant History.next
    (fun s h => Exchange calls nitems itemSize s h ∧ Jammed calls s h)
    (fun s h a s' l hi hs => by
      refine ⟨exchange_step hi.1 hs, ?_⟩
      rcases step_move hs with ⟨c, hc, hmove⟩ | ⟨output, hmove⟩
      · exact jammed_client hi.1 hc hi.2 hmove
      · exact jammed_server hi.1 hi.2 hmove)
    (h := .empty) ⟨exchange_initial _ _ _, fun c _ => Or.inl rfl⟩ hrun
  exact hinv.2

/-- A call that has returned either could convert its buffer, and then any block
it still owns is on its way to the server or with it, or it could not, and then
it keeps a block. -/
theorem returned_owner {c : Nat} {ret : Int} (hown : Owned calls s h)
    (hj : Jammed calls s h) (hret : s.client c = .returned ret)
    (hserved : ∀ i, h.owner i = some c → s.status i ≠ .written ∧
      s.status i ≠ .executing) :
    (∀ i, h.owner i ≠ some c) ↔ (calls.call c).Converts s.itemSize := by
  refine ⟨fun hnone => ?_, fun hok i hi => ?_⟩
  · by_contra hok
    rcases hj c hok with he | ⟨i, hi, -⟩
    · rw [hret] at he
      cases he
    · exact hnone i hi
  · obtain ⟨hw, he⟩ := hserved i hi
    have hl := (hown.life i c hi).2.2
    replace hret : (s.view h i c).pc = .returned ret := hret
    replace hw : (s.view h i c).status ≠ .written := hw
    replace he : (s.view h i c).status ≠ .executing := he
    generalize s.view h i c = v at hl hret hw he
    cases hl with
    | failed rr hfail => exact hfail hok
    | written | exec | readResult | casDone => simp at hw he
    | post pc hs ha | token pc hs ha =>
        rcases hs with rfl | ⟨rfl, -⟩ | ⟨rfl, hasync⟩
        · cases hret
        · cases hret
        · exact hasync ha
    | woken pc hs => rcases hs with rfl | rfl <;> cases hret
    | _ => cases hret

theorem Owned.not_executing {i c : Nat} (hown : Owned calls s h) (hsrv : s.server = .wait)
    (ho : h.owner i = some c) : s.status i ≠ .executing := by
  have hl := (hown.life i c ho).2.2
  have htask : (s.view h i c).task = none := by
    show s.server.task i = none
    rw [hsrv]
    rfl
  show (s.view h i c).status ≠ .executing
  generalize s.view h i c = v at hl htask
  cases hl <;> simp_all

theorem debtOf_eq_zero {nitems : Nat} : debtOf nitems = 0 ↔ nitems ≤ SEM_VALUE_MAX := by
  have hle := semInit_le nitems
  unfold debtOf semInit at *
  unfold SEM_VALUE_MAX at *
  split_ifs at * <;> omega

/-- **Slots at rest.**  In every reachable state a call that has returned, and whose
block the server has finished with, has given its block back if and only if its
conversion succeeded.  At rest all blocks are FREE and counted by `sem_free` if and only
if every call that has returned could convert its buffer, and `nitems` is a value a
semaphore can have. -/
theorem slots_returned_iff (nitems itemSize : Nat) (calls : Calls)
    (acts : List Act) (s : State) (ls : List Label)
    (hrun : run (step calls) (initial nitems itemSize) acts = some (s, ls)) :
    (∀ c ret, s.client c = .returned ret →
      (∀ i, (history ls).owner i = some c → s.status i ≠ .written ∧
        s.status i ≠ .executing) →
      ((∀ i, (history ls).owner i ≠ some c) ↔ (calls.call c).Converts itemSize)) ∧
    (AtRest calls s →
      (((∀ i < nitems, s.status i = .free) ∧ s.semFree = nitems) ↔
        nitems ≤ SEM_VALUE_MAX ∧
          ∀ c < calls.ncalls, ∀ ret, s.client c = .returned ret →
            (calls.call c).Converts itemSize)) := by
  have hex := run_exchange hrun
  have hj := run_jammed hrun
  have hown := hex.owned
  refine ⟨fun c ret hret hserved => ?_, fun hrest => ?_⟩
  · rw [← hex.laid.itemSize]
    exact returned_owner hown hj hret hserved
  -- at rest nothing is with the server, and only FREE blocks are counted
  · have hnone : ∀ {P : Pc → Bool}, P .start = false →
        (∀ ret, P (.returned ret) = false) →
        tally calls.ncalls (fun c => P (s.client c) = true) = 0 := by
      intro P h1 h2
      refine tally_eq_zero.mpr fun c hc => ?_
      rcases hrest.calls c hc with h | ⟨ret, h⟩ <;> simp [h, h1, h2]
    have hwritten : ∀ i < s.nitems, s.status i ≠ .written := by
      have h0 := hex.slots.written
      rw [hrest.server, hrest.semWritten,
        hnone (P := Pc.isPostWritten) rfl fun _ => rfl] at h0
      intro i hi hst
      exact tally_eq_zero.mp h0 i hi (Status.isWritten_eq.mpr hst)
    have hfree := hex.slots.free
    rw [hrest.server, hnone (P := Pc.isScan) rfl fun _ => rfl,
      hnone (P := Pc.isPostFree) rfl fun _ => rfl, hex.laid.nitems] at hfree
    simp only [Listen.owesFree, Bool.toNat_false, Nat.add_zero] at hfree
    have hall : (∀ i < nitems, s.status i = .free) ↔
        s.semFree + debtOf nitems = nitems := by
      rw [← hfree, tally_eq_self]
      simp only [Status.isFree_eq]
    rw [← debtOf_eq_zero, hall]
    have hblocks : (∀ i < nitems, s.status i = .free) ↔ ∀ c < calls.ncalls, ∀ ret,
        s.client c = .returned ret → (calls.call c).Converts itemSize := by
      rw [← hex.laid.itemSize, ← hex.laid.nitems]
      refine ⟨fun hst c hc ret hret => ?_, fun hok i hi => ?_⟩
      · refine (returned_owner hown hj hret fun i hi => ?_).mp fun i hi => ?_
        · rw [hst i (hown.life i c hi).2.1]
          exact ⟨by decide, by decide⟩
        · exact (hown.life i c hi).2.2.status_ne (hst i (hown.life i c hi).2.1)
      · cases ho : (history ls).owner i with
        | none => exact (hown.loose i ho).1
        | some c =>
            obtain ⟨hc, -, hl⟩ := hown.life i c ho
            rcases hrest.calls c hc with hpc | ⟨ret, hpc⟩
            · exact absurd ho (hown.idle_of_early (by rw [hpc]; rfl) i)
            · refine absurd ho
                ((returned_owner hown hj hpc fun k hk => ?_).mpr (hok c hc ret hpc) i)
              exact ⟨hwritten k (hown.life k c hk).2.1,
                hown.not_executing hrest.server hk⟩
    rw [← hblocks, hall]
    omega

end Rest

theorem slots_returned_iff_oneRound :
    ∃ s ls, run (step oneCall) (initial 1 16) oneRound = some (s, ls) ∧ AtRest oneCall s ∧
      (∀ i < 1, s.status i = .free) ∧ s.semFree = 1 := by
  have hrun : ((run (step oneCall) (initial 1 16) oneRound).map fun p =>
      (p.1.client 0, p.1.server, p.1.semWritten))
        = some (.returned (-EEXIST), .wait, 0) := by
    decide +kernel
  obtain ⟨⟨s, ls⟩, h, hend⟩ := Option.map_eq_some_iff.mp hrun
  obtain ⟨hpc, hsrv, hsem⟩ : s.client 0 = .returned (-EEXIST) ∧ s.server = .wait ∧
    s.semWritten = 0 := by
    simpa using hend
  have hrest : AtRest oneCall s := by
    refine ⟨fun c hc => Or.inr ⟨-EEXIST, ?_⟩, hsrv, hsem⟩
    rw [Nat.lt_one_iff.mp hc]
    exact hpc
  have hok : (convertTo 16 (.raw [7])).2 = true := by decide +kernel
  have hslots := ((slots_returned_iff 1 16 oneCall oneRound s ls h).2 hrest).mpr
    ⟨by decide, fun _ _ _ _ => hok⟩
  exact ⟨s, ls, h, hrest, hslots.1, hslots.2⟩

/-- One call whose request does not have the buffer key. -/
def bareCall : Calls := ⟨1, fun _ => ⟨.none, 1, none, .missing⟩⟩

/-- The call returns an error, its block stays WRITING and the token is gone. -/
theorem missing_buffer_leaks_slot :
    ∃ s ls, run (step bareCall) (initial 1 16) (List.replicate 3 (.client 0))
      = some (s, ls) ∧
      AtRest bareCall s ∧ ¬ ((∀ i < 1, s.status i = .free) ∧ s.semFree = 1) := by
  have hrun : ((run (step bareCall) (initial 1 16) (List.replicate 3 (.client 0))).map
      fun p =>
        (p.1.client 0, p.1.server, p.1.semWritten, p.1.status 0))
      = some (.returned (errorCode EMODULE 263), .wait, 0, .writing) := by
    decide +kernel
  obtain ⟨⟨s, ls⟩, h, hend⟩ := Option.map_eq_some_iff.mp hrun
  obtain ⟨hpc, hsrv, hsem, hst⟩ : s.client 0 = .returned (errorCode EMODULE 263) ∧
    s.server = .wait ∧
      s.semWritten = 0 ∧ s.status 0 = .writing := by
    simpa using hend
  refine ⟨s, ls, h, ⟨fun c hc => Or.inr ⟨errorCode EMODULE 263, ?_⟩, hsrv, hsem⟩,
    fun hfree => ?_⟩
  · rw [Nat.lt_one_iff.mp hc]
    exact hpc
  · have h0 := hfree.1 0 Nat.zero_lt_one
    rw [hst] at h0
    cases h0

end Frozen.Ipc
