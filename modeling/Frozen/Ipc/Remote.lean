/-
# `Frozen.Ipc.Remote` — requests that are handled in another process

`request/implode` over `communication/ipc` on one side, `communication/ipc` over
`request/explode` on the other: a call sends the binary form of its request through the
block it has acquired, the server makes the request of what is there, has it handled and
writes what has become of it over the block.

What the server makes of a block is a relation between its bytes before and after.  In
every interleaving a call reads back what is related to its own request
(`run_readBack`), which says nothing about hashes; with `explode_answers` of
`Frozen.Binary.Remote` it follows that a call that goes through the segment leaves its
caller the request as a handler has left it, as a call without the segment does.

    remote_call   the calls and the server in any interleaving
-/
import Frozen.Binary.Remote
import Frozen.Ipc.Exchange

namespace Frozen.Ipc

open Frozen.Lib Frozen.Binary

/-! ## What is made of a block -/

/-- The bytes start with what the call has converted. -/
def Sends (calls : Calls) (itemSize c : Nat) (bytes : Nat → UInt8) : Prop :=
  ∀ k < (convertTo itemSize (calls.call c).buffer).1.length,
    bytes k = (convertTo itemSize (calls.call c).buffer).1.getD k 0

/-- A step that runs a request makes of it what the relation allows. -/
def Label.Runs (R : (Nat → UInt8) → (Nat → UInt8) → Prop) (l : Label) : Prop :=
  ∀ i input output, l = .execute i input output → R input output

/-- A call that has converted its request. -/
def Pc.told : Pc → Bool
  | .setResult _ | .casWritten _ => true
  | _ => false

/-- What has been sent is what was converted, and what is left was made of it. -/
structure Served (R : (Nat → UInt8) → (Nat → UInt8) → Prop) (calls : Calls)
    (itemSize : Nat) (s : State) (h : History) : Prop where
  told : ∀ c, (s.client c).told = true ∨ h.published c = true →
  Sends calls itemSize c (h.sent c)
  answered : ∀ c, h.runs c = 1 → ∃ input, R input (h.left c) ∧
  Sends calls itemSize c input

section

variable {R : (Nat → UInt8) → (Nat → UInt8) → Prop} {calls : Calls}
  {nitems itemSize : Nat} {s s' : State} {h : History} {l : Label}

/-- A step in which call `c` sends and publishes nothing that it has not. -/
theorem Served.frame {c : Nat} {pc : Pc} {h' : History} (hs : Served R calls itemSize s h)
    (hclient : s'.client = Function.update s.client c pc)
    (hother : ∀ d, d ≠ c → h'.published d = h.published d) (hpc : pc.told = true ∨
      h'.published c = true → (s.client c).told = true ∨ h.published c = true)
    (hsent : h'.sent = h.sent) (hruns : h'.runs = h.runs) (hleft : h'.left = h.left) :
    Served R calls itemSize s' h' := by
  refine ⟨fun d hd => ?_, fun d hd => ?_⟩
  · rw [hsent]
    refine hs.told d ?_
    rw [hclient] at hd
    by_cases hdc : d = c
    · subst hdc
      rw [Function.update_self] at hd
      exact hpc hd
    · rwa [Function.update_of_ne hdc, hother d hdc] at hd
  · rw [hleft]
    exact hs.answered d (hruns ▸ hd)

theorem served_client {c : Nat} (hs : Served R calls itemSize s h)
    (hsound : Sound calls itemSize h l) (hmove : ClientMove (calls.call c) c s s' l) :
    Served R calls itemSize s' (h.next l) := by
  cases hmove with
  | convert i hpc hok bytes hb =>
      refine ⟨fun d hd => ?_, hs.answered⟩
      simp only [History.next, State.setClient] at hd ⊢
      by_cases hdc : d = c
      · subst hdc
        rw [Function.update_self]
        exact hsound
      · rw [Function.update_of_ne hdc] at hd ⊢
        exact hs.told d hd
  | setResult i hpc =>
      exact hs.frame rfl (fun _ _ => rfl) (fun _ => .inl (by rw [hpc]; rfl)) rfl rfl rfl
  | publish i hpc hst =>
      exact hs.frame rfl (fun d hd => Function.update_of_ne hd _ _)
        (fun _ => .inl (by rw [hpc]; rfl)) rfl rfl rfl
  | post i hpc =>
      refine hs.frame rfl (fun _ _ => rfl) ?_ rfl rfl rfl
      split_ifs <;> exact Or.imp_left fun hpc => by cases hpc
  | wake i hpc hsem =>
      refine hs.frame rfl (fun _ _ => rfl) ?_ rfl rfl rfl
      split_ifs <;> exact Or.imp_left fun hpc => by cases hpc
  | start | hit | miss | null | fail | lost | readBack | release | strange | done =>
      exact hs.frame rfl (fun _ _ => rfl) (Or.imp_left fun hpc => by cases hpc)
        rfl rfl rfl

theorem served_server {output : Nat → UInt8} (hs : Served R calls itemSize s h)
    (hsound : Sound calls itemSize h l) (hruns : l.Runs R)
    (hmove : ServerMove output s s' l) : Served R calls itemSize s' (h.next l) := by
  cases hmove with
  | execute i hpc =>
      obtain ⟨c, ho, hpub, hzero, hinput⟩ := hsound
      have hnext : h.next (.execute i (s.content i) output) =
          { h with runs := Function.update h.runs c (h.runs c + 1)
                   left := Function.update h.left c output } := by
        simp only [History.next, ho]
      rw [hnext]
      refine ⟨hs.told, fun d hd => ?_⟩
      dsimp only at hd ⊢
      by_cases hdc : d = c
      · subst hdc
        rw [Function.update_self]
        refine ⟨s.content i, hruns i _ _ rfl, fun k hk => ?_⟩
        rw [hinput k (lt_of_lt_of_le hk (length_convertTo_le _ _))]
        exact hs.told d (.inr hpub) k hk
      · rw [Function.update_of_ne hdc] at hd ⊢
        exact hs.answered d hd
  | finish i new hpc hst => split_ifs <;> exact ⟨hs.told, hs.answered⟩
  | post i new hpc => cases new <;> exact ⟨hs.told, hs.answered⟩
  | start | hit | miss | null | readResult | lost => exact ⟨hs.told, hs.answered⟩

theorem ServerMove.ne_readBack {output : Nat → UInt8}
    (hmove : ServerMove output s s' l) (c i : Nat) (content : Nat → UInt8) :
    l ≠ .readBack c i content := by
  cases hmove with
  | finish i new hpc hst => split_ifs <;> exact fun h => by cases h
  | _ => exact fun h => by cases h

/-- What is said of a call that reads back. -/
def ReadsAnswer (R : (Nat → UInt8) → (Nat → UInt8) → Prop) (calls : Calls)
    (itemSize : Nat) (l : Label) : Prop :=
  ∀ c i content, l = .readBack c i content → c < calls.ncalls ∧
    ∃ input output, R input output ∧ Sends calls itemSize c input ∧ ∀ k < itemSize,
      content k = output k

/-- **Answers.**  Over a fresh segment whose data areas do not overlap, in every
interleaving of any number of calls with a server that makes of a block what `R` allows,
what a call reads back was made of the bytes that the call itself has sent. -/
theorem run_readBack (hfit : Fits nitems itemSize) {acts : List Act} {ls : List Label}
    (hrun : run (step calls) (initial nitems itemSize) acts = some (s, ls))
    (hruns : ∀ l ∈ ls, l.Runs R) (hmem : l ∈ ls) : ReadsAnswer R calls itemSize l := by
  obtain ⟨pre, post, rfl⟩ := List.append_of_mem hmem
  have hpre : ∀ l ∈ pre, l.Runs R := fun l hl => hruns l (List.mem_append_left _ hl)
  refine run_label_of History.next
    (fun s h => (Exchange calls nitems itemSize s h ∧ ∀ i d, h.owner i = some d →
      Carries s h i d) ∧ Served R calls itemSize s h)
    (Label.Runs R) ?_ (P := fun _ l => ReadsAnswer R calls itemSize l) ?_ (h := .empty)
    ?_ hpre hrun
  · rintro s h a s' l ⟨hinv, hs⟩ hl hstep
    obtain ⟨hinv', hsound⟩ := carries_step hfit hinv hstep
    refine ⟨hinv', ?_⟩
    rcases step_move hstep with ⟨c, -, hmove⟩ | ⟨output, hmove⟩
    · exact served_client hs hsound hmove
    · exact served_server hs hsound hl hmove
  · rintro s h a s' l ⟨hinv, hs⟩ hstep c i content rfl
    obtain ⟨-, hone, hleft⟩ := (carries_step hfit hinv hstep).2
    obtain ⟨input, hinput, hsends⟩ := hs.answered c hone
    refine ⟨?_, input, h.left c, hinput, hsends, hleft⟩
    rcases step_move hstep with ⟨d, hd, hmove⟩ | ⟨output, hmove⟩
    · cases hmove
      exact hd
    · exact absurd rfl (hmove.ne_readBack c i content)
  · refine ⟨⟨exchange_initial _ _ _, fun i d h => nomatch h⟩, fun c hc => ?_,
      fun c hc => nomatch hc⟩
    rcases hc with hc | hc <;> cases hc

end

/-! ## Remote calls -/

/-- A call of `request/implode`: the request, its values, and what the conversion writes
for its pointers. -/
structure RemoteCall where
  request : Hash Place
  vals : Nat → Value
  addr : Nat → UInt64
  tag : Nat → UInt64
  forcedState : ForcedState
  returnResult : UInt64
  async : Option UInt64

def RemoteCall.values (r : RemoteCall) : Hash Value := r.request.withValues r.vals

/-- The call of `ipc_shmem_query`; the buffer is a `hash_t`. -/
def RemoteCall.call (r : RemoteCall) : Call :=
  ⟨r.forcedState, r.returnResult, r.async, .other (r.values.image r.addr r.tag) true⟩

/-- The bytes of a block. -/
def block (itemSize : Nat) (content : Nat → UInt8) : List UInt8 :=
  (List.range itemSize).map content

@[simp] theorem length_block (itemSize : Nat) (content : Nat → UInt8) :
    (block itemSize content).length = itemSize := by
  simp [block]

theorem block_congr {itemSize : Nat} {content content' : Nat → UInt8}
    (h : ∀ k < itemSize, content k = content' k) :
    block itemSize content = block itemSize content' :=
  List.map_congr_left fun k hk => h k (List.mem_range.mp hk)

/-- `request/explode` runs on a block, over a handler that makes of a request what
`serves` allows. -/
def Explodes (serves : Hash Data → Hash Data → Prop) (itemSize : Nat)
    (input output : Nat → UInt8) : Prop :=
  ∃ addr tag fresh handler ret, (∀ g, serves g (handler g).2) ∧
    explodeRequest addr tag fresh handler true (some (block itemSize input))
      = .ok (ret, some (block itemSize output))

theorem take_block_of_sends {calls : Calls} {itemSize c : Nat} {bytes : Nat → UInt8}
    {r : RemoteCall} (hcall : calls.call c = r.call) (hroom : r.values.room ≤ itemSize)
    (hsends : Sends calls itemSize c bytes) :
    (block itemSize bytes).take r.values.room = r.values.image r.addr r.tag := by
  have hlen : (r.values.image r.addr r.tag).length = r.values.room := Hash.length_image
  have hconvert : (convertTo itemSize (calls.call c).buffer).1
      = r.values.image r.addr r.tag := by
    rw [hcall]
    exact List.take_of_length_le (hlen.le.trans hroom)
  rw [Sends, hconvert] at hsends
  refine List.ext_getElem (by simp [hlen, hroom]) fun k hk hk' => ?_
  simp only [block, List.getElem_take, List.getElem_map, List.getElem_range]
  rw [hsends k hk']
  exact (List.getElem_eq_getD 0).symm

/-- **Remote calls.**  In every interleaving of any number of calls with a server whose
backend is `request/explode`: what a call reads back, decoded in place, gives every key
of its request the value that a handler has given it in that very request, whatever the
other calls are and wherever they stand. -/
theorem remote_call (nitems itemSize : Nat) (hfit : Fits nitems itemSize)
    (hmax : itemSize ≤ maxObject) (serves : Hash Data → Hash Data → Prop)
    (hplace : ∀ g g', serves g g' → g.InPlace g') (ncalls : Nat)
    (calls : Nat → RemoteCall) (hcalls : ∀ c < ncalls,
      Callable (calls c).request (calls c).vals ∧ (calls c).values.room ≤ itemSize)
    (acts : List Act) (s : State) (ls : List Label)
    (hrun : run (step ⟨ncalls, fun c => (calls c).call⟩) (initial nitems itemSize) acts
      = some (s, ls))
    (hserver : ∀ l ∈ ls, l.Runs (Explodes serves itemSize)) (c i : Nat)
    (content : Nat → UInt8) (hread : .readBack c i content ∈ ls) :
    ∃ g, serves (calls c).values.received g ∧
      ∀ fresh, ∃ ctx, hashConvertFrom fresh (some (calls c).request)
        (fun l => ((calls c).vals l).data)
          (block itemSize content) = .ok ctx ∧
        ∀ key p, (calls c).request.find key = some p →
        (ctx.mem p.loc).value = (g.find key).bind Data.value := by
  obtain ⟨hc, input, output, hruns, hsends, hcontent⟩ :=
    run_readBack hfit hrun hserver hread c i content rfl
  obtain ⟨addr, tag, fresh, handler, ret, hserves, hexplode⟩ := hruns
  obtain ⟨hcallable, hroom⟩ := hcalls c hc
  have htake := take_block_of_sends (r := calls c) rfl hroom hsends
  obtain ⟨block', hblock', hback⟩ := explode_answers hcallable (by simpa using hmax)
    htake addr tag fresh handler (hplace _ _ (hserves _))
  rw [hexplode] at hblock'
  obtain rfl : block itemSize output = block' := by
    cases hblock'
    rfl
  rw [block_congr hcontent]
  exact ⟨_, hserves _, hback⟩

/-- One more than every number. -/
def successor : Data → Data
  | .int t (some x) => .int t (some (x + 1))
  | d => d

theorem intType_successor (d : Data) : (successor d).intType = d.intType := by
  cases d with
  | int t ptr => cases ptr <;> rfl
  | string ptr => rfl
  | raw ptr => rfl

/-- The two numbers of `pairSample` in one call. -/
def pairCall : RemoteCall :=
  ⟨pairSample, pairValues, fun _ => 0, fun _ => 0, .none, 1, none⟩

/-- The block as the server leaves it: 6 and 7. -/
def pairAnswer : List UInt8 :=
  (pairSample.withValues fun l => if l = 0 then .int .uint 6 else .int .uint32 7).image
  (fun _ => 0) fun _ => 0

def pairRound : List Act :=
  List.replicate 6 (.client 0) ++ List.replicate 6 (.server fun k => pairAnswer.getD k 0)
    ++ List.replicate 4 (.client 0)

/-- What the two transfers of the round are. -/
def Label.ofPair : Label → Bool
  | .execute _ input output =>
      block 84 input = pairCall.values.image pairCall.addr pairCall.tag ∧
      block 84 output = pairAnswer
  | _ => true

def Label.isReadBack : Label → Bool
  | .readBack c _ _ => c = 0
  | _ => false

theorem remote_call_pair :
    ∃ s ls, run (step ⟨1, fun _ => pairCall.call⟩) (initial 1 84) pairRound
      = some (s, ls) ∧ ∃ i content, .readBack 0 i content ∈ ls ∧
        ∀ fresh, ∃ ctx, hashConvertFrom fresh (some pairSample)
          (fun l => (pairValues l).data)
            (block 84 content) = .ok ctx ∧
          (ctx.mem 0).value = some (.int .uint 6) ∧
          (ctx.mem 1).value = some (.int .uint32 7) := by
  have hrun : ((run (step ⟨1, fun _ => pairCall.call⟩) (initial 1 84) pairRound).map
      fun p =>
      (p.2.all Label.ofPair, p.2.any Label.isReadBack)) = some (true, true) := by
    decide +kernel
  obtain ⟨⟨s, ls⟩, h, hlabels⟩ := Option.map_eq_some_iff.mp hrun
  obtain ⟨hpair, l, hl, hread⟩ : (∀ l ∈ ls, l.ofPair = true) ∧ ∃ l ∈ ls,
    l.isReadBack = true := by
    simpa using hlabels
  obtain ⟨i, content, rfl⟩ : ∃ i content, l = .readBack 0 i content := by
    cases l with
    | readBack c i content =>
        obtain rfl : c = 0 := by simpa [Label.isReadBack] using hread
        exact ⟨i, content, rfl⟩
    | _ => cases hread
  have hexplode : (explodeRequest (fun _ => 0) (fun _ => 0) (fun _ _ => 0)
      (fun g => (0, g.map successor)) true
      (some (pairCall.values.image pairCall.addr pairCall.tag))).toOption
        = some (0, some pairAnswer) := by
    decide +kernel
  have hplace : ∀ g : Hash Data, g.InPlace (g.map successor) := by
    intro g
    rw [Hash.InPlace, Hash.map_map]
    exact Hash.map_congr fun p _ => intType_successor p.2
  have hserver : ∀ l ∈ ls, l.Runs (Explodes (fun g g' => g' = g.map successor) 84) := by
    rintro l hl i input output rfl
    have hblocks : block 84 input = pairCall.values.image pairCall.addr pairCall.tag ∧
        block 84 output = pairAnswer := by
      simpa [Label.ofPair] using hpair _ hl
    refine ⟨fun _ => 0, fun _ => 0, fun _ _ => 0, fun g => (0, g.map successor), 0,
      fun _ => rfl, ?_⟩
    rw [hblocks.1, hblocks.2]
    cases hx : explodeRequest (fun _ => 0) (fun _ => 0) (fun _ _ => 0)
      (fun g => (0, g.map successor)) true
        (some (pairCall.values.image pairCall.addr pairCall.tag)) with
    | error e =>
        rw [hx] at hexplode
        cases hexplode
    | ok r =>
        rw [hx] at hexplode
        cases hexplode
        rfl
  have hcalls : ∀ c < 1, Callable pairCall.request pairCall.vals ∧
      pairCall.values.room ≤ 84 := by
    refine fun c _ => ⟨⟨trivial, by decide,
      fun t ht => (nomatch ht), by decide, by decide, ?_⟩, by decide⟩
    exact pairSample_holdsInts
  obtain ⟨g, rfl, hback⟩ := remote_call 1 84 (by unfold Fits; decide) (by decide)
    (fun g g' => g' = g.map successor)
    (by rintro g _ rfl; exact hplace g) 1 (fun _ => pairCall) hcalls pairRound s ls h
    hserver 0 i content hl
  refine ⟨s, ls, h, i, content, hl, fun fresh => ?_⟩
  obtain ⟨ctx, hctx, hvalues⟩ := hback fresh
  exact ⟨ctx, hctx, hvalues ⟨1, regular_one⟩ ⟨.int .uint, 0⟩ rfl,
    hvalues ⟨2, regular_two⟩ ⟨.int .uint32, 1⟩ rfl⟩

end Frozen.Ipc
