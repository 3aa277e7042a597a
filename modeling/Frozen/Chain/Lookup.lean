/-
# `Frozen.Chain.Lookup` — what index/lookup makes of an index's answer

The documentation has three cases: the index has the key, and the value is passed on; it
has not, and void data is passed on; it fails, and the request is stopped.
`lookup_handler` tells them apart by what `backend_query` returns.  But that is 0 for
every code of a handler except `-EBADF`: the others are stored under HK(ret).  So the
handler's `-ENOENT` and all its errors are taken for the first case, and what the output
item was allocated with is passed on as the value.

    lookup_forwards_iff   the answers of an index that are understood
-/
import Frozen.Chain.Signal

namespace Frozen.Chain

variable {D W : Type}

section

variable (L : DataLayer D)

/-- A backend whose handler for a READ is `index`. -/
def Serves (query : Sem D W) (index : Handler D W) : Prop :=
  ∀ (request : Request D) (s : State W), request.find .action = some (L.action .read) →
    query request s = override L (index.call request s)

theorem serves_hash (index : Handler D W) (childs : List (Sem D W)) :
    Serves L (backendQuery L (.hash index.call) childs) index := fun _ _ _ => rfl

/-! ## The three cases -/

/-- `r_query`. -/
def rQuery (u : LookupUserdata) (output : D) (request : Request D) : Request D :=
  [(.action, L.action .read), (u.output, output)] ++ request

/-- A handler that does not fail; `-EEXIST` says that HK(ret) is set already. -/
def Success (ret : Int) : Prop := 0 ≤ ret ∨ ret = -EEXIST

/-- The value that the index leaves in the output item. -/
def written (u : LookupUserdata) (index : Handler D W) (output : D)
    (request : Request D) (s : State W) : D :=
  ((index.call (rQuery L u output request) s).request.find u.output).getD L.void

/-- What the documentation says of the request, for the answer of the index handler:
the childs get it with the value, or with void data, or it does not depend on them
and is an error. -/
def Forwards (u : LookupUserdata) (query : Sem D W) (index : Handler D W) (output : D)
    (request : Request D) (s : State W) : Prop :=
  let o := index.call (rQuery L u output request) s
  let rest := (override L o).request.drop 2
  (Success o.ret → ∀ pass, lookupHandler L u query pass request s =
      orExist (withFront [(u.output, written L u index output request s)] pass
        rest o.state)) ∧
    (o.ret = -ENOENT → ∀ pass, lookupHandler L u query pass request s =
      orExist (withFront [(u.output, L.void)] pass rest o.state)) ∧
    (¬ Success o.ret → o.ret ≠ -ENOENT →
      ∃ out : Out D W, out.ret < 0 ∧ ∀ pass, lookupHandler L u query pass request s = out)

/-- Answers that are understood: a value, unless the code is stored over it; a missing
key, if the output item is void anyway; `-EBADF`. -/
def Understood (u : LookupUserdata) (index : Handler D W) (output : D)
    (request : Request D) (s : State W) : Prop :=
  let ret := (index.call (rQuery L u output request) s).ret
  let value := written L u index output request s
  (Success ret ∧ (u.output = .ret → ret ≠ -EEXIST → L.transfer ret value = value)) ∨
    (ret = -ENOENT ∧ (if u.output = .ret then L.transfer ret value else value)
      = L.void) ∨ ret = -EBADF

end

section

variable {L : DataLayer D} {u : LookupUserdata} {query : Sem D W} {index : Handler D W}
  {output : D}
variable {request : Request D} {s : State W}

theorem find_isSome_of_mem {r : Request D} {key : Key} (h : key ∈ r.keys) :
    (r.find key).isSome := by
  induction r with
  | nil => cases h
  | cons item r ih =>
      obtain ⟨k, d⟩ := item
      rw [Request.find]
      by_cases hk : k = key
      · rw [if_pos hk]
        rfl
      · rw [if_neg hk]
        exact ih ((List.mem_cons.mp h).resolve_left (Ne.symm hk))

/-- The output item is there, whatever the index does. -/
theorem find_output : (index.call (rQuery L u output request) s).request.find u.output =
    some (written L u index output request s) := by
  have hkeys : (index.call (rQuery L u output request) s).request.keys
      = (rQuery L u output request).keys :=
    Request.keys_assign
  have hmem : u.output ∈ (index.call (rQuery L u output request) s).request.keys := by
    rw [hkeys]
    simp [rQuery, Request.keys]
  obtain ⟨d, hd⟩ := Option.isSome_iff_exists.mp (find_isSome_of_mem hmem)
  rw [written, hd]
  rfl

/-- What is found under the output key when the code has been stored. -/
theorem find_override :
    ((override L (index.call (rQuery L u output request) s)).request.find
      u.output).getD L.void =
    if u.output = .ret ∧ (index.call (rQuery L u output request) s).ret ≠ -EBADF ∧
        (index.call (rQuery L u output request) s).ret ≠ -EEXIST then
      L.transfer (index.call (rQuery L u output request) s).ret
        (written L u index output request s)
    else written L u index output request s := by
  have hfind := @find_output _ _ L u index output request s
  generalize index.call (rQuery L u output request) s = o at *
  unfold override
  by_cases hbad : o.ret = -EBADF
  · rw [if_pos hbad, if_neg fun h => h.2.1 hbad, hfind]
    rfl
  · by_cases hexist : o.ret = -EEXIST
    · rw [if_neg hbad, if_pos hexist, if_neg fun h => h.2.2 hexist, hfind]
      rfl
    · rw [if_neg hbad, if_neg hexist]
      by_cases hret : u.output = .ret
      · rw [if_pos ⟨hret, hbad, hexist⟩]
        rw [hret] at hfind ⊢
        rw [Request.find_modify_self, hfind]
        rfl
      · rw [if_neg fun h => hret h.1, Request.find_modify_of_ne hret, hfind]
        rfl

theorem override_ret {o : Out D W} (h : o.ret ≠ -EBADF) :
    (override L o).ret = 0 ∧ (override L o).state = o.state := by
  unfold override
  rw [if_neg h]
  split_ifs <;> exact ⟨rfl, rfl⟩

/-- `lookup_handler`, when it asks the index. -/
theorem lookupHandler_asks (hserves : Serves L query index)
    (hquery : u.forceQuery ≠ 0 ∨ (request.find u.output).isNone)
    (halloc : L.alloc u.outputType = some output) (pass : Sem D W) :
    let o := index.call (rQuery L u output request) s
    lookupHandler L u query pass request s =
      if o.ret = -EBADF then fail o.ret (o.request.drop 2) o.state
      else orExist (withFront
        [(u.output, ((override L o).request.find u.output).getD L.void)] pass
        ((override L o).request.drop 2) o.state) := by
  intro o
  have hrun : query (rQuery L u output request) s = override L o := hserves _ s rfl
  rw [rQuery] at hrun
  simp only [lookupHandler, if_pos hquery, halloc, hrun]
  by_cases hbad : o.ret = -EBADF
  · have hover : override L o = o := if_pos hbad
    rw [hover, hbad, if_pos rfl, if_neg (by decide), if_neg (by decide)]
    exact if_pos (by decide : -EBADF < 0)
  · obtain ⟨hret, hstate⟩ := @override_ret _ _ L o hbad
    rw [if_neg hbad, hret, if_pos rfl, hstate]

/-- A child that fails is seen. -/
theorem ret_withFront {front rest : Request D} {st : State W} {pass : Sem D W}
    (h : (pass (front ++ rest) st).ret < 0) :
    (orExist (withFront front pass rest st)).ret = (pass (front ++ rest) st).ret := by
  have hkept : orExist (withFront front pass rest st) = withFront front pass rest st :=
    if_pos h
  rw [hkept]
  rfl

/-- Passing on shows what is passed on. -/
theorem withFront_iff {key : Key} {a b : D} {rest : Request D} {st : State W} :
    (∀ pass : Sem D W, orExist (withFront [(key, a)] pass rest st)
      = orExist (withFront [(key, b)] pass rest st)) ↔ a = b := by
  classical
  refine ⟨fun h => ?_, fun h pass => by rw [h]⟩
  by_contra hne
  let pass : Sem D W :=
    fun request s => ⟨if request = (key, a) :: rest then -1 else -2, request, s⟩
  have hother : (key, b) :: rest ≠ (key, a) :: rest :=
    fun heq => hne (Prod.mk.inj (List.cons.inj heq).1).2.symm
  have ha : (pass ([(key, a)] ++ rest) st).ret = -1 := if_pos rfl
  have hb : (pass ([(key, b)] ++ rest) st).ret = -2 := if_neg hother
  have hpass := congrArg Out.ret (h pass)
  rw [ret_withFront (by rw [ha]; decide), ret_withFront (by rw [hb]; decide), ha, hb]
    at hpass
  exact absurd hpass (by decide)

/-- And what comes back depends on the childs. -/
theorem withFront_depends (front rest : Request D) (st : State W) :
    ¬ ∃ out : Out D W, out.ret < 0 ∧ ∀ pass : Sem D W,
      orExist (withFront front pass rest st) = out := by
  rintro ⟨out, -, hout⟩
  let pass (ret : Int) : Sem D W := fun request s => ⟨ret, request, s⟩
  have hsame := congrArg Out.ret ((hout (pass (-1))).trans (hout (pass (-2))).symm)
  rw [ret_withFront (by decide : (-1 : Int) < 0),
    ret_withFront (by decide : (-2 : Int) < 0)] at hsame
  exact absurd hsame (by decide : (-1 : Int) ≠ -2)

/-- **The three cases** are told apart exactly for the answers that are understood. -/
theorem lookup_forwards_iff (hserves : Serves L query index)
    (hquery : u.forceQuery ≠ 0 ∨ (request.find u.output).isNone)
    (halloc : L.alloc u.outputType = some output) :
    Forwards L u query index output request s ↔
      Understood L u index output request s := by
  have hasks := fun pass => @lookupHandler_asks _ _ L u query index output request s
      hserves hquery halloc pass
  have hfind := @find_override _ _ L u index output request s
  unfold Forwards Understood
  generalize index.call (rQuery L u output request) s = o at *
  generalize written L u index output request s = value at *
  by_cases hbad : o.ret = -EBADF
  · have hfail : ¬ Success o.ret ∧ o.ret ≠ -ENOENT := by
      rw [hbad]
      exact ⟨by unfold Success; decide, by decide⟩
    refine iff_of_true ⟨fun h => absurd h hfail.1, fun h => absurd h hfail.2,
      fun _ _ => ?_⟩ (.inr (.inr hbad))
    refine ⟨fail o.ret (o.request.drop 2) o.state, ?_,
      fun pass => (hasks pass).trans (if_pos hbad)⟩
    rw [hbad]
    exact (by decide : -EBADF < 0)
  · -- every other answer is passed on, with what is found then
    have hpassed : ∀ pass, lookupHandler L u query pass request s =
        orExist (withFront [(u.output, if u.output = .ret ∧ o.ret ≠ -EEXIST
          then L.transfer o.ret value else value)] pass
          ((override L o).request.drop 2) o.state) := by
      intro pass
      rw [hasks pass, if_neg hbad, hfind]
      simp only [ne_eq, hbad, not_false_eq_true, true_and]
    simp only [hpassed, withFront_iff, or_iff_left hbad]
    by_cases hnone : o.ret = -ENOENT
    · have hfail : ¬ Success o.ret := by
        rw [hnone]
        unfold Success
        decide
      have hexist : o.ret ≠ -EEXIST := by
        rw [hnone]
        decide
      have hstored : (if u.output = .ret ∧ o.ret ≠ -EEXIST then L.transfer o.ret value
          else value) =
          if u.output = .ret then L.transfer o.ret value else value :=
        if_congr (and_iff_left hexist) rfl rfl
      rw [hstored]
      constructor
      · exact fun h => .inr ⟨hnone, h.2.1 hnone⟩
      · rintro (⟨hok, -⟩ | ⟨-, hvoid⟩)
        · exact absurd hok hfail
        · exact ⟨fun hok => absurd hok hfail, fun _ => hvoid,
            fun _ hno => absurd hnone hno⟩
    · by_cases hok : Success o.ret
      · constructor
        · intro h
          have hvalue := h.1 hok
          refine .inl ⟨hok, fun hret hexist => ?_⟩
          rwa [if_pos ⟨hret, hexist⟩] at hvalue
        · rintro (⟨-, hvalue⟩ | ⟨hret, -⟩)
          · refine ⟨fun _ => ?_, fun hret => absurd hret hnone, fun hno => absurd hok hno⟩
            by_cases hstored : u.output = .ret ∧ o.ret ≠ -EEXIST
            · rw [if_pos hstored]
              exact hvalue hstored.1 hstored.2
            · rw [if_neg hstored]
          · exact absurd hret hnone
      · refine iff_of_false (fun h => ?_) ?_
        · exact withFront_depends _ _ _ (h.2.2 hok hnone)
        · rintro (⟨hyes, -⟩ | ⟨hret, -⟩)
          · exact hok hyes
          · exact hnone hret

end

/-! ## A small lookup -/

def offsetLookup : LookupUserdata :=
  { forceQuery := 0, output := .offset, outputType := 0 }

/-- Childs that answer -2 to a number under HK(offset), and -1 to void data. -/
def seesOffset : Sem (Option Int) Unit := fun request s =>
  ⟨match request.find .offset with
    | some (some _) => -2
    | some none => -1
    | none => 0, request, s⟩

/-- An index without the key, and one that fails: the childs get the
request, with a number. -/
theorem lookup_missing_key :
    (¬ Forwards numbers offsetLookup ((answering (-ENOENT)).query numbers)
      (answering (-ENOENT)) (some 0) [] ⟨(), []⟩ ∧
      (lookupHandler numbers offsetLookup ((answering (-ENOENT)).query numbers)
        seesOffset [] ⟨(), []⟩).ret = -2) ∧
    ¬ Forwards numbers offsetLookup ((answering (-EINVAL)).query numbers)
      (answering (-EINVAL)) (some 0) [] ⟨(), []⟩ ∧
      (lookupHandler numbers offsetLookup ((answering (-EINVAL)).query numbers)
        seesOffset [] ⟨(), []⟩).ret = -2 := by
  refine ⟨⟨fun h => ?_, by decide⟩, fun h => ?_, by decide⟩
  · have hvoid := congrArg Out.ret (h.2.1 rfl seesOffset)
    exact absurd hvoid (by decide)
  · obtain ⟨out, -, hout⟩ := h.2.2 (by unfold Success; decide) (by decide)
    have hsame := congrArg Out.ret
        ((hout seesOffset).trans (hout fun request s => ⟨-1, request, s⟩).symm)
    exact absurd hsame (by decide)

/-- An index that has the key. -/
def indexOfSeven : Handler (Option Int) Unit := ⟨fun _ w => (0, [(.offset, some 7)], w)⟩

theorem lookup_forwards_iff_seven :
    Forwards numbers offsetLookup (indexOfSeven.query numbers) indexOfSeven (some 0)
      [] ⟨(), []⟩ :=
  (lookup_forwards_iff (serves_hash numbers indexOfSeven []) (.inr rfl) rfl).mpr
  (.inl ⟨.inl le_rfl, fun h => by cases h⟩)

end Frozen.Chain
