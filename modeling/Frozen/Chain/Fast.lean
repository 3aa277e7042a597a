/-
# `Frozen.Chain.Fast` — fast requests

A fast request is passed on as long as the backends have API_FAST and no fast handler;
from the first backend without API_FAST on it is a hash request.  The two ways to pass a
request to childs were written twice: `backend_pass` goes on to the next child in any
case, and the last failure counts; `backend_fast_pass` returns at the first one.

What a backend reports to a hash request is put into `HK(ret)` by `backend_query`, over
what the childs before it have reported.

The request walks over the tree unfolding of the graph.  What it does depends on what
the handlers answer on the way, which is written down at the backends (`annotate`).

    fast_same_iff   when a fast request reaches the handlers of the hash request
                    and reports their failure
-/
import Frozen.Core.Base
import Frozen.Lib.Unfold

namespace Frozen.Chain.Fast

open Lib

variable {V W : Type}

/-! ## Backends -/

/-- The requests that have a fast and a hash form. -/
inductive FastAction where
  | create | read | write | delete | count
deriving DecidableEq, Repr

/-- What a handler answers, and what it does to the world, which the
request is a part of. -/
abbrev Handle (W : Type) := W → Int × W

/-- `supported_api` and the handlers; inside of `some`, `none` is `NULL`. -/
structure Apis (W : Type) where
  hash : Option (Option (Handle W))
  crwd : Option (FastAction → Option (Handle W))
  fast : Option (Option (Handle W))

/-- The `func` of `backend_query`. -/
def Apis.func (a : Apis W) (action : FastAction) : Option (Handle W) :=
  match a.hash with
  | some func => func
  | none => a.crwd.bind fun table => table action

/-- A call of a handler. -/
structure Call (V : Type) where
  backend : V
  answer : Int
  fast : Bool
deriving DecidableEq, Repr

/-- The world, `HK(ret)`, and the calls so far. -/
structure Trail (V W : Type) where
  world : W
  ret : Int
  log : List (Call V)

def Trail.call (s : Trail V W) (v : V) (fast : Bool) (h : Handle W) : Int × Trail V W :=
  ((h s.world).1,
    { s with world := (h s.world).2, log := s.log ++ [⟨v, (h s.world).1, fast⟩] })

/-! ## Hash requests -/

/-- What `backend_query` makes of what the handler answers. -/
def override (r : Int × Trail V W) : Int × Trail V W :=
  if r.1 = -EBADF then r
  else if r.1 = -EEXIST then (0, r.2)
  else (0, { r.2 with ret := r.1 })

section

variable (apis : V → Apis W) (action : FastAction)

/-- `backend_query`, given `backend_pass` to the childs. -/
def queryWith (pass : Trail V W → Int × Trail V W) (v : V) (s : Trail V W) :
    Int × Trail V W :=
  match (apis v).func action with
  | some h => override (s.call v false h)
  | none => pass s

/-- The loop of `backend_pass`; `ret` is the last failure. -/
def passLoop : Branches V → Int → Trail V W → Int × Trail V W
  | .nil, ret, s => (ret, s)
  | .cons v below rest, ret, s =>
      let r := queryWith apis action
        (fun s => if below.isNil then (-ENOSYS, s) else passLoop below 0 s) v s
      passLoop rest (if r.1 < 0 then r.1 else ret) r.2

def backendPass (childs : Branches V) (s : Trail V W) : Int × Trail V W :=
  if childs.isNil then (-ENOSYS, s) else passLoop apis action childs 0 s

def backendQuery (v : V) (childs : Branches V) : Trail V W → Int × Trail V W :=
  queryWith apis action (backendPass apis action childs) v

/-! ## Fast requests -/

/-- `backend_downgrade_request`, with a `HK(ret)` of its own. -/
def backendDowngradeRequest (v : V) (childs : Branches V) (s : Trail V W) :
    Int × Trail V W :=
  let r := backendQuery apis action v childs { s with ret := 0 }
  if r.1 < 0 then r else (r.2.ret, r.2)

/-- `backend_fast_query`, given `backend_fast_pass` to the childs. -/
def fastQueryWith (pass : Trail V W → Int × Trail V W) (v : V) (childs : Branches V)
    (s : Trail V W) : Int × Trail V W :=
  match (apis v).fast with
  | none => backendDowngradeRequest apis action v childs s
  | some none => pass s
  | some (some h) => s.call v true h

/-- The loop of `backend_fast_pass`. -/
def fastPassLoop : Branches V → Trail V W → Int × Trail V W
  | .nil, s => (0, s)
  | .cons v below rest, s =>
      let r := fastQueryWith apis action
        (fun s => if below.isNil then (-ENOSYS, s) else fastPassLoop below s) v below s
      if r.1 < 0 then r else fastPassLoop rest r.2

def backendFastPass (childs : Branches V) (s : Trail V W) : Int × Trail V W :=
  if childs.isNil then (-ENOSYS, s) else fastPassLoop apis action childs s

def backendFastQuery (v : V) (childs : Branches V) : Trail V W → Int × Trail V W :=
  fastQueryWith apis action (backendFastPass apis action childs) v childs

/-! ## What it should do -/

/-- The handler reports a failure; `-EEXIST` of a hash handler reports nothing. -/
def Call.Negative (c : Call V) : Prop :=
  c.answer < 0 ∧ (c.fast = false → c.answer ≠ -EEXIST)

/-- The handlers of the hash request are called, and a failure is reported if and only
if one of them does. -/
def Same (v : V) (childs : Branches V) (w : W) : Prop :=
  (backendFastQuery apis action v childs ⟨w, 0, []⟩).2.log.map Call.backend
      = (backendQuery apis action v childs ⟨w, 0, []⟩).2.log.map Call.backend ∧
    ((backendFastQuery apis action v childs ⟨w, 0, []⟩).1 < 0 ↔
      ∃ c ∈ (backendFastQuery apis action v childs ⟨w, 0, []⟩).2.log, c.Negative)

end

/-! ## What the handlers answer -/

/-- A backend, with what its handler answers when the request gets there. -/
structure Station (V : Type) where
  backend : V
  answer : Int
deriving DecidableEq, Repr

/-- No handler is called there. -/
def quiet (f : Branches V) : Branches (Station V) := f.map fun v => ⟨v, 0⟩

section

variable (apis : V → Apis W) (action : FastAction)

def annotateHash : Branches V → W → Branches (Station V) × W
  | .nil, w => (.nil, w)
  | .cons v below rest, w =>
      match (apis v).func action with
      | some h =>
          let r := annotateHash rest (h w).2
          (.cons ⟨v, (h w).1⟩ (quiet below) r.1, r.2)
      | none =>
          let b := annotateHash below w
          let r := annotateHash rest b.2
          (.cons ⟨v, 0⟩ b.1 r.1, r.2)

/-- All handlers that a fast request can come to answer, one after the other. -/
def annotate : Branches V → W → Branches (Station V) × W
  | .nil, w => (.nil, w)
  | .cons v below rest, w =>
      match (apis v).fast with
      | some (some h) =>
          let r := annotate rest (h w).2
          (.cons ⟨v, (h w).1⟩ (quiet below) r.1, r.2)
      | some none =>
          let b := annotate below w
          let r := annotate rest b.2
          (.cons ⟨v, 0⟩ b.1 r.1, r.2)
      | none =>
          match (apis v).func action with
          | some h =>
              let r := annotate rest (h w).2
              (.cons ⟨v, (h w).1⟩ (quiet below) r.1, r.2)
          | none =>
              let b := annotateHash apis action below w
              let r := annotate rest b.2
              (.cons ⟨v, 0⟩ b.1 r.1, r.2)

end

/-! ## Judgements about the answers -/

/-- What is at the place of the fast handler. -/
inductive Kind where
  | handler | passing | downgraded
deriving DecidableEq, Repr

def Apis.kind (a : Apis W) : Kind :=
  match a.fast with
  | none => .downgraded
  | some none => .passing
  | some (some _) => .handler

/-- There is a handler for the hash request. -/
def Apis.Handles (a : Apis W) (action : FastAction) : Prop :=
  (a.func action).isSome = true

instance (a : Apis W) (action : FastAction) : Decidable (a.Handles action) :=
  inferInstanceAs (Decidable ((a.func action).isSome = true))

section

variable (apis : V → Apis W) (action : FastAction)

/-- The calls of a hash request. -/
def hashCalls : Branches (Station V) → List (Call V)
  | .nil => []
  | .cons s below rest =>
      (if (apis s.backend).Handles action then [⟨s.backend, s.answer, false⟩]
        else hashCalls below) ++ hashCalls rest

/-- The hash request comes to a backend without a handler and without childs. -/
def DeadEnd : Branches (Station V) → Prop
  | .nil => False
  | .cons s below rest =>
      ¬ (apis s.backend).Handles action ∧ (below.isNil = true ∨ DeadEnd below) ∨
      DeadEnd rest

/-- What is in `HK(ret)` in the end: the last report. -/
def lastReport (ret : Int) (calls : List (Call V)) : Int :=
  calls.foldl (fun ret c => if c.answer = -EBADF ∨ c.answer = -EEXIST then ret
    else c.answer) ret

/-- A hash request to a backend fails: there is a dead end, a dead backend, or a failure
that is reported last. -/
def DowngradeFails (s : Station V) (below : Branches (Station V)) : Prop :=
  DeadEnd apis action (.cons s below .nil) ∨
    (∃ c ∈ hashCalls apis action (.cons s below .nil), c.answer = -EBADF) ∨
    lastReport 0 (hashCalls apis action (.cons s below .nil)) < 0

/-- A child fails. -/
def Fails : Branches (Station V) → Prop
  | .nil => False
  | .cons s below rest =>
      (match (apis s.backend).kind with
        | .handler => s.answer < 0
        | .passing => below.isNil = true ∨ Fails below
        | .downgraded => DowngradeFails apis action s below) ∨ Fails rest

/-- The first of the childs fails. -/
def FirstFails (s : Station V) (below : Branches (Station V)) : Prop :=
  match (apis s.backend).kind with
  | .handler => s.answer < 0
  | .passing => below.isNil = true ∨ Fails apis action below
  | .downgraded => DowngradeFails apis action s below

open Classical in
/-- The calls of a fast request. -/
noncomputable def fastCalls : Branches (Station V) → List (Call V)
  | .nil => []
  | .cons s below rest =>
      (match (apis s.backend).kind with
        | .handler => [⟨s.backend, s.answer, true⟩]
        | .passing => fastCalls below
        | .downgraded => hashCalls apis action (.cons s below .nil)) ++
      if FirstFails apis action s below then [] else fastCalls rest

/-- On the way, a backend with API_FAST has a fast handler exactly if it has one for
the hash request. -/
def Twofold : Branches (Station V) → Prop
  | .nil => True
  | .cons s below rest =>
      (match (apis s.backend).kind with
        | .handler => (apis s.backend).Handles action
        | .passing => ¬ (apis s.backend).Handles action ∧ Twofold below
        | .downgraded => True) ∧
      (¬ FirstFails apis action s below → Twofold rest)

/-- The childs behind one that fails lead to no handler. -/
def NoneBehind : Branches (Station V) → Prop
  | .nil => True
  | .cons s below rest =>
      ((apis s.backend).kind = .passing → NoneBehind below) ∧
      (FirstFails apis action s below → hashCalls apis action rest = []) ∧
      (¬ FirstFails apis action s below → NoneBehind rest)

/-- A failure is reported to a backend without API_FAST, and another
report comes over it. -/
def Overwritten : Branches (Station V) → Prop
  | .nil => False
  | .cons s below rest =>
      (match (apis s.backend).kind with
        | .handler => False
        | .passing => Overwritten below
        | .downgraded => ¬ DowngradeFails apis action s below ∧
            ∃ c ∈ hashCalls apis action (.cons s below .nil), c.Negative) ∨
      ¬ FirstFails apis action s below ∧ Overwritten rest

/-- The child that fails does so without a handler that reports it: the way ends there. -/
def Unreported : Branches (Station V) → Prop
  | .nil => False
  | .cons s below rest =>
      FirstFails apis action s below ∧
        (match (apis s.backend).kind with
          | .handler => False
          | .passing => below.isNil = true ∨ Unreported below
          | .downgraded => ¬ ∃ c ∈ hashCalls apis action (.cons s below .nil),
              c.Negative) ∨
      ¬ FirstFails apis action s below ∧ Unreported rest

/-- What the two ways have to have in common. -/
structure Agreeing (t : Branches (Station V)) : Prop where
  twofold : Twofold apis action t
  noneBehind : NoneBehind apis action t
  kept : ¬ Fails apis action t → ¬ Overwritten apis action t
  reported : Fails apis action t → Unreported apis action t → Overwritten apis action t

end

/-! ## The hash request -/

section

variable {apis : V → Apis W} {action : FastAction}

theorem lastReport_append (ret : Int) (cs ds : List (Call V)) :
    lastReport ret (cs ++ ds) = lastReport (lastReport ret cs) ds := List.foldl_append ..

theorem override_call (s : Trail V W) (v : V) (h : Handle W) :
    (override (s.call v false h)).2
        = ⟨(h s.world).2, lastReport s.ret [⟨v, (h s.world).1, false⟩],
          s.log ++ [⟨v, (h s.world).1, false⟩]⟩ ∧
      ((override (s.call v false h)).1 < 0 ↔ (h s.world).1 = -EBADF) := by
  have hdead : 0 < EBADF := by decide
  have hne : -EEXIST ≠ -EBADF := by decide
  unfold override Trail.call lastReport
  by_cases hbadf : (h s.world).1 = -EBADF
  · simp [hbadf, hdead]
  · by_cases hexist : (h s.world).1 = -EEXIST
    · simp [hexist, hne]
    · simp [hbadf, hexist]

theorem quiet_map (f : Branches V) : (quiet f).map Station.backend = f := by
  induction f with
  | nil => rfl
  | cons v below rest ih₁ ih₂ =>
      rw [quiet, Branches.map, Branches.map, ← quiet, ← quiet, ih₁, ih₂]

theorem isNil_map {α β : Type} (g : α → β) (f : Branches α) :
    (f.map g).isNil = f.isNil := by
  cases f <;> rfl

theorem isNil_elim {α : Type} {f : Branches α} (h : f.isNil = true) : f = .nil := by
  cases f with
  | nil => rfl
  | cons _ _ _ => cases h

theorem annotateHash_map (apis : V → Apis W) (action : FastAction)
    (f : Branches V) (w : W) :
    (annotateHash apis action f w).1.map Station.backend = f := by
  induction f generalizing w with
  | nil => rfl
  | cons v below rest ih₁ ih₂ =>
      rw [annotateHash]
      cases (apis v).func action with
      | some h => simp only [Branches.map, quiet_map, ih₂]
      | none => simp only [Branches.map, ih₁, ih₂]

theorem isNil_annotateHash (f : Branches V) (w : W) :
    (annotateHash apis action f w).1.isNil = f.isNil := by
  rw [← isNil_map Station.backend, annotateHash_map]

theorem handles_of_some {v : V} {h : Handle W} (hv : (apis v).func action = some h) :
    (apis v).Handles action := by
  rw [Apis.Handles, hv]
  rfl

theorem not_handles_of_none {v : V} (hv : (apis v).func action = none) :
    ¬ (apis v).Handles action := by
  rw [Apis.Handles, hv]
  exact Bool.false_ne_true

theorem exists_mem_append {α : Type} {P : α → Prop} {xs ys : List α} :
    (∃ x ∈ xs ++ ys, P x) ↔ (∃ x ∈ xs, P x) ∨ ∃ x ∈ ys, P x := by
  simp only [List.mem_append, or_and_right, exists_or]

/-- `backend_pass`: all handlers are called, whatever they answer. -/
theorem passLoop_spec (apis : V → Apis W) (action : FastAction) (f : Branches V)
    (ret : Int) (s : Trail V W) : (passLoop apis action f ret s).2
        = ⟨(annotateHash apis action f s.world).2,
            lastReport s.ret
              (hashCalls apis action (annotateHash apis action f s.world).1),
            s.log ++ hashCalls apis action (annotateHash apis action f s.world).1⟩ ∧
      ((passLoop apis action f ret s).1 < 0 ↔ ret < 0 ∨
        DeadEnd apis action (annotateHash apis action f s.world).1 ∨
        ∃ c ∈ hashCalls apis action (annotateHash apis action f s.world).1,
        c.answer = -EBADF) := by
  induction f generalizing ret s with
  | nil => simp [passLoop, annotateHash, hashCalls, DeadEnd, lastReport]
  | cons v below rest ih₁ ih₂ =>
      cases hv : (apis v).func action with
      | some h =>
          have hhandles := handles_of_some hv
          obtain ⟨hstate, hneg⟩ := override_call s v h
          obtain ⟨hrest, hfail⟩ := ih₂ (if (override (s.call v false h)).1 < 0
            then (override (s.call v false h)).1 else ret)
            (override (s.call v false h)).2
          simp only [passLoop, queryWith, annotateHash, hv]
          rw [hstate] at hrest hfail ⊢
          simp only [hashCalls, DeadEnd, hhandles, if_true, not_true_eq_false,
            false_and, false_or,
            List.singleton_append, List.mem_cons, exists_eq_or_imp]
          refine ⟨?_, ?_⟩
          · rw [hrest]
            simp [lastReport]
          · rw [hfail]
            by_cases hbadf : (h s.world).1 = -EBADF
            · have hlt := hneg.mpr hbadf
              simp [hbadf, hlt]
            · simp [mt hneg.mp hbadf, hbadf]
      | none =>
          have hhandles := not_handles_of_none hv
          have hbelow : ∃ ret₁,
              (if below.isNil then (-ENOSYS, s) else passLoop apis action below 0 s)
                = (ret₁, (⟨(annotateHash apis action below s.world).2,
                    lastReport s.ret (hashCalls apis action
                      (annotateHash apis action below s.world).1),
                    s.log ++ hashCalls apis action
                      (annotateHash apis action below s.world).1⟩ : Trail V W)) ∧
              (ret₁ < 0 ↔ (annotateHash apis action below s.world).1.isNil = true ∨
                DeadEnd apis action (annotateHash apis action below s.world).1 ∨
                ∃ c ∈ hashCalls apis action (annotateHash apis action below s.world).1,
                c.answer = -EBADF) := by
            obtain ⟨hstate, hneg⟩ := ih₁ 0 s
            rw [isNil_annotateHash]
            cases hnil : below.isNil with
            | true =>
                have henosys : 0 < ENOSYS := by decide
                cases isNil_elim hnil
                exact ⟨-ENOSYS, by simp [annotateHash, hashCalls, lastReport], by simp [henosys]⟩
            | false =>
                exact ⟨_, Prod.ext rfl hstate, by simpa using hneg⟩
          obtain ⟨ret₁, heq, hneg⟩ := hbelow
          simp only [passLoop, queryWith, annotateHash, hv, heq]
          obtain ⟨hrest, hfail⟩ := ih₂ (if ret₁ < 0 then ret₁ else ret)
            ⟨(annotateHash apis action below s.world).2,
              lastReport s.ret
                (hashCalls apis action (annotateHash apis action below s.world).1),
              s.log ++ hashCalls apis action (annotateHash apis action below s.world).1⟩
          simp only [hashCalls, DeadEnd, hhandles, if_false, not_false_eq_true,
            true_and, exists_mem_append]
          refine ⟨?_, ?_⟩
          · rw [hrest, lastReport_append, List.append_assoc]
          · rw [hfail]
            by_cases hlt : ret₁ < 0
            · rw [if_pos hlt]
              simp only [hlt, true_or, true_iff]
              rcases hneg.mp hlt with hend | hend | hend
              · exact .inr (.inl (.inl (.inl hend)))
              · exact .inr (.inl (.inl (.inr hend)))
              · exact .inr (.inr (.inl hend))
            · rw [if_neg hlt]
              obtain ⟨hempty, hdead, hbadf⟩ :=
                (not_or.trans (and_congr_right' not_or)).mp (mt hneg.mpr hlt)
              simp only [hempty, hdead, hbadf, Bool.false_eq_true, false_or]

theorem passLoop_single (v : V) (childs : Branches V) (s : Trail V W) :
    passLoop apis action (.cons v childs .nil) 0 s
      = (if (backendQuery apis action v childs s).1 < 0
        then (backendQuery apis action v childs s).1 else 0,
          (backendQuery apis action v childs s).2) := rfl

theorem backendQuery_spec (apis : V → Apis W) (action : FastAction) (v : V)
    (childs : Branches V) (s : Trail V W) : (backendQuery apis action v childs s).2
        = ⟨(annotateHash apis action (.cons v childs .nil) s.world).2,
            lastReport s.ret (hashCalls apis action
              (annotateHash apis action (.cons v childs .nil) s.world).1),
            s.log ++ hashCalls apis action
              (annotateHash apis action (.cons v childs .nil) s.world).1⟩ ∧
      ((backendQuery apis action v childs s).1 < 0 ↔
        DeadEnd apis action (annotateHash apis action (.cons v childs .nil) s.world).1 ∨
          ∃ c ∈ hashCalls apis action (annotateHash apis action (.cons v childs .nil)
            s.world).1, c.answer = -EBADF) := by
  obtain ⟨hstate, hneg⟩ := passLoop_spec apis action (.cons v childs .nil) 0 s
  rw [passLoop_single] at hstate hneg
  refine ⟨hstate, ?_⟩
  refine Iff.trans ?_ (hneg.trans (or_iff_right (lt_irrefl 0)))
  by_cases hlt : (backendQuery apis action v childs s).1 < 0
  · simp [hlt]
  · simp [hlt]

/-! ## The fast request -/

theorem fails_cons (a : Station V) (below rest : Branches (Station V)) :
    Fails apis action (.cons a below rest) ↔ FirstFails apis action a below ∨
      Fails apis action rest := by
  rw [Fails, FirstFails]

theorem fails_single (a : Station V) (below : Branches (Station V)) :
    Fails apis action (.cons a below .nil) ↔ FirstFails apis action a below := by
  rw [fails_cons, Fails, or_false]

theorem fastCalls_cons (a : Station V) (below rest : Branches (Station V)) :
    fastCalls apis action (.cons a below rest) = fastCalls apis action
      (.cons a below .nil) ++
      open Classical in if FirstFails apis action a below then []
        else fastCalls apis action rest := by
  simp only [fastCalls, ite_self, List.append_nil]

theorem fastCalls_single (a : Station V) (below : Branches (Station V)) :
    fastCalls apis action (.cons a below .nil) =
      match (apis a.backend).kind with
      | .handler => [⟨a.backend, a.answer, true⟩]
      | .passing => fastCalls apis action below
      | .downgraded => hashCalls apis action (.cons a below .nil) := by
  simp only [fastCalls, ite_self, List.append_nil]

theorem annotate_cons (apis : V → Apis W) (action : FastAction) (v : V)
    (below rest : Branches V) (w : W) :
    ∃ a f w', annotate apis action (.cons v below .nil) w = (.cons a f .nil, w') ∧
      annotate apis action (.cons v below rest) w
        = (.cons a f (annotate apis action rest w').1,
          (annotate apis action rest w').2) := by
  simp only [annotate]
  rcases hfast : (apis v).fast with _ | _ | h
  · cases hv : (apis v).func action with
    | none => exact ⟨_, _, _, rfl, rfl⟩
    | some h => exact ⟨_, _, _, rfl, rfl⟩
  · exact ⟨_, _, _, rfl, rfl⟩
  · exact ⟨_, _, _, rfl, rfl⟩

theorem annotate_map (apis : V → Apis W) (action : FastAction) (f : Branches V) (w : W) :
    (annotate apis action f w).1.map Station.backend = f := by
  induction f generalizing w with
  | nil => rfl
  | cons v below rest ih₁ ih₂ =>
      rw [annotate]
      rcases (apis v).fast with _ | _ | h
      · cases (apis v).func action with
        | none => simp only [Branches.map, annotateHash_map, ih₂]
        | some h => simp only [Branches.map, quiet_map, ih₂]
      · simp only [Branches.map, ih₁, ih₂]
      · simp only [Branches.map, quiet_map, ih₂]

theorem isNil_annotate (f : Branches V) (w : W) :
    (annotate apis action f w).1.isNil = f.isNil := by
  rw [← isNil_map Station.backend, annotate_map]

/-- To a backend without API_FAST a hash request goes. -/
theorem annotate_downgraded {v : V} (hfast : (apis v).fast = none)
    (below : Branches V) (w : W) :
    annotate apis action (.cons v below .nil) w = annotateHash apis action
      (.cons v below .nil) w := by
  simp only [annotate, annotateHash, hfast]

/-- What a fast request does, in the words of the answers. -/
structure Follows (apis : V → Apis W) (action : FastAction) (f : Branches V)
    (s : Trail V W) (r : Int × Trail V W) : Prop where
  fails : r.1 < 0 ↔ Fails apis action (annotate apis action f s.world).1
  log : r.2.log = s.log ++ fastCalls apis action (annotate apis action f s.world).1
  world : ¬ Fails apis action (annotate apis action f s.world).1 →
  r.2.world = (annotate apis action f s.world).2

/-- The downgraded request fails with what is reported last. -/
theorem downgrade_follows {v : V} (hfast : (apis v).fast = none) (childs : Branches V)
    (s : Trail V W) :
    Follows apis action (.cons v childs .nil) s
      (backendDowngradeRequest apis action v childs s) := by
  obtain ⟨hstate, hneg⟩ := backendQuery_spec apis action v childs { s with ret := 0 }
  obtain ⟨a, f, w', ha, -⟩ := annotate_cons apis action v childs .nil s.world
  have hkind : (apis a.backend).kind = .downgraded := by
    have hmap := annotate_map apis action (.cons v childs .nil) s.world
    rw [ha] at hmap
    injection hmap with hback
    rw [hback, Apis.kind, hfast]
  have hfirst : FirstFails apis action a f ↔ DowngradeFails apis action a f := by
    rw [FirstFails, hkind]
  have hcalls : fastCalls apis action (.cons a f .nil) = hashCalls apis action
      (.cons a f .nil) := by
    rw [fastCalls_single, hkind]
  rw [← annotate_downgraded hfast, ha] at hstate hneg
  have hsnd : (backendDowngradeRequest apis action v childs s).2
      = (backendQuery apis action v childs { s with ret := 0 }).2 := by
    unfold backendDowngradeRequest
    by_cases hlt : (backendQuery apis action v childs { s with ret := 0 }).1 < 0
    · simp only [hlt, if_true]
    · simp only [hlt, if_false]
  refine ⟨?_, ?_, ?_⟩
  · rw [ha, fails_single, hfirst, DowngradeFails, ← or_assoc, ← hneg]
    unfold backendDowngradeRequest
    by_cases hlt : (backendQuery apis action v childs { s with ret := 0 }).1 < 0
    · simp only [hlt, if_true, true_or]
    · simp only [hlt, if_false, false_or, hstate]
  · rw [ha, hsnd, hstate, hcalls]
  · intro _
    rw [ha, hsnd, hstate]

theorem kind_of_none {v : V} (hfast : (apis v).fast = some none) :
    (apis v).kind = .passing := by
  rw [Apis.kind, hfast]

theorem fastQuery_follows {v : V} {below : Branches V}
    (hbelow : ∀ s, Follows apis action below s (fastPassLoop apis action below s))
    (s : Trail V W) :
    Follows apis action (.cons v below .nil) s
      (backendFastQuery apis action v below s) := by
  unfold backendFastQuery fastQueryWith
  rcases hfast : (apis v).fast with _ | _ | h
  · exact downgrade_follows hfast below s
  · have hkind := kind_of_none hfast
    have hstation : annotate apis action (.cons v below .nil) s.world
        = (.cons ⟨v, 0⟩ (annotate apis action below s.world).1 .nil,
          (annotate apis action below s.world).2) := by
      simp only [annotate, hfast]
    have hfails : Fails apis action
        (.cons ⟨v, 0⟩ (annotate apis action below s.world).1 .nil) ↔
        below.isNil = true ∨
        Fails apis action (annotate apis action below s.world).1 := by
      rw [fails_single, FirstFails, hkind, isNil_annotate]
    have hcalls : fastCalls apis action
        (.cons ⟨v, 0⟩ (annotate apis action below s.world).1 .nil)
        = fastCalls apis action (annotate apis action below s.world).1 := by
      rw [fastCalls_single, hkind]
    obtain ⟨hfail, hlog, hworld⟩ := hbelow s
    unfold backendFastPass
    cases hnil : below.isNil with
    | true =>
        have henosys : 0 < ENOSYS := by decide
        refine ⟨?_, ?_, ?_⟩
        · simp [hstation, hfails, hnil, henosys]
        · rw [hstation, hcalls, isNil_elim hnil]
          simp [annotate, fastCalls]
        · intro hno
          rw [hstation, hfails, hnil] at hno
          exact absurd (.inl rfl) hno
    | false =>
        refine ⟨?_, ?_, ?_⟩
        · rw [hstation, hfails, hnil, ← hfail]
          simp
        · rw [hstation, hcalls]
          exact hlog
        · intro hno
          rw [hstation, hfails, not_or] at hno
          rw [hstation]
          exact hworld hno.2
  · have hkind : (apis v).kind = .handler := by rw [Apis.kind, hfast]
    have hstation : annotate apis action (.cons v below .nil) s.world
        = (.cons ⟨v, (h s.world).1⟩ (quiet below) .nil, (h s.world).2) := by
      simp only [annotate, hfast]
    refine ⟨?_, ?_, ?_⟩
    · rw [hstation, fails_single, FirstFails, hkind]
      exact Iff.rfl
    · rw [hstation, fastCalls_single, hkind]
      rfl
    · intro _
      rw [hstation]
      rfl

/-- `backend_fast_pass` ends at the first child that fails. -/
theorem fastPassLoop_follows (apis : V → Apis W) (action : FastAction) (f : Branches V)
    (s : Trail V W) : Follows apis action f s (fastPassLoop apis action f s) := by
  induction f generalizing s with
  | nil => exact ⟨iff_of_false (lt_irrefl 0) id, (List.append_nil _).symm, fun _ => rfl⟩
  | cons v below rest ih₁ ih₂ =>
      obtain ⟨hfail, hlog, hworld⟩ := fastQuery_follows (v := v) ih₁ s
      obtain ⟨a, f, w', ha, hcons⟩ := annotate_cons apis action v below rest s.world
      rw [ha, fails_single] at hfail hworld
      rw [ha] at hlog
      have hstep : fastPassLoop apis action (.cons v below rest) s
          = if (backendFastQuery apis action v below s).1 < 0
            then backendFastQuery apis action v below s
            else fastPassLoop apis action rest
              (backendFastQuery apis action v below s).2 := rfl
      rw [hstep]
      by_cases hlt : (backendFastQuery apis action v below s).1 < 0
      · have hfirst := hfail.mp hlt
        rw [if_pos hlt]
        refine ⟨?_, ?_, ?_⟩
        · rw [hcons, fails_cons]
          exact iff_of_true hlt (.inl hfirst)
        · rw [hcons, fastCalls_cons, if_pos hfirst, List.append_nil]
          exact hlog
        · intro hno
          rw [hcons, fails_cons] at hno
          exact absurd (.inl hfirst) hno
      · have hfirst := mt hfail.mpr hlt
        have hw := hworld hfirst
        obtain ⟨hfail₂, hlog₂, hworld₂⟩ := ih₂ (backendFastQuery apis action v below s).2
        rw [hw] at hfail₂ hlog₂ hworld₂
        rw [if_neg hlt]
        refine ⟨?_, ?_, ?_⟩
        · rw [hcons, fails_cons, or_iff_right hfirst]
          exact hfail₂
        · rw [hcons, fastCalls_cons, if_neg hfirst, hlog₂, hlog, List.append_assoc]
        · intro hno
          rw [hcons, fails_cons, or_iff_right hfirst] at hno
          rw [hcons]
          exact hworld₂ hno

/-! ## Failures and their reports -/

theorem negative_fast (v : V) (answer : Int) : (⟨v, answer, true⟩ : Call V).Negative ↔
    answer < 0 :=
  and_iff_left fun h => Bool.noConfusion h

/-- A negative report is one that is not the last, or it comes from the
child that fails. -/
theorem negative_iff (t : Branches (Station V)) :
    (∃ c ∈ fastCalls apis action t, c.Negative) ↔
      Overwritten apis action t ∨ Fails apis action t ∧ ¬ Unreported apis action t := by
  induction t with
  | nil => simp [fastCalls, Overwritten, Fails]
  | cons a below rest ih₁ ih₂ =>
      -- the first child
      have hone : (∃ c ∈ fastCalls apis action (.cons a below .nil), c.Negative) ↔
          Overwritten apis action (.cons a below .nil) ∨
            FirstFails apis action a below ∧
            ¬ Unreported apis action (.cons a below .nil) := by
        simp only [fastCalls_single, Overwritten, FirstFails, Unreported,
          and_false, or_false]
        cases (apis a.backend).kind with
        | handler =>
            simp only [List.mem_singleton, exists_eq_left, negative_fast]
            tauto
        | passing =>
            cases below with
            | nil => simp [fastCalls, Overwritten, Branches.isNil]
            | cons b f g =>
                simp only [Branches.isNil, Bool.false_eq_true, false_or, ih₁]
                tauto
        | downgraded =>
            dsimp only
            generalize DowngradeFails apis action a below = fails
            generalize (∃ c ∈ hashCalls apis action (.cons a below .nil), c.Negative)
              = negative
            tauto
      have hover : Overwritten apis action (.cons a below rest) ↔
          Overwritten apis action (.cons a below .nil) ∨
          ¬ FirstFails apis action a below ∧ Overwritten apis action rest := by
        simp only [Overwritten, and_false, or_false]
      have hunrep : Unreported apis action (.cons a below rest) ↔
          Unreported apis action (.cons a below .nil) ∨
          ¬ FirstFails apis action a below ∧ Unreported apis action rest := by
        simp only [Unreported, and_false, or_false]
      rw [fastCalls_cons, exists_mem_append, hone, fails_cons, hover, hunrep]
      by_cases hfirst : FirstFails apis action a below
      · simp only [hfirst, if_true, List.not_mem_nil, false_and, exists_false,
          or_false, true_and, not_true_eq_false, true_or]
      · have hnone : ¬ Unreported apis action (.cons a below .nil) := by
          simp only [Unreported, hfirst, false_and, and_false, or_false,
            not_false_eq_true]
        simp only [hfirst, if_false, ih₂, false_and, or_false, not_false_eq_true,
          true_and, false_or, hnone, or_assoc]

/-! ## Handlers on the two ways -/

/-- Which handlers a hash request calls does not depend on the answers. -/
theorem hashCalls_backends (apis : V → Apis W) (action : FastAction)
    {t t' : Branches (Station V)}
    (h : t.map Station.backend = t'.map Station.backend) :
    (hashCalls apis action t).map Call.backend = (hashCalls apis action t').map
      Call.backend := by
  induction t generalizing t' with
  | nil =>
      cases t' with
      | nil => rfl
      | cons _ _ _ => cases h
  | cons a below rest ih₁ ih₂ =>
      cases t' with
      | nil => cases h
      | cons a' below' rest' =>
          injection h with hback hbelow hrest
          simp only [hashCalls, List.map_append, ih₂ hrest, hback]
          by_cases hhandles : (apis a'.backend).Handles action
          · simp only [hhandles, if_true, List.map_cons, List.map_nil]
          · simp only [hhandles, if_false, ih₁ hbelow]

theorem handles_of_mem {t : Branches (Station V)} {c : Call V}
    (h : c ∈ hashCalls apis action t) : (apis c.backend).Handles action := by
  induction t with
  | nil => cases h
  | cons a below rest ih₁ ih₂ =>
      rw [hashCalls, List.mem_append] at h
      rcases h with h | h
      · by_cases hhandles : (apis a.backend).Handles action
        · rw [if_pos hhandles, List.mem_singleton] at h
          rw [h]
          exact hhandles
        · rw [if_neg hhandles] at h
          exact ih₁ h
      · exact ih₂ h

theorem mem_post_of_hashCalls {t : Branches (Station V)} {c : Call V}
    (h : c ∈ hashCalls apis action t) : c.backend ∈ (t.map Station.backend).post := by
  induction t with
  | nil => cases h
  | cons a below rest ih₁ ih₂ =>
      rw [hashCalls, List.mem_append] at h
      rw [Branches.map, Branches.post, List.mem_append, List.mem_cons]
      rcases h with h | h
      · by_cases hhandles : (apis a.backend).Handles action
        · rw [if_pos hhandles, List.mem_singleton] at h
          exact .inr (.inl (by rw [h]))
        · rw [if_neg hhandles] at h
          exact .inl (ih₁ h)
      · exact .inr (.inr (ih₂ h))

/-- No handler is called that is not below. -/
theorem mem_post_of_fastCalls {t : Branches (Station V)} {c : Call V}
    (h : c ∈ fastCalls apis action t) : c.backend ∈ (t.map Station.backend).post := by
  induction t with
  | nil => cases h
  | cons a below rest ih₁ ih₂ =>
      rw [fastCalls_cons, List.mem_append] at h
      rw [Branches.map, Branches.post, List.mem_append, List.mem_cons]
      rcases h with h | h
      · rw [fastCalls_single] at h
        cases hkind : (apis a.backend).kind with
        | handler =>
            rw [hkind] at h
            exact .inr (.inl (by rw [List.mem_singleton.mp h]))
        | passing =>
            rw [hkind] at h
            exact .inl (ih₁ h)
        | downgraded =>
            rw [hkind] at h
            have hmem := mem_post_of_hashCalls h
            rw [Branches.map, Branches.post, List.mem_append, List.mem_cons] at hmem
            rcases hmem with hmem | hmem | hmem
            · exact .inl hmem
            · exact .inr (.inl hmem)
            · cases hmem
      · by_cases hfirst : FirstFails apis action a below
        · rw [if_pos hfirst] at h
          cases h
        · rw [if_neg hfirst] at h
          exact .inr (.inr (ih₂ h))

theorem hashCalls_ne_nil {t : Branches (Station V)} (hne : t.isNil = false)
    (hend : ¬ DeadEnd apis action t) : hashCalls apis action t ≠ [] := by
  induction t with
  | nil => cases hne
  | cons a below rest ih _ =>
      rw [DeadEnd, not_or] at hend
      rw [hashCalls]
      by_cases hhandles : (apis a.backend).Handles action
      · rw [if_pos hhandles]
        exact List.cons_ne_nil _ _
      · rw [if_neg hhandles]
        obtain ⟨hfull, hbelow⟩ := not_or.mp (fun hor => hend.1 ⟨hhandles, hor⟩)
        exact List.append_ne_nil_of_left_ne_nil
          (ih (Bool.eq_false_of_not_eq_true hfull) hbelow) _

theorem fastCalls_ne_nil {t : Branches (Station V)} (hne : t.isNil = false)
    (hok : ¬ Fails apis action t) : fastCalls apis action t ≠ [] := by
  induction t with
  | nil => cases hne
  | cons a below rest ih _ =>
      rw [fails_cons, not_or] at hok
      rw [fastCalls_cons]
      refine List.append_ne_nil_of_left_ne_nil ?_ _
      have hfirst := hok.1
      rw [FirstFails] at hfirst
      rw [fastCalls_single]
      cases hkind : (apis a.backend).kind with
      | handler => exact List.cons_ne_nil _ _
      | passing =>
          rw [hkind] at hfirst
          obtain ⟨hfull, hbelow⟩ := not_or.mp hfirst
          exact ih (Bool.eq_false_of_not_eq_true hfull) hbelow
      | downgraded =>
          rw [hkind] at hfirst
          exact hashCalls_ne_nil rfl fun hend => hfirst (.inl hend)

theorem hashCalls_cons (a : Station V) (below rest : Branches (Station V)) :
    hashCalls apis action (.cons a below rest) = hashCalls apis action
      (.cons a below .nil) ++ hashCalls apis action rest := by
  simp only [hashCalls, List.append_nil]

/-- With the handlers at the same places, a fast request misses what is
behind the failures. -/
theorem exists_missed {t : Branches (Station V)} (h : Twofold apis action t) :
    ∃ missed, (hashCalls apis action t).map Call.backend
      = (fastCalls apis action t).map Call.backend ++ missed ∧
      (missed = [] ↔ NoneBehind apis action t) ∧
      (¬ Fails apis action t → missed = []) := by
  induction t with
  | nil => exact ⟨[], rfl, iff_of_true rfl trivial, fun _ => rfl⟩
  | cons a below rest ih₁ ih₂ =>
      obtain ⟨hfirst, hlater⟩ := h
      have hone : ∃ missed, (hashCalls apis action (.cons a below .nil)).map Call.backend
            = (fastCalls apis action (.cons a below .nil)).map Call.backend ++ missed ∧
          (missed = [] ↔
            ((apis a.backend).kind = .passing → NoneBehind apis action below)) ∧
          (¬ FirstFails apis action a below → missed = []) := by
        rw [fastCalls_single, FirstFails]
        cases hkind : (apis a.backend).kind with
        | handler =>
            rw [hkind] at hfirst
            exact ⟨[], by simp [hashCalls, hfirst], by simp, fun _ => rfl⟩
        | passing =>
            rw [hkind] at hfirst
            obtain ⟨missed, heq, hbehind, hnone⟩ := ih₁ hfirst.2
            refine ⟨missed, ?_, by simpa using hbehind,
              fun hok => hnone fun hfails => hok (.inr hfails)⟩
            simpa [hashCalls, hfirst.1] using heq
        | downgraded => exact ⟨[], (List.append_nil _).symm, by simp, fun _ => rfl⟩
      obtain ⟨missed, heq, hbehind, hnone⟩ := hone
      rw [hashCalls_cons, fastCalls_cons, NoneBehind, fails_cons, List.map_append, heq]
      by_cases hfails : FirstFails apis action a below
      · refine ⟨missed ++ (hashCalls apis action rest).map Call.backend, ?_, ?_,
          fun hok => absurd (.inl hfails) hok⟩
        · simp only [hfails, if_true, List.append_nil, List.append_assoc]
        · rw [List.append_eq_nil_iff, List.map_eq_nil_iff, hbehind]
          simp only [hfails, true_implies, not_true_eq_false, false_implies, and_true]
      · obtain ⟨missed', heq', hbehind', hnone'⟩ := ih₂ (hlater hfails)
        have hempty := hnone hfails
        refine ⟨missed', ?_, ?_, fun hok => hnone' (not_or.mp hok).2⟩
        · rw [hempty, heq', if_neg hfails, List.map_append, List.append_nil,
            List.append_assoc]
        · rw [hbehind']
          simp only [hfails, false_implies, not_false_eq_true, true_implies, true_and,
            and_iff_right (hbehind.mp hempty)]

/-- The calls are not the same, and nothing behind makes up for it. -/
def Diverges (apis : V → Apis W) (action : FastAction)
    (t : Branches (Station V)) : Prop :=
  (∃ c ∈ fastCalls apis action t, ¬ (apis c.backend).Handles action) ∨
    ∃ before v after, (hashCalls apis action t).map Call.backend = before ++ v :: after ∧
      ((fastCalls apis action t).map Call.backend = before ∧ Fails apis action t ∨
        ∃ x later, (fastCalls apis action t).map Call.backend = before ++ x :: later ∧
        x ≠ v)

theorem Diverges.ne {t : Branches (Station V)} (h : Diverges apis action t) :
    (fastCalls apis action t).map Call.backend ≠ (hashCalls apis action t).map
      Call.backend := by
  intro heq
  rcases h with ⟨c, hc, hno⟩
    | ⟨before, v, after, hhash, ⟨hfast, -⟩ | ⟨x, later, hfast, hne⟩⟩
  · have hmem : c.backend ∈ (hashCalls apis action t).map Call.backend := by
      rw [← heq]
      exact List.mem_map_of_mem hc
    obtain ⟨d, hd, hback⟩ := List.mem_map.mp hmem
    rw [← hback] at hno
    exact hno (handles_of_mem hd)
  · rw [hhash, hfast] at heq
    simp at heq
  · rw [hhash, hfast, List.append_cancel_left_eq] at heq
    exact hne (List.cons.inj heq).1

/-- A difference of the first child. -/
theorem Diverges.first {a : Station V} {below : Branches (Station V)}
    (h : Diverges apis action (.cons a below .nil)) (rest : Branches (Station V)) :
    Diverges apis action (.cons a below rest) := by
  rw [Diverges, fastCalls_cons, hashCalls_cons, fails_cons, List.map_append,
    List.map_append]
  rw [Diverges, fails_single] at h
  rcases h with ⟨c, hc, hno⟩
    | ⟨before, v, after, hhash, ⟨hfast, hfails⟩ | ⟨x, later, hfast, hne⟩⟩
  · exact .inl ⟨c, List.mem_append_left _ hc, hno⟩
  · refine .inr ⟨before, v, _, by rw [hhash, List.append_assoc, List.cons_append],
      .inl ⟨?_, .inl hfails⟩⟩
    rw [if_pos hfails, hfast, List.map_nil, List.append_nil]
  · have hlonger (ys : List V) : (fastCalls apis action (.cons a below .nil)).map
        Call.backend ++ ys = before ++ x :: (later ++ ys) := by
      rw [hfast, List.append_assoc, List.cons_append]
    exact .inr ⟨before, v, _, by rw [hhash, List.append_assoc, List.cons_append],
      .inr ⟨x, _, hlonger _, hne⟩⟩

/-- A difference of the others, where the first does not fail. -/
theorem Diverges.rest {a : Station V} {below rest : Branches (Station V)}
    (h : Diverges apis action rest) (hok : ¬ FirstFails apis action a below)
    (heq : (fastCalls apis action (.cons a below .nil)).map Call.backend
      = (hashCalls apis action (.cons a below .nil)).map Call.backend) : Diverges apis
    action (.cons a below rest) := by
  rw [Diverges, fastCalls_cons, hashCalls_cons, fails_cons, List.map_append,
      List.map_append, if_neg hok, heq]
  rcases h with ⟨c, hc, hno⟩
    | ⟨before, v, after, hhash, ⟨hfast, hfails⟩ | ⟨x, later, hfast, hne⟩⟩
  · exact .inl ⟨c, List.mem_append_right _ hc, hno⟩
  · refine .inr ⟨_ ++ before, v, after, by rw [hhash, List.append_assoc],
      .inl ⟨by rw [hfast], .inr hfails⟩⟩
  · refine .inr ⟨_ ++ before, v, after, by rw [hhash, List.append_assoc],
      .inr ⟨x, later, ?_, hne⟩⟩
    rw [hfast, List.append_assoc]

/-- Where a backend has one handler of the two, the calls differ. -/
theorem diverges {t : Branches (Station V)} (hapart : (t.map Station.backend).Apart)
    (h : ¬ Twofold apis action t) : Diverges apis action t := by
  induction t with
  | nil => exact absurd trivial h
  | cons a below rest ih₁ ih₂ =>
      obtain ⟨hself, hbelow, hrest⟩ := hapart
      by_cases hone : Twofold apis action (.cons a below .nil)
      · -- the first child is the same on both ways, and the fast request goes on
        have hlater : ¬ FirstFails apis action a below ∧ ¬ Twofold apis action rest := by
          rw [← Classical.not_imp]
          exact fun hgo => h ⟨hone.1, hgo⟩
        obtain ⟨missed, heq, -, hnone⟩ := exists_missed hone
        rw [hnone (mt (fails_single a below).mp hlater.1), List.append_nil] at heq
        exact (ih₂ hrest hlater.2).rest hlater.1 heq.symm
      · refine Diverges.first ?_ rest
        rw [Twofold, not_and] at hone
        rw [Diverges, fastCalls_single, fails_single, FirstFails]
        cases hkind : (apis a.backend).kind with
        | handler =>
            rw [hkind] at hone
            exact .inl ⟨_, List.mem_singleton_self _,
              fun hhandles => hone hhandles fun _ => trivial⟩
        | downgraded =>
            rw [hkind] at hone
            exact absurd (fun _ => trivial) (hone trivial)
        | passing =>
            rw [hkind] at hone
            by_cases hhandles : (apis a.backend).Handles action
            · refine .inr ⟨[], a.backend, [], by simp [hashCalls, hhandles], ?_⟩
              cases hcalls : fastCalls apis action below with
              | nil =>
                  refine .inl ⟨rfl, ?_⟩
                  by_contra hok
                  obtain ⟨hfull, hfails⟩ := not_or.mp hok
                  exact fastCalls_ne_nil (Bool.eq_false_of_not_eq_true hfull)
                    hfails hcalls
              | cons c cs =>
                  refine .inr ⟨c.backend, cs.map Call.backend, rfl, fun hback => hself ?_⟩
                  rw [← hback]
                  exact mem_post_of_fastCalls (hcalls ▸ List.mem_cons_self)
            · have hhash : hashCalls apis action (.cons a below .nil)
                  = hashCalls apis action below := by
                simp only [hashCalls, hhandles, if_false, List.append_nil]
              rw [hhash]
              have hdiff := ih₁ hbelow fun htwo => hone ⟨hhandles, htwo⟩ fun _ => trivial
              rcases hdiff with hcall | ⟨before, v, after, heq, ⟨hfast, hfails⟩ | hother⟩
              · exact .inl hcall
              · exact .inr ⟨before, v, after, heq, .inl ⟨hfast, .inr hfails⟩⟩
              · exact .inr ⟨before, v, after, heq, .inr hother⟩

/-- The handlers are the same exactly if they are at the same places
and none is missed. -/
theorem fastCalls_eq_iff {t : Branches (Station V)}
    (hapart : (t.map Station.backend).Apart) :
    (fastCalls apis action t).map Call.backend = (hashCalls apis action t).map
      Call.backend ↔ Twofold apis action t ∧ NoneBehind apis action t := by
  by_cases htwo : Twofold apis action t
  · obtain ⟨missed, heq, hbehind, -⟩ := exists_missed htwo
    rw [← hbehind, heq, List.self_eq_append_right]
    exact (and_iff_right htwo).symm
  · exact iff_of_false (diverges hapart htwo).ne fun h => htwo h.1

/-! ## The two requests -/

/-- On every acyclic graph, a fast request reaches the handlers of the hash request and
reports their failure exactly if the answers agree with both ways. -/
theorem fast_same_iff {succ : V → List V} (apis : V → Apis W) (action : FastAction)
    (b : V) (below : Branches V) (w : W) (hacyclic : Acyclic succ)
    (hunfolds : Unfolds succ [b] (.cons b below .nil)) :
    Same apis action b below w ↔
      Agreeing apis action (annotate apis action (.cons b below .nil) w).1 := by
  obtain ⟨hfail, hlog, -⟩ :=
    fastQuery_follows (v := b) (fun s => fastPassLoop_follows apis action below s)
      ⟨w, 0, []⟩
  obtain ⟨hstate, -⟩ := backendQuery_spec apis action b below ⟨w, 0, []⟩
  have hmap := annotate_map apis action (.cons b below .nil) w
  have hapart : ((annotate apis action (.cons b below .nil) w).1.map
      Station.backend).Apart := by
    rw [hmap]
    exact hunfolds.apart hacyclic
  have hhash := hashCalls_backends apis action
    ((annotateHash_map apis action (.cons b below .nil) w).trans hmap.symm)
  rw [Same, hfail, hlog, hstate]
  simp only [List.nil_append, hhash, fastCalls_eq_iff hapart, negative_iff]
  generalize (annotate apis action (.cons b below .nil) w).1 = t
  constructor
  · rintro ⟨⟨htwo, hbehind⟩, hneg⟩
    refine ⟨htwo, hbehind, fun hok hover => hok (hneg.mpr (.inl hover)),
      fun hfails hunrep => ?_⟩
    exact (hneg.mp hfails).resolve_right fun h => h.2 hunrep
  · rintro ⟨htwo, hbehind, hkept, hreported⟩
    refine ⟨⟨htwo, hbehind⟩, fun hfails => ?_, fun h => ?_⟩
    · by_cases hunrep : Unreported apis action t
      · exact .inl (hreported hfails hunrep)
      · exact .inr ⟨hfails, hunrep⟩
    · by_contra hok
      exact h.elim (hkept hok) fun h => hok h.1

end

/-! ### A passing backend with two childs -/

def pairSucc (v : Nat) : List Nat := if v = 0 then [1, 2] else []

def pairBelow : Branches Nat := .cons 1 .nil (.cons 2 .nil .nil)

/-- The childs answer both requests the same. -/
def pairApis (first second : Int) (v : Nat) : Apis Unit :=
  if v = 0 then ⟨none, none, some none⟩
  else
    let h : Handle Unit := fun w => (if v = 1 then first else second, w)
    ⟨some (some h), none, some (some h)⟩

theorem pairSucc_acyclic : Acyclic pairSucc := by
  refine acyclic_of_lt fun v w hw => ?_
  unfold pairSucc at hw
  split at hw
  · rcases List.mem_pair.mp hw with rfl | rfl
    · omega
    · omega
  · cases hw

theorem pairSucc_unfolds : Unfolds pairSucc [0] (.cons 0 pairBelow .nil) :=
  .cons (.cons .nil (.cons .nil .nil)) .nil

/-- Two childs that answer get the request either way. -/
theorem fast_same_iff_pair :
    Acyclic pairSucc ∧ Unfolds pairSucc [0] (.cons 0 pairBelow .nil) ∧
      Same (pairApis 7 8) .read 0 pairBelow () := by
  refine ⟨pairSucc_acyclic, pairSucc_unfolds, ?_⟩
  refine (fast_same_iff (pairApis 7 8) .read 0 pairBelow () pairSucc_acyclic
    pairSucc_unfolds).mpr ?_
  have hnone : ¬ Fails (pairApis 7 8) .read
      (annotate (pairApis 7 8) .read (.cons 0 pairBelow .nil) ()).1 := by
    simp [annotate, pairApis, pairBelow, Fails, Apis.kind, quiet, Branches.map,
      Branches.isNil]
  refine ⟨?_, ?_, fun _ => ?_, fun h => absurd h hnone⟩
  · simp [annotate, pairApis, pairBelow, Twofold, Apis.kind, quiet, Branches.map,
      Apis.Handles, Apis.func]
  · simp [annotate, pairApis, pairBelow, NoneBehind, FirstFails, Apis.kind, quiet,
      Branches.map, hashCalls]
  · simp [annotate, pairApis, pairBelow, Overwritten, Apis.kind, quiet, Branches.map]

/-- The first child fails: the hash request goes to the second one as well, the fast
request does not. -/
theorem fast_pass_stops :
    Acyclic pairSucc ∧ Unfolds pairSucc [0] (.cons 0 pairBelow .nil) ∧
      (backendQuery (pairApis (-5) 8) .read 0 pairBelow ⟨(), 0, []⟩).2.log
        = [⟨1, -5, false⟩, ⟨2, 8, false⟩] ∧
      (backendFastQuery (pairApis (-5) 8) .read 0 pairBelow ⟨(), 0, []⟩).2.log
        = [⟨1, -5, true⟩] ∧
      ¬ Same (pairApis (-5) 8) .read 0 pairBelow () := by
  refine ⟨pairSucc_acyclic, pairSucc_unfolds, by decide, by decide, fun h => ?_⟩
  exact absurd h.1 (by decide)

end Frozen.Chain.Fast
