/-
# `Frozen.Rewrite.Persist` — how long an assigned value lasts

What is assigned is a holder, so a variable has the value that its pointer finds.  It
changes with the data: when a handler writes there, when `ret` is assigned to and the
variable is a copy of it, and with every call if the variable has the result of an
earlier one, because all results are in one `action_ret`.  A skipped condition can
assign as well.

    persists   the value lasts until the next assignment, as long as no step does any of that
-/
import Frozen.Rewrite.Assign

namespace Frozen.Rewrite

open Lib Relation

/-! ## Values -/

/-- A variable or a request element. -/
inductive Place where
  | variable (id : Nat)
  | element (arrayKey : UInt64) (id : Nat)
deriving DecidableEq

def Place.thing : Place → Thing
  | .variable id => .variable id
  | .element arrayKey id => .hashElement arrayKey id

/-- What a pointer finds. -/
inductive Contents (β : Type) where
  | null
  | word (x : BitVec 64)
  | object (x : β)
deriving DecidableEq

section

variable {β : Type}

namespace Env

variable (env : Env β)

def contents : Ptr → Contents β
  | .null => .null
  | .ret => .word env.ret
  | .actionRet => .word env.actionRet
  | .object a => .object (env.heap a)

/-- The value of a holder. -/
def value (h : Holder) : TypeId × Contents β := (h.type, env.contents h.ptr)

/-- The value that is read at a place. -/
def reads (P : Place) : Option (TypeId × Contents β) := (env.holder P.thing).map env.value

end Env

variable (w : World β)

/-! ## The condition -/

/-- An action does not change the data of a place that it does not assign to. -/
structure Spares (P : Place) (h : Holder) (a : Simple) (env : Env β) : Prop where
  /-- a call is made only if the place does not have the result of another -/
  result : ∀ r, Calls w env a r → h.ptr ≠ .actionRet
  /-- the handler leaves the place and its data alone -/
  holder : ∀ r, Calls w env a r → r.2.holder P.thing = some h
  contents : ∀ r, Calls w env a r → r.2.contents h.ptr = env.contents h.ptr
  /-- `ret` is assigned to only if the place is no copy of it -/
  ret : a.target = some .ret → h.ptr ≠ .ret

/-- A skipped condition does not: its assignment is harmless, or to something else. -/
def SkipSpares (P : Place) (h : Holder) (param1 : Thing) (s : Locals β) : Prop :=
  Harmless w s.dst param1 s.env ∨ s.dst ≠ some P.thing ∧
  (s.dst = some .ret → h.ptr ≠ .ret)

/-- The next step does not change what is read at the place. -/
def Keeps (P : Place) : Point (Locals β) → Prop
  | ([], _) => True
  | (.simple a :: _, t) => ∀ h, t.state.env.holder P.thing = some h →
      Spares w P h a t.state.env
  | (c :: _, t) => ∀ h param1, t.state.env.holder P.thing = some h →
      Skips (effects w) t param1 c → SkipSpares w P h param1 t.state

/-- The next step assigns to the place. -/
def Assigns (P : Place) : Point (Locals β) → Prop
  | (.simple a :: _, _) => a.target = some P.thing
  | _ => False

/-- In an execution, after an assignment the place has the value that was assigned,
at every later point up to the next assignment to it that is reached by steps which
meet a condition. -/
def Persistent (C : Place → Point (Locals β) → Prop) (script : List Action)
    (s : Locals β) : Prop :=
  ∀ (a : Simple) (rest : List Action) (t t' : Trace (Locals β)) (P : Place)
    (src : Option Holder) (env : Env β),
    Reaches (effects w) script s (.simple a :: rest, t) →
    switch w a t.state.env = .ok (some P.thing, src, env) →
    execute (effects w) a t = .ok t' →
    ∀ later, ReflTransGen (fun p q => Step (effects w) p q ∧ ¬ Assigns P p ∧ C P p)
      (rest, t') later →
      later.2.state.env.reads P = some (env.value (src.getD tempAny))

variable {w}

/-! ## Assignments -/

theorem dataFind_cons_self (request : List (UInt64 × Holder)) (key : UInt64)
    (h : Holder) : dataFind ((key, h) :: request) key = some h := by
  simp [dataFind]

theorem dataFind_cons_of_ne {request : List (UInt64 × Holder)} {key key' : UInt64}
    (h : Holder) (hne : key' ≠ key) :
    dataFind ((key', h) :: request) key = dataFind request key := by
  simp [dataFind, hne]

/-- The pointers of holders find what they found, `ret` apart. -/
theorem contents_assign {dst : Option Thing} {src : Option Holder} {env : Env β} {p : Ptr}
    (hret : dst = some .ret → p ≠ .ret) :
    (assign w dst src env).contents p = env.contents p := by
  cases dst with
  | none => rfl
  | some dst =>
      cases dst with
      | ret =>
          cases p with
          | ret => exact absurd rfl (hret rfl)
          | null => rfl
          | actionRet => rfl
          | object a => rfl
      | hasht i => cases p <;> rfl
      | const i => cases p <;> rfl
      | hashElement key i => cases p <;> rfl
      | «variable» i => cases p <;> rfl

theorem holder_assign_self (P : Place) (src : Option Holder) (env : Env β) :
    (assign w (some P.thing) src env).holder P.thing = some (src.getD tempAny) := by
  cases P with
  | «variable» i => exact congrArg some (Function.update_self ..)
  | element key i =>
      show dataFind (Function.update env.requests i _ i) key = _
      rw [Function.update_self]
      exact dataFind_cons_self ..

theorem holder_assign_of_ne {P : Place} {dst : Option Thing} (hne : dst ≠ some P.thing)
    (src : Option Holder) (env : Env β) :
    (assign w dst src env).holder P.thing = env.holder P.thing := by
  cases dst with
  | none => rfl
  | some dst =>
      cases dst with
      | hasht i => cases P <;> rfl
      | const i => cases P <;> rfl
      | ret => cases P <;> rfl
      | «variable» i =>
          cases P with
          | element key j => rfl
          | «variable» j =>
              have hij : j ≠ i := fun h => hne (by rw [h]; rfl)
              exact congrArg some (Function.update_of_ne hij ..)
      | hashElement key i =>
          cases P with
          | «variable» j => rfl
          | element key' j =>
              show dataFind (Function.update env.requests i _ j) key'
                = dataFind (env.requests j) key'
              by_cases hij : j = i
              · subst hij
                rw [Function.update_self]
                exact dataFind_cons_of_ne _ fun h => hne (by rw [h]; rfl)
              · rw [Function.update_of_ne hij]

/-- What is assigned is read. -/
theorem reads_assign_self (P : Place) (src : Option Holder) (env : Env β) :
    (assign w (some P.thing) src env).reads P = some (env.value (src.getD tempAny)) := by
  have hplace : some P.thing = some Thing.ret → (src.getD tempAny).ptr ≠ .ret := by
    cases P <;> exact fun h => nomatch h
  rw [Env.reads, holder_assign_self]
  exact congrArg (fun c => some ((src.getD tempAny).type, c)) (contents_assign hplace)

/-- A place that keeps its holder, which finds the same, is read as before. -/
theorem reads_congr {P : Place} {env env' : Env β} {h : Holder}
    (hholder : env.holder P.thing = some h) (hholder' : env'.holder P.thing = some h)
    (hcontents : env'.contents h.ptr = env.contents h.ptr) :
    env'.reads P = env.reads P := by
  rw [Env.reads, Env.reads, hholder, hholder']
  exact congrArg (fun c => some (h.type, c)) hcontents

/-! ## Steps -/

theorem perform_ok {a : Simple} {s s' : Locals β} (h : perform w a s = .ok s') :
    ∃ src env, switch w a s.env = .ok (s'.dst, src, env) ∧
      s'.env = assign w s'.dst src env := by
  unfold perform at h
  split at h
  · cases h
  · next hswitch =>
      cases h
      exact ⟨_, _, hswitch, rfl⟩

theorem reads_perform {P : Place} {a : Simple} {s s' : Locals β} {h : Holder}
    (hrun : perform w a s = .ok s') (hholder : s.env.holder P.thing = some h)
    (hne : a.target ≠ some P.thing) (hspares : Spares w P h a s.env) :
    s'.env.reads P = s.env.reads P := by
  obtain ⟨src, env, hswitch, henv⟩ := perform_ok hrun
  obtain ⟨htarget, hcases⟩ := switch_cases hswitch
  rw [← htarget] at hne
  have hret : s'.dst = some .ret → h.ptr ≠ .ret :=
    fun hdst => hspares.ret (htarget ▸ hdst)
  rw [henv]
  obtain rfl | ⟨r, x, hcall, -, rfl⟩ := hcases
  · exact reads_congr hholder ((holder_assign_of_ne hne _ _).trans hholder)
      (contents_assign hret)
  · have hstored : ({ r.2 with actionRet := x } : Env β).holder P.thing = some h := by
      rw [← hspares.holder r hcall]
      cases P <;> rfl
    refine reads_congr hholder ((holder_assign_of_ne hne _ _).trans hstored) ?_
    rw [contents_assign hret, ← hspares.contents r hcall]
    have hresult := hspares.result r hcall
    cases hp : h.ptr with
    | actionRet => exact absurd hp hresult
    | null => rfl
    | ret => rfl
    | object a => rfl

theorem reads_skip {P : Place} {param1 : Thing} {s : Locals β} {h : Holder}
    (hholder : s.env.holder P.thing = some h) (hspares : SkipSpares w P h param1 s) :
    (assign w s.dst (s.env.holder param1) s.env).reads P = s.env.reads P := by
  rcases hspares with hharmless | ⟨hne, hret⟩
  · rw [assign_of_harmless hharmless]
  · exact reads_congr hholder ((holder_assign_of_ne hne _ _).trans hholder)
      (contents_assign hret)

/-- One step that meets the condition. -/
theorem reads_step {P : Place} {p q : Point (Locals β)} {v : TypeId × Contents β}
    (hstep : Step (effects w) p q) (hassigns : ¬ Assigns P p) (hkeeps : Keeps w P p)
    (hreads : p.2.state.env.reads P = some v) : q.2.state.env.reads P = some v := by
  obtain ⟨h, hholder, -⟩ := Option.map_eq_some_iff.mp hreads
  rw [← hreads]
  cases hstep with
  | simple hexec =>
      obtain ⟨-, hrun⟩ := execute_ok hexec
      exact reads_perform hrun hholder hassigns (hkeeps h hholder)
  | ifTaken _ => rfl
  | ifnotTaken _ => rfl
  | ifSkipped hnull => exact reads_skip hholder (hkeeps h _ hholder (.langIf hnull))
  | ifnotSkipped hnull => exact reads_skip hholder (hkeeps h _ hholder (.langIfnot hnull))

/-- **An assigned value lasts** until the next assignment, as long as every step meets the
condition. -/
theorem persists (w : World β) (script : List Action) (s : Locals β) :
    Persistent w (Keeps w) script s := by
  intro a rest t t' P src env _ hswitch hexec later hlater
  induction hlater with
  | refl =>
      obtain ⟨-, hrun⟩ := execute_ok hexec
      obtain ⟨src', env', hswitch', henv⟩ := perform_ok hrun
      obtain ⟨hdst, rfl, rfl⟩ : some P.thing = t'.state.dst ∧ src = src' ∧
        env = env' := by
        simpa using hswitch.symm.trans hswitch'
      rw [← hdst] at henv
      exact (congrArg (Env.reads · P) henv).trans (reads_assign_self P src env)
  | tail _ hstep ih => exact reads_step hstep.1 hstep.2.1 hstep.2.2 ih

end

/-- `var_t x; var_t y; x = query((backend_t)'first', request); y = pass(request);` -/
def queryAndPass : List Action :=
  [.simple ⟨.backendQuery, [.const 0, .hasht 0], some (.variable 2)⟩,
    .simple ⟨.langSet, [.variable 0, .variable 2], none⟩,
    .simple ⟨.backendPass, [.hasht 0], some (.variable 3)⟩,
    .simple ⟨.langSet, [.variable 1, .variable 3], none⟩]

/-- A backend that answers 0. -/
def answersZero : Locals Nat :=
  start (fun id => ⟨.backendt, .object id⟩) [] (fun _ => 0) 0 none

/-- The first variable has the 0 until the request is passed, and then the
`-EEXIST` of that. -/
theorem result_overwritten :
    ¬ Persistent numbers (fun _ _ => True) queryAndPass answersZero := by
  intro hall
  have hfirst : Reaches (effects numbers) queryAndPass answersZero
      (.simple ⟨.langSet, [.variable 0, .variable 2], none⟩ :: queryAndPass.drop 2, _) :=
    .single (.simple rfl)
  have hother : some (Thing.variable 3) ≠ some (Thing.variable 0) := by decide
  have hlast := hall _ _ _ _ (.variable 0) _ _ hfirst rfl rfl _
    (.single ⟨.simple rfl, hother, trivial⟩)
  exact absurd hlast (by decide)

end Frozen.Rewrite
