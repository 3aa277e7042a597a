/-
# `Frozen.Rewrite.Points` — the points of an execution

The loop of the interpreter and the recursion over blocks both say how a script ends.
What happens on the way is said by steps: at a point there are the actions still to
come, those of a block that is entered in front of those behind its condition, and the
trace so far.

    ablock_ok_iff       the loop ends after its last action exactly where the steps do
    Reaches.outcome     from every point on the way it ends as from the start
-/
import Frozen.Rewrite.Blocks
import Mathlib.Logic.Relation

namespace Frozen.Rewrite

open Lib Relation

section

variable {σ : Type} (fx : Effects σ)

/-! ## Steps -/

/-- What is still to be executed, and the trace. -/
abbrev Point (σ : Type) := List Action × Trace σ

inductive Step : Point σ → Point σ → Prop
  | simple {a : Simple} {rest : List Action} {t t' : Trace σ} :
      execute fx a t = .ok t' → Step (.simple a :: rest, t) (rest, t')
  | ifTaken {param1 : Thing} {block rest : List Action} {t : Trace σ} :
      (fx.isNotNull param1 t.state).1 = true →
        Step (.langIf param1 block :: rest, t) (block ++ rest, t.ask fx param1)
  | ifSkipped {param1 : Thing} {block rest : List Action} {t : Trace σ} :
      (fx.isNotNull param1 t.state).1 = false →
        Step (.langIf param1 block :: rest, t) (rest, t.skip fx param1)
  | ifnotTaken {param1 : Thing} {block rest : List Action} {t : Trace σ} :
      (fx.isNotNull param1 t.state).1 = false →
        Step (.langIfnot param1 block :: rest, t) (block ++ rest, t.ask fx param1)
  | ifnotSkipped {param1 : Thing} {block rest : List Action} {t : Trace σ} :
      (fx.isNotNull param1 t.state).1 = true →
        Step (.langIfnot param1 block :: rest, t) (rest, t.skip fx param1)

/-- The points of the execution of a script. -/
def Reaches (script : List Action) (s : σ) (p : Point σ) : Prop :=
  ReflTransGen (Step fx) (script, ⟨s, []⟩) p

/-- A condition that looks at `param1` and whose block is not taken. -/
inductive Skips (t : Trace σ) (param1 : Thing) : Action → Prop
  | langIf {block : List Action} : (fx.isNotNull param1 t.state).1 = false →
    Skips t param1 (.langIf param1 block)
  | langIfnot {block : List Action} :
      (fx.isNotNull param1 t.state).1 = true → Skips t param1 (.langIfnot param1 block)

end

/-! ## The loop and its points -/

section

variable {σ : Type} {fx : Effects σ}

theorem runActions_cons (a : Action) (rest : List Action) (t : Trace σ) :
    runActions fx (a :: rest) t = (runAction fx a t).bind (runActions fx rest) := by
  rw [runActions]
  cases runAction fx a t <;> rfl

theorem runActions_append (block rest : List Action) :
    ∀ t, runActions fx (block ++ rest) t = (runActions fx block t).bind
      (runActions fx rest) := by
  induction block with
  | nil =>
      intro t
      rw [List.nil_append, runActions]
      rfl
  | cons a block ih =>
      intro t
      rw [List.cons_append, runActions_cons, runActions_cons]
      cases runAction fx a t with
      | error exit => rfl
      | ok t' => exact ih t'

/-- A step leaves open how the script ends. -/
theorem Step.run {p q : Point σ} (h : Step fx p q) :
    runActions fx p.1 p.2 = runActions fx q.1 q.2 := by
  cases h with
  | simple hexec =>
      rw [runActions_cons, runAction, hexec]
      rfl
  | ifTaken hnull => rw [runActions_append, runActions_cons, runAction, if_pos hnull]
  | ifSkipped hnull =>
      rw [runActions_cons, runAction, hnull]
      rfl
  | ifnotTaken hnull =>
      rw [runActions_append, runActions_cons, runAction, hnull]
      rfl
  | ifnotSkipped hnull =>
      rw [runActions_cons, runAction, if_pos hnull]
      rfl

/-- From every point on the way the script ends as from the start. -/
theorem Reaches.outcome {script : List Action} {s : σ} {p : Point σ}
    (h : Reaches fx script s p) :
    Returns (fun n => rewriteFuncAblock fx n script s) (runActions fx p.1 p.2) := by
  have hrun : runActions fx script ⟨s, []⟩ = runActions fx p.1 p.2 := by
    induction h with
    | refl => rfl
    | tail _ hstep ih => exact ih.trans hstep.run
  rw [← hrun]
  exact loops_run fx script ⟨s, []⟩

mutual

/-- An action that does not leave the function is passed. -/
theorem steps_of_action :
    ∀ (a : Action) (rest : List Action) (t t' : Trace σ), runAction fx a t = .ok t' →
    ReflTransGen (Step fx) (a :: rest, t) (rest, t')
  | .simple a, rest, t, t', h => .single (.simple h)
  | .langIf param1 block, rest, t, t', h => by
      rw [runAction] at h
      split at h
      · next hnull => exact .head (.ifTaken hnull) (steps_of_actions block rest _ t' h)
      · next hnull =>
          cases h
          exact .single (.ifSkipped (Bool.not_eq_true _ ▸ hnull))
  | .langIfnot param1 block, rest, t, t', h => by
      rw [runAction] at h
      split at h
      · next hnull =>
          cases h
          exact .single (.ifnotSkipped hnull)
      · next hnull =>
          exact .head (.ifnotTaken (Bool.not_eq_true _ ▸ hnull))
            (steps_of_actions block rest _ t' h)

theorem steps_of_actions : ∀ (block rest : List Action) (t t' : Trace σ),
    runActions fx block t = .ok t' →
    ReflTransGen (Step fx) (block ++ rest, t) (rest, t')
  | [], rest, t, t', h => by
      cases h
      exact .refl
  | a :: block, rest, t, t', h => by
      rw [runActions] at h
      split at h
      · cases h
      · next t'' hfirst =>
          exact (steps_of_action a (block ++ rest) t t'' hfirst).trans
            (steps_of_actions block rest t'' t' h)

end

/-- The loop ends after its last action exactly where the steps do. -/
theorem ablock_ok_iff {script : List Action} {s : σ} {t : Trace σ} :
    Returns (fun n => rewriteFuncAblock fx n script s) (.ok t) ↔
      Reaches fx script s ([], t) := by
  constructor
  · intro h
    have hrun := (loops_run fx script ⟨s, []⟩).unique h
    have hsteps := steps_of_actions script [] _ t hrun
    rwa [List.append_nil] at hsteps
  · exact fun h => h.outcome

end

end Frozen.Rewrite
