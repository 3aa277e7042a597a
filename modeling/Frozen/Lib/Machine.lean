/-
# `Frozen.Lib.Machine` — labelled runs and what they remember

A machine is a partial step function: in a state, an action either is blocked or
gives a next state and a label.  What a run has done so far is a fold of its
labels into a HISTORY that the machine itself does not store.  An invariant may
speak about both (`run_invariant`), and a property of every label of every run is
a property of one step from a state with the invariant (`run_label`), also where only runs
with certain labels are looked at (`run_invariant_of`, `run_label_of`).  A measure that
every step lowers bounds all runs (`run_length_le`).
-/
import Mathlib.Tactic

namespace Frozen.Lib

variable {S A L H : Type}

/-- A run: the actions one after the other, none of them blocked. -/
def run (step : S → A → Option (S × L)) : S → List A → Option (S × List L)
  | s, [] => some (s, [])
  | s, a :: as =>
      match step s a with
      | none => none
      | some (s', l) =>
          match run step s' as with
          | none => none
          | some (s'', ls) => some (s'', l :: ls)

variable {step : S → A → Option (S × L)}

theorem run_cons {s s'' : S} {a : A} {as : List A} {ls : List L}
    (h : run step s (a :: as) = some (s'', ls)) :
    ∃ s' l ls', step s a = some (s', l) ∧ run step s' as = some (s'', ls') ∧
      ls = l :: ls' := by
  rw [run] at h
  cases hstep : step s a with
  | none => simp [hstep] at h
  | some p =>
      obtain ⟨s', l⟩ := p
      cases hrun : run step s' as with
      | none => simp [hstep, hrun] at h
      | some q =>
          obtain ⟨s₂, ls'⟩ := q
          simp only [hstep, hrun, Option.some_inj, Prod.mk.injEq] at h
          exact ⟨s', l, ls', rfl, by rw [hrun, h.1], h.2.symm⟩

/-- A measure that every step from a good state lowers bounds the length of every run. -/
theorem run_length_le {f : S → Nat} {P : S → Prop}
    (hf : ∀ s a s' l, P s → step s a = some (s', l) → P s' ∧ f s' < f s) :
    ∀ {as : List A} {s s' : S} {ls : List L}, P s → run step s as = some (s', ls) →
      as.length ≤ f s
  | [], _, _, _, _, _ => Nat.zero_le _
  | a :: as, s, _, _, hs, hrun => by
      obtain ⟨s', l, ls', ha, hrun', rfl⟩ := run_cons hrun
      obtain ⟨hs', hlt⟩ := hf s a s' l hs ha
      have hrest := run_length_le hf hs' hrun'
      exact lt_of_le_of_lt hrest hlt

section Invariant

variable (next : H → L → H) (Inv : S → H → Prop) (Good : L → Prop)
  (hstep : ∀ s h a s' l, Inv s h → Good l → step s a = some (s', l) → Inv s' (next h l))
include hstep

/-- What one step with a good label preserves, a run with good labels preserves. -/
theorem run_invariant_of : ∀ {as : List A} {s s' : S} {h : H} {ls : List L}, Inv s h →
    (∀ l ∈ ls, Good l) → run step s as = some (s', ls) → Inv s' (ls.foldl next h)
  | [], _, _, _, _, hinv, _, hrun => by
      cases hrun
      exact hinv
  | a :: as, s, s'', h, _, hinv, hgood, hrun => by
      obtain ⟨s', l, ls', ha, hrun', rfl⟩ := run_cons hrun
      obtain ⟨hl, hls'⟩ := List.forall_mem_cons.mp hgood
      show Inv s'' (ls'.foldl next (next h l))
      exact run_invariant_of (hstep s h a s' l hinv hl ha) hls' hrun'

/-- What holds of every step from a state with the invariant holds at every label
behind good ones. -/
theorem run_label_of {P : H → L → Prop}
    (hP : ∀ s h a s' l, Inv s h → step s a = some (s', l) → P h l) :
    ∀ {as : List A} {s s' : S} {h : H} {pre post : List L} {l : L}, Inv s h →
      (∀ l ∈ pre, Good l) →
      run step s as = some (s', pre ++ l :: post) → P (pre.foldl next h) l
  | [], _, _, _, pre, _, _, _, _, hrun => by
      have hnil := congrArg Prod.snd (Option.some_inj.mp hrun)
      exact absurd hnil (by simp)
  | a :: as, s, s'', h, pre, post, l, hinv, hgood, hrun => by
      obtain ⟨s', l', ls', ha, hrun', heq⟩ := run_cons hrun
      cases pre with
      | nil =>
          cases heq
          exact hP s h a s' l hinv ha
      | cons l₀ pre =>
          obtain ⟨rfl, rfl⟩ := List.cons.inj heq
          obtain ⟨hl, hpre⟩ := List.forall_mem_cons.mp hgood
          show P (pre.foldl next (next h l₀)) l
          exact run_label_of hP (hstep s h a s' l₀ hinv hl ha) hpre hrun'

end Invariant

section Invariant

variable (next : H → L → H) (Inv : S → H → Prop)
  (hstep : ∀ s h a s' l, Inv s h → step s a = some (s', l) → Inv s' (next h l))
include hstep

/-- What one step preserves, a run preserves. -/
theorem run_invariant {as : List A} {s s' : S} {h : H} {ls : List L} (hinv : Inv s h)
    (hrun : run step s as = some (s', ls)) : Inv s' (ls.foldl next h) :=
  run_invariant_of next Inv (fun _ => True)
    (fun s h a s' l hs _ => hstep s h a s' l hs) hinv (fun _ _ => trivial) hrun

/-- What holds of every step from a state with the invariant holds at every label. -/
theorem run_label {P : H → L → Prop}
    (hP : ∀ s h a s' l, Inv s h → step s a = some (s', l) → P h l) {as : List A}
    {s s' : S} {h : H} {pre post : List L} {l : L} (hinv : Inv s h)
    (hrun : run step s as = some (s', pre ++ l :: post)) : P (pre.foldl next h) l :=
  run_label_of next Inv (fun _ => True)
    (fun s h a s' l hs _ => hstep s h a s' l hs) hP hinv (fun _ _ => trivial) hrun

end Invariant

end Frozen.Lib
