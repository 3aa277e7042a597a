/-
# `Frozen.Lib.Fuel` — computations that return when they get enough fuel

A recursion that nothing bounds is modelled by a function of the fuel it may use.
`Returns f a` says that it gives `a` for every amount that is large enough; what it
gives is then unique, and sequences of such computations return what their parts do.
`Fails f e` is the same for an error.  `foldlM_preserves` is the invariant rule of a loop
that may fail.
-/
import Mathlib.Tactic

namespace Frozen.Lib

variable {ε α β : Type}

/-- The only way in which a bounded recursion fails. -/
inductive OutOfFuel where
  | outOfFuel
deriving DecidableEq

/-- With enough fuel the result is `a`. -/
def Returns (f : Nat → Except ε α) (a : α) : Prop := ∃ N, ∀ n, N ≤ n → f n = .ok a

theorem Returns.of_forall {f : Nat → Except ε α} {a : α} (h : ∀ n, f n = .ok a) :
    Returns f a :=
  ⟨0, fun n _ => h n⟩

/-- Fuel for a body, and the unit that is spent before it runs. -/
theorem exists_fuel {N n : Nat} (h : N + 1 ≤ n) : ∃ m, n = m + 1 ∧ N ≤ m :=
  ⟨n - 1, by omega, by omega⟩

/-- A recursion spends one unit before its body runs. -/
theorem Returns.of_succ {f : Nat → Except ε α} {a : α}
    (h : Returns (fun n => f (n + 1)) a) : Returns f a := by
  obtain ⟨N, hN⟩ := h
  refine ⟨N + 1, fun n hn => ?_⟩
  obtain ⟨m, rfl⟩ := Nat.exists_eq_add_of_le hn
  rw [Nat.add_right_comm]
  exact hN _ (Nat.le_add_right N m)

theorem Returns.bind {f : Nat → Except ε α} {g : Nat → α → Except ε β} {a : α} {b : β}
    (hf : Returns f a) (hg : Returns (fun n => g n a) b) :
    Returns (fun n => f n >>= g n) b := by
  obtain ⟨N, hN⟩ := hf
  obtain ⟨M, hM⟩ := hg
  refine ⟨max N M, fun n hn => ?_⟩
  simp only [hN n (le_trans (le_max_left N M) hn)]
  exact hM n (le_trans (le_max_right N M) hn)

theorem Returns.map {f : Nat → Except ε α} {a : α} (hf : Returns f a) (g : α → β) :
    Returns (fun n => g <$> f n) (g a) := by
  obtain ⟨N, hN⟩ := hf
  refine ⟨N, fun n hn => ?_⟩
  simp only [hN n hn]
  rfl

/-- A result that is looked at through a function which tells it from the others. -/
theorem returns_map_iff {f : Nat → Except ε α} {g : α → β} {a : α} {b : β}
    (hg : ∀ a', g a' = b ↔ a' = a) :
    Returns (fun n => (f n).map g) b ↔ Returns f a := by
  have hmap : ∀ x : Except ε α, x.map g = .ok b ↔ x = .ok a := by
    intro x
    cases x with
    | error e => simp [Except.map]
    | ok a' => simpa [Except.map] using hg a'
  simp only [Returns, hmap]

theorem Returns.unique {f : Nat → Except ε α} {a b : α} (ha : Returns f a)
    (hb : Returns f b) : a = b := by
  obtain ⟨N, hN⟩ := ha
  obtain ⟨M, hM⟩ := hb
  have h := (hN _ (le_max_left N M)).symm.trans (hM _ (le_max_right N M))
  exact Except.ok.inj h

/-- With enough fuel the computation fails with `e`. -/
def Fails (f : Nat → Except ε α) (e : ε) : Prop := ∃ N, ∀ n, N ≤ n → f n = .error e

theorem Fails.of_forall {f : Nat → Except ε α} {e : ε} (h : ∀ n, f n = .error e) :
    Fails f e :=
  ⟨0, fun n _ => h n⟩

theorem Fails.of_succ {f : Nat → Except ε α} {e : ε} (h : Fails (fun n => f (n + 1)) e) :
    Fails f e := by
  obtain ⟨N, hN⟩ := h
  refine ⟨N + 1, fun n hn => ?_⟩
  obtain ⟨m, rfl⟩ := Nat.exists_eq_add_of_le hn
  rw [Nat.add_right_comm]
  exact hN _ (Nat.le_add_right N m)

theorem Fails.bind {f : Nat → Except ε α} {g : Nat → α → Except ε β} {e : ε}
    (hf : Fails f e) : Fails (fun n => f n >>= g n) e := by
  obtain ⟨N, hN⟩ := hf
  refine ⟨N, fun n hn => ?_⟩
  simp only [hN n hn]
  rfl

theorem Returns.bind_fails {f : Nat → Except ε α} {g : Nat → α → Except ε β}
    {a : α} {e : ε} (hf : Returns f a) (hg : Fails (fun n => g n a) e) :
    Fails (fun n => f n >>= g n) e := by
  obtain ⟨N, hN⟩ := hf
  obtain ⟨M, hM⟩ := hg
  refine ⟨max N M, fun n hn => ?_⟩
  simp only [hN n (le_trans (le_max_left N M) hn)]
  exact hM n (le_trans (le_max_right N M) hn)

theorem Fails.not_returns {f : Nat → Except ε α} {a : α} {e : ε} (hf : Fails f e) :
    ¬ Returns f a := by
  rintro ⟨M, hM⟩
  obtain ⟨N, hN⟩ := hf
  have h := (hN _ (le_max_left N M)).symm.trans (hM _ (le_max_right N M))
  cases h

/-- A sequence that returns, returns in its parts. -/
theorem ok_of_bind {x : Except ε α} {f : α → Except ε β} {b : β} (h : x >>= f = .ok b) :
    ∃ a, x = .ok a ∧ f a = .ok b := by
  cases x with
  | error e => cases h
  | ok a => exact ⟨a, rfl, h⟩

/-- What every step of a loop keeps, the loop keeps. -/
theorem foldlM_preserves {σ : Type} {f : σ → α → Except ε σ} {P : σ → Prop} {as : List α}
    (hf : ∀ a ∈ as, ∀ s s', P s → f s a = .ok s' → P s') {s s' : σ} (hs : P s)
    (h : as.foldlM f s = .ok s') : P s' := by
  induction as generalizing s with
  | nil =>
      cases h
      exact hs
  | cons a as ih =>
      rw [List.foldlM_cons] at h
      obtain ⟨s₁, hfirst, hrest⟩ := ok_of_bind h
      exact ih (fun b hb => hf b (List.mem_cons_of_mem a hb))
        (hf a (List.mem_cons_self ..) s s₁ hs hfirst) hrest

/-- A loop whose steps return, returns; what a step has reached is not lost
in the later ones. -/
theorem returns_foldlM {σ : Type} {f : Nat → σ → α → Except ε σ} {P : σ → Prop}
    {R : σ → σ → Prop} {Q : α → σ → Prop} (hrefl : ∀ s, R s s)
    (htrans : ∀ s₁ s₂ s₃, R s₁ s₂ → R s₂ s₃ → R s₁ s₃)
    (hkeep : ∀ a s s', Q a s → R s s' → Q a s') {as : List α} (hstep : ∀ a ∈ as, ∀ s,
      P s → ∃ s', Returns (fun n => f n s a) s' ∧ P s' ∧ R s s' ∧ Q a s') {s : σ}
    (hs : P s) :
    ∃ s', Returns (fun n => as.foldlM (f n) s) s' ∧ P s' ∧ R s s' ∧ ∀ a ∈ as, Q a s' := by
  induction as generalizing s with
  | nil => exact ⟨s, .of_forall fun _ => rfl, hs, hrefl s, by simp⟩
  | cons a as ih =>
      obtain ⟨s₁, hret, hs₁, hR, hQ⟩ := hstep a (List.mem_cons_self ..) s hs
      obtain ⟨s', hret', hs', hR', hQ'⟩ :=
        ih (fun b hb => hstep b (List.mem_cons_of_mem a hb)) hs₁
      refine ⟨s', ?_, hs', htrans s s₁ s' hR hR',
        List.forall_mem_cons.mpr ⟨hkeep a s₁ s' hQ hR', hQ'⟩⟩
      simp only [List.foldlM_cons]
      exact hret.bind hret'

end Frozen.Lib
