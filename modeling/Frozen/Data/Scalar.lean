/-
# `Frozen.Data.Scalar` — the comparison of integers, strings and raw data

What compares two values has to know where to look: integers answer with the order and
leave `result` as it is; strings and raw data answer 0 and have the order in `result`,
which an empty value spoils.  `compare_uniform_iff` says for which pairs all of them
keep to what `data_query` says of its answer.
-/
import Frozen.Data.Compare

namespace Frozen.Data

open Lib Binary

/-! ## Integers -/

/-- Whether `TYPE` has a sign. -/
def signed : IntType → Bool
  | .int8 | .int16 | .int32 | .int64 | .off | .int => true
  | .uint8 | .uint16 | .uint32 | .uint64 | .size | .uint => false

/-- `<` of `TYPE`. -/
def less (t : IntType) (a b : BitVec (8 * t.bytes)) : Bool :=
  if signed t then a.slt b else a.ult b

/-- `data_NAME_compare`. -/
def intCompare (t : IntType) (data₁ : BitVec (8 * t.bytes))
    (data₂ : Option (BitVec (8 * t.bytes))) : Int :=
  match data₂ with
  | none => -EINVAL
  | some data₂ => if data₁ = data₂ then 0 else if less t data₁ data₂ then 1 else 2

theorem intCompare_eq_zero {t : IntType} {a b : BitVec (8 * t.bytes)} :
    intCompare t a (some b) = 0 ↔ a = b := by
  rw [intCompare]
  split_ifs with heq hless
  · exact iff_of_true rfl heq
  · exact iff_of_false (by decide) heq
  · exact iff_of_false (by decide) heq

/-! ## Two values of one type -/

inductive Pair where
  | int (t : IntType) (a b : BitVec (8 * t.bytes))
  | string (a b : Chars)
  | raw (a b : List UInt8)

namespace Pair

/-- `ACTION_COMPARE` of the first value with the second: what `data_query` returns, and
`result`, with what is on the stack and in `result` before. -/
def query (stack₁ stack₂ : Nat → UInt8) (n : Nat) (p : Pair) (result : Nat) :
    Except OutOfFuel (Int × Nat) :=
  match p with
  | .int t a b => .ok (intCompare t a (some b), result)
  | .string a b =>
      dataDefaultCompare stack₁ stack₂ n (.string a) (some (.string b)) result
  | .raw a b =>
      dataDefaultCompare stack₁ stack₂ n (.raw (.mem a)) (some (.raw (.mem b))) result

def swap : Pair → Pair
  | .int t a b => .int t b a
  | .string a b => .string b a
  | .raw a b => .raw b a

/-- The values are equal. -/
def Same : Pair → Prop
  | .int _ a b => a = b
  | .string a b => a.text = b.text
  | .raw a b => a = b

def Sized : Pair → Prop
  | .int _ _ _ => True
  | .string a b => (Holder.string a).Sized ∧ (Holder.string b).Sized
  | .raw a b => (Holder.raw (.mem a)).Sized ∧ (Holder.raw (.mem b)).Sized

/-- Both ways round the answer is 0 and `result` is the order: 0 for equal values, and 1
one way where it is 2 the other. -/
def Uniform (p : Pair) (result : Nat) : Prop :=
  ∀ stack₁ stack₂ stack₃ stack₄, ∃ x y,
    Returns (fun n => p.query stack₁ stack₂ n result) (0, x) ∧
    Returns (fun n => p.swap.query stack₃ stack₄ n result) (0, y) ∧
    x ≤ 2 ∧ y ≤ 2 ∧ (x = 1 ↔ y = 2) ∧ (x = 2 ↔ y = 1) ∧ (x = 0 ↔ p.Same)

/-- Equal integers, and strings and raw data that are not empty. -/
def Agreed (result : Nat) : Pair → Prop
  | .int _ a b => a = b ∧ result = 0
  | .string a b => a.text ≠ [] ∧ b.text ≠ []
  | .raw a b => a ≠ [] ∧ b ≠ []

end Pair

/-! ## Bytes -/

section

variable {h₁ h₂ : Holder} {c₁ c₂ : List UInt8} {result : Nat}

theorem lookDefault_zero (bytes : List UInt8) :
    lookDefault bytes 0 = if bytes = [] then .debris none else .bytes bytes false := by
  cases bytes with
  | nil => rfl
  | cons b bs => rfl

theorem resultOf_le (o : Ordering) : resultOf o ≤ 2 := by
  cases o <;> decide

theorem resultOf_swap {o : Ordering} : (resultOf o = 1 ↔ resultOf o.swap = 2) ∧
    (resultOf o = 2 ↔ resultOf o.swap = 1) := by
  cases o <;> decide

theorem larger_empty (hs₁ : h₁.Sized) (hl₁ : h₁.look 0 = .bytes c₁ false)
    (hl₂ : h₂.look 0 = .debris none) (hc₁ : c₁ ≠ []) {stack₁ stack₂ : Nat → UInt8}
    {x : Nat} (hx : Returns
      (fun n => dataDefaultCompare stack₁ stack₂ n h₁ (some h₂) result) (0, x)) :
    x = 2 := by
  obtain ⟨b, bs, rfl⟩ := List.exists_cons_of_ne_nil hc₁
  exact (Prod.mk.inj
    (hx.unique (dataDefaultCompare_returns (compareLoop_bytes_debris hs₁ hl₁ hl₂)))).2

/-- With greatest bytes on the stack an empty value is not told to be smaller. -/
theorem smaller_empty (hs₂ : h₂.Sized) (hl₁ : h₁.look 0 = .debris none)
    (hl₂ : h₂.look 0 = .bytes c₂ false) {stack₂ : Nat → UInt8} {x : Nat}
    (hx : Returns (fun n => dataDefaultCompare (fun _ => 255) stack₂ n h₁ (some h₂)
      result) (0, x)) : x ≠ 1 := by
  obtain ⟨n, hn⟩ := compareLoop_of_returns hx
  exact (compareLoop_debris_bytes hs₂ hl₁ hl₂ (fun ⟨r, hr, _⟩ => by cases hr) hn).1

/-- Holders that `data_default_read` reads are compared by the protocol if none
of them is empty. -/
theorem uniform_default_iff (hs₁ : h₁.Sized) (hs₂ : h₂.Sized)
    (hl₁ : h₁.look 0 = lookDefault c₁ 0) (hl₂ : h₂.look 0 = lookDefault c₂ 0) :
    (∀ stack₁ stack₂ stack₃ stack₄, ∃ x y,
      Returns (fun n => dataDefaultCompare stack₁ stack₂ n h₁ (some h₂) result) (0, x) ∧
      Returns (fun n => dataDefaultCompare stack₃ stack₄ n h₂ (some h₁) result) (0, y) ∧
      x ≤ 2 ∧ y ≤ 2 ∧ (x = 1 ↔ y = 2) ∧ (x = 2 ↔ y = 1) ∧ (x = 0 ↔ c₁ = c₂)) ↔
        c₁ ≠ [] ∧ c₂ ≠ [] := by
  rw [lookDefault_zero] at hl₁ hl₂
  constructor
  · intro hall
    obtain ⟨x, y, hx, hy, -, -, hxy, hyx, hsame⟩ := hall (fun _ => 255) (fun _ => 255)
      (fun _ => 255) fun _ => 255
    by_cases hc₁ : c₁ = []
    · rw [if_pos hc₁] at hl₁
      by_cases hc₂ : c₂ = []
      · -- two empty values are told to be different
        rw [if_pos hc₂] at hl₂
        cases hx.unique (dataDefaultCompare_returns (compareLoop_debris hl₁ hl₂))
        exact absurd (hsame.mpr (hc₁.trans hc₂.symm)) (by decide)
      · rw [if_neg hc₂] at hl₂
        exact absurd (smaller_empty hs₂ hl₁ hl₂ hx)
          (not_not.mpr (hxy.mpr (larger_empty hs₂ hl₂ hl₁ hc₂ hy)))
    · rw [if_neg hc₁] at hl₁
      refine ⟨hc₁, fun hc₂ => ?_⟩
      rw [if_pos hc₂] at hl₂
      exact absurd (smaller_empty hs₁ hl₂ hl₁ hy)
        (not_not.mpr (hyx.mp (larger_empty hs₁ hl₁ hl₂ hc₁ hx)))
  · rintro ⟨hc₁, hc₂⟩ stack₁ stack₂ stack₃ stack₄
    rw [if_neg hc₁] at hl₁
    rw [if_neg hc₂] at hl₂
    have hfree : ∀ {c c' : List UInt8}, ¬ Stuck c false c' false := by
      rintro c c' (⟨-, -, h⟩ | ⟨-, h⟩) <;> cases h
    refine ⟨_, _, dataDefaultCompare_returns (compareLoop_bytes hs₁ hs₂ hl₁ hl₂ hfree),
      dataDefaultCompare_returns (compareLoop_bytes hs₂ hs₁ hl₂ hl₁ hfree),
      resultOf_le _, resultOf_le _, ?_⟩
    have hswap : compare c₂ c₁ = (compare c₁ c₂).swap := Std.OrientedOrd.eq_swap
    rw [hswap]
    refine ⟨resultOf_swap.1, resultOf_swap.2, ?_⟩
    rw [← Std.LawfulEqOrd.compare_eq_iff_eq (a := c₁)]
    cases compare c₁ c₂ <;> decide

end

/-- **Two values are compared by the one protocol** exactly if they are equal integers,
or strings or raw data of which none is empty. -/
theorem compare_uniform_iff (p : Pair) (hs : p.Sized) (result : Nat) :
    p.Uniform result ↔ p.Agreed result := by
  cases p with
  | int t a b =>
      constructor
      · intro hall
        obtain ⟨x, y, hx, -, -, -, -, -, hsame⟩ :=
          hall (fun _ => 0) (fun _ => 0) (fun _ => 0) fun _ => 0
        obtain ⟨n, hn⟩ := hx
        obtain ⟨hzero, rfl⟩ := Prod.mk.inj (Except.ok.inj (hn n (le_refl n)))
        have hab := intCompare_eq_zero.mp hzero
        exact ⟨hab, hsame.mpr hab⟩
      · rintro ⟨rfl, rfl⟩ stack₁ stack₂ stack₃ stack₄
        have hzero : intCompare t a (some a) = 0 := intCompare_eq_zero.mpr rfl
        have hrun : ∀ stack stack',
            Returns (fun n => (Pair.int t a a).query stack stack' n 0) (0, 0) :=
          fun _ _ => .of_forall fun _ => by rw [Pair.query, hzero]
        exact ⟨0, 0, hrun _ _, hrun _ _, by decide, by decide, by decide, by decide,
          iff_of_true rfl rfl⟩
  | string a b => exact uniform_default_iff hs.1 hs.2 rfl rfl
  | raw a b => exact uniform_default_iff hs.1 hs.2 rfl rfl

theorem compare_uniform_iff_texts :
    (Pair.string ⟨[97, 0], by decide⟩ ⟨[98, 0], by decide⟩).Uniform 0 ↔
      (Pair.string ⟨[97, 0], by decide⟩ ⟨[98, 0], by decide⟩).Agreed 0 :=
  compare_uniform_iff (.string ⟨[97, 0], by decide⟩ ⟨[98, 0], by decide⟩)
    ⟨(by decide : [(97 : UInt8), 0].length ≤ maxObject),
      (by decide : [(98 : UInt8), 0].length ≤ maxObject)⟩ 0

/-- The integers 1 and 2: the order is in the answer. -/
theorem compare_not_uniform : ¬ ∀ p : Pair, p.Sized → p.Uniform 0 := by
  intro hall
  obtain ⟨x, y, ⟨n, hn⟩, -⟩ :=
    hall (.int .uint 1 2) trivial (fun _ => 0) (fun _ => 0) (fun _ => 0) fun _ => 0
  cases hn n (le_refl n)

end Frozen.Data
