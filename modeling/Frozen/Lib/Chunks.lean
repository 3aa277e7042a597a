/-
# `Frozen.Lib.Chunks` — a fold over the full blocks of a list

A hash function takes its input in blocks of a fixed width, and what is left behind the
last full block apart.  `foldBlocks` is the first part and `leftover` the second.  A
list that is taken in several pieces, all but the last of them made of full blocks, is
folded as a whole.
-/
import Mathlib.Tactic

namespace Frozen.Lib

variable {σ α : Type}

/-- The blocks of `w` elements, one after the other. -/
def foldBlocks (w : Nat) (f : σ → List α → σ) (s : σ) (l : List α) : σ :=
  (List.range (l.length / w)).foldl (fun s i => f s ((l.drop (w * i)).take w)) s

/-- What is behind the last full block. -/
def leftover (w : Nat) (l : List α) : List α := l.drop (w * (l.length / w))

variable {w : Nat} {f g : σ → List α → σ}

theorem length_leftover (l : List α) : (leftover w l).length = l.length % w := by
  rw [leftover, List.length_drop]
  exact (Nat.mod_eq_sub _ _).symm

theorem foldBlocks_nil (s : σ) : foldBlocks w f s [] = s := by
  rw [foldBlocks, List.length_nil, Nat.zero_div]
  rfl

theorem foldBlocks_of_lt {l : List α} (h : l.length < w) (s : σ) :
    foldBlocks w f s l = s := by
  rw [foldBlocks, Nat.div_eq_of_lt h]
  rfl

theorem leftover_of_lt {l : List α} (h : l.length < w) : leftover w l = l := by
  rw [leftover, Nat.div_eq_of_lt h, Nat.mul_zero, List.drop_zero]

theorem foldBlocks_cons {b : List α} (hw : 0 < w) (hb : b.length = w) (s : σ)
    (l : List α) : foldBlocks w f s (b ++ l) = foldBlocks w f (f s b) l := by
  have hlen : (b ++ l).length / w = l.length / w + 1 := by
    rw [List.length_append, hb, Nat.add_comm, Nat.add_div_right _ hw]
  have hdrop : ∀ i, (b ++ l).drop (w * (i + 1)) = l.drop (w * i) := fun i => by
    rw [List.drop_append, List.drop_eq_nil_of_le
      (by rw [hb]; exact Nat.le_mul_of_pos_right w i.succ_pos), hb,
      List.nil_append, Nat.mul_succ, Nat.add_sub_cancel]
  have hhead : ((b ++ l).drop (w * 0)).take w = b := by
    rw [Nat.mul_zero, List.drop_zero, ← hb, List.take_left]
  rw [foldBlocks, hlen, List.range_succ_eq_map, List.foldl_cons, List.foldl_map, hhead]
  exact congrFun (congrFun
    (congrArg List.foldl (funext fun s => funext fun i => by rw [hdrop i])) (f s b)) _

theorem leftover_cons {b : List α} (hw : 0 < w) (hb : b.length = w) (l : List α) :
    leftover w (b ++ l) = leftover w l := by
  rw [leftover, List.length_append, hb, Nat.add_comm, Nat.add_div_right _ hw,
    Nat.mul_succ, Nat.add_comm _ w, ← hb, List.drop_length_add_append]
  rfl

/-- The rule of induction: a block in front of more, or less than a block. -/
theorem blocks_induction (hw : 0 < w) {P : List α → Prop}
    (hshort : ∀ l, l.length < w → P l)
    (hblock : ∀ b l, b.length = w → P l → P (b ++ l)) (l : List α) : P l := by
  by_cases hlt : l.length < w
  · exact hshort l hlt
  · have htake : (l.take w).length = w := List.length_take_of_le (Nat.le_of_not_lt hlt)
    rw [← List.take_append_drop w l]
    exact hblock _ _ htake (blocks_induction hw hshort hblock (l.drop w))
termination_by l.length
decreasing_by
  rw [List.length_drop]
  omega

/-- **Full blocks in front** are folded first. -/
theorem foldBlocks_append (hw : 0 < w) {x : List α} (hx : w ∣ x.length) (s : σ)
    (y : List α) :
    foldBlocks w f s (x ++ y) = foldBlocks w f (foldBlocks w f s x) y ∧
      leftover w (x ++ y) = leftover w y := by
  induction x using blocks_induction hw generalizing s with
  | hshort x hlt =>
      obtain rfl := List.eq_nil_of_length_eq_zero (Nat.eq_zero_of_dvd_of_lt hx hlt)
      exact ⟨by rw [foldBlocks_nil, List.nil_append], by rw [List.nil_append]⟩
  | hblock b x hb ih =>
      rw [List.length_append, hb, Nat.dvd_add_right (dvd_refl w)] at hx
      rw [List.append_assoc, foldBlocks_cons hw hb, foldBlocks_cons hw hb,
        leftover_cons hw hb]
      exact ih hx (f s b)

theorem foldBlocks_congr {l : List α}
    (h : ∀ i < l.length / w, ∀ s,
      f s ((l.drop (w * i)).take w) = g s ((l.drop (w * i)).take w)) (s : σ) :
    foldBlocks w f s l = foldBlocks w g s l :=
  List.foldl_ext _ _ _ fun a i hi => h i (List.mem_range.mp hi) a

/-- If no block confuses two states, no list does. -/
theorem foldBlocks_injective (hf : ∀ b, Function.Injective (f · b)) (l : List α) :
    Function.Injective (foldBlocks w f · l) := by
  have hfold : ∀ is : List Nat, Function.Injective fun s =>
      is.foldl (fun s i => f s ((l.drop (w * i)).take w)) s := by
    intro is
    induction is with
    | nil => exact Function.injective_id
    | cons i is ih => exact ih.comp (hf _)
  exact hfold _

/-- A block that does not move the state, any number of times. -/
theorem foldBlocks_replicate (hw : 0 < w) {b : List α} (hb : b.length = w) {s : σ}
    (hfix : f s b = s) (n : Nat) (l : List α) :
    foldBlocks w f s ((List.replicate n b).flatten ++ l) = foldBlocks w f s l ∧
      leftover w ((List.replicate n b).flatten ++ l) = leftover w l := by
  induction n with
  | zero => exact ⟨rfl, rfl⟩
  | succ n ih =>
      rw [List.replicate_succ, List.flatten_cons, List.append_assoc,
        foldBlocks_cons hw hb, leftover_cons hw hb, hfix]
      exact ih

end Frozen.Lib
