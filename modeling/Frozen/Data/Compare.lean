/-
# `Frozen.Data.Compare` — the comparison of two data holders

`data_default_compare` reads both holders in pieces of 1024 bytes and compares as much
as it has of both.  A failed read is the end of a holder, but what the read says of its
size is used all the same: an empty `raw_t` or `string_t` as the first operand is taken
for 1024 bytes of what was on the stack.  A holder that never fails at its end is asked
for more for ever.

    dataDefaultCompare_lex_iff   when the result is the lexicographic order
    compare_uniform_iff          when integers, strings and raw data are compared by one protocol
-/
import Frozen.Data.Holder
import Frozen.Lib.Lex

namespace Frozen.Data

open Lib Binary Cache

/-! ## `data_default_compare` -/

/-- `result` for an order. -/
def resultOf : Ordering → Nat
  | .eq => 0
  | .lt => 1
  | .gt => 2

/-- One of the two buffers, where in it the bytes to compare are, and where to read on. -/
structure Side where
  array : List UInt8
  offset : Nat
  size : Nat
  goffset : Nat

/-- What is to compare next. -/
def Side.front (s : Side) (k : Nat) : List UInt8 := (s.array.drop s.offset).take k

def Side.advance (s : Side) (k : Nat) : Side :=
  { s with offset := s.offset + k, size := s.size - k }

/-- An empty buffer is filled: the answer of the read, and the buffer with the size that
the read leaves. -/
def Side.fetch (h : Holder) (s : Side) : Int × Side :=
  if s.size = 0 then
    let r := h.read s.goffset DEF_BUFFER_SIZE
    (r.1, ⟨overlay r.2.1 s.array, 0, r.2.2, s.goffset + r.2.2⟩)
  else (0, s)

/-- The loop: what the call returns, and `result` if it is set. -/
def compareLoop (data₁ data₂ : Holder) :
    Nat → Side → Side → Except OutOfFuel (Int × Option Nat)
  | 0, _, _ => .error .outOfFuel
  | n + 1, s₁, s₂ =>
      let (ret, s₁) := s₁.fetch data₁
      if ret < -1 then .ok (ret, none)
      else if ret = -1 ∧ s₂.size ≠ 0 then .ok (0, some 1)
      else
        let (ret, s₂) := s₂.fetch data₂
        if ret < -1 then .ok (ret, none)
        else if ret = -1 then .ok (0, some (if s₁.size ≠ 0 then 2 else 0))
        else
          let k := min s₁.size s₂.size
          match compare (s₁.front k) (s₂.front k) with
          | .lt => .ok (0, some 1)
          | .gt => .ok (0, some 2)
          | .eq => compareLoop data₁ data₂ n (s₁.advance k) (s₂.advance k)

/-- A buffer on the stack. -/
def Side.fresh (stack : Nat → UInt8) : Side := ⟨blank stack DEF_BUFFER_SIZE, 0, 0, 0⟩

/-- `data_default_compare`, with what is on the stack and in `result` before: what it
returns, and `result`. -/
def dataDefaultCompare (stack₁ stack₂ : Nat → UInt8) (n : Nat) (data₁ : Holder)
    (data₂ : Option Holder) (result : Nat) : Except OutOfFuel (Int × Nat) := do
  match data₂ with
  | none => .ok (-EINVAL, result)
  | some data₂ => do
      let r ← compareLoop data₁ data₂ n (.fresh stack₁) (.fresh stack₂)
      .ok (r.1, r.2.getD result)

/-! ## Bytes on both sides -/

/-- The bytes `c` are still to compare: first those in the buffer, then
those in the holder. -/
structure Side.Holds (s : Side) (h : Holder) (c : List UInt8) (mute : Bool) : Prop where
  size : s.size ≤ c.length
  front : s.front s.size = c.take s.size
  look : h.look s.goffset = .bytes (c.drop s.size) mute

section

variable {h h₁ h₂ : Holder} {s s₁ s₂ : Side} {c c₁ c₂ : List UInt8}
  {mute mute₁ mute₂ : Bool} {k : Nat}

theorem Side.holds_fresh (stack : Nat → UInt8) (hl : h.look 0 = .bytes c mute) :
    (Side.fresh stack).Holds h c mute :=
  ⟨Nat.zero_le _, by simp [Side.front, Side.fresh], hl⟩

theorem Side.Holds.front_take (hh : s.Holds h c mute) (hk : k ≤ s.size) :
    s.front k = c.take k := by
  have hfront := congrArg (List.take k) hh.front
  rwa [Side.front, List.take_take, List.take_take, min_eq_left hk] at hfront

theorem Side.Holds.advance (hh : s.Holds h c mute) (hk : k ≤ s.size) :
    (s.advance k).Holds h (c.drop k) mute where
  size := by
    rw [List.length_drop]
    exact Nat.sub_le_sub_right hh.size k
  front := by
    have hfront := congrArg (List.drop k) hh.front
    simp only [Side.front, Side.advance, List.drop_take, List.drop_drop] at hfront ⊢
    exact hfront
  look := by
    rw [List.drop_drop, Side.advance, Nat.add_sub_cancel' hk]
    exact hh.look

/-- A fetch fills the buffer if there is anything, and fails if there is nothing and the
holder says so. -/
theorem Side.Holds.fetch (hs : h.Sized) (hh : s.Holds h c mute) :
    ∃ ret t, s.fetch h = (ret, t) ∧ t.Holds h c mute ∧ (t.size = 0 ↔ c = []) ∧
      (ret = -1 ∧ c = [] ∧ mute = false ∨ ret = 0 ∧ (c = [] → mute = true)) := by
  have hans : (if c = [] ∧ mute = false then (-1 : Int) else 0) = -1 ∧ c = [] ∧
      mute = false ∨
      (if c = [] ∧ mute = false then (-1 : Int) else 0) = 0 ∧ (c = [] → mute = true) := by
    split_ifs with hend
    · exact .inl ⟨rfl, hend⟩
    · exact .inr ⟨rfl,
        fun hnil => Bool.eq_true_of_not_eq_false fun hmute => hend ⟨hnil, hmute⟩⟩
  by_cases hsize : s.size = 0
  · have hlook := hh.look
    rw [hsize, List.drop_zero] at hlook
    have hread := Holder.read_of_bytes hlook (n := DEF_BUFFER_SIZE) (by decide)
    refine ⟨if c = [] ∧ mute = false then -1 else 0,
      ⟨overlay (c.take DEF_BUFFER_SIZE) s.array, 0,
      min DEF_BUFFER_SIZE c.length, s.goffset + min DEF_BUFFER_SIZE c.length⟩, ?_,
        ⟨min_le_right _ _, ?_, ?_⟩,
      ?_, hans⟩
    · rw [Side.fetch, if_pos hsize, hread]
    · have hlen : (c.take DEF_BUFFER_SIZE).length = min DEF_BUFFER_SIZE c.length :=
        List.length_take
      rw [Side.front, List.drop_zero, overlay, List.take_left' hlen,
        ← List.take_eq_take_min]
    · exact Holder.look_add hs hlook (min_le_right _ _)
    · simp [DEF_BUFFER_SIZE]
  · have hne : c ≠ [] := by
      rintro rfl
      exact hsize (Nat.le_zero.mp hh.size)
    exact ⟨0, s, if_neg hsize, hh, iff_of_false hsize hne,
      .inr ⟨rfl, fun hnil => absurd hnil hne⟩⟩

theorem Side.Holds.fetch_size (hh : s.Holds h c mute) {ret : Int} {t : Side}
    (hf : s.fetch h = (ret, t)) :
    t.size = if s.size = 0 then min DEF_BUFFER_SIZE c.length else s.size := by
  by_cases hsize : s.size = 0
  · have hlook := hh.look
    rw [hsize, List.drop_zero] at hlook
    rw [Side.fetch, if_pos hsize, Holder.read_of_bytes hlook (by decide)] at hf
    rw [if_pos hsize, ← (Prod.mk.inj hf).2]
  · rw [Side.fetch, if_neg hsize] at hf
    rw [if_neg hsize, (Prod.mk.inj hf).2]

/-- The comparison comes to the end of a holder that does not tell it: of the first if
it is a proper prefix of the second, of the second if it is a prefix of the first. -/
def Stuck (c₁ : List UInt8) (mute₁ : Bool) (c₂ : List UInt8) (mute₂ : Bool) : Prop :=
  (c₁ <+: c₂ ∧ c₁ ≠ c₂ ∧ mute₁ = true) ∨ (c₂ <+: c₁ ∧ mute₂ = true)

theorem stuck_append {x : List UInt8} :
    Stuck (x ++ c₁) mute₁ (x ++ c₂) mute₂ ↔ Stuck c₁ mute₁ c₂ mute₂ := by
  unfold Stuck
  rw [List.prefix_append_right_inj, List.prefix_append_right_inj, ne_eq,
    List.append_cancel_left_eq]

theorem stuck_drop (htake : c₁.take k = c₂.take k) :
    Stuck (c₁.drop k) mute₁ (c₂.drop k) mute₂ ↔ Stuck c₁ mute₁ c₂ mute₂ := by
  rw [← stuck_append (x := c₁.take k), List.take_append_drop, htake,
    List.take_append_drop]

theorem Stuck.take (h : Stuck c₁ mute₁ c₂ mute₂) (h₁ : k ≤ c₁.length)
    (h₂ : k ≤ c₂.length) : c₁.take k = c₂.take k := by
  rcases h with ⟨⟨rest, rfl⟩, -, -⟩ | ⟨⟨rest, rfl⟩, -⟩
  · exact (List.take_append_of_le_length h₁).symm
  · exact List.take_append_of_le_length h₂

theorem compareLoop_end₁ {n : Nat} {t₁ : Side} (hf₁ : s₁.fetch h₁ = (-1, t₁))
    (hs₂ : s₂.size ≠ 0) : compareLoop h₁ h₂ (n + 1) s₁ s₂ = .ok (0, some 1) := by
  rw [compareLoop, hf₁]
  simp [hs₂]

section

variable {n : Nat} {ret : Int} {t₁ t₂ : Side} (hf₁ : s₁.fetch h₁ = (ret, t₁))
  (hret : ret = 0 ∨ ret = -1 ∧ s₂.size = 0)

include hf₁ hret

theorem compareLoop_end₂ (hf₂ : s₂.fetch h₂ = (-1, t₂)) :
    compareLoop h₁ h₂ (n + 1) s₁ s₂ = .ok (0, some (if t₁.size ≠ 0 then 2 else 0)) := by
  rw [compareLoop, hf₁]
  rcases hret with rfl | ⟨rfl, hs₂⟩
  · simp [hf₂]
  · simp [hf₂, hs₂]

theorem compareLoop_next (hf₂ : s₂.fetch h₂ = (0, t₂)) :
    compareLoop h₁ h₂ (n + 1) s₁ s₂ =
      match compare (t₁.front (min t₁.size t₂.size)) (t₂.front (min t₁.size t₂.size)) with
      | .lt => .ok (0, some 1)
      | .gt => .ok (0, some 2)
      | .eq => compareLoop h₁ h₂ n (t₁.advance (min t₁.size t₂.size))
          (t₂.advance (min t₁.size t₂.size)) := by
  rw [compareLoop, hf₁]
  rcases hret with rfl | ⟨rfl, hs₂⟩
  · simp [hf₂]
  · simp [hf₂, hs₂]

end

/-- What the loop still has to do: the bytes of both sides, and the buffers to fill. -/
def remaining (s₁ s₂ : Side) (c₁ c₂ : List UInt8) : Nat :=
  2 * (c₁.length + c₂.length) + (if s₁.size = 0 then 1 else 0) + if s₂.size = 0
    then 1 else 0

/-- **The loop on bytes**: it gets stuck or finds the order. -/
theorem compareLoop_holds (hs₁ : h₁.Sized) (hs₂ : h₂.Sized) (n : Nat) :
    ∀ {s₁ s₂ : Side} {c₁ c₂ : List UInt8}, s₁.Holds h₁ c₁ mute₁ → s₂.Holds h₂ c₂ mute₂ →
      (Stuck c₁ mute₁ c₂ mute₂ → compareLoop h₁ h₂ n s₁ s₂ = .error .outOfFuel) ∧
      (¬ Stuck c₁ mute₁ c₂ mute₂ → remaining s₁ s₂ c₁ c₂ < n →
        compareLoop h₁ h₂ n s₁ s₂ = .ok (0, some (resultOf (compare c₁ c₂)))) := by
  induction n with
  | zero =>
      intro s₁ s₂ c₁ c₂ hh₁ hh₂
      exact ⟨fun _ => rfl, fun _ hn => absurd hn (Nat.not_lt_zero _)⟩
  | succ n ih =>
      intro s₁ s₂ c₁ c₂ hh₁ hh₂
      obtain ⟨ret₁, t₁, hf₁, ht₁, hnil₁, hret₁⟩ := hh₁.fetch hs₁
      obtain ⟨ret₂, t₂, hf₂, ht₂, hnil₂, hret₂⟩ := hh₂.fetch hs₂
      by_cases hend₁ : ret₁ = -1 ∧ s₂.size ≠ 0
      · -- the first side is at its end, and the second is not
        obtain ⟨rfl, hsize⟩ := hend₁
        obtain ⟨-, rfl, rfl⟩ := hret₁.resolve_right fun h => absurd h.1 (by decide)
        obtain ⟨b, bs, rfl⟩ :=
          List.exists_cons_of_length_pos ((Nat.pos_of_ne_zero hsize).trans_le hh₂.size)
        rw [compareLoop_end₁ hf₁ hsize]
        refine ⟨fun hstuck => ?_, fun _ _ => rfl⟩
        rcases hstuck with ⟨-, -, hmute⟩ | ⟨hpre, -⟩
        · cases hmute
        · exact absurd (List.prefix_nil.mp hpre) (List.cons_ne_nil b bs)
      have hopen : ret₁ = 0 ∨ ret₁ = -1 ∧ s₂.size = 0 := by
        rcases hret₁ with ⟨hret, -⟩ | ⟨hret, -⟩
        · exact .inr ⟨hret, by_contra fun hsize => hend₁ ⟨hret, hsize⟩⟩
        · exact .inl hret
      rcases hret₂ with ⟨rfl, rfl, rfl⟩ | ⟨rfl, hmute₂⟩
      · -- the second side is at its end
        rw [compareLoop_end₂ hf₁ hopen hf₂]
        refine ⟨fun hstuck => ?_, fun _ _ => ?_⟩
        · rcases hstuck with ⟨hpre, hne, -⟩ | ⟨-, hmute⟩
          · exact absurd (List.prefix_nil.mp hpre) hne
          · cases hmute
        · cases c₁ with
          | nil => rw [if_neg fun h => h (hnil₁.mpr rfl)]; rfl
          | cons b bs => rw [if_pos fun h => List.cons_ne_nil b bs (hnil₁.mp h)]; rfl
      -- both sides have what they have: the front of it is compared
      rw [compareLoop_next hf₁ hopen hf₂]
      generalize hk : min t₁.size t₂.size = k
      have hk₁ : k ≤ t₁.size := hk ▸ min_le_left _ _
      have hk₂ : k ≤ t₂.size := hk ▸ min_le_right _ _
      have hl₁ := hk₁.trans ht₁.size
      have hl₂ := hk₂.trans ht₂.size
      rw [ht₁.front_take hk₁, ht₂.front_take hk₂, compare_split hl₁ hl₂]
      cases hc : compare (c₁.take k) (c₂.take k) with
      | lt =>
          refine ⟨fun hstuck => ?_, fun _ _ => rfl⟩
          rw [hstuck.take hl₁ hl₂, Std.ReflOrd.compare_self] at hc
          cases hc
      | gt =>
          refine ⟨fun hstuck => ?_, fun _ _ => rfl⟩
          rw [hstuck.take hl₁ hl₂, Std.ReflOrd.compare_self] at hc
          cases hc
      | eq =>
          have hnext := ih (ht₁.advance hk₁) (ht₂.advance hk₂)
          rw [stuck_drop (Std.LawfulEqOrd.eq_of_compare hc)] at hnext
          refine ⟨hnext.1, fun hfree hn =>
            hnext.2 hfree (lt_of_lt_of_le ?_ (Nat.le_of_lt_succ hn))⟩
          have hsize₁ : (t₁.advance k).size = t₁.size - k := rfl
          have hsize₂ : (t₂.advance k).size = t₂.size - k := rfl
          rw [remaining, remaining, List.length_drop, List.length_drop]
          rcases Nat.eq_zero_or_pos k with rfl | hpos
          · -- the first side has nothing more; the second was empty and has something now
            have hc₂ : c₂ ≠ [] :=
              fun hnil => hfree (.inr ⟨hnil ▸ List.nil_prefix, hmute₂ hnil⟩)
            have hsome : t₂.size ≠ 0 := fun hzero => hc₂ (hnil₂.mp hzero)
            have hc₁ : c₁ = [] := hnil₁.mp (by omega)
            have hsize : s₂.size = 0 := by
              refine (hopen.resolve_left fun hzero =>
                hfree (.inl ⟨hc₁ ▸ List.nil_prefix, ?_, ?_⟩)).2
              · exact hc₁ ▸ hc₂.symm
              · exact (hret₁.resolve_left fun h =>
                  absurd (h.1.symm.trans hzero) (by decide)).2 hc₁
            have hle := hh₁.size
            rw [hc₁, List.length_nil] at hle
            rw [if_pos hsize, if_pos (by omega),
              if_neg (by omega : (t₂.advance 0).size ≠ 0)]
            split_ifs <;> omega
          · split_ifs <;> omega

end

/-! ## An object without bytes on the first side -/

/-- The buffer holds what was on the stack; `room` is what the reads go on to claim,
from what is to compare next. -/
structure Side.Littered (s : Side) (h : Holder) (stack : Nat → UInt8)
    (room : Option Nat) : Prop where
  array : s.array = blank stack DEF_BUFFER_SIZE
  fits : s.offset + s.size ≤ DEF_BUFFER_SIZE
  size : ∀ r, room = some r → s.size ≤ r
  read : ∀ n k, 0 < n → (∀ r, room = some r → s.size + k ≤ r) →
    h.read (s.goffset + k) n = (-1, [], claims room (s.size + k) n)

section

variable {h h₁ h₂ : Holder} {s s₁ s₂ : Side} {c : List UInt8} {mute : Bool} {k : Nat}
  {stack : Nat → UInt8} {room : Option Nat}

theorem claims_le {n : Nat} : claims room k n ≤ n := by
  cases room with
  | none => exact le_refl n
  | some r => exact min_le_left _ _

theorem claims_eq_zero {n : Nat} (hn : 0 < n) : claims room 0 n = 0 ↔ room = some 0 := by
  cases room with
  | none => exact iff_of_false hn.ne' (fun h => by cases h)
  | some r =>
      simp only [claims, Option.map_some, Option.getD_some, Option.some.injEq]
      omega

theorem Side.littered_fresh (stack : Nat → UInt8) (hl : h.look 0 = .debris room) :
    (Side.fresh stack).Littered h stack room where
  array := by rw [Side.fresh]
  fits := by simp [Side.fresh]
  size r hr := by simp [Side.fresh]
  read n k hn hk := by
    simp only [Side.fresh, Nat.zero_add] at hk ⊢
    have hread := Holder.read_of_debris hl hn hk
    rwa [Nat.zero_add] at hread

theorem Side.Littered.advance (hh : s.Littered h stack room) (hk : k ≤ s.size) :
    (s.advance k).Littered h stack (room.map (· - k)) where
  array := hh.array
  fits := by
    have := hh.fits
    simp only [Side.advance]
    omega
  size r hr := by
    obtain ⟨r', hr', rfl⟩ := Option.map_eq_some_iff.mp hr
    exact Nat.sub_le_sub_right (hh.size r' hr') k
  read n j hn hj := by
    have hclaims : claims (room.map (· - k)) (s.size - k + j) n
        = claims room (s.size + j) n := by
      cases room with
      | none => rfl
      | some r =>
          simp only [claims, Option.map_some, Option.getD_some]
          omega
    rw [Side.advance, hclaims]
    refine hh.read n j hn fun r hr => ?_
    have hle := hj (r - k) (by rw [hr]; rfl)
    have hsize := hh.size r hr
    simp only [Side.advance] at hle
    omega

/-- The failed read fills the buffer with what is in it. -/
theorem Side.Littered.fetch (hh : s.Littered h stack room) :
    ∃ t, s.fetch h = (if s.size = 0 then -1 else 0, t) ∧ t.Littered h stack room ∧
      t.size = (if s.size = 0 then claims room 0 DEF_BUFFER_SIZE else s.size) := by
  by_cases hsize : s.size = 0
  · have hread := hh.read DEF_BUFFER_SIZE 0 (by decide) fun r hr => hh.size r hr
    rw [hsize, Nat.add_zero, Nat.zero_add] at hread
    refine ⟨⟨s.array, 0, claims room 0 DEF_BUFFER_SIZE,
      s.goffset + claims room 0 DEF_BUFFER_SIZE⟩, ?_,
      ⟨hh.array, ?_, fun r hr => ?_, fun n j hn hj => ?_⟩, (if_pos hsize).symm⟩
    · rw [Side.fetch, if_pos hsize, if_pos hsize, hread]
      rfl
    · rw [Nat.zero_add]
      exact claims_le
    · rw [hr]
      exact min_le_right _ _
    · have hnext :=
        hh.read n (claims room 0 DEF_BUFFER_SIZE + j) hn (by rwa [hsize, Nat.zero_add])
      rwa [hsize, Nat.zero_add, ← Nat.add_assoc] at hnext
  · exact ⟨s, by rw [Side.fetch, if_neg hsize, if_neg hsize], hh, (if_neg hsize).symm⟩

/-- Both sides have come as far, or one of them has all there is. -/
structure Abreast (s₁ s₂ : Side) (room : Option Nat) (c : List UInt8) : Prop where
  left : s₂.size ≤ s₁.size ∨ room = some s₁.size
  right : s₁.size ≤ s₂.size ∨ s₂.size = c.length

theorem abreast_fresh {stack₁ stack₂ : Nat → UInt8} :
    Abreast (.fresh stack₁) (.fresh stack₂) room c :=
  ⟨.inl (Nat.le_refl 0), .inl (Nat.le_refl 0)⟩

theorem Abreast.advance (ha : Abreast s₁ s₂ room c) :
    Abreast (s₁.advance k) (s₂.advance k) (room.map (· - k)) (c.drop k) where
  left := ha.left.imp (fun h => Nat.sub_le_sub_right h k) fun h => by rw [h]; rfl
  right := ha.right.imp (fun h => Nat.sub_le_sub_right h k) fun h => by
    rw [List.length_drop, ← h]
    rfl

theorem Abreast.fetch {t₁ t₂ : Side} (ha : Abreast s₁ s₂ room c)
    (hopen : s₁.size = 0 → s₂.size = 0)
    (ht₁ : t₁.size = if s₁.size = 0 then claims room 0 DEF_BUFFER_SIZE else s₁.size)
    (ht₂ : t₂.size = if s₂.size = 0 then min DEF_BUFFER_SIZE c.length else s₂.size) :
    Abreast t₁ t₂ room c := by
  by_cases hz₁ : s₁.size = 0
  · rw [if_pos hz₁] at ht₁
    rw [if_pos (hopen hz₁)] at ht₂
    cases room with
    | none =>
        rw [claims, Option.map_none, Option.getD_none] at ht₁
        exact ⟨.inl (by omega), by omega⟩
    | some r =>
        rw [claims, Option.map_some, Option.getD_some] at ht₁
        refine ⟨?_, by omega⟩
        rcases Nat.lt_or_ge r DEF_BUFFER_SIZE with hr | hr
        · exact .inr (congrArg some (by omega))
        · exact .inl (by omega)
  · rw [if_neg hz₁] at ht₁
    by_cases hz₂ : s₂.size = 0
    · have hc : c.length = 0 := by
        have := ha.right
        omega
      rw [if_pos hz₂] at ht₂
      exact ⟨.inl (by omega), .inr (by omega)⟩
    · rw [if_neg hz₂] at ht₂
      constructor
      · rw [ht₁, ht₂]
        exact ha.left
      · rw [ht₁, ht₂]
        exact ha.right

/-- As many bytes as the reads claim are there and are greatest, and
there is another one. -/
def Blanked (room : Option Nat) (c : List UInt8) : Prop :=
  ∃ r, room = some r ∧ r < c.length ∧ c.take r = List.replicate r 255

theorem blanked_drop (hroom : ∀ r, room = some r → k ≤ r)
    (htake : c.take k = List.replicate k 255) :
    Blanked (room.map (· - k)) (c.drop k) ↔ Blanked room c := by
  cases room with
  | none => exact iff_of_false (fun ⟨_, h, _⟩ => by cases h) fun ⟨_, h, _⟩ => by cases h
  | some r =>
      obtain ⟨j, rfl⟩ := Nat.exists_eq_add_of_le (hroom r rfl)
      have hsplit : c.take (k + j) = List.replicate (k + j) 255 ↔
          (c.drop k).take j = List.replicate j 255 := by
        rw [List.take_add, htake, List.replicate_add, List.append_cancel_left_eq]
      simp only [Blanked, Option.map_some, Option.some.injEq, exists_eq_left',
        Nat.add_sub_cancel_left, List.length_drop, hsplit]
      refine and_congr_left fun _ => ?_
      omega

theorem compare_255 (b : UInt8) : compare b 255 ≠ .gt := by
  have hb : b.toNat ≤ 255 := Nat.le_of_lt_succ b.toNat_lt
  intro hgt
  have hlt : (255 : UInt8) < b := by
    rw [← Std.compare_eq_gt]
    exact hgt
  exact Nat.not_lt.mpr hb hlt

theorem front_le : compare (s.front k) (List.replicate k 255) ≠ .gt :=
  compare_replicate compare_255 (List.length_take_le _ _)

theorem fetch_open (hopen : s₁.size = 0 → s₂.size = 0) :
    (if s₁.size = 0 then -1 else 0 : Int) = 0 ∨
      (if s₁.size = 0 then -1 else 0 : Int) = -1 ∧ s₂.size = 0 := by
  by_cases hz : s₁.size = 0
  · exact .inr ⟨if_pos hz, hopen hz⟩
  · exact .inl (if_neg hz)

/-- **Larger bytes follow**: the result is that the first side is smaller. -/
theorem compareLoop_blanked (hs₂ : h₂.Sized) (n : Nat) :
    ∀ {s₁ s₂ : Side} {room : Option Nat} {c : List UInt8}, s₁.Littered h₁ stack room →
      s₂.Holds h₂ c mute → Abreast s₁ s₂ room c → Blanked room c →
      3 * c.length + (if s₁.size = 0 then 1 else 0) + (if s₂.size = 0 then 1 else 0) < n →
      compareLoop h₁ h₂ n s₁ s₂ = .ok (0, some 1) := by
  induction n with
  | zero =>
      intro s₁ s₂ room c hh₁ hh₂ ha hb hn
      exact absurd hn (Nat.not_lt_zero _)
  | succ n ih =>
      intro s₁ s₂ room c hh₁ hh₂ ha hb hn
      obtain ⟨r, rfl, hr, hbytes⟩ := hb
      obtain ⟨t₁, hf₁, ht₁, hsize₁'⟩ := hh₁.fetch
      obtain ⟨ret₂, t₂, hf₂, ht₂, hnil₂, hret₂⟩ := hh₂.fetch hs₂
      have hne : c ≠ [] := List.ne_nil_of_length_pos (Nat.zero_lt_of_lt hr)
      obtain ⟨rfl, -⟩ := hret₂.resolve_left fun h => hne h.2.1
      by_cases hend : s₁.size = 0 ∧ s₂.size ≠ 0
      · rw [if_pos hend.1] at hf₁
        exact compareLoop_end₁ hf₁ hend.2
      have hopen : s₁.size = 0 → s₂.size = 0 :=
        fun h₁ => by_contra fun h₂ => hend ⟨h₁, h₂⟩
      have hat := ha.fetch hopen hsize₁' (hh₂.fetch_size hf₂)
      rw [compareLoop_next hf₁ (fetch_open hopen) hf₂]
      generalize hk : min t₁.size t₂.size = k
      have hk₁ : k ≤ t₁.size := hk ▸ min_le_left _ _
      have hk₂ : k ≤ t₂.size := hk ▸ min_le_right _ _
      have hkr : k ≤ r := hk₁.trans (ht₁.size r rfl)
      have hfront : t₂.front k = List.replicate k 255 := by
        have htake := congrArg (List.take k) hbytes
        rw [List.take_take, min_eq_left hkr, List.take_replicate, min_eq_left hkr] at htake
        rw [ht₂.front_take hk₂, htake]
      cases hc : compare (t₁.front k) (t₂.front k) with
      | lt => rfl
      | gt => exact absurd (hfront ▸ hc) front_le
      | eq =>
          refine ih (ht₁.advance hk₁) (ht₂.advance hk₂) hat.advance
            ((blanked_drop ?_ ?_).mpr ⟨r, rfl, hr, hbytes⟩) ?_
          · rintro r' hr'
            obtain rfl := Option.some.inj hr'
            exact hkr
          · rw [← ht₂.front_take hk₂, hfront]
          · have hsize₁ : (t₁.advance k).size = t₁.size - k := rfl
            have hsize₂ : (t₂.advance k).size = t₂.size - k := rfl
            have hsome : t₂.size ≠ 0 := fun hzero => hne (hnil₂.mp hzero)
            have hle := ht₂.size
            rw [List.length_drop]
            refine lt_of_lt_of_le ?_ (Nat.le_of_lt_succ hn)
            rcases Nat.eq_zero_or_pos k with rfl | hpos
            · -- the first side has no more to claim; the second was empty and has
              -- something now
              have hzero : s₁.size = 0 := by
                by_contra hz
                rw [if_neg hz] at hsize₁'
                omega
              rw [if_pos hzero, if_pos (hopen hzero),
                if_neg (by omega : (t₂.advance 0).size ≠ 0)]
              split_ifs <;> omega
            · split_ifs <;> omega

theorem Side.Littered.front_255 (hh : s.Littered h (fun _ => 255) room)
    (hk : k ≤ s.size) : s.front k = List.replicate k 255 := by
  have hfits := hh.fits
  rw [Side.front, hh.array, blank, List.map_const', List.length_range,
    List.drop_replicate, List.take_replicate, min_eq_left (by omega)]

/-- **Greatest bytes on the stack**: the first side is not found to be smaller, and
equal only if the reads claim as much as there is. -/
theorem compareLoop_littered (hs₂ : h₂.Sized) (n : Nat) :
    ∀ {s₁ s₂ : Side} {room : Option Nat} {c : List UInt8},
      s₁.Littered h₁ (fun _ => 255) room →
      s₂.Holds h₂ c mute → Abreast s₁ s₂ room c → ¬ Blanked room c → ∀ x,
      compareLoop h₁ h₂ n s₁ s₂ = .ok (0, some x) → x ≠ 1 ∧
      (x = 0 → room = some c.length) := by
  induction n with
  | zero =>
      intro s₁ s₂ room c hh₁ hh₂ ha hb x hx
      cases hx
  | succ n ih =>
      intro s₁ s₂ room c hh₁ hh₂ ha hb x hx
      obtain ⟨t₁, hf₁, ht₁, hsize₁⟩ := hh₁.fetch
      obtain ⟨ret₂, t₂, hf₂, ht₂, hnil₂, hret₂⟩ := hh₂.fetch hs₂
      have hopen : s₁.size = 0 → s₂.size = 0 := by
        intro hz₁
        by_contra hz₂
        refine hb ⟨0, hz₁ ▸ ha.left.resolve_left (by omega), ?_, rfl⟩
        exact (Nat.pos_of_ne_zero hz₂).trans_le hh₂.size
      rcases hret₂ with ⟨rfl, rfl, -⟩ | ⟨rfl, -⟩
      · rw [compareLoop_end₂ hf₁ (fetch_open hopen) hf₂] at hx
        have hx := Option.some.inj (Prod.mk.inj (Except.ok.inj hx)).2
        by_cases hz : t₁.size = 0
        · rw [if_neg (not_not.mpr hz)] at hx
          refine ⟨by omega, fun _ => ?_⟩
          rw [hz] at hsize₁
          split_ifs at hsize₁
          · exact (claims_eq_zero (by decide)).mp hsize₁.symm
          · omega
        · rw [if_pos hz] at hx
          exact ⟨by omega, by omega⟩
      have hat := ha.fetch hopen hsize₁ (hh₂.fetch_size hf₂)
      rw [compareLoop_next hf₁ (fetch_open hopen) hf₂] at hx
      generalize hk : min t₁.size t₂.size = k at hx
      have hk₁ : k ≤ t₁.size := hk ▸ min_le_left _ _
      have hk₂ : k ≤ t₂.size := hk ▸ min_le_right _ _
      rw [ht₁.front_255 hk₁] at hx
      cases hc : compare (List.replicate k 255) (t₂.front k) with
      | lt => exact absurd (Std.OrientedCmp.gt_of_lt hc) front_le
      | gt =>
          rw [hc] at hx
          have hx := Option.some.inj (Prod.mk.inj (Except.ok.inj hx)).2
          exact ⟨by omega, by omega⟩
      | eq =>
          rw [hc] at hx
          have hfront := Std.LawfulEqOrd.eq_of_compare hc
          have hkr : ∀ r, room = some r → k ≤ r := fun r hr => hk₁.trans (ht₁.size r hr)
          have hkc := hk₂.trans ht₂.size
          rw [ht₂.front_take hk₂] at hfront
          obtain ⟨hne, hzero⟩ := ih (ht₁.advance hk₁) (ht₂.advance hk₂) hat.advance
            (fun h => hb ((blanked_drop hkr hfront.symm).mp h)) x hx
          refine ⟨hne, fun h => ?_⟩
          obtain ⟨r, rfl, hr⟩ := Option.map_eq_some_iff.mp (hzero h)
          have hle := hkr r rfl
          rw [List.length_drop] at hr
          exact congrArg some (by omega)

end

/-! ## The lexicographic order -/

/-- The bytes a holder is read as. -/
def Look.content : Look → List UInt8
  | .bytes content _ => content
  | _ => []

/-- When the order is found, whatever is on the stack. -/
def Comparable : Look → Look → Prop
  | .bytes c₁ mute₁, .bytes c₂ mute₂ => ¬ Stuck c₁ mute₁ c₂ mute₂
  | .bytes _ _, .debris _ => True
  | .debris room, .bytes c _ => Blanked room c
  | _, _ => False

section

variable {h₁ h₂ : Holder}

theorem dataDefaultCompare_returns {stack₁ stack₂ : Nat → UInt8} {result x : Nat}
    (h : Returns (fun n => compareLoop h₁ h₂ n (.fresh stack₁) (.fresh stack₂))
      (0, some x)) :
    Returns (fun n => dataDefaultCompare stack₁ stack₂ n h₁ (some h₂) result) (0, x) :=
  h.bind (.of_forall fun _ => rfl)

/-- `result` is not set only if a read fails. -/
theorem compareLoop_none {n : Nat} {s₁ s₂ : Side} {ret : Int}
    (h : compareLoop h₁ h₂ n s₁ s₂ = .ok (ret, none)) : ret < -1 := by
  induction n generalizing s₁ s₂ with
  | zero => cases h
  | succ n ih =>
      rw [compareLoop] at h
      dsimp only at h
      split_ifs at h with hret₁ hend₁ hret₂ hend₂
      · exact (Prod.mk.inj (Except.ok.inj h)).1 ▸ hret₁
      · cases (Prod.mk.inj (Except.ok.inj h)).2
      · exact (Prod.mk.inj (Except.ok.inj h)).1 ▸ hret₂
      · cases (Prod.mk.inj (Except.ok.inj h)).2
      · cases (Prod.mk.inj (Except.ok.inj h)).2
      · split at h
        · cases (Prod.mk.inj (Except.ok.inj h)).2
        · cases (Prod.mk.inj (Except.ok.inj h)).2
        · exact ih h

theorem compareLoop_of_returns {stack₁ stack₂ : Nat → UInt8} {result x : Nat}
    (h : Returns (fun n => dataDefaultCompare stack₁ stack₂ n h₁ (some h₂) result)
      (0, x)) :
    ∃ n, compareLoop h₁ h₂ n (.fresh stack₁) (.fresh stack₂) = .ok (0, some x) := by
  obtain ⟨n, hn⟩ := h
  have hrun : (compareLoop h₁ h₂ n (.fresh stack₁) (.fresh stack₂) >>= fun r =>
      .ok (r.1, r.2.getD result)) = .ok (0, x) := hn n (le_refl n)
  refine ⟨n, ?_⟩
  cases hloop : compareLoop h₁ h₂ n (.fresh stack₁) (.fresh stack₂) with
  | error e =>
      rw [hloop] at hrun
      cases hrun
  | ok r =>
      rw [hloop] at hrun
      obtain ⟨ret, y⟩ := r
      obtain ⟨rfl, hy⟩ := Prod.mk.inj (Except.ok.inj hrun)
      cases y with
      | none => exact absurd (compareLoop_none hloop) (by decide)
      | some y => rw [show y = x from hy]

theorem Side.fetch_fresh (h : Holder) (stack : Nat → UInt8) :
    ((Side.fresh stack).fetch h).1 = (h.read 0 DEF_BUFFER_SIZE).1 := rfl

/-- A holder that refuses to be read has no order. -/
theorem compareLoop_refused (hl : h₁.look 0 = .refused ∨ h₂.look 0 = .refused)
    {stack₁ stack₂ : Nat → UInt8} {n x : Nat} :
    compareLoop h₁ h₂ n (.fresh stack₁) (.fresh stack₂) ≠ .ok (0, some x) := by
  cases n with
  | zero => exact fun h => by cases h
  | succ n =>
      have hread := hl.imp (Holder.read_of_refused · (by decide : 0 < DEF_BUFFER_SIZE))
        (Holder.read_of_refused · (by decide : 0 < DEF_BUFFER_SIZE))
      rw [← Side.fetch_fresh h₁ stack₁, ← Side.fetch_fresh h₂ stack₂] at hread
      intro hrun
      have hsize : (Side.fresh stack₂).size = 0 := rfl
      rw [compareLoop] at hrun
      dsimp only at hrun
      by_cases hret₁ : ((Side.fresh stack₁).fetch h₁).1 < -1
      · rw [if_pos hret₁] at hrun
        cases (Prod.mk.inj (Except.ok.inj hrun)).2
      · rw [if_neg hret₁, if_neg fun h => h.2 hsize, if_pos (hread.resolve_left hret₁)]
          at hrun
        cases (Prod.mk.inj (Except.ok.inj hrun)).2

section

variable {c₁ c₂ : List UInt8} {mute₁ mute₂ : Bool} {room room₂ : Option Nat}
  {stack₁ stack₂ : Nat → UInt8}

theorem compareLoop_bytes (hs₁ : h₁.Sized) (hs₂ : h₂.Sized)
    (hl₁ : h₁.look 0 = .bytes c₁ mute₁) (hl₂ : h₂.look 0 = .bytes c₂ mute₂)
    (hfree : ¬ Stuck c₁ mute₁ c₂ mute₂) :
    Returns (fun n => compareLoop h₁ h₂ n (.fresh stack₁) (.fresh stack₂))
      (0, some (resultOf (compare c₁ c₂))) :=
  ⟨_, fun n hn => (compareLoop_holds hs₁ hs₂ n (Side.holds_fresh _ hl₁)
    (Side.holds_fresh _ hl₂)).2 hfree hn⟩

theorem compareLoop_bytes_debris (hs₁ : h₁.Sized) (hl₁ : h₁.look 0 = .bytes c₁ mute₁)
    (hl₂ : h₂.look 0 = .debris room₂) :
    Returns (fun n => compareLoop h₁ h₂ n (.fresh stack₁) (.fresh stack₂))
      (0, some (resultOf (compare c₁ []))) := by
  refine .of_succ (.of_forall fun n => ?_)
  obtain ⟨ret₁, t₁, hf₁, -, hnil₁, hret₁⟩ := (Side.holds_fresh stack₁ hl₁).fetch hs₁
  obtain ⟨t₂, hf₂, -⟩ := (Side.littered_fresh stack₂ hl₂).fetch
  rw [compareLoop_end₂ hf₁ (hret₁.symm.imp (·.1) fun h => ⟨h.1, rfl⟩) hf₂]
  cases c₁ with
  | nil => rw [if_neg fun h => h (hnil₁.mpr rfl)]; rfl
  | cons b bs => rw [if_pos fun h => List.cons_ne_nil b bs (hnil₁.mp h)]; rfl

theorem compareLoop_debris (hl₁ : h₁.look 0 = .debris room)
    (hl₂ : h₂.look 0 = .debris room₂) :
    Returns (fun n => compareLoop h₁ h₂ n (.fresh stack₁) (.fresh stack₂))
      (0, some 2) := by
  refine .of_succ (.of_forall fun n => ?_)
  obtain ⟨t₁, hf₁, -, hsize₁⟩ := (Side.littered_fresh stack₁ hl₁).fetch
  obtain ⟨t₂, hf₂, -⟩ := (Side.littered_fresh stack₂ hl₂).fetch
  rw [if_pos (show (Side.fresh stack₁).size = 0 from rfl)] at hsize₁
  rw [compareLoop_end₂ hf₁ (fetch_open fun _ => rfl) hf₂, if_pos]
  rw [hsize₁]
  exact fun hzero => Holder.debris_ne_zero hl₁ ((claims_eq_zero (by decide)).mp hzero)

/-- An object without bytes against bytes, with greatest bytes on the stack. -/
theorem compareLoop_debris_bytes (hs₂ : h₂.Sized) (hl₁ : h₁.look 0 = .debris room)
    (hl₂ : h₂.look 0 = .bytes c₂ mute₂) (hno : ¬ Blanked room c₂) {n x : Nat}
    (hrun : compareLoop h₁ h₂ n (.fresh fun _ => 255) (.fresh stack₂) = .ok (0, some x)) :
    x ≠ 1 ∧ (x = 0 → room = some c₂.length) :=
  compareLoop_littered hs₂ n (Side.littered_fresh _ hl₁) (Side.holds_fresh _ hl₂)
    abreast_fresh hno x hrun

end

/-- **The comparison is the lexicographic order** exactly if both sides
can be compared. -/
theorem dataDefaultCompare_lex_iff (h₁ h₂ : Holder) (hs₁ : h₁.Sized) (hs₂ : h₂.Sized) :
    (∀ stack₁ stack₂ result,
      Returns (fun n => dataDefaultCompare stack₁ stack₂ n h₁ (some h₂) result)
        (0, resultOf (compare (h₁.look 0).content (h₂.look 0).content))) ↔
      Comparable (h₁.look 0) (h₂.look 0) := by
  have hrefused : h₁.look 0 = .refused ∨ h₂.look 0 = .refused →
      ¬ ∀ stack₁ stack₂ result,
        Returns (fun n => dataDefaultCompare stack₁ stack₂ n h₁ (some h₂) result)
        (0, resultOf (compare (h₁.look 0).content (h₂.look 0).content)) := by
    intro hl hall
    obtain ⟨n, hn⟩ := compareLoop_of_returns (hall (fun _ => 0) (fun _ => 0) 0)
    exact compareLoop_refused hl hn
  cases hl₁ : h₁.look 0 with
  | refused =>
      refine iff_of_false (hl₁ ▸ hrefused (.inl hl₁)) fun h => ?_
      cases hl₂ : h₂.look 0 <;> rw [hl₂] at h <;> exact h
  | bytes c₁ mute₁ =>
      cases hl₂ : h₂.look 0 with
      | refused => exact iff_of_false (by rw [← hl₁, ← hl₂]; exact hrefused (.inr hl₂)) id
      | bytes c₂ mute₂ =>
          constructor
          · intro hall hstuck
            obtain ⟨n, hn⟩ := compareLoop_of_returns (hall (fun _ => 0) (fun _ => 0) 0)
            rw [(compareLoop_holds hs₁ hs₂ n (Side.holds_fresh _ hl₁)
              (Side.holds_fresh _ hl₂)).1 hstuck] at hn
            cases hn
          · intro hfree stack₁ stack₂ result
            exact dataDefaultCompare_returns (compareLoop_bytes hs₁ hs₂ hl₁ hl₂ hfree)
      | debris room₂ =>
          refine iff_of_true (fun stack₁ stack₂ result => ?_) trivial
          exact dataDefaultCompare_returns (compareLoop_bytes_debris hs₁ hl₁ hl₂)
  | debris room =>
      cases hl₂ : h₂.look 0 with
      | refused => exact iff_of_false (by rw [← hl₁, ← hl₂]; exact hrefused (.inr hl₂)) id
      | bytes c₂ mute₂ =>
          constructor
          · intro hall
            obtain ⟨n, hn⟩ := compareLoop_of_returns (hall (fun _ => 255) (fun _ => 0) 0)
            by_contra hno
            obtain ⟨hne, hzero⟩ := compareLoop_debris_bytes hs₂ hl₁ hl₂ hno hn
            cases c₂ with
            | nil => exact Holder.debris_ne_zero hl₁ (hzero rfl)
            | cons b bs => exact hne rfl
          · intro hblank stack₁ stack₂ result
            have hloop := fun n =>
                compareLoop_blanked hs₂ n (Side.littered_fresh stack₁ hl₁)
              (Side.holds_fresh stack₂ hl₂) abreast_fresh hblank
            obtain ⟨b, bs, rfl⟩ : ∃ b bs, c₂ = b :: bs := by
              obtain ⟨r, -, hr, -⟩ := hblank
              exact List.exists_cons_of_length_pos (Nat.zero_lt_of_lt hr)
            exact dataDefaultCompare_returns ⟨_, fun n hn => hloop n hn⟩
      | debris room₂ =>
          refine iff_of_false (fun hall => ?_) id
          cases (hall (fun _ => 0) (fun _ => 0) 0).unique
            (dataDefaultCompare_returns (compareLoop_debris hl₁ hl₂))

end

/-- Two bytes, and a slice of three bytes that begin with them. -/
theorem dataDefaultCompare_lex_iff_slice :
    (∀ stack₁ stack₂ result,
      Returns (fun n => dataDefaultCompare stack₁ stack₂ n (.raw (.mem [1, 2]))
        (some (.slice 0 3 (.raw (.mem [1, 2, 3])))) result)
          (0, resultOf (compare [1, 2] [1, 2, 3]))) ↔
      Comparable (.bytes [1, 2] false) (.bytes [1, 2, 3] false) := by
  have hraw : ∀ bytes : List UInt8, bytes.length ≤ maxObject →
      (Holder.raw (.mem bytes)).Sized := by
    rintro bytes hlen _ ⟨⟩
    exact hlen
  exact dataDefaultCompare_lex_iff (.raw (.mem [1, 2]))
    (.slice 0 3 (.raw (.mem [1, 2, 3]))) (hraw _ (by decide)) (hraw _ (by decide))

/-- Two empty strings are different: the first is taken for what is on the stack. -/
theorem dataDefaultCompare_empty :
    ¬ ∀ h₁ h₂ : Holder, h₁.Sized → h₂.Sized → h₁.look 0 ≠ .refused →
      h₂.look 0 ≠ .refused →
      ∀ stack₁ stack₂ result,
        Returns (fun n => dataDefaultCompare stack₁ stack₂ n h₁ (some h₂) result)
        (0, resultOf (compare (h₁.look 0).content (h₂.look 0).content)) := by
  intro hall
  have hempty : (Holder.string ⟨[0], by decide⟩).Sized :=
    (by decide : [(0 : UInt8)].length ≤ maxObject)
  have hlook : (Holder.string ⟨[0], by decide⟩).look 0 ≠ .refused := fun h => by cases h
  have hfound := hall _ _ hempty hempty hlook hlook (fun _ => 0) (fun _ => 0) 0
  have hrun : Returns (fun n => dataDefaultCompare (fun _ => 0) (fun _ => 0) n
      (.string ⟨[0], by decide⟩)
      (some (.string ⟨[0], by decide⟩)) 0) (0, 2) := .of_succ (.of_forall fun n => rfl)
  cases hfound.unique hrun

end Frozen.Data
