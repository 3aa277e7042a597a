/-
# `Frozen.Data.Split` — the bytes between separators

`split_handler` looks for a separator through a window on its input.  What may be the
start of a separator at the end of the window is carried to its front, and the rest of
the window is read anew:

    window    [........ab]           input  ........abc.....
    refill    [abc.......]

The place of the window in the input is corrected with it, but not the place of
its end: that misses the bytes carried over, and everything that is read after the
pass is told to be that much further in front.  `splits_iff` says for which inputs
this does not show.
-/
import Frozen.Data.Transfer

namespace Frozen.Data

open Lib Cache

/-! ## The handler -/

/-- `split_userdata`: `split_str` up to its zero, and `buffer_size`. -/
structure Split where
  split : List UInt8
  bufferSize : Nat
  fits : split.length ≤ bufferSize

def SPLIT_EMODULE : Nat := 35

/-- `split_init`. -/
def splitInit : Split where
  split := [10]
  bufferSize := 1024
  fits := by decide

/-- `split_configure`, with what the configuration has. -/
def splitConfigure (u : Split) (bufferSize : Option Nat)
    (split : Option (List UInt8)) : Split :=
  let split := split.getD u.split
  ⟨split, max (bufferSize.getD u.bufferSize) split.length, le_max_right _ _⟩

/-- `data_slider_t_handler`, `ACTION_READ` at 0 of what is not frozen; the answer is never
found to be negative there. -/
def sliderRead (data : Holder) (off n : Nat) : Int × List UInt8 × Nat × Nat :=
  let (ret, d, bufferSize) := data.read off n
  (ret, d, bufferSize, (off + bufferSize) % 2 ^ 64)

/-- The slices that were passed on, each with its offset and its size. -/
abbrev Calls := List (UInt64 × UInt64)

/-- The variables of `split_handler`. -/
structure Scan where
  slider : Nat
  /-- `buffer - tmp` -/
  buffer : Nat
  /-- the `buffer_left` bytes from there on -/
  left : List UInt8
  lmatchOffset : Nat
  originalOffset : Nat
  originalEoffset : Nat
  calls : Calls

section

variable (u : Split) (child : Calls → Int) (input : Holder)

/-- The inner loop: a negative answer if the handler returns from it. -/
def splitInner : Nat → Scan → Except OutOfFuel (Int × Scan)
  | 0, _ => .error .outOfFuel
  | n + 1, st =>
      -- `memchr`
      match st.left.findIdx? (· == u.split.headD 0) with
      | none => .ok (0, st)
      | some k =>
          let found := st.buffer + k
          let left := st.left.drop k
          if left.length < u.split.length then
            let (ret, d, size, slider) :=
              sliderRead input st.slider (u.bufferSize - left.length)
            if ret ≠ 0 then .ok (0, { st with slider := slider })
            else
              splitInner n { st with
                slider := slider
                buffer := 0
                left := left ++ d
                originalOffset := st.originalOffset + found
                originalEoffset := st.originalOffset + found + size }
          else if left.take u.split.length = u.split then
            let matchOffset := st.originalOffset + found + u.split.length
            let size := UInt64.ofNat matchOffset - UInt64.ofNat st.lmatchOffset
            let calls := st.calls ++ [(UInt64.ofNat st.lmatchOffset, size)]
            if child calls < 0 then .ok (child calls, { st with calls := calls })
            else
              splitInner n { st with
                buffer := found + 1
                left := left.tail
                lmatchOffset := matchOffset
                calls := calls }
          else splitInner n { st with buffer := found + 1, left := left.tail }

/-- The outer loop, and the last slice. -/
def splitOuter : Nat → Scan → Except OutOfFuel (Int × Calls)
  | 0, _ => .error .outOfFuel
  | n + 1, st =>
      let (ret, d, size, slider) := sliderRead input st.slider u.bufferSize
      if ret ≠ 0 then
        let calls := st.calls ++ [(UInt64.ofNat st.lmatchOffset, uintmaxMax)]
        .ok (min (child calls) 0, calls)
      else do
        let (ret, st) ← splitInner u child input n { st with
          slider := slider
          buffer := 0
          left := d
          originalEoffset := st.originalOffset + size }
        if ret < 0 then .ok (ret, st.calls)
        else splitOuter n { st with originalOffset := st.originalEoffset }

end

/-- `split_handler`: what it answers, and the slices it passes on; `child` answers the
last of them. -/
def splitHandler (u : Split) (child : Calls → Int) (n : Nat) :
    Option Holder → Except OutOfFuel (Int × Calls)
  | none => .ok (errorCode SPLIT_EMODULE 90, [])
  | some input => splitOuter u child input n ⟨0, 0, [], 0, 0, 0, []⟩

/-! ## Separators -/

/-- Where the separator is. -/
def occurrences (split c : List UInt8) (x : Nat) : List Nat :=
  (List.range x).filter fun i => split <+: c.drop i

/-- The first place in the last bytes up to `e` where there is the first byte of the
separator, too near to `e` for all of it. -/
def carry (split c : List UInt8) (e : Nat) : Option Nat :=
  (List.range e).find? fun p =>
    decide (e < p + split.length) && ((c)[p]? == some (split.headD 0))

/-- Where the window ends that is read anew from there on. -/
def Split.refill (u : Split) (c : List UInt8) (e : Nat) : Option Nat :=
  if e < c.length then (carry u.split c e).map fun p => min c.length (p + u.bufferSize)
  else none

section

variable {u : Split} {c : List UInt8} {x s e e' p : Nat}

theorem carry_eq_some : carry u.split c e = some p ↔
    (e < p + u.split.length ∧ (c)[p]? = some (u.split.headD 0)) ∧
    p < e ∧ ∀ q, q < p → e < q + u.split.length → (c)[q]? ≠ some (u.split.headD 0) := by
  rw [carry, List.find?_range_eq_some]
  simp [or_iff_not_imp_left]

theorem carry_eq_none : carry u.split c e = none ↔
    ∀ q, q < e → e < q + u.split.length → (c)[q]? ≠ some (u.split.headD 0) := by
  rw [carry, List.find?_range_eq_none]
  simp [or_iff_not_imp_left]

theorem Split.lt_of_refill (h : u.refill c e = some e') : e < e' ∧ e < c.length := by
  rw [Split.refill] at h
  split_ifs at h with he
  obtain ⟨p, hp, rfl⟩ := Option.map_eq_some_iff.mp h
  have hfits := u.fits
  have hlast := (carry_eq_some.mp hp).1.1
  omega

end

/-- Where a pass of the inner loop ends. -/
def Split.passEnd (u : Split) (c : List UInt8) (e : Nat) : Nat :=
  match _h : u.refill c e with
  | none => e
  | some e' => u.passEnd c e'
termination_by c.length - e
decreasing_by
  have hlt := Split.lt_of_refill _h
  omega

section

variable {u : Split} {c : List UInt8} {x s e e' p i k : Nat}

theorem Split.passEnd_none (h : u.refill c e = none) : u.passEnd c e = e := by
  rw [Split.passEnd]
  split
  · rfl
  · next h' => rw [h] at h'; cases h'

theorem Split.passEnd_some (h : u.refill c e = some e') :
    u.passEnd c e = u.passEnd c e' := by
  rw [Split.passEnd]
  split
  · next h' => rw [h] at h'; cases h'
  · next h' =>
      rw [h] at h'
      cases h'
      rfl

theorem Split.le_passEnd (u : Split) (c : List UInt8) (e : Nat) : e ≤ u.passEnd c e := by
  induction e using Split.passEnd.induct u c with
  | case1 e hnone => rw [u.passEnd_none hnone]
  | case2 e e' hsome ih =>
      rw [u.passEnd_some hsome]
      exact (Split.lt_of_refill hsome).1.le.trans ih

/-! ### The scan of a window -/

theorem getElem?_window (h : x + k < s) : ((c.take s).drop x)[k]? = (c)[x + k]? := by
  rw [List.getElem?_drop, List.getElem?_take_of_lt h]

theorem length_window (hs : s ≤ c.length) : ((c.take s).drop x).length = s - x := by
  rw [List.length_drop, List.length_take_of_le hs]

theorem findIdx?_window_none {b : UInt8}
    (h : ((c.take s).drop x).findIdx? (· == b) = none) :
    ∀ q, x ≤ q → q < s → (c)[q]? ≠ some b := by
  intro q hxq hqs hb
  have hq : x + (q - x) = q := Nat.add_sub_cancel' hxq
  have hmem : b ∈ (c.take s).drop x := by
    refine List.mem_iff_getElem?.mpr ⟨q - x, ?_⟩
    rw [getElem?_window (by omega), hq, hb]
  have hne := List.findIdx?_eq_none_iff.mp h b hmem
  rw [beq_self_eq_true] at hne
  cases hne

theorem findIdx?_window_some {b : UInt8} (hs : s ≤ c.length)
    (h : ((c.take s).drop x).findIdx? (· == b) = some k) :
    x + k < s ∧ (c)[x + k]? = some b ∧ ∀ q, x ≤ q → q < x + k → (c)[q]? ≠ some b := by
  obtain ⟨hk, hhit, hfirst⟩ := List.findIdx?_eq_some_iff_getElem.mp h
  have hlen := length_window (x := x) hs
  refine ⟨by omega, ?_, fun q hxq hqk hb => ?_⟩
  · rw [← getElem?_window (s := s) (by omega), List.getElem?_eq_getElem hk,
      beq_iff_eq.mp hhit]
  · have hq : x + (q - x) = q := Nat.add_sub_cancel' hxq
    have hget : ((c.take s).drop x)[q - x]? = some b := by
      rw [getElem?_window (by omega), hq, hb]
    obtain ⟨hlt, heq⟩ := List.getElem?_eq_some_iff.mp hget
    exact hfirst (q - x) (by omega) (beq_iff_eq.mpr heq)

theorem drop_take_add (hs : s ≤ c.length) (hx : x ≤ s) (m : Nat) :
    (c.take (min c.length (s + m))).drop x = (c.take s).drop x ++ (c.drop s).take m := by
  rw [min_comm, ← List.take_eq_take_min, List.take_add, List.drop_append_of_le_length]
  rwa [List.length_take_of_le hs]

theorem getElem?_of_startsWith (hsep : u.split ≠ []) (h : u.split <+: c.drop i) :
    (c)[i]? = some (u.split.headD 0) ∧ i + u.split.length ≤ c.length := by
  obtain ⟨b, bs, hbs⟩ := List.exists_cons_of_ne_nil hsep
  have hle := h.length_le
  rw [List.length_drop] at hle
  have hpos := List.length_pos_of_ne_nil hsep
  refine ⟨?_, by omega⟩
  obtain ⟨rest, hrest⟩ := h
  rw [hbs, List.cons_append] at hrest
  rw [← List.head?_drop, ← hrest, hbs]
  rfl

/-! ### Found separators -/

theorem occurrences_succ (x : Nat) : occurrences u.split c (x + 1) =
    if u.split <+: c.drop x then occurrences u.split c x ++ [x]
    else occurrences u.split c x := by
  rw [occurrences, List.range_succ, List.filter_append]
  split_ifs with h
  · simp [occurrences, h]
  · simp [occurrences, h]

theorem occurrences_eq (hxs : x ≤ s) (h : ∀ i, x ≤ i → i < s → ¬ u.split <+: c.drop i) :
    occurrences u.split c s = occurrences u.split c x := by
  induction s, hxs using Nat.le_induction with
  | base => rfl
  | succ s hxs ih =>
      rw [occurrences_succ, if_neg (h s hxs (Nat.lt_succ_self s))]
      exact ih fun i hxi his => h i hxi (Nat.lt_succ_of_lt his)

theorem mem_occurrences : i ∈ occurrences u.split c x ↔ i < x ∧ u.split <+: c.drop i := by
  simp [occurrences]

/-! ### Reads -/

theorem Holder.length_lt {h : Holder} {mute : Bool} (hs : h.Sized)
    (hl : h.look 0 = .bytes c mute) : c.length < 2 ^ 64 := by
  rcases eq_or_ne c [] with rfl | hc
  · decide
  · simpa using Holder.Sized.lt hs hl hc

theorem sliderRead_eq {h : Holder} {mute : Bool} (hs : h.Sized)
    (hl : h.look 0 = .bytes c mute) (hx : x ≤ c.length) {n : Nat} (hn : 0 < n) :
    sliderRead h x n = (if x = c.length ∧ mute = false then -1 else 0,
      (c.drop x).take n, min n (c.length - x), min c.length (x + n)) := by
  have hlook := Holder.look_add hs hl hx
  rw [Nat.zero_add] at hlook
  have hread := Holder.read_of_bytes hlook hn
  have hnil : c.drop x = [] ↔ x = c.length := by
    rw [List.drop_eq_nil_iff]
    omega
  have hlt := Holder.length_lt hs hl
  rw [List.length_drop] at hread
  simp only [sliderRead, hread, hnil]
  congr 3
  omega

end

/-! ## A pass -/

/-- The slices from `l` on that end at these places. -/
def slices (l : Nat) : List Nat → Calls
  | [] => []
  | t :: ts => (UInt64.ofNat l, UInt64.ofNat t - UInt64.ofNat l) :: slices t ts

theorem slices_append (l t : Nat) (ts : List Nat) :
    slices l (ts ++ [t])
      = slices l ts ++ [(UInt64.ofNat (ts.getLastD l),
      UInt64.ofNat t - UInt64.ofNat (ts.getLastD l))] := by
  induction ts generalizing l with
  | nil => rfl
  | cons t' ts ih =>
      rw [List.cons_append, slices, ih, slices, List.cons_append, List.getLastD_cons]

/-- These places were told. -/
structure Told (st : Scan) (ts : List Nat) : Prop where
  last : st.lmatchOffset = ts.getLastD 0
  calls : st.calls = slices 0 ts

/-- A window on `c`, in front of its place by `d`, that was looked through up to `x`. -/
structure Window (u : Split) (c : List UInt8) (d x : Nat) (st : Scan) : Prop where
  le : x ≤ st.slider
  slider_le : st.slider ≤ c.length
  left : st.left = (c.take st.slider).drop x
  place : st.originalOffset + st.buffer + d = x
  passed : st.slider < c.length → ∀ q, q < x → st.slider < q + u.split.length →
  (c)[q]? ≠ some (u.split.headD 0)

section

variable {u : Split} {c : List UInt8} {child : Calls → Int} {h : Holder}
  {d e x x₀ k : Nat} {st : Scan} {ts : List Nat} {T : Nat → Nat → Prop}

theorem Window.refill_none (hw : Window u c d x st)
    (hnone : ∀ q, x ≤ q → q < st.slider → (c)[q]? ≠ some (u.split.headD 0)) :
    u.refill c st.slider = none := by
  rw [Split.refill]
  split_ifs with hlt
  · refine Option.map_eq_none_iff.mpr (carry_eq_none.mpr fun q hq hlast => ?_)
    rcases Nat.lt_or_ge q x with hqx | hqx
    · exact hw.passed hlt q hqx hlast
    · exact hnone q hqx hq
  · rfl

/-- What may be the start of a separator is carried to the front. -/
theorem Window.refill_some (hw : Window u c d x st) (hlt : st.slider < c.length)
    (hk : x + k < st.slider) (hhit : (c)[x + k]? = some (u.split.headD 0))
    (hfirst : ∀ q, x ≤ q → q < x + k → (c)[q]? ≠ some (u.split.headD 0))
    (hshort : st.slider < x + k + u.split.length) :
    u.refill c st.slider = some (min c.length (x + k + u.bufferSize)) := by
  rw [Split.refill, if_pos hlt]
  have hcarry : carry u.split c st.slider = some (x + k) := by
    refine carry_eq_some.mpr ⟨⟨hshort, hhit⟩, hk, fun q hq hlast => ?_⟩
    rcases Nat.lt_or_ge q x with hqx | hqx
    · exact hw.passed hlt q hqx hlast
    · exact hfirst q hqx hq
  rw [hcarry]
  rfl

theorem Told.snoc {t : Nat} (ht : Told st ts) : Told
    { st with
      lmatchOffset := t
      calls := st.calls ++ [(UInt64.ofNat st.lmatchOffset,
        UInt64.ofNat t - UInt64.ofNat st.lmatchOffset)] }
    (ts ++ [t]) where
  last := by rw [List.getLastD_concat]
  calls := by rw [slices_append, ← ht.last, ← ht.calls]

/-- **A pass of the inner loop**: it tells every separator up to where the pass ends,
and the place of the end is right only if the window is not read anew. -/
theorem splitInner_pass (hsep : u.split ≠ []) (hchild : ∀ calls, 0 ≤ child calls)
    (hs : h.Sized) (hl : h.look 0 = .bytes c false)
    (hT : ∀ i t, x₀ ≤ i → i < e → t + d = i + u.split.length → T i t) (k : Nat) :
    ∀ x st ts, x₀ ≤ x → Window u c d x st →
      List.Forall₂ T (occurrences u.split c x) ts → Told st ts →
      u.passEnd c st.slider = e → c.length - x + (c.length - st.slider) ≤ k →
      ∃ st' ts', (∀ n, k < n → splitInner u child h n st = .ok (0, st')) ∧
        st'.slider = e ∧ e ≤ c.length ∧
        List.Forall₂ T (occurrences u.split c st'.slider) ts' ∧ Told st' ts' ∧
        (u.refill c st.slider = none ∧ st'.originalEoffset = st.originalEoffset ∨
          u.refill c st.slider ≠ none ∧ st'.originalEoffset + d < st'.slider) := by
  induction k using Nat.strong_induction_on with
  | _ k ih =>
      intro x st ts hx hw hts htold he hk
      have hpassed' := u.le_passEnd c st.slider
      cases hfind : st.left.findIdx? (· == u.split.headD 0) with
      | none =>
          have hnone := findIdx?_window_none (hw.left ▸ hfind)
          have hrefill := hw.refill_none hnone
          refine ⟨st, ts, fun n hn => ?_, he ▸ (u.passEnd_none hrefill).symm,
            ?_, ?_, htold, .inl ⟨hrefill, rfl⟩⟩
          · obtain ⟨n, rfl⟩ := Nat.exists_eq_succ_of_ne_zero (Nat.ne_zero_of_lt hn)
            rw [Nat.succ_eq_add_one, splitInner, hfind]
          · rw [← he, u.passEnd_none hrefill]
            exact hw.slider_le
          · rwa [occurrences_eq hw.le fun i hxi his hpre =>
              hnone i hxi his (getElem?_of_startsWith hsep hpre).1]
      | some j =>
          obtain ⟨hj, hhit, hfirst⟩ := findIdx?_window_some hw.slider_le (hw.left ▸ hfind)
          have hleft : st.left.drop j = (c.take st.slider).drop (x + j) := by
            rw [hw.left, List.drop_drop]
          have hlen : (st.left.drop j).length = st.slider - (x + j) := by
            rw [hleft, length_window hw.slider_le]
          have hskip : occurrences u.split c (x + j) = occurrences u.split c x :=
            occurrences_eq (Nat.le_add_right x j) fun i hxi hij hpre =>
              hfirst i hxi hij (getElem?_of_startsWith hsep hpre).1
          have hplace := hw.place
          have hslider := hw.slider_le
          by_cases hshort : (st.left.drop j).length < u.split.length
          · have hfits := u.fits
            have hread := sliderRead_eq hs hl hw.slider_le
                (n := u.bufferSize - (st.left.drop j).length) (by omega)
            rcases hw.slider_le.lt_or_eq with hlt | heq
            · -- the window is read anew
              rw [if_neg fun h => hlt.ne h.1] at hread
              have hend : min c.length
                  (st.slider + (u.bufferSize - (st.left.drop j).length)) =
                  min c.length (x + j + u.bufferSize) := by omega
              have hrefill := hw.refill_some hlt hj hhit hfirst (by omega)
              have hnext : Window u c d (x + j)
                  { st with
                    slider := min c.length
                      (st.slider + (u.bufferSize - (st.left.drop j).length))
                    buffer := 0
                    left := st.left.drop j ++ (c.drop st.slider).take
                      (u.bufferSize - (st.left.drop j).length)
                    originalOffset := st.originalOffset + (st.buffer + j)
                    originalEoffset := st.originalOffset + (st.buffer + j) +
                      min (u.bufferSize - (st.left.drop j).length)
                        (c.length - st.slider) } := by
                refine ⟨by simp only; omega, min_le_left _ _, ?_, by simp only; omega,
                  fun hlt' q hq hlast => ?_⟩
                · have hgrow := drop_take_add hw.slider_le hj.le
                      (u.bufferSize - (st.left.drop j).length)
                  rw [← hleft] at hgrow
                  exact hgrow.symm
                · simp only at hlt' hlast
                  omega
              have hsame : u.passEnd c (min c.length
                  (st.slider + (u.bufferSize - (st.left.drop j).length))) = e := by
                rw [← he, u.passEnd_some hrefill, hend]
              obtain ⟨st', ts', hrun, hpass, hle, hocc, htold', heof⟩ :=
                ih (k - 1) (by omega) (x + j) _ ts (by omega) hnext
                (by rwa [hskip]) ⟨htold.last, htold.calls⟩ hsame (by simp only; omega)
              refine ⟨st', ts', fun n hn => ?_, hpass, hle, hocc, htold', .inr ⟨?_, ?_⟩⟩
              · obtain ⟨n, rfl⟩ := Nat.exists_eq_succ_of_ne_zero (Nat.ne_zero_of_lt hn)
                rw [Nat.succ_eq_add_one, splitInner, hfind]
                simp only [if_pos hshort, hread]
                exact hrun n (by omega)
              · rw [hrefill]
                exact Option.some_ne_none _
              · rcases heof with ⟨hnone, heoffset⟩ | ⟨-, hlt'⟩
                · rw [hpass, ← hsame, u.passEnd_none hnone, heoffset]
                  simp only
                  omega
                · exact hlt'
            · -- there is nothing more to read
              rw [if_pos ⟨heq, rfl⟩] at hread
              have hnone : u.refill c st.slider = none := by
                rw [Split.refill, if_neg heq.not_lt]
              have hend : min c.length (st.slider +
                  (u.bufferSize - (st.left.drop j).length)) = st.slider := by omega
              rw [hend] at hread
              refine ⟨{ st with slider := st.slider }, ts, fun n hn => ?_,
                he ▸ (u.passEnd_none hnone).symm,
                by rw [← he, u.passEnd_none hnone, heq], ?_, ⟨htold.last, htold.calls⟩,
                .inl ⟨hnone, rfl⟩⟩
              · obtain ⟨n, rfl⟩ := Nat.exists_eq_succ_of_ne_zero (Nat.ne_zero_of_lt hn)
                rw [Nat.succ_eq_add_one, splitInner, hfind]
                simp only [if_pos hshort, hread]
                rfl
              · rwa [occurrences_eq hw.le fun i hxi his hpre => ?_]
                obtain ⟨hi, hroom⟩ := getElem?_of_startsWith hsep hpre
                exact hfirst i hxi (by omega) hi
          · have hmatch : (st.left.drop j).take u.split.length = u.split ↔
                u.split <+: c.drop (x + j) := by
              rw [hleft, List.drop_take, List.take_take, min_eq_left (by omega),
                List.prefix_iff_eq_take]
              exact eq_comm
            have htail : (st.left.drop j).tail = (c.take st.slider).drop (x + j + 1) := by
              rw [hleft, List.tail_drop]
            have hpassed : st.slider < c.length → ∀ q, q < x + j + 1 →
                st.slider < q + u.split.length → (c)[q]? ≠ some (u.split.headD 0) := by
              intro hlt q hq hlast
              rcases Nat.lt_or_ge q x with hqx | hqx
              · exact hw.passed hlt q hqx hlast
              · exact hfirst q hqx (by omega)
            by_cases hsame : (st.left.drop j).take u.split.length = u.split
            · -- a separator
              have hocc := occurrences_succ (u := u) (c := c) (x + j)
              rw [if_pos (hmatch.mp hsame), hskip] at hocc
              obtain ⟨st', ts', hrun, hpass, hle, hocc', htold', heof⟩ :=
                ih (k - 1) (by omega) (x + j + 1) { st with
                  buffer := st.buffer + j + 1
                  left := (st.left.drop j).tail
                  lmatchOffset := st.originalOffset + (st.buffer + j) + u.split.length
                  calls := st.calls ++ [(UInt64.ofNat st.lmatchOffset,
                    UInt64.ofNat (st.originalOffset + (st.buffer + j) + u.split.length)
                      - UInt64.ofNat st.lmatchOffset)] }
                (ts ++ [st.originalOffset + (st.buffer + j) + u.split.length]) (by omega)
                ⟨by simp only; omega, hw.slider_le, htail, by simp only; omega, hpassed⟩
                (by
                  rw [hocc]
                  exact List.rel_append hts
                    (.cons (hT _ _ (by omega) (by omega) (by omega)) .nil))
                ⟨htold.snoc.last, htold.snoc.calls⟩ he (by simp only; omega)
              refine ⟨st', ts', fun n hn => ?_, hpass, hle, hocc', htold', heof⟩
              obtain ⟨n, rfl⟩ := Nat.exists_eq_succ_of_ne_zero (Nat.ne_zero_of_lt hn)
              rw [Nat.succ_eq_add_one, splitInner, hfind]
              simp only [if_neg hshort, if_pos hsame, if_neg (Int.not_lt.mpr (hchild _))]
              exact hrun n (by omega)
            · -- only its first byte
              have hocc := occurrences_succ (u := u) (c := c) (x + j)
              rw [if_neg fun h => hsame (hmatch.mpr h), hskip] at hocc
              obtain ⟨st', ts', hrun, hpass, hle, hocc', htold', heof⟩ :=
                ih (k - 1) (by omega) (x + j + 1)
                { st with buffer := st.buffer + j + 1, left := (st.left.drop j).tail }
                ts (by omega)
                ⟨by simp only; omega, hw.slider_le, htail, by simp only; omega,
                  hpassed⟩ (by rwa [hocc])
                ⟨htold.last, htold.calls⟩ he (by simp only; omega)
              refine ⟨st', ts', fun n hn => ?_, hpass, hle, hocc', htold', heof⟩
              obtain ⟨n, rfl⟩ := Nat.exists_eq_succ_of_ne_zero (Nat.ne_zero_of_lt hn)
              rw [Nat.succ_eq_add_one, splitInner, hfind]
              simp only [if_neg hshort, if_neg hsame]
              exact hrun n (by omega)

end

/-! ## All passes -/

/-- Where the first pass ends in which a window is read anew, if there is one. -/
structure Turn (u : Split) (c : List UInt8) (X : Nat) : Prop where
  first : ∀ m, (∀ j, j < m → u.refill c (u.bufferSize * (j + 1)) = none) →
    u.refill c (u.bufferSize * (m + 1)) ≠ none → X = u.passEnd c (u.bufferSize * (m + 1))
  never : (∀ m, u.refill c (u.bufferSize * (m + 1)) = none) → X = c.length

/-- Up to there the places are right, and behind it they are too small. -/
def Reported (u : Split) (X i t : Nat) : Prop :=
  (i < X → t = i + u.split.length) ∧ (X ≤ i → t < i + u.split.length)

/-- Between two passes the place is right as long as no window was read anew. -/
def Phase (u : Split) (c : List UInt8) (X s d : Nat) : Prop :=
  (d = 0 ∧ ∃ m, s = min c.length (u.bufferSize * m) ∧ ∀ j, j < m →
    u.refill c (u.bufferSize * (j + 1)) = none) ∨ 0 < d ∧ X ≤ s

section

variable {u : Split} {c : List UInt8} {child : Calls → Int} {h : Holder} {d s X : Nat}

theorem exists_turn (u : Split) (c : List UInt8) : ∃ X, Turn u c X := by
  by_cases hex : ∃ m, u.refill c (u.bufferSize * (m + 1)) ≠ none
  · refine ⟨u.passEnd c (u.bufferSize * (Nat.find hex + 1)), fun m hnone hsome => ?_,
      fun hnever => ?_⟩
    · have hm : Nat.find hex = m :=
        (Nat.find_eq_iff hex).mpr ⟨hsome, fun j hj => not_not.mpr (hnone j hj)⟩
      rw [hm]
    · exact absurd (hnever _) (Nat.find_spec hex)
  · refine ⟨c.length, fun m _ hsome => absurd ⟨m, hsome⟩ hex, fun _ => rfl⟩

theorem Turn.le (ht : Turn u c X) {m : Nat}
    (hnone : ∀ j, j < m → u.refill c (u.bufferSize * (j + 1)) = none) :
    min c.length (u.bufferSize * m) ≤ X := by
  by_cases hex : ∃ m, u.refill c (u.bufferSize * (m + 1)) ≠ none
  · have hfirst := ht.first (Nat.find hex)
        (fun j hj => not_not.mp (Nat.find_min hex hj)) (Nat.find_spec hex)
    have hm : m ≤ Nat.find hex := by
      by_contra hlt
      exact Nat.find_spec hex (hnone _ (Nat.lt_of_not_le hlt))
    have hmul := Nat.mul_le_mul_left u.bufferSize (hm.trans (Nat.le_succ _))
    have hpass := u.le_passEnd c (u.bufferSize * (Nat.find hex + 1))
    rw [hfirst]
    exact (min_le_right _ _).trans (hmul.trans hpass)
  · rw [ht.never fun m => by_contra fun hm => hex ⟨m, hm⟩]
    exact min_le_left _ _

/-- What a pass tells, and how it leaves the place. -/
theorem Phase.pass (hphase : Phase u c X s d) (ht : Turn u c X) (hs : s < c.length) :
    (∀ i t, s ≤ i → i < u.passEnd c (min c.length (s + u.bufferSize)) →
      t + d = i + u.split.length → Reported u X i t) ∧
      (u.refill c (min c.length (s + u.bufferSize)) = none →
        Phase u c X (min c.length (s + u.bufferSize)) d) ∧
      (u.refill c (min c.length (s + u.bufferSize)) ≠ none → ∀ d', d < d' →
        Phase u c X (u.passEnd c (min c.length (s + u.bufferSize))) d') := by
  rcases hphase with ⟨rfl, m, hm, hnone⟩ | ⟨hd, hX⟩
  · have hnext : s + u.bufferSize = u.bufferSize * (m + 1) := by
      rw [Nat.mul_succ]
      omega
    rw [hnext]
    by_cases hend : u.refill c (min c.length (u.bufferSize * (m + 1))) = none
    · have hnone' : ∀ j, j < m + 1 → u.refill c (u.bufferSize * (j + 1)) = none := by
        intro j hj
        rcases Nat.lt_succ_iff_lt_or_eq.mp hj with hj | rfl
        · exact hnone j hj
        · rcases le_total (u.bufferSize * (j + 1)) c.length with hle | hle
          · rwa [min_eq_right hle] at hend
          · rw [Split.refill, if_neg (Nat.not_lt.mpr hle)]
      refine ⟨fun i t _ hi hplace => ?_, fun _ => .inl ⟨rfl, m + 1, rfl, hnone'⟩,
        fun h => absurd hend h⟩
      rw [u.passEnd_none hend] at hi
      have hlt := ht.le hnone'
      exact ⟨fun _ => hplace, fun hXi => by omega⟩
    · have hlt : u.bufferSize * (m + 1) < c.length := by
        by_contra hge
        refine hend ?_
        rw [Split.refill, if_neg (by omega)]
      rw [min_eq_right hlt.le] at hend ⊢
      have hX := ht.first m hnone hend
      refine ⟨fun i t _ hi hplace => ⟨fun _ => hplace, fun hXi => ?_⟩,
        fun h => absurd h hend, fun _ d' hd' => .inr ⟨hd', hX.le⟩⟩
      omega
  · have hle : s ≤ min c.length (s + u.bufferSize) := by omega
    have hpass := u.le_passEnd c (min c.length (s + u.bufferSize))
    refine ⟨fun i t hi _ hplace => ⟨fun hlt => ?_, fun _ => ?_⟩,
      fun _ => .inr ⟨hd, hX.trans hle⟩, fun _ d' hd' => .inr ⟨?_, ?_⟩⟩
    all_goals omega

theorem splitOuter_last {st : Scan} {ts : List Nat} {n : Nat}
    (hchild : ∀ calls, 0 ≤ child calls) (hread : (h.read st.slider u.bufferSize).1 ≠ 0)
    (htold : Told st ts) (hn : 0 < n) :
    splitOuter u child h n st
      = .ok (0, slices 0 ts ++ [(UInt64.ofNat (ts.getLastD 0), uintmaxMax)]) := by
  obtain ⟨n, rfl⟩ := Nat.exists_eq_succ_of_ne_zero hn.ne'
  rw [Nat.succ_eq_add_one, splitOuter]
  simp only [sliderRead, if_pos hread, htold.last, htold.calls]
  rw [min_eq_right (hchild _)]

/-- **All passes.** -/
theorem splitOuter_told (hsep : u.split ≠ []) (hchild : ∀ calls, 0 ≤ child calls)
    (hs : h.Sized) (hl : h.look 0 = .bytes c false) (ht : Turn u c X) (k : Nat) :
    ∀ st ts d, Phase u c X st.slider d → st.slider ≤ c.length →
      st.originalOffset + d = st.slider →
      List.Forall₂ (Reported u X) (occurrences u.split c st.slider) ts → Told st ts →
      c.length - st.slider ≤ k →
      ∃ ts', (∀ n, 2 * c.length + k < n → splitOuter u child h n st =
        .ok (0, slices 0 ts' ++ [(UInt64.ofNat (ts'.getLastD 0), uintmaxMax)])) ∧
        List.Forall₂ (Reported u X) (occurrences u.split c c.length) ts' := by
  have hpos : 0 < u.bufferSize := (List.length_pos_of_ne_nil hsep).trans_le u.fits
  have hlast : ∀ k st ts, st.slider = c.length →
      List.Forall₂ (Reported u X) (occurrences u.split c st.slider) ts →
      Told st ts → ∃ ts', (∀ n, 2 * c.length + k < n → splitOuter u child h n st =
        .ok (0, slices 0 ts' ++ [(UInt64.ofNat (ts'.getLastD 0), uintmaxMax)])) ∧
        List.Forall₂ (Reported u X) (occurrences u.split c c.length) ts' := by
    intro k st ts hend hts htold
    have hread := congrArg Prod.fst (sliderRead_eq hs hl hend.le hpos)
    rw [if_pos ⟨hend, rfl⟩] at hread
    have hne : (h.read st.slider u.bufferSize).1 ≠ 0 := by
      rw [show (h.read st.slider u.bufferSize).1 = -1 from hread]
      decide
    exact ⟨ts, fun n hn => splitOuter_last hchild hne htold (by omega), hend ▸ hts⟩
  induction k with
  | zero =>
      intro st ts d hphase hle hplace hts htold hk
      exact hlast 0 st ts (by omega) hts htold
  | succ k ih =>
      intro st ts d hphase hle hplace hts htold hk
      rcases hle.lt_or_eq with hlt | hend
      swap
      · exact hlast (k + 1) st ts hend hts htold
      have hread := sliderRead_eq hs hl hle hpos
      rw [if_neg fun h => hlt.ne h.1] at hread
      obtain ⟨hT, hnone, hsome⟩ := hphase.pass ht hlt
      have hwindow : Window u c d st.slider
          { st with
            slider := min c.length (st.slider + u.bufferSize)
            buffer := 0
            left := (c.drop st.slider).take u.bufferSize
            originalEoffset :=
              st.originalOffset + min u.bufferSize (c.length - st.slider) } := by
        refine ⟨by simp only; omega, min_le_left _ _, ?_, by simp only; omega,
          fun hlt' q hq hnear => ?_⟩
        · have hgrow := drop_take_add hle (le_refl _) u.bufferSize
          have hempty : (c.take st.slider).drop st.slider = [] :=
            List.drop_eq_nil_of_le (by rw [List.length_take]; omega)
          rw [hempty, List.nil_append] at hgrow
          exact hgrow.symm
        · have hfits := u.fits
          simp only at hlt' hnear
          omega
      obtain ⟨st', ts', hrun, hpass, hle', hts', htold', heof⟩ :=
        splitInner_pass hsep hchild hs hl hT
        (2 * c.length) st.slider _ ts (le_refl _) hwindow hts ⟨htold.last, htold.calls⟩
        rfl (by simp only; omega)
      have hgrow := u.le_passEnd c (min c.length (st.slider + u.bufferSize))
      -- the place of the next pass
      have hnext : ∃ d', Phase u c X st'.slider d' ∧
          st'.originalEoffset + d' = st'.slider := by
        rcases heof with ⟨hkeep, heof⟩ | ⟨hanew, heof⟩
        · rw [u.passEnd_none hkeep] at hpass
          exact ⟨d, hpass ▸ hnone hkeep, by rw [heof, hpass]; simp only; omega⟩
        · exact ⟨st'.slider - st'.originalEoffset,
            hpass ▸ hsome hanew _ (by omega), by omega⟩
      obtain ⟨d', hphase', hplace'⟩ := hnext
      obtain ⟨ts'', hrun', htold''⟩ := ih { st'
        with originalOffset := st'.originalEoffset } ts' d' hphase' (hpass ▸ hle')
        hplace' (hpass ▸ hts') ⟨htold'.last, htold'.calls⟩ (by simp only; omega)
      refine ⟨ts'', fun n hn => ?_, htold''⟩
      obtain ⟨n, rfl⟩ := Nat.exists_eq_succ_of_ne_zero (Nat.ne_zero_of_lt hn)
      rw [Nat.succ_eq_add_one, splitOuter, hread]
      simp only [if_neg (show ¬ (0 : Int) ≠ 0 from not_not.mpr rfl)]
      rw [hrun n (by omega)]
      exact hrun' n (by omega)

end

/-! ## The split -/

/-- The source never tells its end. -/
def Holder.mute (h : Holder) : Bool :=
  match h.look 0 with
  | .bytes _ mute => mute
  | _ => false

/-- Slices of an input that follow each other, make up all of it, and end where a
separator ends. -/
structure Cut (split : List UInt8) (h : Holder) (calls : Calls) : Prop where
  first : calls.head?.map Prod.fst = some 0
  consecutive : calls.IsChain fun s s' => s'.1 = s.1 + s.2
  whole : (calls.map fun s => (Holder.slice s.1 s.2 h).content).flatten = h.content
  cuts : (calls.map fun s => s.1.toNat).tail
    = (occurrences split h.content h.content.length).map (· + split.length)

/-- `split_handler` returns 0 and has cut its input. -/
def Split.Cuts (u : Split) (child : Calls → Int) (h : Holder) : Prop :=
  ∃ calls, Returns (fun n => splitHandler u child n (some h)) (0, calls) ∧
  Cut u.split h calls

/-- No separator begins behind the first pass in which a window is read anew. -/
def Split.Near (u : Split) (c : List UInt8) : Prop :=
  ∀ m, (∀ j, j < m → u.refill c (u.bufferSize * (j + 1)) = none) →
  u.refill c (u.bufferSize * (m + 1)) ≠ none →
    ∀ i, u.split <+: c.drop i → i < u.passEnd c (u.bufferSize * (m + 1))

section

variable {u : Split} {c : List UInt8} {child : Calls → Int} {h : Holder} {X l : Nat}
  {ts : List Nat}

/-- All slices from `l` on, if the separators end at these places. -/
def sent (l : Nat) : List Nat → Calls
  | [] => [(UInt64.ofNat l, uintmaxMax)]
  | t :: ts => (UInt64.ofNat l, UInt64.ofNat t - UInt64.ofNat l) :: sent t ts

theorem slices_last (l : Nat) (ts : List Nat) :
    slices l ts ++ [(UInt64.ofNat (ts.getLastD l), uintmaxMax)] = sent l ts := by
  induction ts generalizing l with
  | nil => rfl
  | cons t ts ih => rw [slices, List.cons_append, List.getLastD_cons, ih, sent]

theorem sent_starts (l : Nat) (ts : List Nat) :
    (sent l ts).map Prod.fst = (l :: ts).map UInt64.ofNat := by
  induction ts generalizing l with
  | nil => rfl
  | cons t ts ih =>
      rw [sent, List.map_cons, ih]
      rfl

theorem sent_consecutive (l : Nat) (ts : List Nat) :
    (sent l ts).IsChain fun s s' => s'.1 = s.1 + s.2 := by
  have hnext : ∀ l t : UInt64, t = l + (t - l) := fun l t => by
    rw [UInt64.add_comm, UInt64.sub_add_cancel]
  induction ts generalizing l with
  | nil => exact .singleton _
  | cons t ts ih =>
      have hrest := ih t
      cases ts with
      | nil => exact .cons_cons (hnext _ _) hrest
      | cons t' ts => exact .cons_cons (hnext _ _) hrest

theorem Holder.content_of_look {mute : Bool} (hl : h.look 0 = .bytes c mute) :
    h.content = c := by
  rw [Holder.content, hl]

theorem Holder.content_slice {mute : Bool} (hs : h.Sized)
    (hl : h.look 0 = .bytes c mute) (hle : l ≤ c.length) (n : UInt64) :
    (Holder.slice (UInt64.ofNat l) n h).content = (c.drop l).take n.toNat := by
  have hlt := Holder.length_lt hs hl
  have hoff : (0 + (UInt64.ofNat l).toNat) % 2 ^ 64 = 0 + l := by
    rw [UInt64.toNat_ofNat_of_lt' (hle.trans_lt hlt)]
    omega
  rw [Holder.content, Holder.look, if_neg (Nat.not_lt_zero _), Nat.sub_zero, hoff,
    Holder.look_add hs hl hle]
  by_cases hn : n.toNat = 0
  · rw [if_pos hn, hn, List.take_zero]
  · rw [if_neg hn]
    rfl

/-- The slices make up what there is from `l` on. -/
theorem sent_whole {mute : Bool} (hs : h.Sized) (hl : h.look 0 = .bytes c mute)
    (ts : List Nat) :
    ∀ l, l ≤ c.length → (l :: ts).IsChain (· ≤ ·) → (∀ t ∈ ts, t ≤ c.length) →
      ((sent l ts).map fun s => (Holder.slice s.1 s.2 h).content).flatten = c.drop l := by
  have hlt := Holder.length_lt hs hl
  induction ts with
  | nil =>
      intro l hle _ _
      have hmax : uintmaxMax.toNat = 2 ^ 64 - 1 := by decide
      rw [sent, List.map_singleton, List.flatten_singleton,
        Holder.content_slice hs hl hle, hmax,
        List.take_of_length_le (by rw [List.length_drop]; omega)]
  | cons t ts ih =>
      intro l hle hchain hmem
      have ht := hmem t (List.mem_cons_self ..)
      obtain ⟨hlet, hrest⟩ := List.isChain_cons_cons.mp hchain
      have hsize : (UInt64.ofNat t - UInt64.ofNat l).toNat = t - l := by
        rw [← UInt64.ofNat_sub hlet]
        exact UInt64.toNat_ofNat_of_lt' (by omega : t - l < 2 ^ 64)
      rw [sent, List.map_cons, List.flatten_cons,
        ih t ht hrest fun t' ht' => hmem t' (List.mem_cons_of_mem t ht'),
        Holder.content_slice hs hl hle, hsize]
      have hdrop : c.drop t = (c.drop l).drop (t - l) := by
        rw [List.drop_drop, Nat.add_sub_cancel' hlet]
      rw [hdrop, List.take_append_drop]

/-- The places that were told are the right ones if no separator is behind `X`. -/
theorem told_eq_iff
    (htold : List.Forall₂ (Reported u X) (occurrences u.split c c.length) ts) :
    ts = (occurrences u.split c c.length).map (· + u.split.length) ↔
      ∀ i, i ∈ occurrences u.split c c.length → i < X := by
  generalize occurrences u.split c c.length = is at htold
  induction htold with
  | nil => simp
  | @cons i t is ts hit _ ih =>
      rw [List.map_cons, List.cons.injEq, ih, List.forall_mem_cons]
      refine and_congr_left fun _ => ⟨fun ht => ?_, hit.1⟩
      by_contra hX
      exact (hit.2 (Nat.le_of_not_lt hX)).ne ht

theorem le_of_told (hsep : u.split ≠ [])
    (htold : List.Forall₂ (Reported u X) (occurrences u.split c c.length) ts) :
    ∀ t ∈ ts, t ≤ c.length := by
  have hle : ∀ i, i ∈ occurrences u.split c c.length →
      i + u.split.length ≤ c.length := fun i hi =>
    (getElem?_of_startsWith hsep (mem_occurrences.mp hi).2).2
  generalize occurrences u.split c c.length = is at htold hle
  induction htold with
  | nil => simp
  | @cons i t is ts hit _ ih =>
      have hi := hle i (List.mem_cons_self ..)
      refine List.forall_mem_cons.mpr
        ⟨?_, ih fun j hj => hle j (List.mem_cons_of_mem i hj)⟩
      rcases Nat.lt_or_ge i X with hX | hX
      · rw [hit.1 hX]
        exact hi
      · exact (hit.2 hX).le.trans hi

theorem occurrences_chain (x : Nat) :
    (0 :: (occurrences u.split c x).map (· + u.split.length)).IsChain (· ≤ ·) := by
  have hsorted : ((occurrences u.split c x).map (· + u.split.length)).Pairwise
      (· ≤ ·) := by
    refine List.pairwise_map.mpr
      (List.Pairwise.imp (fun h => ?_) (List.Pairwise.filter _ List.pairwise_lt_range))
    omega
  exact (List.pairwise_cons.mpr ⟨fun t _ => Nat.zero_le t, hsorted⟩).isChain

/-- **The input is cut** where the separators end exactly if the right
places were told. -/
theorem cut_iff {mute : Bool} (hs : h.Sized) (hl : h.look 0 = .bytes c mute)
    (hle : ∀ t ∈ ts, t ≤ c.length) :
    Cut u.split h (sent 0 ts) ↔
      ts = (occurrences u.split c c.length).map (· + u.split.length) := by
  have hcontent := Holder.content_of_look hl
  have hlt := Holder.length_lt hs hl
  have hstarts : ((sent 0 ts).map fun s => s.1.toNat).tail = ts := by
    have hmap := congrArg (List.map UInt64.toNat) (sent_starts 0 ts)
    rw [List.map_map, List.map_map] at hmap
    change (List.map (UInt64.toNat ∘ Prod.fst) (sent 0 ts)).tail = ts
    rw [hmap, List.map_cons, List.tail_cons]
    refine (List.map_congr_left fun t ht => ?_).trans (List.map_id ts)
    exact UInt64.toNat_ofNat_of_lt' ((hle t ht).trans_lt hlt)
  constructor
  · intro hcut
    have hcuts := hcut.cuts
    rwa [hstarts, hcontent] at hcuts
  · intro hts
    refine ⟨?_, sent_consecutive 0 ts, ?_, by rw [hstarts, hcontent, hts]⟩
    · cases ts <;> rfl
    · rw [sent_whole hs hl ts 0 (Nat.zero_le _) (hts ▸ occurrences_chain _) hle,
        hcontent, List.drop_zero]

theorem Turn.near_iff (hsep : u.split ≠ []) (ht : Turn u c X) :
    (∀ i, i ∈ occurrences u.split c c.length → i < X) ↔ u.Near c := by
  constructor
  · intro hall m hnone hsome i hpre
    have hroom := (getElem?_of_startsWith hsep hpre).2
    have hpos := List.length_pos_of_ne_nil hsep
    rw [← ht.first m hnone hsome]
    exact hall i (mem_occurrences.mpr ⟨by omega, hpre⟩)
  · intro hnear i hi
    obtain ⟨hlt, hpre⟩ := mem_occurrences.mp hi
    by_cases hex : ∃ m, u.refill c (u.bufferSize * (m + 1)) ≠ none
    · have hnone : ∀ j, j < Nat.find hex →
          u.refill c (u.bufferSize * (j + 1)) = none := fun j hj =>
        not_not.mp (Nat.find_min hex hj)
      rw [ht.first _ hnone (Nat.find_spec hex)]
      exact hnear _ hnone (Nat.find_spec hex) i hpre
    · rwa [ht.never fun m => by_contra fun hm => hex ⟨m, hm⟩]

/-! ### Inputs without an end -/

theorem splitInner_mute (hchild : ∀ calls, 0 ≤ child calls) (hs : h.Sized)
    (hl : h.look 0 = .bytes c true) (n : Nat) :
    ∀ st, st.slider ≤ c.length → splitInner u child h n st = .error .outOfFuel ∨
      ∃ st', splitInner u child h n st = .ok (0, st') ∧ st'.slider ≤ c.length := by
  induction n with
  | zero => exact fun st _ => .inl rfl
  | succ n ih =>
      intro st hst
      rw [splitInner]
      cases st.left.findIdx? (· == u.split.headD 0) with
      | none => exact .inr ⟨st, rfl, hst⟩
      | some k =>
          have hfits := u.fits
          simp only
          split_ifs with hshort hread hsame hneg
          · have hend := sliderRead_eq hs hl hst
                (n := u.bufferSize - (st.left.drop k).length) (by omega)
            rw [hend] at hread
            simp at hread
          · refine ih _ ?_
            rw [sliderRead_eq hs hl hst (by omega)]
            exact min_le_left _ _
          · exact absurd hneg (Int.not_lt.mpr (hchild _))
          · exact ih _ hst
          · exact ih _ hst

/-- What does not tell its end is read for ever. -/
theorem splitOuter_mute (hsep : u.split ≠ []) (hchild : ∀ calls, 0 ≤ child calls)
    (hs : h.Sized) (hl : h.look 0 = .bytes c true) (n : Nat) :
    ∀ st, st.slider ≤ c.length → splitOuter u child h n st = .error .outOfFuel := by
  have hpos : 0 < u.bufferSize := (List.length_pos_of_ne_nil hsep).trans_le u.fits
  induction n with
  | zero => exact fun st _ => rfl
  | succ n ih =>
      intro st hst
      have hread := sliderRead_eq hs hl hst hpos
      rw [if_neg fun h => Bool.noConfusion h.2] at hread
      rw [splitOuter, hread]
      simp only [if_neg (show ¬ (0 : Int) ≠ 0 from not_not.mpr rfl)]
      rcases splitInner_mute (u := u) hchild hs hl n
        { st with
          slider := min c.length (st.slider + u.bufferSize)
          buffer := 0
          left := (c.drop st.slider).take u.bufferSize
          originalEoffset :=
            st.originalOffset + min u.bufferSize (c.length - st.slider) }
              (min_le_left _ _) with herr | ⟨st', hok, hst'⟩
      · rw [herr]
        rfl
      · rw [hok]
        exact ih _ hst'

theorem Holder.content_of_unread (hl : ∀ c mute, h.look 0 ≠ .bytes c mute) :
    h.content = [] ∧ h.mute = false ∧ (Holder.slice 0 uintmaxMax h).content = [] := by
  have hslice : (Holder.slice 0 uintmaxMax h).look 0 = (h.look 0).slice
      uintmaxMax.toNat := rfl
  rw [Holder.content, Holder.mute, Holder.content, hslice]
  cases hlook : h.look 0 with
  | refused => exact ⟨rfl, rfl, rfl⟩
  | debris room => exact ⟨rfl, rfl, rfl⟩
  | bytes c mute => exact absurd hlook (hl c mute)

/-- An input of which nothing is read is passed on as it is. -/
theorem splitHandler_unread (hchild : ∀ calls, 0 ≤ child calls)
    (hread : (h.read 0 u.bufferSize).1 < 0) (n : Nat) :
    splitHandler u child (n + 1) (some h) = .ok (0, sent 0 []) :=
  have htold : Told ⟨0, 0, [], 0, 0, 0, []⟩ [] := ⟨rfl, rfl⟩
  splitOuter_last hchild hread.ne htold (Nat.succ_pos n)

end

/-- **The input is cut at its separators** exactly if it tells its end, and no separator
is behind the first pass in which a window is read anew. -/
theorem split_cuts_iff (u : Split) (hsep : u.split ≠ []) (child : Calls → Int)
    (hchild : ∀ calls, 0 ≤ child calls) (h : Holder) (hs : h.Sized) :
    u.Cuts child h ↔ h.mute = false ∧ u.Near h.content := by
  have hpos : 0 < u.bufferSize := (List.length_pos_of_ne_nil hsep).trans_le u.fits
  -- an input without bytes
  have hunread : (∀ c mute, h.look 0 ≠ .bytes c mute) → (h.read 0 u.bufferSize).1 < 0 →
      (u.Cuts child h ↔ h.mute = false ∧ u.Near h.content) := by
    intro hl hread
    obtain ⟨hcontent, hmute, hslice⟩ := Holder.content_of_unread hl
    rw [hcontent]
    refine iff_of_true ⟨sent 0 [], .of_succ
      (.of_forall fun n => splitHandler_unread hchild hread n), ?_⟩ ⟨hmute, ?_⟩
    · refine ⟨rfl, .singleton _, ?_, by rw [hcontent]; rfl⟩
      rw [hcontent, sent, List.map_singleton, List.flatten_singleton]
      exact hslice
    · exact fun m _ hsome => absurd (if_neg (Nat.not_lt_zero _)) hsome
  cases hl : h.look 0 with
  | refused =>
      have hlt := h.read_of_refused hl hpos
      exact hunread (fun c mute hb => by rw [hl] at hb; cases hb) (by omega)
  | debris room =>
      have hread := h.read_of_debris hl hpos (k := 0) fun r _ => Nat.zero_le r
      refine hunread (fun c mute hb => by rw [hl] at hb; cases hb) ?_
      rw [Nat.zero_add] at hread
      rw [hread]
      exact Int.negSucc_lt_zero 0
  | bytes c mute =>
      have hcontent := Holder.content_of_look hl
      have hmute : h.mute = mute := by rw [Holder.mute, hl]
      rw [hcontent, hmute]
      cases mute with
      | true =>
          refine iff_of_false ?_ fun h => Bool.noConfusion h.1
          rintro ⟨calls, hreturns, -⟩
          exact Fails.not_returns (.of_forall fun n =>
            splitOuter_mute hsep hchild hs hl n _ (Nat.zero_le _)) hreturns
      | false =>
          obtain ⟨X, hturn⟩ := exists_turn u c
          obtain ⟨ts, hrun, htold⟩ := splitOuter_told hsep hchild hs hl hturn c.length
            ⟨0, 0, [], 0, 0, 0, []⟩ [] 0
            (.inl ⟨rfl, 0, by simp, fun j hj => absurd hj (Nat.not_lt_zero j)⟩)
            (Nat.zero_le _) rfl .nil ⟨rfl, rfl⟩ (Nat.sub_le _ _)
          rw [slices_last] at hrun
          have hreturns : Returns (fun n => splitHandler u child n (some h))
              (0, sent 0 ts) :=
            ⟨2 * c.length + c.length + 1, fun n hn => hrun n hn⟩
          have hcuts : u.Cuts child h ↔ Cut u.split h (sent 0 ts) := by
            constructor
            · rintro ⟨calls, hcalls, hcut⟩
              cases hcalls.unique hreturns
              exact hcut
            · exact fun hcut => ⟨_, hreturns, hcut⟩
          rw [hcuts, cut_iff hs hl (le_of_told hsep htold), told_eq_iff htold,
            hturn.near_iff hsep, eq_self, true_and]

theorem split_cuts_iff_lines :
    let u := splitConfigure splitInit (some 4) none
    u.Cuts (fun _ => 0) (.raw (.mem [97, 10, 98])) ↔
      (Holder.raw (.mem [97, 10, 98])).mute = false ∧
      u.Near (Holder.raw (.mem [97, 10, 98])).content :=
  split_cuts_iff (splitConfigure splitInit (some 4) none) (by decide) (fun _ => 0)
    (fun _ => le_refl _) (.raw (.mem [97, 10, 98])) fun bytes h => by
      cases h
      decide

example : splitHandler (splitConfigure splitInit (some 4) none) (fun _ => 0) 9
    (some (.raw (.mem [97, 10, 98]))) = .ok (0, [(0, 2), (2, uintmaxMax)]) := by decide

/-- `xabab` is split at `ab` through a window of two bytes: the first separator is
carried over, and the second one is told to end at 4. -/
theorem split_misplaced :
    ¬ (splitConfigure splitInit (some 2) (some [97, 98])).Cuts (fun _ => 0)
      (.raw (.mem [120, 97, 98, 97, 98])) := by
  rintro ⟨calls, hcalls, hcut⟩
  have hreturns : Returns (fun n =>
      splitHandler (splitConfigure splitInit (some 2) (some [97, 98])) (fun _ => 0) n
      (some (.raw (.mem [120, 97, 98, 97, 98]))))
        (0, [(0, 3), (3, 1), (4, uintmaxMax)]) := by
    refine ⟨9, fun n hn => ?_⟩
    obtain ⟨n, rfl⟩ := Nat.exists_eq_add_of_le' hn
    rfl
  cases hcalls.unique hreturns
  exact absurd hcut.cuts (by decide)

end Frozen.Data
