/-
# `Frozen.Mphf.Codec` — packed edges and the mask of a query

An edge is four words of `bt_vertex` bytes each, and the C code moves them through eight
bytes at a time: `graph_set_edge` stores four overlapping `uintmax_t` and
`graph_get_edge` loads four and masks what belongs to the next field.  The mask is `(1
<< 8 * bt_vertex) - 1`, and at the width of 8 the shift counts to 64.  Nothing is left
then where everything should be.  The mask of `mphf_chm_imp_query` has the same end, at
64 value bits.
-/
import Frozen.Mphf.Rebuild

namespace Frozen.Mphf

open Frozen.Lib

/-! ## Edges -/

/-- The id of an edge that is stored. -/
def Stored (s : ChmImp) (id : Nat) : Prop := 1 ≤ id ∧ id ≤ edgeCount s

/-- Every field in `bt_vertex` bytes. -/
structure GraphEdge.Fits (edge : GraphEdge) (w : Nat) : Prop where
  vertex0 : edge.vertex0 < 256 ^ w
  vertex1 : edge.vertex1 < 256 ^ w
  next0 : edge.next0 < 256 ^ w
  next1 : edge.next1 < 256 ^ w

/-- An edge is stored under its id and comes back as it was, and every
other edge stays. -/
def Exact (s : ChmImp) (id : Nat) (edge : GraphEdge) : Prop :=
  ∃ s', graphSetEdge id edge s = .ok () s' ∧ graphGetEdge id s' = .ok edge s' ∧
    ∀ id', Stored s id' → id' ≠ id →
      ∃ edge', graphGetEdge id' s = .ok edge' s ∧ graphGetEdge id' s' = .ok edge' s'

/-- The mask of `graph_get_edge` keeps nothing of eight bytes. -/
theorem vertexMask_eight : vertexMask 8 = 0 := by decide +kernel

section Edge

variable {s : ChmImp} {st : List UInt8} {id : Nat}

/-- The edge that four words are taken for. -/
def edgeAt (st : List UInt8) (w id : Nat) : GraphEdge :=
  if w ≤ 7 then
    ⟨wordAt st 0 w (4 * (id - 1)), wordAt st 0 w (4 * (id - 1) + 1),
      wordAt st 0 w (4 * (id - 1) + 2), wordAt st 0 w (4 * (id - 1) + 3)⟩
  else ⟨0, 0, 0, 0⟩

theorem Stored.inside (h : Stored s id) (he : s.be .e = some st) :
    (id - 1) * sizeofEdge s + sizeofEdge s ≤ st.length := by
  have hcount : edgeCount s = st.length / sizeofEdge s := by
    rw [edgeCount, he, Option.map_some, Option.getD_some]
  obtain ⟨h1, h2⟩ := h
  have hlt : id - 1 < edgeCount s := by omega
  refine (entry_le _ hlt).trans ?_
  rw [hcount]
  exact Nat.div_mul_le_self _ _

theorem Stored.offset (h : Stored s id) (he : s.be .e = some st)
    (hlen : st.length < 2 ^ 64) (hpos : 0 < sizeofEdge s) :
    edgeOffset s id = (id - 1) * sizeofEdge s := by
  have hin := h.inside he
  have hid : id - 1 ≤ (id - 1) * sizeofEdge s := Nat.le_mul_of_pos_right _ hpos
  obtain ⟨h1, -⟩ := h
  rw [edgeOffset, show (id + (2 ^ 64 - 1)) % 2 ^ 64 = id - 1 by omega,
    Nat.mod_eq_of_lt (by omega)]

/-- What `graph_get_edge` makes of the bytes of a stored edge. -/
theorem run_graphGetEdge_stored (h : Stored s id) (he : s.be .e = some st)
    (hlen : st.length < 2 ^ 64) (h1 : 1 ≤ s.btVertex) (h8 : s.btVertex ≤ 8) :
    graphGetEdge id s = .ok (edgeAt st s.btVertex id) s := by
  have hpos : 0 < sizeofEdge s := Nat.mul_pos (by norm_num) h1
  have hin := h.inside he
  obtain ⟨n, rfl⟩ := Nat.exists_eq_succ_of_ne_zero (Nat.one_le_iff_ne_zero.mp h.1)
  have hoff := h.offset he hlen hpos
  rw [edgeAt]
  split_ifs with h7
  · exact run_graphGetEdge_words he hoff hin h7
  · obtain h8 : s.btVertex = 8 := by omega
    rw [graphGetEdge, run_bind_ok (run_get s), hoff, run_bind_ok (run_fastRead he hin)]
    simp only [h8, vertexMask_eight, Nat.and_zero, run_pure]

/-- Storing an edge changes its own four words. -/
theorem run_graphSetEdge_stored (h : Stored s id) (he : s.be .e = some st)
    (hlen : st.length < 2 ^ 64) (h1 : 1 ≤ s.btVertex) (h8 : s.btVertex ≤ 8)
    {edge : GraphEdge} (hfit : edge.Fits s.btVertex) :
    ∃ st', graphSetEdge id edge s
      = .ok () { s with be := Function.update s.be .e (some st') } ∧
      st'.length = st.length ∧
      (s.btVertex ≤ 7 → edgeAt st' s.btVertex id = edge) ∧
      ∀ id', 1 ≤ id' → id' ≠ id →
      edgeAt st' s.btVertex id' = edgeAt st s.btVertex id' := by
  have hpos : 0 < sizeofEdge s := Nat.mul_pos (by norm_num) h1
  have hin := h.inside he
  have hoff : (id - 1) * sizeofEdge s = 0 + 4 * (id - 1) * s.btVertex := by
    unfold sizeofEdge
    ring
  set ws := [edge.vertex0, edge.vertex1, edge.next0, edge.next1] with hws
  have hle : 0 + 4 * (id - 1) * s.btVertex + (leWords s.btVertex ws).length
      ≤ st.length := by
    rw [length_leWords, ← hoff]
    exact hin
  obtain ⟨st', hst'⟩ := exists_writeAt hle
  have hword := fun j => wordAt_writeAt hst' j
  refine ⟨st', ?_, length_writeAt hst', fun h7 => ?_, fun id' hid' hne => ?_⟩
  · rw [graphSetEdge, run_bind_ok (run_get s), h.offset he hlen hpos,
      edgeBytes_eq h8, hoff, run_bind_ok (run_fastWrite he hst')]
    rfl
  · obtain ⟨hv0, hv1, hn0, hn1⟩ := hfit
    rw [edgeAt, if_pos h7, hword, hword, hword, hword]
    simp only [hws, List.length_cons, List.length_nil]
    rw [dif_pos (by omega), dif_pos (by omega), dif_pos (by omega), dif_pos (by omega)]
    simp [Nat.mod_eq_of_lt hv0, Nat.mod_eq_of_lt hv1, Nat.mod_eq_of_lt hn0,
      Nat.mod_eq_of_lt hn1]
  · obtain ⟨h1', -⟩ := h
    have hlen4 : ws.length = 4 := rfl
    rw [edgeAt, edgeAt, hword, hword, hword, hword, dif_neg (by rw [hlen4]; omega),
      dif_neg (by rw [hlen4]; omega), dif_neg (by rw [hlen4]; omega),
      dif_neg (by rw [hlen4]; omega)]

/-- Up to seven bytes a field is what it was; of eight bytes nothing comes back. -/
theorem exact_iff (h : Stored s id) (he : s.be .e = some st) (hlen : st.length < 2 ^ 64)
    (h1 : 1 ≤ s.btVertex) (h8 : s.btVertex ≤ 8) {edge : GraphEdge}
    (hfit : edge.Fits s.btVertex) :
    Exact s id edge ↔ s.btVertex ≤ 7 ∨ edge = ⟨0, 0, 0, 0⟩ := by
  obtain ⟨st', hset, hlen', hself, hother⟩ := run_graphSetEdge_stored h he hlen h1 h8 hfit
  set s' : ChmImp := { s with be := Function.update s.be .e (some st') } with hs'
  have he' : s'.be .e = some st' := by simp [hs']
  have hcount : edgeCount s' = edgeCount s := by
    rw [edgeCount, edgeCount, he', he, Option.map_some, Option.map_some, hlen']
    rfl
  have hget : ∀ id', Stored s id' →
      graphGetEdge id' s' = .ok (edgeAt st' s.btVertex id') s' := fun id' hid' =>
    run_graphGetEdge_stored (s := s') ⟨hid'.1, hcount ▸ hid'.2⟩ he' (hlen' ▸ hlen) h1 h8
  constructor
  · rintro ⟨s'', hset', hback, -⟩
    obtain rfl : s' = s'' := by
      rw [hset] at hset'
      cases hset'
      rfl
    rw [hget id h, EStateM.Result.ok.injEq] at hback
    by_cases h7 : s.btVertex ≤ 7
    · exact Or.inl h7
    · rw [edgeAt, if_neg h7] at hback
      exact Or.inr hback.1.symm
  · intro hcond
    refine ⟨s', hset, ?_, fun id' hid' hne => ⟨edgeAt st s.btVertex id', ?_, ?_⟩⟩
    · rw [hget id h]
      by_cases h7 : s.btVertex ≤ 7
      · rw [hself h7]
      · rw [edgeAt, if_neg h7, hcond.resolve_left h7]
    · exact run_graphGetEdge_stored hid' he hlen h1 h8
    · rw [hget id' hid', hother id' hid'.1 hne]

end Edge

/-! ## Values -/

/-- The mask of a query keeps nothing of 64 bits. -/
theorem query_mask_iff {b : Nat} (h64 : b ≤ 64) (x : UInt64) :
    x &&& ((1 <<< UInt64.ofNat b) - 1) = UInt64.ofNat (x.toNat % 2 ^ b) ↔
      b ≤ 63 ∨ x = 0 := by
  rcases Nat.lt_or_ge b 64 with hlt | hge
  · refine iff_of_true ?_ (Or.inl (Nat.le_of_lt_succ hlt))
    have hsmall : x.toNat % 2 ^ b < 2 ^ 64 := (Nat.mod_le _ _).trans_lt x.toNat_lt
    rw [← UInt64.toNat_inj, toNat_valueMask (Nat.le_of_lt_succ hlt), UInt64.toNat_ofNat',
      Nat.mod_eq_of_lt hsmall]
  · obtain rfl : b = 64 := Nat.le_antisymm h64 hge
    have hmask : ((1 : UInt64) <<< UInt64.ofNat 64) - 1 = 0 := by decide +kernel
    rw [hmask, UInt64.and_zero, Nat.mod_eq_of_lt x.toNat_lt, UInt64.ofNat_toNat]
    constructor
    · exact fun h => Or.inr h.symm
    · exact fun h => (h.resolve_left (by norm_num)).symm

/-- **The packed codecs are exact** for fields of up to seven bytes and for up to 63
value bits; at the full width of a word they keep zeros only. -/
theorem codecs_iff (s : ChmImp) :
    (∀ (st : List UInt8) (id : Nat) (edge : GraphEdge), 1 ≤ s.btVertex → s.btVertex ≤ 8 →
      s.be .e = some st → st.length < 2 ^ 64 → Stored s id → edge.Fits s.btVertex →
      (Exact s id edge ↔ s.btVertex ≤ 7 ∨ edge = ⟨0, 0, 0, 0⟩)) ∧
    ∀ key g0 g1 : UInt64, 1 ≤ s.biValue → s.biValue ≤ 64 → s.vertex0 key ≠ s.vertex1 key →
      graphGetg (s.vertex0 key) s = .ok g0 s → graphGetg (s.vertex1 key) s = .ok g1 s →
      (mphfChmImpQuery key s
        = .ok (some (UInt64.ofNat ((g0 + g1).toNat % 2 ^ s.biValue))) s ↔
        s.biValue ≤ 63 ∨ g0 + g1 = 0) := by
  refine ⟨fun st id edge h1 h8 he hlen hid hfit => exact_iff hid he hlen h1 h8 hfit, ?_⟩
  intro key g0 g1 _ h64 hne hg0 hg1
  have hrun : mphfChmImpQuery key s
    = .ok (some ((g0 + g1) &&& ((1 <<< UInt64.ofNat s.biValue) - 1))) s := by
    rw [mphfChmImpQuery, run_bind_ok (run_get s)]
    simp only [if_neg hne, onError, run_bind, hg0, hg1, run_pure]
  rw [hrun, ← query_mask_iff h64]
  simp

/-- One edge of the width `w` and g-values of `b` bits, for the vertices 0
and 1 of the key 0. -/
def packed (w b : Nat) : ChmImp :=
  ⟨true, fun x => match x with
    | .g => some (List.replicate 32 0 ++ [5, 0, 0, 0, 0, 0, 0, 0, 0, 0, 0, 0, 0, 0, 0, 0])
    | .v => some []
    | .e => some (List.replicate (4 * w) 0),
    ⟨1, 1, 0, 1⟩, 1, 0, 1, 2, b, 8, w, 1⟩

theorem codecs_iff_packed :
    Exact (packed 2 63) 1 ⟨1, 2, 3, 4⟩ ∧
      mphfChmImpQuery 0 (packed 2 63) = .ok (some 5) (packed 2 63) := by
  constructor
  · exact ((codecs_iff (packed 2 63)).1 _ 1 ⟨1, 2, 3, 4⟩ (by decide) (by decide)
      rfl (by decide)
      ⟨by decide, by decide⟩ ⟨by decide, by decide, by decide, by decide⟩).mpr
        (Or.inl (by decide))
  · exact ((codecs_iff (packed 2 63)).2 0 5 0 (by decide) (by decide) (by decide)
      rfl rfl).mpr (Or.inl (by decide))

/-- An edge of four words of eight bytes comes back as four zeros, and a value of 64
bits as 0. -/
theorem full_width_lost :
    ¬ Exact (packed 8 64) 1 ⟨1, 2, 3, 4⟩ ∧
      mphfChmImpQuery 0 (packed 8 64) = .ok (some 0) (packed 8 64) ∧
      graphGetg ((packed 8 64).vertex0 0) (packed 8 64) = .ok 5 (packed 8 64) ∧
      graphGetg ((packed 8 64).vertex1 0) (packed 8 64) = .ok 0 (packed 8 64) := by
  refine ⟨fun h => ?_, rfl, rfl, rfl⟩
  have hid : Stored (packed 8 64) 1 := ⟨by decide, by decide⟩
  have hcond := (exact_iff hid rfl (by decide) (by decide) (by decide)
    ⟨by decide, by decide, by decide, by decide⟩).mp h
  exact absurd hcond (by decide)

end Frozen.Mphf
