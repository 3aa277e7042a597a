/-
# `Frozen.Mphf.Rep` — what the three stores mean

The edge list `es` of an index, newest first, determines the contents of `be_v`
and `be_e` completely: an edge's id is its position counted from the end, the
list of a vertex starts at the newest edge that touches it (`headId`), and each
edge points on to the next older one.  `GraphRep s es` says that the bytes are
exactly that; `GStore s` says that `be_g` has room for one value per vertex.

Below the two predicates stands one lemma per store access.  From here on no proof
looks at bytes again.
-/
import Frozen.Mphf.Chm

namespace Frozen.Mphf

open Frozen.Lib

/-! ## Running the monad -/

section Run

variable {α β : Type} (s : ChmImp)

@[simp] theorem run_pure (a : α) : (pure a : ChmM α) s = .ok a s := rfl

@[simp] theorem run_get : (get : ChmM ChmImp) s = .ok s s := rfl

@[simp] theorem run_modify (f : ChmImp → ChmImp) :
    (modify f : ChmM Unit) s = .ok () (f s) := rfl

@[simp] theorem run_throw (e : Stop) : (throw e : ChmM α) s = .error e s := rfl

theorem run_bind (m : ChmM α) (f : α → ChmM β) :
    (m >>= f) s = match m s with
      | .ok a s' => f a s'
      | .error e s' => .error e s' := by
  show EStateM.bind m f s = _
  unfold EStateM.bind
  cases m s <;> rfl

variable {s}

/-- One step of a `do` block that goes well. -/
theorem run_bind_ok {m : ChmM α} {f : α → ChmM β} {a : α} {s' : ChmImp}
    (h : m s = .ok a s') : (m >>= f) s = f a s' := by
  rw [run_bind, h]

theorem run_bind_error {m : ChmM α} {f : α → ChmM β} {e : Stop} {s' : ChmImp}
    (h : m s = .error e s') : (m >>= f) s = .error e s' := by
  rw [run_bind, h]

/-- A call returns, and passes a test. -/
def passes (p : α → ChmImp → Bool) : EStateM.Result Stop ChmImp α → Bool
  | .ok a s => p a s
  | .error _ _ => false

theorem exists_of_passes {p : α → ChmImp → Bool} {r : EStateM.Result Stop ChmImp α}
    (h : passes p r = true) : ∃ a s, r = .ok a s ∧ p a s = true := by
  cases r with
  | ok a s => exact ⟨a, s, rfl, h⟩
  | error e s => cases h

end Run

/-! ## States up to the g-values -/

/-- The bytes of a store; the empty list where there is no store. -/
def ChmImp.store (s : ChmImp) (b : Be) : List UInt8 := (s.be b).getD []

/-- `s` with other g-values. -/
def ChmImp.withG (s : ChmImp) (G : List UInt8) : ChmImp :=
  { s with be := Function.update s.be .g (some G) }

section WithG

variable (s : ChmImp) (G G' : List UInt8)

@[simp] theorem withG_withG : (s.withG G).withG G' = s.withG G' := by simp [ChmImp.withG]
@[simp] theorem withG_nvertex : (s.withG G).nvertex = s.nvertex := rfl
@[simp] theorem withG_btVertex : (s.withG G).btVertex = s.btVertex := rfl
@[simp] theorem withG_btValue : (s.withG G).btValue = s.btValue := rfl
@[simp] theorem withG_biValue : (s.withG G).biValue = s.biValue := rfl
@[simp] theorem withG_params : (s.withG G).params = s.params := rfl
@[simp] theorem withG_writeable : (s.withG G).writeable = s.writeable := rfl
@[simp] theorem withG_be_g : (s.withG G).be .g = some G := by simp [ChmImp.withG]
@[simp] theorem withG_be_v : (s.withG G).be .v = s.be .v := by simp [ChmImp.withG]
@[simp] theorem withG_be_e : (s.withG G).be .e = s.be .e := by simp [ChmImp.withG]
@[simp] theorem withG_store_g : (s.withG G).store .g = G := by simp [ChmImp.store]
@[simp] theorem withG_store_v : (s.withG G).store .v = s.store .v := by
  simp [ChmImp.store]
@[simp] theorem withG_store_e : (s.withG G).store .e = s.store .e := by
  simp [ChmImp.store]

theorem withG_self (h : s.be .g = some G) : s.withG G = s := by
  have hbe : Function.update s.be .g (some G) = s.be := by
    rw [← h]
    exact Function.update_eq_self _ _
  rw [ChmImp.withG, hbe]

end WithG

/-- The g-value stored for a vertex. -/
def ChmImp.gval (s : ChmImp) (a : Nat) : Nat :=
  wordAt (s.store .g) sizeofParams s.btValue a

/-! ## The edge lists -/

/-- The id of the newest edge at `a`, 0 if there is none. -/
def headId (a : Nat) : List (Nat × Nat) → Nat
  | [] => 0
  | (x, y) :: r => if a = x ∨ a = y then r.length + 1 else headId a r

/-- The edges at `a`, newest first, each with its far end. -/
def edgesAt (a : Nat) : List (Nat × Nat) → List (Nat × Nat)
  | [] => []
  | (x, y) :: r =>
      if a = x then (r.length + 1, y) :: edgesAt a r
      else if a = y then (r.length + 1, x) :: edgesAt a r
      else edgesAt a r

theorem headId_le (a : Nat) : ∀ es : List (Nat × Nat), headId a es ≤ es.length
  | [] => Nat.le_refl _
  | (x, y) :: r => by
      have ih := headId_le a r
      rw [headId, List.length_cons]
      split <;> omega

theorem edgesAt_id_le {a : Nat} : ∀ {es : List (Nat × Nat)} {p : Nat × Nat},
    p ∈ edgesAt a es → p.1 ≤ es.length
  | (x, y) :: r, p, h => by
      have ih : p ∈ edgesAt a r → p.1 ≤ r.length := edgesAt_id_le
      rw [List.length_cons]
      simp only [edgesAt] at h
      split_ifs at h
      · rcases List.mem_cons.mp h with rfl | h
        · simp
        · exact (ih h).trans (Nat.le_succ _)
      · rcases List.mem_cons.mp h with rfl | h
        · simp
        · exact (ih h).trans (Nat.le_succ _)
      · exact (ih h).trans (Nat.le_succ _)

theorem headId_eq_zero {a : Nat} : ∀ {es : List (Nat × Nat)}, headId a es = 0 ↔
    edgesAt a es = []
  | [] => by simp [headId, edgesAt]
  | (x, y) :: r => by
      have ih := @headId_eq_zero a r
      simp only [headId, edgesAt]
      by_cases hx : a = x
      · simp [hx]
      · by_cases hy : a = y
        · subst hy
          simp [hx]
        · simp [hx, hy, ih]

/-- What is at `a` is exactly the edges that touch it. -/
theorem mem_edgesAt {a : Nat} :
    ∀ {es : List (Nat × Nat)} (_ : ∀ p ∈ es, p.1 ≠ p.2) {i w : Nat},
    (i, w) ∈ edgesAt a es ↔
      ∃ r x y, (x, y) :: r <:+ es ∧ i = r.length + 1 ∧ ((a = x ∧ w = y) ∨ (a = y ∧ w = x))
  | [], _, i, w => by simp [edgesAt]
  | (x, y) :: r, hne, i, w => by
      have ih := @mem_edgesAt a r (fun p hp => hne p (List.mem_cons_of_mem _ hp)) i w
      have hxy : x ≠ y := hne (x, y) List.mem_cons_self
      constructor
      · intro h
        simp only [edgesAt] at h
        split_ifs at h with hx hy
        · rcases List.mem_cons.mp h with h | h
          · cases h
            exact ⟨r, x, y, List.suffix_rfl, rfl, Or.inl ⟨hx, rfl⟩⟩
          · obtain ⟨r', x', y', hs, rest⟩ := ih.mp h
            exact ⟨r', x', y', hs.trans (List.suffix_cons _ _), rest⟩
        · rcases List.mem_cons.mp h with h | h
          · cases h
            exact ⟨r, x, y, List.suffix_rfl, rfl, Or.inr ⟨hy, rfl⟩⟩
          · obtain ⟨r', x', y', hs, rest⟩ := ih.mp h
            exact ⟨r', x', y', hs.trans (List.suffix_cons _ _), rest⟩
        · obtain ⟨r', x', y', hs, rest⟩ := ih.mp h
          exact ⟨r', x', y', hs.trans (List.suffix_cons _ _), rest⟩
      · rintro ⟨r', x', y', hs, hi, hends⟩
        rcases List.suffix_cons_iff.mp hs with heq | hs
        · cases heq
          rcases hends with ⟨rfl, rfl⟩ | ⟨rfl, rfl⟩
          · simp [edgesAt, hi]
          · simp [edgesAt, hi, hxy.symm]
        · have hmem := ih.mpr ⟨r', x', y', hs, hi, hends⟩
          simp only [edgesAt]
          split_ifs
          · exact List.mem_cons_of_mem _ hmem
          · exact List.mem_cons_of_mem _ hmem
          · exact hmem

theorem edgesAt_nodup {a : Nat} :
    ∀ es : List (Nat × Nat), ((edgesAt a es).map Prod.fst).Nodup
  | [] => by simp [edgesAt]
  | (x, y) :: r => by
      have ih := edgesAt_nodup (a := a) r
      have hnot : r.length + 1 ∉ (edgesAt a r).map Prod.fst := by
        intro h
        obtain ⟨p, hp, hpe⟩ := List.mem_map.mp h
        have := edgesAt_id_le hp
        omega
      simp only [edgesAt]
      split_ifs
      · exact List.nodup_cons.mpr ⟨hnot, ih⟩
      · exact List.nodup_cons.mpr ⟨hnot, ih⟩
      · exact ih

/-! ## The representation -/

/-- `be_v` and `be_e` hold the edges `es`. -/
structure GraphRep (s : ChmImp) (es : List (Nat × Nat)) : Prop where
  wide : s.nvertex < 256 ^ s.btVertex
  narrow : s.btVertex ≤ 7
  v : s.be .v = some (s.store .v)
  vlen : (s.store .v).length = s.nvertex * s.btVertex
  first : ∀ a < s.nvertex, wordAt (s.store .v) 0 s.btVertex a = headId a es
  e : s.be .e = some (s.store .e)
  elen : (s.store .e).length = es.length * sizeofEdge s
  edge : ∀ r x y, (x, y) :: r <:+ es → ∀ k (hk : k < 4),
    wordAt (s.store .e) 0 s.btVertex (4 * r.length + k)
      = [x, y, headId x r, headId y r].get ⟨k, hk⟩
  ends : ∀ p ∈ es, p.1 < s.nvertex ∧ p.2 < s.nvertex ∧ p.1 ≠ p.2
  count : es.length ≤ s.nvertex

/-- `be_g` holds the parameters and one value per vertex. -/
structure GStore (s : ChmImp) : Prop where
  g : s.be .g = some (s.store .g)
  glen : (s.store .g).length = sizeofParams + s.nvertex * s.btValue

theorem GraphRep.withG {s : ChmImp} {es : List (Nat × Nat)} (h : GraphRep s es)
    (G : List UInt8) : GraphRep (s.withG G) es := by
  obtain ⟨wide, narrow, v, vlen, first, e, elen, edge, ends, count⟩ := h
  refine ⟨wide, narrow, ?_, ?_, ?_, ?_, ?_, ?_, ends, count⟩
  · simpa using v
  · simpa using vlen
  · simpa using first
  · simpa using e
  · simpa [sizeofEdge] using elen
  · simpa using edge

theorem GStore.withG {s : ChmImp} (h : GStore s) {G : List UInt8}
    (hG : G.length = (s.store .g).length) : GStore (s.withG G) :=
  ⟨by simp, by simpa [hG] using h.glen⟩

theorem GraphRep.ne {s : ChmImp} {es : List (Nat × Nat)} (h : GraphRep s es) :
    ∀ p ∈ es, p.1 ≠ p.2 := fun p hp => (h.ends p hp).2.2

theorem GraphRep.ends_of_suffix {s : ChmImp} {es r : List (Nat × Nat)} {x y : Nat}
    (h : GraphRep s es) (hs : (x, y) :: r <:+ es) :
    x < s.nvertex ∧ y < s.nvertex ∧ x ≠ y :=
  h.ends (x, y) (hs.subset List.mem_cons_self)

/-- Entry `a` of an array of `n` entries of width `w` ends inside it. -/
theorem entry_le {a n : Nat} (w : Nat) (h : a < n) : a * w + w ≤ n * w :=
  calc a * w + w = (a + 1) * w := by ring
    _ ≤ n * w := Nat.mul_le_mul_right _ h

/-! ## Store accesses -/

section Access

variable {s : ChmImp} {es : List (Nat × Nat)}

theorem run_fastRead {b : Be} {st : List UInt8} {off n : Nat} (hb : s.be b = some st)
    (hle : off + n ≤ st.length) :
    fastRead b off n s = .ok (some ((st.drop off).take n)) s := by
  simp [fastRead, run_bind, hb, readAt_eq_some hle]

theorem run_fastWrite {b : Be} {st st' : List UInt8} {off : Nat} {d : List UInt8}
    (hb : s.be b = some st) (hw : writeAt st off d = some st') :
    fastWrite b off d s
      = .ok true { s with be := Function.update s.be b (some st') } := by
  simp only [fastWrite, setBe, run_bind, run_get, hb, Option.bind_some, hw,
    run_modify, run_pure]

theorem run_graphGetFirst_word {st : List UInt8} (hv : s.be .v = some st) {a : Nat}
    (hle : a * s.btVertex + s.btVertex ≤ st.length) :
    graphGetFirst a s = .ok (wordAt st 0 s.btVertex a) s := by
  simp [graphGetFirst, run_bind, run_fastRead hv hle, wordAt]

/-- The entry of a vertex lies inside `be_v`. -/
theorem GraphRep.entry_le_v (h : GraphRep s es) {a : Nat} (ha : a < s.nvertex) :
    a * s.btVertex + s.btVertex ≤ (s.store .v).length := by
  rw [h.vlen]
  exact entry_le _ ha

theorem run_graphGetFirst (h : GraphRep s es) {a : Nat} (ha : a < s.nvertex) :
    graphGetFirst a s = .ok (headId a es) s := by
  rw [run_graphGetFirst_word h.v (h.entry_le_v ha), h.first a ha]

theorem run_graphGetg_word {st : List UInt8} (hg : s.be .g = some st) {a : Nat}
    (hle : sizeofParams + a * s.btValue + s.btValue ≤ st.length) :
    graphGetg a s = .ok (UInt64.ofNat (wordAt st sizeofParams s.btValue a)) s := by
  simp [graphGetg, run_bind, run_fastRead hg hle, wordAt]

/-- The value of a vertex lies inside `be_g`. -/
theorem GStore.entry_le_g (h : GStore s) {a : Nat} (ha : a < s.nvertex) :
    sizeofParams + a * s.btValue + s.btValue ≤ (s.store .g).length := by
  rw [h.glen, Nat.add_assoc]
  exact Nat.add_le_add_left (entry_le _ ha) _

theorem run_graphGetg (h : GStore s) {a : Nat} (ha : a < s.nvertex) :
    graphGetg a s = .ok (UInt64.ofNat (s.gval a)) s :=
  run_graphGetg_word h.g (h.entry_le_g ha)

theorem run_graphSetg_word (hg : s.be .g = some (s.store .g)) {a : Nat}
    (hle : sizeofParams + a * s.btValue + s.btValue ≤ (s.store .g).length) (x : UInt64) :
    ∃ G, G.length = (s.store .g).length ∧ graphSetg a x s = .ok () (s.withG G) ∧
      ∀ b, (s.withG G).gval b = if b = a then x.toNat % 256 ^ s.btValue
        else s.gval b := by
  have hle : sizeofParams + a * s.btValue + (leWords s.btValue [x.toNat]).length
      ≤ (s.store .g).length := by
    rw [length_leWords]
    simpa using hle
  obtain ⟨G, hG⟩ := exists_writeAt hle
  refine ⟨G, length_writeAt hG, ?_, ?_⟩
  · have hG' : writeAt (s.store .g) (sizeofParams + a * s.btValue)
        (leBytes s.btValue x.toNat) = some G := by simpa [leWords] using hG
    simp [graphSetg, run_bind, run_fastWrite hg hG', ChmImp.withG]
  · intro b
    simp only [ChmImp.gval, withG_store_g, withG_btValue, wordAt_writeAt hG]
    by_cases hb : b = a
    · subst hb
      simp
    · rw [if_neg hb, dif_neg (by simp; omega)]

/-- Setting one g-value changes that value, modulo its width, and nothing else. -/
theorem run_graphSetg (h : GStore s) {a : Nat} (ha : a < s.nvertex) (x : UInt64) :
    ∃ G, G.length = (s.store .g).length ∧ graphSetg a x s = .ok () (s.withG G) ∧
      ∀ b, (s.withG G).gval b = if b = a then x.toNat % 256 ^ s.btValue else s.gval b :=
  run_graphSetg_word h.g (h.entry_le_g ha) x

/-- The mask of `graph_get_edge` keeps one field, for every width below 8. -/
theorem vertexMask_eq {w : Nat} (hw : w ≤ 7) : vertexMask w = 2 ^ (8 * w) - 1 := by
  interval_cases w <;> decide +kernel

theorem edgeOffset_eq {n : Nat} (hb : s.btVertex ≤ 7) (hn : n < 2 ^ 56) :
    edgeOffset s (n + 1) = n * sizeofEdge s := by
  have h1 : (n + 1 + (2 ^ 64 - 1)) % 2 ^ 64 = n := by omega
  have h2 : n * sizeofEdge s < 2 ^ 64 := by
    have hle : n * sizeofEdge s ≤ n * 28 :=
      Nat.mul_le_mul_left _ (by unfold sizeofEdge; omega)
    omega
  rw [edgeOffset, h1, Nat.mod_eq_of_lt h2]

theorem GraphRep.nvertex_lt (h : GraphRep s es) : s.nvertex < 2 ^ 56 :=
  calc s.nvertex < 256 ^ s.btVertex := h.wide
    _ ≤ 256 ^ 7 := Nat.pow_le_pow_right (by norm_num) h.narrow
    _ = 2 ^ 56 := by norm_num

/-- An index with a vertex has edges of a positive width. -/
theorem GraphRep.sizeofEdge_pos (h : GraphRep s es) {v : Nat} (hv : v < s.nvertex) :
    0 < sizeofEdge s := by
  have hwide := h.wide
  rcases Nat.eq_zero_or_pos s.btVertex with h0 | h0
  · rw [h0, Nat.pow_zero] at hwide
    omega
  · exact Nat.mul_pos (by norm_num) h0

/-- A field of the edge buffer, loaded as eight bytes and masked, is one word. -/
theorem peek64_mask {bs : List UInt8} {w k : Nat} (hw : w ≤ 7) (hlen : bs.length = 4 * w)
    (hk : k < 4) :
    peek64 (bs ++ edgeBuffer.drop bs.length) (k * w) &&& vertexMask w
      = leNat ((bs.drop (k * w)).take w) := by
  have hkw : k * w + w ≤ bs.length := by
    rw [hlen]
    exact entry_le w hk
  rw [vertexMask_eq hw, Nat.and_two_pow_sub_one_eq_mod, peek64,
    show (2 : Nat) ^ (8 * w) = 256 ^ w by rw [Nat.pow_mul], leNat_mod, List.take_take,
    Nat.min_eq_left (by omega), List.drop_append_of_le_length (by omega),
    List.take_append_of_le_length (by rw [List.length_drop]; omega)]

/-- The edge behind `n` others is the four words there. -/
theorem run_graphGetEdge_words {st : List UInt8} {n : Nat} (he : s.be .e = some st)
    (hoff : edgeOffset s (n + 1) = n * sizeofEdge s)
    (hle : n * sizeofEdge s + sizeofEdge s ≤ st.length) (h7 : s.btVertex ≤ 7) :
    graphGetEdge (n + 1) s
      = .ok ⟨wordAt st 0 s.btVertex (4 * n), wordAt st 0 s.btVertex (4 * n + 1),
      wordAt st 0 s.btVertex (4 * n + 2), wordAt st 0 s.btVertex (4 * n + 3)⟩ s := by
  have hlen : ((st.drop (n * sizeofEdge s)).take (sizeofEdge s)).length
    = 4 * s.btVertex := by
    rw [List.length_take, List.length_drop, ← sizeofEdge]
    omega
  -- each of the four words of the buffer is the word of the store
  have hword : ∀ k < 4, leNat ((((st.drop (n * sizeofEdge s)).take (sizeofEdge s)).drop
      (k * s.btVertex)).take s.btVertex) = wordAt st 0 s.btVertex (4 * n + k) := by
    intro k hk
    have hkw := entry_le s.btVertex hk
    rw [wordAt, List.drop_take, List.take_take, List.drop_drop,
      Nat.min_eq_left (by unfold sizeofEdge; omega)]
    congr 3
    unfold sizeofEdge
    ring
  have h0 := hword 0 (by omega)
  rw [Nat.add_zero] at h0
  simp only [graphGetEdge, run_bind, run_get, hoff, run_fastRead he hle, run_pure,
    peek64_mask h7 hlen (by omega : (0 : Nat) < 4),
    peek64_mask h7 hlen (by omega : (1 : Nat) < 4),
    peek64_mask h7 hlen (by omega : (2 : Nat) < 4),
    peek64_mask h7 hlen (by omega : (3 : Nat) < 4),
    h0, hword 1 (by omega), hword 2 (by omega), hword 3 (by omega)]

theorem run_graphGetEdge (h : GraphRep s es) {r : List (Nat × Nat)} {x y : Nat}
    (hs : (x, y) :: r <:+ es) :
    graphGetEdge (r.length + 1) s = .ok ⟨x, y, headId x r, headId y r⟩ s := by
  have hr : r.length < es.length := by simpa using hs.length_le
  have hlt : r.length < 2 ^ 56 := lt_of_lt_of_le (hr.trans_le h.count) h.nvertex_lt.le
  have hle : r.length * sizeofEdge s + sizeofEdge s ≤ (s.store .e).length := by
    rw [h.elen]
    exact entry_le _ hr
  have hword := h.edge r x y hs
  have h0 := hword 0 (by omega)
  rw [Nat.add_zero] at h0
  rw [run_graphGetEdge_words h.e (edgeOffset_eq h.narrow hlt) hle h.narrow, h0,
    hword 1 (by omega), hword 2 (by omega), hword 3 (by omega)]
  rfl

end Access

end Frozen.Mphf
