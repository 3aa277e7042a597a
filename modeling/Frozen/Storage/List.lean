/-
# `Frozen.Storage.List` — `data/list` over a file

An insertion moves the tail on by one unit and writes the new unit; a deletion moves
the tail back.  The distance is one unit, so the pieces of the move have one byte,
whatever the buffer.

A move never makes a file shorter.  So a deletion leaves the last unit twice, and the
count as it was: it does not undo an insertion (`lists_insert_delete`).
-/
import Frozen.Storage.Move

namespace Frozen.Storage

open Lib Cache

/-! ## Requests -/

def LIST_EMODULE : Nat := 2

/-- `lists_set`.  The size of the move is a `void_t`, which is no size, and `backend_pass`
returns 0 whatever the file answers. -/
def listsSet (bufferSize n : Nat) (f : File) (insert : Bool) (offset size : Option UInt64)
    (buffer : Option (List UInt8)) : Except OutOfFuel (Reply × File) :=
  if insert then
    match offset with
    | none => .ok (⟨errorCode LIST_EMODULE 46, size.map UInt64.toNat, none, none⟩, f)
    | some start => do
        let (_, f) ← fileQuery bufferSize n f (.move (some start) (some (start + 1)) none)
        fileQuery bufferSize n f (.write offset size buffer)
  else fileQuery bufferSize n f (.write offset size buffer)

/-- `lists_delete`. -/
def listsDelete (bufferSize n : Nat) (f : File) (offset size : Option UInt64) :
    Except OutOfFuel (Reply × File) :=
  match size, offset with
  | none, _ => .ok (⟨errorCode LIST_EMODULE 70, none, none, none⟩, f)
  | some size, none => .ok (⟨errorCode LIST_EMODULE 71, some size.toNat, none, none⟩, f)
  | some size, some start => do
      let (reply, f) ← fileQuery bufferSize n f
        (.move (some (start + size)) (some start) none)
      .ok ({ reply with size := some size.toNat }, f)

/-! ## Moves by one unit -/

theorem putAt_memmove (bs : List UInt8) {k : Nat} (hk : k ≤ bs.length) (v : UInt8) :
    putAt (memmove bs k (k + 1) (bs.length - k)) k [v] = bs.take k ++ [v] ++
      bs.drop k := by
  refine List.ext_getElem? fun i => ?_
  have hlen : bs.length ≤ (memmove bs k (k + 1) (bs.length - k)).length := by
    unfold memmove
    split
    · exact le_refl _
    · rw [length_putAt]
      exact le_max_right _ _
  have htake : (bs.take k).length = k := by
    rw [List.length_take]
    omega
  rw [getElem?_putAt, List.append_assoc]
  by_cases hlt : i < k
  · rw [if_pos hlt, if_pos (by omega), List.getElem?_append_left (by omega),
      List.getElem?_take_of_lt hlt]
    unfold memmove
    split
    · rfl
    · rw [getElem?_putAt, if_pos (by omega), if_pos (by omega)]
  · rw [if_neg hlt, List.getElem?_append_right (by omega), htake, List.length_singleton]
    by_cases heq : i < k + 1
    · rw [if_pos heq, List.getElem?_append_left (by rw [List.length_singleton]; omega)]
    · rw [if_neg heq, List.getElem?_append_right
        (by rw [List.length_singleton]; omega), List.getElem?_drop,
        List.length_singleton, show k + (i - k - 1) = i - 1 by omega]
      rcases Nat.eq_zero_or_pos (bs.length - k) with hzero | hpos
      · rw [hzero, memmove, if_pos rfl, List.getElem?_eq_none (by omega),
          List.getElem?_eq_none (by omega)]
      · rw [getElem?_memmove hpos (by omega), if_neg (by omega)]
        split
        · congr 1
          omega
        · rw [List.getElem?_eq_none (by omega), List.getElem?_eq_none (by omega)]

/-- The tail behind a unit moved back onto it: the last unit stays where it was. -/
theorem memmove_back (bs : List UInt8) {k : Nat} (hk : k < bs.length) :
    memmove bs (k + 1) k (bs.length - (k + 1)) = bs.take k ++ bs.drop (k + 1) ++
      bs.drop (bs.length - 1) := by
  have htake : (bs.take k).length = k := by
    rw [List.length_take]
    omega
  have hdrop : (bs.drop (k + 1)).length = bs.length - (k + 1) := List.length_drop
  rcases Nat.eq_zero_or_pos (bs.length - (k + 1)) with hzero | hpos
  · have hnil : bs.drop (k + 1) = [] := List.drop_eq_nil_of_le (by omega)
    rw [hzero, memmove, if_pos rfl, hnil, List.append_nil,
      show bs.length - 1 = k by omega, List.take_append_drop]
  · refine List.ext_getElem? fun i => ?_
    rw [getElem?_memmove hpos (by omega), List.append_assoc]
    by_cases hlt : i < k
    · rw [if_pos hlt, if_pos (by omega), List.getElem?_append_left (by omega),
        List.getElem?_take_of_lt hlt]
    · rw [if_neg hlt, List.getElem?_append_right (by omega), htake]
      by_cases hmid : i < k + (bs.length - (k + 1))
      · rw [if_pos hmid, List.getElem?_append_left (by omega), List.getElem?_drop]
      · rw [if_neg hmid, List.getElem?_append_right (by omega), hdrop, List.getElem?_drop]
        congr 1
        omega

section

variable {bufferSize : Nat} {f : File}

theorem fileMove_on (hbuf : 0 < bufferSize) (hf : Sane f)
    (hroom : f.bytes.length < OFF_MAX) {k : UInt64} (hk : k.toNat ≤ f.bytes.length) :
    (fileMove bufferSize f (some k) (some (k + 1)) none).2.bytes =
      memmove f.bytes k.toNat (k.toNat + 1) (f.bytes.length - k.toNat) := by
  have hsucc : (k + 1).toNat = k.toNat + 1 := by
    rw [UInt64.toNat_add]
    unfold OFF_MAX at hroom
    exact Nat.mod_eq_of_lt (by change k.toNat + 1 < _; omega)
  have hwanted : wanted f.bytes.length k none = f.bytes.length - k.toNat := rfl
  have hrun := congrArg Prod.snd (fileMove_eq hbuf hf k (k + 1) none
    (by rw [hwanted]; omega) (by rw [hwanted, hsucc]; omega))
  dsimp only at hrun
  rw [hrun, hwanted, hsucc]
  split
  · rename_i hnothing
    have hzero := hnothing.resolve_left (by omega)
    rw [hzero]
    rfl
  · rename_i hsome
    have hunit : min (k.toNat + 1 - k.toNat) bufferSize = 1 := by omega
    obtain ⟨M, -, hpieces⟩ := moveRun_pieces bufferSize k.toNat (k.toNat + 1)
      (f.bytes.length - k.toNat) f.bytes (by omega) (by omega)
      (Nat.lt_succ_self _) (by omega) (by omega) (le_refl _)
    rw [hpieces, hunit, Nat.mod_one, moveLoop_done]
    exact moved_zero _ _ _ _

theorem fileMove_back (hbuf : 0 < bufferSize) (hf : Sane f) {k : UInt64}
    (hk : k.toNat < f.bytes.length) :
    (fileMove bufferSize f (some (k + 1)) (some k) none).2.bytes =
      memmove f.bytes (k.toNat + 1) k.toNat (f.bytes.length - (k.toNat + 1)) := by
  have hlen := hf.length
  have hsucc : (k + 1).toNat = k.toNat + 1 := by
    rw [UInt64.toNat_add]
    unfold OFF_MAX at hlen
    exact Nat.mod_eq_of_lt (by change k.toNat + 1 < _; omega)
  have hwanted : wanted f.bytes.length (k + 1) none = f.bytes.length - (k.toNat + 1) := by
    rw [← hsucc]
    rfl
  have hrun := congrArg Prod.snd (fileMove_eq hbuf hf (k + 1) k none
    (by rw [hwanted, hsucc]; omega) (by rw [hwanted]; omega))
  dsimp only at hrun
  rw [hrun, hwanted, hsucc]
  split
  · rename_i hnothing
    have hzero := hnothing.resolve_left (by omega)
    rw [hzero]
    rfl
  · rw [moveRun_forward hbuf hlen (by omega) (Nat.lt_succ_self _) (le_refl _)]

theorem fileMove_unbuffered (f : File) (offsetFrom offsetTo : UInt64) :
    (fileMove 0 f (some offsetFrom) (some offsetTo) none).2.bytes = f.bytes := by
  have hnone : sizeOr none = 2 ^ 64 - 1 := rfl
  simp only [fileMove, hnone, if_true, Nat.min_zero, Nat.zero_min]
  split <;> rfl

theorem fileWrite_unit {k : UInt64} (hk : k.toNat < OFF_MAX)
    {size : Option UInt64} (hsize : size ≠ some 0) (v : UInt8) :
    ∃ reply f', fileWrite f (some k) size (some [v]) = .ok (reply, f') ∧ reply.ret = 0 ∧
      f'.bytes = putAt f.bytes k.toNat [v] := by
  have hpos : 0 < sizeOr size := by
    cases size with
    | none => decide
    | some sz =>
        refine Nat.pos_of_ne_zero fun h => hsize ?_
        rw [UInt64.toNat.inj (h.trans UInt64.toNat_zero.symm)]
  have htake : [v].take (sizeOr size - 0) = [v] :=
    List.take_of_length_le (by rw [List.length_singleton]; omega)
  have hoffset : (0 + offsetOr (some k)) % 2 ^ 64 = k.toNat := by
    change (0 + k.toNat) % 2 ^ 64 = _
    rw [Nat.zero_add, Nat.mod_eq_of_lt k.toNat_lt]
  simp only [fileWrite, rawTransfer, sliceWrite, if_neg (Nat.not_lt_zero _),
    hoffset, htake]
  rw [if_neg (by rw [List.length_singleton]; omega), fileIoWrite,
    pwrite_putAt (List.cons_ne_nil v []) (by rw [List.length_singleton]; omega)]
  exact ⟨_, _, rfl, rfl, rfl⟩

variable (bufferSize) in
theorem sane_fileMove (hf : Sane f) (offsetFrom offsetTo size : Option UInt64) :
    Sane (fileMove bufferSize f offsetFrom offsetTo size).2 := by
  obtain ⟨reply, f', _, hrun, _, hsane, _⟩ :=
    alike_move bufferSize hf hf rfl offsetFrom offsetTo size
  have heq := hrun.unique (.of_forall fun n => rfl)
  rw [← congrArg Prod.snd heq]
  exact hsane

/-! ## An insertion and a deletion -/

/-- The content with a unit put in. -/
def inserted (bs : List UInt8) (k : Nat) (v : UInt8) : List UInt8 :=
  bs.take k ++ [v] ++ bs.drop k

theorem length_inserted {bs : List UInt8} {k : Nat} (hk : k ≤ bs.length) (v : UInt8) :
    (inserted bs k v).length = bs.length + 1 := by
  simp only [inserted, List.length_append, List.length_take, List.length_drop,
    List.length_singleton]
  omega

variable (bufferSize) in
theorem listsSet_insert (hf : Sane f) (hroom : f.bytes.length < OFF_MAX) {k : UInt64}
    (hk : k.toNat ≤ f.bytes.length) {size : Option UInt64} (hsize : size ≠ some 0)
    (v : UInt8) :
    ∃ reply f', (∀ n, listsSet bufferSize n f true (some k) size (some [v])
      = .ok (reply, f')) ∧ Sane f' ∧
      k.toNat < f'.bytes.length ∧
      (0 < bufferSize → reply.ret = 0 ∧ f'.bytes = inserted f.bytes k.toNat v) := by
  let g := (fileMove bufferSize f (some k) (some (k + 1)) none).2
  obtain ⟨reply, f', hwrite, hret, hbytes⟩ :=
    fileWrite_unit (f := g) (k := k) (by omega) hsize v
  obtain ⟨reply', f'', hwrite', hsane⟩ :=
    fileWrite_returns (sane_fileMove bufferSize hf (some k)
    (some (k + 1)) none).length (some k) size (some [v])
  have hsame : f'' = f' := congrArg Prod.snd (Except.ok.inj (hwrite'.symm.trans hwrite))
  refine ⟨reply, f', fun n => hwrite, hsame ▸ hsane, ?_, fun hbuf => ⟨hret, ?_⟩⟩
  · rw [hbytes, length_putAt, List.length_singleton]
    exact lt_of_lt_of_le (Nat.lt_succ_self _) (le_max_left _ _)
  have hmove : g.bytes = _ := fileMove_on hbuf hf hroom hk
  rw [hbytes, hmove, putAt_memmove f.bytes hk]
  rfl

variable (bufferSize) in
/-- A deletion of one unit leaves the last one in its place. -/
theorem listsDelete_unit (hf : Sane f) {k : UInt64} (hk : k.toNat < f.bytes.length) :
    ∃ reply f', (∀ n, listsDelete bufferSize n f (some k) (some 1) = .ok (reply, f')) ∧
      f'.bytes.length = f.bytes.length ∧ (0 < bufferSize →
        f'.bytes = f.bytes.take k.toNat ++ f.bytes.drop (k.toNat + 1) ++ f.bytes.drop
          (f.bytes.length - 1)) := by
  refine ⟨_, _, fun n => rfl, ?_,
    fun hbuf => (fileMove_back hbuf hf hk).trans (memmove_back f.bytes hk)⟩
  rcases Nat.eq_zero_or_pos bufferSize with rfl | hbuf
  · exact congrArg List.length (fileMove_unbuffered f (k + 1) k)
  · change (fileMove bufferSize f (some (k + 1)) (some k) none).2.bytes.length = _
    rw [fileMove_back hbuf hf hk, memmove_back f.bytes hk]
    simp only [List.length_append, List.length_take, List.length_drop]
    omega

/-- **A deletion never undoes an insertion.**  The insertion puts the unit in; the
deletion leaves the old content, and its last unit once more. -/
theorem lists_insert_delete (bufferSize : Nat) (f : File) (hf : Sane f)
    (hroom : f.bytes.length < OFF_MAX) (k : UInt64) (hk : k.toNat ≤ f.bytes.length)
    (size : Option UInt64) (hsize : size ≠ some 0) (v : UInt8) :
    ∃ r₁ f₁ r₂ f₂,
      (∀ n, listsSet bufferSize n f true (some k) size (some [v]) = .ok (r₁, f₁)) ∧
      (∀ n, listsDelete bufferSize n f₁ (some k) (some 1) = .ok (r₂, f₂)) ∧
      ¬ (f₁.bytes = inserted f.bytes k.toNat v ∧ f₂.bytes = f.bytes) ∧
      (0 < bufferSize → f₁.bytes = inserted f.bytes k.toNat v ∧
        f₁.bytes.length = f.bytes.length + 1 ∧
        f₂.bytes = f.bytes ++ f₁.bytes.drop f.bytes.length ∧
        f₂.bytes.length = f.bytes.length + 1) := by
  obtain ⟨r₁, f₁, hset, hsane, hk₁, hinsert⟩ :=
    listsSet_insert bufferSize hf hroom hk hsize v
  have hlen := length_inserted hk v
  obtain ⟨r₂, f₂, hdelete, hsame, hbytes⟩ := listsDelete_unit bufferSize hsane hk₁
  refine ⟨r₁, f₁, r₂, f₂, hset, hdelete, ?_, fun hbuf => ?_⟩
  · rintro ⟨hins, hrest⟩
    rw [hins, hlen, hrest] at hsame
    omega
  · obtain ⟨-, hins⟩ := hinsert hbuf
    refine ⟨hins, by rw [hins, hlen], ?_, by rw [hsame, hins, hlen]⟩
    have htake : (inserted f.bytes k.toNat v).take k.toNat = f.bytes.take k.toNat := by
      rw [inserted, List.append_assoc, List.take_left' (by rw [List.length_take]; omega)]
    have hdrop : (inserted f.bytes k.toNat v).drop (k.toNat + 1)
        = f.bytes.drop k.toNat := by
      rw [inserted, List.drop_left'
        (by rw [List.length_append, List.length_take, List.length_singleton]; omega)]
    rw [hbytes hbuf, hins, htake, hdrop, hlen, List.take_append_drop, Nat.add_sub_cancel]

end

theorem lists_insert_delete_three :
    ∃ r₁ f₁ r₂ f₂, (∀ n, listsSet 1024 n ⟨[1, 2, 3], none⟩ true (some 1) (some 1)
      (some [9]) = .ok (r₁, f₁)) ∧
      (∀ n, listsDelete 1024 n f₁ (some 1) (some 1) = .ok (r₂, f₂)) ∧
      ¬ (f₁.bytes = inserted [1, 2, 3] (1 : UInt64).toNat 9 ∧ f₂.bytes = [1, 2, 3]) ∧
      (0 < 1024 → f₁.bytes = inserted [1, 2, 3] (1 : UInt64).toNat 9 ∧
        f₁.bytes.length = 3 + 1 ∧
        f₂.bytes = [1, 2, 3] ++ f₁.bytes.drop 3 ∧ f₂.bytes.length = 3 + 1) :=
  lists_insert_delete 1024 ⟨[1, 2, 3], none⟩ ⟨by decide, .inl rfl⟩ (by decide) 1
    (by decide) (some 1) (by decide) 9

/-- The last of the three units is there twice. -/
theorem lists_delete_keeps_count :
    ¬∀ (bufferSize : Nat) (f : File) (k : UInt64) (v : UInt8), 0 < bufferSize →
      Sane f → f.bytes.length < OFF_MAX → k.toNat < f.bytes.length → ∀ r₁ f₁ r₂ f₂,
      (∀ n, listsSet bufferSize n f true (some k) (some 1) (some [v]) = .ok (r₁, f₁)) →
      (∀ n, listsDelete bufferSize n f₁ (some k) (some 1) = .ok (r₂, f₂)) →
      f₂.bytes = f.bytes := by
  intro hall
  have hbytes := hall 1024 ⟨[1, 2, 3], none⟩ 1 9 (by decide) ⟨by decide, .inl rfl⟩
      (by decide) (by decide)
    ⟨0, some 1, none, none⟩ ⟨[1, 9, 2, 3], none⟩ ⟨0, some 1, none, none⟩
    ⟨[1, 2, 3, 3], none⟩ (fun n => rfl) (fun n => rfl)
  exact absurd hbytes (by decide)

end Frozen.Storage
