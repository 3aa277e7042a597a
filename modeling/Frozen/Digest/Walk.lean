/-
# `Frozen.Digest.Walk` — how the hash functions read their key

The murmur and jenkins functions are written for a key in one piece.  Here they read
it through `ACTION_READ`, a buffer at a time, mix the full blocks of every read, and
leave the loop behind a read that they take for the last one.  A read that fails ends
the hash at once.

Reads of a byte string fail at its end.  So the loop is left as it should be exactly if
the read of what is behind the full buffers is taken for the last one, and there is
something to read.

    loop_left     the loop is left with all full blocks mixed and the others at the pointer
    loop_failed   the loop goes on to the end of the data and fails there
-/
import Frozen.Data.Text
import Frozen.Lib.Chunks

namespace Frozen.Digest

open Lib Data
open Binary (overlay maxObject)

/-- The loop of a hash function. -/
structure Walk (σ : Type) where
  /-- `sizeof(buffer)` -/
  size : Nat
  /-- the bytes of a block -/
  width : Nat
  /-- what a block does to the state -/
  mix : σ → List UInt8 → σ
  /-- whether a read of so many bytes is the last one -/
  last : Nat → Bool

/-- How the loop ends. -/
inductive Walk.End (σ : Type) where
  /-- `data_query` has failed -/
  | failed (s : σ)
  /-- the state, how many bytes the last read has read and all reads together, and what
  the pointer into the buffer points to -/
  | left (s : σ) (len total : Nat) (p : List UInt8)

namespace Walk

variable {σ : Type} (W : Walk σ)

/-- `while(1)`, from an offset, with a buffer on the stack. -/
def loop (data : Holder) : Nat → Nat → List UInt8 → σ → Except OutOfFuel (End σ)
  | 0, _, _, _ => .error .outOfFuel
  | n + 1, offset, buffer, s =>
      let r := data.read offset W.size
      if r.1 ≠ 0 then .ok (.failed s)
      else
        let buffer := overlay r.2.1 buffer
        let s := foldBlocks W.width W.mix s (buffer.take r.2.2)
        let offset := (offset + r.2.2) % 2 ^ 64
        if W.last r.2.2 then .ok
          (.left s r.2.2 offset (buffer.drop (W.width * (r.2.2 / W.width))))
        else loop data n offset buffer s

/-- The buffer takes full blocks, and a read that fills it is not the last one. -/
structure Sound : Prop where
  width : 0 < W.width
  size : 0 < W.size
  blocks : W.width ∣ W.size
  full : W.last W.size = false

variable {W} {data : Holder} {c : List UInt8}

theorem loop_end (hW : W.Sound) (hk : data.Keeps c) (n : Nat) (buffer : List UInt8)
    (s : σ) : W.loop data (n + 1) c.length buffer s = .ok (.failed s) := by
  rw [loop]
  exact if_pos ((Holder.read_of_keeps hk le_rfl hW.size).2 le_rfl)

theorem loop_step (hW : W.Sound) (hk : data.Keeps c) {o : Nat} (ho : o < c.length)
    (buffer : List UInt8) (s : σ) :
    ∃ buffer' rest, ∀ n, W.loop data (n + 1) o buffer s =
      if W.last (min W.size (c.length - o)) then
        .ok (.left (foldBlocks W.width W.mix s ((c.drop o).take W.size))
          (min W.size (c.length - o))
          (o + min W.size (c.length - o))
          (leftover W.width ((c.drop o).take W.size) ++ rest))
      else
        W.loop data n (o + min W.size (c.length - o)) buffer'
          (foldBlocks W.width W.mix s ((c.drop o).take W.size)) := by
  have hlt := hk.length_lt
  have hlen : ((c.drop o).take W.size).length = min W.size (c.length - o) := by
    rw [List.length_take, List.length_drop]
  have hsum : (o + min W.size (c.length - o)) % 2 ^ 64 = o + min W.size (c.length - o) :=
    Nat.mod_eq_of_lt (by omega)
  refine ⟨overlay ((c.drop o).take W.size) buffer,
    buffer.drop ((c.drop o).take W.size).length, fun n => ?_⟩
  rw [loop, (Holder.read_of_keeps hk ho.le hW.size).1 ho]
  simp only [ne_eq, not_true_eq_false, if_false, hsum]
  rw [overlay, List.take_left' hlen, leftover, hlen,
    List.drop_append_of_le_length (hlen ▸ Nat.mul_div_le _ _)]

/-- What the loop comes to on the bytes `l`, the last ones of `total`. -/
def Ends (W : Walk σ) (l : List UInt8) (total : Nat) (s : σ) : End σ → Prop
  | .failed s' =>
      (l.length % W.size = 0 ∨ W.last (l.length % W.size) = false) ∧
      s' = foldBlocks W.width W.mix s l
  | .left s' len total' p =>
      (l.length % W.size ≠ 0 ∧ W.last (l.length % W.size) = true) ∧
      s' = foldBlocks W.width W.mix s l ∧
        len = l.length % W.size ∧ total' = total ∧ ∃ rest, p = leftover W.width l ++ rest

/-- A full buffer in front changes nothing. -/
theorem Ends.block (hW : W.Sound) {b l : List UInt8} (hb : b.length = W.size)
    {total : Nat} {s : σ} {e : End σ}
    (h : W.Ends l total (foldBlocks W.width W.mix s b) e) :
    W.Ends (b ++ l) total s e := by
  have hmod : (b ++ l).length % W.size = l.length % W.size := by
    rw [List.length_append, hb, Nat.add_mod_left]
  obtain ⟨hfold, hleft⟩ :=
    foldBlocks_append (f := W.mix) hW.width (hb.symm ▸ hW.blocks) s l
  cases e with
  | failed s' => rwa [Ends, hmod, hfold]
  | left s' len total' p => rwa [Ends, hmod, hfold, hleft]

/-- **The loop on a byte string.** -/
theorem loop_ends (hW : W.Sound) (hk : data.Keeps c) (l : List UInt8) :
    ∀ {o : Nat}, c.drop o = l → o + l.length = c.length → ∀ (buffer : List UInt8) (s : σ),
      ∃ e, Returns (fun n => W.loop data n o buffer s) e ∧ W.Ends l c.length s e := by
  induction l using blocks_induction hW.size with
  | hshort l hlt =>
      intro o hdrop hlen buffer s
      have hmod : l.length % W.size = l.length := Nat.mod_eq_of_lt hlt
      by_cases hnil : l.length = 0
      · -- the read at the end fails
        obtain rfl : o = c.length := by omega
        refine ⟨_, .of_succ (.of_forall fun n => W.loop_end hW hk n buffer s),
          .inl (hmod.trans hnil), ?_⟩
        rw [List.eq_nil_of_length_eq_zero hnil, foldBlocks_nil]
      obtain ⟨buffer', rest, hstep⟩ := loop_step hW hk (o := o) (by omega) buffer s
      have hmin : min W.size (c.length - o) = l.length := by omega
      rw [hmin, hdrop, hlen, List.take_of_length_le hlt.le] at hstep
      by_cases hlast : W.last l.length = true
      · simp only [if_pos hlast] at hstep
        refine ⟨.left (foldBlocks W.width W.mix s l) l.length c.length
          (leftover W.width l ++ rest), .of_succ (.of_forall hstep), ?_⟩
        rw [Ends, hmod]
        exact ⟨⟨hnil, hlast⟩, rfl, rfl, rfl, rest, rfl⟩
      · -- a short read that is not taken for the last one: the next one fails
        simp only [if_neg hlast] at hstep
        refine ⟨.failed (foldBlocks W.width W.mix s l),
          .of_succ (.of_succ (.of_forall fun n => ?_)), .inr ?_, rfl⟩
        · exact (hstep (n + 1)).trans (W.loop_end hW hk n buffer' _)
        · rw [hmod]
          exact Bool.eq_false_of_not_eq_true hlast
  | hblock b l hb ih =>
      intro o hdrop hlen buffer s
      rw [List.length_append, hb] at hlen
      obtain ⟨buffer', rest, hstep⟩ :=
        loop_step hW hk (o := o) (by have := hW.size; omega) buffer s
      have hmin : min W.size (c.length - o) = W.size := by omega
      rw [hmin, hW.full, hdrop, List.take_left' hb] at hstep
      have hnext : c.drop (o + W.size) = l := by
        rw [← List.drop_drop, hdrop, List.drop_left' hb]
      obtain ⟨e, hrun, hends⟩ :=
        ih hnext (by omega) buffer' (foldBlocks W.width W.mix s b)
      refine ⟨e, .of_succ ?_, hends.block hW hb⟩
      simpa only [hstep, Bool.false_eq_true, if_false] using hrun

variable (W) in
/-- Whether the loop is left as it should be: something is behind the full buffers, and
the read of it is taken for the last one. -/
def Leaves (len : Nat) : Prop := len % W.size ≠ 0 ∧ W.last (len % W.size) = true

/-- The loop is left behind the last byte, with the full blocks mixed and the
others at the pointer. -/
theorem loop_left (hW : W.Sound) (hk : data.Keeps c) (hl : W.Leaves c.length)
    (buffer : List UInt8) (s : σ) : ∃ rest, Returns (fun n => W.loop data n 0 buffer s)
      (.left (foldBlocks W.width W.mix s c) (c.length % W.size) c.length
        (leftover W.width c ++ rest)) := by
  obtain ⟨e, hrun, hends⟩ :=
    loop_ends hW hk c (o := 0) List.drop_zero (Nat.zero_add _) buffer s
  cases e with
  | failed s' =>
      obtain ⟨hnot | hnot, -⟩ := hends
      · exact absurd hnot hl.1
      · exact absurd hl.2 (Bool.eq_false_iff.mp hnot)
  | left s' len total' p =>
      obtain ⟨-, rfl, rfl, rfl, rest, rfl⟩ := hends
      exact ⟨rest, hrun⟩

/-- The loop goes on until a read fails. -/
theorem loop_failed (hW : W.Sound) (hk : data.Keeps c) (hl : ¬ W.Leaves c.length)
    (buffer : List UInt8) (s : σ) :
    Returns (fun n => W.loop data n 0 buffer s)
      (.failed (foldBlocks W.width W.mix s c)) := by
  obtain ⟨e, hrun, hends⟩ :=
    loop_ends hW hk c (o := 0) List.drop_zero (Nat.zero_add _) buffer s
  cases e with
  | failed s' =>
      obtain ⟨-, rfl⟩ := hends
      exact hrun
  | left s' len total' p => exact absurd hends.1 hl

end Walk

end Frozen.Digest
