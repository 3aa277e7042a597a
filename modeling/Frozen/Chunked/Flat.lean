/-
# `Frozen.Chunked.Flat` — a chunked buffer is one array of bytes

`Represents st links a` says that the buffer is the chain `links` of chunks in separate
memory and that `a` is the concatenation of their bytes.  Every operation keeps it, for an
array that it changes as the operation should.

    process_write, process_read     the walks of `buffer_write` and `buffer_read`
    represents_defragment           one chunk with the same bytes
    init_behaves                    every sequence of operations
-/
import Frozen.Chunked.Buffer

namespace Frozen.Chunked

open Lib

/-! ## Arrays and memory -/

/-- The bytes at a place in memory. -/
def bytes (mem : Nat → UInt8) (ptr n : Nat) : List UInt8 :=
  (List.range n).map fun i => mem (ptr + i)

/-- The positions from `lo` up to `hi` replaced. -/
def overwrite (lo hi : Nat) (f : Nat → UInt8) (a : List UInt8) : List UInt8 :=
  a.mapIdx fun k x => if lo ≤ k ∧ k < hi then f k else x

/-- Two regions of memory without a common address. -/
def Apart (ptr n ptr' n' : Nat) : Prop :=
  ∀ x, ptr ≤ x → x < ptr + n → ptr' ≤ x → x < ptr' + n' → False

theorem Apart.symm {ptr n ptr' n' : Nat} (h : Apart ptr n ptr' n') :
    Apart ptr' n' ptr n :=
  fun x h₁ h₂ h₃ h₄ => h x h₃ h₄ h₁ h₂

@[simp] theorem length_bytes (mem : Nat → UInt8) (ptr n : Nat) :
    (bytes mem ptr n).length = n := by
  simp [bytes]

theorem getElem?_bytes (mem : Nat → UInt8) (ptr n i : Nat) :
    (bytes mem ptr n)[i]? = if i < n then some (mem (ptr + i)) else none := by
  unfold bytes
  rw [List.getElem?_map]
  split
  · next h => rw [List.getElem?_range h]; rfl
  · next h => rw [List.getElem?_eq_none (by simpa using h)]; rfl

theorem bytes_congr {mem mem' : Nat → UInt8} {ptr n : Nat}
    (h : ∀ x, ptr ≤ x → x < ptr + n → mem' x = mem x) :
    bytes mem' ptr n = bytes mem ptr n := by
  unfold bytes
  refine List.map_congr_left fun i hi => ?_
  rw [List.mem_range] at hi
  exact h _ (by omega) (by omega)

@[simp] theorem length_overwrite (lo hi : Nat) (f : Nat → UInt8) (a : List UInt8) :
    (overwrite lo hi f a).length = a.length := by
  simp [overwrite]

theorem getElem?_overwrite (lo hi : Nat) (f : Nat → UInt8) (a : List UInt8) (k : Nat) :
    (overwrite lo hi f a)[k]? =
      if lo ≤ k ∧ k < hi then (a[k]?).map fun _ => f k else a[k]? := by
  rw [overwrite, List.getElem?_mapIdx]
  cases a[k]? with
  | none => simp
  | some x => simp only [Option.map_some]; split <;> rfl

theorem overwrite_overwrite {lo mid hi : Nat} (f : Nat → UInt8) (a : List UInt8)
    (h : mid ≤ hi) :
    overwrite (max lo mid) hi f (overwrite lo mid f a) = overwrite lo hi f a := by
  refine List.ext_getElem? fun k => ?_
  simp only [getElem?_overwrite]
  cases a[k]? with
  | none => simp
  | some x =>
      simp only [Option.map_some, apply_ite (Option.map fun _ => f k)]
      split_ifs <;> first | rfl | omega

theorem overwrite_append {lo hi : Nat} (f : Nat → UInt8) (a b : List UInt8)
    (h : hi ≤ a.length) : overwrite lo hi f (a ++ b) = overwrite lo hi f a ++ b := by
  refine List.ext_getElem? fun k => ?_
  simp only [getElem?_overwrite, List.getElem?_append, length_overwrite]
  by_cases hk : k < a.length
  · simp only [if_pos hk]
  · rw [if_neg (by omega), if_neg hk, if_neg hk]

theorem overwrite_of_le {lo hi : Nat} (f : Nat → UInt8) (a : List UInt8) (h : hi ≤ lo) :
    overwrite lo hi f a = a := by
  refine List.ext_getElem? fun k => ?_
  rw [getElem?_overwrite, if_neg (by omega)]

/-! ## Chains -/

/-- A chunk of a chain: its handle, and where its bytes are. -/
structure Link where
  chunk : Nat
  ptr : Nat
  size : Nat

/-- The chain that starts at a pointer. -/
def Linked (chunks : Nat → Option Chunk) : Option Nat → List Link → Prop
  | p, [] => p = none
  | p, l :: ls => p = some l.chunk ∧ ∃ c, chunks l.chunk = some c ∧
      chunkGetPtr l.chunk c = l.ptr ∧ c.size = l.size ∧ Linked chunks c.cnext ls

/-- The bytes of a chain, one chunk after the other. -/
def flat (mem : Nat → UInt8) (links : List Link) : List UInt8 :=
  links.flatMap fun l => bytes mem l.ptr l.size

/-- A region of memory apart from every chunk. -/
def Outside (links : List Link) (ptr n : Nat) : Prop :=
  ∀ l ∈ links, Apart l.ptr l.size ptr n

/-- No two chunks share memory. -/
def Separate (links : List Link) : Prop :=
  links.Pairwise fun l l' => Apart l.ptr l.size l'.ptr l'.size

/-- The buffer is a chain of chunks with these bytes. -/
structure Represents (st : State) (links : List Link) (a : List UInt8) : Prop where
  linked : Linked st.chunks st.buffer.head links
  tail : st.buffer.tail = links.getLast?.map Link.chunk
  nodup : (links.map Link.chunk).Nodup
  size : st.buffer.size = (links.map Link.size).sum
  apart : Separate links
  flat_eq : a = flat st.mem links

/-- Nothing but these chunks is touched. -/
structure Keeps (links : List Link) (st st' : State) : Prop where
  chunks : ∀ h ∉ links.map Link.chunk, st'.chunks h = st.chunks h
  mem : ∀ x, (∀ l ∈ links, ¬ (l.ptr ≤ x ∧ x < l.ptr + l.size)) → st'.mem x = st.mem x

theorem Keeps.refl (links : List Link) (st : State) : Keeps links st st :=
  ⟨fun _ _ => rfl, fun _ _ => rfl⟩

theorem Keeps.mono {links links' : List Link} {st st' : State} (h : Keeps links st st')
    (hsub : links ⊆ links') : Keeps links' st st' :=
  ⟨fun c hc => h.chunks c fun hmem => hc (List.map_subset _ hsub hmem),
    fun x hx => h.mem x fun l hl => hx l (hsub hl)⟩

theorem Keeps.trans {links : List Link} {st₁ st₂ st₃ : State} (h : Keeps links st₁ st₂)
    (h' : Keeps links st₂ st₃) : Keeps links st₁ st₃ :=
  ⟨fun c hc => (h'.chunks c hc).trans (h.chunks c hc),
    fun x hx => (h'.mem x hx).trans (h.mem x hx)⟩

@[simp] theorem flat_append (mem : Nat → UInt8) (links links' : List Link) :
    flat mem (links ++ links') = flat mem links ++ flat mem links' :=
  List.flatMap_append ..

@[simp] theorem flat_cons (mem : Nat → UInt8) (l : Link) (links : List Link) :
    flat mem (l :: links) = bytes mem l.ptr l.size ++ flat mem links :=
  List.flatMap_cons ..

@[simp] theorem flat_nil (mem : Nat → UInt8) : flat mem [] = [] := rfl

theorem length_flat (mem : Nat → UInt8) (links : List Link) :
    (flat mem links).length = (links.map Link.size).sum := by
  induction links with
  | nil => rfl
  | cons l links ih => simp [ih]

theorem flat_congr {mem mem' : Nat → UInt8} {links : List Link}
    (h : ∀ l ∈ links, ∀ x, l.ptr ≤ x → x < l.ptr + l.size → mem' x = mem x) :
    flat mem' links = flat mem links := by
  induction links with
  | nil => rfl
  | cons l links ih =>
      rw [flat_cons, flat_cons, bytes_congr (h l (List.mem_cons_self ..)),
        ih fun l' hl' => h l' (List.mem_cons_of_mem l hl')]

theorem Represents.length {st : State} {links : List Link} {a : List UInt8}
    (h : Represents st links a) : a.length = (links.map Link.size).sum := by
  rw [h.flat_eq, length_flat]

theorem Linked.congr {chunks chunks' : Nat → Option Chunk} {links : List Link} :
    ∀ {p : Option Nat}, Linked chunks p links →
      (∀ l ∈ links, chunks' l.chunk = chunks l.chunk) → Linked chunks' p links := by
  induction links with
  | nil => intro p h _; exact h
  | cons l links ih =>
      rintro p ⟨hp, c, hc, hptr, hsize, hrest⟩ hsame
      refine ⟨hp, c, ?_, hptr, hsize,
        ih hrest fun l' hl' => hsame l' (List.mem_cons_of_mem l hl')⟩
      rw [hsame l (List.mem_cons_self ..), hc]

theorem Linked.header {chunks : Nat → Option Chunk} {links : List Link} {l : Link} :
    ∀ {p : Option Nat}, Linked chunks p links → l ∈ links → ∃ c,
      chunks l.chunk = some c := by
  induction links with
  | nil => intro p _ hl; cases hl
  | cons l' links ih =>
      rintro p ⟨-, c, hc, -, -, hrest⟩ hl
      rcases List.mem_cons.mp hl with rfl | hl
      · exact ⟨c, hc⟩
      · exact ih hrest hl

theorem Linked.at {chunks : Nat → Option Chunk} {l : Link} {rest : List Link} :
    ∀ {before : List Link} {p : Option Nat}, Linked chunks p (before ++ l :: rest) →
      ∃ c, chunks l.chunk = some c ∧ chunkGetPtr l.chunk c = l.ptr ∧ c.size = l.size ∧
        c.cnext = rest.head?.map Link.chunk := by
  intro before
  induction before with
  | nil =>
      rintro p ⟨-, c, hc, hptr, hsize, hrest⟩
      refine ⟨c, hc, hptr, hsize, ?_⟩
      cases rest with
      | nil => exact hrest
      | cons l' rest => exact hrest.1
  | cons l' before ih =>
      rintro p ⟨-, c, -, -, -, hrest⟩
      exact ih hrest

/-- Memory outside the chunks may change. -/
theorem Represents.of_mem {st : State} {links : List Link} {a : List UInt8}
    (h : Represents st links a) {mem : Nat → UInt8}
    (hmem : ∀ l ∈ links, ∀ x, l.ptr ≤ x → x < l.ptr + l.size → mem x = st.mem x) :
    Represents { st with mem := mem } links a :=
  { h with flat_eq := h.flat_eq.trans (flat_congr hmem).symm }

/-- Headers outside the chain may change. -/
theorem Represents.setHeader {st : State} {links : List Link} {a : List UInt8}
    (h : Represents st links a) {chunk : Nat} (hfresh : chunk ∉ links.map Link.chunk)
    (c : Option Chunk) : Represents (st.setHeader chunk c) links a := by
  refine { h with linked := h.linked.congr fun l hl => Function.update_of_ne ?_ _ _ }
  rintro rfl
  exact hfresh (List.mem_map_of_mem hl)

/-! ## Adding a chunk -/

section

variable {st : State} {links : List Link} {a : List UInt8} {chunk ptr size : Nat}
  {c : Chunk}

theorem Represents.addHeadAny (h : Represents st links a)
    (hfresh : chunk ∉ links.map Link.chunk) (hc : st.chunks chunk = some c)
    (hptr : chunkGetPtr chunk c = ptr) (hsize : c.size = size) (hnext : c.cnext = none)
    (hout : Outside links ptr size) :
    ∃ st', st.addHeadAny chunk = .ok st' ∧ st'.mem = st.mem ∧
      Represents st' (⟨chunk, ptr, size⟩ :: links) (bytes st.mem ptr size ++ a) := by
  have hheader : st.header chunk = .ok c := by simp [State.header, hc]
  have hapart : Separate (⟨chunk, ptr, size⟩ :: links) :=
    List.pairwise_cons.mpr ⟨fun l hl => (hout l hl).symm, h.apart⟩
  cases links with
  | nil =>
      have hhead : st.buffer.head = none := h.linked
      refine ⟨{ st with buffer := ⟨st.buffer.size + c.size, some chunk, some chunk⟩ },
        ?_, rfl, ?_⟩
      · simp only [State.addHeadAny, hheader, hhead, bind, Except.bind]
      · refine ⟨⟨rfl, c, hc, hptr, hsize, hnext⟩, rfl, by simp, ?_, hapart, ?_⟩
        · simp [h.size, hsize]
        · simp [h.flat_eq]
  | cons l links =>
      have hhead : st.buffer.head = some l.chunk := h.linked.1
      have hset := h.setHeader hfresh (some { c with cnext := some l.chunk })
      refine ⟨{ st.setHeader chunk (some { c with cnext := some l.chunk }) with
        buffer := ⟨st.buffer.size + c.size, some chunk, st.buffer.tail⟩ }, ?_, rfl, ?_⟩
      · simp only [State.addHeadAny, hheader, hhead, bind, Except.bind]
        rfl
      · refine ⟨⟨rfl, _, Function.update_self .., hptr, hsize, ?_⟩, ?_, ?_,
          ?_, hapart, ?_⟩
        · exact hhead ▸ hset.linked
        · simpa using h.tail
        · exact List.nodup_cons.mpr ⟨hfresh, h.nodup⟩
        · simp only [h.size, hsize, List.map_cons, List.sum_cons]
          omega
        · rw [flat_cons, h.flat_eq]
          rfl

theorem Linked.snoc {chunks : Nat → Option Chunk} {last : Link}
    (hc : chunks chunk = some c) (hptr : chunkGetPtr chunk c = ptr)
    (hsize : c.size = size) (hnext : c.cnext = none) {t : Chunk}
    (ht : chunks last.chunk = some t) :
    ∀ {links : List Link} {p : Option Nat}, Linked chunks p (links ++ [last]) →
      last.chunk ∉ links.map Link.chunk → chunk ∉ (links ++ [last]).map Link.chunk →
      Linked (Function.update chunks last.chunk (some { t with cnext := some chunk })) p
        (links ++ [last] ++ [⟨chunk, ptr, size⟩]) := by
  intro links
  induction links with
  | nil =>
      rintro p ⟨hp, c', hc', hptr', hsize', -⟩ - hfresh
      obtain rfl : t = c' := Option.some.inj (ht.symm.trans hc')
      have hne : chunk ≠ last.chunk := by simpa using hfresh
      refine ⟨hp, _, Function.update_self .., hptr', hsize', rfl, c, ?_, hptr,
        hsize, hnext⟩
      rw [Function.update_of_ne hne, hc]
  | cons l links ih =>
      rintro p ⟨hp, c', hc', hptr', hsize', hrest⟩ hlast hfresh
      simp only [List.map_cons, List.mem_cons, List.cons_append, not_or] at hlast hfresh
      refine ⟨hp, c', ?_, hptr', hsize', ih hrest hlast.2 hfresh.2⟩
      rw [Function.update_of_ne (Ne.symm hlast.1), hc']

theorem Represents.addTailAny (h : Represents st links a)
    (hfresh : chunk ∉ links.map Link.chunk) (hc : st.chunks chunk = some c)
    (hptr : chunkGetPtr chunk c = ptr) (hsize : c.size = size) (hnext : c.cnext = none)
    (hout : Outside links ptr size) :
    ∃ st', st.addTailAny chunk = .ok st' ∧ st'.mem = st.mem ∧ Keeps links st st' ∧
      Represents st' (links ++ [⟨chunk, ptr, size⟩]) (a ++ bytes st.mem ptr size) := by
  have hheader : st.header chunk = .ok c := by simp [State.header, hc]
  have hapart : Separate (links ++ [⟨chunk, ptr, size⟩]) := by
    refine List.pairwise_append.mpr
      ⟨h.apart, List.pairwise_singleton .., fun l hl l' hl' => ?_⟩
    rw [List.mem_singleton] at hl'
    rw [hl']
    exact hout l hl
  rcases List.eq_nil_or_concat links with rfl | ⟨links, last, rfl⟩
  · have hhead : st.buffer.head = none := h.linked
    have htail : st.buffer.tail = none := h.tail
    refine ⟨{ st with buffer := ⟨st.buffer.size + c.size, some chunk, some chunk⟩ },
      ?_, rfl, ⟨fun _ _ => rfl, fun _ _ => rfl⟩, ?_⟩
    · simp only [State.addTailAny, hheader, htail, bind, Except.bind]
    · refine ⟨⟨rfl, c, hc, hptr, hsize, hnext⟩, rfl, by simp, ?_, hapart, ?_⟩
      · simp [h.size, hsize]
      · simp [h.flat_eq]
  · rw [List.concat_eq_append] at *
    have htail : st.buffer.tail = some last.chunk := by simpa using h.tail
    obtain ⟨t, ht⟩ :=
      h.linked.header (List.mem_append_right links (List.mem_singleton_self last))
    have htheader : st.header last.chunk = .ok t := by simp [State.header, ht]
    have hnodup := h.nodup
    rw [List.map_append, List.nodup_append'] at hnodup
    refine ⟨{ st.setHeader last.chunk (some { t with cnext := some chunk }) with
      buffer := ⟨st.buffer.size + c.size, st.buffer.head, some chunk⟩ }, ?_, rfl,
        ⟨?_, fun _ _ => rfl⟩, ?_⟩
    · simp only [State.addTailAny, hheader, htail, htheader, bind, Except.bind]
      rfl
    · intro h' hh'
      exact Function.update_of_ne (fun heq => hh' (by simp [heq])) _ _
    · refine ⟨h.linked.snoc hc hptr hsize hnext ht ?_ hfresh, by simp, ?_, ?_, hapart, ?_⟩
      · intro hmem
        exact hnodup.2.2 hmem (List.mem_singleton_self _)
      · rw [List.map_append, List.nodup_append']
        exact ⟨h.nodup, List.nodup_singleton _, by simpa using hfresh⟩
      · simp only [h.size, hsize, List.map_append, List.map_cons, List.map_nil,
          List.sum_append, List.sum_cons, List.sum_nil]
        omega
      · rw [flat_append, h.flat_eq]
        simp [State.setHeader]

/-- What `malloc` gives for a chunk of `size` bytes. -/
structure Fresh (links : List Link) (chunk size : Nat) : Prop where
  handle : chunk ∉ links.map Link.chunk
  outside : Outside links chunk size

theorem Represents.addHeadChunk (h : Represents st links a)
    (hfresh : Fresh links chunk size) :
    ∃ st', st.addHeadChunk chunk size = .ok st' ∧ st'.mem = st.mem ∧
      Represents st' (⟨chunk, chunk, size⟩ :: links) (bytes st.mem chunk size ++ a) :=
  (h.setHeader hfresh.handle _).addHeadAny hfresh.handle (Function.update_self ..)
  rfl rfl rfl
    hfresh.outside

theorem Represents.addTailChunk (h : Represents st links a)
    (hfresh : Fresh links chunk size) :
    ∃ st', st.addTailChunk chunk size = .ok st' ∧ st'.mem = st.mem ∧
      Keeps (links ++ [⟨chunk, chunk, size⟩]) st st' ∧
      Represents st' (links ++ [⟨chunk, chunk, size⟩])
        (a ++ bytes st.mem chunk size) := by
  have hset := h.setHeader hfresh.handle (some ⟨.allocated, size, none, 0⟩)
  obtain ⟨st', hadd, hmem, hkeeps, h'⟩ :=
    hset.addTailAny hfresh.handle (Function.update_self ..) rfl rfl rfl hfresh.outside
  refine ⟨st', hadd, hmem, ⟨fun c hc => ?_, fun x _ => congrFun hmem x⟩, h'⟩
  rw [List.map_append, List.mem_append, not_or] at hc
  exact (hkeeps.chunks c hc.1).trans (Function.update_of_ne (by simpa using hc.2) _ _)

theorem Represents.addHeadRaw (h : Represents st links a)
    (hfresh : chunk ∉ links.map Link.chunk) (hout : Outside links ptr size) :
    ∃ st', st.addHeadRaw chunk ptr size = .ok st' ∧ st'.mem = st.mem ∧
      Represents st' (⟨chunk, ptr, size⟩ :: links) (bytes st.mem ptr size ++ a) :=
  (h.setHeader hfresh _).addHeadAny hfresh (Function.update_self ..) rfl rfl rfl hout

theorem Represents.addTailRaw (h : Represents st links a)
    (hfresh : chunk ∉ links.map Link.chunk) (hout : Outside links ptr size) :
    ∃ st', st.addTailRaw chunk ptr size = .ok st' ∧ st'.mem = st.mem ∧
      Represents st' (links ++ [⟨chunk, ptr, size⟩]) (a ++ bytes st.mem ptr size) := by
  have hset := h.setHeader hfresh (some ⟨.bare, size, none, ptr⟩)
  obtain ⟨st', hadd, hmem, -, h'⟩ :=
    hset.addTailAny hfresh (Function.update_self ..) rfl rfl rfl hout
  exact ⟨st', hadd, hmem, h'⟩

end

/-! ## Writing -/

section

variable {st : State} {before rest : List Link} {l : Link} {a : List UInt8}
variable {off buf n : Nat} {g : Nat → UInt8}

/-- The bytes of a chunk at offset `o`, those from position `off` on replaced. -/
def spread (mem : Nat → UInt8) (ptr sz o off : Nat) (g : Nat → UInt8) (x : Nat) : UInt8 :=
  if ptr ≤ x ∧ x < ptr + sz ∧ off ≤ o + (x - ptr) then g (o + (x - ptr) - off) else mem x

/-- What is written to a chunk: the positions of it from `off` on. -/
theorem writeBody_eq (off buf o sz ptr : Nat) (st : State) :
    State.writeBody off buf o sz ptr st () =
      ({ st with mem := spread st.mem ptr sz o off fun j => st.mem (buf + j) }, ()) := by
  unfold State.writeBody
  split_ifs with hfirst hnext
  · refine congrArg (fun mem => ({ st with mem := mem }, ())) (funext fun x => ?_)
    simp only [memcpy, spread]
    split_ifs
    · congr 1
      omega
    · omega
    · omega
    · rfl
  · refine congrArg (fun mem => ({ st with mem := mem }, ())) (funext fun x => ?_)
    simp only [memcpy, spread]
    split_ifs
    · congr 1
      omega
    · omega
    · omega
    · rfl
  · refine congrArg (fun mem => ({ st with mem := mem }, ())) (funext fun x => ?_)
    rw [spread, if_neg (by omega)]

/-- The same as a change of the array. -/
theorem Represents.write (off : Nat) (h : Represents st (before ++ l :: rest) a)
    {o sz : Nat} (ho : (before.map Link.size).sum = o) (hsz : sz ≤ l.size)
    (hlt : o + sz ≤ off + n) (hbuf : Outside (before ++ l :: rest) buf n)
    (hg : ∀ j, j < n → st.mem (buf + j) = g j) :
    let st' := (State.writeBody off buf o sz l.ptr st ()).1
    Represents st' (before ++ l :: rest)
      (overwrite (max off o) (o + sz) (fun k => g (k - off)) a) ∧
      Keeps (before ++ l :: rest) st st' ∧ ∀ j, j < n → st'.mem (buf + j) = g j := by
  intro st'
  have hst' : st' = _ := congrArg Prod.fst (writeBody_eq off buf o sz l.ptr st)
  have hsep := List.pairwise_append.mp h.apart
  have hl := List.pairwise_cons.mp hsep.2.1
  -- only the bytes of this chunk change
  have hmem : ∀ x, ¬ (l.ptr ≤ x ∧ x < l.ptr + l.size) → st'.mem x = st.mem x := by
    intro x hx
    rw [hst']
    simp only [spread]
    rw [if_neg (by omega)]
  have hbefore : flat st'.mem before = flat st.mem before := by
    refine flat_congr fun l' hl' x h₁ h₂ => hmem x fun hx => ?_
    exact hsep.2.2 l' hl' l (List.mem_cons_self ..) x h₁ h₂ hx.1 hx.2
  have hrest : flat st'.mem rest = flat st.mem rest := by
    refine flat_congr fun l' hl' x h₁ h₂ => hmem x fun hx => ?_
    exact hl.1 l' hl' x hx.1 hx.2 h₁ h₂
  refine ⟨⟨?_, ?_, h.nodup, ?_, h.apart, ?_⟩,
    ⟨?_, fun x hx => hmem x (hx l (by simp))⟩, ?_⟩
  · rw [hst']; exact h.linked
  · rw [hst']; exact h.tail
  · rw [hst']; exact h.size
  · rw [h.flat_eq, flat_append, flat_cons, flat_append, flat_cons, hbefore, hrest]
    refine List.ext_getElem? fun k => ?_
    have hlen := length_flat st.mem before
    simp only [getElem?_overwrite, List.getElem?_append, hlen, ho, length_bytes]
    by_cases hk : k < o
    · rw [if_neg (by omega), if_pos hk, if_pos hk]
    · by_cases hk' : k - o < l.size
      · simp only [if_neg hk, if_pos hk', getElem?_bytes, Option.map_some]
        rw [hst']
        simp only [spread]
        by_cases hpos : max off o ≤ k ∧ k < o + sz
        · rw [if_pos hpos, if_pos (by omega), hg _ (by omega)]
          congr 2
          omega
        · rw [if_neg hpos, if_neg (by omega)]
      · rw [if_neg (by omega), if_neg hk, if_neg hk', if_neg hk, if_neg hk']
  · intro c _
    rw [hst']
  · intro j hj
    rw [hmem _ ?_, hg j hj]
    intro hx
    exact hbuf l (by simp) (buf + j) hx.1 hx.2 (by omega) (by omega)

theorem process_step {α : Type} {create : Option Nat} {c : Chunk}
    {func : Nat → Nat → Nat → State → α → State × α} {x : α} (fuel : Nat)
    {toProcess o chunk : Nat} (hpos : toProcess ≠ 0) (hc : st.chunks chunk = some c) :
    State.process create func (fuel + 1) toProcess o (some chunk) st x =
      State.process create func fuel (toProcess - min c.size toProcess)
        (o + min c.size toProcess)
        c.cnext (func o (min c.size toProcess) (chunkGetPtr chunk c) st x).1
        (func o (min c.size toProcess) (chunkGetPtr chunk c) st x).2 := by
  have hmin : (if c.size > toProcess then toProcess else c.size)
      = min c.size toProcess := by
    split_ifs <;> omega
  cases create <;> simp only [State.process, if_neg hpos, State.header, hc, bind,
    Except.bind, hmin]

/-- The chunk that `buffer_process` adds is the next one it goes to. -/
theorem process_create {α : Type} {chunk : Nat} {st' : State}
    {func : Nat → Nat → Nat → State → α → State × α} {x : α} (fuel : Nat)
    {toProcess o : Nat} (hpos : toProcess ≠ 0)
    (hadd : st.addTailChunk chunk toProcess = .ok st') :
    State.process (some chunk) func (fuel + 1) toProcess o none st x =
      State.process (some chunk) func (fuel + 1) toProcess o (some chunk) st' x := by
  simp only [State.process, if_neg hpos, hadd, bind, Except.bind]

theorem process_done {α : Type} {create : Option Nat}
    {func : Nat → Nat → Nat → State → α → State × α} {x : α} {o : Nat} {p : Option Nat} :
    Returns (fun fuel => State.process create func fuel 0 o p st x) (st, x) :=
  .of_succ (.of_forall fun fuel => by simp [State.process])

theorem write_round (off chunk : Nat) {o : Nat}
    (h : Represents st (before ++ l :: rest) a) (ho : (before.map Link.size).sum = o)
    (hlt : o < off + n) (hbuf : Outside (before ++ l :: rest) buf n)
    (hg : ∀ j, j < n → st.mem (buf + j) = g j) :
    ∃ st₁, (∀ fuel, State.process (some chunk) (State.writeBody off buf) (fuel + 1)
      (off + n - o) o
        (some l.chunk) st () =
      State.process (some chunk) (State.writeBody off buf) fuel
        (off + n - (o + min l.size (off + n - o))) (o + min l.size (off + n - o))
        (rest.head?.map Link.chunk) st₁ ()) ∧
      Represents st₁ (before ++ l :: rest)
        (overwrite (max off o) (o + min l.size (off + n - o)) (fun k => g (k - off)) a) ∧
      Keeps (before ++ l :: rest) st st₁ ∧ ∀ j, j < n → st₁.mem (buf + j) = g j := by
  obtain ⟨c, hc, hptr, hsize, hnext⟩ := h.linked.at
  obtain ⟨h₁, hkeeps, hg₁⟩ :=
    h.write off ho (min_le_left l.size (off + n - o)) (by omega) hbuf hg
  refine ⟨_, fun fuel => ?_, h₁, hkeeps, hg₁⟩
  rw [process_step fuel (by omega) hc, hptr, hsize, hnext, Nat.sub_sub]

/-- The chunk that is added for the bytes up to `hi`. -/
def added (chunk len hi : Nat) : List Link :=
  if len < hi then [⟨chunk, chunk, hi - len⟩] else []

/-- The walk of `buffer_write` over the rest of the chain, and the chunk it
adds at its end. -/
theorem process_write (g : Nat → UInt8) {chunk : Nat} :
    ∀ {rest before : List Link} {st : State} {a : List UInt8} {o : Nat},
      Represents st (before ++ rest) a → (before.map Link.size).sum = o → o ≤ off + n →
      Outside (before ++ rest) buf n → (∀ j, j < n → st.mem (buf + j) = g j) →
      (a.length < off + n → Fresh (before ++ rest) chunk (off + n - a.length) ∧
        Apart chunk (off + n - a.length) buf n) →
      let links := before ++ rest ++ added chunk a.length (off + n)
      ∃ st' junk, junk.length = off + n - a.length ∧
        Returns (fun fuel => State.process (some chunk) (State.writeBody off buf) fuel
          (off + n - o) o (rest.head?.map Link.chunk) st ()) (st', ()) ∧
        Keeps links st st' ∧
        Represents st' links
          (overwrite (max off o) (off + n) (fun k => g (k - off)) (a ++ junk)) := by
  intro rest
  induction rest with
  | nil =>
      intro before st a o h ho hle hbuf hg hnew
      rw [List.append_nil] at h hbuf hnew ⊢
      have hlen : a.length = o := h.length.trans ho
      by_cases hdone : off + n ≤ o
      · rw [added, if_neg (by omega), List.append_nil]
        refine ⟨st, [], by simp; omega, ?_, .refl _ st, ?_⟩
        · rw [Nat.sub_eq_zero_of_le hdone]
          exact process_done
        · rw [overwrite_of_le _ _ (by omega), List.append_nil]
          exact h
      · rw [hlen] at hnew ⊢
        rw [added, if_pos (by omega)]
        obtain ⟨hfresh, hapart⟩ := hnew (by omega)
        obtain ⟨st₁, hadd, hmem, hkeeps, h₁⟩ := h.addTailChunk hfresh
        have hbuf₁ : Outside (before ++ [⟨chunk, chunk, off + n - o⟩]) buf n := by
          intro l hl
          rcases List.mem_append.mp hl with hl | hl
          · exact hbuf l hl
          · rw [List.mem_singleton.mp hl]
            exact hapart
        obtain ⟨st₂, hround, h₂, hkeeps₂, -⟩ :=
          write_round off chunk h₁ ho (by omega) hbuf₁ (by rwa [hmem])
        have hend : o + min (off + n - o) (off + n - o) = off + n := by omega
        simp only [hend, Nat.sub_self] at hround h₂
        refine ⟨st₂, bytes st.mem chunk (off + n - o), length_bytes .., .of_succ ?_,
          hkeeps.trans hkeeps₂, h₂⟩
        simp only [List.head?_nil, Option.map_none,
          process_create _ (by omega) hadd, hround]
        exact process_done
  | cons l rest ih =>
      intro before st a o h ho hle hbuf hg hnew
      have hlen := h.length
      simp only [List.map_append, List.sum_append, List.map_cons, List.sum_cons, ho]
        at hlen
      by_cases hdone : off + n ≤ o
      · rw [added, if_neg (by omega), List.append_nil]
        refine ⟨st, [], by simp; omega, ?_, .refl _ st, ?_⟩
        · rw [Nat.sub_eq_zero_of_le hdone]
          exact process_done
        · rw [overwrite_of_le _ _ (by omega), List.append_nil]
          exact h
      · obtain ⟨st₁, hround, h₁, hkeeps₁, hg₁⟩ :=
          write_round off chunk h ho (by omega) hbuf hg
        by_cases hclip : off + n - o ≤ l.size
        · -- the last chunk to process
          have hend : o + min l.size (off + n - o) = off + n := by omega
          simp only [hend, Nat.sub_self] at hround h₁
          rw [added, if_neg (by omega), List.append_nil]
          refine ⟨st₁, [], by simp; omega, .of_succ ?_, hkeeps₁, by rwa [List.append_nil]⟩
          simp only [List.head?_cons, Option.map_some, hround]
          exact process_done
        · have hend : min l.size (off + n - o) = l.size := by omega
          rw [hend] at h₁
          simp only [hend] at hround
          rw [List.append_cons] at h₁ hbuf hnew hkeeps₁ ⊢
          have ho₁ : ((before ++ [l]).map Link.size).sum = o + l.size := by simp [ho]
          obtain ⟨st', junk, hjunk, hreturns, hkeeps, h'⟩ := ih h₁ ho₁ (by omega) hbuf hg₁
            (by simpa using hnew)
          rw [length_overwrite] at hjunk hkeeps h'
          refine ⟨st', junk, hjunk, .of_succ ?_,
            (hkeeps₁.mono (List.subset_append_left ..)).trans hkeeps, ?_⟩
          · simp only [List.head?_cons, Option.map_some, hround]
            exact hreturns
          · have heq : overwrite (max off (o + l.size)) (off + n) (fun k => g (k - off))
                (overwrite (max off o) (o + l.size) (fun k => g (k - off)) a ++ junk) =
                overwrite (max off o) (off + n) (fun k => g (k - off)) (a ++ junk) := by
              have hmax : max off (o + l.size) = max (max off o) (o + l.size) := by omega
              rw [← overwrite_append _ _ _ (by omega), hmax,
                overwrite_overwrite _ _ (by omega)]
            rwa [heq] at h'

end

/-! ## Reading -/

section

variable {st : State} {before rest : List Link} {l : Link} {a : List UInt8} {n : Nat}

/-- The positions from `lo` up to `hi`, read to `dst` as those from `off` on. -/
def gather (mem : Nat → UInt8) (dst off lo hi : Nat) (f : Nat → UInt8) (x : Nat) :
    UInt8 :=
  if dst ≤ x ∧ lo ≤ off + (x - dst) ∧ off + (x - dst) < hi then f (off + (x - dst))
  else mem x

theorem gather_gather {lo mid hi : Nat} (mem : Nat → UInt8) (dst off : Nat)
    (f : Nat → UInt8) (h₁ : lo ≤ mid) (h₂ : mid ≤ hi) :
    gather (gather mem dst off lo mid f) dst off mid hi f = gather mem dst off
      lo hi f := by
  funext x
  simp only [gather]
  split_ifs <;> first | rfl | omega

theorem gather_of_le {lo hi : Nat} (mem : Nat → UInt8) (dst off : Nat) (f : Nat → UInt8)
    (h : hi ≤ lo) : gather mem dst off lo hi f = mem := by
  funext x
  rw [gather, if_neg (by omega)]

/-- What is read of a chunk. -/
theorem readBody_eq (off dst o sz ptr processed : Nat) (st : State) :
    State.readBody off dst o sz ptr st processed =
      ({ st with mem := gather st.mem dst off o (o + sz) fun k => st.mem (ptr + (k - o)) },
        processed + (o + sz - max off o)) := by
  unfold State.readBody
  split_ifs with hfirst hnext
  · refine Prod.ext (congrArg (fun mem => { st with mem := mem }) (funext fun x => ?_)) ?_
    · simp only [memcpy, gather]
      split_ifs
      · congr 1
        omega
      · omega
      · omega
      · rfl
    · simp only
      omega
  · refine Prod.ext (congrArg (fun mem => { st with mem := mem }) (funext fun x => ?_)) ?_
    · simp only [memcpy, gather]
      split_ifs
      · congr 1
        omega
      · omega
      · omega
      · rfl
    · simp only
      omega
  · refine Prod.ext (congrArg (fun mem => { st with mem := mem }) (funext fun x => ?_)) ?_
    · rw [gather, if_neg (by omega)]
    · simp only
      omega

theorem Represents.getD (h : Represents st (before ++ l :: rest) a) {o k : Nat}
    (ho : (before.map Link.size).sum = o) (hk : o ≤ k) (hlt : k < o + l.size) :
    st.mem (l.ptr + (k - o)) = a.getD k 0 := by
  have hlen := length_flat st.mem before
  rw [h.flat_eq, flat_append, flat_cons, List.getD_eq_getElem?_getD,
    List.getElem?_append_right (by omega), List.getElem?_append_left (by simp; omega),
    getElem?_bytes, if_pos (by omega), hlen, ho]
  rfl

theorem Represents.gather {links : List Link} (h : Represents st links a)
    {off dst hi : Nat} (lo : Nat) (f : Nat → UInt8) (hout : Outside links dst n)
    (hhi : hi ≤ off + n) :
    Represents { st with mem := gather st.mem dst off lo hi f } links a := by
  refine h.of_mem fun l hl x h₁ h₂ => ?_
  rw [Chunked.gather, if_neg]
  rintro ⟨hx, -, hx'⟩
  exact hout l hl x h₁ h₂ hx (by omega)

theorem span_add {off o sz stop : Nat} (h : o + sz ≤ stop) :
    o + sz - max off o + (stop - max off (o + sz)) = stop - max off o := by
  omega

theorem process_read (off : Nat) {dst : Nat} :
    ∀ {rest before : List Link} {st : State} {o : Nat} (processed : Nat),
      Represents st (before ++ rest) a → (before.map Link.size).sum = o → o ≤ off + n →
      Outside (before ++ rest) dst n →
      Returns
        (fun fuel => State.process none (State.readBody off dst) fuel (off + n - o) o
          (rest.head?.map Link.chunk) st processed)
        ({ st with mem := Chunked.gather st.mem dst off o (min (off + n) a.length) (a.getD · 0) },
          processed + (min (off + n) a.length - max off o)) := by
  intro rest
  induction rest with
  | nil =>
      intro before st o processed h ho hle hout
      rw [List.append_nil] at h
      have hlen : a.length = o := h.length.trans ho
      have hzero : min (off + n) a.length - max off o = 0 := by omega
      rw [gather_of_le _ _ _ _ (by omega), hzero, add_zero]
      refine .of_succ (.of_forall fun fuel => ?_)
      simp [State.process]
  | cons l rest ih =>
      intro before st o processed h ho hle hout
      have hlen := h.length
      simp only [List.map_append, List.sum_append, List.map_cons, List.sum_cons, ho]
        at hlen
      by_cases hdone : off + n ≤ o
      · have hzero : min (off + n) a.length - max off o = 0 := by omega
        rw [gather_of_le _ _ _ _ (by omega), hzero, add_zero, Nat.sub_eq_zero_of_le hdone]
        exact process_done
      · obtain ⟨c, hc, hptr, hsize, hnext⟩ := h.linked.at
        set sz := min l.size (off + n - o) with hsz
        have hround : ∀ fuel,
            State.process none (State.readBody off dst) (fuel + 1) (off + n - o) o
            (some l.chunk) st processed =
          State.process none (State.readBody off dst) fuel (off + n - (o + sz)) (o + sz)
            (rest.head?.map Link.chunk)
            { st with mem := Chunked.gather st.mem dst off o (o + sz) (a.getD · 0) }
            (processed + (o + sz - max off o)) := by
          intro fuel
          have hmem : Chunked.gather st.mem dst off o (o + sz)
              (fun k => st.mem (l.ptr + (k - o))) =
              Chunked.gather st.mem dst off o (o + sz) (a.getD · 0) := by
            funext x
            simp only [Chunked.gather]
            split_ifs with hx
            · exact h.getD ho hx.2.1 (by omega)
            · rfl
          rw [process_step fuel (by omega) hc, hptr, hsize, hnext, Nat.sub_sub,
            readBody_eq, ← hsz, hmem]
        refine .of_succ ?_
        simp only [List.head?_cons, Option.map_some, hround]
        by_cases hclip : off + n - o ≤ l.size
        · have hend : o + sz = off + n := by omega
          rw [min_eq_left (by omega), hend, Nat.sub_self]
          exact process_done
        · have hend : sz = l.size := by omega
          have ho₁ : ((before ++ [l]).map Link.size).sum = o + sz := by simp [ho, hend]
          have h₁ := h.gather o (a.getD · 0) hout (by omega : o + sz ≤ off + n)
          rw [List.append_cons] at h₁ hout
          have hrest := ih (processed + (o + sz - max off o)) h₁ ho₁ (by omega) hout
          have hend' : o + sz ≤ min (off + n) a.length := by omega
          rw [gather_gather _ _ _ _ (by omega) hend', Nat.add_assoc, span_add hend']
            at hrest
          exact hrest

theorem Linked.head_eq {chunks : Nat → Option Chunk} {p : Option Nat} {links : List Link}
    (h : Linked chunks p links) : p = links.head?.map Link.chunk := by
  cases links with
  | nil => exact h
  | cons l links => exact h.1

theorem Represents.read {links : List Link} {dst : Nat} (h : Represents st links a)
    (off : Nat) (hout : Outside links dst n) :
    Returns (fun fuel => st.read fuel off dst n)
      ({ st with mem := Chunked.gather st.mem dst off 0 (min (off + n) a.length) (a.getD · 0) },
        min (off + n) a.length - off) := by
  have h' : Represents st ([] ++ links) a := h
  have hwalk := process_read off (o := 0) 0 h' rfl (Nat.zero_le _) hout
  rw [← h.linked.head_eq, max_eq_left (Nat.zero_le off), zero_add] at hwalk
  exact hwalk

/-- What was read, seen as memory. -/
theorem bytes_gather (mem : Nat → UInt8) (dst off : Nat) (a : List UInt8) :
    bytes (Chunked.gather mem dst off 0 (min (off + n) a.length) (a.getD · 0)) dst
      (min (off + n) a.length - off) = (a.drop off).take n := by
  refine List.ext_getElem? fun i => ?_
  rw [getElem?_bytes, List.getElem?_take, List.getElem?_drop]
  by_cases hi : i < min (off + n) a.length - off
  · rw [if_pos hi, if_pos (by omega), Chunked.gather, if_pos (by omega),
      Nat.add_sub_cancel_left,
      List.getD_eq_getElem?_getD, List.getElem?_eq_getElem (by omega)]
    rfl
  · rw [if_neg hi]
    split_ifs
    · exact (List.getElem?_eq_none (by omega)).symm
    · rfl

end

/-! ## Defragmentation -/

section

variable {st : State} {links : List Link} {a : List UInt8} {chunk : Nat}

theorem freeChunks_returns {chunk : Nat} {c : Chunk} :
    ∀ {links : List Link} {p : Option Nat} {st : State}, Linked st.chunks p links →
      (links.map Link.chunk).Nodup → chunk ∉ links.map Link.chunk →
      st.chunks chunk = some c →
      ∃ st', Returns (fun fuel => State.freeChunks fuel p st) st' ∧ st'.mem = st.mem ∧
        st'.chunks chunk = some c := by
  intro links
  induction links with
  | nil =>
      rintro p st rfl - - hc
      exact ⟨st, .of_succ (.of_forall fun fuel => rfl), rfl, hc⟩
  | cons l links ih =>
      rintro p st ⟨rfl, c', hc', -, -, hrest⟩ hnodup hfresh hc
      rw [List.map_cons, List.nodup_cons] at hnodup
      rw [List.map_cons, List.mem_cons, not_or] at hfresh
      have hrest' : Linked (st.setHeader l.chunk none).chunks c'.cnext links := by
        refine hrest.congr fun l' hl' => Function.update_of_ne ?_ _ _
        intro heq
        exact hnodup.1 (heq ▸ List.mem_map_of_mem hl')
      obtain ⟨st', hreturns, hmem, hchunk⟩ := ih hrest' hnodup.2 hfresh.2
        ((Function.update_of_ne hfresh.1 _ _).trans hc)
      refine ⟨st', .of_succ ?_, hmem, hchunk⟩
      simpa only [State.freeChunks, State.header, hc', bind, Except.bind] using hreturns

theorem represents_init (st : State) : Represents st.init [] [] :=
  ⟨rfl, rfl, List.nodup_nil, rfl, List.Pairwise.nil, rfl⟩

/-- A chain of two or more chunks becomes one chunk. -/
theorem defragment_returns (h : Represents st links a)
    (hfresh : Fresh links chunk a.length) (hends : st.buffer.head ≠ st.buffer.tail) :
    ∃ st' links', Returns (fun fuel => st.defragment fuel chunk) (st', chunk) ∧
      Represents st' links' a := by
  have hsize : st.buffer.size = a.length := h.size.trans h.length.symm
  have h₁ : Represents (st.chunkDataAlloc chunk a.length) links a :=
    h.setHeader hfresh.handle _
  have hread := h₁.read 0 hfresh.outside
  have h₂ := h₁.gather 0 (a.getD · 0) hfresh.outside (min_le_left (0 + a.length) a.length)
  obtain ⟨st₃, hfree, hmem₃, hchunk⟩ :=
    freeChunks_returns h₂.linked h₂.nodup hfresh.handle (Function.update_self ..)
  obtain ⟨st', hadd, -, -, h'⟩ :=
    (represents_init st₃).addTailAny (by simp) hchunk rfl rfl rfl fun l hl => by cases hl
  refine ⟨st', [⟨chunk, chunk, a.length⟩], ?_, ?_⟩
  · simp only [State.defragment, if_neg hends, hsize]
    refine .bind hread
      (.bind (.bind hfree (.of_forall fun fuel => rfl)) (.of_forall fun fuel => ?_))
    rw [hadd]
    rfl
  · have hbytes := bytes_gather (n := a.length) st.mem chunk 0 a
    simp only [zero_add, min_self, Nat.sub_zero, List.drop_zero, List.take_length]
      at hbytes
    rw [zero_add, min_self] at hmem₃
    have heq : bytes st₃.init.mem chunk a.length = a :=
      (congrArg (fun mem => bytes mem chunk a.length) hmem₃).trans hbytes
    have h'' : Represents st' [⟨chunk, chunk, a.length⟩]
        (bytes st₃.init.mem chunk a.length) := h'
    rwa [heq] at h''

theorem represents_defragment (h : Represents st links a) (hne : links ≠ [])
    (hfresh : Fresh links chunk a.length) :
    ∃ st' links' ptr, Returns (fun fuel => st.defragment fuel chunk) (st', ptr) ∧
      Represents st' links' a := by
  by_cases hends : st.buffer.head = st.buffer.tail
  · cases links with
    | nil => exact absurd rfl hne
    | cons l links =>
        obtain ⟨hhead, c, hc, -⟩ := h.linked
        refine ⟨st, l :: links, chunkGetPtr l.chunk c, .of_forall fun fuel => ?_, h⟩
        rw [State.defragment, if_pos hends]
        simp only [hhead, State.header, hc, bind, Except.bind]
  · obtain ⟨st', links', hreturns, h'⟩ := defragment_returns h hfresh hends
    exact ⟨st', links', chunk, hreturns, h'⟩

end

/-! ## Sequences of operations -/

/-- New chunks are in memory of their own, and so is what is copied from and to. -/
def Legal (st : State) (links : List Link) (size : Nat) : Op → Prop
  | .addHeadChunk chunk n => Fresh links chunk n
  | .addTailChunk chunk n => Fresh links chunk n
  | .addHeadRaw chunk ptr n => chunk ∉ links.map Link.chunk ∧ Outside links ptr n
  | .addTailRaw chunk ptr n => chunk ∉ links.map Link.chunk ∧ Outside links ptr n
  | .write off buf n chunk => Outside links buf n ∧
      (size < off + n → Fresh links chunk (off + n - size) ∧
        Apart chunk (off + n - size) buf n)
  | .read _ buf n => Outside links buf n
  | .defragment chunk => links ≠ [] ∧ Fresh links chunk size
  | .other mem => ∀ l ∈ links, ∀ x, l.ptr ≤ x → x < l.ptr + l.size → mem x = st.mem x

/-- What an operation does to the array, and what it returns. -/
def FlatStep (mem mem' : Nat → UInt8) (a a' : List UInt8) (res : Nat) : Op → Prop
  | .addHeadChunk chunk n => a' = bytes mem chunk n ++ a
  | .addTailChunk chunk n => a' = a ++ bytes mem chunk n
  | .addHeadRaw _ ptr n => a' = bytes mem ptr n ++ a
  | .addTailRaw _ ptr n => a' = a ++ bytes mem ptr n
  | .write off buf n _ =>
      a'.length = max a.length (off + n) ∧
      (∀ i, i < n → a'[off + i]? = some (mem (buf + i))) ∧
      ∀ k, k < a.length → ¬ (off ≤ k ∧ k < off + n) → a'[k]? = a[k]?
  | .read off buf n =>
      a' = a ∧ res = min n (a.length - off) ∧ bytes mem' buf res = (a.drop off).take n ∧
      ∀ x, ¬ (buf ≤ x ∧ x < buf + res) → mem' x = mem x
  | .defragment _ => a' = a
  | .other _ => a' = a

/-- From here on every legal operation returns, and the buffer stays one array. -/
def Behaves : List Op → State → List Link → List UInt8 → Prop
  | [], st, links, a => Represents st links a
  | op :: ops, st, links, a => Represents st links a ∧ (Legal st links a.length op →
      ∃ st' links' a' res, Returns (fun fuel => step fuel st op) (st', res) ∧
        FlatStep st.mem st'.mem a a' res op ∧ Behaves ops st' links' a')

section

variable {st : State} {links : List Link} {a : List UInt8}

/-- A write, and what it leaves alone. -/
theorem write_keeps (h : Represents st links a) {off buf n chunk : Nat}
    (hlegal : Legal st links a.length (.write off buf n chunk)) :
    ∃ st' a', Returns (fun fuel => st.write fuel off buf n chunk) (st', off + n) ∧
      FlatStep st.mem st'.mem a a' (off + n) (.write off buf n chunk) ∧
      Keeps (links ++ added chunk a.length (off + n)) st st' ∧
      Represents st' (links ++ added chunk a.length (off + n)) a' := by
  have h' : Represents st ([] ++ links) a := h
  obtain ⟨st', junk, hjunk, hwalk, hkeeps, hrep⟩ :=
    process_write (fun j => st.mem (buf + j)) (o := 0) h' rfl (Nat.zero_le _) hlegal.1
      (fun _ _ => rfl) hlegal.2
  rw [max_eq_left (Nat.zero_le off)] at hrep
  rw [← h.linked.head_eq] at hwalk
  refine ⟨st', _, .bind hwalk (.of_forall fun fuel => rfl), ⟨?_, ?_, ?_⟩, hkeeps, hrep⟩
  · simp only [length_overwrite, List.length_append]
    omega
  · intro i hi
    have hlt : off + i < (a ++ junk).length := by
      rw [List.length_append]
      omega
    rw [getElem?_overwrite, if_pos (by omega), List.getElem?_eq_getElem hlt,
      Option.map_some, Nat.add_sub_cancel_left]
  · intro k hk hout
    rw [getElem?_overwrite, if_neg hout, List.getElem?_append_left hk]

theorem flatStep_write (h : Represents st links a) {off buf n chunk : Nat}
    (hlegal : Legal st links a.length (.write off buf n chunk)) :
    ∃ st' links' a' res,
      Returns (fun fuel => step fuel st (.write off buf n chunk)) (st', res) ∧
      FlatStep st.mem st'.mem a a' res (.write off buf n chunk) ∧
      Represents st' links' a' := by
  obtain ⟨st', a', hreturns, hflat, -, h'⟩ := write_keeps h hlegal
  exact ⟨st', _, a', off + n, hreturns, hflat, h'⟩

theorem flatStep_read (h : Represents st links a) {off buf n : Nat}
    (hlegal : Legal st links a.length (.read off buf n)) :
    ∃ st' links' a' res, Returns (fun fuel => step fuel st (.read off buf n)) (st', res) ∧
      FlatStep st.mem st'.mem a a' res (.read off buf n) ∧ Represents st' links' a' := by
  refine ⟨_, links, a, _, h.read off hlegal, ⟨rfl, by omega, bytes_gather .., ?_⟩,
    h.gather 0 _ hlegal (min_le_left ..)⟩
  intro x hx
  simp only [gather]
  rw [if_neg (by omega)]

theorem step_flat (h : Represents st links a) {op : Op}
    (hlegal : Legal st links a.length op) :
    ∃ st' links' a' res, Returns (fun fuel => step fuel st op) (st', res) ∧
      FlatStep st.mem st'.mem a a' res op ∧ Represents st' links' a' := by
  cases op with
  | addHeadChunk chunk n =>
      obtain ⟨st', hadd, -, h'⟩ := h.addHeadChunk hlegal
      refine ⟨st', _, _, 0, .of_forall fun fuel => ?_, rfl, h'⟩
      exact congrArg (fun r => r >>= fun st => Except.ok (st, 0)) hadd
  | addTailChunk chunk n =>
      obtain ⟨st', hadd, -, -, h'⟩ := h.addTailChunk hlegal
      refine ⟨st', _, _, 0, .of_forall fun fuel => ?_, rfl, h'⟩
      exact congrArg (fun r => r >>= fun st => Except.ok (st, 0)) hadd
  | addHeadRaw chunk ptr n =>
      obtain ⟨st', hadd, -, h'⟩ := h.addHeadRaw hlegal.1 hlegal.2
      refine ⟨st', _, _, 0, .of_forall fun fuel => ?_, rfl, h'⟩
      exact congrArg (fun r => r >>= fun st => Except.ok (st, 0)) hadd
  | addTailRaw chunk ptr n =>
      obtain ⟨st', hadd, -, h'⟩ := h.addTailRaw hlegal.1 hlegal.2
      refine ⟨st', _, _, 0, .of_forall fun fuel => ?_, rfl, h'⟩
      exact congrArg (fun r => r >>= fun st => Except.ok (st, 0)) hadd
  | write off buf n chunk => exact flatStep_write h hlegal
  | read off buf n => exact flatStep_read h hlegal
  | defragment chunk =>
      obtain ⟨st', links', ptr, hreturns, h'⟩ := represents_defragment h hlegal.1 hlegal.2
      exact ⟨st', links', a, ptr, hreturns, rfl, h'⟩
  | other mem => exact ⟨_, links, a, 0, .of_forall fun fuel => rfl, rfl, h.of_mem hlegal⟩

theorem Represents.behaves (ops : List Op) :
    ∀ {st : State} {links : List Link} {a : List UInt8}, Represents st links a →
      Behaves ops st links a := by
  induction ops with
  | nil => exact id
  | cons op ops ih =>
      intro st links a h
      refine ⟨h, fun hlegal => ?_⟩
      obtain ⟨st', links', a', res, hreturns, hflat, h'⟩ := step_flat h hlegal
      exact ⟨st', links', a', res, hreturns, hflat, ih h'⟩

/-- A chunked buffer behaves as one array of bytes, from `buffer_init` on. -/
theorem init_behaves (st : State) (ops : List Op) : Behaves ops st.init [] [] :=
  (represents_init st).behaves ops

end

end Frozen.Chunked
