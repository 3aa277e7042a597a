/-
# `Frozen.Vfs.Backend` — a file system that is configured, and destroyed again

A backend of `io/fuse` makes its items in the order of its configuration, and destroys
them in the same order.  A folder is made before what is in it, so it would have to be
destroyed before that too, which only an empty one can be: a backend whose items are not
all in the root is never destroyed.

    fusebDestroy_returns_iff
-/
import Frozen.Vfs.Files

namespace Frozen.Vfs

open Lib

variable {β : Type}

/-! ## The backend -/

/-- `fuseb_configure`, with what `vfs_find` gives for the mountpoint; what it makes
otherwise is mounted. -/
def fusebConfigure (userdata : Nat → β) (items : List (File β))
    (root : Option (Fs β)) : Fs β :=
  items.foldl (fun s f => fusebItemConfigure f s) (root.getD (Fs.new userdata))

/-- `root->childs == NULL`. -/
def Fs.unused (s : Fs β) : Bool :=
  match s.tree with
  | .cons _ childs _ => childs.isNil
  | .nil => true

/-- `fuseb_destroy`; a file system without items is unmounted. -/
def fusebDestroy (n : Nat) (items : List (File β)) :
    Option (Fs β) → Except VfsStop (Option (Fs β))
  | none => .ok none
  | some s => do
      let s ← items.foldlM (fun s f => fusebItemDestroy n f.path s) s
      return if s.unused then none else some s

/-! ## Items in their order -/

/-- The folder of each item is the root or comes before it. -/
def Closed (items : List (File β)) : Prop :=
  ∀ before f after, items = before ++ f :: after →
    folderPath f.path.text = ['/'] ∨ ∃ e ∈ before, e.path.text = folderPath f.path.text

theorem Closed.head {f : File β} {items : List (File β)} (h : Closed (f :: items)) :
    folderPath f.path.text = ['/'] := by
  rcases h [] f items rfl with hroot | ⟨e, he, -⟩
  · exact hroot
  · cases he

theorem Closed.tail {f : File β} {items : List (File β)} (h : Closed (f :: items))
    (hempty : ∀ e ∈ items, folderPath e.path.text ≠ f.path.text) : Closed items := by
  rintro before g after rfl
  rcases h (f :: before) g after rfl with hroot | ⟨e, he, hpath⟩
  · exact .inl hroot
  · rcases List.mem_cons.mp he with rfl | he
    · exact absurd hpath.symm (hempty g (List.mem_append_right _ List.mem_cons_self))
    · exact .inr ⟨e, he, hpath⟩

theorem run_creates {items : List (File β)} {fs fs' : FileSystem β}
    (hrun : fs.run (items.map .create) = some fs') :
    fs' = ⟨items.reverse ++ fs.live, fs.destroyed⟩ ∧ ∀ before f after,
      items = before ++ f :: after →
      folderPath f.path.text = ['/'] ∨ ∃ e ∈ before.reverse ++ fs.live,
        e.path.text = folderPath f.path.text := by
  induction items generalizing fs with
  | nil =>
      cases hrun
      exact ⟨rfl, fun before f after heq => absurd heq (by simp)⟩
  | cons f items ih =>
      rw [List.map_cons, FileSystem.run, List.foldlM_cons] at hrun
      obtain ⟨fs₁, hfirst, hrest⟩ := Option.bind_eq_some_iff.mp hrun
      obtain ⟨⟨-, -, hparent⟩, hput⟩ := Option.ite_none_right_eq_some.mp hfirst
      cases hput
      obtain ⟨hfs, hbefore⟩ := ih hrest
      refine ⟨by simp [hfs, FileSystem.put], fun before g after heq => ?_⟩
      cases before with
      | nil =>
          cases heq
          rcases hparent with hroot | ⟨e, he, -, hpath⟩
          · exact .inl hroot
          · exact .inr ⟨e, he, hpath⟩
      | cons e before =>
          cases heq
          simpa [FileSystem.put] using hbefore before g after rfl

theorem vfsRun_creates (n : Nat) (items : List (File β)) (s : Fs β) :
    vfsRun n (items.map .create) s
      = .ok (items.foldl (fun s f => fusebItemConfigure f s) s) := by
  induction items generalizing s with
  | nil => rfl
  | cons f items ih => exact ih (fusebItemConfigure f s)

/-! ## Destroying -/

section

variable {fs : FileSystem β} {items : List (File β)} {its : List VfsItem} {s : Fs β}
  {childs : Items}

theorem remove_last {f : File β} {destroyed : List β}
    (hdistinct : ((f :: items).map fun f => f.path.text).Nodup) :
    FileSystem.remove ⟨(f :: items).reverse, destroyed⟩ f
      = ⟨items.reverse, destroyed ++ [f.backend]⟩ := by
  have hother : ∀ e ∈ items.reverse, e.path.text ≠ f.path.text := fun e he heq =>
    (List.nodup_cons.mp hdistinct).1 (List.mem_map.mpr ⟨e, List.mem_reverse.mp he, heq⟩)
  have hkeep : (items.reverse.filter fun e => e.path.text ≠ f.path.text)
      = items.reverse :=
    List.filter_eq_self.mpr fun e he => by simpa using hother e he
  simp only [FileSystem.remove, List.reverse_cons, List.filter_append, hkeep]
  simp

theorem find_last {f : File β} {destroyed : List β}
    (hdistinct : ((f :: items).map fun f => f.path.text).Nodup) :
    FileSystem.find ⟨(f :: items).reverse, destroyed⟩ f.path.text = some f := by
  have hnone : items.reverse.find? (fun e => e.path.text = f.path.text) = none :=
    List.find?_eq_none.mpr fun e he => by
      rw [decide_eq_true_iff]
      intro heq
      exact (List.nodup_cons.mp hdistinct).1
        (List.mem_map.mpr ⟨e, List.mem_reverse.mp he, heq⟩)
  rw [FileSystem.find, List.reverse_cons, List.find?_append, hnone, Option.none_or]
  simp

/-- Items that are all in the root are destroyed in any order. -/
theorem destroyAll_returns {destroyed : List β}
    (h : Holds ⟨items.reverse, destroyed⟩ its s childs)
    (hroot : ∀ f ∈ items, folderPath f.path.text = ['/']) :
    ∃ its' s' childs' destroyed',
      Returns (fun n => items.foldlM (fun s f => fusebItemDestroy n f.path s) s) s' ∧
      Holds ⟨[], destroyed'⟩ its' s' childs' := by
  induction items generalizing its s childs destroyed with
  | nil => exact ⟨its, s, childs, destroyed, .of_forall fun n => rfl, h⟩
  | cons f items ih =>
      obtain ⟨hf, hrest⟩ := List.forall_mem_cons.mp hroot
      have hdistinct : ((f :: items).map fun f => f.path.text).Nodup := by
        have hpaths := h.distinct
        rwa [FileSystem.paths, List.map_reverse, List.nodup_reverse] at hpaths
      have hrem : FileSystem.Removable ⟨(f :: items).reverse, destroyed⟩ f.path.text := by
        refine ⟨.inl hf, fun e he heq => f.path.inner.2 ?_⟩
        rw [← heq, hroot e (List.mem_reverse.mp he)]
      obtain ⟨s₁, childs₁, hret₁, h₁⟩ := h.destroy (find_last hdistinct) hrem
      rw [remove_last hdistinct] at h₁
      obtain ⟨its', s', childs', destroyed', hret', h'⟩ := ih h₁ hrest
      refine ⟨its', s', childs', destroyed', ?_, h'⟩
      simp only [List.foldlM_cons]
      exact hret₁.bind hret'

/-- A folder with something in it comes before that. -/
theorem destroyAll_null {destroyed : List β}
    (h : Holds ⟨items.reverse, destroyed⟩ its s childs) (hclosed : Closed items)
    (hinside : ∃ f ∈ items, folderPath f.path.text ≠ ['/']) :
    Fails (fun n => items.foldlM (fun s f => fusebItemDestroy n f.path s) s) .null := by
  induction items generalizing its s childs destroyed with
  | nil =>
      obtain ⟨f, hf, -⟩ := hinside
      cases hf
  | cons f items ih =>
      have hdistinct : ((f :: items).map fun f => f.path.text).Nodup := by
        have hpaths := h.distinct
        rwa [FileSystem.paths, List.map_reverse, List.nodup_reverse] at hpaths
      simp only [List.foldlM_cons]
      by_cases hempty : ∀ e ∈ items, folderPath e.path.text ≠ f.path.text
      · have hrem : FileSystem.Removable ⟨(f :: items).reverse, destroyed⟩
            f.path.text := by
          refine ⟨.inl hclosed.head, fun e he heq => ?_⟩
          rcases List.mem_cons.mp (List.mem_reverse.mp he) with rfl | he
          · exact e.path.inner.2 (heq.symm.trans hclosed.head)
          · exact hempty e he heq
        obtain ⟨s₁, childs₁, hret₁, h₁⟩ := h.destroy (find_last hdistinct) hrem
        rw [remove_last hdistinct] at h₁
        obtain ⟨g, hg, hginside⟩ := hinside
        have hrest : g ∈ items :=
          (List.mem_cons.mp hg).resolve_left fun heq => hginside (heq ▸ hclosed.head)
        exact hret₁.bind_fails (ih h₁ (hclosed.tail hempty) ⟨g, hrest, hginside⟩)
      · refine Fails.bind
          (h.destroy_null (find_last hdistinct) fun hrem => hempty fun e he => ?_)
        exact hrem.2 e (List.mem_reverse.mpr (List.mem_cons_of_mem f he))

end

/-- Where the items of a backend can be made, the backend is destroyed and its file
system unmounted if all of them are in the root, and `NULL` is followed otherwise. -/
theorem fusebDestroy_returns_iff {items : List (File β)} {fs : FileSystem β}
    (userdata : Nat → β) (hrun : FileSystem.empty.run (items.map .create) = some fs) :
    (Returns (fun n =>
      fusebDestroy n items (some (fusebConfigure userdata items none))) none ↔
      ∀ f ∈ items, folderPath f.path.text = ['/']) ∧
    (Fails (fun n => fusebDestroy n items (some (fusebConfigure userdata items none)))
      .null ↔ ∃ f ∈ items, folderPath f.path.text ≠ ['/']) := by
  obtain ⟨hfs, hclosed⟩ := run_creates hrun
  have hclosed' : Closed items := fun before f after heq => by
    simpa [FileSystem.empty] using hclosed before f after heq
  obtain ⟨its, s, childs, hret, h⟩ := (holds_new userdata).run hrun
  obtain rfl : fusebConfigure userdata items none = s :=
    (Returns.of_forall fun n => vfsRun_creates n items (Fs.new userdata)).unique hret
  have hlive : fs = ⟨items.reverse, []⟩ := by simp [hfs, FileSystem.empty]
  rw [hlive] at h
  have hall : (∀ f ∈ items, folderPath f.path.text = ['/']) →
      Returns (fun n => fusebDestroy n items
        (some (fusebConfigure userdata items none))) none := by
    intro hroot
    obtain ⟨its', s', childs', destroyed', hret', h'⟩ := destroyAll_returns h hroot
    have hnil : childs' = .nil := by
      have hpost : childs'.post.length = 0 := by
        have hlen := congrArg List.length h'.files
        rw [List.length_map, List.length_map] at hlen
        rw [h'.perm.length_eq, hlen]
        rfl
      cases childs' with
      | nil => rfl
      | cons v below rest => simp [Branches.post] at hpost
    have hunused : s'.unused = true := by
      rw [Fs.unused, h'.tree, hnil]
      rfl
    exact hret'.bind (.of_forall fun n => by rw [hunused]; rfl)
  have hsome : (∃ f ∈ items, folderPath f.path.text ≠ ['/']) →
      Fails (fun n => fusebDestroy n items (some (fusebConfigure userdata items none)))
        .null :=
    fun hinside => (destroyAll_null h hclosed' hinside).bind
  refine ⟨⟨fun hret f hf => ?_, hall⟩, ⟨fun hfails => ?_, hsome⟩⟩
  · by_contra hne
    exact (hsome ⟨f, hf, hne⟩).not_returns hret
  · by_contra hnone
    push Not at hnone
    exact hfails.not_returns (hall hnone)

/-- A folder with a file beside it is destroyed, and a folder with a file in it is not. -/
theorem fusebDestroy_returns_folder :
    Returns (fun n => fusebDestroy n [folderA', fileAb']
      (some (fusebConfigure id [folderA', fileAb'] none))) none ∧
    Fails (fun n => fusebDestroy n [folderA', fileAx']
      (some (fusebConfigure id [folderA', fileAx'] none))) .null := by
  have hbeside : FileSystem.empty.run ([folderA', fileAb'].map .create)
    = some ⟨[fileAb', folderA'], []⟩ := rfl
  have hinside : FileSystem.empty.run ([folderA', fileAx'].map .create)
      = some ⟨[fileAx', folderA'], []⟩ := rfl
  constructor
  · exact (fusebDestroy_returns_iff id hbeside).1.mpr (by decide)
  · exact (fusebDestroy_returns_iff id hinside).2.mpr (by decide)

end Frozen.Vfs
