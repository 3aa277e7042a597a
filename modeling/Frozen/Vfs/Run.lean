/-
# `Frozen.Vfs.Run` — file systems made of calls of `vfs_item_create`

The search for the folder of a new item compares paths up to the length of the directory
part only: it ends at the first item that begins with it.  New items are linked in front
of the others, so a directory is hidden behind a later item beside it whose name goes on
where the directory's ends (`Hidden`), and what is created in the directory from then on
comes under that item, where no search finds it.

    vfs_sound_iff   all items are placed and found exactly if no directory was hidden
-/
import Frozen.Vfs.Tree

namespace Frozen.Vfs

open Lib

/-! ## Runs -/

/-- What `path` can be: absolute, not the root, and with its
terminating null in memory. -/
structure Path where
  text : Text
  inner : Inner text
  fits : text.length < sizeMax

/-- The arguments of a call. -/
structure Creation where
  path : Path
  type : VfsItemType

/-- The tree after the calls. -/
def runCreates (creates : List Creation) : VfsState :=
  creates.foldl (fun vfs c => (vfsItemCreate vfs c.path.text c.type).2) vfsCreate

/-- What a call returns. -/
def created (earlier : List Creation) (c : Creation) : Option VfsItem :=
  (vfsItemCreate (runCreates earlier) c.path.text c.type).1

/-- At each call, given the ones before it. -/
def AtEach (P : List Creation → Creation → Prop) (creates : List Creation) : Prop :=
  ∀ earlier c later, creates = earlier ++ c :: later → P earlier c

/-- The paths are distinct, and directories are created as folders before
what is in them. -/
structure Proper (creates : List Creation) : Prop where
  distinct : (creates.map fun c => c.path.text).Nodup
  parents : AtEach (fun earlier c => folderPath c.path.text = ['/'] ∨
    ∃ e ∈ earlier, e.type = .folder ∧ e.path.text = folderPath c.path.text) creates

/-- The call returns a new item, and it is one of the childs of the item with the
directory's path. -/
def Placed (earlier : List Creation) (c : Creation) : Prop :=
  ∃ item folder, created earlier c = some item ∧ item.path = c.path.text ∧
  item.type = c.type ∧
    folder.path = folderPath c.path.text ∧
    LinkedUnder folder item (runCreates (earlier ++ [c])).tree

/-- Every item is placed, and afterwards every search finds the item created with the
path, or `NULL`. -/
structure Sound (creates : List Creation) : Prop where
  placed : AtEach Placed creates
  found : AtEach (fun earlier c =>
    vfsItemFind (runCreates creates).tree c.path.text sizeMax = created earlier c) creates
  missing : ∀ path : Text, path ≠ [] → path ≠ ['/'] → path.length < sizeMax →
  (∀ c ∈ creates, c.path.text ≠ path) →
    vfsItemFind (runCreates creates).tree path sizeMax = none

/-- Between the directory and the new item, another item was created whose path is the
directory's and more, without a slash. -/
def Hidden (earlier : List Creation) (c : Creation) : Prop :=
  ∃ first mid s, (earlier.map fun e => e.path.text) = first ++ dirname
    c.path.text :: mid ∧ s ∈ mid ∧ Extends (dirname c.path.text) s

theorem atEach_nil (P : List Creation → Creation → Prop) : AtEach P [] :=
  fun earlier _ _ heq => absurd (congrArg List.length heq) (by simp)

theorem atEach_concat {P : List Creation → Creation → Prop} {creates : List Creation}
    {c : Creation} : AtEach P (creates ++ [c]) ↔ AtEach P creates ∧ P creates c := by
  constructor
  · intro h
    refine ⟨fun earlier d later heq => h earlier d (later ++ [c]) ?_, h creates c [] rfl⟩
    rw [heq, List.append_assoc, List.cons_append]
  · rintro ⟨h, hlast⟩ earlier d later heq
    rcases later.eq_nil_or_concat with rfl | ⟨later, e, rfl⟩
    · obtain ⟨rfl, hd⟩ := List.append_inj' heq rfl
      cases hd
      exact hlast
    · rw [List.concat_eq_append, ← List.cons_append, ← List.append_assoc] at heq
      obtain ⟨rfl, -⟩ := List.append_inj' heq rfl
      exact h earlier d later rfl

theorem AtEach.mono {P Q : List Creation → Creation → Prop} {creates : List Creation}
    (h : AtEach P creates) (hPQ : ∀ earlier c, P earlier c → Q earlier c) :
    AtEach Q creates :=
  fun earlier c later heq => hPQ earlier c (h earlier c later heq)

theorem Hidden.mem {earlier : List Creation} {c : Creation} (h : Hidden earlier c) :
    dirname c.path.text ∈ earlier.map fun e => e.path.text := by
  obtain ⟨first, mid, s, heq, -, -⟩ := h
  rw [heq]
  exact List.mem_append_right _ List.mem_cons_self

theorem runCreates_concat (creates : List Creation) (c : Creation) :
    runCreates (creates ++ [c])
      = (vfsItemCreate (runCreates creates) c.path.text c.type).2 :=
  List.foldl_append ..

theorem Proper.concat {creates : List Creation} {c : Creation}
    (h : Proper (creates ++ [c])) : Proper creates := by
  obtain ⟨hdistinct, hparents⟩ := h
  rw [List.map_append] at hdistinct
  exact ⟨hdistinct.of_append_left, (atEach_concat.mp hparents).1⟩

/-! ## The items of a run -/

/-- The item of a call, after so many calls. -/
def itemOf (size : Nat) (c : Creation) : VfsItem := ⟨size + 1, c.type, c.path.text⟩

/-- The items, the newest first. -/
def itemsOf : List Creation → List VfsItem
  | [] => []
  | c :: earlier => itemOf earlier.length c :: itemsOf earlier

theorem itemsOf_path (l : List Creation) :
    (itemsOf l).map VfsItem.path = l.map fun c => c.path.text := by
  induction l with
  | nil => rfl
  | cons c earlier ih => rw [itemsOf, List.map_cons, List.map_cons, ih, itemOf]

theorem addr_itemsOf {l : List Creation} {v : VfsItem} (h : v ∈ itemsOf l) :
    0 < v.addr ∧ v.addr ≤ l.length := by
  induction l with
  | nil => cases h
  | cons c earlier ih =>
      rcases List.mem_cons.mp h with rfl | h
      · exact ⟨Nat.succ_pos _, le_refl _⟩
      · exact ⟨(ih h).1, (ih h).2.trans (Nat.le_succ _)⟩

theorem nodup_addr_itemsOf (l : List Creation) :
    ((itemsOf l).map VfsItem.addr).Nodup := by
  induction l with
  | nil => exact List.nodup_nil
  | cons c earlier ih =>
      refine List.nodup_cons.mpr ⟨fun hmem => ?_, ih⟩
      obtain ⟨v, hv, haddr⟩ := List.mem_map.mp hmem
      have hlt : v.addr < earlier.length + 1 := Nat.lt_succ_of_le (addr_itemsOf hv).2
      exact absurd haddr hlt.ne

theorem exists_creation {l : List Creation} {v : VfsItem} (h : v ∈ itemsOf l) :
    ∃ c ∈ l, v.path = c.path.text ∧ v.type = c.type := by
  induction l with
  | nil => cases h
  | cons c earlier ih =>
      rcases List.mem_cons.mp h with rfl | h
      · exact ⟨c, List.mem_cons_self, rfl, rfl⟩
      · obtain ⟨d, hd, heq⟩ := ih h
        exact ⟨d, List.mem_cons_of_mem _ hd, heq⟩

theorem mem_itemsOf (creates : List Creation) :
    AtEach (fun earlier c => itemOf earlier.length c ∈ itemsOf creates.reverse)
      creates := by
  induction creates using List.reverseRecOn with
  | nil => exact atEach_nil _
  | append_singleton creates c ih =>
      rw [List.reverse_concat, itemsOf, atEach_concat, List.length_reverse]
      exact ⟨ih.mono fun _ _ h => List.mem_cons_of_mem _ h, List.mem_cons_self⟩

/-! ## Directories that are not hidden -/

/-- The newest path that begins with a directory is the directory itself exactly if it
is not hidden. -/
theorem find_directory_iff {paths : List Text} {d : Text} (hdistinct : paths.Nodup)
    (hd : d ∈ paths) : (paths.reverse.find? fun s => Extends d s) = some d ↔
      ¬ ∃ first mid s, paths = first ++ d :: mid ∧ s ∈ mid ∧ Extends d s := by
  obtain ⟨first, mid, rfl⟩ := List.append_of_mem hd
  have hself : Extends d d := ⟨[], List.not_mem_nil, (List.append_nil d).symm⟩
  rw [List.reverse_append, List.reverse_cons, List.append_assoc, List.find?_append,
    List.cons_append, List.find?_cons_of_pos (by simpa using hself)]
  have hnot : d ∉ mid := (List.nodup_cons.mp hdistinct.of_append_right).1
  have hfirst : d ∉ first :=
    fun hmem => (List.nodup_append.mp hdistinct).2.2 d hmem d List.mem_cons_self rfl
  cases hfind : mid.reverse.find? fun s => Extends d s with
  | none =>
      refine iff_of_true rfl ?_
      rintro ⟨first', mid', s, heq, hs, hext⟩
      obtain ⟨-, -, rfl⟩ := (List.append_cons_inj_of_notMem hfirst hnot).mp heq
      exact List.find?_eq_none.mp hfind s (List.mem_reverse.mpr hs) (by simpa using hext)
  | some s =>
      have hs := List.mem_reverse.mp (List.mem_of_find?_eq_some hfind)
      have hext : Extends d s := by simpa using List.find?_some hfind
      refine iff_of_false ?_ fun hno => hno ⟨first, mid, s, rfl, hs, hext⟩
      intro heq
      exact hnot (Option.some_inj.mp heq ▸ hs)

/-! ## The tree of a run -/

/-- Below the root are the items, each folder's in the order of their creation. -/
structure Tidy (creates : List Creation) (vfs : VfsState) (childs : Items) : Prop where
  tree : vfs.tree = .cons rootItem childs .nil
  allocated : vfs.allocated = creates.length + 1
  nested : Nested ['/'] childs
  order : ∀ p, childs.post.filter (fun v => folderPath v.path = p)
    = (itemsOf creates.reverse).filter fun v => folderPath v.path = p

theorem find?_of_filter {T : VfsItem → Prop} [DecidablePred T] {p : Text}
    (hT : ∀ v, T v → folderPath v.path = p) {xs ys : List VfsItem}
    (h : xs.filter (fun v => folderPath v.path = p) = ys.filter fun v =>
      folderPath v.path = p) :
    xs.find? (fun v => T v) = ys.find? fun v => T v := by
  have hin : ∀ zs : List VfsItem, zs.find? (fun v => T v)
      = (zs.filter fun v => folderPath v.path = p).find? fun v => T v := by
    intro zs
    rw [List.find?_filter]
    refine congrArg (fun f => List.find? f zs) (funext fun v => ?_)
    by_cases hv : T v
    · simp [hv, hT v hv]
    · simp [hv]
  rw [hin, h, ← hin]

section

variable {creates : List Creation} {vfs : VfsState} {childs : Items}
  (h : Tidy creates vfs childs)
include h

theorem Tidy.perm : childs.post.Perm (itemsOf creates.reverse) := by
  refine List.perm_iff_count.mpr fun v => ?_
  have hcount := congrArg (List.count v) (h.order (folderPath v.path))
  rwa [List.count_filter (by simp), List.count_filter (by simp)] at hcount

theorem Tidy.addr_nodup : (childs.post.map VfsItem.addr).Nodup :=
  (h.perm.map VfsItem.addr).nodup_iff.mpr (nodup_addr_itemsOf _)

theorem Tidy.path_nodup (hproper : Proper creates) :
    (childs.post.map VfsItem.path).Nodup := by
  rw [(h.perm.map VfsItem.path).nodup_iff, itemsOf_path, List.map_reverse,
    List.nodup_reverse]
  exact hproper.distinct

theorem Tidy.exists_creation {v : VfsItem} (hv : v ∈ childs.post) :
    ∃ c ∈ creates, v.path = c.path.text ∧ v.type = c.type := by
  obtain ⟨c, hc, heq⟩ := Vfs.exists_creation (h.perm.mem_iff.mp hv)
  exact ⟨c, List.mem_reverse.mp hc, heq⟩

theorem Tidy.find_directory (hproper : Proper creates) {c : Creation}
    (hd : Inner (dirname c.path.text)) : vfsItemFindParent vfs.tree c.path.text
      = (itemsOf creates.reverse).find? fun v =>
        Extends (dirname c.path.text) v.path := by
  have htop : ¬ (dirname c.path.text = [] ∨ dirname c.path.text = ['/']) := by
    rintro (hempty | hroot)
    · rw [hempty] at hd
      cases hd.1
    · exact hd.2 hroot
  rw [h.tree, find_folder h.nested (h.path_nodup hproper) c.path.inner, if_neg htop]
  exact find?_of_filter (fun v hext => hext.folder_eq hd) (h.order _)

/-- It is the directory exactly if the directory is not hidden. -/
theorem Tidy.directory_iff (hproper : Proper creates) {c : Creation}
    (hd : Inner (dirname c.path.text))
    (hmem : dirname c.path.text ∈ creates.map fun e => e.path.text) :
    (∃ folder ∈ childs.post, vfsItemFindParent vfs.tree c.path.text = some folder ∧
      folder.path = dirname c.path.text) ↔ ¬ Hidden creates c := by
  have hpath := find_directory_iff hproper.distinct hmem
  have hmap : (itemsOf creates.reverse).map VfsItem.path
      = (creates.map fun e => e.path.text).reverse := by
    rw [itemsOf_path, List.map_reverse]
  rw [← hmap, List.find?_map, Option.map_eq_some_iff] at hpath
  rw [h.find_directory hproper hd]
  refine Iff.trans ?_ hpath
  constructor
  · rintro ⟨folder, -, hfind, heq⟩
    exact ⟨folder, hfind, heq⟩
  · rintro ⟨folder, hfind, heq⟩
    exact ⟨folder, h.perm.mem_iff.mpr (List.mem_of_find?_eq_some hfind), hfind, heq⟩

end

section

variable {creates : List Creation} {c : Creation} {vfs : VfsState} {childs : Items}

theorem Tidy.create_eq (h : Tidy creates vfs childs) {folder : VfsItem}
    (hfind : vfsItemFindParent vfs.tree c.path.text = some folder) :
    vfsItemCreate vfs c.path.text c.type = (some (itemOf creates.length c),
      ⟨link folder.addr (itemOf creates.length c) (.cons rootItem childs .nil),
        creates.length + 2⟩) := by
  rw [vfsItemCreate, hfind]
  simp only [h.tree, h.allocated, itemOf]

theorem filter_itemsOf_concat (p : Text) {post : List VfsItem}
    (horder : post.filter (fun v => folderPath v.path = p)
      = (itemsOf creates.reverse).filter fun v => folderPath v.path = p) :
    (itemOf creates.length c :: post).filter (fun v => folderPath v.path = p)
      = (itemsOf (creates ++ [c]).reverse).filter fun v => folderPath v.path = p := by
  rw [List.reverse_concat, itemsOf, List.length_reverse, List.filter_cons,
    List.filter_cons, horder]

theorem Tidy.folder_type (h : Tidy creates vfs childs) (hproper : Proper creates)
    {folder : VfsItem} (hfolder : folder ∈ childs.post) {e : Creation}
    (he : e ∈ creates) (htype : e.type = .folder) (hpath : e.path.text = folder.path) :
    folder.type = .folder := by
  obtain ⟨d, hd, hdpath, hdtype⟩ := h.exists_creation hfolder
  have hsame :=
    List.inj_on_of_nodup_map hproper.distinct hd he (hdpath.symm.trans hpath.symm)
  rw [hdtype, hsame, htype]

/-- A new item whose directory is not hidden. -/
theorem Tidy.create (h : Tidy creates vfs childs) (hproper : Proper (creates ++ [c]))
    (hshown : ¬ Hidden creates c) :
    ∃ childs', Tidy (creates ++ [c]) (vfsItemCreate vfs c.path.text c.type).2 childs' ∧
      (vfsItemCreate vfs c.path.text c.type).1 = some (itemOf creates.length c) ∧
      ∃ folder, folder.path = folderPath c.path.text ∧
        LinkedUnder folder (itemOf creates.length c)
          (vfsItemCreate vfs c.path.text c.type).2.tree := by
  have hbefore := hproper.concat
  have hlen : (creates ++ [c]).length + 1 = creates.length + 2 := by
    rw [List.length_append, List.length_singleton]
  rcases c.path.inner.folder_cases with ⟨hroot, htop⟩ | ⟨hdir, hinner⟩
  · have hfind : vfsItemFindParent vfs.tree c.path.text = some rootItem := by
      rw [h.tree, find_folder h.nested (h.path_nodup hbefore) c.path.inner, if_pos htop]
    rw [h.create_eq hfind]
    refine ⟨.cons (itemOf creates.length c) .nil childs, ⟨rfl, hlen.symm, ?_, ?_⟩, rfl,
      rootItem, hroot.symm, .inl ⟨rfl, List.mem_cons_self⟩⟩
    · exact ⟨c.path.inner, hroot, fun _ => rfl, trivial, h.nested⟩
    · exact fun p => filter_itemsOf_concat p (h.order p)
  · obtain ⟨e, he, htype, hpath⟩ := ((atEach_concat.mp hproper.parents).2).resolve_left
      fun hroot => by
      rw [hdir] at hroot
      exact hinner.2 hroot
    rw [hdir] at hpath
    have hmem : dirname c.path.text ∈ creates.map fun e => e.path.text :=
      hpath ▸ List.mem_map_of_mem he
    obtain ⟨folder, hfolder, hfind, heq⟩ :=
      (h.directory_iff hbefore hinner hmem).mpr hshown
    have hnpath : folderPath (itemOf creates.length c).path = folder.path :=
      hdir.trans heq.symm
    have hftype := h.folder_type hbefore hfolder he htype (hpath.trans heq.symm)
    have hbelow : ¬ rootItem.addr = folder.addr :=
      (addr_itemsOf (h.perm.mem_iff.mp hfolder)).1.ne
    have htree : link folder.addr (itemOf creates.length c) (.cons rootItem childs .nil)
        = .cons rootItem (link folder.addr (itemOf creates.length c) childs) .nil := by
      rw [link, if_neg hbelow]
      rfl
    rw [h.create_eq hfind, htree]
    refine ⟨_, ⟨rfl, hlen.symm, ?_, fun p => ?_⟩, rfl, folder, hnpath.symm,
      .inr (.inl (linkedUnder_link hfolder h.addr_nodup))⟩
    · refine h.nested.link c.path.inner fun v hv hvaddr => ?_
      rw [List.inj_on_of_nodup_map h.addr_nodup hv hfolder hvaddr]
      exact ⟨hftype, hnpath⟩
    · rw [filter_link h.nested hfolder h.addr_nodup (h.path_nodup hbefore) hnpath]
      exact filter_itemsOf_concat p (h.order p)

end

theorem tidy_nil : Tidy [] (runCreates []) .nil := ⟨rfl, rfl, trivial, fun _ => rfl⟩

/-- Where no directory is hidden, the tree stays in order, and every item is placed. -/
theorem exists_tidy {creates : List Creation} (hproper : Proper creates)
    (hshown : AtEach (fun earlier c => ¬ Hidden earlier c) creates) :
    (∃ childs, Tidy creates (runCreates creates) childs) ∧ AtEach (fun earlier c =>
      created earlier c = some (itemOf earlier.length c) ∧ Placed earlier c) creates := by
  induction creates using List.reverseRecOn with
  | nil => exact ⟨⟨_, tidy_nil⟩, atEach_nil _⟩
  | append_singleton creates c ih =>
      obtain ⟨hbefore, hlast⟩ := atEach_concat.mp hshown
      obtain ⟨⟨childs, htidy⟩, heach⟩ := ih hproper.concat hbefore
      obtain ⟨childs', htidy', hitem, folder, hpath, hlinked⟩ :=
        htidy.create hproper hlast
      rw [← runCreates_concat] at htidy' hlinked
      exact ⟨⟨childs', htidy'⟩,
        atEach_concat.mpr ⟨heach, hitem, _, folder, hitem, rfl, rfl, hpath, hlinked⟩⟩

/-- In a tree in order, each search finds the item that has the path. -/
theorem Tidy.find_iff {creates : List Creation} {vfs : VfsState} {childs : Items}
    (h : Tidy creates vfs childs) (hproper : Proper creates) {path : Text}
    (hempty : path ≠ []) (hroot : path ≠ ['/']) (hfits : path.length < sizeMax)
    (item : VfsItem) :
    vfsItemFind vfs.tree path sizeMax = some item ↔ item ∈ itemsOf creates.reverse ∧
      item.path = path := by
  have hdistinct := h.path_nodup hproper
  rw [h.tree, find_full h.nested hdistinct hempty hroot hfits, ← h.perm.mem_iff]
  constructor
  · intro hfind
    exact ⟨List.mem_of_find?_eq_some hfind, by simpa using List.find?_some hfind⟩
  · rintro ⟨hitem, hpath⟩
    have hsome : (childs.post.find? fun v => v.path = path).isSome = true :=
      List.find?_isSome.mpr ⟨item, hitem, by simpa using hpath⟩
    obtain ⟨found, hfound⟩ := Option.isSome_iff_exists.mp hsome
    have hfpath : found.path = path := by simpa using List.find?_some hfound
    rw [hfound, List.inj_on_of_nodup_map hdistinct (List.mem_of_find?_eq_some hfound)
      hitem (hfpath.trans hpath.symm)]

/-- A new item that is placed was created in a directory that is not hidden. -/
theorem Tidy.not_hidden {creates : List Creation} {c : Creation} {childs : Items}
    (h : Tidy creates (runCreates creates) childs) (hproper : Proper creates)
    (hplaced : Placed creates c) : ¬ Hidden creates c := by
  intro hhidden
  have hmem := hhidden.mem
  have hinner : Inner (dirname c.path.text) := by
    obtain ⟨e, -, heq⟩ := List.mem_map.mp hmem
    rw [← heq]
    exact e.path.inner
  have hdir : folderPath c.path.text = dirname c.path.text :=
    if_neg fun hempty => absurd hinner.1 (by rw [hempty]; exact nofun)
  obtain ⟨item, folder, hcreated, -, -, hpath, hlinked⟩ := hplaced
  rw [runCreates_concat] at hlinked
  cases hfind : vfsItemFindParent (runCreates creates).tree c.path.text with
  | none =>
      rw [created, vfsItemCreate, hfind] at hcreated
      cases hcreated
  | some other =>
      have hother : other ∈ childs.post := by
        rw [h.find_directory hproper hinner] at hfind
        exact h.perm.mem_iff.mpr (List.mem_of_find?_eq_some hfind)
      rw [created, h.create_eq hfind, Option.some_inj] at hcreated
      rw [h.create_eq hfind, ← hcreated] at hlinked
      have hnew : itemOf creates.length c
          ∉ (Branches.cons rootItem childs .nil).post := by
        simp only [Branches.post, List.mem_append, List.mem_cons, List.not_mem_nil,
          or_false, not_or]
        refine ⟨fun hold => ?_,
          fun hroot => absurd (congrArg VfsItem.addr hroot) (Nat.succ_ne_zero _)⟩
        have hle := (addr_itemsOf (h.perm.mem_iff.mp hold)).2
        rw [List.length_reverse] at hle
        exact absurd hle (Nat.not_succ_le_self _)
      obtain ⟨hfolder, haddr⟩ := hlinked.addr_eq hnew
      have hbelow : folder ∈ childs.post := by
        simp only [Branches.post, List.mem_append, List.mem_cons, List.not_mem_nil,
          or_false] at hfolder
        refine hfolder.resolve_right fun hroot => ?_
        rw [hroot] at haddr
        exact absurd haddr (addr_itemsOf (h.perm.mem_iff.mp hother)).1.ne
      rw [List.inj_on_of_nodup_map h.addr_nodup hbelow hother haddr, hdir] at hpath
      exact (h.directory_iff hproper hinner hmem).mp ⟨other, hother, hfind, hpath⟩ hhidden

theorem not_hidden_of_placed {creates : List Creation} (hproper : Proper creates)
    (hplaced : AtEach Placed creates) :
    AtEach (fun earlier c => ¬ Hidden earlier c) creates := by
  induction creates using List.reverseRecOn with
  | nil => exact atEach_nil _
  | append_singleton creates c ih =>
      obtain ⟨hbefore, hlast⟩ := atEach_concat.mp hplaced
      have hshown := ih hproper.concat hbefore
      obtain ⟨⟨childs, htidy⟩, -⟩ := exists_tidy hproper.concat hshown
      exact atEach_concat.mpr ⟨hshown, htidy.not_hidden hproper.concat hlast⟩

/-- After calls with distinct paths, each in a directory that was created before, all
items are where they belong and are found exactly if no directory was hidden. -/
theorem vfs_sound_iff (creates : List Creation) (hproper : Proper creates) :
    Sound creates ↔ AtEach (fun earlier c => ¬ Hidden earlier c) creates := by
  constructor
  · exact fun hsound => not_hidden_of_placed hproper hsound.placed
  · intro hshown
    obtain ⟨⟨childs, htidy⟩, heach⟩ := exists_tidy hproper hshown
    refine ⟨heach.mono fun _ _ h => h.2, ?_, ?_⟩
    · intro earlier c later heq
      have hempty : c.path.text ≠ [] :=
        fun hempty => absurd c.path.inner.1 (by rw [hempty]; exact nofun)
      rw [(heach earlier c later heq).1,
        htidy.find_iff hproper hempty c.path.inner.2 c.path.fits]
      exact ⟨mem_itemsOf creates earlier c later heq, rfl⟩
    · intro path hempty hroot hfits hno
      refine Option.eq_none_iff_forall_ne_some.mpr fun item hitem => ?_
      obtain ⟨hmem, hpath⟩ := (htidy.find_iff hproper hempty hroot hfits item).mp hitem
      obtain ⟨c, hc, hcpath, -⟩ := htidy.exists_creation (htidy.perm.mem_iff.mpr hmem)
      exact hno c hc (hcpath.symm.trans hpath)

/-! ### A directory and a file that begins like it -/

def folderA : Creation := ⟨⟨['/', 'a'], by decide, by decide⟩, .folder⟩
def fileAb : Creation := ⟨⟨['/', 'a', 'b'], by decide, by decide⟩, .file⟩
def fileAx : Creation := ⟨⟨['/', 'a', '/', 'x'], by decide, by decide⟩, .file⟩

theorem atEach_three (P : List Creation → Creation → Prop) (a b c : Creation) :
    AtEach P [a, b, c] ↔ (P [] a ∧ P [a] b) ∧ P [a, b] c := by
  have hsplit : [a, b, c] = [] ++ [a] ++ [b] ++ [c] := rfl
  rw [hsplit, atEach_concat, atEach_concat, atEach_concat, and_iff_right (atEach_nil P)]
  exact Iff.rfl

/-- The file first: nothing is hidden. -/
theorem vfs_sound_iff_before : Sound [fileAb, folderA, fileAx] := by
  have hproper : Proper [fileAb, folderA, fileAx] := by
    refine ⟨by decide, (atEach_three _ _ _ _).mpr
      ⟨⟨.inl (by decide), .inl (by decide)⟩, .inr ⟨folderA, ?_⟩⟩⟩
    exact ⟨List.mem_cons_of_mem _ List.mem_cons_self, rfl, by decide⟩
  refine (vfs_sound_iff [fileAb, folderA, fileAx] hproper).mpr
    ((atEach_three _ _ _ _).mpr ⟨⟨?_, ?_⟩, ?_⟩)
  · exact fun h => absurd h.mem (by decide)
  · exact fun h => absurd h.mem (by decide)
  · exact (find_directory_iff (by decide) (by decide)).mp (by decide)

/-- The directory first: the file after it is taken for the directory, and what is
created there is not found. -/
theorem create_hidden :
    Proper [folderA, fileAb, fileAx] ∧
      vfsItemFindParent (runCreates [folderA, fileAb]).tree fileAx.path.text
        = some ⟨2, .file, ['/', 'a', 'b']⟩ ∧
      vfsItemFind (runCreates [folderA, fileAb, fileAx]).tree fileAx.path.text sizeMax
        = none ∧
      ¬ Sound [folderA, fileAb, fileAx] := by
  refine ⟨⟨by decide, (atEach_three _ _ _ _).mpr
    ⟨⟨.inl (by decide), .inl (by decide)⟩, .inr ⟨folderA, ?_⟩⟩⟩,
    by decide, by decide, fun h => ?_⟩
  · exact ⟨List.mem_cons_self, rfl, by decide⟩
  · have hfound := ((atEach_three _ _ _ _).mp h.found).2
    exact absurd hfound (by decide)

end Frozen.Vfs
