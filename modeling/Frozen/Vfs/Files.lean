/-
# `Frozen.Vfs.Files` — the file system that the tree of items stands for

What the items are for is a list of files, the newest first: a directory shows the files
that have its path as their folder.  The tree keeps to this list through creations and
destructions, in any order, as long as no directory is hidden behind a later item beside
it; destroying a file follows `NULL` exactly where the list says so, which is where the
file is a directory with files, or is in a directory that is hidden.

    Holds.create, Holds.destroy   what each step keeps
    vfs_refines                   whole runs, and what they end with
-/
import Frozen.Vfs.Destroy
import Frozen.Vfs.Run

namespace Frozen.Vfs

open Lib

variable {β : Type}

/-! ## Requests -/

/-- What is made for an item of the configuration. -/
structure File (β : Type) where
  path : Path
  type : VfsItemType
  backend : β

/-- `vfs_create`. -/
def Fs.new (userdata : Nat → β) : Fs β := ⟨vfsCreate, userdata, []⟩

/-- `fuseb_item_configure`, for what it has found. -/
def fusebItemConfigure (f : File β) (s : Fs β) : Fs β :=
  match vfsItemCreate s.toVfsState f.path.text f.type with
  | (none, _) => s
  | (some item, vfs) =>
      { s with
        toVfsState := vfs
        userdata := Function.update s.userdata item.addr f.backend }

/-- `fuseb_item_destroy`, for the path that it has found. -/
def fusebItemDestroy (n : Nat) (p : Path) (s : Fs β) : Except VfsStop (Fs β) :=
  match vfsItemFind s.tree p.text sizeMax with
  | none => .ok s
  | some item => vfsItemDestroy n item s

/-- `folder->childs`. -/
def childsOf (addr : Nat) : Items → Option Items
  | .nil => none
  | .cons v childs next => if v.addr = addr then some childs
      else (childsOf addr childs).or (childsOf addr next)

/-- The name behind the last slash. -/
def nameOf (path : Text) : Text :=
  match strrchr path '/' with
  | some i => path.drop (i + 1)
  | none => []

/-- `fuseh_readdir`: what is given to `filler`, or `-ENOENT`. -/
def fusehReaddir (s : Fs β) (path : Text) : Option (List Text) :=
  (vfsItemFind s.tree path sizeMax).map fun folder =>
    ['.'] :: ['.', '.'] :: ((childsOf folder.addr s.tree).getD .nil).roots.map
    fun child => nameOf child.path

/-- The size is what the backend of a file counts. -/
def statSize (count : β → Nat) (backend : β) : VfsItemType → Nat
  | .file => count backend
  | .folder => 0

/-- `fuseh_getattr`, or `-ENOENT`. -/
def fusehGetattr (count : β → Nat) (s : Fs β) (path : Text) :
    Option (VfsItemType × Nat) :=
  (vfsItemFind s.tree path sizeMax).map fun item =>
    (item.type, statSize count (s.userdata item.addr) item.type)

inductive VfsEvent (β : Type) where
  | create (f : File β)
  | destroy (p : Path)

def vfsStep (n : Nat) (s : Fs β) : VfsEvent β → Except VfsStop (Fs β)
  | .create f => .ok (fusebItemConfigure f s)
  | .destroy p => fusebItemDestroy n p s

def vfsRun (n : Nat) (events : List (VfsEvent β)) (s : Fs β) : Except VfsStop (Fs β) :=
  events.foldlM (vfsStep n) s

/-! ## Files -/

/-- The files that there are, the newest first, and the backends of
those that are gone. -/
structure FileSystem (β : Type) where
  live : List (File β)
  destroyed : List β

namespace FileSystem

def empty : FileSystem β := ⟨[], []⟩

def paths (fs : FileSystem β) : List Text := fs.live.map fun f => f.path.text

def find (fs : FileSystem β) (path : Text) : Option (File β) :=
  fs.live.find? fun f => f.path.text = path

/-- The names in a directory. -/
def entries (fs : FileSystem β) (path : Text) : List Text :=
  (fs.live.filter fun f => folderPath f.path.text = path).map fun f => nameOf f.path.text

/-- Among the files whose path begins like the directory of `path`, and goes on without
a slash, the newest is that directory. -/
def Shown (fs : FileSystem β) (path : Text) : Prop :=
  folderPath path = ['/'] ∨ (fs.paths.find? fun p => Extends (dirname path) p)
    = some (dirname path)

instance (fs : FileSystem β) (path : Text) : Decidable (fs.Shown path) :=
  inferInstanceAs (Decidable (_ ∨ _))

/-- A new file, in a folder that is there and not hidden. -/
def Permitted (fs : FileSystem β) (f : File β) : Prop :=
  f.path.text ∉ fs.paths ∧ fs.Shown f.path.text ∧
    (folderPath f.path.text = ['/'] ∨ ∃ e ∈ fs.live, e.type = .folder ∧
      e.path.text = folderPath f.path.text)

instance (fs : FileSystem β) (f : File β) : Decidable (fs.Permitted f) :=
  inferInstanceAs (Decidable (_ ∧ _))

/-- A file with nothing in it, in a folder that is not hidden. -/
def Removable (fs : FileSystem β) (path : Text) : Prop :=
  fs.Shown path ∧ ∀ e ∈ fs.live, folderPath e.path.text ≠ path

instance (fs : FileSystem β) (path : Text) : Decidable (fs.Removable path) :=
  inferInstanceAs (Decidable (_ ∧ _))

def put (fs : FileSystem β) (f : File β) : FileSystem β := ⟨f :: fs.live, fs.destroyed⟩

def remove (fs : FileSystem β) (f : File β) : FileSystem β :=
  ⟨fs.live.filter fun e => e.path.text ≠ f.path.text, fs.destroyed ++ [f.backend]⟩

def step (fs : FileSystem β) : VfsEvent β → Option (FileSystem β)
  | .create f => if fs.Permitted f then some (fs.put f) else none
  | .destroy p =>
      match fs.find p.text with
      | none => some fs
      | some f => if fs.Removable p.text then some (fs.remove f) else none

def run (events : List (VfsEvent β)) (fs : FileSystem β) : Option (FileSystem β) :=
  events.foldlM step fs

def readdir (fs : FileSystem β) (path : Text) : Option (List Text) :=
  if path = [] ∨ path = ['/'] then some (['.'] :: ['.', '.'] :: fs.entries ['/'])
  else (fs.find path).map fun _ => ['.'] :: ['.', '.'] :: fs.entries path

def getattr (count : β → Nat) (fs : FileSystem β) (path : Text) :
    Option (VfsItemType × Nat) :=
  if path = [] ∨ path = ['/'] then some (.folder, 0)
  else (fs.find path).map fun f => (f.type, statSize count f.backend f.type)

end FileSystem

/-! ## The tree stands for the files -/

/-- What an item stands for. -/
def Fs.stands (s : Fs β) (v : VfsItem) : Text × VfsItemType × β :=
  (v.path, v.type, s.userdata v.addr)

def File.data (f : File β) : Text × VfsItemType × β := (f.path.text, f.type, f.backend)

/-- `items` are the items of the tree as the files are listed. -/
structure Holds (fs : FileSystem β) (items : List VfsItem) (s : Fs β)
    (childs : Items) : Prop where
  tree : s.tree = .cons rootItem childs .nil
  nested : Nested ['/'] childs
  order : ∀ p, childs.post.filter (fun v => folderPath v.path = p)
    = items.filter fun v => folderPath v.path = p
  addr_nodup : (items.map VfsItem.addr).Nodup
  addr_pos : ∀ v ∈ items, 0 < v.addr
  addr_lt : ∀ v ∈ items, v.addr < s.allocated
  allocated : 0 < s.allocated
  files : items.map s.stands = fs.live.map File.data
  distinct : fs.paths.Nodup
  destroyed : s.destroyed = fs.destroyed

section

variable {fs fs' : FileSystem β} {items : List VfsItem} {s : Fs β} {childs : Items}
  (h : Holds fs items s childs)
include h

theorem Holds.paths : items.map VfsItem.path = fs.paths := by
  have hmap := congrArg (List.map Prod.fst) h.files
  simpa [List.map_map, Function.comp_def, Fs.stands, File.data, FileSystem.paths]
    using hmap

theorem Holds.perm : childs.post.Perm items := by
  refine List.perm_iff_count.mpr fun v => ?_
  have hcount := congrArg (List.count v) (h.order (folderPath v.path))
  rwa [List.count_filter (by simp), List.count_filter (by simp)] at hcount

theorem Holds.below : Below childs where
  nested := h.nested
  path_nodup := (h.perm.map VfsItem.path).nodup_iff.mpr (h.paths ▸ h.distinct)
  addr_nodup := by
    rw [List.map_cons, List.nodup_cons]
    refine ⟨fun hroot => ?_, (h.perm.map VfsItem.addr).nodup_iff.mpr h.addr_nodup⟩
    obtain ⟨v, hv, haddr⟩ := List.mem_map.mp hroot
    exact absurd haddr (h.addr_pos v (h.perm.mem_iff.mp hv)).ne'

/-- The first item with a property is that of the first file with it. -/
theorem Holds.find_files (P : Text → Prop) [DecidablePred P] :
    (items.find? fun v => P v.path).map s.stands
      = (fs.live.find? fun f => P f.path.text).map File.data := by
  have hmap := congrArg (List.find? fun d => decide (P d.1)) h.files
  rwa [List.find?_map, List.find?_map] at hmap

theorem Holds.find_paths (P : Text → Prop) [DecidablePred P] :
    (items.find? fun v => P v.path).map VfsItem.path = fs.paths.find? fun p => P p := by
  rw [← h.paths, List.find?_map]
  rfl

theorem Holds.find_item {path : Text} (hempty : path ≠ []) (hroot : path ≠ ['/'])
    (hfits : path.length < sizeMax) :
    vfsItemFind s.tree path sizeMax = items.find? fun v => v.path = path := by
  rw [h.tree, find_full h.nested h.below.path_nodup hempty hroot hfits]
  exact find?_of_filter (p := folderPath path) (fun v hv => congrArg folderPath hv)
    (h.order _)

/-- The search for a folder gives the right one exactly if it is shown. -/
theorem Holds.shown_iff {path : Text} (hpath : Inner path) :
    (∃ folder, vfsItemFindParent s.tree path = some folder ∧
      folder.path = folderPath path) ↔ fs.Shown path := by
  rw [h.tree, find_folder h.nested h.below.path_nodup hpath, FileSystem.Shown]
  rcases hpath.folder_cases with ⟨hroot, htop⟩ | ⟨hdir, hinner⟩
  · rw [if_pos htop]
    exact iff_of_true ⟨rootItem, rfl, hroot.symm⟩ (.inl hroot)
  · have htop : ¬ (dirname path = [] ∨ dirname path = ['/']) := by
      rintro (hempty | hroot)
      · rw [hempty] at hinner
        cases hinner.1
      · exact hinner.2 hroot
    have hne : folderPath path ≠ ['/'] := fun hroot => htop (.inr (hdir ▸ hroot))
    have hfind := find?_of_filter (T := fun v => Extends (dirname path) v.path)
      (fun v hext => hext.folder_eq hinner) (h.order (folderPath (dirname path)))
    rw [if_neg htop, hfind, or_iff_right hne, ← h.find_paths,
      Option.map_eq_some_iff, hdir]

end

/-! ## Creations -/

section

variable {fs : FileSystem β} {items : List VfsItem} {s : Fs β} {childs : Items}
  {f : File β}

theorem fusebItemConfigure_eq {folder : VfsItem}
    (hfind : vfsItemFindParent s.tree f.path.text = some folder) :
    fusebItemConfigure f s
      = ⟨⟨link folder.addr ⟨s.allocated, f.type, f.path.text⟩ s.tree, s.allocated + 1⟩,
      Function.update s.userdata s.allocated f.backend, s.destroyed⟩ := by
  simp only [fusebItemConfigure, vfsItemCreate, hfind]

theorem Holds.folder_type (h : Holds fs items s childs) {e : File β} (he : e ∈ fs.live)
    (htype : e.type = .folder) {folder : VfsItem} (hfolder : folder ∈ items)
    (hpath : e.path.text = folder.path) : folder.type = .folder := by
  obtain ⟨d, hd, hdata⟩ :=
    List.mem_map.mp (h.files ▸ List.mem_map_of_mem hfolder : s.stands folder ∈ _)
  obtain ⟨hdpath, hdtype, -⟩ : d.path.text = folder.path ∧ d.type = folder.type ∧ _ := by
    simpa only [File.data, Fs.stands, Prod.mk.injEq] using hdata
  have hsame : d = e :=
    List.inj_on_of_nodup_map h.distinct hd he (hdpath.trans hpath.symm)
  rw [← hdtype, hsame, htype]

/-- **A new file** is the first of its folder. -/
theorem Holds.create (h : Holds fs items s childs) (hf : fs.Permitted f) :
    ∃ childs', Holds (fs.put f) (⟨s.allocated, f.type, f.path.text⟩ :: items)
      (fusebItemConfigure f s) childs' := by
  obtain ⟨hfresh, hshown, hparent⟩ := hf
  obtain ⟨folder, hfind, hpath⟩ := (h.shown_iff f.path.inner).mpr hshown
  have hnew : s.allocated ∉ items.map VfsItem.addr := fun hmem => by
    obtain ⟨v, hv, haddr⟩ := List.mem_map.mp hmem
    exact absurd haddr (h.addr_lt v hv).ne
  have hmem : folder ∈ rootItem :: childs.post := by
    rw [h.tree] at hfind
    exact h.below.find_mem f.path.inner hfind
  -- all but the tree
  have hrest : ∀ childs' : Items, link folder.addr ⟨s.allocated, f.type, f.path.text⟩
      s.tree = .cons rootItem childs' .nil → Nested ['/'] childs' →
      (∀ p, childs'.post.filter (fun v => folderPath v.path = p)
        = (⟨s.allocated, f.type, f.path.text⟩ :: childs.post).filter fun v =>
          folderPath v.path = p) →
      Holds (fs.put f) (⟨s.allocated, f.type, f.path.text⟩ :: items)
        (fusebItemConfigure f s) childs' := by
    intro childs' htree hnested horder
    rw [fusebItemConfigure_eq hfind]
    refine
      { tree := htree
        nested := hnested
        order := fun p => ?_
        addr_nodup := List.nodup_cons.mpr ⟨hnew, h.addr_nodup⟩
        addr_pos := List.forall_mem_cons.mpr ⟨h.allocated, h.addr_pos⟩
        addr_lt := List.forall_mem_cons.mpr
          ⟨Nat.lt_succ_self _, fun v hv => (h.addr_lt v hv).trans (Nat.lt_succ_self _)⟩
        allocated := Nat.succ_pos _
        files := ?_
        distinct := List.nodup_cons.mpr ⟨hfresh, h.distinct⟩
        destroyed := h.destroyed }
    · rw [horder, List.filter_cons, List.filter_cons, h.order]
    · rw [FileSystem.put, List.map_cons, List.map_cons, ← h.files]
      refine List.cons_eq_cons.mpr ⟨?_, List.map_congr_left fun v hv => ?_⟩
      · simp only [Fs.stands, File.data, Function.update_self]
      · simp only [Fs.stands, Function.update_of_ne (h.addr_lt v hv).ne]
  rcases List.mem_cons.mp hmem with rfl | hmem
  · refine ⟨.cons ⟨s.allocated, f.type, f.path.text⟩ .nil childs,
      hrest _ ?_ ?_ fun p => rfl⟩
    · rw [h.tree]
      rfl
    · exact ⟨f.path.inner, hpath.symm, fun _ => rfl, trivial, h.nested⟩
  · obtain ⟨e, he, htype, hepath⟩ := hparent.resolve_left fun hroot =>
      (h.nested.inner hmem).2 (hpath.trans hroot)
    have hftype :=
      h.folder_type he htype (h.perm.mem_iff.mp hmem) (hepath.trans hpath.symm)
    have haddr := (List.nodup_cons.mp h.below.addr_nodup).2
    have hroot : rootItem.addr ≠ folder.addr := fun heq =>
      (List.nodup_cons.mp h.below.addr_nodup).1 (heq ▸ List.mem_map_of_mem hmem)
    refine ⟨link folder.addr ⟨s.allocated, f.type, f.path.text⟩ childs,
      hrest _ ?_ ?_ fun p => ?_⟩
    · rw [h.tree, link, if_neg hroot]
      rfl
    · refine h.nested.link f.path.inner fun v hv hvaddr => ?_
      rw [List.inj_on_of_nodup_map haddr hv hmem hvaddr]
      exact ⟨hftype, hpath.symm⟩
    · exact filter_link h.nested hmem haddr h.below.path_nodup hpath.symm p

end

/-! ## Destructions -/

section

variable {fs : FileSystem β} {items : List VfsItem} {s : Fs β} {childs : Items}
  {f : File β}

theorem Path.ne_nil (p : Path) : p.text ≠ [] := by
  intro hempty
  have hhead := p.inner.1
  rw [hempty] at hhead
  cases hhead

theorem Holds.find_file (h : Holds fs items s childs) {p : Path}
    (hfind : fs.find p.text = some f) :
    ∃ item ∈ items, vfsItemFind s.tree p.text sizeMax = some item ∧
      item.path = p.text ∧ f.path.text = p.text ∧ s.stands item = f.data := by
  have hpath : f.path.text = p.text := by simpa using List.find?_some hfind
  have hsome := h.find_files fun path => path = p.text
  rw [show fs.live.find? (fun f => decide (f.path.text = p.text)) = some f from hfind]
    at hsome
  obtain ⟨item, hitem, hdata⟩ := Option.map_eq_some_iff.mp hsome
  refine ⟨item, List.mem_of_find?_eq_some hitem,
    ?_, by simpa using List.find?_some hitem, hpath, hdata⟩
  rw [h.find_item p.ne_nil p.inner.2 p.fits]
  exact hitem

theorem filter_of_taken {item : VfsItem} {childs' : Items}
    (hnodup : (childs.post.map VfsItem.path).Nodup)
    (ht : Taken ['/'] childs .nil childs' item) :
    childs'.post = childs.post.filter fun v => v.path ≠ item.path := by
  obtain ⟨before, after, hpost, hpost'⟩ := ht.post
  have hkeep : ∀ l : List VfsItem, (∀ v ∈ l, v.path ≠ item.path) →
      (l.filter fun v => v.path ≠ item.path) = l := by
    intro l hl
    exact List.filter_eq_self.mpr fun v hv => by simpa using hl v hv
  have hgone : ∀ v ∈ childs'.post, v.path ≠ item.path := fun v hv =>
    (ht.not_mem VfsItem.path hnodup (.inr rfl) hv).symm
  rw [hpost', List.forall_mem_append] at hgone
  rw [hpost, hpost', Branches.post, List.nil_append, List.filter_append,
    hkeep before hgone.1, List.filter_cons_of_neg (by simp), hkeep after hgone.2]

/-- **A file that can be removed** is removed. -/
theorem Holds.destroy (h : Holds fs items s childs) {p : Path}
    (hfind : fs.find p.text = some f) (hrem : fs.Removable p.text) :
    ∃ s' childs', Returns (fun n => fusebItemDestroy n p s) s' ∧
      Holds (fs.remove f) (items.filter fun v => v.path ≠ f.path.text) s' childs' := by
  obtain ⟨item, hitem, hfound, hpath, hfpath, hdata⟩ := h.find_file hfind
  obtain ⟨folder, hparent, hfolder⟩ := (h.shown_iff p.inner).mpr hrem.1
  have hleaf : ∀ v ∈ childs.post, folderPath v.path ≠ item.path := by
    intro v hv
    obtain ⟨e, he, hdata'⟩ := List.mem_map.mp
      (h.files ▸ List.mem_map_of_mem (h.perm.mem_iff.mp hv) : s.stands v ∈ _)
    have hepath : e.path.text = v.path := congrArg Prod.fst hdata'
    rw [← hepath, hpath]
    exact hrem.2 e he
  rw [← hpath] at hparent hfolder
  obtain ⟨childs', hret, htaken⟩ :=
    vfsItemDestroy_leaf h.below h.tree (h.perm.mem_iff.mpr hitem) hparent hfolder hleaf
  refine ⟨_, childs', by simpa only [fusebItemDestroy, hfound] using hret, ?_⟩
  have hfilter := filter_of_taken h.below.path_nodup htaken
  have hsub : ∀ v ∈ items.filter (fun v => v.path ≠ f.path.text), v ∈ items :=
    fun v hv => List.mem_of_mem_filter hv
  refine
    { tree := rfl
      nested := htaken.rest
      order := fun q => ?_
      addr_nodup := h.addr_nodup.sublist (List.filter_sublist.map _)
      addr_pos := fun v hv => h.addr_pos v (hsub v hv)
      addr_lt := fun v hv => h.addr_lt v (hsub v hv)
      allocated := h.allocated
      files := ?_
      distinct := h.distinct.sublist (List.filter_sublist.map _)
      destroyed := ?_ }
  · rw [hfilter, List.filter_comm, h.order, List.filter_comm, hpath, hfpath]
  · have hmap := congrArg (List.filter fun d => decide (d.1 ≠ f.path.text)) h.files
    rw [List.filter_map, List.filter_map] at hmap
    exact hmap
  · have hbackend : s.userdata item.addr = f.backend := congrArg (fun d => d.2.2) hdata
    simp only [FileSystem.remove, h.destroyed, hbackend]

/-- **Any other file** makes the program follow `NULL`. -/
theorem Holds.destroy_null (h : Holds fs items s childs) {p : Path}
    (hfind : fs.find p.text = some f) (hrem : ¬ fs.Removable p.text) :
    Fails (fun n => fusebItemDestroy n p s) .null := by
  obtain ⟨item, hitem, hfound, hpath, hfpath, -⟩ := h.find_file hfind
  have hbad : (∃ v ∈ childs.post, folderPath v.path = item.path) ∨
      ∀ folder, vfsItemFindParent s.tree item.path = some folder →
      folder.path ≠ folderPath item.path := by
    rw [hpath]
    by_cases hshown : fs.Shown p.text
    · left
      have hchild : ∃ e ∈ fs.live, folderPath e.path.text = p.text := by
        by_contra hnone
        push Not at hnone
        exact hrem ⟨hshown, hnone⟩
      obtain ⟨e, he, hself⟩ := hchild
      obtain ⟨v, hv, hdata⟩ :=
        List.mem_map.mp (h.files ▸ List.mem_map_of_mem he : e.data ∈ _)
      have hvpath : v.path = e.path.text := congrArg Prod.fst hdata
      exact ⟨v, h.perm.mem_iff.mpr hv, hvpath ▸ hself⟩
    · right
      intro folder hparent hfolder
      exact hshown ((h.shown_iff p.inner).mp ⟨folder, hparent, hfolder⟩)
  simpa only [fusebItemDestroy, hfound]
    using vfsItemDestroy_null h.below h.tree (h.perm.mem_iff.mpr hitem) hbad

end

/-! ## What is in a folder -/

section

variable {q : Text} {f : Items}

theorem Nested.filter_eq_nil (h : Nested q f) {p : Text} (hq : q ≠ p)
    (hp : ∀ w ∈ f.post, w.path ≠ p) :
    f.post.filter (fun v => folderPath v.path = p) = [] := by
  refine List.filter_eq_nil_iff.mpr fun s hs heq => ?_
  rw [decide_eq_true_iff] at heq
  rcases h.folder_mem hs with hself | ⟨w, hw, hpath⟩
  · exact hq (hself.symm.trans heq)
  · exact hp w hw (hpath.trans heq)

theorem Nested.filter_roots (h : Nested q f) :
    f.post.filter (fun v => folderPath v.path = q) = f.roots := by
  induction f with
  | nil => rfl
  | cons v below rest _ ih =>
      obtain ⟨hv, hq, -, hbelow, hrest⟩ := h
      -- what is below `v` is in a folder with a longer path
      have hlong : q.length < v.path.length := hq ▸ hv.folder_above.length_lt
      have hne : v.path ≠ q := fun heq => absurd (heq ▸ hlong) (lt_irrefl _)
      have hnone := hbelow.filter_eq_nil hne fun w hw heq => by
        have hlt := (hbelow.above hw).length_lt
        rw [heq] at hlt
        exact lt_asymm hlong hlt
      rw [Branches.post, List.filter_append, hnone, List.nil_append,
        List.filter_cons_of_pos (by simpa using hq), ih hrest]
      rfl

theorem childsOf_none {a : Nat} (h : ∀ v ∈ f.post, v.addr ≠ a) : childsOf a f = none := by
  induction f with
  | nil => rfl
  | cons v below rest ih₁ ih₂ =>
      simp only [Branches.post, List.forall_mem_append, List.forall_mem_cons] at h
      rw [childsOf, if_neg h.2.1, ih₁ h.1, ih₂ h.2.2]
      rfl

theorem childsOf_roots (h : Nested q f) {w : VfsItem} (hw : w ∈ f.post)
    (haddr : (f.post.map VfsItem.addr).Nodup)
    (hdistinct : (f.post.map VfsItem.path).Nodup) :
    ∃ childs, childsOf w.addr f = some childs ∧
      childs.roots = f.post.filter fun v => folderPath v.path = w.path := by
  induction f generalizing q with
  | nil => cases hw
  | cons v below rest ih₁ ih₂ =>
      have hlong := (h.above hw).length_lt
      have hqw : q ≠ w.path := fun heq => absurd (heq ▸ hlong) (lt_irrefl _)
      obtain ⟨hv, hq, -, hbelow, hrest⟩ := h
      have hvw : ¬ folderPath v.path = w.path := fun heq => hqw (hq.symm.trans heq)
      rw [Branches.post, List.map_append, List.map_cons, List.nodup_append]
        at haddr hdistinct
      obtain ⟨ha₁, ha₂, ha⟩ := haddr
      obtain ⟨hd₁, hd₂, hd⟩ := hdistinct
      obtain ⟨hanot, ha₂⟩ := List.nodup_cons.mp ha₂
      obtain ⟨hdnot, hd₂⟩ := List.nodup_cons.mp hd₂
      rw [Branches.post, List.mem_append, List.mem_cons] at hw
      rw [childsOf, Branches.post, List.filter_append,
        List.filter_cons_of_neg (by simpa using hvw)]
      rcases hw with hw | rfl | hw
      · have hne : v.addr ≠ w.addr :=
          (ha _ (List.mem_map_of_mem hw) _ List.mem_cons_self).symm
        have hnone := hrest.filter_eq_nil hqw fun u hu =>
          (hd _ (List.mem_map_of_mem hw) _
            (List.mem_cons_of_mem _ (List.mem_map_of_mem hu))).symm
        obtain ⟨childs, hchilds, hroots⟩ := ih₁ hbelow hw ha₁ hd₁
        exact ⟨childs, by rw [if_neg hne, hchilds]; rfl,
          by rw [hnone, List.append_nil, hroots]⟩
      · have hnone :=
          hrest.filter_eq_nil hqw fun u hu heq => hdnot (heq ▸ List.mem_map_of_mem hu)
        exact ⟨below, if_pos rfl, by rw [hnone, List.append_nil, hbelow.filter_roots]⟩
      · have hne : v.addr ≠ w.addr := fun heq => hanot (heq ▸ List.mem_map_of_mem hw)
        have hother := childsOf_none fun u hu => ha _ (List.mem_map_of_mem hu) _
            (List.mem_cons_of_mem _ (List.mem_map_of_mem hw))
        have hnone := hbelow.filter_eq_nil (p := w.path)
            (fun heq => hdnot (heq ▸ List.mem_map_of_mem hw))
          fun u hu => hd _ (List.mem_map_of_mem hu) _
          (List.mem_cons_of_mem _ (List.mem_map_of_mem hw))
        obtain ⟨childs, hchilds, hroots⟩ := ih₂ hrest hw ha₂ hd₂
        exact ⟨childs, by rw [if_neg hne, hother, hchilds]; rfl,
          by rw [hnone, List.nil_append, hroots]⟩

end

/-! ## What is shown -/

section

variable {fs : FileSystem β} {items : List VfsItem} {s : Fs β} {childs : Items}
  (h : Holds fs items s childs)
include h

theorem Holds.names (p : Text) :
    (childs.post.filter fun v => folderPath v.path = p).map (fun v => nameOf v.path)
      = fs.entries p := by
  have hpaths := congrArg (List.filter fun path => decide (folderPath path = p)) h.paths
  rw [FileSystem.paths, List.filter_map, List.filter_map] at hpaths
  have hnames := congrArg (List.map nameOf) hpaths
  rw [List.map_map, List.map_map] at hnames
  rw [h.order]
  exact hnames

theorem Holds.childsOf_root : childsOf rootItem.addr s.tree = some childs := by
  rw [h.tree]
  rfl

theorem Holds.childsOf_item {item : VfsItem} (hitem : item ∈ childs.post) :
    ∃ below, childsOf item.addr s.tree = some below ∧
      below.roots = childs.post.filter fun v => folderPath v.path = item.path := by
  obtain ⟨hroot, haddr⟩ := List.nodup_cons.mp h.below.addr_nodup
  have hne : rootItem.addr ≠ item.addr :=
    fun heq => hroot (heq ▸ List.mem_map_of_mem hitem)
  obtain ⟨below, hbelow, hroots⟩ := childsOf_roots h.nested hitem haddr h.below.path_nodup
  exact ⟨below, by rw [h.tree, childsOf, if_neg hne, hbelow]; rfl, hroots⟩

theorem Holds.find_root {path : Text} (hroot : path = [] ∨ path = ['/']) :
    vfsItemFind s.tree path sizeMax = some rootItem := by
  rw [vfsItemFind, if_pos hroot, h.tree]
  rfl

theorem Holds.readdir {path : Text} (hfits : path.length < sizeMax) :
    fusehReaddir s path = fs.readdir path := by
  rw [fusehReaddir, FileSystem.readdir]
  by_cases hroot : path = [] ∨ path = ['/']
  · rw [if_pos hroot, h.find_root hroot, Option.map_some, h.childsOf_root,
      Option.getD_some, ← h.names, h.nested.filter_roots]
  · obtain ⟨hempty, hne⟩ := not_or.mp hroot
    have hfiles := h.find_files fun p => p = path
    rw [if_neg hroot, h.find_item hempty hne hfits, FileSystem.find]
    cases hitem : items.find? fun v => v.path = path with
    | none =>
        rw [hitem, Option.map_none, eq_comm, Option.map_eq_none_iff] at hfiles
        rw [hfiles]
        rfl
    | some item =>
        rw [hitem, Option.map_some, eq_comm, Option.map_eq_some_iff] at hfiles
        obtain ⟨f, hf, -⟩ := hfiles
        have hpath : item.path = path := by simpa using List.find?_some hitem
        obtain ⟨below, hbelow, hroots⟩ :=
          h.childsOf_item (h.perm.mem_iff.mpr (List.mem_of_find?_eq_some hitem))
        rw [hf, Option.map_some, Option.map_some, hbelow, Option.getD_some, hroots,
          hpath, h.names]

theorem Holds.getattr (count : β → Nat) {path : Text} (hfits : path.length < sizeMax) :
    fusehGetattr count s path = fs.getattr count path := by
  rw [fusehGetattr, FileSystem.getattr]
  by_cases hroot : path = [] ∨ path = ['/']
  · rw [if_pos hroot, h.find_root hroot]
    rfl
  · obtain ⟨hempty, hne⟩ := not_or.mp hroot
    have hattr := congrArg (Option.map fun d : Text × VfsItemType × β =>
        (d.2.1, statSize count d.2.2 d.2.1))
      (h.find_files fun p => p = path)
    rw [Option.map_map, Option.map_map] at hattr
    rw [if_neg hroot, h.find_item hempty hne hfits]
    exact hattr

end

/-! ## Runs -/

section

variable {fs fs' : FileSystem β} {items : List VfsItem} {s : Fs β} {childs : Items}

/-- **What each step keeps.** -/
theorem Holds.step (h : Holds fs items s childs) {e : VfsEvent β}
    (hstep : fs.step e = some fs') :
    ∃ items' s' childs', Returns (fun n => vfsStep n s e) s' ∧
      Holds fs' items' s' childs' := by
  cases e with
  | create f =>
      obtain ⟨hpermitted, hput⟩ := Option.ite_none_right_eq_some.mp hstep
      cases hput
      obtain ⟨childs', h'⟩ := h.create hpermitted
      exact ⟨_, _, childs', .of_forall fun n => rfl, h'⟩
  | destroy p =>
      rw [FileSystem.step] at hstep
      cases hfind : fs.find p.text with
      | none =>
          rw [hfind] at hstep
          cases hstep
          have hitem : vfsItemFind s.tree p.text sizeMax = none := by
            have hfiles := h.find_files fun path => path = p.text
            rw [show fs.live.find? (fun f => decide (f.path.text = p.text))
              = none from hfind, Option.map_none, Option.map_eq_none_iff] at hfiles
            rw [h.find_item p.ne_nil p.inner.2 p.fits]
            exact hfiles
          exact ⟨items, s, childs,
            .of_forall fun n => by simp only [vfsStep, fusebItemDestroy, hitem], h⟩
      | some f =>
          rw [hfind] at hstep
          obtain ⟨hrem, hremove⟩ := Option.ite_none_right_eq_some.mp hstep
          cases hremove
          obtain ⟨s', childs', hret, h'⟩ := h.destroy hfind hrem
          exact ⟨_, s', childs', hret, h'⟩

theorem Holds.run (h : Holds fs items s childs) {events : List (VfsEvent β)}
    (hrun : fs.run events = some fs') :
    ∃ items' s' childs', Returns (fun n => vfsRun n events s) s' ∧
      Holds fs' items' s' childs' := by
  induction events generalizing fs items s childs with
  | nil =>
      cases hrun
      exact ⟨items, s, childs, .of_forall fun n => rfl, h⟩
  | cons e events ih =>
      rw [FileSystem.run, List.foldlM_cons] at hrun
      obtain ⟨fs₁, hfirst, hrest⟩ := Option.bind_eq_some_iff.mp hrun
      obtain ⟨items₁, s₁, childs₁, hret₁, h₁⟩ := h.step hfirst
      obtain ⟨items', s', childs', hret', h'⟩ := ih h₁ hrest
      refine ⟨items', s', childs', ?_, h'⟩
      simp only [vfsRun, List.foldlM_cons]
      exact hret₁.bind hret'

theorem holds_new (userdata : Nat → β) :
    Holds FileSystem.empty [] (Fs.new userdata) .nil where
  tree := rfl
  nested := trivial
  order p := rfl
  addr_nodup := List.nodup_nil
  addr_pos := by simp
  addr_lt := by simp
  allocated := Nat.one_pos
  files := rfl
  distinct := List.nodup_nil
  destroyed := rfl

theorem vfsRun_append (n : Nat) (events events' : List (VfsEvent β)) (s : Fs β) :
    vfsRun n (events ++ events') s = vfsRun n events s >>= vfsRun n events' := by
  rw [vfsRun, List.foldlM_append]
  rfl

end

/-- In every run of creations in folders that are there and shown, and of destructions,
the tree shows the files that there are and their backends, each backend of a file that
is gone was destroyed once, and the destruction of a file follows `NULL` exactly if it
has files in it or its folder is hidden. -/
theorem vfs_refines {events : List (VfsEvent β)} {fs : FileSystem β}
    (userdata : Nat → β) (count : β → Nat)
    (hrun : FileSystem.empty.run events = some fs) :
    ∃ s, Returns (fun n => vfsRun n events (Fs.new userdata)) s ∧
      s.destroyed = fs.destroyed ∧ (∀ path : Text, path.length < sizeMax →
        fusehReaddir s path = fs.readdir path ∧
        fusehGetattr count s path = fs.getattr count path) ∧
      ∀ (p : Path) (f : File β), fs.find p.text = some f →
        (Fails (fun n => vfsRun n (events ++ [.destroy p]) (Fs.new userdata)) .null ↔
          ¬ fs.Removable p.text) := by
  obtain ⟨items, s, childs, hret, h⟩ := (holds_new userdata).run hrun
  refine ⟨s, hret, h.destroyed,
    fun path hfits => ⟨h.readdir hfits, h.getattr count hfits⟩, fun p f hfind => ?_⟩
  have hlast : ∀ (n : Nat) (s : Fs β),
      vfsRun n [.destroy p] s = fusebItemDestroy n p s := fun n s => by
    simp only [vfsRun, List.foldlM_cons, List.foldlM_nil, bind_pure]
    rfl
  simp only [vfsRun_append]
  constructor
  · intro hfails hrem
    obtain ⟨s', -, hret', -⟩ := h.destroy hfind hrem
    refine hfails.not_returns (a := s') (hret.bind ?_)
    simpa only [hlast] using hret'
  · intro hrem
    refine hret.bind_fails ?_
    simpa only [hlast] using h.destroy_null hfind hrem

/-! ### A folder, a file in it, and a file that comes and goes -/

def folderA' : File Nat := ⟨folderA.path, .folder, 1⟩
def fileAx' : File Nat := ⟨fileAx.path, .file, 2⟩
def fileAb' : File Nat := ⟨fileAb.path, .file, 3⟩

theorem vfs_refines_folder : ∃ s : Fs Nat,
    Returns (fun n => vfsRun n [.create folderA', .create fileAx', .create fileAb',
      .destroy fileAb.path] (Fs.new id)) s ∧
      s.destroyed = [3] ∧ fusehReaddir s ['/', 'a'] = some [['.'], ['.', '.'], ['x']] ∧
      Fails (fun n => vfsRun n
        ([.create folderA', .create fileAx', .create fileAb', .destroy fileAb.path] ++
        [.destroy folderA.path]) (Fs.new id)) .null := by
  have hrun : FileSystem.empty.run [.create folderA', .create fileAx', .create fileAb',
    .destroy fileAb.path] =
      some ⟨[fileAx', folderA'], [3]⟩ := by rfl
  obtain ⟨s, hret, hdestroyed, hshow, hnull⟩ := vfs_refines id id hrun
  exact ⟨s, hret, hdestroyed, (hshow _ (by decide)).1,
    (hnull folderA.path folderA' rfl).mpr (by decide)⟩

end Frozen.Vfs
