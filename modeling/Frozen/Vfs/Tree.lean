/-
# `Frozen.Vfs.Tree` — the tree of items

An item points to the next one of its folder and to its first child, which is a tree of
`Branches`.  `vfs_item_find` goes down this tree and never turns back; the path is
compared up to a length, which is the length of the directory part when the folder of a
new item is searched.

In a tree where every item is under its folder (`Nested`), the search for a path gives
the item that has it (`find_full`), and the search for a folder gives the first item
that begins with the folder's path (`find_folder`).
-/
import Frozen.Lib.Unfold
import Frozen.Vfs.Path

namespace Frozen.Vfs

open Lib

/-! ## Items -/

inductive VfsItemType where
  | folder | file
deriving DecidableEq, Repr

/-- An item, without `childs` and `next`; the address tells it from the others. -/
structure VfsItem where
  addr : Nat
  type : VfsItemType
  path : Text
deriving DecidableEq, Repr

/-- An item, its `childs`, its `next`. -/
abbrev Items := Branches VfsItem

/-- The loop of `vfs_item_find`. -/
def findLoop (path : Text) (pathLen : Nat) : Items → Option VfsItem
  | .nil => none
  | .cons folder childs next =>
      if strncmpZero folder.path path pathLen then some folder
      else if folder.type = .folder ∧ matchPath folder.path path ≠ 0
        then findLoop path pathLen childs
      else findLoop path pathLen next

def vfsItemFind (root : Items) (path : Text) (pathLen : Nat) : Option VfsItem :=
  if path = [] ∨ path = ['/'] then root.roots.head? else findLoop path pathLen root

def vfsItemFindParent (root : Items) (path : Text) : Option VfsItem :=
  match strrchr path '/' with
  | none => none
  | some pathLen => vfsItemFind root path pathLen

/-- `new_item->next = folder->childs; folder->childs = new_item;` -/
def link (folder : Nat) (newItem : VfsItem) : Items → Items
  | .nil => .nil
  | .cons v childs next =>
      if v.addr = folder then .cons v (.cons newItem .nil childs) next
      else .cons v (link folder newItem childs) (link folder newItem next)

/-- The root of the tree, and how many items there are. -/
structure VfsState where
  tree : Items
  allocated : Nat

/-- `vfs_create`. -/
def rootItem : VfsItem := ⟨0, .folder, ['/']⟩

def vfsCreate : VfsState := ⟨.cons rootItem .nil .nil, 1⟩

/-- `vfs_item_create`; memory is there. -/
def vfsItemCreate (vfs : VfsState) (path : Text) (type : VfsItemType) :
    Option VfsItem × VfsState :=
  match vfsItemFindParent vfs.tree path with
  | none => (none, vfs)
  | some folder =>
      let newItem : VfsItem := ⟨vfs.allocated, type, path⟩
      (some newItem, ⟨link folder.addr newItem vfs.tree, vfs.allocated + 1⟩)

/-! ## Where the items are -/

/-- The item is one of the `childs` of the folder. -/
def LinkedUnder (folder item : VfsItem) : Items → Prop
  | .nil => False
  | .cons v childs next =>
      (v = folder ∧ item ∈ childs.roots) ∨ LinkedUnder folder item childs ∨
      LinkedUnder folder item next

/-- Every item is under the item that has the path of its folder. -/
def Nested : Text → Items → Prop
  | _, .nil => True
  | folder, .cons v childs next =>
      Inner v.path ∧ folderPath v.path = folder ∧ (v.type = .file → childs = .nil) ∧
        Nested v.path childs ∧ Nested folder next

theorem Nested.above {q : Text} {f : Items} (h : Nested q f) {s : VfsItem}
    (hs : s ∈ f.post) : Above q s.path := by
  induction f generalizing q with
  | nil => cases hs
  | cons v below rest ih₁ ih₂ =>
      obtain ⟨hinner, rfl, -, hbelow, hrest⟩ := h
      rw [Branches.post, List.mem_append, List.mem_cons] at hs
      rcases hs with hs | rfl | hs
      · exact hinner.folder_above.trans (ih₁ hbelow hs)
      · exact hinner.folder_above
      · exact ih₂ hrest hs

theorem Nested.inner {q : Text} {f : Items} (h : Nested q f) {s : VfsItem}
    (hs : s ∈ f.post) : Inner s.path := by
  induction f generalizing q with
  | nil => cases hs
  | cons v below rest ih₁ ih₂ =>
      obtain ⟨hinner, -, -, hbelow, hrest⟩ := h
      rw [Branches.post, List.mem_append, List.mem_cons] at hs
      rcases hs with hs | rfl | hs
      · exact ih₁ hbelow hs
      · exact hinner
      · exact ih₂ hrest hs

/-- The entry of the folder that an item is, or is below of. -/
theorem Nested.exists_entry {q : Text} {f : Items} (h : Nested q f) {s : VfsItem}
    (hs : s ∈ f.post) :
    ∃ u ∈ f.roots, folderPath u.path = q ∧ Inner u.path ∧
      (s.path = u.path ∨ Above u.path s.path) := by
  induction f with
  | nil => cases hs
  | cons v below rest _ ih =>
      obtain ⟨hinner, hfolder, -, hbelow, hrest⟩ := h
      rw [Branches.post, List.mem_append, List.mem_cons] at hs
      rcases hs with hs | rfl | hs
      · exact ⟨v, List.mem_cons_self, hfolder, hinner, .inr (hbelow.above hs)⟩
      · exact ⟨s, List.mem_cons_self, hfolder, hinner, .inl rfl⟩
      · obtain ⟨u, hu, hrest⟩ := ih hrest hs
        exact ⟨u, List.mem_cons_of_mem _ hu, hrest⟩

theorem Nested.folder_mem {q : Text} {f : Items} (h : Nested q f) {s : VfsItem}
    (hs : s ∈ f.post) :
    folderPath s.path = q ∨ ∃ w ∈ f.post, w.path = folderPath s.path := by
  induction f generalizing q with
  | nil => cases hs
  | cons v below rest ih₁ ih₂ =>
      obtain ⟨-, hfolder, -, hbelow, hrest⟩ := h
      simp only [Branches.post, List.mem_append, List.mem_cons] at hs ⊢
      rcases hs with hs | rfl | hs
      · rcases ih₁ hbelow hs with hself | ⟨w, hw, hpath⟩
        · exact .inr ⟨v, .inr (.inl rfl), hself.symm⟩
        · exact .inr ⟨w, .inl hw, hpath⟩
      · exact .inl hfolder
      · rcases ih₂ hrest hs with hself | ⟨w, hw, hpath⟩
        · exact .inl hself
        · exact .inr ⟨w, .inr (.inr hw), hpath⟩

/-! ## The search -/

/-- A search for the items `T`, which are all at the place `d`. -/
structure Search (path : Text) (pathLen : Nat) (d : Text) (T : VfsItem → Prop) :
    Prop where
  stop_of : ∀ v : VfsItem, T v → strncmpZero v.path path pathLen = true
  stop : ∀ v : VfsItem, Inner v.path → Above (folderPath v.path) d →
  strncmpZero v.path path pathLen = true → T v
  into : ∀ v : VfsItem, Inner v.path → strncmpZero v.path path pathLen = false →
  (Above v.path path ↔ Above v.path d)
  place : ∀ v s : VfsItem, Inner v.path → T s → (Above v.path s.path ↔ Above v.path d)
  short : ∀ v : VfsItem, strncmpZero v.path path pathLen = true → ¬ Above v.path d

/-- Going down without turning back finds the first one. -/
theorem Search.findLoop_eq {path d : Text} {pathLen : Nat} {T : VfsItem → Prop}
    [DecidablePred T] (hsearch : Search path pathLen d T) {q : Text} {f : Items}
    (h : Nested q f) (hq : Above q d) (hdistinct : (f.post.map VfsItem.path).Nodup) :
    findLoop path pathLen f = f.post.find? fun v => decide (T v) := by
  induction f generalizing q with
  | nil => rfl
  | cons v below rest ih₁ ih₂ =>
      obtain ⟨hinner, hfolder, hfile, hbelow, hrest⟩ := h
      rw [Branches.post, List.map_append, List.map_cons, List.nodup_append] at hdistinct
      obtain ⟨hdis₁, hdis₂, -⟩ := hdistinct
      obtain ⟨hnot, hdis₂⟩ := List.nodup_cons.mp hdis₂
      rw [findLoop, Branches.post, List.find?_append]
      -- where there is nothing below
      have hskip : (∀ s ∈ below.post, ¬ T s) →
          below.post.find? (fun v => decide (T v)) = none := by
        intro hnone
        exact List.find?_eq_none.mpr fun s hs => by simpa using hnone s hs
      cases hstop : strncmpZero v.path path pathLen with
      | true =>
          have hT : T v := hsearch.stop v hinner (hfolder ▸ hq) hstop
          have hnone : ∀ s ∈ below.post, ¬ T s := by
            intro s hs hTs
            exact hsearch.short v hstop
              ((hsearch.place v s hinner hTs).mp (hbelow.above hs))
          rw [if_pos rfl, hskip hnone, List.find?_cons_of_pos (by simpa using hT)]
          rfl
      | false =>
          have hT : ¬ T v := fun hT => by
            rw [hsearch.stop_of v hT] at hstop
            cases hstop
          rw [if_neg Bool.false_ne_true, List.find?_cons_of_neg (by simpa using hT)]
          by_cases hinto : v.type = .folder ∧ matchPath v.path path ≠ 0
          · have habove : Above v.path d :=
              (hsearch.into v hinner hstop).mp ((matchPath_ne_zero_iff _ _).mp hinto.2)
            have hlast : rest.post.find? (fun v => decide (T v)) = none := by
              refine List.find?_eq_none.mpr fun s hs => ?_
              simp only [decide_eq_true_eq]
              intro hTs
              obtain ⟨u, hu, hufolder, huinner, hus⟩ := hrest.exists_entry hs
              have hsame := sibling_above huinner hinner (hufolder.trans hfolder.symm) hus
                ((hsearch.place v s hinner hTs).mpr habove)
              exact hnot (hsame ▸ List.mem_map_of_mem (rest.roots_sublist_post.subset hu))
            rw [if_pos hinto, ih₁ hbelow habove hdis₁, hlast, Option.or_none]
          · have hnone : ∀ s ∈ below.post, ¬ T s := by
              intro s hs hTs
              cases htype : v.type with
              | file =>
                  rw [hfile htype] at hs
                  cases hs
              | folder =>
                  refine hinto ⟨htype, (matchPath_ne_zero_iff _ _).mpr ?_⟩
                  exact (hsearch.into v hinner hstop).mpr
                    ((hsearch.place v s hinner hTs).mp (hbelow.above hs))
            rw [if_neg hinto, hskip hnone, Option.none_or, ih₂ hrest hq hdis₂]

/-- `~0` for a `size_t`. -/
def sizeMax : Nat := 2 ^ 64 - 1

theorem search_full {path : Text} (hfits : path.length < sizeMax) :
    Search path sizeMax path fun v => v.path = path := by
  have hwhole : ∀ v : VfsItem, strncmpZero v.path path sizeMax = true ↔
      v.path = path := by
    intro v
    rw [strncmpZero, decide_eq_true_iff, List.take_of_length_le hfits.le]
    constructor
    · intro htake
      have hlen := congrArg List.length htake
      rw [List.length_take] at hlen
      rwa [List.take_of_length_le (by omega)] at htake
    · rintro rfl
      exact List.take_of_length_le hfits.le
  refine ⟨fun v hT => (hwhole v).mpr hT, fun v _ _ hstop => (hwhole v).mp hstop,
    fun _ _ _ => Iff.rfl, ?_, ?_⟩
  · intro v s _ hs
    rw [hs]
  · intro v hstop habove
    rw [(hwhole v).mp hstop] at habove
    exact lt_irrefl _ habove.length_lt

theorem search_folder (d name : Text) :
    Search (d ++ '/' :: name) d.length d fun v => Extends d v.path := by
  have hbegins : ∀ v : VfsItem, strncmpZero v.path (d ++ '/' :: name) d.length = true ↔
      ∃ more, v.path = d ++ more := by
    intro v
    rw [strncmpZero, decide_eq_true_iff, List.take_left]
    constructor
    · intro htake
      refine ⟨v.path.drop d.length, (List.take_append_drop d.length v.path).symm.trans ?_⟩
      rw [htake]
    · rintro ⟨more, hmore⟩
      rw [hmore, List.take_left]
  refine ⟨?_, ?_, ?_, fun v s hv hs => hs.above hv, ?_⟩
  · rintro v ⟨more, -, hmore⟩
    exact (hbegins v).mpr ⟨more, hmore⟩
  · intro v hinner habove hstop
    obtain ⟨more, hmore⟩ := (hbegins v).mp hstop
    rw [hmore] at hinner habove ⊢
    exact extends_of_append hinner habove
  · intro v hinner hstop
    refine above_append_iff hinner fun hmore => ?_
    rw [(hbegins v).mpr hmore] at hstop
    cases hstop
  · intro v hstop habove
    obtain ⟨more, hmore⟩ := (hbegins v).mp hstop
    have hlt := habove.length_lt
    rw [hmore, List.length_append] at hlt
    omega

variable {childs : Items} (hnested : Nested ['/'] childs)
  (hdistinct : (childs.post.map VfsItem.path).Nodup)
include hnested hdistinct

/-- The search for a whole path gives the item that has it. -/
theorem find_full {path : Text} (hempty : path ≠ []) (hroot : path ≠ ['/'])
    (hfits : path.length < sizeMax) :
    vfsItemFind (.cons rootItem childs .nil) path sizeMax = childs.post.find? fun v =>
      v.path = path := by
  have hstop : ¬ strncmpZero rootItem.path path sizeMax = true := by
    rw [strncmpZero, decide_eq_true_iff, List.take_of_length_le hfits.le]
    exact fun heq => hroot heq.symm
  rw [vfsItemFind, if_neg (not_or.mpr ⟨hempty, hroot⟩), findLoop, if_neg hstop]
  by_cases habove : Above ['/'] path
  · rw [if_pos ⟨rfl, (matchPath_ne_zero_iff _ _).mpr habove⟩]
    exact (search_full hfits).findLoop_eq hnested habove hdistinct
  · rw [if_neg fun h => habove ((matchPath_ne_zero_iff _ _).mp h.2), findLoop]
    refine (List.find?_eq_none.mpr fun s hs => ?_).symm
    rw [decide_eq_true_iff]
    rintro rfl
    exact habove (hnested.above hs)

theorem find_folder {path : Text} (h : Inner path) :
    vfsItemFindParent (.cons rootItem childs .nil) path =
      if dirname path = [] ∨ dirname path = ['/'] then some rootItem
      else childs.post.find? fun v => Extends (dirname path) v.path := by
  obtain ⟨name, hname, heq⟩ := h.exists_name
  have hempty : path ≠ [] := by
    rintro rfl
    cases h.1
  have hlen : strrchr path '/' = some (dirname path).length := by
    rw [heq, dirname_append _ hname, strrchr_append _ hname]
  have htake : path.take (dirname path).length = dirname path := by
    rw [heq, dirname_append _ hname, List.take_left]
  rw [vfsItemFindParent, hlen]
  simp only [vfsItemFind, if_neg (not_or.mpr ⟨hempty, h.2⟩), findLoop, strncmpZero, htake]
  rcases h.dirname_cases with hd | hd | hd
  · have htop : dirname path = [] ∨ dirname path = ['/'] := .inl hd
    rw [if_pos htop, hd]
    rfl
  · have htop : dirname path = [] ∨ dirname path = ['/'] := .inr hd
    rw [if_pos htop, hd]
    rfl
  · have hne : ¬ (dirname path = [] ∨ dirname path = ['/']) := by
      rintro (hd' | hd')
      · rw [hd'] at hd
        cases hd.1
      · exact hd.2 hd'
    have hlong : 1 ≤ (dirname path).length := by
      have hlt := hd.root_above.length_lt
      exact le_of_lt hlt
    have hstop : ¬ rootItem.path.take (dirname path).length = dirname path := by
      rw [List.take_of_length_le hlong]
      exact fun heq => hd.2 heq.symm
    rw [if_neg hne, decide_eq_false hstop, if_neg Bool.false_ne_true,
      if_pos ⟨rfl, (matchPath_ne_zero_iff _ _).mpr h.root_above⟩]
    have hfind :=
      (search_folder (dirname path) name).findLoop_eq hnested hd.root_above hdistinct
    rwa [← heq] at hfind

omit hnested hdistinct

/-! ## New items -/

section

variable {a : Nat} {n : VfsItem} {f : Items}

theorem link_roots (a : Nat) (n : VfsItem) (f : Items) :
    (link a n f).roots = f.roots := by
  cases f with
  | nil => rfl
  | cons v below rest =>
      rw [link]
      split
      · rfl
      · rw [Branches.roots, Branches.roots, link_roots a n rest]

theorem link_of_notMem (h : ∀ v ∈ f.post, v.addr ≠ a) : link a n f = f := by
  induction f with
  | nil => rfl
  | cons v below rest ih₁ ih₂ =>
      simp only [Branches.post, List.forall_mem_append, List.forall_mem_cons] at h
      rw [link, if_neg h.2.1, ih₁ h.1, ih₂ h.2.2]

theorem linkedUnder_link {folder : VfsItem} (hf : folder ∈ f.post)
    (haddr : (f.post.map VfsItem.addr).Nodup) :
    LinkedUnder folder n (link folder.addr n f) := by
  induction f with
  | nil => cases hf
  | cons v below rest ih₁ ih₂ =>
      rw [Branches.post, List.map_append, List.map_cons, List.nodup_append] at haddr
      obtain ⟨hdis₁, hdis₂, hdis⟩ := haddr
      obtain ⟨hnot, hdis₂⟩ := List.nodup_cons.mp hdis₂
      rw [Branches.post, List.mem_append, List.mem_cons] at hf
      rw [link]
      rcases hf with hf | rfl | hf
      · have hne : v.addr ≠ folder.addr :=
          (hdis _ (List.mem_map_of_mem hf) _ List.mem_cons_self).symm
        rw [if_neg hne]
        exact .inr (.inl (ih₁ hf hdis₁))
      · rw [if_pos rfl]
        exact .inl ⟨rfl, List.mem_cons_self⟩
      · have hne : v.addr ≠ folder.addr := fun heq => hnot (heq ▸ List.mem_map_of_mem hf)
        rw [if_neg hne]
        exact .inr (.inr (ih₂ hf hdis₂))

theorem LinkedUnder.mem_post {folder item : VfsItem} (h : LinkedUnder folder item f) :
    folder ∈ f.post ∧ item ∈ f.post := by
  induction f with
  | nil => cases h
  | cons v below rest ih₁ ih₂ =>
      simp only [Branches.post, List.mem_append, List.mem_cons]
      rcases h with ⟨rfl, hroot⟩ | h | h
      · exact ⟨.inr (.inl rfl), .inl (below.roots_sublist_post.subset hroot)⟩
      · exact ⟨.inl (ih₁ h).1, .inl (ih₁ h).2⟩
      · exact ⟨.inr (.inr (ih₂ h).1), .inr (.inr (ih₂ h).2)⟩

theorem LinkedUnder.addr_eq {folder : VfsItem} (h : LinkedUnder folder n (link a n f))
    (hnew : n ∉ f.post) : folder ∈ f.post ∧ folder.addr = a := by
  induction f with
  | nil => cases h
  | cons v below rest ih₁ ih₂ =>
      simp only [Branches.post, List.mem_append, List.mem_cons, not_or] at hnew ⊢
      rw [link] at h
      split at h
      · rename_i haddr
        rcases h with ⟨rfl, -⟩ | (⟨-, hroot⟩ | h | h) | h
        · exact ⟨.inr (.inl rfl), haddr⟩
        · cases hroot
        · cases h
        · exact absurd h.mem_post.2 hnew.1
        · exact absurd h.mem_post.2 hnew.2.2
      · rcases h with ⟨-, hroot⟩ | h | h
        · rw [link_roots] at hroot
          exact absurd (below.roots_sublist_post.subset hroot) hnew.1
        · exact ⟨.inl (ih₁ h hnew.1).1, (ih₁ h hnew.1).2⟩
        · exact ⟨.inr (.inr (ih₂ h hnew.2.2).1), (ih₂ h hnew.2.2).2⟩

theorem Nested.link {q : Text} (h : Nested q f) (hinner : Inner n.path)
    (hfolder : ∀ v ∈ f.post, v.addr = a → v.type = .folder ∧ folderPath n.path = v.path) :
    Nested q (Vfs.link a n f) := by
  induction f generalizing q with
  | nil => trivial
  | cons v below rest ih₁ ih₂ =>
      obtain ⟨hv, hq, hfile, hbelow, hrest⟩ := h
      simp only [Branches.post, List.forall_mem_append, List.forall_mem_cons] at hfolder
      rw [Vfs.link]
      split
      · rename_i haddr
        obtain ⟨htype, hpath⟩ := hfolder.2.1 haddr
        refine ⟨hv, hq, fun hf => ?_,
          ⟨hinner, hpath, fun _ => rfl, trivial, hbelow⟩, hrest⟩
        rw [htype] at hf
        cases hf
      · refine ⟨hv, hq, fun hf => ?_, ih₁ hbelow hfolder.1, ih₂ hrest hfolder.2.2⟩
        rw [hfile hf]
        rfl

/-- In each folder, the new item is before the others. -/
theorem filter_link {q : Text} {e : VfsItem} (h : Nested q f) (he : e ∈ f.post)
    (haddr : (f.post.map VfsItem.addr).Nodup)
    (hdistinct : (f.post.map VfsItem.path).Nodup) (hn : folderPath n.path = e.path)
    (p : Text) : (link e.addr n f).post.filter (fun v => folderPath v.path = p)
      = (n :: f.post).filter fun v => folderPath v.path = p := by
  induction f generalizing q with
  | nil => cases he
  | cons v below rest ih₁ ih₂ =>
      obtain ⟨hv, hq, -, hbelow, hrest⟩ := h
      rw [Branches.post, List.map_append, List.map_cons, List.nodup_append]
        at haddr hdistinct
      obtain ⟨ha₁, ha₂, ha⟩ := haddr
      obtain ⟨hd₁, hd₂, hd⟩ := hdistinct
      obtain ⟨hanot, ha₂⟩ := List.nodup_cons.mp ha₂
      obtain ⟨hdnot, hd₂⟩ := List.nodup_cons.mp hd₂
      rw [Branches.post, List.mem_append, List.mem_cons] at he
      rw [link]
      rcases he with he | rfl | he
      · have hne : v.addr ≠ e.addr :=
          (ha _ (List.mem_map_of_mem he) _ List.mem_cons_self).symm
        have hother : ∀ w ∈ rest.post, w.addr ≠ e.addr := fun w hw =>
          (ha _ (List.mem_map_of_mem he) _
            (List.mem_cons_of_mem _ (List.mem_map_of_mem hw))).symm
        rw [if_neg hne, link_of_notMem hother, Branches.post, Branches.post,
          List.filter_append, ih₁ hbelow he ha₁ hd₁,
          ← List.cons_append, List.filter_append]
      · rw [if_pos rfl]
        rfl
      · have hne : v.addr ≠ e.addr := fun heq => hanot (heq ▸ List.mem_map_of_mem he)
        have hother : ∀ w ∈ below.post, w.addr ≠ e.addr := fun w hw =>
          ha _ (List.mem_map_of_mem hw) _
            (List.mem_cons_of_mem _ (List.mem_map_of_mem he))
        rw [if_neg hne, link_of_notMem hother, Branches.post, Branches.post,
          List.filter_append, List.filter_cons, ih₂ hrest he ha₂ hd₂]
        by_cases hp : folderPath n.path = p
        · -- the entries of this folder are all behind
          have hfolder : p = e.path := hp.symm.trans hn
          have hv₀ : folderPath v.path ≠ p := by
            intro heq
            have hlt := (hrest.above he).length_lt
            rw [← hq, heq, hfolder] at hlt
            exact lt_irrefl _ hlt
          have hbelow₀ : below.post.filter (fun v => folderPath v.path = p) = [] := by
            refine List.filter_eq_nil_iff.mpr fun s hs heq => ?_
            rw [decide_eq_true_iff, hfolder] at heq
            rcases hbelow.folder_mem hs with hself | ⟨w, hw, hpath⟩
            · exact hdnot (hself.symm.trans heq ▸ List.mem_map_of_mem he)
            · exact hd _ (List.mem_map_of_mem hw) _
                (List.mem_cons_of_mem _ (List.mem_map_of_mem he)) (hpath.trans heq)
          have hone : ∀ xs : List VfsItem,
              (n :: xs).filter (fun v => folderPath v.path = p)
              = n :: xs.filter fun v => folderPath v.path = p :=
            fun xs => List.filter_cons_of_pos (by simpa using hp)
          rw [hone, hone, List.filter_append, List.filter_cons, hbelow₀,
            List.nil_append, List.nil_append,
            if_neg (by simpa using hv₀), if_neg (by simpa using hv₀)]
        · have hskip : ∀ xs : List VfsItem,
              (n :: xs).filter (fun v => folderPath v.path = p)
              = xs.filter fun v => folderPath v.path = p :=
            fun xs => List.filter_cons_of_neg (by simpa using hp)
          rw [hskip, hskip, List.filter_append, List.filter_cons]

end

end Frozen.Vfs
