/-
# `Frozen.Vfs.Destroy` — items that are destroyed

`vfs_item_destroy` takes an item out of the folder that the search for its directory
gives, then it destroys what is left below the item in the same way.  But what was below
an item that is out of the tree has no folder there any more, so the search gives
another item, or nothing, and the walk along its `childs` ends at `NULL`, which is
followed: only items without childs can be destroyed.

    unlink_post          what is taken out
    vfsItemDestroy_leaf  an item without childs
    vfsItemDestroy_null  any other one
-/
import Frozen.Lib.Fuel
import Frozen.Vfs.Tree

namespace Frozen.Vfs

open Lib

/-! ## The walk along the childs -/

/-- What was below an item of a list of childs, and the list without the item; there is
nothing where the walk comes to the end of the list. -/
def unchain (item : Nat) : Items → Option (Items × Items)
  | .nil => none
  | .cons v childs next =>
      if v.addr = item then some (childs, next)
      else (unchain item next).map fun r => (r.1, .cons v childs r.2)

/-- `child->next = item->next`, or `folder->childs = item->next`, in the tree. -/
def unlink (folder item : Nat) : Items → Option (Items × Items)
  | .nil => none
  | .cons v childs next =>
      if v.addr = folder then (unchain item childs).map fun r => (r.1, .cons v r.2 next)
      else
        match unlink folder item childs with
        | some r => some (r.1, .cons v r.2 next)
        | none => (unlink folder item next).map fun r => (r.1, .cons v childs r.2)

inductive VfsStop where
  | outOfFuel
  /-- `NULL` is followed -/
  | null
deriving DecidableEq

/-- The items, and what is not in the tree: the backend of each item, by its address,
and the backends that were destroyed. -/
structure Fs (β : Type) extends VfsState where
  userdata : Nat → β
  destroyed : List β

variable {β : Type}

mutual

/-- `vfs_item_destroy`. -/
def vfsItemDestroy : Nat → VfsItem → Fs β → Except VfsStop (Fs β)
  | 0, _, _ => .error .outOfFuel
  | n + 1, item, s =>
      match vfsItemFindParent s.tree item.path with
      | none => .error .null
      | some folder =>
          match unlink folder.addr item.addr s.tree with
          | none => .error .null
          | some (childs, tree) => do
              let s ← destroyChilds n childs { s with tree := tree }
              return { s with destroyed := s.destroyed ++ [s.userdata item.addr] }

/-- `while(item->childs != NULL)`; the item is not in the tree, so nothing
changes its childs. -/
def destroyChilds : Nat → Items → Fs β → Except VfsStop (Fs β)
  | _, .nil, s => .ok s
  | 0, .cons _ _ _, _ => .error .outOfFuel
  | n + 1, .cons child childs next, s => do
      let s ← vfsItemDestroy n child s
      destroyChilds n (.cons child childs next) s

end

/-! ## What is taken out -/

section

variable {a b : Nat} {f childs f' : Items}

theorem Nested.root {q : Text} (h : Nested q f) {v : VfsItem} (hv : v ∈ f.roots) :
    folderPath v.path = q := by
  induction f with
  | nil => cases hv
  | cons w below rest _ ih =>
      obtain ⟨-, hq, -, -, hrest⟩ := h
      rcases List.mem_cons.mp hv with rfl | hv
      · exact hq
      · exact ih hrest hv

theorem LinkedUnder.folder_eq {folder item : VfsItem} {q : Text}
    (h : LinkedUnder folder item f) (hnested : Nested q f) :
    folderPath item.path = folder.path := by
  induction f generalizing q with
  | nil => cases h
  | cons v below rest ih₁ ih₂ =>
      obtain ⟨-, -, -, hbelow, hrest⟩ := hnested
      rcases h with ⟨rfl, hroot⟩ | h | h
      · exact hbelow.root hroot
      · exact ih₁ h hbelow
      · exact ih₂ h hrest

/-- Where an item is: in the folder that has the path of its directory. -/
theorem Nested.linked {q : Text} (h : Nested q f) {s : VfsItem} (hs : s ∈ f.post) :
    (folderPath s.path = q ∧ s ∈ f.roots) ∨ ∃ folder, LinkedUnder folder s f := by
  induction f generalizing q with
  | nil => cases hs
  | cons v below rest ih₁ ih₂ =>
      obtain ⟨-, hq, -, hbelow, hrest⟩ := h
      rw [Branches.post, List.mem_append, List.mem_cons] at hs
      rcases hs with hs | rfl | hs
      · rcases ih₁ hbelow hs with ⟨-, hroot⟩ | ⟨folder, hlinked⟩
        · exact .inr ⟨v, .inl ⟨rfl, hroot⟩⟩
        · exact .inr ⟨folder, .inr (.inl hlinked)⟩
      · exact .inl ⟨hq, List.mem_cons_self⟩
      · rcases ih₂ hrest hs with ⟨hself, hroot⟩ | ⟨folder, hlinked⟩
        · exact .inl ⟨hself, List.mem_cons_of_mem v hroot⟩
        · exact .inr ⟨folder, .inr (.inr hlinked)⟩

/-- An item is taken out, with all that is below it. -/
structure Taken (q : Text) (f childs f' : Items) (item : VfsItem) : Prop where
  below : Nested item.path childs
  rest : Nested q f'
  post : ∃ before after, f.post = before ++ (childs.post ++ item :: after) ∧
  f'.post = before ++ after

theorem unchain_taken {q : Text} (hnested : Nested q f)
    (h : unchain b f = some (childs, f')) :
    ∃ item ∈ f.roots, item.addr = b ∧ Taken q f childs f' item := by
  induction f generalizing f' with
  | nil => cases h
  | cons v below rest _ ih =>
      obtain ⟨hv, hq, hfile, hbelow, hrest⟩ := hnested
      rw [unchain] at h
      split at h
      · next haddr =>
          cases h
          exact ⟨v, List.mem_cons_self, haddr, hbelow, hrest, [], _, rfl, rfl⟩
      · obtain ⟨⟨childs', rest'⟩, hmap, heq⟩ := Option.map_eq_some_iff.mp h
        cases heq
        obtain ⟨item, hitem, haddr, htaken, hrest', before, after, hpost, hpost'⟩ :=
          ih hrest hmap
        refine ⟨item, List.mem_cons_of_mem v hitem, haddr, htaken,
          ⟨hv, hq, hfile, hbelow, hrest'⟩, below.post ++ v :: before, after, ?_, ?_⟩
        · simp [Branches.post, hpost]
        · simp [Branches.post, hpost']

/-- **What `unlink` takes out** is an item of the folder. -/
theorem unlink_taken {q : Text} (hnested : Nested q f)
    (h : unlink a b f = some (childs, f')) :
    ∃ folder item, folder.addr = a ∧ item.addr = b ∧ LinkedUnder folder item f ∧
      Taken q f childs f' item := by
  induction f generalizing q f' with
  | nil => cases h
  | cons v below rest ih₁ ih₂ =>
      obtain ⟨hv, hq, hfile, hbelow, hrest⟩ := hnested
      -- a file has nothing to take out
      have hnil : ∀ {r : Items × Items}, below = .nil → unlink a b below ≠ some r ∧
          unchain b below ≠ some r := by
        rintro r rfl
        exact ⟨nofun, nofun⟩
      rw [unlink] at h
      split at h
      · next haddr =>
          obtain ⟨⟨childs', below'⟩, hmap, heq⟩ := Option.map_eq_some_iff.mp h
          cases heq
          obtain ⟨item, hitem, haddr', htaken, hbelow', before, after, hpost,
            hpost'⟩ := unchain_taken hbelow hmap
          refine ⟨v, item, haddr, haddr', .inl ⟨rfl, hitem⟩, htaken,
            ⟨hv, hq, fun htype => absurd hmap (hnil (hfile htype)).2, hbelow', hrest⟩,
            before, after ++ v :: rest.post, ?_, ?_⟩
          · simp [Branches.post, hpost]
          · simp [Branches.post, hpost']
      · split at h
        · next r hmap =>
            cases h
            obtain ⟨folder, item, hfolder, hitem, hlinked, htaken, hbelow', before,
              after, hpost, hpost'⟩ := ih₁ hbelow hmap
            refine ⟨folder, item, hfolder, hitem, .inr (.inl hlinked), htaken,
              ⟨hv, hq, fun htype => absurd hmap (hnil (hfile htype)).1, hbelow', hrest⟩,
              before, after ++ v :: rest.post, ?_, ?_⟩
            · simp [Branches.post, hpost]
            · simp [Branches.post, hpost']
        · obtain ⟨⟨childs', rest'⟩, hmap, heq⟩ := Option.map_eq_some_iff.mp h
          cases heq
          obtain ⟨folder, item, hfolder, hitem, hlinked, htaken, hrest', before, after,
            hpost, hpost'⟩ := ih₂ hrest hmap
          refine ⟨folder, item, hfolder, hitem, .inr (.inr hlinked), htaken,
            ⟨hv, hq, hfile, hbelow, hrest'⟩, below.post ++ v :: before, after, ?_, ?_⟩
          · simp [Branches.post, hpost]
          · simp [Branches.post, hpost']

theorem unchain_isSome {item : VfsItem} (h : item ∈ f.roots) :
    (unchain item.addr f).isSome = true := by
  induction f with
  | nil => cases h
  | cons v below rest _ ih =>
      rw [unchain]
      split
      · rfl
      · next hne =>
          rcases List.mem_cons.mp h with rfl | h
          · exact absurd rfl hne
          · rw [Option.isSome_map]
            exact ih h

theorem unlink_isSome {folder item : VfsItem} (h : LinkedUnder folder item f)
    (haddr : (f.post.map VfsItem.addr).Nodup) :
    (unlink folder.addr item.addr f).isSome = true := by
  induction f with
  | nil => cases h
  | cons v below rest ih₁ ih₂ =>
      rw [Branches.post, List.map_append, List.map_cons, List.nodup_append] at haddr
      obtain ⟨hdis₁, hdis₂, hdis⟩ := haddr
      obtain ⟨hnot, hdis₂⟩ := List.nodup_cons.mp hdis₂
      rw [unlink]
      rcases h with ⟨rfl, hroot⟩ | h | h
      · rw [if_pos rfl, Option.isSome_map]
        exact unchain_isSome hroot
      · have hne : v.addr ≠ folder.addr :=
          (hdis _ (List.mem_map_of_mem h.mem_post.1) _ List.mem_cons_self).symm
        obtain ⟨r, hr⟩ := Option.isSome_iff_exists.mp (ih₁ h hdis₁)
        rw [if_neg hne, hr]
        rfl
      · have hne : v.addr ≠ folder.addr :=
          fun heq => hnot (heq ▸ List.mem_map_of_mem h.mem_post.1)
        rw [if_neg hne]
        split
        · rfl
        · rw [Option.isSome_map]
          exact ih₂ h hdis₂

theorem Taken.mem_iff {q : Text} {item : VfsItem} (h : Taken q f childs f' item)
    (s : VfsItem) : s ∈ f.post ↔ s ∈ f'.post ∨ s ∈ childs.post ∨ s = item := by
  obtain ⟨before, after, hpost, hpost'⟩ := h.post
  simp only [hpost, hpost', List.mem_append, List.mem_cons]
  tauto

theorem Taken.sublist {q : Text} {item : VfsItem} (h : Taken q f childs f' item) :
    f'.post.Sublist f.post := by
  obtain ⟨before, after, hpost, hpost'⟩ := h.post
  rw [hpost, hpost']
  exact (List.Sublist.refl before).append
    ((List.sublist_cons_self item after).trans (List.sublist_append_right _ _))

/-- What is taken out is not there any more, whatever tells the items apart. -/
theorem Taken.not_mem {γ : Type} {q : Text} {item : VfsItem}
    (h : Taken q f childs f' item) (g : VfsItem → γ) (hnodup : (f.post.map g).Nodup)
    {s t : VfsItem} (hs : s ∈ childs.post ∨ s = item) (ht : t ∈ f'.post) :
    g s ≠ g t := by
  obtain ⟨before, after, hpost, hpost'⟩ := h.post
  rw [hpost, List.map_append, List.nodup_append] at hnodup
  obtain ⟨-, hlast, hfirst⟩ := hnodup
  rw [← List.singleton_append, ← List.append_assoc, List.map_append, List.nodup_append]
    at hlast
  have hs' : s ∈ childs.post ++ [item] := by simpa using hs
  rw [hpost', List.mem_append] at ht
  rcases ht with ht | ht
  · refine (hfirst _ (List.mem_map_of_mem ht) _ (List.mem_map_of_mem ?_)).symm
    simpa [or_assoc] using List.mem_append_left after hs'
  · exact hlast.2.2 _ (List.mem_map_of_mem hs') _ (List.mem_map_of_mem ht)

end

/-! ## The whole tree -/

/-- What is below the root. -/
structure Below (childs : Items) : Prop where
  nested : Nested ['/'] childs
  path_nodup : (childs.post.map VfsItem.path).Nodup
  addr_nodup : ((rootItem :: childs.post).map VfsItem.addr).Nodup

section

variable {childs below childs' tree : Items} {item folder : VfsItem}
  {s : Fs β} {a b : Nat}

theorem Below.taken (h : Below childs) (ht : Taken ['/'] childs below childs' item) :
    Below childs' where
  nested := ht.rest
  path_nodup := h.path_nodup.sublist (ht.sublist.map _)
  addr_nodup := h.addr_nodup.sublist ((ht.sublist.cons_cons rootItem).map _)

theorem Below.addr_inj (h : Below childs) {v w : VfsItem}
    (hv : v ∈ rootItem :: childs.post) (hw : w ∈ rootItem :: childs.post)
    (haddr : v.addr = w.addr) : v = w :=
  List.inj_on_of_nodup_map h.addr_nodup hv hw haddr

theorem Below.path_inj (h : Below childs) {v w : VfsItem} (hv : v ∈ childs.post)
    (hw : w ∈ childs.post) (hpath : v.path = w.path) : v = w :=
  List.inj_on_of_nodup_map h.path_nodup hv hw hpath

theorem unlink_tree (h : Below childs)
    (hu : unlink a b (.cons rootItem childs .nil) = some (below, tree)) :
    ∃ folder ∈ rootItem :: childs.post, ∃ item childs', folder.addr = a ∧ item.addr = b ∧
      folderPath item.path = folder.path ∧ tree = .cons rootItem childs' .nil ∧
      Taken ['/'] childs below childs' item := by
  rw [unlink] at hu
  split at hu
  · next haddr =>
      obtain ⟨⟨below', childs'⟩, hmap, heq⟩ := Option.map_eq_some_iff.mp hu
      cases heq
      obtain ⟨item, hitem, hb, htaken⟩ := unchain_taken h.nested hmap
      exact ⟨rootItem, List.mem_cons_self, item, childs', haddr, hb,
        h.nested.root hitem, rfl, htaken⟩
  · split at hu
    · next r hmap =>
        cases hu
        obtain ⟨folder, item, ha, hb, hlinked, htaken⟩ := unlink_taken h.nested hmap
        exact ⟨folder, List.mem_cons_of_mem _ hlinked.mem_post.1, item, _, ha, hb,
          hlinked.folder_eq h.nested, rfl, htaken⟩
    · cases hu

theorem Below.find_mem (h : Below childs) {path : Text} (hpath : Inner path)
    (hfind : vfsItemFindParent (.cons rootItem childs .nil) path = some folder) :
    folder ∈ rootItem :: childs.post := by
  rw [find_folder h.nested h.path_nodup hpath] at hfind
  split at hfind
  · cases hfind
    exact List.mem_cons_self
  · exact List.mem_cons_of_mem _ (List.mem_of_find?_eq_some hfind)

/-- The folder that has the path of the directory is the one that the item is in. -/
theorem Below.linked (h : Below childs) (hitem : item ∈ childs.post)
    (hfolder : folder ∈ rootItem :: childs.post)
    (hpath : folder.path = folderPath item.path) :
    LinkedUnder folder item (.cons rootItem childs .nil) := by
  rcases h.nested.linked hitem with ⟨hroot, hmem⟩ | ⟨w, hlinked⟩
  · rcases List.mem_cons.mp hfolder with rfl | hfolder
    · exact .inl ⟨rfl, hmem⟩
    · exact absurd (hpath.trans hroot) (h.nested.inner hfolder).2
  · have hw := hlinked.folder_eq h.nested
    rcases List.mem_cons.mp hfolder with rfl | hfolder
    · exact absurd (hpath.trans hw).symm (h.nested.inner hlinked.mem_post.1).2
    · rw [h.path_inj hfolder hlinked.mem_post.1 (hpath.trans hw)]
      exact .inr (.inl hlinked)

/-- **What was below an item that is not in the tree is not found there.** -/
theorem destroy_detached (h : Below childs)
    (ht : Taken ['/'] childs below childs' item) {child : VfsItem}
    (hchild : child ∈ below.post) (htree : s.tree = .cons rootItem childs' .nil) :
    Fails (fun n => vfsItemDestroy n child s) .null := by
  refine .of_succ (.of_forall fun n => ?_)
  rw [vfsItemDestroy, htree]
  split
  · rfl
  · split
    · rfl
    · next below' tree' hu =>
        obtain ⟨_, -, other, _, -, haddr, -, -, hother⟩ := unlink_tree (h.taken ht) hu
        have hmem := (hother.mem_iff other).mpr (.inr (.inr rfl))
        exact absurd haddr.symm (ht.not_mem VfsItem.addr
          (List.nodup_cons.mp h.addr_nodup).2 (.inl hchild) hmem)

theorem vfsItemDestroy_leaf (h : Below childs)
    (htree : s.tree = .cons rootItem childs .nil) (hitem : item ∈ childs.post)
    (hfind : vfsItemFindParent s.tree item.path = some folder)
    (hfolder : folder.path = folderPath item.path)
    (hleaf : ∀ v ∈ childs.post, folderPath v.path ≠ item.path) :
    ∃ childs', Returns (fun n => vfsItemDestroy n item s)
        { s with
          tree := .cons rootItem childs' .nil
          destroyed := s.destroyed ++ [s.userdata item.addr] } ∧
      Taken ['/'] childs .nil childs' item := by
  rw [htree] at hfind
  have hmem := h.find_mem (h.nested.inner hitem) hfind
  have hnodup : ((Branches.cons rootItem childs .nil).post.map VfsItem.addr).Nodup := by
    have hperm : (Branches.cons rootItem childs .nil).post.Perm
        (rootItem :: childs.post) := by
      simp [Branches.post]
    exact (hperm.map VfsItem.addr).nodup_iff.mpr h.addr_nodup
  obtain ⟨⟨below, tree⟩, hu⟩ :=
    Option.isSome_iff_exists.mp (unlink_isSome (h.linked hitem hmem hfolder) hnodup)
  obtain ⟨-, -, other, childs', -, haddr, -, rfl, htaken⟩ := unlink_tree h hu
  have hother : other ∈ childs.post := (htaken.mem_iff other).mpr (.inr (.inr rfl))
  obtain rfl :=
    h.addr_inj (List.mem_cons_of_mem _ hother) (List.mem_cons_of_mem _ hitem) haddr
  -- there would be an item in the folder
  obtain rfl : below = .nil := by
    cases below with
    | nil => rfl
    | cons child _ _ =>
        have hchild : child ∈ childs.post :=
          (htaken.mem_iff child).mpr
          (.inr (.inl ((Branches.roots_sublist_post _).subset List.mem_cons_self)))
        exact absurd (htaken.below.root List.mem_cons_self) (hleaf child hchild)
  refine ⟨childs', .of_succ (.of_forall fun n => ?_), htaken⟩
  simp only [vfsItemDestroy, htree, hfind, hu, destroyChilds]
  rfl

theorem vfsItemDestroy_null (h : Below childs)
    (htree : s.tree = .cons rootItem childs .nil) (hitem : item ∈ childs.post)
    (hbad : (∃ v ∈ childs.post, folderPath v.path = item.path) ∨
      ∀ folder, vfsItemFindParent s.tree item.path = some folder →
    folder.path ≠ folderPath item.path) :
    Fails (fun n => vfsItemDestroy n item s) .null := by
  rw [htree] at hbad
  refine .of_succ ?_
  simp only [vfsItemDestroy, htree]
  cases hfind : vfsItemFindParent (.cons rootItem childs .nil) item.path with
  | none => exact .of_forall fun n => rfl
  | some folder =>
      have hmem := h.find_mem (h.nested.inner hitem) hfind
      cases hu : unlink folder.addr item.addr (.cons rootItem childs .nil) with
      | none => exact .of_forall fun n => by simp only [hu]
      | some r =>
          obtain ⟨below, tree⟩ := r
          obtain ⟨folder', hfolder', other, childs', ha, hb, hpath, rfl, htaken⟩ :=
            unlink_tree h hu
          have hother : other ∈ childs.post :=
            (htaken.mem_iff other).mpr (.inr (.inr rfl))
          obtain rfl := h.addr_inj (List.mem_cons_of_mem _ hother)
            (List.mem_cons_of_mem _ hitem) hb
          obtain rfl := h.addr_inj hfolder' hmem ha
          -- the folder is the right one, so there is an item below
          obtain ⟨v, hv, hself⟩ :=
            hbad.resolve_right fun hshown => hshown _ hfind hpath.symm
          have hgone : v ∉ childs'.post := by
            intro hv'
            rcases htaken.rest.linked hv' with ⟨hroot, -⟩ | ⟨w, hlinked⟩
            · exact (h.nested.inner hitem).2 (hself.symm.trans hroot)
            · have hw := hlinked.folder_eq htaken.rest
              exact htaken.not_mem VfsItem.path h.path_nodup (.inr rfl)
                hlinked.mem_post.1 (hself.symm.trans hw)
          have hne : v ≠ other := by
            rintro rfl
            have hlt := (h.nested.inner hitem).folder_above.length_lt
            rw [hself] at hlt
            exact lt_irrefl _ hlt
          have hbelow := (((htaken.mem_iff v).mp hv).resolve_left hgone).resolve_right hne
          cases below with
          | nil => cases hbelow
          | cons child childs₂ next₂ =>
              have hchild :=
                (Branches.roots_sublist_post (.cons child childs₂ next₂)).subset
                  List.mem_cons_self
              simp only [hu]
              exact Fails.bind
                (.of_succ (Fails.bind (destroy_detached h htaken hchild rfl)))

end

end Frozen.Vfs
