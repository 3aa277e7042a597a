/-
# `Frozen.Vfs.Path` — paths of the file system

`match_path` tells whether a path leads into a folder: the folder's path is followed by
a slash there, or the folder is the root (`matchPath_ne_zero_iff`).  The directory part
of a path is what is before its last slash.

Two entries of one folder are not above the same path (`sibling_above`), so a search can
go down without turning back.
-/
import Mathlib.Tactic

namespace Frozen.Vfs

/-! ## Strings -/

/-- The characters before the terminating null. -/
abbrev Text := List Char

/-- `strrchr`, as the distance from the beginning. -/
def strrchr : Text → Char → Option Nat
  | [], _ => none
  | x :: s, c =>
      match strrchr s c with
      | some i => some (i + 1)
      | none => if x = c then some 0 else none

/-- `strncmp(…) == 0`. -/
def strncmpZero (s t : Text) (n : Nat) : Bool := s.take n = t.take n

/-- `match_path`, after `folder_len` equal characters. -/
def matchPathFrom : Nat → Text → Text → Nat
  | _, _, [] => 0
  | folderLen, [], c2 :: file =>
      if folderLen = 1 ∨ c2 = '/' then (if '/' ∈ file then 1 else 2) else 0
  | folderLen, c1 :: folder, c2 :: file =>
      if c1 = c2 then matchPathFrom (folderLen + 1) folder file else 0

def matchPath (folderpath filepath : Text) : Nat := matchPathFrom 0 folderpath filepath

/-! ## Directories -/

/-- The directory part. -/
def dirname (path : Text) : Text :=
  match strrchr path '/' with
  | some i => path.take i
  | none => []

/-- The path of the folder: the root is `/`. -/
def folderPath (path : Text) : Text := if dirname path = [] then ['/'] else dirname path

/-- An absolute path other than the root. -/
def Inner (path : Text) : Prop := path.head? = some '/' ∧ path ≠ ['/']

instance (path : Text) : Decidable (Inner path) := inferInstanceAs (Decidable (_ ∧ _))

/-- The path leads into the folder. -/
def Above (folder path : Text) : Prop :=
  ∃ c more, path = folder ++ c :: more ∧ (folder.length = 1 ∨ c = '/')

/-- The last name goes on. -/
def Extends (d path : Text) : Prop := ∃ more, '/' ∉ more ∧ path = d ++ more

instance (d path : Text) : Decidable (Extends d path) :=
  decidable_of_iff (d <+: path ∧ '/' ∉ path.drop d.length)
    ⟨fun h => ⟨path.drop d.length, h.2, (List.prefix_iff_eq_append.mp h.1).symm⟩,
      fun ⟨more, hmore, heq⟩ =>
        ⟨⟨more, heq.symm⟩, by rw [heq, List.drop_left]; exact hmore⟩⟩

theorem matchPathFrom_ne_zero_iff (n : Nat) (folder path : Text) :
    matchPathFrom n folder path ≠ 0 ↔
      ∃ c more, path = folder ++ c :: more ∧ (n + folder.length = 1 ∨ c = '/') := by
  induction path generalizing n folder with
  | nil => simp [matchPathFrom]
  | cons c2 file ih =>
      cases folder with
      | nil =>
          have hpos : (if '/' ∈ file then 1 else 2) ≠ 0 := by split <;> decide
          rw [matchPathFrom]
          by_cases hslash : n = 1 ∨ c2 = '/'
          · rw [if_pos hslash]
            exact iff_of_true hpos ⟨c2, file, rfl, hslash⟩
          · rw [if_neg hslash]
            refine iff_of_false (fun h => h rfl) ?_
            rintro ⟨c, more, heq, hor⟩
            obtain ⟨rfl, -⟩ := List.cons.inj heq
            exact hslash hor
      | cons c1 folder =>
          rw [matchPathFrom]
          by_cases hc : c1 = c2
          · rw [if_pos hc, ih, hc]
            have hlen : n + 1 + folder.length = n + (c2 :: folder).length := by
              rw [List.length_cons]
              omega
            simp only [List.cons_append, List.cons.injEq, true_and, hlen]
          · rw [if_neg hc]
            refine iff_of_false (fun h => h rfl) ?_
            rintro ⟨c, more, heq, -⟩
            exact hc (List.cons.inj heq).1.symm

theorem matchPath_ne_zero_iff (folder path : Text) :
    matchPath folder path ≠ 0 ↔ Above folder path := by
  rw [matchPath, matchPathFrom_ne_zero_iff, Nat.zero_add, Above]

theorem strrchr_of_notMem {s : Text} {c : Char} (h : c ∉ s) : strrchr s c = none := by
  induction s with
  | nil => rfl
  | cons x s ih =>
      obtain ⟨hx, hs⟩ := List.ne_and_not_mem_of_not_mem_cons h
      rw [strrchr, ih hs]
      exact if_neg hx.symm

theorem strrchr_append (d : Text) {c : Char} {name : Text} (h : c ∉ name) :
    strrchr (d ++ c :: name) c = some d.length := by
  induction d with
  | nil =>
      rw [List.nil_append, strrchr, strrchr_of_notMem h]
      exact if_pos rfl
  | cons x d ih => rw [List.cons_append, strrchr, ih, List.length_cons]

theorem dirname_append (d : Text) {name : Text} (h : '/' ∉ name) :
    dirname (d ++ '/' :: name) = d := by
  rw [dirname, strrchr_append d h]
  exact List.take_left

theorem exists_name {path : Text} (h : '/' ∈ path) :
    ∃ name, '/' ∉ name ∧ path = dirname path ++ '/' :: name := by
  induction path with
  | nil => cases h
  | cons x s ih =>
      by_cases hs : '/' ∈ s
      · obtain ⟨name, hname, heq⟩ := ih hs
        refine ⟨name, hname, ?_⟩
        have hsplit : x :: s = (x :: dirname s) ++ '/' :: name := by
          rw [List.cons_append, ← heq]
        rw [hsplit, dirname_append _ hname]
      · obtain rfl : x = '/' := ((List.mem_cons.mp h).resolve_right hs).symm
        have hdir : dirname ('/' :: s) = [] := dirname_append [] hs
        exact ⟨s, hs, by rw [hdir, List.nil_append]⟩

theorem Inner.exists_name {path : Text} (h : Inner path) :
    ∃ name, '/' ∉ name ∧ path = dirname path ++ '/' :: name :=
  Vfs.exists_name (List.mem_of_mem_head? h.1)

theorem Inner.length_ne_one {path : Text} (h : Inner path) : path.length ≠ 1 := by
  intro hone
  obtain ⟨c, rfl⟩ := List.length_eq_one_iff.mp hone
  exact h.2 (congrArg (fun c => [c]) (Option.some_inj.mp h.1))

theorem Inner.root_above {path : Text} (h : Inner path) : Above ['/'] path := by
  obtain ⟨hhead, hne⟩ := h
  obtain ⟨rest, rfl⟩ := List.head?_eq_some_iff.mp hhead
  cases rest with
  | nil => exact absurd rfl hne
  | cons c more => exact ⟨c, more, rfl, .inl rfl⟩

theorem Above.trans {u v path : Text} (huv : Above u v) (hv : Above v path) :
    Above u path := by
  obtain ⟨c, x, rfl, hc⟩ := huv
  obtain ⟨b, y, rfl, -⟩ := hv
  exact ⟨c, x ++ b :: y, by simp, hc⟩

theorem Above.length_lt {v path : Text} (h : Above v path) : v.length < path.length := by
  obtain ⟨c, more, rfl, -⟩ := h
  simp

theorem Inner.above_iff {v path : Text} (h : Inner v) :
    Above v path ↔ ∃ more, path = v ++ '/' :: more := by
  constructor
  · rintro ⟨c, more, rfl, hone | rfl⟩
    · exact absurd hone h.length_ne_one
    · exact ⟨more, rfl⟩
  · rintro ⟨more, rfl⟩
    exact ⟨'/', more, rfl, .inr rfl⟩

theorem Inner.folder_above {path : Text} (h : Inner path) :
    Above (folderPath path) path := by
  obtain ⟨name, hname, heq⟩ := h.exists_name
  unfold folderPath
  by_cases hroot : dirname path = []
  · rw [if_pos hroot]
    rw [hroot, List.nil_append] at heq
    cases name with
    | nil => exact absurd heq h.2
    | cons c more => exact ⟨c, more, heq, .inl rfl⟩
  · rw [if_neg hroot]
    exact ⟨'/', name, heq, .inr rfl⟩

/-- The directory part of a path is the root's, or it is a path itself. -/
theorem Inner.dirname_cases {path : Text} (h : Inner path) :
    dirname path = [] ∨ dirname path = ['/'] ∨ Inner (dirname path) := by
  obtain ⟨name, -, heq⟩ := h.exists_name
  have hhead := h.1
  rw [heq] at hhead
  cases hdir : dirname path with
  | nil => exact .inl rfl
  | cons c d =>
      rw [hdir] at hhead
      by_cases hroot : c :: d = ['/']
      · exact .inr (.inl hroot)
      · exact .inr (.inr ⟨hhead, hroot⟩)

theorem Inner.folder_cases {path : Text} (h : Inner path) :
    folderPath path = ['/'] ∧ (dirname path = [] ∨ dirname path = ['/']) ∨
      folderPath path = dirname path ∧ Inner (dirname path) := by
  unfold folderPath
  rcases h.dirname_cases with hd | hd | hd
  · exact .inl ⟨if_pos hd, .inl hd⟩
  · rw [hd]
    exact .inl ⟨rfl, .inr rfl⟩
  · refine .inr ⟨if_neg fun hempty => ?_, hd⟩
    rw [hempty] at hd
    cases hd.1

theorem name_eq {a b x y : Text} (ha : '/' ∉ a) (hb : '/' ∉ b)
    (hx : x = [] ∨ ∃ z, x = '/' :: z) (h : a ++ x = b ++ '/' :: y) : a = b := by
  rcases List.append_eq_append_iff.mp h with ⟨m, rfl, hm⟩ | ⟨m, rfl, hm⟩
  · cases m with
    | nil => exact (List.append_nil a).symm
    | cons c m =>
        rcases hx with rfl | ⟨z, rfl⟩
        · cases hm
        · rw [List.cons_append, List.cons.injEq] at hm
          exact absurd (hm.1 ▸ List.mem_append_right a List.mem_cons_self) hb
  · cases m with
    | nil => exact List.append_nil b
    | cons c m =>
        rw [List.cons_append, List.cons.injEq] at hm
        exact absurd (hm.1 ▸ List.mem_append_right b List.mem_cons_self) ha

/-- Of the entries of a folder, one leads to a path. -/
theorem sibling_above {u v path : Text} (hu : Inner u) (hv : Inner v)
    (hfolder : folderPath u = folderPath v) (hpath : path = u ∨ Above u path)
    (habove : Above v path) : u = v := by
  obtain ⟨a, ha, hua⟩ := hu.exists_name
  obtain ⟨b, hb, hvb⟩ := hv.exists_name
  obtain ⟨y, hy⟩ := hv.above_iff.mp habove
  have hx : ∃ x, path = u ++ x ∧ (x = [] ∨ ∃ z, x = '/' :: z) := by
    rcases hpath with rfl | habove
    · exact ⟨[], (List.append_nil _).symm, .inl rfl⟩
    · obtain ⟨z, hz⟩ := hu.above_iff.mp habove
      exact ⟨'/' :: z, hz, .inr ⟨z, rfl⟩⟩
  obtain ⟨x, hxu, hx⟩ := hx
  have hboth : dirname u ++ '/' :: (a ++ x) = dirname v ++ '/' :: (b ++ '/' :: y) := by
    rw [← List.cons_append, ← List.append_assoc, ← hua, ← List.cons_append,
      ← List.append_assoc, ← hvb, ← hxu, hy]
  unfold folderPath at hfolder
  by_cases hnu : dirname u = []
  · by_cases hnv : dirname v = []
    · rw [hnu, hnv, List.nil_append, List.nil_append, List.cons.injEq] at hboth
      rw [hua, hvb, hnu, hnv, name_eq ha hb hx hboth.2]
    · -- `/a` and `//b`
      rw [if_pos hnu, if_neg hnv] at hfolder
      rw [hnu, ← hfolder] at hboth
      have hempty := name_eq (b := []) ha (List.not_mem_nil) hx (List.cons.inj hboth).2
      rw [hnu, hempty] at hua
      exact absurd hua hu.2
  · by_cases hnv : dirname v = []
    · rw [if_neg hnu, if_pos hnv] at hfolder
      rw [hnv, hfolder] at hboth
      have hempty := name_eq (b := []) hb (List.not_mem_nil) (.inr ⟨y, rfl⟩)
          (List.cons.inj hboth).2.symm
      rw [hnv, hempty] at hvb
      exact absurd hvb hv.2
    · rw [if_neg hnu, if_neg hnv] at hfolder
      rw [hfolder, List.append_cancel_left_eq, List.cons.injEq] at hboth
      rw [hua, hvb, hfolder, name_eq ha hb hx hboth.2]

/-! ## Names that go on -/

variable {d path : Text}

theorem Extends.folder_eq (hd : Inner d) (h : Extends d path) :
    folderPath path = folderPath d := by
  obtain ⟨more, hmore, rfl⟩ := h
  obtain ⟨name, hname, heq⟩ := hd.exists_name
  have hlong : '/' ∉ name ++ more :=
    fun hmem => (List.mem_append.mp hmem).elim hname hmore
  have hdir : dirname (d ++ more) = dirname d := by
    rw [heq, List.append_assoc, List.cons_append, dirname_append _ hlong,
      dirname_append _ hname]
  rw [folderPath, folderPath, hdir]

/-- What begins like a path, and is in a folder above it, goes on with its last name. -/
theorem extends_of_append {more : Text} (hpath : Inner (d ++ more))
    (h : Above (folderPath (d ++ more)) d) : Extends d (d ++ more) := by
  obtain ⟨name, hname, heq⟩ := hpath.exists_name
  obtain ⟨c, r, hr, -⟩ := h
  refine ⟨more, fun hslash => hname ?_, rfl⟩
  unfold folderPath at hr
  by_cases hroot : dirname (d ++ more) = []
  · rw [if_pos hroot] at hr
    rw [hroot] at heq
    rw [hr] at heq
    rw [← (List.cons.inj heq).2]
    exact List.mem_append_right _ hslash
  · rw [if_neg hroot] at hr
    have hcut : dirname (d ++ more) ++ c :: (r ++ more) = dirname (d ++ more) ++
        '/' :: name := by
      rw [← heq, ← List.cons_append, ← List.append_assoc, ← hr]
    rw [List.append_cancel_left_eq, List.cons.injEq] at hcut
    rw [← hcut.2]
    exact List.mem_append_right _ hslash

theorem Extends.above {v : Text} (h : Extends d path) (hv : Inner v) :
    Above v path ↔ Above v d := by
  obtain ⟨more, hmore, rfl⟩ := h
  rw [hv.above_iff, hv.above_iff]
  constructor
  · rintro ⟨y, hy⟩
    rcases List.append_eq_append_iff.mp hy with ⟨m, rfl, hm⟩ | ⟨m, rfl, hm⟩
    · exact absurd (hm ▸ List.mem_append_right m List.mem_cons_self) hmore
    · cases m with
      | nil =>
          rw [List.nil_append] at hm
          exact absurd (hm ▸ List.mem_cons_self) hmore
      | cons c m =>
          rw [List.cons_append, List.cons.injEq] at hm
          exact ⟨m, by rw [hm.1]⟩
  · rintro ⟨y, rfl⟩
    exact ⟨y ++ more, by simp⟩

/-- Whoever is above an entry of a directory, and does not begin with it, is
above the directory. -/
theorem above_append_iff {v name : Text} (hv : Inner v) (hno : ¬ ∃ more, v = d ++ more) :
    Above v (d ++ '/' :: name) ↔ Above v d := by
  rw [hv.above_iff, hv.above_iff]
  constructor
  · rintro ⟨y, hy⟩
    rcases List.append_eq_append_iff.mp hy with ⟨m, rfl, -⟩ | ⟨m, rfl, hm⟩
    · exact absurd ⟨m, rfl⟩ hno
    · cases m with
      | nil => exact absurd ⟨[], by simp⟩ hno
      | cons c m =>
          rw [List.cons_append, List.cons.injEq] at hm
          exact ⟨m, by rw [hm.1]⟩
  · rintro ⟨y, rfl⟩
    exact ⟨y ++ '/' :: name, by simp⟩

end Frozen.Vfs
