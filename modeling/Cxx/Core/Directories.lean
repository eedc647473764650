import Cxx.Core.FileTree
import Mathlib.Data.List.Nodup

/-!
# The directories of a tree

Writing a file leaves the directories as they are, and they decide where a path
name leads to.

* `SameDirs`: two trees with the same directories; `place` is where a path name
  puts a file, which is the same in both, and `resolve_file` where it finds one.
* `find`: the files of a tree whose names satisfy `p`, and `mem_find`,
  `find_nodup`: it has each of them once.
-/
namespace Cxx.FileTree

variable {C : Type} {t t' : FileTree C} {loc : Loc} {path : List Char}

def SameDirs (t t' : FileTree C) : Prop := ∀ loc, t'.isDir loc = t.isDir loc

theorem SameDirs.refl (t : FileTree C) : SameDirs t t := fun _ => rfl

theorem SameDirs.trans {t'' : FileTree C} (h : SameDirs t t') (h' : SameDirs t' t'') :
    SameDirs t t'' :=
  fun loc => (h' loc).trans (h loc)

theorem SameDirs.symm (h : SameDirs t t') : SameDirs t' t := fun loc => (h loc).symm

theorem write_sameDirs (s : Slot t) (content : C) : SameDirs t (t.write s content) := by
  intro loc
  by_cases he : loc = s.loc
  · have hfree : t.isDir s.loc = false := Bool.eq_false_iff.mpr s.not_isDir
    rw [he, hfree]
    simp [isDir, view_write]
  · simp [isDir, view_write, he]

theorem isDir_of_append {p q : Loc} (h : t.isDir (p ++ q)) : t.isDir p := by
  by_contra hp
  have hview : t.view p ≠ some .dir := fun he => hp (isDir_iff.mpr he)
  by_cases hq : q = []
  · rw [hq, List.append_nil] at h
    exact hp h
  · rw [isDir_iff, view_below hview hq] at h
    cases h

/-- The names of a directory lead to it. -/
theorem walk_names {names : List FileName} (hvalid : ∀ name ∈ names, name.Valid) :
    ∀ {loc : Loc}, t.isDir (loc ++ names) → t.walk loc names = some (loc ++ names) := by
  induction names with
  | nil => intro loc _; simp [walk]
  | cons name names ih =>
    intro loc hdir
    have hstep : t.isDir (loc ++ [name]) := by
      apply isDir_of_append (q := names)
      simpa using hdir
    have hsome : (t.view (loc ++ [name])).isSome := by rw [isDir_iff.mp hstep]; rfl
    rw [walk, step_name (hvalid name List.mem_cons_self),
      if_pos ⟨isDir_of_append (q := [name]) hstep, hsome⟩, Option.bind_some,
      ih (fun n hn => hvalid n (List.mem_cons_of_mem _ hn)) (by simpa using hdir)]
    simp

/-! ## Where a path name puts a file -/

/-- A walk that ends in a directory comes by directories only. -/
theorem SameDirs.walk (h : SameDirs t t') {cs : List FileName} {dir : Loc}
    (hdir : t.isDir dir) : ∀ {loc : Loc}, t.walk loc cs = some dir → t'.walk loc cs = some dir := by
  induction cs with
  | nil => exact id
  | cons c cs ih =>
    intro loc hw
    obtain ⟨mid, hstep, hw⟩ := Option.bind_eq_some_iff.mp hw
    have hmid : t.isDir mid := by
      cases cs with
      | nil => cases hw; exact hdir
      | cons d cs =>
        obtain ⟨_, hstep', -⟩ := Option.bind_eq_some_iff.mp hw
        exact isDir_of_step hstep'
    have hstep' : t'.step loc c = some mid := by
      have hsome : (t'.view mid).isSome := by
        rw [isDir_iff.mp ((h mid).trans hmid)]; rfl
      have hlex := step_lexical hstep
      have hloc := isDir_of_step hstep
      unfold lexicalStep at hlex
      unfold step at hstep ⊢
      rw [if_pos hloc] at hstep
      rw [if_pos ((h loc).trans hloc)]
      by_cases hself : c = [] ∨ c = ['.']
      · rw [if_pos hself] at hstep ⊢; exact hstep
      rw [if_neg hself] at hstep hlex ⊢
      by_cases hparent : c = ['.', '.']
      · rw [if_pos hparent] at hstep ⊢; exact hstep
      rw [if_neg hparent] at hlex ⊢
      rw [if_pos (hlex ▸ hsome), hlex]
    rw [FileTree.walk, hstep', Option.bind_some]
    exact ih hw

/-- The location that a file under this path name has. -/
def place (t : FileTree C) (path : List Char) : Option Loc := (t.slot path).map Slot.loc

theorem place_eq_some : t.place path = some loc ↔ ∃ parent name,
    loc = parent ++ [name] ∧ t.walk [] (components path).dropLast = some parent ∧
      name = (components path).getLast?.getD [] ∧ t.isDir parent ∧ name.Valid ∧
      ¬ t.isDir (parent ++ [name]) := by
  unfold place slot
  constructor
  · intro h
    obtain ⟨s, hs, rfl⟩ := Option.map_eq_some_iff.mp h
    obtain ⟨parent, hw, hs⟩ := Option.bind_eq_some_iff.mp hs
    dsimp only at hs
    split at hs
    · rename_i hd
      cases hs
      exact ⟨parent, _, rfl, hw, rfl, hd⟩
    · cases hs
  · intro h
    obtain ⟨parent, name, rfl, hw, rfl, hd⟩ := h
    rw [hw, Option.bind_some]
    dsimp only
    rw [dif_pos hd]
    rfl

theorem SameDirs.place (h : SameDirs t t') : t'.place path = t.place path := by
  have half : ∀ {t t' : FileTree C} {loc : Loc}, SameDirs t t' → t.place path = some loc →
      t'.place path = some loc := by
    intro t t' loc h hp
    obtain ⟨parent, name, rfl, hw, hn, hdir, hv, hfree⟩ := place_eq_some.mp hp
    exact place_eq_some.mpr ⟨parent, name, rfl, h.walk hdir hw, hn, (h parent).trans hdir, hv,
      fun hd => hfree ((h _).symm.trans hd)⟩
  exact Option.ext fun loc => ⟨half h.symm, half h⟩

theorem valid_of_view {parent : Loc} {name : FileName} (hwf : t.WellFormed)
    (h : (t.view (parent ++ [name])).isSome) : name.Valid := by
  unfold view at h
  rw [Option.isSome_map, lookup_append] at h
  obtain ⟨node, hn⟩ := Option.isSome_iff_exists.mp h
  obtain ⟨dir, hl, hn⟩ := Option.bind_eq_some_iff.mp hn
  obtain ⟨child, hc, -⟩ := Option.bind_eq_some_iff.mp hn
  cases hwf.lookup hl with
  | file => cases hc
  | dir _ names _ => exact names _ (mem_of_lookup hc)

/-- A path name leads to a file when there is one where it puts files. -/
theorem resolve_file (hwf : t.WellFormed) {c : C} (hc : t.view loc = some (.file c)) :
    t.resolve path = some loc ↔ t.place path = some loc := by
  have hcs : components path =
      (components path).dropLast ++ [(components path).getLast?.getD []] := by
    have hne : components path ≠ [] := List.splitOn_ne_nil _ _
    rw [List.getLast?_eq_some_getLast hne, Option.getD_some, List.dropLast_append_getLast]
  have hfile : ¬ t.isDir loc := by
    rw [isDir_iff, hc]
    exact fun h => nomatch h
  rw [place_eq_some, resolve]
  generalize (components path).getLast?.getD [] = name at hcs
  generalize (components path).dropLast = cs at hcs
  rw [hcs, walk_append]
  constructor
  · intro h
    obtain ⟨parent, hw, h⟩ := Option.bind_eq_some_iff.mp h
    obtain ⟨_, hstep, h⟩ := Option.bind_eq_some_iff.mp h
    cases h
    have hdir := isDir_of_step hstep
    have hloc := step_lexical hstep
    have hname : loc = parent ++ [name] := by
      unfold lexicalStep at hloc
      by_cases hself : name = [] ∨ name = ['.']
      · rw [if_pos hself] at hloc
        exact absurd (hloc ▸ hdir) hfile
      rw [if_neg hself] at hloc
      by_cases hparent : name = ['.', '.']
      · -- the parent of a directory is a directory
        rw [if_pos hparent] at hloc
        refine absurd ?_ hfile
        rw [hloc]
        rcases List.eq_nil_or_concat parent with rfl | ⟨up, c, rfl⟩
        · exact hdir
        · rw [List.concat_eq_append] at hdir ⊢
          rw [List.dropLast_concat]
          exact isDir_of_append hdir
      · rwa [if_neg hparent] at hloc
    have hsome : (t.view (parent ++ [name])).isSome := by rw [← hname, hc]; rfl
    exact ⟨parent, name, hname, hw, rfl, hdir, valid_of_view hwf hsome, hname ▸ hfile⟩
  · intro h
    obtain ⟨parent, _, rfl, hw, rfl, hdir, hv, -⟩ := h
    rw [hw, Option.bind_some, FileTree.walk, step_name hv, if_pos ⟨hdir, by rw [hc]; rfl⟩]
    rfl

/-! ## All files of a tree -/

mutual

/-- The files whose names satisfy `p`, each with the directory that has it. -/
def find (p : FileName → Bool) (directory : Loc) : FileTree C → List (Loc × FileName)
  | .file _ => []
  | .dir entries => findEntries p directory entries

def findEntries (p : FileName → Bool) (directory : Loc) :
    List (FileName × FileTree C) → List (Loc × FileName)
  | [] => []
  | e :: entries => findEntry p directory e ++ findEntries p directory entries

def findEntry (p : FileName → Bool) (directory : Loc) :
    FileName × FileTree C → List (Loc × FileName)
  | (name, .file _) => if p name then [(directory, name)] else []
  | (name, .dir entries) => findEntries p (directory ++ [name]) entries

end

section
variable {p : FileName → Bool} {directory d : Loc} {name : FileName}
  {entries : List (FileName × FileTree C)}

theorem findEntries_eq : findEntries p directory entries =
    entries.flatMap (findEntry p directory) := by
  induction entries with
  | nil => simp [findEntries]
  | cons e entries ih => rw [findEntries, ih, List.flatMap_cons]

theorem find_dir : find p directory (.dir entries) = entries.flatMap (findEntry p directory) := by
  rw [find, findEntries_eq]

theorem findEntry_dir (name : FileName) : findEntry p directory (name, .dir entries) =
    find p (directory ++ [name]) (.dir entries) := by
  rw [findEntry, find]

theorem mem_find (hwf : t.WellFormed) : ∀ {directory : Loc}, (d, name) ∈ find p directory t ↔
    p name = true ∧ ∃ below c, d = directory ++ below ∧
      t.lookup (below ++ [name]) = some (.file c) := by
  induction hwf with
  | file content =>
    intro directory
    constructor
    · intro h; cases h
    · rintro ⟨-, below, c, -, h⟩
      cases below <;> cases h
  | @dir entries distinct names below ih =>
    intro directory
    rw [find_dir, List.mem_flatMap]
    constructor
    · rintro ⟨⟨n, t⟩, he, h⟩
      have hl := lookup_entry distinct he
      cases t with
      | file c =>
        simp only [findEntry] at h
        split at h
        · simp only [List.mem_singleton, Prod.mk.injEq] at h
          obtain ⟨rfl, rfl⟩ := h
          exact ⟨‹_›, [], c, by simp, by simp only [List.nil_append, lookup, child, hl]; rfl⟩
        · cases h
      | dir entries' =>
        rw [findEntry_dir, ih _ he] at h
        obtain ⟨hp, below, c, rfl, h⟩ := h
        refine ⟨hp, n :: below, c, by simp, ?_⟩
        simp only [List.cons_append, lookup, child, hl, Option.bind_some]
        exact h
    · rintro ⟨hp, below, c, rfl, h⟩
      cases below with
      | nil =>
        obtain ⟨t, hl, h⟩ := Option.bind_eq_some_iff.mp h
        cases h
        exact ⟨(name, .file c), mem_of_lookup hl, by simp [findEntry, hp]⟩
      | cons n below =>
        obtain ⟨t, hl, h⟩ := Option.bind_eq_some_iff.mp h
        have he := mem_of_lookup hl
        refine ⟨(n, t), he, ?_⟩
        cases t with
        | file c' => cases below <;> cases h
        | dir entries' =>
          rw [findEntry_dir, ih _ he]
          exact ⟨hp, below, c, by simp, h⟩

/-- What is found in an entry is found under its name. -/
theorem mem_findEntry {e : FileName × FileTree C} (hwf : e.2.WellFormed)
    (h : (d, name) ∈ findEntry p directory e) : ∃ rest, d ++ [name] = directory ++ e.1 :: rest := by
  obtain ⟨n, t⟩ := e
  cases t with
  | file c =>
    simp only [findEntry] at h
    split at h
    · simp only [List.mem_singleton, Prod.mk.injEq] at h
      obtain ⟨rfl, rfl⟩ := h
      exact ⟨[], rfl⟩
    · cases h
  | dir entries' =>
    rw [findEntry_dir, mem_find hwf] at h
    obtain ⟨-, below, c, rfl, -⟩ := h
    exact ⟨below ++ [name], by simp⟩

theorem find_nodup (hwf : t.WellFormed) : ∀ {directory : Loc}, (find p directory t).Nodup := by
  induction hwf with
  | file content => exact fun {directory} => List.nodup_nil
  | @dir entries distinct names below ih =>
    intro directory
    rw [find_dir, List.nodup_flatMap]
    constructor
    · intro e he
      obtain ⟨n, t⟩ := e
      cases t with
      | file c => simp only [findEntry]; split <;> simp
      | dir entries' => rw [findEntry_dir]; exact ih _ he
    · have hdistinct : entries.Pairwise fun e e' => e.1 ≠ e'.1 := List.pairwise_map.mp distinct
      refine hdistinct.imp_of_mem fun {e e'} he he' hne => ?_
      intro x hx hx'
      obtain ⟨rest, h⟩ := mem_findEntry (below e he) hx
      obtain ⟨rest', h'⟩ := mem_findEntry (below e' he') hx'
      exact hne (List.cons.inj (List.append_cancel_left (h.symm.trans h'))).1

end

end Cxx.FileTree
