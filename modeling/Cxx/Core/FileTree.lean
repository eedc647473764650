import Mathlib.Data.List.Basic
import Mathlib.Data.List.Nodup
import Mathlib.Data.List.TakeWhile

/-!
# Directory trees and path names

A tree of directories and files with contents in `C`, without links, and the
resolution of path names in it. A location is the list of the names from the
top of the tree down to an entry. Names and path names have no greatest length.

* `view`: what is at a location. `put` writes a file; `view_put` says what is
  where afterwards.
* `resolve`: the location of an absolute path name, by a walk over its
  components. `walk_lexical`: without links a walk ends where the components
  say, whatever the tree has; `prefix_lexical_iff` says when that is below the
  location it started from.
-/
namespace Cxx

abbrev FileName := List Char

/-- The names from the top down. -/
abbrev Loc := List FileName

inductive FileTree (C : Type) where
  | file (content : C)
  | dir (entries : List (FileName × FileTree C))

/-- What can be seen of an entry without looking into it. -/
inductive Kind (C : Type) where
  | file (content : C)
  | dir
  deriving DecidableEq, Repr

/-- A name that an entry can have. -/
structure FileName.Valid (name : FileName) : Prop where
  nonempty : name ≠ []
  noSlash : '/' ∉ name
  noNul : Char.ofNat 0 ∉ name
  notSelf : name ≠ ['.']
  notParent : name ≠ ['.', '.']

instance (name : FileName) : Decidable name.Valid :=
  decidable_of_iff (name ≠ [] ∧ '/' ∉ name ∧ Char.ofNat 0 ∉ name ∧ name ≠ ['.'] ∧ name ≠ ['.', '.'])
    ⟨fun ⟨h₁, h₂, h₃, h₄, h₅⟩ => ⟨h₁, h₂, h₃, h₄, h₅⟩,
      fun ⟨h₁, h₂, h₃, h₄, h₅⟩ => ⟨h₁, h₂, h₃, h₄, h₅⟩⟩

namespace FileTree

variable {C : Type}

inductive WellFormed : FileTree C → Prop
  | file (content : C) : WellFormed (.file content)
  | dir {entries : List (FileName × FileTree C)} (distinct : (entries.map Prod.fst).Nodup)
      (names : ∀ e ∈ entries, e.1.Valid) (below : ∀ e ∈ entries, WellFormed e.2) :
      WellFormed (.dir entries)

def kind : FileTree C → Kind C
  | .file content => .file content
  | .dir _ => .dir

/-- The entry of a name. -/
def child : FileTree C → FileName → Option (FileTree C)
  | .file _, _ => none
  | .dir entries, name => entries.lookup name

def lookup : FileTree C → Loc → Option (FileTree C)
  | t, [] => some t
  | t, name :: loc => (t.child name).bind fun t' => t'.lookup loc

def view (t : FileTree C) (loc : Loc) : Option (Kind C) := (t.lookup loc).map kind

def isDir (t : FileTree C) (loc : Loc) : Bool :=
  match t.view loc with
  | some .dir => true
  | _ => false

theorem isDir_iff {t : FileTree C} {loc : Loc} : t.isDir loc ↔ t.view loc = some .dir := by
  unfold isDir
  cases t.view loc with
  | none => simp
  | some k => cases k <;> simp

theorem isDir_of_lookup {t : FileTree C} {loc : Loc} {entries : List (FileName × FileTree C)}
    (h : t.lookup loc = some (.dir entries)) : t.isDir loc := by
  rw [isDir_iff, view, h]
  rfl

theorem lookup_append {t : FileTree C} {p q : Loc} :
    t.lookup (p ++ q) = (t.lookup p).bind fun t' => t'.lookup q := by
  induction p generalizing t with
  | nil => rfl
  | cons name p ih =>
    simp only [List.cons_append, lookup, Option.bind_assoc]
    congr
    funext t'
    exact ih

/-- An entry of a directory of a well-formed tree is the one found under its name. -/
theorem lookup_entry {entries : List (FileName × FileTree C)} {e : FileName × FileTree C}
    (h : (entries.map Prod.fst).Nodup) (he : e ∈ entries) : entries.lookup e.1 = some e.2 := by
  obtain ⟨before, after, rfl⟩ := List.append_of_mem he
  refine List.lookup_eq_some_iff.mpr ⟨before, after, rfl, fun p hp => ?_⟩
  rw [List.map_append, List.nodup_append] at h
  have hne := h.2.2 p.1 (List.mem_map_of_mem hp) e.1 (by simp)
  simpa using Ne.symm hne

theorem mem_of_lookup {entries : List (FileName × FileTree C)} {name : FileName} {t : FileTree C}
    (h : entries.lookup name = some t) : (name, t) ∈ entries := by
  obtain ⟨before, after, rfl, -⟩ := List.lookup_eq_some_iff.mp h
  simp

theorem WellFormed.child {t t' : FileTree C} {name : FileName} (h : t.WellFormed)
    (hc : t.child name = some t') : t'.WellFormed := by
  cases h with
  | file => cases hc
  | dir _ _ below => exact below _ (mem_of_lookup hc)

theorem WellFormed.lookup {t t' : FileTree C} {loc : Loc} (h : t.WellFormed)
    (hl : t.lookup loc = some t') : t'.WellFormed := by
  induction loc generalizing t with
  | nil => cases hl; exact h
  | cons name loc ih =>
    obtain ⟨t₁, hc, hl⟩ := Option.bind_eq_some_iff.mp hl
    exact ih (h.child hc) hl

theorem WellFormed.single {name : FileName} {t : FileTree C} (hname : name.Valid)
    (h : t.WellFormed) : (FileTree.dir [(name, t)]).WellFormed := by
  refine .dir (List.nodup_singleton _) (fun e he => ?_) (fun e he => ?_)
  · rw [List.mem_singleton.mp he]; exact hname
  · rw [List.mem_singleton.mp he]; exact h

theorem WellFormed.empty : (FileTree.dir [] : FileTree C).WellFormed :=
  .dir List.nodup_nil (List.forall_mem_nil _) (List.forall_mem_nil _)

/-! ## Writing a file -/

/-- The entries with `t` under `name`. -/
def replace (name : FileName) (t : FileTree C) :
    List (FileName × FileTree C) → List (FileName × FileTree C)
  | [] => [(name, t)]
  | e :: entries => if e.1 = name then (name, t) :: entries else e :: replace name t entries

theorem lookup_cons_if {name m : FileName} {t : FileTree C}
    {entries : List (FileName × FileTree C)} :
    ((name, t) :: entries).lookup m = if m = name then some t else entries.lookup m := by
  by_cases hm : m = name
  · rw [if_pos hm, hm, List.lookup_cons_self]
  · rw [if_neg hm, List.lookup_cons, beq_eq_false_iff_ne.mpr hm]

theorem lookup_replace {name m : FileName} {t : FileTree C}
    {entries : List (FileName × FileTree C)} :
    (replace name t entries).lookup m = if m = name then some t else entries.lookup m := by
  induction entries with
  | nil => exact lookup_cons_if
  | cons e entries ih =>
    obtain ⟨n, t'⟩ := e
    unfold replace
    by_cases hn : n = name
    · subst hn
      rw [if_pos rfl, lookup_cons_if, lookup_cons_if]
      by_cases hm : m = n
      · rw [if_pos hm, if_pos hm]
      · rw [if_neg hm, if_neg hm, if_neg hm]
    · rw [if_neg hn, lookup_cons_if, ih, lookup_cons_if]
      by_cases hm : m = n
      · have hne : m ≠ name := fun he => hn (hm.symm.trans he)
        rw [if_pos hm, if_neg hne, if_pos hm]
      · rw [if_neg hm, if_neg hm]

theorem mem_replace {name : FileName} {t : FileTree C} {entries : List (FileName × FileTree C)}
    {e : FileName × FileTree C} (h : e ∈ replace name t entries) :
    e = (name, t) ∨ e ∈ entries := by
  induction entries with
  | nil => exact .inl (List.mem_singleton.mp h)
  | cons e' entries ih =>
    unfold replace at h
    split at h
    · exact (List.mem_cons.mp h).imp_right fun h => List.mem_cons_of_mem _ h
    · rcases List.mem_cons.mp h with rfl | h
      · exact .inr List.mem_cons_self
      · exact (ih h).imp_right fun h => List.mem_cons_of_mem _ h

theorem replace_distinct {name : FileName} {t : FileTree C} {entries : List (FileName × FileTree C)}
    (h : (entries.map Prod.fst).Nodup) : ((replace name t entries).map Prod.fst).Nodup := by
  induction entries with
  | nil => exact List.nodup_singleton _
  | cons e entries ih =>
    obtain ⟨hnew, hrest⟩ := List.nodup_cons.mp h
    unfold replace
    by_cases hn : e.1 = name
    · rw [if_pos hn, List.map_cons, ← hn]
      exact h
    · rw [if_neg hn, List.map_cons]
      refine List.nodup_cons.mpr ⟨fun hm => ?_, ih hrest⟩
      obtain ⟨e', he', heq⟩ := List.mem_map.mp hm
      rcases mem_replace he' with rfl | he'
      · exact hn heq.symm
      · exact hnew (List.mem_map.mpr ⟨e', he', heq⟩)

/-- A file with `content` at a location; where a file is in the way nothing changes. -/
def put (content : C) : Loc → FileTree C → FileTree C
  | [], _ => .file content
  | _ :: _, .file c => .file c
  | name :: loc, .dir entries =>
    .dir (replace name (put content loc ((entries.lookup name).getD (.dir []))) entries)

/-- A place where a file can be written: a name in a directory, which is not that
of a directory. -/
structure Slot (t : FileTree C) where
  parent : Loc
  name : FileName
  inDir : t.view parent = some .dir
  valid : name.Valid
  free : t.view (parent ++ [name]) ≠ some .dir

def Slot.loc {t : FileTree C} (slot : Slot t) : Loc := slot.parent ++ [slot.name]

theorem view_cons {t : FileTree C} {name : FileName} {loc : Loc} :
    t.view (name :: loc) = (t.child name).bind fun t' => t'.view loc := by
  unfold view
  rw [lookup, Option.map_bind]
  rfl

/-- Behind a file there is nothing. -/
theorem view_file {content : C} {loc : Loc} :
    (FileTree.file content).view loc = if loc = [] then some (.file content) else none := by
  cases loc <;> rfl

/-- Below what is not a directory there is nothing. -/
theorem view_below {t : FileTree C} {p q : Loc} (hp : t.view p ≠ some .dir) (hq : q ≠ []) :
    t.view (p ++ q) = none := by
  unfold view at hp ⊢
  rw [lookup_append]
  cases hl : t.lookup p with
  | none => rfl
  | some t' =>
    cases t' with
    | dir entries => rw [hl] at hp; exact absurd rfl hp
    | file c =>
      change (FileTree.file c).view q = none
      rw [view_file, if_neg hq]

/-- What differs from an entry at one location, put in its place, differs from
the directory at one location. -/
theorem view_replace {name : FileName} {t : FileTree C} {entries : List (FileName × FileTree C)}
    {p : Loc} {k : Option (Kind C)}
    (h : ∀ q, t.view q = if q = p then k else (FileTree.dir entries).view (name :: q)) (q : Loc) :
    (FileTree.dir (replace name t entries)).view q =
      if q = name :: p then k else (FileTree.dir entries).view q := by
  cases q with
  | nil => rfl
  | cons m q =>
    rw [view_cons]
    change ((replace name t entries).lookup m).bind _ = _
    rw [lookup_replace]
    by_cases hm : m = name
    · subst hm
      rw [if_pos rfl, Option.bind_some, h]
      exact if_congr ⟨congrArg _, fun he => (List.cons.inj he).2⟩ rfl rfl
    · rw [if_neg hm, if_neg fun he => hm (List.cons.inj he).1, view_cons]
      rfl

theorem view_put {content : C} {name : FileName} {parent : Loc} : ∀ {t : FileTree C},
    t.view parent = some .dir → t.view (parent ++ [name]) ≠ some .dir → ∀ q,
    (put content (parent ++ [name]) t).view q =
      if q = parent ++ [name] then some (.file content) else t.view q := by
  induction parent with
  | nil =>
    intro t hdir hfree
    cases t with
    | file c => cases hdir
    | dir entries =>
      refine view_replace fun q => ?_
      change (FileTree.file content).view q = _
      rw [view_file]
      by_cases hq : q = []
      · rw [if_pos hq, if_pos hq]
      · rw [if_neg hq, if_neg hq]
        exact (view_below hfree hq).symm
  | cons n parent ih =>
    intro t hdir hfree
    cases t with
    | file c => cases hdir
    | dir entries =>
      rw [view_cons] at hdir
      obtain ⟨t', hl, hparent⟩ := Option.bind_eq_some_iff.mp hdir
      have hview : ∀ q, (FileTree.dir entries).view (n :: q) = t'.view q := by
        intro q
        rw [view_cons, hl, Option.bind_some]
      have hl : entries.lookup n = some t' := hl
      rw [List.cons_append, hview] at hfree
      rw [List.cons_append, put, hl, Option.getD_some]
      refine view_replace fun q => ?_
      rw [ih hparent hfree, hview]

theorem put_wellFormed {content : C} {name : FileName} {parent : Loc} (hname : name.Valid) :
    ∀ {t : FileTree C}, t.WellFormed → t.view parent = some .dir →
    (put content (parent ++ [name]) t).WellFormed := by
  induction parent with
  | nil =>
    intro t h hdir
    cases h with
    | file c => cases hdir
    | dir distinct names below =>
      refine .dir (replace_distinct distinct) (fun e he => ?_) (fun e he => ?_)
      · rcases mem_replace he with rfl | he
        · exact hname
        · exact names e he
      · rcases mem_replace he with rfl | he
        · exact .file content
        · exact below e he
  | cons n parent ih =>
    intro t h hdir
    cases h with
    | file c => cases hdir
    | @dir entries distinct names below =>
      rw [view_cons] at hdir
      obtain ⟨t', hl, hdir⟩ := Option.bind_eq_some_iff.mp hdir
      have hl : entries.lookup n = some t' := hl
      have hmem := mem_of_lookup hl
      rw [List.cons_append, put, hl, Option.getD_some]
      refine .dir (replace_distinct distinct) (fun e he => ?_) (fun e he => ?_)
      · rcases mem_replace he with rfl | he
        · exact names (n, t') hmem
        · exact names e he
      · rcases mem_replace he with rfl | he
        · exact ih (below _ hmem) hdir
        · exact below e he

/-! ## Path names -/

/-- A path name as the system reads it: up to the first NUL. -/
def cString (path : List Char) : List Char := path.takeWhile (· != Char.ofNat 0)

def components (path : List Char) : List FileName := (cString path).splitOn '/'

theorem components_append {a b : List Char} (ha : Char.ofNat 0 ∉ a) :
    components (a ++ '/' :: b) = components a ++ components b := by
  have hall : ∀ c ∈ a, (c != Char.ofNat 0) = true := by
    intro c hc
    exact bne_iff_ne.mpr fun he => ha (he ▸ hc)
  have hcut : cString (a ++ '/' :: b) = a ++ '/' :: cString b := by
    unfold cString
    rw [List.takeWhile_append_of_pos hall, List.takeWhile_cons_of_pos (by decide)]
  have hwhole : cString a = a := List.takeWhile_eq_self_iff.mpr hall
  rw [components, hcut, List.splitOn_append_cons_self, components, components, hwhole]

theorem components_name {name : FileName} (h : name.Valid) : components name = [name] := by
  have hwhole : cString name = name := by
    refine List.takeWhile_eq_self_iff.mpr fun c hc => ?_
    exact bne_iff_ne.mpr fun he => h.noNul (he ▸ hc)
  rw [components, hwhole, List.splitOn_eq_singleton h.noSlash]

/-- One component from a location on. -/
def step (t : FileTree C) (loc : Loc) (c : FileName) : Option Loc :=
  if t.isDir loc then
    if c = [] ∨ c = ['.'] then some loc
    else if c = ['.', '.'] then some loc.dropLast
    else if (t.view (loc ++ [c])).isSome then some (loc ++ [c]) else none
  else none

def walk (t : FileTree C) : Loc → List FileName → Option Loc
  | loc, [] => some loc
  | loc, c :: cs => (t.step loc c).bind fun loc' => t.walk loc' cs

/-- The entry that an absolute path name leads to. -/
def resolve (t : FileTree C) (path : List Char) : Option Loc := t.walk [] (components path)

/-- Where a component leads if the tree has all that it needs. -/
def lexicalStep (loc : Loc) (c : FileName) : Loc :=
  if c = [] ∨ c = ['.'] then loc
  else if c = ['.', '.'] then loc.dropLast
  else loc ++ [c]

def lexical (loc : Loc) (cs : List FileName) : Loc := cs.foldl lexicalStep loc

theorem walk_append {t : FileTree C} {loc : Loc} {cs ds : List FileName} :
    t.walk loc (cs ++ ds) = (t.walk loc cs).bind fun loc' => t.walk loc' ds := by
  induction cs generalizing loc with
  | nil => rfl
  | cons c cs ih =>
    simp only [List.cons_append, walk, Option.bind_assoc]
    congr
    funext loc'
    exact ih

theorem step_lexical {t : FileTree C} {loc loc' : Loc} {c : FileName}
    (h : t.step loc c = some loc') : loc' = lexicalStep loc c := by
  unfold step at h
  unfold lexicalStep
  split at h
  · split at h
    · cases h; rw [if_pos ‹_›]
    · rw [if_neg ‹_›]
      split at h
      · cases h; rw [if_pos ‹_›]
      · rw [if_neg ‹_›]
        split at h <;> cases h
        rfl
  · cases h

/-- Without links a walk ends where the components say. -/
theorem walk_lexical {t : FileTree C} {loc loc' : Loc} {cs : List FileName}
    (h : t.walk loc cs = some loc') : loc' = lexical loc cs := by
  induction cs generalizing loc with
  | nil => cases h; rfl
  | cons c cs ih =>
    obtain ⟨loc₁, hstep, h⟩ := Option.bind_eq_some_iff.mp h
    rw [ih h, step_lexical hstep]
    rfl

theorem isDir_of_step {t : FileTree C} {loc loc' : Loc} {c : FileName}
    (h : t.step loc c = some loc') : t.isDir loc := by
  unfold step at h
  by_cases hd : t.isDir loc
  · exact hd
  · rw [if_neg hd] at h; cases h

theorem step_empty {t : FileTree C} {loc loc' : Loc} (h : t.step loc [] = some loc') :
    loc' = loc := by
  unfold step at h
  rw [if_pos (isDir_of_step h), if_pos (.inl rfl)] at h
  exact (Option.some.inj h).symm

/-- The step to an entry of a directory. -/
theorem step_name {t : FileTree C} {loc : Loc} {name : FileName} (hname : name.Valid) :
    t.step loc name =
      if t.isDir loc ∧ (t.view (loc ++ [name])).isSome then some (loc ++ [name]) else none := by
  have hself : ¬ (name = [] ∨ name = ['.']) := fun h => h.elim hname.nonempty hname.notSelf
  unfold step
  rw [if_neg hself, if_neg hname.notParent]
  by_cases hd : t.isDir loc
  · rw [if_pos hd]
    exact if_congr (iff_and_self.mpr fun _ => hd) rfl rfl
  · rw [if_neg hd, if_neg fun h => hd h.1]

/-- An empty component changes nothing. -/
theorem walk_skip {t : FileTree C} {loc loc' : Loc} {cs ds : List FileName}
    (h : t.walk loc (cs ++ [] :: ds) = some loc') : t.walk loc (cs ++ ds) = some loc' := by
  rw [walk_append] at h ⊢
  obtain ⟨mid, hcs, h⟩ := Option.bind_eq_some_iff.mp h
  obtain ⟨mid', hstep, h⟩ := Option.bind_eq_some_iff.mp h
  rw [hcs, Option.bind_some, ← step_empty hstep]
  exact h

theorem resolve_append {t : FileTree C} {a b : List Char} (ha : Char.ofNat 0 ∉ a) :
    t.resolve (a ++ '/' :: b) = (t.resolve a).bind fun loc => t.walk loc (components b) := by
  rw [resolve, components_append ha, walk_append]
  rfl

/-- A walk does not come by a place that is not a directory, so what is there
does not matter to a walk that ends elsewhere. -/
theorem walk_congr {t t' : FileTree C} {p : Loc} (hview : ∀ q, q ≠ p → t'.view q = t.view q)
    (hp : ¬ t.isDir p) {loc' : Loc} (hne : loc' ≠ p) {cs : List FileName} : ∀ {loc : Loc},
    t.walk loc cs = some loc' → t'.walk loc cs = some loc' := by
  have hdir : ∀ {q}, t.isDir q → t'.isDir q := by
    intro q hq
    have hqp : q ≠ p := fun he => hp (he ▸ hq)
    rw [isDir_iff, hview q hqp, ← isDir_iff]
    exact hq
  induction cs with
  | nil => exact id
  | cons c cs ih =>
    intro loc h
    obtain ⟨mid, hstep, h⟩ := Option.bind_eq_some_iff.mp h
    have hmid : mid ≠ p := by
      cases cs with
      | nil => cases h; exact hne
      | cons d cs =>
        obtain ⟨_, hstep', -⟩ := Option.bind_eq_some_iff.mp h
        exact fun he => hp (he ▸ isDir_of_step hstep')
    have hstep' : t'.step loc c = some mid := by
      have hd := isDir_of_step hstep
      have hmid' := step_lexical hstep
      unfold lexicalStep at hmid'
      unfold step at hstep ⊢
      rw [if_pos hd] at hstep
      rw [if_pos (hdir hd)]
      by_cases hself : c = [] ∨ c = ['.']
      · rw [if_pos hself] at hstep ⊢; exact hstep
      rw [if_neg hself] at hstep hmid' ⊢
      by_cases hparent : c = ['.', '.']
      · rw [if_pos hparent] at hstep ⊢; exact hstep
      rw [if_neg hparent] at hstep hmid' ⊢
      rw [hview _ (hmid' ▸ hmid)]
      exact hstep
    rw [walk, hstep', Option.bind_some]
    exact ih h

/-! ## Opening a file for writing -/

/-- The place that an absolute path name gives to a file: the last component is
a name in the directory that the others lead to. -/
def slot (t : FileTree C) (path : List Char) : Option (Slot t) :=
  (t.walk [] (components path).dropLast).bind fun parent =>
    let name := (components path).getLast?.getD []
    if h : t.isDir parent ∧ name.Valid ∧ ¬ t.isDir (parent ++ [name]) then
      some ⟨parent, name, isDir_iff.mp h.1, h.2.1, fun hd => h.2.2 (isDir_iff.mpr hd)⟩
    else none

theorem slot_spec {t : FileTree C} {path : List Char} {s : Slot t} (h : t.slot path = some s) :
    ∃ cs, components path = cs ++ [s.name] ∧ t.walk [] cs = some s.parent := by
  obtain ⟨parent, hwalk, h⟩ := Option.bind_eq_some_iff.mp h
  have hne : components path ≠ [] := List.splitOn_ne_nil _ _
  dsimp only at h
  split at h
  · cases h
    refine ⟨(components path).dropLast, ?_, hwalk⟩
    change _ = _ ++ [(components path).getLast?.getD []]
    rw [List.getLast?_eq_some_getLast hne, Option.getD_some, List.dropLast_append_getLast]
  · cases h

/-- The place is where the components say. -/
theorem slot_lexical {t : FileTree C} {path : List Char} {s : Slot t} (h : t.slot path = some s) :
    s.loc = lexical [] (components path) := by
  obtain ⟨cs, hcs, hwalk⟩ := slot_spec h
  have hself : ¬ (s.name = [] ∨ s.name = ['.']) := fun h => h.elim s.valid.nonempty s.valid.notSelf
  rw [hcs, lexical, List.foldl_append]
  change _ = lexicalStep (lexical [] cs) s.name
  rw [← walk_lexical hwalk, lexicalStep, if_neg hself, if_neg s.valid.notParent]
  rfl

/-- A file with `content` in a place for it. -/
def write (t : FileTree C) (s : Slot t) (content : C) : FileTree C := put content s.loc t

theorem view_write {t : FileTree C} (s : Slot t) (content : C) (q : Loc) :
    (t.write s content).view q = if q = s.loc then some (.file content) else t.view q :=
  view_put s.inDir s.free q

theorem WellFormed.write {t : FileTree C} (h : t.WellFormed) (s : Slot t) (content : C) :
    (t.write s content).WellFormed := put_wellFormed s.valid h s.inDir

theorem Slot.not_isDir {t : FileTree C} (s : Slot t) : ¬ t.isDir s.loc :=
  fun h => s.free (isDir_iff.mp h)

theorem Slot.parent_ne {t : FileTree C} (s : Slot t) : s.parent ≠ s.loc := by
  intro h
  have := congrArg List.length h
  rw [Slot.loc, List.length_append, List.length_singleton] at this
  omega

/-- What has been written is found where it was written. -/
theorem walk_write {t : FileTree C} {s : Slot t} {content : C} {cs : List FileName}
    (h : t.walk [] cs = some s.parent) :
    (t.write s content).walk [] (cs ++ [s.name]) = some s.loc := by
  have hview : ∀ q, q ≠ s.loc → (t.write s content).view q = t.view q := by
    intro q hq
    rw [view_write, if_neg hq]
  rw [walk_append, walk_congr hview s.not_isDir s.parent_ne h, Option.bind_some]
  have hdir : (t.write s content).isDir s.parent := by
    rw [isDir_iff, hview _ s.parent_ne]
    exact s.inDir
  have hsome : ((t.write s content).view (s.parent ++ [s.name])).isSome := by
    rw [view_write, if_pos (show s.parent ++ [s.name] = s.loc from rfl)]
    rfl
  rw [walk, step_name s.valid, if_pos ⟨hdir, hsome⟩]
  rfl

/-! ## Components relative to where they start -/

/-- The steps up that are left, and the names behind them. -/
def relativeStep (p : Nat × Loc) (c : FileName) : Nat × Loc :=
  if c = [] ∨ c = ['.'] then p
  else if c = ['.', '.'] then if p.2 = [] then (p.1 + 1, []) else (p.1, p.2.dropLast)
  else (p.1, p.2 ++ [c])

def relative (cs : List FileName) : Nat × Loc := cs.foldl relativeStep (0, [])

/-- `p.1` levels up from `base`, then down `p.2`. -/
def upDown (base : Loc) (p : Nat × Loc) : Loc := base.take (base.length - p.1) ++ p.2

theorem lexicalStep_upDown {base : Loc} {p : Nat × Loc} {c : FileName} :
    lexicalStep (upDown base p) c = upDown base (relativeStep p c) := by
  obtain ⟨ups, names⟩ := p
  unfold lexicalStep relativeStep
  by_cases hself : c = [] ∨ c = ['.']
  · rw [if_pos hself, if_pos hself]
  rw [if_neg hself, if_neg hself]
  by_cases hparent : c = ['.', '.']
  · rw [if_pos hparent, if_pos hparent]
    by_cases hnames : names = []
    · subst hnames
      rw [if_pos rfl]
      unfold upDown
      rw [List.append_nil, List.append_nil, List.dropLast_eq_take, List.take_take,
        List.length_take]
      congr 1
      omega
    · rw [if_neg hnames]
      exact List.dropLast_append_of_ne_nil hnames
  · rw [if_neg hparent, if_neg hparent]
    exact List.append_assoc _ _ _

theorem lexical_relative {base : Loc} {cs : List FileName} :
    lexical base cs = upDown base (relative cs) := by
  have run : ∀ p : Nat × Loc,
      lexical (upDown base p) cs = upDown base (cs.foldl relativeStep p) := by
    induction cs with
    | nil => exact fun p => rfl
    | cons c cs ih =>
      intro p
      rw [List.foldl_cons, ← ih, ← lexicalStep_upDown]
      rfl
  have hstart : upDown base (0, []) = base := by
    unfold upDown
    rw [Nat.sub_zero, List.take_length, List.append_nil]
  have h := run (0, [])
  rwa [hstart] at h

/-- Components stay below where they start when they name again what they have gone up. -/
theorem prefix_lexical_iff {base : Loc} {cs : List FileName} :
    base <+: lexical base cs ↔
      base.drop (base.length - (relative cs).1) <+: (relative cs).2 := by
  rw [lexical_relative, upDown]
  generalize base.length - (relative cs).1 = k
  have hsplit := List.take_append_drop k base
  conv_lhs => lhs; rw [← hsplit]
  exact List.prefix_append_right_inj _

end FileTree

end Cxx
