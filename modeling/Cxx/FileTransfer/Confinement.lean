import Cxx.FileTransfer.FileManager

/-!
# Where requests reach

Both paths are put together from a directory and the target, and neither the
target nor the path is looked at, include/file_transfer/FileManager.hpp:60-66
and 146-150.

* `opened`: what a request opens or writes; `allowed` is the directory that is
  served to its method. `handleConnection_view`: nothing else is changed.
* `path_confinement`: a request stays in that directory when its target, once it
  has gone up from it, names again what it has left, or begins with "/search".
-/
namespace Cxx.FileTransfer

/-- The entry that a request opens.
mirrors include/file_transfer/FileManager.hpp:29-38 -/
def opened (fs : FileSystem) (request : Request) : Option Loc :=
  match request.method with
  | .get => located fs request.target
  | .post => (fs.ofstream (uploadDirectory ++ request.target)).map FileTree.Slot.loc
  | .other => none

def allowed : Method → Loc
  | .get => rootLoc
  | .post => uploadLoc
  | .other => []

/-- What the target goes up from `base` it comes down again. -/
def Confined (base : Loc) (target : Text) : Prop :=
  base.drop (base.length - (FileTree.relative (FileTree.components target)).1) <+:
    (FileTree.relative (FileTree.components target)).2

instance (base : Loc) (target : Text) : Decidable (Confined base target) :=
  inferInstanceAs (Decidable (_ <+: _))

def Stays (request : Request) : Prop :=
  (request.method = .get ∧ isSearch request.target) ∨
    Confined (allowed request.method) request.target

/-! ## The two paths -/

theorem confined_iff {base : Loc} {target : Text} :
    base <+: FileTree.lexical base (FileTree.components target) ↔ Confined base target :=
  FileTree.prefix_lexical_iff

theorem lexical_get {target : Text} (h : target.head? = some '/') :
    FileTree.lexical [] (FileTree.components (root ++ target)) =
      FileTree.lexical rootLoc (FileTree.components target) := by
  obtain ⟨rest, rfl⟩ : ∃ rest, target = '/' :: rest := List.head?_eq_some_iff.mp h
  rw [FileTree.components_append root_noNul, components_slash, FileTree.lexical,
    List.foldl_append]
  change FileTree.lexical (FileTree.lexical [] (FileTree.components root)) _ = _
  rw [lexical_root]
  rfl

theorem isSearch_take {target : Text} (h : isSearch target) :
    target.take 7 = '/' :: "search".toList := by
  obtain ⟨rest, rfl⟩ := List.isPrefixOf_iff_prefix.mp h
  rfl

theorem loc_of_located {fs : FileSystem} {target : Text} {loc : Loc}
    (h : located fs target = some loc) :
    loc = FileTree.lexical [] (FileTree.components (newPath target (isSearch target))) := by
  obtain ⟨⟨loc', node⟩, hf, rfl⟩ := Option.map_eq_some_iff.mp h
  exact FileTree.walk_lexical (find_eq_some.mp hf).1

/-- A search opens the entry "search" of `root`. -/
theorem loc_of_search {fs : FileSystem} {target : Text} (hs : isSearch target) {loc : Loc}
    (h : located fs target = some loc) : loc = rootLoc ++ ["search".toList] := by
  have hpath : newPath target (isSearch target) = root ++ '/' :: "search".toList := by
    unfold newPath
    rw [hs, ← isSearch_take hs]
    rfl
  rw [loc_of_located h, hpath]
  decide

theorem loc_of_get {fs : FileSystem} {target : Text} (hslash : target.head? = some '/')
    (hs : ¬ isSearch target) {loc : Loc} (h : located fs target = some loc) :
    loc = FileTree.lexical rootLoc (FileTree.components target) := by
  have hpath : newPath target (isSearch target) = root ++ target := by
    unfold newPath
    rw [Bool.eq_false_iff.mpr hs]
    rfl
  rw [loc_of_located h, hpath, lexical_get hslash]

theorem loc_of_post {fs : FileSystem} {target : Text} {outfile : FileTree.Slot fs.tree}
    (h : fs.ofstream (uploadDirectory ++ target) = some outfile) :
    outfile.loc = FileTree.lexical uploadLoc (FileTree.components target) := by
  rw [← lexical_post]
  exact FileTree.slot_lexical (Option.eq_some_of_filter_eq_some h)

/-- A request changes nothing but the entry that it opens, and only a POST changes that. -/
theorem handleConnection_view {fs : FileSystem} {request : Request} {loc : Loc}
    (h : request.method = .post → opened fs request ≠ some loc) :
    (handleConnection fs request).2.tree.view loc = fs.tree.view loc := by
  obtain ⟨method, target, version, keepAlive, body⟩ := request
  cases method with
  | get | other => rfl
  | post =>
    have h : (fs.ofstream (uploadDirectory ++ target)).map FileTree.Slot.loc ≠ some loc := h rfl
    change (handleUpload fs target body).2.tree.view loc = _
    unfold handleUpload
    cases hf : fs.ofstream (uploadDirectory ++ target) with
    | none => rfl
    | some outfile =>
      have hne : loc ≠ outfile.loc := by
        intro he
        rw [hf, Option.map_some, he] at h
        exact h rfl
      exact (FileTree.view_write outfile _ loc).trans (if_neg hne)

/-- **Confinement.** Of the requests that open something, exactly those stay in
the directory served to their method that go no way up without coming back,
and the searches. -/
theorem path_confinement (fs : FileSystem) (request : Request)
    (hslash : request.target.head? = some '/') (loc : Loc) (h : opened fs request = some loc) :
    allowed request.method <+: loc ↔ Stays request := by
  obtain ⟨method, target, version, keepAlive, body⟩ := request
  cases method with
  | other => cases h
  | get =>
    change located fs target = some loc at h
    change rootLoc <+: loc ↔ (Method.get = .get ∧ isSearch target) ∨ Confined rootLoc target
    by_cases hs : isSearch target
    · rw [loc_of_search hs h]
      exact iff_of_true (List.prefix_append _ _) (.inl ⟨rfl, hs⟩)
    · rw [loc_of_get hslash hs h, confined_iff]
      exact ⟨.inr, fun hc => hc.resolve_left fun hc => hs hc.2⟩
  | post =>
    obtain ⟨outfile, hf, rfl⟩ := Option.map_eq_some_iff.mp h
    change uploadLoc <+: outfile.loc ↔ (Method.post = .get ∧ _) ∨ Confined uploadLoc target
    rw [loc_of_post hf, confined_iff]
    exact ⟨.inr, fun hc => hc.resolve_left fun hc => nomatch hc.1⟩

theorem stays_docs : ∃ fs, opened fs ⟨.get, "/docs/..".toList, 11, false, []⟩ = some rootLoc ∧
    Stays ⟨.get, "/docs/..".toList, 11, false, []⟩ := by
  have h : opened (withRoot [("docs".toList, .dir [])] (.single (by decide) .empty))
      ⟨.get, "/docs/..".toList, 11, false, []⟩ = some rootLoc := by decide
  exact ⟨_, h, (path_confinement _ _ rfl _ h).mp List.prefix_rfl⟩

/-- A GET for "/.." lists the directory that has `root` in it. -/
theorem opened_outside : ¬ ∀ fs request loc, request.target.head? = some '/' →
    opened fs request = some loc → allowed request.method <+: loc := by
  intro h
  have hout := h (withRoot [] .empty) ⟨.get, "/..".toList, 11, false, []⟩ rootLoc.dropLast rfl
    (by decide)
  exact absurd hout (by decide)

end Cxx.FileTransfer
