import Cxx.FileTransfer.FileManager

/-!
# What an upload leaves

`handleUpload` never asks its stream whether it failed,
include/file_transfer/FileManager.hpp:146-161.

* `Stored`: the file could be opened and took the whole body.
* `upload_truthful`: the answer is truthful exactly for an upload that was
  stored, where the target begins with a slash as the targets of files do.
-/
namespace Cxx.FileTransfer

/-- The content of the file at a location. -/
def content (fs : FileSystem) (loc : Loc) : Option Text :=
  match fs.tree.view loc with
  | some (.file content) => some content
  | _ => none

/-- The client is told that `filename` was uploaded. -/
def Success (filename : Text) (response : Response) : Prop :=
  response.status = 200 ∧
    response.body = .text ("File '".toList ++ filename ++ "' uploaded successfully".toList)

/-- The file can be opened for writing and takes the whole of `body`. -/
def Stored (fs : FileSystem) (filename body : Text) : Prop :=
  ∃ outfile, fs.ofstream (uploadDirectory ++ filename) = some outfile ∧
    body.length ≤ fs.room outfile.loc

/-- The target that is to give the file back. -/
def uploadTarget (filename : Text) : Text := "/upload".toList ++ filename

/-- If the client is told so, then the file is served and every other one is what it
was; the client is not told so about a file that was not stored. -/
def Truthful (fs : FileSystem) (filename body : Text) : Prop :=
  let (response, fs') := handleUpload fs filename body
  (Success filename response → ∃ loc, located fs' (uploadTarget filename) = some loc ∧
    (get fs' (uploadTarget filename)).body = .file body ∧
    ∀ loc', loc' ≠ loc → content fs' loc' = content fs loc') ∧
  (¬ Stored fs filename body → ¬ Success filename response)

/-- `fs'` serves `body` as the file, and has every other one as `fs` has it. -/
def Served (fs fs' : FileSystem) (filename body : Text) : Prop :=
  ∃ loc, located fs' (uploadTarget filename) = some loc ∧
    (get fs' (uploadTarget filename)).body = .file body ∧
    ∀ loc', loc' ≠ loc → content fs' loc' = content fs loc'

/-- The upload stores nothing new, and the target gives the body back as it is. -/
def Unchanged (fs : FileSystem) (filename body : Text) : Prop :=
  (∃ outfile, fs.ofstream (uploadDirectory ++ filename) = some outfile ∧
    content fs outfile.loc = some body) ∧
  (get fs (uploadTarget filename)).body = .file body

/-! ## Reading and writing files -/

section
variable {fs : FileSystem}

theorem content_eq_some {loc : Loc} {c : Text} :
    content fs loc = some c ↔ fs.tree.view loc = some (.file c) := by
  unfold content
  constructor
  · intro h
    split at h
    · cases h; assumption
    · cases h
  · intro h
    rw [h]

theorem view_eq_file {loc : Loc} {c : Text} :
    fs.tree.view loc = some (.file c) ↔ fs.tree.lookup loc = some (.file c) := by
  unfold FileTree.view
  constructor
  · intro h
    obtain ⟨node, hl, hk⟩ := Option.map_eq_some_iff.mp h
    cases node with
    | file c' => cases hk; exact hl
    | dir entries => cases hk
  · intro h
    rw [h]
    rfl

/-- A GET serves a file when its path leads to one. -/
theorem get_file_iff {target c : Text} : (get fs target).body = .file c ↔
    ∃ loc, fs.tree.resolve (newPath target (isSearch target)) = some loc ∧
      content fs loc = some c := by
  constructor
  · intro h
    unfold get handleRequest at h
    split at h
    · cases h
    · cases h
    · rename_i loc c' hfind
      cases h
      obtain ⟨hr, hl⟩ := find_eq_some.mp hfind
      exact ⟨loc, hr, content_eq_some.mpr (view_eq_file.mpr hl)⟩
  · intro h
    obtain ⟨loc, hr, hc⟩ := h
    have hfind := find_eq_some.mpr ⟨hr, view_eq_file.mp (content_eq_some.mp hc)⟩
    unfold get handleRequest
    rw [hfind]

theorem located_of_resolve {target : Text} {loc : Loc} {c : Text}
    (hr : fs.tree.resolve (newPath target (isSearch target)) = some loc)
    (hc : content fs loc = some c) : located fs target = some loc := by
  unfold located
  rw [find_eq_some.mpr ⟨hr, view_eq_file.mp (content_eq_some.mp hc)⟩]
  rfl

variable {outfile : FileTree.Slot fs.tree} {body : Text}

theorem content_write (loc : Loc) : content (fs.write outfile body) loc =
    if loc = outfile.loc then some (body.take (fs.room outfile.loc)) else content fs loc := by
  have hview : (fs.write outfile body).tree.view loc = _ :=
    FileTree.view_write outfile (body.take (fs.room outfile.loc)) loc
  unfold content
  rw [hview]
  by_cases h : loc = outfile.loc
  · rw [if_pos h, if_pos h]
  · rw [if_neg h, if_neg h]

theorem content_stored (h : body.length ≤ fs.room outfile.loc) :
    content (fs.write outfile body) outfile.loc = some body := by
  rw [content_write, if_pos rfl, List.take_of_length_le h]

/-- A path that leads elsewhere is not touched by a write. -/
theorem resolve_write {path : Text} {loc : Loc} (hne : loc ≠ outfile.loc) :
    (fs.write outfile body).tree.resolve path = some loc ↔ fs.tree.resolve path = some loc := by
  have hview : ∀ q, q ≠ outfile.loc → (fs.write outfile body).tree.view q = fs.tree.view q := by
    intro q hq
    exact (FileTree.view_write outfile _ q).trans (if_neg hq)
  have hfile : ¬ (fs.write outfile body).tree.isDir outfile.loc := by
    intro h
    have hv := FileTree.view_write outfile (body.take (fs.room outfile.loc)) outfile.loc
    rw [if_pos rfl] at hv
    cases hv.symm.trans (FileTree.isDir_iff.mp h)
  exact ⟨FileTree.walk_congr (fun q hq => (hview q hq).symm) hfile hne,
    FileTree.walk_congr hview outfile.not_isDir hne⟩

/-! ## The path that is written and the path that is read -/

theorem newPath_upload (filename : Text) :
    newPath (uploadTarget filename) (isSearch (uploadTarget filename)) =
      uploadPath ++ filename := by
  have hroot : root ++ "/upload".toList = uploadPath := by decide
  rw [← hroot, List.append_assoc]
  rfl

theorem ofstream_slot {path : Text} (h : fs.ofstream path = some outfile) :
    fs.tree.slot path = some outfile := Option.eq_some_of_filter_eq_some h

/-- Behind a slash the target leads to the file that was written. -/
theorem resolve_written {rest : Text}
    (h : fs.ofstream (uploadDirectory ++ '/' :: rest) = some outfile) :
    (fs.write outfile body).tree.resolve
      (newPath (uploadTarget ('/' :: rest)) (isSearch (uploadTarget ('/' :: rest)))) =
        some outfile.loc := by
  obtain ⟨cs, hcs, hwalk⟩ := FileTree.slot_spec (ofstream_slot h)
  rw [components_upload, components_slash] at hcs
  -- the last component is that of `rest`
  obtain ⟨ds, d, hrest⟩ := List.eq_nil_or_concat (FileTree.components rest) |>.resolve_left
    (List.splitOn_ne_nil _ _)
  rw [hrest, List.concat_eq_append, ← List.cons_append, ← List.append_assoc] at hcs
  obtain ⟨rfl, hd⟩ := List.append_inj' hcs rfl
  rw [newPath_upload, FileTree.resolve, FileTree.components_append uploadPath_noNul, hrest,
    List.concat_eq_append, ← List.append_assoc, hd]
  exact FileTree.walk_write (FileTree.walk_skip hwalk)

/-- Names only go down. -/
theorem prefix_lexical {loc : Loc} {cs : List FileName} (h : ['.', '.'] ∉ cs) :
    loc <+: FileTree.lexical loc cs := by
  induction cs generalizing loc with
  | nil => exact List.prefix_rfl
  | cons c cs ih =>
    rw [List.mem_cons, not_or] at h
    have hstep : loc <+: FileTree.lexicalStep loc c := by
      unfold FileTree.lexicalStep
      split
      · exact List.prefix_rfl
      · rw [if_neg (Ne.symm h.1)]
        exact List.prefix_append _ _
    exact hstep.trans (ih h.2)

/-- Without a slash the first name of the target goes on behind "upload". -/
theorem components_joined {w filename c : Text} {cs : List FileName} (hslash : '/' ∉ w)
    (hnul : Char.ofNat 0 ∉ w) (h : FileTree.components filename = c :: cs) :
    FileTree.components (w ++ filename) = (w ++ c) :: cs := by
  induction w with
  | nil => exact h
  | cons x w ih =>
    rw [List.mem_cons, not_or] at hslash hnul
    have ih := ih hslash.2 hnul.2
    have hcut : FileTree.cString (x :: (w ++ filename)) = x :: FileTree.cString (w ++ filename) :=
      List.takeWhile_cons_of_pos (bne_iff_ne.mpr (Ne.symm hnul.1))
    unfold FileTree.components at ih ⊢
    rw [List.cons_append, hcut, List.splitOn_cons_eq_if_modifyHead, ih,
      if_neg (by simpa using Ne.symm hslash.1)]
    rfl

theorem components_head {filename : Text} {cs : List FileName}
    (h : FileTree.components filename = [] :: cs) : filename.head? = some '/' ∨ cs = [] := by
  cases filename with
  | nil => cases h; exact .inr rfl
  | cons x rest =>
    unfold FileTree.components at h
    by_cases hnul : x = Char.ofNat 0
    · have hcut : FileTree.cString (x :: rest) = [] :=
        List.takeWhile_cons_of_neg (by rw [hnul]; decide)
      rw [hcut] at h
      cases h
      exact .inr rfl
    · have hcut : FileTree.cString (x :: rest) = x :: FileTree.cString rest :=
        List.takeWhile_cons_of_pos (bne_iff_ne.mpr hnul)
      rw [hcut, List.splitOn_cons_eq_if_modifyHead] at h
      split at h
      · exact .inl (congrArg some (beq_iff_eq.mp ‹_›))
      · cases hs : (FileTree.cString rest).splitOn '/' with
        | nil => exact absurd hs (List.splitOn_ne_nil _ _)
        | cons d ds => rw [hs] at h; cases h

/-- Then the target does not lead to the file that was written. -/
theorem resolve_joined {fs' : FileSystem} {filename : Text}
    (hslash : filename.head? ≠ some '/') (hup : ['.', '.'] ∉ FileTree.components filename)
    (h : fs.ofstream (uploadDirectory ++ filename) = some outfile) {loc : Loc}
    (hr : fs'.tree.resolve
      (newPath (uploadTarget filename) (isSearch (uploadTarget filename))) = some loc) :
    loc ≠ outfile.loc := by
  intro he
  have hfile := FileTree.slot_lexical (ofstream_slot h)
  rw [lexical_post] at hfile
  cases hc : FileTree.components filename with
  | nil => exact List.splitOn_ne_nil _ _ hc
  | cons c cs =>
    rw [hc] at hfile hup
    have hcs : ['.', '.'] ∉ cs := fun hm => hup (List.mem_cons_of_mem _ hm)
    -- what is read is below an entry of `root` whose name goes on behind "upload"
    have hpath : uploadPath ++ filename = root ++ '/' :: ("upload".toList ++ filename) := by
      have hsplit : uploadPath = root ++ '/' :: "upload".toList := by decide
      rw [hsplit, List.append_assoc]
      rfl
    have hread : rootLoc ++ ["upload".toList ++ c] <+: loc := by
      rw [newPath_upload, hpath, FileTree.resolve, FileTree.components_append root_noNul,
        components_joined (by decide) (by decide) hc] at hr
      rw [FileTree.walk_lexical hr, FileTree.lexical, List.foldl_append]
      change _ <+: FileTree.lexical (FileTree.lexicalStep
        (FileTree.lexical [] (FileTree.components root)) ("upload".toList ++ c)) cs
      rw [lexical_root]
      exact prefix_lexical hcs
    have hwritten : uploadLoc <+: loc := by
      rw [he, hfile]
      exact prefix_lexical hup
    have hlen : (rootLoc ++ ["upload".toList ++ c]).length = uploadLoc.length := rfl
    have hsame := List.prefix_of_prefix_length_le hread hwritten (Nat.le_of_eq hlen)
    have hname := List.append_cancel_left (hsame.eq_of_length hlen)
    have hempty : c = [] := by
      have := (List.cons.inj hname).1
      exact List.append_right_eq_self.mp this
    -- then the path ends in the upload directory itself
    rw [hempty] at hc
    obtain ⟨ds, hds, -⟩ := FileTree.slot_spec (ofstream_slot h)
    rw [components_upload, hc, (components_head hc).resolve_left hslash] at hds
    exact outfile.valid.nonempty (List.cons.inj (List.append_inj' hds rfl).2).1.symm

/-! ## The answer -/

/-- Whatever becomes of the file. -/
theorem upload_success (filename body : Text) :
    Success filename (handleUpload fs filename body).1 := by
  unfold handleUpload
  cases fs.ofstream (uploadDirectory ++ filename) <;> exact ⟨rfl, rfl⟩

theorem upload_write {filename : Text}
    (h : fs.ofstream (uploadDirectory ++ filename) = some outfile) :
    (handleUpload fs filename body).2 = fs.write outfile body := by
  unfold handleUpload
  rw [h]

theorem truthful_iff {filename : Text} : Truthful fs filename body ↔
    Served fs (handleUpload fs filename body).2 filename body ∧ Stored fs filename body := by
  have hsuccess : Success filename (handleUpload fs filename body).1 := upload_success _ _
  unfold Truthful
  constructor
  · intro h
    refine ⟨h.1 hsuccess, ?_⟩
    by_contra hno
    exact h.2 hno hsuccess
  · intro h
    exact ⟨fun _ => h.1, fun hno => absurd h.2 hno⟩

/-- A stored upload behind a slash. -/
theorem served_slash {rest : Text}
    (h : fs.ofstream (uploadDirectory ++ '/' :: rest) = some outfile)
    (hroom : body.length ≤ fs.room outfile.loc) :
    Served fs (fs.write outfile body) ('/' :: rest) body := by
  have hr := @resolve_written fs outfile body rest h
  have hc := content_stored hroom
  exact ⟨outfile.loc, located_of_resolve hr hc, get_file_iff.mpr ⟨_, hr, hc⟩,
    fun loc' hne => (content_write loc').trans (if_neg hne)⟩

/-- A stored upload without a slash: another file is served. -/
theorem served_joined {filename : Text} (hslash : filename.head? ≠ some '/')
    (hup : ['.', '.'] ∉ FileTree.components filename)
    (h : fs.ofstream (uploadDirectory ++ filename) = some outfile)
    (hroom : body.length ≤ fs.room outfile.loc) :
    Served fs (fs.write outfile body) filename body ↔
    content fs outfile.loc = some body ∧ (get fs (uploadTarget filename)).body = .file body := by
  constructor
  · intro hserved
    obtain ⟨loc, hl, hget, hothers⟩ := hserved
    obtain ⟨loc', hr, hc⟩ := get_file_iff.mp hget
    have hne := resolve_joined hslash hup h hr
    cases (located_of_resolve hr hc).symm.trans hl
    rw [content_write, if_neg hne] at hc
    refine ⟨?_, get_file_iff.mpr ⟨_, (resolve_write hne).mp hr, hc⟩⟩
    rw [← hothers _ (Ne.symm hne), content_stored hroom]
  · intro hold
    obtain ⟨hsame, hget⟩ := hold
    obtain ⟨loc, hr, hc⟩ := get_file_iff.mp hget
    have hne := resolve_joined hslash hup h hr
    have hr' := (@resolve_write fs outfile body _ _ hne).mpr hr
    have hothers : ∀ loc', content (fs.write outfile body) loc' = content fs loc' := by
      intro loc'
      by_cases he : loc' = outfile.loc
      · rw [he, content_stored hroom, hsame]
      · rw [content_write, if_neg he]
    have hc' : content (fs.write outfile body) loc = some body := by rw [hothers, hc]
    exact ⟨loc, located_of_resolve hr' hc', get_file_iff.mpr ⟨_, hr', hc'⟩,
      fun loc' _ => hothers loc'⟩

end

/-- **Truthful uploads.** For a target that does not go up, the answer to an upload is
truthful if and only if the file was stored and the target begins with a slash,
or both the file that is written and the one that is read had that content already. -/
theorem upload_truthful (fs : FileSystem) (filename body : Text)
    (hup : ['.', '.'] ∉ FileTree.components filename) : Truthful fs filename body ↔
      Stored fs filename body ∧
        (filename.head? = some '/' ∨ Unchanged fs filename body) := by
  rw [truthful_iff, and_comm]
  refine and_congr_right fun hstored => ?_
  obtain ⟨outfile, h, hroom⟩ := hstored
  rw [upload_write h]
  by_cases hslash : filename.head? = some '/'
  · obtain ⟨rest, rfl⟩ := List.head?_eq_some_iff.mp hslash
    exact iff_of_true (served_slash h hroom) (.inl rfl)
  · rw [served_joined hslash hup h hroom]
    constructor
    · exact fun hold => .inr ⟨⟨outfile, h, hold.1⟩, hold.2⟩
    · intro hold
      obtain ⟨⟨outfile', h', hsame⟩, hget⟩ := hold.resolve_left hslash
      cases h.symm.trans h'
      exact ⟨hsame, hget⟩

theorem upload_truthful_note : ∃ fs, Truthful fs "/note".toList "hi".toList := by
  have hslot : ((withRoot [("upload".toList, .dir [])] (.single (by decide) .empty)).ofstream
      (uploadDirectory ++ "/note".toList)).isSome := by decide
  obtain ⟨outfile, h⟩ := Option.isSome_iff_exists.mp hslot
  have hstored : Stored (withRoot [("upload".toList, .dir [])] (.single (by decide) .empty))
      "/note".toList "hi".toList := by
    refine ⟨outfile, h, ?_⟩
    change "hi".toList.length ≤ 4096
    decide
  exact ⟨_, (upload_truthful _ _ _ (by decide)).mpr ⟨hstored, .inl rfl⟩⟩

/-- Nothing is written, and the client is told that it was. -/
theorem upload_lost : ¬ ∀ fs filename body, ['.', '.'] ∉ FileTree.components filename →
    Truthful fs filename body := by
  intro h
  have htruthful := h (withRoot [] .empty) "/missing/x".toList "hi".toList (by decide)
  obtain ⟨-, outfile, hslot, -⟩ := truthful_iff.mp htruthful
  have hnone : ((withRoot [] .empty).ofstream (uploadDirectory ++ "/missing/x".toList)).isNone := by
    decide
  rw [hslot] at hnone
  cases hnone

end Cxx.FileTransfer
