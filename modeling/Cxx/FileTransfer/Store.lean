import Cxx.Core.Directories
import Cxx.FileTransfer.Confinement
import Cxx.FileTransfer.Links
import Cxx.FileTransfer.Upload

/-!
# The server as a store of files

The file system behind a sequence of requests, each handled as
include/file_transfer/FileManager.hpp:20-53 does. Where files may be written, and
how much room there is for each, is the same for all of them.

* `serve_grows`: a server never makes or removes a directory.
* `contents`: what the last POST to a location has stored there, or what there was.
* `file_store`: it is what a GET serves; `page_lists` and `search_lists` are what the
  pages show of it.
-/
namespace Cxx.FileTransfer

/-- The file system when the requests have been handled. -/
def FileSystem.serve (fs : FileSystem) (requests : List Request) : FileSystem :=
  requests.foldl (fun fs request => (handleConnection fs request).2) fs

/-- What a request puts at a location. -/
def stores (fs : FileSystem) (loc : Loc) (request : Request) : Option Text :=
  if request.method = .post ∧ opened fs request = some loc then
    some (request.body.take (fs.room loc))
  else none

def contents (fs : FileSystem) (requests : List Request) (loc : Loc) : Option Text :=
  (requests.filterMap (stores fs loc)).getLast?.or (content fs loc)

/-- The directories are the same, and so is what is outside the code. -/
structure Grows (fs fs' : FileSystem) : Prop where
  dirs : fs.tree.SameDirs fs'.tree
  mayWrite : fs'.mayWrite = fs.mayWrite
  room : fs'.room = fs.room

section
variable {fs fs' : FileSystem} {request : Request} {requests : List Request} {loc : Loc}

theorem Grows.trans {fs'' : FileSystem} (h : Grows fs fs') (h' : Grows fs' fs'') :
    Grows fs fs'' :=
  ⟨h.dirs.trans h'.dirs, h'.mayWrite.trans h.mayWrite, h'.room.trans h.room⟩

theorem opened_post (h : request.method = .post) : opened fs request =
    (fs.tree.place (uploadDirectory ++ request.target)).filter fs.mayWrite := by
  unfold opened FileSystem.ofstream FileTree.place
  rw [h]
  cases fs.tree.slot (uploadDirectory ++ request.target) with
  | none => rfl
  | some s => by_cases hw : fs.mayWrite s.loc <;> simp [hw, Option.filter]

theorem Grows.stores (h : Grows fs fs') : stores fs' loc request = stores fs loc request := by
  unfold FileTransfer.stores
  by_cases hm : request.method = .post
  · rw [opened_post hm, opened_post hm, h.dirs.place, h.mayWrite, h.room]
  · simp [hm]

theorem handleConnection_grows : Grows fs (handleConnection fs request).2 := by
  obtain ⟨method, target, version, keepAlive, body⟩ := request
  cases method with
  | get | other => exact ⟨.refl _, rfl, rfl⟩
  | post =>
    change Grows fs (handleUpload fs target body).2
    unfold handleUpload
    cases fs.ofstream (uploadDirectory ++ target) with
    | none => exact ⟨.refl _, rfl, rfl⟩
    | some outfile => exact ⟨FileTree.write_sameDirs outfile _, rfl, rfl⟩

theorem handleConnection_content : content (handleConnection fs request).2 loc =
    (stores fs loc request).or (content fs loc) := by
  by_cases h : request.method = .post ∧ opened fs request = some loc
  · obtain ⟨hm, ho⟩ := h
    obtain ⟨method, target, version, keepAlive, body⟩ := request
    cases hm
    obtain ⟨outfile, hf, rfl⟩ := Option.map_eq_some_iff.mp ho
    change content (handleUpload fs target body).2 _ = _
    rw [upload_write hf, content_write, if_pos rfl, stores, if_pos ⟨rfl, ho⟩]
    rfl
  · have hview : (handleConnection fs request).2.tree.view loc = fs.tree.view loc :=
      handleConnection_view fun hm ho => h ⟨hm, ho⟩
    rw [stores, if_neg h]
    unfold content
    rw [hview]
    rfl

theorem serve_grows (fs : FileSystem) (requests : List Request) : Grows fs (fs.serve requests) := by
  induction requests generalizing fs with
  | nil => exact ⟨.refl _, rfl, rfl⟩
  | cons request requests ih => exact handleConnection_grows.trans (ih _)

theorem serve_content (fs : FileSystem) (requests : List Request) (loc : Loc) :
    content (fs.serve requests) loc = contents fs requests loc := by
  induction requests generalizing fs with
  | nil => rfl
  | cons request requests ih =>
    have hstores : stores (handleConnection fs request).2 loc = stores fs loc :=
      funext fun _ => handleConnection_grows.stores
    have hlater := ih (handleConnection fs request).2
    unfold contents at hlater ⊢
    rw [hstores, handleConnection_content] at hlater
    refine hlater.trans ?_
    rw [List.filterMap_cons]
    cases stores fs loc request with
    | none => rfl
    | some c =>
      rw [List.getLast?_cons]
      cases (requests.filterMap (stores fs loc)).getLast? <;> rfl

/-- **The store.** After any requests, a GET serves as a file what the last POST to its
place has stored there, or else what there was at the start; and which place that is
does not depend on the requests. -/
theorem file_store (fs : FileSystem) (requests : List Request) (target c : Text) :
    (get (fs.serve requests) target).body = .file c ↔
      ∃ loc, fs.tree.place (newPath target (isSearch target)) = some loc ∧
        contents fs requests loc = some c := by
  rw [get_file_iff]
  refine exists_congr fun loc => ?_
  rw [serve_content]
  refine and_congr_left fun hc => ?_
  rw [← serve_content, content_eq_some] at hc
  rw [FileTree.resolve_file (fs.serve requests).wellFormed hc, (serve_grows fs requests).dirs.place]

/-! ## Pages -/

/-- What is at a location is a directory of the start, or a file of now. -/
theorem view_serve : ((fs.serve requests).tree.view loc).isSome ↔
    fs.tree.isDir loc ∨ (contents fs requests loc).isSome := by
  rw [← serve_content, ← (serve_grows fs requests).dirs loc]
  unfold content FileTree.isDir
  cases (fs.serve requests).tree.view loc with
  | none => simp
  | some k => cases k <;> simp

theorem view_entry {dir : Loc} {name : FileName} {entries : List (FileName × FileTree Text)}
    (hl : fs.tree.lookup dir = some (.dir entries)) :
    name ∈ entries.map Prod.fst ↔ (fs.tree.view (dir ++ [name])).isSome := by
  cases fs.wellFormed.lookup hl with
  | dir distinct _ _ =>
    have hchild : fs.tree.lookup (dir ++ [name]) = entries.lookup name := by
      rw [FileTree.lookup_append, hl, Option.bind_some]
      exact Option.bind_fun_some _
    unfold FileTree.view
    rw [Option.isSome_map, hchild]
    constructor
    · intro h
      obtain ⟨e, he, rfl⟩ := List.mem_map.mp h
      rw [FileTree.lookup_entry distinct he]
      rfl
    · intro h
      obtain ⟨t, ht⟩ := Option.isSome_iff_exists.mp h
      exact List.mem_map.mpr ⟨_, FileTree.mem_of_lookup ht, rfl⟩

theorem find_dir {path : Text} {dir : Loc} (hr : fs.tree.resolve path = some dir)
    (hd : fs.tree.isDir dir) : ∃ entries, fs.find path = some (dir, .dir entries) := by
  obtain ⟨node, hl, hk⟩ := Option.map_eq_some_iff.mp (FileTree.isDir_iff.mp hd)
  cases node with
  | file c => cases hk
  | dir entries => exact ⟨entries, find_eq_some.mpr ⟨hr, hl⟩⟩

/-- The page for a directory, by its entries. -/
theorem get_page {target : Text} {dir : Loc} {entries : List (FileName × FileTree Text)}
    (hs : isSearch target = false) (h : fs.find (newPath target false) = some (dir, .dir entries)) :
    (get fs target).body = .page target (entries.map fun e =>
      ⟨dir ++ [e.1], e.1, fs.isDirectory (newPath target false ++ '/' :: e.1)⟩) := by
  unfold get handleRequest
  rw [hs, h]
  simp [Function.comp_def]

theorem isDir_entry {dir : Loc} {entries : List (FileName × FileTree Text)}
    {e : FileName × FileTree Text} (hl : fs.tree.lookup dir = some (.dir entries))
    (he : e ∈ entries) : fs.tree.isDir (dir ++ [e.1]) = isDirectoryEntry e.2 := by
  cases fs.wellFormed.lookup hl with
  | dir distinct _ _ =>
    have hchild : fs.tree.lookup (dir ++ [e.1]) = some e.2 := by
      rw [FileTree.lookup_append, hl, Option.bind_some, ← FileTree.lookup_entry distinct he]
      exact Option.bind_fun_some _
    unfold FileTree.isDir FileTree.view
    rw [hchild]
    cases e.2 <;> rfl

/-- **Directory pages.** After any requests, the page for a directory, unless its target
is taken for a search, has each directory that it had at the start and each file that it
has now, and none twice. Which of them are directories it asks by a path, which ends at
the first NUL of the target. -/
theorem page_lists (fs : FileSystem) (requests : List Request) (target : Text) (dir : Loc)
    (hs : isSearch target = false) (hr : fs.tree.resolve (newPath target false) = some dir)
    (hd : fs.tree.isDir dir) : ∃ items, (get (fs.serve requests) target).body = .page target items ∧
      (items.map Item.filename).Nodup ∧
      (∀ name, name ∈ items.map Item.filename ↔
        fs.tree.isDir (dir ++ [name]) ∨ (contents fs requests (dir ++ [name])).isSome) ∧
      ∀ i ∈ items, i.entry = dir ++ [i.filename] ∧
        (Char.ofNat 0 ∉ target → i.isDirectory = fs.tree.isDir i.entry) := by
  have hdirs := (serve_grows fs requests).dirs
  obtain ⟨entries, hfind⟩ := find_dir (hdirs.walk hd hr) ((hdirs dir).trans hd)
  have hl := (find_eq_some.mp hfind).2
  refine ⟨_, get_page hs hfind, ?_, fun name => ?_, fun i hi => ?_⟩
  · cases (fs.serve requests).wellFormed.lookup hl with
    | dir distinct _ _ => simpa [Function.comp_def] using distinct
  · rw [← view_serve, ← view_entry hl]
    simp
  · obtain ⟨e, he, rfl⟩ := List.mem_map.mp hi
    refine ⟨rfl, fun hnul => ?_⟩
    have hnul : Char.ofNat 0 ∉ root ++ target := by
      rw [List.mem_append]
      exact fun h => h.elim root_noNul hnul
    have hitems := (get_page hs hfind).symm.trans (page_of_find hs hnul hfind)
    have hflag : (fs.serve requests).isDirectory (newPath target false ++ '/' :: e.1) =
        isDirectoryEntry e.2 := by
      simp only [Body.page.injEq, true_and, itemsOf] at hitems
      simpa using List.map_inj_left.mp hitems e he
    exact hflag.trans ((isDir_entry hl he).symm.trans (hdirs _))

/-! ## Search pages -/

theorem searchEntries_eq {keyword : Text} {directory : Loc}
    {entries : List (FileName × FileTree Text)}
    (h : ∀ e ∈ entries, searchEntry keyword directory e =
      FileTree.findEntry (fun name => decide (keyword <:+: name)) directory e) :
    searchEntries keyword directory entries =
      FileTree.findEntries (fun name => decide (keyword <:+: name)) directory entries := by
  induction entries with
  | nil => simp [searchEntries, FileTree.findEntries]
  | cons e entries ih =>
    rw [searchEntries, FileTree.findEntries, h e List.mem_cons_self,
      ih fun e' he' => h e' (List.mem_cons_of_mem _ he')]

/-- The search finds the files whose names contain the keyword. -/
theorem search_eq {keyword : Text} {node : FileTree Text} (hwf : node.WellFormed) :
    ∀ {directory : Loc}, searchFilesRecursive keyword directory node =
      node.find (fun name => decide (keyword <:+: name)) directory := by
  induction hwf with
  | file content => intro directory; simp [searchFilesRecursive, FileTree.find]
  | @dir entries _ _ _ ih =>
    intro directory
    rw [searchFilesRecursive, FileTree.find]
    refine searchEntries_eq fun e he => ?_
    obtain ⟨name, node⟩ := e
    cases node with
    | file content => simp [searchEntry, isDirectoryEntry, FileTree.findEntry]
    | dir entries' =>
      rw [FileTree.findEntry_dir, ← ih _ he]
      simp [searchEntry, isDirectoryEntry]

/-- What is at the path name of a search. -/
theorem newPath_search {target : Text} (h : isSearch target) :
    newPath target (isSearch target) = root ++ '/' :: searchName := by
  unfold newPath
  rw [h, if_pos rfl, isSearch_take h]
  rfl

theorem resolve_names (path : Text) {names : Loc}
    (hcs : FileTree.components path = [] :: names) (hvalid : ∀ name ∈ names, name.Valid)
    (hd : fs.tree.isDir names) : fs.tree.resolve path = some names := by
  have hroot : fs.tree.step [] [] = some [] := by
    unfold FileTree.step
    rw [if_pos (FileTree.isDir_of_append (p := []) hd)]
    simp
  rw [FileTree.resolve, hcs, FileTree.walk, hroot, Option.bind_some,
    FileTree.walk_names hvalid hd]
  rfl

theorem located_eq {target : Text} {node : FileTree Text}
    (h : fs.find (newPath target (isSearch target)) = some (loc, node)) :
    located fs target = some loc := by
  rw [located, h]; rfl

/-- Both the directory "search" and `root` are there. -/
theorem find_search (hd : fs.tree.isDir (rootLoc ++ [searchName])) : ∃ entries node,
    fs.find (root ++ '/' :: searchName) = some (rootLoc ++ [searchName], .dir entries) ∧
      fs.find root = some (rootLoc, node) := by
  have hroot : fs.tree.isDir rootLoc := FileTree.isDir_of_append hd
  obtain ⟨entries, he⟩ := find_dir (resolve_names (root ++ '/' :: searchName)
    (by decide) (by decide) hd) hd
  obtain ⟨entries', he'⟩ := find_dir (resolve_names root (by decide) (by decide) hroot)
    hroot
  exact ⟨entries, _, he, he'⟩

/-- The page of a search. -/
theorem get_search {target : Text} (hs : isSearch target)
    (hd : fs.tree.isDir (rootLoc ++ [searchName])) : ∃ items node,
      (get fs target).body = .page target items ∧ fs.tree.lookup rootLoc = some node ∧
      items.map (fun i => (i.entry, i.filename)) = (searchFilesRecursive (searchKeyword target)
        rootLoc node).map fun p => (p.1 ++ [p.2], p.2) := by
  obtain ⟨entries, node, he, hroot⟩ := find_search hd
  refine ⟨(searchFilesRecursive (searchKeyword target) rootLoc node).map fun p =>
    ⟨p.1 ++ [p.2], p.2, fs.isDirectory (root ++ '/' :: searchName ++ '/' :: p.2)⟩, node, ?_,
    (find_eq_some.mp hroot).2, ?_⟩
  · unfold get handleRequest
    rw [newPath_search hs, he]
    simp only [hs, if_true, hroot]
  · simp [Function.comp_def]

/-- A search has a page only where the directory "search" is. -/
theorem search_dir {target : Text} {items : List Item} (hs : isSearch target)
    (h : (get fs target).body = .page target items) :
    fs.tree.isDir (rootLoc ++ [searchName]) := by
  obtain ⟨loc, entries, hfind⟩ := find_of_page h
  have hloc : loc = rootLoc ++ [searchName] := loc_of_search hs (located_eq hfind)
  rw [← hloc]
  exact FileTree.isDir_of_lookup (find_eq_some.mp hfind).2

/-- Where the files that a search has found are. -/
theorem search_nodup {keyword : Text} {directory : Loc} {node : FileTree Text}
    (hwf : node.WellFormed) :
    ((searchFilesRecursive keyword directory node).map fun p => p.1 ++ [p.2]).Nodup := by
  rw [search_eq hwf]
  refine (FileTree.find_nodup hwf).map fun p q hpq => ?_
  obtain ⟨h1, h2⟩ := List.append_inj' hpq rfl
  exact Prod.ext h1 (List.cons.inj h2).1

theorem mem_search {keyword : Text} {node : FileTree Text}
    (hnode : fs.tree.lookup rootLoc = some node) {directory : Loc} {name : FileName} :
    directory ++ [name] ∈ ((searchFilesRecursive keyword rootLoc node).map fun p => p.1 ++ [p.2]) ↔
      rootLoc <+: directory ∧ (content fs (directory ++ [name])).isSome ∧ keyword <:+: name := by
  have hwf := fs.wellFormed.lookup hnode
  have hfound : directory ++ [name] ∈
      ((searchFilesRecursive keyword rootLoc node).map fun p => p.1 ++ [p.2]) ↔
      (directory, name) ∈ searchFilesRecursive keyword rootLoc node := by
    rw [List.mem_map]
    constructor
    · rintro ⟨p, hp, he⟩
      obtain ⟨h1, h2⟩ := List.append_inj' he rfl
      rwa [← h1, ← (List.cons.inj h2).1]
    · exact fun hp => ⟨_, hp, rfl⟩
  rw [hfound, search_eq hwf, FileTree.mem_find hwf, decide_eq_true_iff]
  constructor
  · rintro ⟨hin, below, c, rfl, hl⟩
    refine ⟨List.prefix_append _ _, ?_, hin⟩
    have hfile : fs.tree.lookup (rootLoc ++ below ++ [name]) = some (.file c) := by
      rw [List.append_assoc, FileTree.lookup_append, hnode]
      exact hl
    rw [content_eq_some.mpr (view_eq_file.mpr hfile)]
    rfl
  · rintro ⟨⟨below, rfl⟩, hc, hin⟩
    obtain ⟨c, hc⟩ := Option.isSome_iff_exists.mp hc
    have hl := view_eq_file.mp (content_eq_some.mp hc)
    rw [List.append_assoc, FileTree.lookup_append, hnode] at hl
    exact ⟨hin, below, c, rfl, hl⟩

/-- **Searching.** A search is answered with a page exactly if `root` has a directory
"search". After any requests the page has each file below `root` whose name contains
the keyword, and each of them once. -/
theorem search_lists (fs : FileSystem) (requests : List Request) (target : Text)
    (hs : isSearch target) :
    ((∃ items, (get (fs.serve requests) target).body = .page target items) ↔
      fs.tree.isDir (rootLoc ++ [searchName])) ∧
    ∀ items, (get (fs.serve requests) target).body = .page target items →
      (items.map Item.entry).Nodup ∧ (∀ i ∈ items, i.entry.getLast? = some i.filename) ∧
      ∀ directory name, directory ++ [name] ∈ items.map Item.entry ↔ rootLoc <+: directory ∧
        (contents fs requests (directory ++ [name])).isSome ∧ searchKeyword target <:+: name := by
  have hdirs := (serve_grows fs requests).dirs
  have hneeds : ∀ items, (get (fs.serve requests) target).body = .page target items →
      fs.tree.isDir (rootLoc ++ [searchName]) := by
    intro items h
    rw [← hdirs]
    exact search_dir hs h
  constructor
  · constructor
    · rintro ⟨items, h⟩
      exact hneeds items h
    · intro hd
      obtain ⟨items, -, h, -⟩ := get_search hs ((hdirs _).trans hd)
      exact ⟨items, h⟩
  · intro items h
    obtain ⟨items', node, h', hnode, hitems⟩ := get_search hs ((hdirs _).trans (hneeds items h))
    cases h.symm.trans h'
    have hentry : items.map Item.entry = (searchFilesRecursive (searchKeyword target) rootLoc
        node).map fun p => p.1 ++ [p.2] := by
      simpa [Function.comp_def] using congrArg (List.map Prod.fst) hitems
    refine ⟨?_, fun i hi => ?_, fun directory name => ?_⟩
    · rw [hentry]
      exact search_nodup ((fs.serve requests).wellFormed.lookup hnode)
    · have hmem : (i.entry, i.filename) ∈ items.map fun i => (i.entry, i.filename) :=
        List.mem_map_of_mem hi
      rw [hitems] at hmem
      obtain ⟨p, -, hp⟩ := List.mem_map.mp hmem
      simp only [Prod.mk.injEq] at hp
      rw [← hp.1, ← hp.2, List.getLast?_concat]
    · rw [hentry, mem_search hnode, serve_content]

end

/-- `root` with the directories "search" and "upload", both empty. -/
def emptyStore : FileSystem :=
  withRoot [(searchName, .dir []), ("upload".toList, .dir [])] (.dir (by decide)
    (by simpa using ⟨searchName_valid, by decide⟩) (by simpa using .empty))

def postNote : Request := ⟨.post, "/note".toList, 11, false, "hi".toList⟩

theorem contents_note :
    contents emptyStore [postNote] (uploadLoc ++ ["note".toList]) = some "hi".toList := by
  decide

theorem page_lists_note : ∃ items,
    (get (emptyStore.serve [postNote]) "/upload".toList).body = .page "/upload".toList items ∧
      "note".toList ∈ items.map Item.filename := by
  obtain ⟨items, h, -, hmem, -⟩ := page_lists emptyStore [postNote] "/upload".toList uploadLoc
    (by decide) (by decide) (by decide)
  exact ⟨items, h, (hmem _).mpr (.inr (by rw [contents_note]; rfl))⟩

theorem search_lists_note : ∃ items,
    (get (emptyStore.serve [postNote]) "/search?search=ot".toList).body =
        .page "/search?search=ot".toList items ∧
      uploadLoc ++ ["note".toList] ∈ items.map Item.entry := by
  obtain ⟨hpage, hall⟩ := search_lists emptyStore [postNote] "/search?search=ot".toList (by decide)
  obtain ⟨items, h⟩ := hpage.mpr (by decide)
  obtain ⟨-, -, hmem⟩ := hall items h
  exact ⟨items, h, (hmem _ _).mpr ⟨by decide, by rw [contents_note]; rfl, by decide⟩⟩

end Cxx.FileTransfer
