import Cxx.Core.FileTree
import Mathlib.Data.List.Infix

/-!
# The file server

Model of include/file_transfer/FileManager.hpp. A `std::string` is a list of
characters, and so is the content of a file. The file system is a value: a GET
reads it, a POST gives the one that it leaves.

**Outside the code.** Every file may be read; `mayWrite` says where a file may
be opened for writing and `room` how many bytes can then be written, at any time. A
path name is resolved as POSIX does without links. Entries of a directory come in the
order of the tree. A response is what is sent when the connection takes all of it.
-/
namespace Cxx.FileTransfer

abbrev Text := List Char

structure FileSystem where
  tree : FileTree Text
  wellFormed : tree.WellFormed
  mayWrite : Loc → Bool
  room : Loc → Nat

/-- What a path name leads to, with its location. -/
def FileSystem.find (fs : FileSystem) (path : Text) : Option (Loc × FileTree Text) :=
  (fs.tree.resolve path).bind fun loc => (fs.tree.lookup loc).map fun node => (loc, node)

/-- `std::filesystem::is_directory` -/
def FileSystem.isDirectory (fs : FileSystem) (path : Text) : Bool :=
  match fs.find path with
  | some (_, .dir _) => true
  | _ => false

/-- `std::ofstream` on `path`: a place for the file, where it may be opened. -/
def FileSystem.ofstream (fs : FileSystem) (path : Text) : Option (FileTree.Slot fs.tree) :=
  (fs.tree.slot path).filter fun slot => fs.mayWrite slot.loc

/-- The file system after a file was opened, truncated and given what there is room for. -/
def FileSystem.write (fs : FileSystem) (slot : FileTree.Slot fs.tree) (body : Text) :
    FileSystem where
  tree := fs.tree.write slot (body.take (fs.room slot.loc))
  wellFormed := fs.wellFormed.write slot _
  mayWrite := fs.mayWrite
  room := fs.room

/-! ## Requests and responses -/

/-- An entry on a directory page. `entry` is where it was found; the page shows the rest. -/
structure Item where
  entry : Loc
  filename : Text
  isDirectory : Bool
  deriving DecidableEq, Repr

inductive Body where
  | text (content : Text)
  /-- The page for the target `path`. -/
  | page (path : Text) (items : List Item)
  | file (content : Text)
  deriving DecidableEq, Repr

structure Response where
  status : Nat
  version : Nat
  contentType : String
  keepAlive : Bool
  body : Body
  deriving DecidableEq, Repr

inductive Method where
  | get
  | post
  | other
  deriving DecidableEq, Repr

structure Request where
  method : Method
  target : Text
  version : Nat
  keepAlive : Bool
  body : Text
  deriving DecidableEq, Repr

/-- What a link on a page for `path` asks for: a button for a directory, an href for a file. -/
def Item.link (path : Text) (i : Item) : Text := path ++ i.filename

/-- mirrors include/file_transfer/FileManager.hpp:109-113 -/
def Item.render (path : Text) (i : Item) : Text :=
  if i.isDirectory then
    "<li><button onclick=\"location.href='".toList ++ i.link path ++ "'\">".toList ++
      i.filename ++ "</button></li></br>\n".toList
  else
    "<li>".toList ++ i.filename ++ " - <a href=\"".toList ++ i.link path ++
      "\" download>Download</a></li></br>\n".toList

/-- The bytes of a body.
mirrors include/file_transfer/FileManager.hpp:96-121 -/
def Body.render : Body → Text
  | .text content => content
  | .page path items =>
    ("<!DOCTYPE html>\n" ++ "<html>\n" ++ "<head><title>Files in directory</title></head>\n" ++
      "<body>\n" ++ "<h1>Files in directory:</h1>\n" ++
      "<form action=\"/search\" method=\"get\">\n" ++
      "<input type=\"text\" name=\"search\" placeholder=\"Search files...\">\n" ++
      "<input type=\"submit\" value=\"Search\">\n" ++ "</form>\n" ++ "<ul>\n").toList ++
    items.flatMap (Item.render path) ++
    ("</ul>\n" ++
      "<form action=\"/upload\" method=\"post\" enctype=\"multipart/form-data\">\n" ++
      "<input type=\"file\" name=\"fileToUpload\" id=\"fileToUpload\">\n" ++
      "<input type=\"submit\" value=\"Upload File\" name=\"submit\">\n" ++
      "</form>\n" ++ "</body>\n" ++ "</html>").toList
  | .file content => content

/-! ## GET -/

def root : Text := "/home/sw/Documents/cxx/res".toList

/-- mirrors include/file_transfer/FileManager.hpp:32 -/
def isSearch (target : Text) : Bool := "/search".toList.isPrefixOf target

/-- What is behind the first `pattern`, if there is one. -/
def after (pattern : Text) : Text → Option Text
  | [] => if pattern = [] then some [] else none
  | c :: s =>
    if pattern.isPrefixOf (c :: s) then some ((c :: s).drop pattern.length) else after pattern s

/-- mirrors include/file_transfer/FileManager.hpp:81-86 -/
def searchKeyword (path : Text) : Text :=
  let queryString := (after "?".toList path).getD path
  (after "search=".toList queryString).getD queryString

def isDirectoryEntry : FileTree Text → Bool
  | .file _ => false
  | .dir _ => true

mutual

/-- The files whose names contain the keyword, each with the directory that has it.
mirrors include/file_transfer/FileManager.hpp:163-173 -/
def searchFilesRecursive (searchKeyword : Text) (directory : Loc) :
    FileTree Text → List (Loc × FileName)
  | .file _ => []
  | .dir entries => searchEntries searchKeyword directory entries

def searchEntries (searchKeyword : Text) (directory : Loc) :
    List (FileName × FileTree Text) → List (Loc × FileName)
  | [] => []
  | entry :: entries =>
    searchEntry searchKeyword directory entry ++ searchEntries searchKeyword directory entries

def searchEntry (searchKeyword : Text) (directory : Loc) :
    FileName × FileTree Text → List (Loc × FileName)
  | (filename, entry) =>
    if isDirectoryEntry entry then
      searchFilesRecursive searchKeyword (directory ++ [filename]) entry
    else if searchKeyword <:+: filename then [(directory, filename)]
    else []

end

/-- The path name that a GET opens.
mirrors include/file_transfer/FileManager.hpp:61-64 -/
def newPath (path : Text) (isSearch : Bool) : Text :=
  let temPath := if isSearch then path.take 7 else path
  root ++ temPath

/-- mirrors include/file_transfer/FileManager.hpp:60-144 -/
def handleRequest (fs : FileSystem) (path : Text) (isSearch : Bool) : Response :=
  match fs.find (newPath path isSearch) with
  | none => ⟨404, 11, "text/plain", false, .text "404 Not Found".toList⟩
  | some (loc, .dir entries) =>
    let filenames :=
      if isSearch then
        match fs.find root with
        | none => []
        | some (directory, node) => searchFilesRecursive (searchKeyword path) directory node
      else entries.map fun entry => (loc, entry.1)
    let items := filenames.map fun (directory, filename) =>
      { entry := directory ++ [filename], filename,
        isDirectory := fs.isDirectory (newPath path isSearch ++ '/' :: filename) }
    ⟨200, 11, "text/html", false, .page path items⟩
  | some (_, .file content) => ⟨200, 11, "text/plain", false, .file content⟩

/-- The response to a GET for `target`. -/
def get (fs : FileSystem) (target : Text) : Response := handleRequest fs target (isSearch target)

/-- What a GET for `target` opens. -/
def located (fs : FileSystem) (target : Text) : Option Loc :=
  (fs.find (newPath target (isSearch target))).map Prod.fst

/-! ## POST -/

def uploadDirectory : Text := "/home/sw/Documents/cxx/res/upload/".toList

/-- A stream that could not be opened, or that does not take the whole body, is
not asked whether it failed.
mirrors include/file_transfer/FileManager.hpp:146-161 -/
def handleUpload (fs : FileSystem) (filename body : Text) : Response × FileSystem :=
  let response := ⟨200, 11, "text/plain", false,
    .text ("File '".toList ++ filename ++ "' uploaded successfully".toList)⟩
  match fs.ofstream (uploadDirectory ++ filename) with
  | none => (response, fs)
  | some outfile => (response, fs.write outfile body)

/-- mirrors include/file_transfer/FileManager.hpp:20-53 -/
def handleConnection (fs : FileSystem) (request : Request) : Response × FileSystem :=
  match request.method with
  | .get => (get fs request.target, fs)
  | .post => handleUpload fs request.target request.body
  | .other => (⟨405, request.version, "text/plain", request.keepAlive,
      .text "405 Method Not Allowed".toList⟩, fs)

/-! ## What the file system has behind a path name -/

def rootLoc : Loc :=
  ["home".toList, "sw".toList, "Documents".toList, "cxx".toList, "res".toList]

theorem lexical_root : FileTree.lexical [] (FileTree.components root) = rootLoc := by decide

theorem root_noNul : Char.ofNat 0 ∉ root := by decide

/-- The upload directory without the slash behind it. -/
def uploadPath : Text := "/home/sw/Documents/cxx/res/upload".toList

def uploadLoc : Loc := rootLoc ++ ["upload".toList]

theorem lexical_upload : FileTree.lexical [] (FileTree.components uploadPath) = uploadLoc := by
  decide

theorem uploadPath_noNul : Char.ofNat 0 ∉ uploadPath := by decide

theorem components_slash (rest : Text) :
    FileTree.components ('/' :: rest) = [] :: FileTree.components rest := by
  rw [← List.nil_append ('/' :: rest), FileTree.components_append (List.not_mem_nil)]
  rfl

theorem components_upload (filename : Text) :
    FileTree.components (uploadDirectory ++ filename) =
      FileTree.components uploadPath ++ FileTree.components filename := by
  have hsplit : uploadDirectory = uploadPath ++ ['/'] := by decide
  rw [hsplit, List.append_assoc, List.singleton_append, FileTree.components_append uploadPath_noNul]

theorem lexical_post (filename : Text) :
    FileTree.lexical [] (FileTree.components (uploadDirectory ++ filename)) =
      FileTree.lexical uploadLoc (FileTree.components filename) := by
  rw [components_upload, FileTree.lexical, List.foldl_append]
  change FileTree.lexical (FileTree.lexical [] (FileTree.components uploadPath)) _ = _
  rw [lexical_upload]

section
variable {fs : FileSystem}

theorem find_eq_some {path : Text} {loc : Loc} {node : FileTree Text} :
    fs.find path = some (loc, node) ↔
      fs.tree.resolve path = some loc ∧ fs.tree.lookup loc = some node := by
  unfold FileSystem.find
  constructor
  · intro h
    obtain ⟨loc', hr, h⟩ := Option.bind_eq_some_iff.mp h
    obtain ⟨node', hl, h⟩ := Option.map_eq_some_iff.mp h
    cases h
    exact ⟨hr, hl⟩
  · intro h
    rw [h.1, Option.bind_some, h.2]
    rfl

theorem loc_of_root {loc : Loc} (h : fs.tree.resolve root = some loc) : loc = rootLoc := by
  rw [FileTree.walk_lexical h, lexical_root]

/-- An entry of a directory that was found. -/
theorem find_child {path : Text} {loc : Loc} {entries : List (FileName × FileTree Text)}
    (hnul : Char.ofNat 0 ∉ path) (h : fs.find path = some (loc, .dir entries)) {name : FileName}
    (hname : name.Valid) : fs.find (path ++ '/' :: name) =
      (entries.lookup name).map fun node => (loc ++ [name], node) := by
  obtain ⟨hr, hl⟩ := find_eq_some.mp h
  have hchild : fs.tree.lookup (loc ++ [name]) = entries.lookup name := by
    rw [FileTree.lookup_append, hl, Option.bind_some]
    exact Option.bind_fun_some _
  unfold FileSystem.find
  rw [FileTree.resolve_append hnul, hr, Option.bind_some, FileTree.components_name hname,
    FileTree.walk, FileTree.step_name hname, FileTree.view, hchild]
  cases hn : entries.lookup name with
  | none => rw [if_neg fun hc => by cases hc.2]; rfl
  | some node =>
    rw [if_pos ⟨FileTree.isDir_of_lookup hl, rfl⟩]
    change (fs.tree.lookup (loc ++ [name])).map _ = _
    rw [hchild, hn]

/-- Below a file, or below nothing, a path name leads nowhere. -/
theorem find_below {path rest : Text} (hnul : Char.ofNat 0 ∉ path)
    (h : ∀ loc entries, fs.find path ≠ some (loc, .dir entries)) :
    fs.find (path ++ '/' :: rest) = none := by
  unfold FileSystem.find
  rw [FileTree.resolve_append hnul]
  cases hr : fs.tree.resolve path with
  | none => rfl
  | some loc =>
    rw [Option.bind_some]
    have hstep : ∀ c, fs.tree.step loc c = none := by
      intro c
      cases hs : fs.tree.step loc c with
      | none => rfl
      | some loc' =>
        have hd := FileTree.isDir_iff.mp (FileTree.isDir_of_step hs)
        obtain ⟨node, hl, hk⟩ := Option.map_eq_some_iff.mp hd
        cases node with
        | file content => cases hk
        | dir entries => exact absurd (find_eq_some.mpr ⟨hr, hl⟩) (h loc entries)
    cases hc : FileTree.components rest with
    | nil => exact absurd hc (List.splitOn_ne_nil _ _)
    | cons c cs => rw [FileTree.walk, hstep]; rfl

end

/-- A file system that has `root` with `entries` in it, and where every file may be written. -/
def withRoot (entries : List (FileName × FileTree Text))
    (h : (FileTree.dir entries).WellFormed) : FileSystem where
  tree := .dir [("home".toList, .dir [("sw".toList, .dir [("Documents".toList,
    .dir [("cxx".toList, .dir [("res".toList, .dir entries)])])])])]
  wellFormed := .single (by decide) (.single (by decide) (.single (by decide)
    (.single (by decide) (.single (by decide) h))))
  mayWrite := fun _ => true
  room := fun _ => 4096

end Cxx.FileTransfer
