import Cxx.Core.LTS
import Cxx.FileTransfer.FileManager

/-!
# The links of the directory pages

A page prints its links as the target it was asked for, with the name behind
it; a target is resolved behind `root`. `browse` is what a user reaches from
"/" by the buttons of the pages.

* `located_name`: where the target of one name leads, "/search" and what begins
  with it included.
* `links_lead_back`: all links lead to what they were printed for exactly when
  no page below that of "/" has a link, and no name in `root` goes on behind "search".
-/
namespace Cxx.FileTransfer

def browse (fs : FileSystem) : LTS Text Item where
  init target := target = "/".toList
  step target i target' :=
    ∃ items, (get fs target).body = .page target items ∧ i ∈ items ∧ i.isDirectory ∧
      target' = i.link target

/-- Every link of every page that browsing comes to, sent back as a target,
leads to the entry that it was printed for. -/
def LinksLeadBack (fs : FileSystem) : Prop :=
  ∀ target items, (browse fs).Reachable target → (get fs target).body = .page target items →
    ∀ i ∈ items, located fs (i.link target) = some i.entry

/-- The entries of the directory `root`. -/
def rootEntries (fs : FileSystem) : List (FileName × FileTree Text) :=
  match fs.find root with
  | some (_, .dir entries) => entries
  | _ => []

def searchName : FileName := "search".toList

/-- In `root`, no name but "search" itself begins with "search", and every
directory of another name is empty. -/
def FlatRoot (fs : FileSystem) : Prop :=
  ∀ e ∈ rootEntries fs, (searchName <+: e.1 → e.1 = searchName) ∧
    ∀ entries, e.2 = .dir entries → e.1 ≠ searchName → entries = []

/-! ## The directory `root` -/

section
variable {fs : FileSystem}

/-- What `root` leads to: a directory, or none. -/
theorem root_cases (fs : FileSystem) :
    fs.find root = some (rootLoc, .dir (rootEntries fs)) ∨
      rootEntries fs = [] ∧ ∀ loc entries, fs.find root ≠ some (loc, .dir entries) := by
  unfold rootEntries
  split
  · rename_i loc entries h
    rw [loc_of_root (find_eq_some.mp h).1] at h
    exact .inl h
  · rename_i hno
    exact .inr ⟨rfl, hno⟩

theorem find_root_of_mem {e : FileName × FileTree Text} (he : e ∈ rootEntries fs) :
    fs.find root = some (rootLoc, .dir (rootEntries fs)) := by
  rcases root_cases fs with h | ⟨hnil, -⟩
  · exact h
  · rw [hnil] at he
    cases he

theorem find_root_name {name : FileName} (hname : name.Valid) :
    fs.find (root ++ '/' :: name) =
      ((rootEntries fs).lookup name).map fun node => (rootLoc ++ [name], node) := by
  rcases root_cases fs with h | ⟨hnil, hno⟩
  · exact find_child root_noNul h hname
  · rw [find_below root_noNul hno, hnil]
    rfl

/-- A slash behind a directory changes nothing, and behind anything else it leads nowhere. -/
theorem find_root_slash {loc : Loc} {entries : List (FileName × FileTree Text)} :
    fs.find (root ++ ['/']) = some (loc, .dir entries) ↔
      fs.find root = some (loc, .dir entries) := by
  rcases root_cases fs with h | ⟨-, hno⟩
  · obtain ⟨hr, hl⟩ := find_eq_some.mp h
    have hslash : fs.find (root ++ ['/']) = fs.find root := by
      unfold FileSystem.find
      rw [FileTree.resolve_append root_noNul, hr, Option.bind_some,
        show FileTree.components [] = [[]] from rfl, FileTree.walk, FileTree.step,
        if_pos (FileTree.isDir_of_lookup hl), if_pos (.inl rfl)]
      rfl
    rw [hslash]
  · rw [find_below root_noNul hno]
    exact iff_of_false (Option.some_ne_none _).symm (hno loc entries)

theorem rootEntries_dir {e : FileName × FileTree Text} (he : e ∈ rootEntries fs) :
    (FileTree.dir (rootEntries fs)).WellFormed :=
  fs.wellFormed.lookup (find_eq_some.mp (find_root_of_mem he)).2

theorem rootEntries_wellFormed {e : FileName × FileTree Text} (he : e ∈ rootEntries fs) :
    e.1.Valid ∧ (rootEntries fs).lookup e.1 = some e.2 := by
  cases rootEntries_dir he with
  | dir distinct names _ => exact ⟨names e he, FileTree.lookup_entry distinct he⟩

theorem rootEntries_below {name : FileName} {entries : List (FileName × FileTree Text)}
    (he : (name, .dir entries) ∈ rootEntries fs) : ∀ e ∈ entries, e.1.Valid := by
  cases rootEntries_dir he with
  | dir _ _ below =>
    have hwf : (FileTree.dir entries).WellFormed := below _ he
    cases hwf with
    | dir _ names _ => exact names

/-! ## Where a target of one name leads -/

theorem isSearch_cons {name : Text} : isSearch ('/' :: name) = searchName.isPrefixOf name := rfl

/-- The name that is looked up for the target "/" `name`. -/
def asked (name : FileName) : FileName := if searchName.isPrefixOf name then searchName else name

theorem searchName_valid : searchName.Valid := by decide

theorem asked_valid {name : FileName} (h : name.Valid) : (asked name).Valid := by
  unfold asked
  split
  · exact searchName_valid
  · exact h

theorem newPath_name {name : FileName} :
    newPath ('/' :: name) (isSearch ('/' :: name)) = root ++ '/' :: asked name := by
  unfold newPath asked
  rw [isSearch_cons]
  by_cases hs : searchName.isPrefixOf name
  · obtain ⟨rest, rfl⟩ := List.isPrefixOf_iff_prefix.mp hs
    rw [if_pos hs, if_pos hs, List.take_succ_cons]
    congr 2
  · rw [if_neg hs, if_neg hs]

theorem located_name {name : FileName} (hname : name.Valid) : located fs ('/' :: name) =
    ((rootEntries fs).lookup (asked name)).map fun _ => rootLoc ++ [asked name] := by
  unfold located
  rw [newPath_name, find_root_name (asked_valid hname), Option.map_map]
  rfl

/-! ## Pages -/

/-- What is shown of the entries of a directory. -/
def itemsOf (loc : Loc) (entries : List (FileName × FileTree Text)) : List Item :=
  entries.map fun e => ⟨loc ++ [e.1], e.1, isDirectoryEntry e.2⟩

theorem page_of_find {target : Text} {loc : Loc} {entries : List (FileName × FileTree Text)}
    (hs : isSearch target = false) (hnul : Char.ofNat 0 ∉ root ++ target)
    (h : fs.find (root ++ target) = some (loc, .dir entries)) :
    (get fs target).body = .page target (itemsOf loc entries) := by
  have hpath : newPath target false = root ++ target := rfl
  unfold get handleRequest
  rw [hs, hpath, h]
  change Body.page target (List.map _ (List.map _ entries)) = _
  rw [List.map_map]
  congr 1
  refine List.map_congr_left fun e he => ?_
  cases fs.wellFormed.lookup (find_eq_some.mp h).2 with
  | dir distinct names _ =>
    have hfind := find_child hnul h (names e he)
    rw [FileTree.lookup_entry distinct he, Option.map_some] at hfind
    change Item.mk _ _ (fs.isDirectory (root ++ target ++ '/' :: e.1)) = _
    unfold FileSystem.isDirectory
    rw [hfind]
    cases he2 : e.2 <;> rfl

/-- A page is that of a directory. -/
theorem find_of_page {target : Text} {items : List Item}
    (h : (get fs target).body = .page target items) :
    ∃ loc entries, fs.find (newPath target (isSearch target)) = some (loc, .dir entries) := by
  unfold get handleRequest at h
  split at h
  · cases h
  · exact ⟨_, _, ‹_›⟩
  · cases h

/-! ## Searching -/

theorem mem_searchEntries {keyword : Text} {directory : Loc} {p : Loc × FileName}
    {entries : List (FileName × FileTree Text)} (h : p ∈ searchEntries keyword directory entries) :
    ∃ e ∈ entries, p ∈ searchEntry keyword directory e := by
  induction entries with
  | nil => cases h
  | cons e entries ih =>
    rcases List.mem_append.mp h with h | h
    · exact ⟨e, List.mem_cons_self, h⟩
    · obtain ⟨e', he', h⟩ := ih h
      exact ⟨e', List.mem_cons_of_mem _ he', h⟩

/-- A search finds names that contain the keyword. -/
theorem search_mem {keyword : Text} {node : FileTree Text} (hwf : node.WellFormed) :
    ∀ {directory : Loc} {p : Loc × FileName}, p ∈ searchFilesRecursive keyword directory node →
      keyword <:+: p.2 ∧ p.2.Valid := by
  induction hwf with
  | file content => intro directory p h; cases h
  | dir _ names _ ih =>
    intro directory p h
    obtain ⟨e, he, h⟩ := mem_searchEntries h
    unfold searchEntry at h
    split at h
    · exact ih e he h
    · split at h
      · rw [List.mem_singleton.mp h]
        exact ⟨‹_›, names e he⟩
      · cases h

/-- The page for "/search" as a directory: it searches for a name with a slash. -/
theorem page_search {items : List Item}
    (h : (get fs ('/' :: searchName)).body = .page ('/' :: searchName) items) : items = [] := by
  have hsearch : isSearch ('/' :: searchName) = true := by decide
  have hkeyword : searchKeyword ('/' :: searchName) = '/' :: searchName := by decide
  unfold get handleRequest at h
  rw [hsearch] at h
  split at h
  · cases h
  · rw [if_pos rfl, hkeyword] at h
    cases h
    split
    · rfl
    · rename_i directory node hfind
      have hwf := fs.wellFormed.lookup (find_eq_some.mp hfind).2
      cases hf : searchFilesRecursive ('/' :: searchName) directory node with
      | nil => rfl
      | cons p rest =>
        have hmem : p ∈ searchFilesRecursive ('/' :: searchName) directory node := by
          rw [hf]; exact List.mem_cons_self
        obtain ⟨hin, hvalid⟩ := search_mem hwf hmem
        exact absurd (hin.subset List.mem_cons_self) hvalid.noSlash
  · cases h

/-! ## Browsing -/

theorem start_noNul : Char.ofNat 0 ∉ root ++ ['/'] := by decide

/-- The page of "/" lists the entries of `root`. -/
theorem page_start {items : List Item} (h : (get fs ['/']).body = .page ['/'] items) :
    items = itemsOf rootLoc (rootEntries fs) := by
  obtain ⟨loc, entries, hf⟩ := find_of_page h
  rcases root_cases fs with hroot | ⟨-, hno⟩
  · rw [page_of_find rfl start_noNul (find_root_slash.mpr hroot)] at h
    cases h
    rfl
  · exact absurd (find_root_slash.mp hf) (hno loc entries)

theorem page_start_of_mem {e : FileName × FileTree Text} (he : e ∈ rootEntries fs) :
    (get fs ['/']).body = .page ['/'] (itemsOf rootLoc (rootEntries fs)) :=
  page_of_find rfl start_noNul (find_root_slash.mpr (find_root_of_mem he))

/-- A link of the page of "/". -/
theorem start_link {e : FileName × FileTree Text} (he : e ∈ rootEntries fs) :
    located fs ('/' :: e.1) = some (rootLoc ++ [e.1]) ↔
      (searchName <+: e.1 → e.1 = searchName) := by
  obtain ⟨hvalid, hl⟩ := rootEntries_wellFormed he
  rw [located_name hvalid]
  unfold asked
  by_cases hs : searchName <+: e.1
  · rw [if_pos (List.isPrefixOf_iff_prefix.mpr hs)]
    constructor
    · intro h _
      obtain ⟨_, _, h⟩ := Option.map_eq_some_iff.mp h
      exact (List.cons.inj (List.append_cancel_left h)).1.symm
    · intro h
      rw [h hs] at hl ⊢
      rw [hl]
      rfl
  · rw [if_neg fun h => hs (List.isPrefixOf_iff_prefix.mp h), hl]
    exact iff_of_true rfl fun h => absurd h hs

/-- The page of a directory in `root` that a target does not take for a search. -/
theorem page_below {name : FileName} {entries : List (FileName × FileTree Text)}
    (he : (name, .dir entries) ∈ rootEntries fs) (hs : ¬ searchName <+: name) :
    (get fs ('/' :: name)).body = .page ('/' :: name) (itemsOf (rootLoc ++ [name]) entries) := by
  obtain ⟨hvalid, hl⟩ := rootEntries_wellFormed he
  have hnul : Char.ofNat 0 ∉ root ++ '/' :: name := by
    intro h
    rcases List.mem_append.mp h with h | h
    · exact root_noNul h
    · rcases List.mem_cons.mp h with h | h
      · exact absurd h (by decide)
      · exact hvalid.noNul h
  refine page_of_find ?_ hnul ?_
  · rw [isSearch_cons]
    exact Bool.eq_false_iff.mpr fun h => hs (List.isPrefixOf_iff_prefix.mp h)
  · rw [find_root_name hvalid, hl]
    rfl

theorem append_valid {d e : FileName} (hd : d.Valid) (he : e.Valid) : (d ++ e).Valid where
  nonempty := fun h => hd.nonempty (List.append_eq_nil_iff.mp h).1
  noSlash := fun h => (List.mem_append.mp h).elim hd.noSlash he.noSlash
  noNul := fun h => (List.mem_append.mp h).elim hd.noNul he.noNul
  notSelf := fun h => by
    rcases List.append_eq_singleton_iff.mp h with ⟨h, -⟩ | ⟨-, h⟩
    · exact hd.nonempty h
    · exact he.nonempty h
  notParent := fun h => by
    rcases List.append_eq_cons_iff.mp h with ⟨h, -⟩ | ⟨d', -, h⟩
    · exact hd.nonempty h
    · rcases List.append_eq_singleton_iff.mp h.symm with ⟨-, h⟩ | ⟨-, h⟩
      · exact he.notSelf h
      · exact he.nonempty h

theorem browse_start : (browse fs).Reachable ['/'] := ⟨_, [], rfl, .nil _⟩

theorem browse_directory {name : FileName} {entries : List (FileName × FileTree Text)}
    (he : (name, .dir entries) ∈ rootEntries fs) : (browse fs).Reachable ('/' :: name) := by
  have hstep : (browse fs).step ['/'] ⟨rootLoc ++ [name], name, true⟩ ('/' :: name) :=
    ⟨_, page_start_of_mem he, List.mem_map.mpr ⟨_, he, rfl⟩, rfl, rfl⟩
  exact ⟨['/'], _, rfl, .cons hstep (.nil _)⟩

/-- A link of a page below that of "/" leads to a name in `root`, or nowhere. -/
theorem below_link {name : FileName} {entries : List (FileName × FileTree Text)}
    (he : (name, .dir entries) ∈ rootEntries fs) {below : FileName} (hb : below.Valid) :
    located fs ('/' :: (name ++ below)) ≠ some (rootLoc ++ [name] ++ [below]) := by
  rw [located_name (append_valid (rootEntries_wellFormed he).1 hb)]
  intro h
  obtain ⟨_, _, hloc⟩ := Option.map_eq_some_iff.mp h
  have hlen := congrArg List.length hloc
  rw [List.length_append, List.length_append, List.length_append] at hlen
  change rootLoc.length + 1 = rootLoc.length + 1 + 1 at hlen
  omega

theorem mem_itemsOf {loc : Loc} {entries : List (FileName × FileTree Text)} {i : Item} :
    i ∈ itemsOf loc entries ↔
      ∃ e ∈ entries, i = ⟨loc ++ [e.1], e.1, isDirectoryEntry e.2⟩ := by
  unfold itemsOf
  rw [List.mem_map]
  exact exists_congr fun e => and_congr_right fun _ => eq_comm

/-- The targets that browsing comes to in a flat `root`. -/
def Near (fs : FileSystem) (target : Text) : Prop :=
  target = ['/'] ∨ ∃ name entries, (name, .dir entries) ∈ rootEntries fs ∧ target = '/' :: name

/-- In a flat `root` the page of a directory has no links. -/
theorem page_near (hflat : FlatRoot fs) {name : FileName}
    {entries : List (FileName × FileTree Text)} (he : (name, .dir entries) ∈ rootEntries fs)
    {items : List Item} (h : (get fs ('/' :: name)).body = .page ('/' :: name) items) :
    items = [] := by
  obtain ⟨hsearch, hempty⟩ := hflat _ he
  by_cases hs : searchName <+: name
  · have hname : name = searchName := hsearch hs
    subst hname
    exact page_search h
  · have hne : name ≠ searchName := fun hn => hs (hn ▸ List.prefix_rfl)
    have hnil : entries = [] := hempty entries rfl hne
    rw [page_below he hs, hnil] at h
    cases h
    rfl

theorem browse_near (hflat : FlatRoot fs) : (browse fs).Inductive (Near fs) where
  init := fun target h => .inl h
  step := fun target i target' hnear h => by
    obtain ⟨items, hpage, hi, hdir, rfl⟩ := h
    rcases hnear with rfl | ⟨name, entries, he, rfl⟩
    · rw [page_start hpage] at hi
      obtain ⟨e, he, rfl⟩ := mem_itemsOf.mp hi
      obtain ⟨name, node⟩ := e
      cases node with
      | file content => cases hdir
      | dir entries => exact .inr ⟨name, entries, he, rfl⟩
    · rw [page_near hflat he hpage] at hi
      cases hi

theorem flat_of_links (h : LinksLeadBack fs) : FlatRoot fs := by
  have hnames : ∀ e ∈ rootEntries fs, searchName <+: e.1 → e.1 = searchName := by
    intro e he
    have hlink := h _ _ browse_start (page_start_of_mem he) ⟨rootLoc ++ [e.1], e.1, _⟩
      (mem_itemsOf.mpr ⟨e, he, rfl⟩)
    exact (start_link he).mp hlink
  intro e he
  refine ⟨hnames e he, fun entries hdir hne => ?_⟩
  obtain ⟨name, node⟩ := e
  have hdir : node = .dir entries := hdir
  subst hdir
  have hs : ¬ searchName <+: name := fun hs => hne (hnames _ he hs)
  cases entries with
  | nil => rfl
  | cons e' entries =>
    -- the page of the directory has a link, and it leads to a name in `root`
    have hlink := h _ _ (browse_directory he) (page_below he hs)
      ⟨rootLoc ++ [name] ++ [e'.1], e'.1, _⟩ (mem_itemsOf.mpr ⟨e', List.mem_cons_self, rfl⟩)
    exact absurd hlink (below_link he (rootEntries_below he e' List.mem_cons_self))

theorem links_of_flat (hflat : FlatRoot fs) : LinksLeadBack fs := by
  intro target items hr hpage i hi
  rcases (browse_near hflat).reachable target hr with rfl | ⟨name, entries, he, rfl⟩
  · rw [page_start hpage] at hi
    obtain ⟨e, he, rfl⟩ := mem_itemsOf.mp hi
    exact (start_link he).mpr (hflat e he).1
  · rw [page_near hflat he hpage] at hi
    cases hi

end

/-- **Links lead back.** Every link of every page that browsing from "/" comes to
leads to the entry it was printed for if and only if `root` is flat: a link
below its page has no slash between the two names. -/
theorem links_lead_back (fs : FileSystem) : LinksLeadBack fs ↔ FlatRoot fs :=
  ⟨flat_of_links, links_of_flat⟩

/-- The page of "/docs" asks for "/docsa.txt". -/
theorem link_astray : ¬ ∀ fs, LinksLeadBack fs := by
  intro h
  have hwf : (FileTree.dir [("docs".toList, .dir [("a.txt".toList, .file [])])] :
      FileTree Text).WellFormed := .single (by decide) (.single (by decide) (.file []))
  have hflat := flat_of_links (h (withRoot _ hwf))
  have hempty := (hflat ("docs".toList, .dir [("a.txt".toList, .file [])]) (.head _)).2 _ rfl
    (by decide)
  cases hempty

end Cxx.FileTransfer
