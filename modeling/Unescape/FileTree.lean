set_option autoImplicit false

/-! # Paths and file trees

A *path* is a text that names a place in a file tree. It is kept as it is written: joining a name to
it and dropping its last component are operations on the text, and give texts that may differ where the
places do not.

A *file tree* says what stands where, and follows a path from the root, or from the working directory if
the path does not begin with a slash. A dot and an empty piece stay in a directory, two dots lead to the
one above, and above the root there is the root itself. The empty path leads nowhere. -/

namespace Unescape

/-! ## Paths -/

/-- A path: what stands in front of its first slash, and behind each slash. -/
structure Path where
  first : String
  rest : List String
deriving DecidableEq, Repr

namespace Path

/-- Cut a text at its slashes. -/
def ofChars : List Char → Path
  | [] => ⟨"", []⟩
  | c :: cs =>
    let p := ofChars cs
    if c = '/' then ⟨"", p.first :: p.rest⟩ else ⟨String.singleton c ++ p.first, p.rest⟩

/-- The path that a text is. -/
def ofString (s : String) : Path := ofChars s.toList

/-- The characters of a path. -/
def chars (p : Path) : List Char := p.first.toList ++ p.rest.flatMap fun piece => '/' :: piece.toList

/-- A path is its text. -/
theorem chars_ofString (s : String) : (ofString s).chars = s.toList := by
  unfold ofString
  induction s.toList with
  | nil => rfl
  | cons c cs ih =>
    rw [ofChars]
    split
    · rename_i hslash
      simpa [chars, hslash] using ih
    · simpa [chars] using ih

/-- The path that is the empty text. -/
def empty : Path := ⟨"", []⟩

/-- The path that is a single slash. -/
def root : Path := ⟨"", [""]⟩

/-- Whether a path begins with a slash. -/
def isAbsolute (p : Path) : Bool := p.first == "" && !p.rest.isEmpty

/-- Whether a piece leads nowhere: it is empty, or the dot that stands for the same directory. -/
def isIdle (piece : String) : Bool := piece == "" || piece == "."

/-- Whether a piece can be the name of a file or a directory. -/
def isName (piece : String) : Bool := !isIdle piece && piece != ".."

/-- The components of a path, without the root. A dot is one only at the very front. -/
def components (p : Path) : List String :=
  (if p.first = "" then [] else [p.first]) ++ p.rest.filter fun piece => !isIdle piece

/-- A front of a path that begins with `first`. Nothing but a slash is left in front of the first
    component of an absolute path. -/
def front (first : String) (rest : List String) : Path :=
  if first = "" ∧ rest = [] then root else ⟨first, rest⟩

theorem components_front (first : String) (rest : List String) :
    (front first rest).components = components ⟨first, rest⟩ := by
  unfold front
  split
  · rename_i h
    rw [h.1, h.2]
    rfl
  · rfl

/-- The path without its last component, if it has one, and without what is idle in front of that. -/
def parent? (p : Path) : Option Path :=
  match p.rest.reverse.dropWhile isIdle with
  | _ :: before => some (front p.first (before.dropWhile isIdle).reverse)
  | [] => if p.first = "" then none else some empty

theorem filter_dropWhile_isIdle (l : List String) :
    (l.dropWhile isIdle).filter (fun piece => !isIdle piece)
      = l.filter fun piece => !isIdle piece := by
  induction l with
  | nil => rfl
  | cons piece l ih =>
    by_cases hidle : isIdle piece = true
    · simp [hidle, ih]
    · simp [hidle]

/-- Behind what is idle at the front stands the first piece that is not. -/
theorem filter_eq_cons_of_dropWhile {l before : List String} {last : String}
    (h : l.dropWhile isIdle = last :: before) :
    l.filter (fun piece => !isIdle piece) = last :: before.filter fun piece => !isIdle piece := by
  have hlast : isIdle last = false := by
    have := List.head?_dropWhile_not isIdle l
    simpa [h] using this
  rw [← filter_dropWhile_isIdle, h, List.filter_cons_of_pos (by simp [hlast])]

/-- A parent has fewer components. -/
theorem length_components_parent?_lt {p q : Path} (h : p.parent? = some q) :
    q.components.length < p.components.length := by
  unfold parent? at h
  split at h
  · rename_i last before hback
    obtain rfl := Option.some.inj h
    have hcount := congrArg List.length (filter_eq_cons_of_dropWhile hback)
    rw [List.filter_reverse, List.length_reverse, List.length_cons] at hcount
    rw [components_front]
    simp only [components, List.length_append, List.filter_reverse, List.length_reverse,
      filter_dropWhile_isIdle]
    omega
  · split at h
    · exact absurd h (by simp)
    · rename_i hfirst
      obtain rfl := Option.some.inj h
      simp [components, empty, hfirst]

/-- A path with a name behind it. A slash is written in between, unless the path is empty or ends in
    one: in an empty piece, whose place the name takes. -/
def child (p : Path) (name : String) : Path :=
  if p = empty then ⟨name, []⟩
  else if p.rest.getLast? = some "" then ⟨p.first, p.rest.dropLast ++ [name]⟩
  else ⟨p.first, p.rest ++ [name]⟩

/-- A path and all paths that come from it by dropping components from its end, the path itself
    first. -/
def ancestors (p : Path) : List Path :=
  match h : p.parent? with
  | none => [p]
  | some q =>
    have := length_components_parent?_lt h
    p :: ancestors q
termination_by p.components.length

end Path

/-! ## File trees -/

/-- The directories on the way from the root to a file or a directory, and its own name. -/
abbrev Location := List String

/-- What stands at a location. -/
inductive Node where
  | file (bytes : ByteArray)
  | directory

/-- The files and directories below a root, without links. -/
structure FileTree where
  node? : Location → Option Node
  /-- The names in a directory, in the order in which they are listed. -/
  names : Location → List String
  /-- Where paths begin that do not begin with a slash. -/
  workingDirectory : Location
  node?_root : node? [] = some .directory
  node?_of_concat : ∀ {loc name}, node? (loc ++ [name]) ≠ none → node? loc = some .directory
  isName_of_concat : ∀ {loc name}, node? (loc ++ [name]) ≠ none → Path.isName name = true
  mem_names : ∀ {loc name}, name ∈ names loc ↔ node? (loc ++ [name]) ≠ none

namespace FileTree

/-- Whether a directory stands at a location. -/
def isDirectory (t : FileTree) (loc : Location) : Bool :=
  match t.node? loc with
  | some .directory => true
  | _ => false

/-- Where a piece of a path leads from a directory. -/
def step (loc : Location) (piece : String) : Location :=
  if Path.isIdle piece then loc else if piece = ".." then loc.dropLast else loc ++ [piece]

/-- Follow pieces from a location. Wherever there is one more to follow, a directory must stand. -/
def follow (t : FileTree) (loc : Location) : List String → Option Location
  | [] => some loc
  | piece :: pieces => if t.isDirectory loc then follow t (step loc piece) pieces else none

/-- Where the pieces of a path are followed from. -/
def origin (t : FileTree) (p : Path) : Location := if p.isAbsolute then [] else t.workingDirectory

/-- The location that a path names, whether or not something is there. -/
def resolve? (t : FileTree) (p : Path) : Option Location :=
  if p = Path.empty then none else t.follow (t.origin p) (p.first :: p.rest)

/-- The bytes of the file that a path names. -/
def read? (t : FileTree) (p : Path) : Option ByteArray :=
  match (t.resolve? p).bind t.node? with
  | some (.file bytes) => some bytes
  | _ => none

/-- The paths of the directories directly below the directory that a path names, if it names one. -/
def childDirectories (t : FileTree) (dir : Path) : List Path :=
  match t.resolve? dir with
  | none => []
  | some loc =>
    if t.isDirectory loc then
      ((t.names loc).filter fun name => t.isDirectory (loc ++ [name])).map dir.child
    else []

/-! ## Trees from lists -/

section Listed

variable (directories : List Location) (files : List (Location × ByteArray))

/-- Every listed directory, and every one in which a file is listed. -/
def listedDirectories : List Location := directories ++ files.map fun f => f.1.dropLast

/-- What is listed at a location. A directory is there if it is listed, or if something is listed below
    it; of two files at one place the later counts. -/
def listedNode? (loc : Location) : Option Node :=
  if loc.all Path.isName then
    if loc.isEmpty || (listedDirectories directories files).any (loc.isPrefixOf ·) then
      some .directory
    else (files.reverse.find? fun f => f.1 == loc).map fun f => .file f.2
  else none

/-- The names of all that is listed directly below a location. -/
def listedNames (loc : Location) : List String :=
  ((directories ++ files.map (·.1)).filterMap fun l =>
    if loc.isPrefixOf l then (l.drop loc.length).head? else none).eraseDups.filter fun name =>
      (listedNode? directories files (loc ++ [name])).isSome

variable {directories files} {loc : Location} {name : String}

theorem exists_of_listedNode?_concat (h : listedNode? directories files (loc ++ [name]) ≠ none) :
    (loc ++ [name]).all Path.isName = true ∧
      ∃ l ∈ directories ++ files.map (·.1), loc ++ [name] <+: l := by
  unfold listedNode? at h
  split at h
  · rename_i hnames
    refine ⟨hnames, ?_⟩
    split at h
    · rename_i hdir
      have hdir : ∃ d ∈ listedDirectories directories files, loc ++ [name] <+: d := by
        simpa using hdir
      obtain ⟨d, hd, hprefix⟩ := hdir
      rcases List.mem_append.1 hd with hd | hd
      · exact ⟨d, List.mem_append_left _ hd, hprefix⟩
      · obtain ⟨f, hf, rfl⟩ := List.mem_map.1 hd
        exact ⟨f.1, List.mem_append_right _ (List.mem_map_of_mem hf),
          hprefix.trans (List.dropLast_prefix _)⟩
    · obtain ⟨e, he⟩ := Option.ne_none_iff_exists'.1 h
      obtain ⟨f, hf, -⟩ := Option.map_eq_some_iff.1 he
      have hmem := List.mem_reverse.1 (List.mem_of_find?_eq_some hf)
      have hloc : f.1 = loc ++ [name] := by simpa using List.find?_some hf
      exact ⟨f.1, List.mem_append_right _ (List.mem_map_of_mem hmem), hloc ▸ List.prefix_rfl⟩
  · exact absurd rfl h

theorem listedNode?_of_concat (h : listedNode? directories files (loc ++ [name]) ≠ none) :
    listedNode? directories files loc = some .directory := by
  obtain ⟨hnames, l, hl, rest, rfl⟩ := exists_of_listedNode?_concat h
  have hdir : ∃ d ∈ listedDirectories directories files, loc <+: d := by
    rcases List.mem_append.1 hl with hl | hl
    · exact ⟨_, List.mem_append_left _ hl, by simp⟩
    · obtain ⟨f, hf, hloc⟩ := List.mem_map.1 hl
      refine ⟨_, List.mem_append_right _ (List.mem_map_of_mem hf), ?_⟩
      rw [hloc, List.append_assoc, List.dropLast_append_of_ne_nil (by simp)]
      exact List.prefix_append _ _
  rw [List.all_append, Bool.and_eq_true] at hnames
  rw [listedNode?, if_pos hnames.1, if_pos]
  simpa using .inr hdir

theorem mem_listedNames :
    name ∈ listedNames directories files loc
      ↔ listedNode? directories files (loc ++ [name]) ≠ none := by
  rw [listedNames, List.mem_filter, Option.ne_none_iff_isSome, and_iff_right_iff_imp]
  intro h
  obtain ⟨-, l, hl, rest, rfl⟩ := exists_of_listedNode?_concat (Option.ne_none_iff_isSome.2 h)
  rw [List.mem_eraseDups, List.mem_filterMap]
  exact ⟨_, hl, by simp⟩

end Listed

/-- The tree of listed directories and files. -/
def ofLists (directories : List Location) (files : List (Location × ByteArray))
    (workingDirectory : Location) : FileTree where
  node? := listedNode? directories files
  names := listedNames directories files
  workingDirectory
  node?_root := rfl
  node?_of_concat := listedNode?_of_concat
  isName_of_concat h := by
    have hnames := (exists_of_listedNode?_concat h).1
    rw [List.all_append, Bool.and_eq_true] at hnames
    simpa using hnames.2
  mem_names := mem_listedNames

end FileTree

end Unescape
