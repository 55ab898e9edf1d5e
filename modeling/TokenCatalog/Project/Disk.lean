import TokenCatalog.Project.Host

/-!
# Disks

A host in memory: files and folders below one of them, and a clock that stands still. Where they are
is a layout of the whole machine, which may also hold links and folders that are closed.
-/

namespace TokenCatalog.Project

/-! ## Layouts -/

/-- Where files and folders are, by their paths from the root of the machine. -/
structure Layout where
  files : List Path
  folders : List Path
  /-- The links, and where they lead in the end unless they lead to each other. -/
  links : List (Path × Option Path) := []
  /-- Folders that can be neither listed nor entered. -/
  closed : List Path := []
  deriving Repr

/-- One step from a folder, without regard to links. The root is above itself. -/
def enter (folder : Path) (name : List Char) : Path :=
  if name = parentName then folder.dropLast else folder ++ [name]

def about {α : Type} (path : List Char) (answer : Except AccessCause α) : Except AccessFault α :=
  answer.mapError fun cause => ⟨cause, String.ofList path⟩

namespace Layout

/-- The beginnings of a list, the empty one and the whole list included. -/
def beginnings {α : Type} : List α → List (List α)
  | [] => [[]]
  | x :: xs => [] :: (beginnings xs).map (x :: ·)

/-- The layout of files and folders, with all folders that they lie in. -/
def ofPaths (files folders : List Path) : Layout where
  files := files
  folders := ([] :: folders.flatMap beginnings ++
    files.flatMap fun file => beginnings file.dropLast).eraseDups

variable (l : Layout)

def isFile (path : Path) : Bool := l.files.contains path

def isFolder (path : Path) : Bool := l.folders.contains path

def isLink (path : Path) : Bool := (l.links.lookup path).isSome

def kindAt (place : Path) : Except AccessCause Kind :=
  if l.isFolder place then .ok .folder
  else if l.isFile place then .ok .file
  else .error .missing

def opened (place : Path) : Except AccessCause Unit :=
  if !l.isFolder place then .error .notFolder
  else if l.closed.contains place then .error .denied
  else .ok ()

/-- Where the link at a place leads, or the place itself if it is no link. -/
def target (place : Path) : Except AccessCause Path :=
  match l.links.lookup place with
  | some (some target) =>
    if l.closed.any fun folder => folder.isPrefixOf target && folder != target then .error .denied
    else .ok target
  | some none => .error .looping
  | none => .ok place

def step (folder : Path) (name : List Char) : Except AccessCause Path := do
  l.opened folder
  let place ← l.target (enter folder name)
  (l.kindAt place).map fun _ => place

def follow (folder names : Path) : Except AccessCause Path :=
  names.foldlM l.step folder

/-- Where names lead from a folder as far as there are links, whatever else is missing. What cannot
be looked at counts as no link. -/
def resolve : (folder names : Path) → Except Looping Path
  | folder, [] => .ok folder
  | folder, name :: names =>
    let next := enter folder name
    match l.opened folder, l.links.lookup next with
    | .ok _, some (some target) => resolve target names
    | .ok _, some none => .error ⟨String.ofList ('/' :: Path.text (next ++ names))⟩
    | _, _ => resolve next names

def names (folder : Path) : List (List Char) :=
  ((l.folders ++ l.files ++ l.links.map (·.1)).filterMap fun path =>
    if folder.isPrefixOf path then path[folder.length]?.filter (· != parentName)
    else none).eraseDups

/-- One of the names in the folder at a place, given the text of its path. -/
def entry (text : List Char) (place : Path) (name : List Char) : Entry where
  name := name
  leadsToFolder := about text
    (if l.isLink (place ++ [name]) then (l.step place name >>= l.kindAt).map (· == .folder)
    else .ok (l.isFolder (place ++ [name])))
  isFolder := .ok (!l.isLink (place ++ [name]) && l.isFolder (place ++ [name]))

def depth : Nat := l.folders.flatten.length + 1

theorem length_lt_depth {folder : Path} (h : l.isFolder folder = true) : folder.length < l.depth :=
  Nat.lt_succ_of_le (List.sublist_flatten_of_mem (List.contains_iff_mem.mp h)).length_le

theorem ne_parentName_of_mem_names {folder : Path} {name : List Char} (h : name ∈ l.names folder) :
    name ≠ parentName := by
  obtain ⟨path, -, hname⟩ := List.mem_filterMap.mp (List.mem_eraseDups.mp h)
  split at hname
  · exact bne_iff_ne.mp (Option.filter_eq_some_iff.mp hname).2
  · cases hname

/-- The number of names that the path of a folder below some place may still have. -/
def height (folder names : Path) : Nat :=
  match l.follow folder names with
  | .ok place => l.depth - place.length
  | .error _ => 0

theorem height_lt {folder names place : Path} {name : List Char}
    (hplace : l.follow folder names = .ok place)
    (hopened : l.opened place = .ok ()) (hname : name ≠ parentName)
    (hlink : l.isLink (place ++ [name]) = false) (hfolder : l.isFolder (place ++ [name]) = true) :
    l.height folder (names ++ [name]) < l.height folder names := by
  have htarget : l.target (place ++ [name]) = .ok (place ++ [name]) := by
    have hlookup : l.links.lookup (place ++ [name]) = none := by simpa [isLink] using hlink
    rw [target, hlookup]
  have hstep : l.step place name = .ok (place ++ [name]) := by
    have henter : enter place name = place ++ [name] := if_neg hname
    have hkind : l.kindAt (place ++ [name]) = .ok .folder := if_pos hfolder
    simp only [step, hopened, henter, htarget, hkind, bind, Except.bind, Except.map]
  have hnext : l.follow folder (names ++ [name]) = .ok (place ++ [name]) := by
    rw [follow, List.foldlM_append, ← follow, hplace]
    simp only [List.foldlM_cons, List.foldlM_nil, hstep, bind, Except.bind, pure, Except.pure]
  have hdepth := l.length_lt_depth hfolder
  rw [List.length_append, List.length_singleton] at hdepth
  simp only [height, hnext, hplace, List.length_append, List.length_singleton]
  omega

/-- The entries of the folder that names lead to, given the text of the path of the first folder. -/
def entries (text : List Char) (folder names : Path) : Except AccessCause (List Entry) :=
  match l.follow folder names with
  | .error cause => .error cause
  | .ok place =>
    (l.opened place).map fun _ => (l.names place).map fun name =>
      l.entry (namesBelow text (names ++ [name])) place name

/-- The tree of the files and folders below a folder, given the text of its path. -/
def tree (text : List Char) (folder : Path) : Tree where
  stat names := about (namesBelow text names) (l.follow folder names >>= l.kindAt)
  list names := about (namesBelow text names) (l.entries text folder names)
  resolve names := l.resolve folder names
  height := l.height folder
  height_lt := by
    intro names found entry hlist hentry hfolder
    unfold entries at hlist
    split at hlist
    · cases hlist
    · next place hplace =>
        cases hopened : l.opened place with
        | error cause =>
            rw [hopened] at hlist
            cases hlist
        | ok _ =>
            rw [hopened] at hlist
            cases hlist
            obtain ⟨name, hname, rfl⟩ := List.mem_map.mp hentry
            have hboth := Except.ok.inj hfolder
            rw [Bool.and_eq_true, Bool.not_eq_true'] at hboth
            exact l.height_lt hplace hopened (l.ne_parentName_of_mem_names hname) hboth.1 hboth.2

end Layout

/-! ## Disks -/

/-- Files with their bytes and folders beside those that files lie in, by their paths from the
folder that all of them are in. -/
structure Disk where
  root : List Char
  files : List (Path × List UInt8) := []
  folders : List Path := []
  deriving Repr

namespace Disk

/-- The path of the folder that all others are in, from the root of the machine. -/
def base (d : Disk) : Path := Path.ofText d.root

def layout (d : Disk) : Layout :=
  .ofPaths (d.files.map fun file => d.base ++ file.1).eraseDups
    (d.base :: d.folders.map (d.base ++ ·))

def names (d : Disk) (path : List Char) : Path :=
  let names := Path.ofText path
  if isAbsolute path || (!isAbsolute d.root && d.base.isPrefixOf names) then names
  else d.base ++ names

def meansFolder (path : List Char) : Bool :=
  let end? := path.reverse.dropWhile (· == '.')
  path.length - end?.length ≤ 1 && end?.head? == some '/'

/-- The place that a path leads to; the empty path leads nowhere. -/
def place (d : Disk) (path : List Char) : Except AccessCause Path := do
  if path.isEmpty then .error .missing
  let place ← d.layout.follow [] (d.names path)
  if meansFolder path && d.layout.isFile place then .error .notFolder
  .ok place

def tree (d : Disk) : Tree :=
  d.layout.tree d.root d.base

/-! ## Reading -/

def bytesAt (d : Disk) (place : Path) : Except AccessCause (List UInt8) :=
  match d.files.find? fun file => d.base ++ file.1 = place with
  | some file => .ok file.2
  | none => .error .isFolder

def read (d : Disk) (path : List Char) : Except AccessFault (List UInt8) :=
  about path (d.place path >>= d.bytesAt)

def kind? (d : Disk) (path : List Char) : Option Kind :=
  (d.place path >>= d.layout.kindAt).toOption

def treeAt (d : Disk) (path : List Char) : Tree :=
  d.layout.tree path (d.names path)

def fullPath (d : Disk) (path : List Char) : List Char :=
  match d.place path with
  | .ok place => pathOfNames (leadingSlashes d.root) place
  | .error _ => normalPath path

/-! ## Writing -/

/-- A disk with the folders that names lead through from a folder, and the last one of them. Nothing
can be made outside of the disk. -/
def makeFolders (d : Disk) : Path → Path → Except AccessCause (Disk × Path)
  | here, [] => .ok (d, here)
  | here, name :: names =>
    let next := enter here name
    if d.layout.isFile next then .error (if names.isEmpty then .exists else .notFolder)
    else if d.layout.isFolder next then makeFolders d next names
    else if d.base.isPrefixOf next then
      makeFolders { d with folders := next.drop d.base.length :: d.folders } next names
    else .error .missing

def write (d : Disk) (path : List Char) (bytes : List UInt8) : Except AccessFault Disk := do
  let names := d.names path
  let (d, folder) ← about (parentPath path) (d.makeFolders [] names.dropLast)
  match names.getLast?.map (enter folder) with
  | none => .error ⟨.isFolder, String.ofList path⟩
  | some place =>
    if d.layout.isFolder place then .error ⟨.isFolder, String.ofList path⟩
    else if d.base.isPrefixOf place then
      .ok { d with files := (place.drop d.base.length, bytes) :: d.files }
    else .error ⟨.missing, String.ofList path⟩

/-! ## The host -/

def host : Host (StateM Disk) where
  kind? path := do return (← get).kind? path
  fullPath path := do return (← get).fullPath path
  tree path := do return (← get).treeAt path
  read path := do return (← get).read path
  write path bytes := do
    match (← get).write path bytes with
    | .ok d => set d; return .ok ()
    | .error fault => return .error fault
  seconds := return .zero

end Disk

end TokenCatalog.Project
