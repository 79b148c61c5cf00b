/-
File trees, and whether a file can be created at a path.

A path is a list of names divided by slashes. It starts at the root if
a slash comes first, and at the working directory otherwise. An empty
name and `.` stay where they are, `..` goes to the parent, and the root
is its own parent. All names but the last lead from directory to
directory; the last one is the name of the file.

A `FileTree` lists what is known to stand where. Nothing stands at the
other locations.
-/

namespace Tabulation

/-- What stands at a location of a file tree. -/
inductive FileTree.Entry where
  /-- A directory, and whether new files can be created in it. -/
  | directory (writable : Bool)
  /-- A device, which can be written to as if it were a file. -/
  | device
deriving DecidableEq, Repr

/-- A location: the names on the way from the root, the last one first. -/
abbrev FileTree.Location := List String

/-- What is known of a file tree. -/
structure FileTree where
  entries : List (FileTree.Location × FileTree.Entry)
  /-- Where a path starts that has no slash in front. -/
  working : FileTree.Location
deriving Repr

namespace FileTree

/-- The most bytes that a name may have. -/
def nameLimit : Nat := 255

/-- The most bytes that a path may have. -/
def pathLimit : Nat := 4095

/-- What stands at a location. -/
def entry? (t : FileTree) (l : Location) : Option Entry := t.entries.lookup l

/-- Whether a directory stands at a location. -/
def isDirectory (t : FileTree) (l : Location) : Bool :=
  match t.entry? l with
  | some (.directory _) => true
  | _ => false

/-- Whether a name stands for a directory wherever it is used. -/
def isDots (name : String) : Bool := name == "" || name == "." || name == ".."

/-- The location that a name leads to. -/
def enter (l : Location) (name : String) : Location :=
  if name = ".." then l.tail
  else if isDots name then l
  else name :: l

/-- The directory that names lead to, if there is one at every step. -/
def walk? (t : FileTree) (l : Location) : List String → Option Location
  | [] => some l
  | name :: rest =>
    let next := enter l name
    if t.isDirectory next then t.walk? next rest else none

/-- Whether a file of the given name can be created, or a device of
that name be written to, in a directory. -/
def accepts (t : FileTree) (l : Location) (name : String) : Bool :=
  match t.entry? (name :: l) with
  | some .device => true
  | some (.directory _) => false
  | none =>
    t.entry? l == some (.directory true) && name.utf8ByteSize ≤ nameLimit

/-- Whether a file can be created at a path. -/
def creatable (t : FileTree) (path : String) : Bool :=
  let names := path.splitOn "/"
  let start := if names.head? = some "" then [] else t.working
  let last := names.getLastD ""
  if isDots last || pathLimit < path.utf8ByteSize then false
  else (t.walk? start names.dropLast).any fun l => t.accepts l last

/-- What a system can be expected to have: a working and a temporary
directory for new files, the directories of the system, and devices
that can be written to. -/
def usual : FileTree where
  working := ["work"]
  entries :=
    [([], .directory false), (["work"], .directory true),
      (["tmp"], .directory true), (["var"], .directory false),
      (["tmp", "var"], .directory true),
      (["dev"], .directory false), (["shm", "dev"], .directory true),
      (["etc"], .directory false), (["home"], .directory false),
        (["proc"], .directory false),
      (["root"], .directory false), (["sys"], .directory false),
        (["usr"], .directory false)] ++
    ["null", "zero", "full", "random", "urandom", "stderr"].map fun name =>
      ([name, "dev"], .device)

end FileTree

end Tabulation
