/-!
# Disks

The files that a command can see: texts by place. A command works in one folder of the disk, from
which paths start that do not start at the root. Apart from the folders of the system, a folder
exists as long as a file is in it.

* `Disk.resolve` : the place that a path leads to, by way of folders that exist.
* `Disk.read` : the text of a file.
* `Disk.write` : a new text for a path.
-/

namespace ControlVoltage.CommandLine

/-- A place on a disk, by the names on the way to it. The folder that commands work in is among
the temporary files, but under a name that they do not know. -/
inductive Place where
  | fromRoot (names : List String)
  | fromWork (names : List String)
deriving DecidableEq, Repr

namespace Place

def root : Place := .fromRoot []

def work : Place := .fromWork []

/-- The place with a name in a folder. -/
def enter (name : String) : Place → Place
  | .fromRoot names => .fromRoot (names ++ [name])
  | .fromWork names => .fromWork (names ++ [name])

/-- The folder that a place is in; the root is in itself. -/
def up : Place → Place
  | .fromRoot names => .fromRoot names.dropLast
  | .fromWork [] => .fromRoot ["tmp"]
  | .fromWork names => .fromWork names.dropLast

/-- Whether the names on the way to the first place lead on to the second. -/
def isAbove : Place → Place → Bool
  | .fromRoot a, .fromRoot b => a.isPrefixOf b && a ≠ b
  | .fromWork a, .fromWork b => a.isPrefixOf b && a ≠ b
  | _, _ => false

end Place

/-- Why a path cannot be read or written. -/
inductive FileFault where
  | notFound
  | denied
  /-- A name along the path is a file. -/
  | notAFolder
  | isAFolder
  | noSpace
  | nameTooLong
  /-- NUL stands in the path, where the system would take the path to end. -/
  | nulInPath
deriving DecidableEq, Repr

def FileFault.message : FileFault → String
  | .notFound => "No such file or directory (os error 2)"
  | .denied => "Permission denied (os error 13)"
  | .notAFolder => "Not a directory (os error 20)"
  | .isAFolder => "Is a directory (os error 21)"
  | .noSpace => "No space left on device (os error 28)"
  | .nameTooLong => "File name too long (os error 36)"
  | .nulInPath => "file name contained an unexpected NUL byte"

/-- The most bytes that a name in a folder can have. -/
def maxNameSize : Nat := 255

/-- The most bytes that a path can have. -/
def maxPathSize : Nat := 4095

/-! ## The system -/

/-- A file of the system that keeps no text. -/
inductive Device where
  /-- What is written to it is lost, and nothing is read from it. -/
  | drain
  /-- It takes no text. -/
  | full
  /-- The standard output. -/
  | output
deriving DecidableEq, Repr

/-- The device at a place. No input is given to the program, and its messages count as lost. -/
def device? : Place → Option Device
  | .fromRoot ["dev", name] =>
    if ["null", "zero", "random", "urandom"].contains name then some .drain
    else if name = "full" then some .full
    else none
  | .fromRoot ["proc", "self", "fd", stream] =>
    if stream = "1" then some .output
    else if stream = "0" || stream = "2" then some .drain
    else none
  | _ => none

/-- Names of the system that stand for another place. -/
def links : List (Place × Place) :=
  [(.fromRoot ["dev", "fd"], .fromRoot ["proc", "self", "fd"]),
    (.fromRoot ["dev", "stdin"], .fromRoot ["proc", "self", "fd", "0"]),
    (.fromRoot ["dev", "stdout"], .fromRoot ["proc", "self", "fd", "1"]),
    (.fromRoot ["dev", "stderr"], .fromRoot ["proc", "self", "fd", "2"]),
    (.fromRoot ["proc", "self", "cwd"], .work),
    (.fromRoot ["proc", "self", "root"], .root)]

/-- The place that a place stands for. -/
def follow (place : Place) : Place := (links.lookup place).getD place

/-- Folders of the system in which nothing can be made. -/
def closedFolders : List Place :=
  [.root, .fromRoot ["proc", "self"], .fromRoot ["proc", "self", "fd"]] ++
    ["bin", "boot", "dev", "etc", "home", "lib", "media", "mnt", "opt", "proc", "root", "run",
      "sbin", "srv", "sys", "usr", "var"].map fun name => .fromRoot [name]

/-- Folders that are always there and take new files. -/
def openFolders : List Place :=
  [.work, .fromRoot ["tmp"], .fromRoot ["var", "tmp"], .fromRoot ["dev", "shm"]]

/-! ## Disks -/

/-- Files with their texts. -/
structure Disk where
  files : List (Place × String)

namespace Disk

def empty : Disk := ⟨[]⟩

/-- The text of the file at a place. -/
def lookup? (disk : Disk) (place : Place) : Option String := disk.files.lookup place

/-- Puts a text at a place, instead of the file that may be there. -/
def put (disk : Disk) (place : Place) (text : String) : Disk :=
  ⟨(place, text) :: disk.files.filter fun file => file.1 ≠ place⟩

/-- Whether there is a folder at a place. -/
def hasFolder (disk : Disk) (place : Place) : Bool :=
  closedFolders.contains place || openFolders.contains place ||
    disk.files.any fun file => place.isAbove file.1

/-- Whether there is a file at a place. -/
def hasFile (disk : Disk) (place : Place) : Bool :=
  (disk.lookup? place).isSome || (device? place).isSome

/-- Goes on from a folder, which has to exist, by one name of a path. -/
def walk (disk : Disk) (place : Place) (name : String) : Except FileFault Place :=
  if !disk.hasFolder place then
    .error (if disk.hasFile place then .notAFolder else .notFound)
  else if name.isEmpty || name = "." then .ok place
  else if name = ".." then .ok place.up
  else if maxNameSize < name.utf8ByteSize then .error .nameTooLong
  else .ok (follow (place.enter name))

/-- The place that a path leads to; the last name may be a new one. A path with NUL in it is
refused before anything else is asked about it. -/
def resolve (disk : Disk) (path : String) : Except FileFault Place :=
  if path.toList.contains '\x00' then .error .nulInPath
  else if path.isEmpty then .error .notFound
  else if maxPathSize < path.utf8ByteSize then .error .nameTooLong
  else (path.splitOn "/").foldlM disk.walk (if path.startsWith "/" then .root else .work)

/-- The text of the file at a path. -/
def read (disk : Disk) (path : String) : Except FileFault String := do
  let place ← disk.resolve path
  match disk.lookup? place, device? place with
  | some text, _ => .ok text
  | none, some _ => .ok ""
  | none, none => .error (if disk.hasFolder place then .isAFolder else .notFound)

/-- Writes a text to a path: what is printed by that, and the disk after it. -/
def write (disk : Disk) (path text : String) : Except FileFault (String × Disk) := do
  let place ← disk.resolve path
  match device? place with
  | some .drain => .ok ("", disk)
  | some .full => .error .noSpace
  | some .output => .ok (text, disk)
  | none =>
    if disk.hasFolder place then .error .isAFolder
    else if closedFolders.contains place.up then .error .denied
    else .ok ("", disk.put place text)

/-- A disk with these files in the folder that commands work in. A later file replaces an earlier
one of the same path. -/
def ofFiles (files : List (String × String)) : Disk :=
  files.foldl
    (fun disk (path, text) =>
      disk.put (.fromWork ((path.splitOn "/").filter fun name => !name.isEmpty && name ≠ ".")) text)
    empty

end Disk

end ControlVoltage.CommandLine
