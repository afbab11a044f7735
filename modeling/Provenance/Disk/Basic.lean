import Provenance.Assoc
import Provenance.Fault
import Provenance.Disk.Image
import Provenance.Disk.Path
import Provenance.Disk.Place
import Provenance.Text.Utf8

/-! # A disk

A disk is a tree of directories and files, kept as a list of places. Every operation takes a path and
says what stands in its way: a path has at most 4095 bytes and a name at most 255, the way to the last
name leads through directories only, and a directory is neither read nor replaced as a file. The way is
gone step by step, so two dots lead out of a directory that is there.

A file that is held open carries a number. The number stays with the file when it is moved or written
anew, and leads to the file even when no place does any more. -/

namespace Provenance

/-- What a file holds: bytes, or a database with its bytes. -/
inductive Content where
  | bytes (bytes : List UInt8)
  | image (image : Disk.Image)
  deriving DecidableEq, Repr, Inhabited

/-- The bytes of a file. -/
def Content.toBytes : Content → List UInt8
  | bytes bs => bs
  | image i => i.bytes

/-- What stands at a place. A file has a number if it is held open, or was. -/
inductive Entry where
  | directory
  | file (content : Content) (number : Option Nat)
  deriving DecidableEq, Repr, Inhabited

/-- What the users of a log have in common: how many they are, how often they changed the rows, and the
rows after the last change. -/
structure Log where
  users : Nat
  changes : Nat
  rows : Option (List ((String × String) × String))
  deriving DecidableEq, Repr, Inhabited

/-- Entries under the places where they stand, files without a place under their numbers, how many
numbers were given, and the logs that are in use under the numbers of their files. -/
structure Disk where
  entries : List (Disk.Place × Entry)
  loose : List (Nat × Content)
  numbered : Nat
  logs : List (Nat × Log)

namespace Disk

/-- The disk with one empty directory. -/
def withDirectory (name : String) : Disk := ⟨[(Place.top.inside name, .directory)], [], 0, []⟩

/-- The entry at a place; the top of the tree is always there. -/
def find? (d : Disk) (p : Place) : Option Entry :=
  if p = .top then some .directory else d.entries.lookup p

/-- Puts an entry at a place. -/
def put (d : Disk) (p : Place) (e : Entry) : Disk := { d with entries := assign p e d.entries }

/-- Takes the entry at a place away. -/
def remove (d : Disk) (p : Place) : Disk := { d with entries := unassign p d.entries }

@[simp] theorem find?_top (d : Disk) : d.find? .top = some .directory := if_pos rfl

theorem find?_put_self (d : Disk) (e : Entry) {p : Place} (h : p ≠ .top) :
    (d.put p e).find? p = some e := by
  rw [find?, if_neg h]
  exact lookup_assign_self p e d.entries

theorem find?_put_of_ne (d : Disk) (e : Entry) {p q : Place} (h : q ≠ p) :
    (d.put p e).find? q = d.find? q := by
  unfold find?
  split
  · rfl
  · exact lookup_assign_of_ne e h d.entries

/-- Whether there is a directory at a place. -/
def isDirectory (d : Disk) (p : Place) : Bool := d.find? p = some .directory

/-- The number of the file at a place, if it has one. -/
def number? (d : Disk) (p : Place) : Option Nat :=
  match d.find? p with
  | some (.file _ number) => number
  | _ => none

/-! ### Files that are held open -/

/-- Takes the file at a place away. If it has a number it goes on without a place. -/
def detach (d : Disk) (p : Place) : Disk :=
  match d.find? p with
  | some (.file content (some n)) => { d.remove p with loose := assign n content d.loose }
  | _ => d.remove p

/-- Gives the file at a place a number, or finds the one that it has. -/
def hold (d : Disk) (p : Place) : Nat × Disk :=
  match d.find? p with
  | some (.file _ (some n)) => (n, d)
  | some (.file content none) =>
    (d.numbered,
      { d.put p (.file content (some d.numbered)) with numbered := d.numbered + 1 })
  | _ => (d.numbered, { d with numbered := d.numbered + 1 })

/-- The place and the content of the file with a number, if a place leads to it. -/
def placed? (d : Disk) (n : Nat) : Option (Place × Content) :=
  d.entries.findSome? fun (p, e) =>
    match e with
    | .file content number => if number = some n then some (p, content) else none
    | .directory => none

/-- The content of the file with a number. -/
def held (d : Disk) (n : Nat) : Content :=
  match d.placed? n with
  | some (_, content) => content
  | none => (d.loose.lookup n).getD (.bytes [])

/-- Changes the content of the file with a number. -/
def writeHeld (d : Disk) (n : Nat) (content : Content) : Disk :=
  match d.placed? n with
  | some (p, _) => d.put p (.file content (some n))
  | none => { d with loose := assign n content d.loose }

/-! ### Paths -/

/-- Whether a name is longer than a directory can hold. -/
def tooLong (name : String) : Bool := name.utf8ByteSize > 255

/-- What is wrong with a path wherever it leads. -/
def refusal? (path : String) : Option Disk.Fault :=
  if path.toList.contains '\x00' then some .zeroByte
  else if path.utf8ByteSize > 4095 then some .nameTooLong
  else none

/-- Whether a path insists on a directory at its end. -/
def wantsDirectory (path : String) : Bool := path.endsWith "/" || path.endsWith "/."

/-- Whether a path ends in dots, and so in no name that could be given to something else. -/
def endsInDots (path : String) : Bool :=
  match (Text.splitAll '/' path).reverse.dropWhile (· = "") with
  | last :: _ => last = "." || last = ".."
  | [] => true

/-- Goes the way from a place. All but the last name have to be there, as directories. -/
def way (d : Disk) (p : Place) : List Path.Component → Except Disk.Fault Place
  | [] => .ok p
  | .root :: rest => way d .top rest
  | .here :: rest => way d p rest
  | .up :: rest => way d p.outside rest
  | .name n :: rest =>
    if tooLong n then .error .nameTooLong
    else if rest.isEmpty then .ok (p.inside n)
    else match d.find? (p.inside n) with
      | none => .error .notFound
      | some .directory => way d (p.inside n) rest
      | some _ => .error .notDirectory

/-- The place that a path leads to, if the way there is open. -/
def locate (d : Disk) (path : String) : Except Disk.Fault Place :=
  match refusal? path with
  | some fault => .error fault
  | none => d.way .top (Path.components path)

/-! ### Reading -/

/-- The entry at a path. -/
def entry? (d : Disk) (path : String) : Except Disk.Fault (Option Entry) := do
  let p ← d.locate path
  match d.find? p with
  | some .directory => return some .directory
  | none => return none
  | some e => if wantsDirectory path then .error .notDirectory else return some e

/-- The bytes of the file at a path. -/
def read (d : Disk) (path : String) : Except Disk.Fault (List UInt8) := do
  match ← d.entry? path with
  | none => .error .notFound
  | some .directory => .error .isDirectory
  | some (.file content _) => return content.toBytes

/-- Whether there is a file at a path. -/
def isFile (d : Disk) (path : String) : Bool :=
  match d.entry? path with
  | .ok (some (.file ..)) => true
  | _ => false

/-- The files below a place: their paths from there and their bytes, sorted by path. -/
def files (d : Disk) (below : Place) : List (String × List UInt8) :=
  let found := d.entries.filterMap fun (p, e) =>
    match e with
    | .file content _ => (below.from? p).map fun path => (path, content.toBytes)
    | .directory => none
  found.mergeSort fun a b => a.1 ≤ b.1

/-! ### Changes -/

/-- Makes the directories on a way that are missing, from the outside in. Those made before a fault
stay; `made` says whether there are any yet. Only then is a file on the way asked to be a directory
itself; before, it is where the way ends. -/
def makeAll (d : Disk) (p : Place) (made : Bool) :
    List Path.Component → Except Disk.Fault Unit × Disk
  | [] => (.ok (), d)
  | .root :: rest => makeAll d .top made rest
  | .here :: rest => makeAll d p made rest
  | .up :: rest => makeAll d p.outside made rest
  | .name n :: rest =>
    if tooLong n then (.error .nameTooLong, d)
    else match d.find? (p.inside n) with
      | some .directory => makeAll d (p.inside n) made rest
      | some _ => (.error (if made || rest.isEmpty then .occupied else .notDirectory), d)
      | none => makeAll (d.put (p.inside n) .directory) (p.inside n) true rest

/-- Makes the directories that a path names. -/
def makeDirectories (d : Disk) (path : String) : Except Disk.Fault Unit × Disk :=
  match refusal? path with
  | some fault => (.error fault, d)
  | none => d.makeAll .top false (Path.components path)

/-- Writes a file anew. -/
def writeFile (d : Disk) (path : String) (bytes : List UInt8) : Except Disk.Fault Disk := do
  let p ← d.locate path
  if d.isDirectory p then .error .isDirectory
  else if wantsDirectory path then
    .error (if (d.find? p).isSome then .notDirectory else .isDirectory)
  else return d.put p (.file (.bytes bytes) (d.number? p))

/-- Moves a file onto a path, in place of a file that stands there. Directories are not moved. -/
def rename (d : Disk) (source target : String) : Except Disk.Fault Disk := do
  let old ← d.locate source
  let new ← d.locate target
  if endsInDots source || endsInDots target then .error .busy
  else match d.find? old with
    | none => .error .notFound
    | some .directory => .error .isDirectory
    | some e =>
      if wantsDirectory target then .error .notDirectory
      else if d.isDirectory new then .error .isDirectory
      else return ((d.detach new).remove old).put new e

/-- A single change of a disk. -/
inductive Change where
  | makeDirectories (path : String)
  | writeFile (path : String) (bytes : List UInt8)
  | rename (source target : String)

/-- The disk after a change, and the fault that kept the change from happening. -/
def Change.apply (c : Change) (d : Disk) : Except Disk.Fault Unit × Disk :=
  let whole := fun (r : Except Disk.Fault Disk) =>
    match r with
    | .ok d' => ((.ok () : Except Disk.Fault Unit), d')
    | .error fault => (.error fault, d)
  match c with
  | makeDirectories path => d.makeDirectories path
  | writeFile path bytes => whole (d.writeFile path bytes)
  | rename source target => whole (d.rename source target)

/-- The disk after changes, one after the other up to the first fault. -/
def applyAll : List Change → Disk → Except Disk.Fault Unit × Disk
  | [], d => (.ok (), d)
  | c :: rest, d =>
    match c.apply d with
    | (.ok _, d) => applyAll rest d
    | (.error fault, d) => (.error fault, d)

end Disk

end Provenance
