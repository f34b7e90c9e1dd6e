import StyleSplit.Text.Utf8

/-! The files that a command can see. A path is followed name by name, and every name but
the last must be that of a directory; a directory is there when it is listed or when
something stands in it. -/
namespace StyleSplit.CommandLine

namespace Path

/-- The names in a path as they are written, between slashes. -/
def names : Text → List Text
  | [] => [[]]
  | c :: rest =>
    if c == CodePoint.slash then [] :: names rest
    else match names rest with
      | [] => [[c]]
      | part :: parts => (c :: part) :: parts

/-- Whether a name leads nowhere: an empty one, or a single point. -/
def isIdle (name : Text) : Bool := name.isEmpty || name == [CodePoint.point]

def up : Text := [CodePoint.point, CodePoint.point]

/-- The names in a path without those that lead nowhere. -/
def briefNames (path : Text) : List Text := (names path).filter (!isIdle ·)

def isAbsolute (path : Text) : Bool := path.head? == some CodePoint.slash

def brief (path : Text) : Text :=
  (if isAbsolute path then [CodePoint.slash] else []) ++
    Text.join [CodePoint.slash] (briefNames path)

def lastName (path : Text) : Text := (briefNames path).getLast?.getD []

/-- No path is longer than this many bytes. -/
def limit : Nat := 4095

def nameLimit : Nat := 255

def exceeds (bytes : Nat) (t : Text) : Bool :=
  match t.encode? with
  | some encoded => Nat.blt bytes encoded.length
  | none => false

end Path

/-- A place: the names that lead to it from the root or from the present directory, the
last one first. A way from the present directory may start by leading up. -/
structure Place where
  absolute : Bool
  trail : List Text
deriving DecidableEq, Inhabited

namespace Place

def start (path : Text) : Place := ⟨Path.isAbsolute path, []⟩

/-- One step up. Nothing is above the root. -/
def above (p : Place) : Place :=
  match p.trail with
  | [] => if p.absolute then p else { p with trail := [Path.up] }
  | name :: rest =>
    if name == Path.up then { p with trail := Path.up :: name :: rest }
    else { p with trail := rest }

def step (p : Place) (name : Text) : Place :=
  if Path.isIdle name then p
  else if name == Path.up then p.above
  else { p with trail := name :: p.trail }

/-- The place to which a path leads when every name before the last is a directory. -/
def ofPath (path : Text) : Place := (Path.names path).foldl step (start path)

def path (p : Place) : Text :=
  (if p.absolute then [CodePoint.slash] else []) ++
    Text.join [CodePoint.slash] p.trail.reverse

/-- Whether a place is the present directory, one around it, or the root. These are always
there. -/
def isTop (p : Place) : Bool := p.trail.all (· == Path.up)

def isInside (p : Place) : Bool := !p.absolute && !p.trail.contains Path.up

def leadsTo (p q : Place) : Bool :=
  p.absolute == q.absolute && p.trail.isSuffixOf q.trail

end Place

/-- Files by their paths, with their contents, and directories that may be empty. -/
structure Files where
  contents : List (Text × Bytes)
  directories : List Text
deriving DecidableEq, Inhabited

namespace Files

inductive Found where
  | file (contents : Bytes)
  | directory
  | nothing
deriving DecidableEq, Inhabited

/-- Why a file cannot be read or written: its contents are no text; the text has no UTF-8
form; a directory on the way to it is missing or is a file; it is a directory itself; or a
name on the way is too long. -/
inductive Fault where
  | undecodable | unencodable | missingDirectory | notDirectory | isDirectory | nameTooLong
deriving DecidableEq, Repr, Inhabited

def Fault.message : Fault → Text
  | undecodable => text "input is not UTF-8"
  | unencodable => text "output has no UTF-8 form"
  | missingDirectory => text "no such directory"
  | notDirectory => text "not a directory"
  | isDirectory => text "is a directory"
  | nameTooLong => text "file name too long"

def foundAt (files : Files) (p : Place) : Found :=
  match files.contents.find? fun file => Place.ofPath file.1 == p with
  | some file => .file file.2
  | none =>
    let known := files.contents.map (·.1) ++ files.directories
    if p.isTop || known.any fun path => p.leadsTo (.ofPath path) then .directory else .nothing

def follow (files : Files) (p : Place) : List Text → Except Fault Place
  | [] => .ok p
  | name :: rest =>
    match files.foundAt p with
    | .nothing => .error .missingDirectory
    | .file _ => .error .notDirectory
    | .directory =>
      if Path.exceeds Path.nameLimit name then .error .nameTooLong
      else files.follow (p.step name) rest

/-- What stands at a path. A slash or a point behind the name of a file leads nowhere, for
it is no directory. -/
def find (files : Files) (path : Text) : Found :=
  if path.isEmpty || Path.exceeds Path.limit path then .nothing
  else match files.follow (.start path) (Path.names path) with
    | .ok p => files.foundAt p
    | .error _ => .nothing

/-- Puts contents at a place: into a file that is there, else behind all files. -/
def put (p : Place) (contents : Bytes) : List (Text × Bytes) → List (Text × Bytes)
  | [] => [(p.path, contents)]
  | file :: rest =>
    if Place.ofPath file.1 == p then (file.1, contents) :: rest else file :: put p contents rest

def write (files : Files) (p : Place) (contents : Bytes) : Files :=
  { files with contents := put p contents files.contents }

/-- The text of a file, line ends made alike. -/
def readText (contents : Bytes) : Except Fault Text :=
  match Text.decode? contents with
  | some t => .ok t.normalizeLines
  | none => .error .undecodable

/-- The place to which a path for writing leads. Names that lead nowhere do not count. -/
def destination (files : Files) (path : Text) : Except Fault Place :=
  if Path.exceeds Path.limit (Path.brief path) then .error .nameTooLong
  else files.follow (.start path) (Path.briefNames path)

/-- Writes a text to a file. The file is emptied before the text is encoded, so a text
without a UTF-8 form leaves it empty. -/
def writeText (files : Files) (path t : Text) : Files × Option Fault :=
  match files.destination path with
  | .error fault => (files, some fault)
  | .ok p =>
    match files.foundAt p with
    | .directory => (files, some .isDirectory)
    | _ =>
      match t.encode? with
      | some contents => (files.write p contents, none)
      | none => (files.write p [], some .unencodable)

end Files

end StyleSplit.CommandLine
