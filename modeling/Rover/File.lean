import Rover.File.Path

/-!
Access to files. What the library does with files goes through three operations, so that it runs on
real files as well as on a tree of files in memory.
-/

namespace Rover

inductive FileError where
  | notFound
  | notDirectory
  | isDirectory
  | nameTooLong
  | invalidName
  | other (message : Text)
  deriving DecidableEq, Repr

def FileError.message : FileError → Text
  | notFound => text "no such file or directory"
  | notDirectory => text "not a directory"
  | isDirectory => text "is a directory"
  | nameTooLong => text "file name too long"
  | invalidName => text "invalid argument"
  | other message => message

inductive FileKind where
  | file
  | directory
  deriving DecidableEq, Repr

structure FileFailure where
  action : Text
  path : Text
  error : FileError
  deriving DecidableEq, Repr

def FileFailure.message (failure : FileFailure) : Text :=
  failure.action ++ text " " ++ failure.path ++ text ": " ++ failure.error.message

/-- Reading a directory fails only after it was opened. -/
def FileFailure.ofRead (path : Text) (error : FileError) : FileFailure :=
  ⟨text (if error = .isDirectory then "read" else "open"), path, error⟩

/-- The operations on files: what a path names, the contents of a file, and replacing them, which
tells whether it worked. -/
structure Files (m : Type → Type) where
  stat : Text → m (Except FileError FileKind)
  read : Text → m (Except FileError Text)
  create : Text → Text → m Bool

inductive FileEntry where
  | directory
  | file (contents : Text)
  deriving DecidableEq, Repr

/-- The entries by the parts of their absolute paths. -/
structure FileTree where
  entries : List (List Text × FileEntry)

namespace FileTree

def entry? (tree : FileTree) (parts : List Text) : Option FileEntry :=
  if parts.isEmpty then some .directory else tree.entries.lookup parts

def put (tree : FileTree) (parts : List Text) (entry : FileEntry) : FileTree :=
  ⟨(parts, entry) :: tree.entries.filter (·.1 != parts)⟩

def partLimit : Nat := 255

def pathLimit : Nat := 4095

/-- Goes from a place to one of its parts. Only a directory has parts. -/
def descend (tree : FileTree) (place : List Text) (part : Text) : Except FileError (List Text) :=
  match tree.entry? place with
  | none => .error .notFound
  | some (.file _) => .error .notDirectory
  | some .directory =>
      if part.isEmpty || part == Path.dot then .ok place
      else if part == Path.dots then .ok place.dropLast
      else if partLimit < part.length then .error .nameTooLong
      else .ok (place ++ [part])

/-- The place that a path names, whether or not anything is there. -/
def place (tree : FileTree) (directory path : Text) : Except FileError (List Text) :=
  if path.isEmpty then .error .notFound
  else if path.contains 0 then .error .invalidName
  else if pathLimit < path.length then .error .nameTooLong
  else
    let start := if Path.isAbsolute path then [] else Path.parts directory
    (path.splitOn Path.slash).foldlM (descend tree) start

def find (tree : FileTree) (directory path : Text) : Except FileError FileEntry :=
  match tree.place directory path with
  | .error error => .error error
  | .ok place =>
      match tree.entry? place with
      | some entry => .ok entry
      | none => .error .notFound

/-- The tree after a file was created or overwritten. -/
def create? (tree : FileTree) (directory path contents : Text) : Option FileTree :=
  match tree.place directory path with
  | .error _ => none
  | .ok place =>
      match tree.entry? place with
      | some .directory => none
      | _ => some (tree.put place (.file contents))

def kind : FileEntry → FileKind
  | .directory => .directory
  | .file _ => .file

def files (directory : Text) : Files (StateM FileTree) where
  stat path tree := ((tree.find directory path).map kind, tree)
  read path tree :=
    (match tree.find directory path with
      | .error error => .error error
      | .ok .directory => .error .isDirectory
      | .ok (.file contents) => .ok contents, tree)
  create path contents tree :=
    match tree.create? directory path contents with
    | none => (false, tree)
    | some after => (true, after)

end FileTree
end Rover
