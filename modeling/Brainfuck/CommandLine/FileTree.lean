namespace Brainfuck.CommandLine

inductive FileTree where
  | file (bytes : List UInt8)
  | folder (entries : List (String × FileTree))

inductive FileError where
  | notFound
  | notAFolder
  | isAFolder
  | other (cause : String)
  deriving DecidableEq, Repr

def FileError.message : FileError → String
  | notFound => "No such file or directory (os error 2)"
  | notAFolder => "Not a directory (os error 20)"
  | isAFolder => "Is a directory (os error 21)"
  | other cause => cause

namespace FileTree

def find? : FileTree → List String → Option FileTree
  | t, [] => some t
  | file _, _ :: _ => none
  | folder entries, name :: names => (entries.lookup name).bind (find? · names)

def put (bytes : List UInt8) : FileTree → List String → FileTree
  | _, [] => file bytes
  | file old, _ :: _ => file old
  | folder entries, name :: names =>
    match entries.lookup name, names with
    | none, [] => folder (entries ++ [(name, file bytes)])
    | none, _ :: _ => folder entries
    | some t, names =>
      let t := put bytes t names
      folder (entries.map fun e => if e.1 = name then (name, t) else e)

def follow (t : FileTree) : List String → List String → Except FileError (List String)
  | location, [] => .ok location
  | location, part :: parts =>
    match t.find? location with
    | none => .error .notFound
    | some (file _) => .error .notAFolder
    | some (folder _) =>
      if part = "" ∨ part = "." then follow t location parts
      else if part = ".." then follow t location.dropLast parts
      else follow t (location ++ [part]) parts

end FileTree

structure Workspace where
  tree : FileTree
  home : List String

namespace Workspace

def startOf (w : Workspace) (path : String) : List String :=
  if path.startsWith "/" then [] else w.home

def lookup (w : Workspace) (path : String) : Except FileError FileTree := do
  if path = "" then throw .notFound
  let location ← w.tree.follow (w.startOf path) (path.splitOn "/")
  match w.tree.find? location with
  | some t => return t
  | none => throw .notFound

def place (w : Workspace) (path : String) : Except FileError (List String) := do
  if path = "" then throw .notFound
  let parts := path.splitOn "/"
  let names := parts.filter (· ≠ "")
  let folder ← w.tree.follow (w.startOf path) names.dropLast
  match w.tree.find? folder with
  | none => throw .notFound
  | some (.file _) => throw .notAFolder
  | some (.folder _) =>
    match names.getLast? with
    | none => throw .isAFolder
    | some name =>
      if parts.getLast? = some "" ∨ name = "." ∨ name = ".." then throw .isAFolder
      match w.tree.find? (folder ++ [name]) with
      | some (.folder _) => throw .isAFolder
      | _ => return folder ++ [name]

def write (w : Workspace) (path : String) (bytes : List UInt8) : Except FileError Workspace := do
  let location ← w.place path
  return { w with tree := w.tree.put bytes location }

def files (w : Workspace) : List (String × List UInt8) :=
  match w.tree.find? w.home with
  | some (.folder entries) =>
    entries.filterMap fun
      | (name, .file bytes) => some (name, bytes)
      | (_, .folder _) => none
  | _ => []

def changes (before after : Workspace) : List (String × List UInt8) :=
  after.files.filter fun f => before.files.lookup f.1 ≠ some f.2

end Workspace

end Brainfuck.CommandLine
