/-!
Paths of files, and what stands at them.

Embeds what `_read_source` and `_collect_sources` ask of a path.
-/

namespace TolerantParser

/-- A path. `root` is what it starts with before the first name, and empty if it is relative. -/
structure Path where
  root : String
  parts : List String
  deriving DecidableEq, Repr

/-- The pieces between slashes. -/
def splitSlashes : List Char → List (List Char)
  | [] => [[]]
  | c :: rest =>
    if c == '/' then [] :: splitSlashes rest
    else match splitSlashes rest with
      | [] => [[c]]
      | piece :: pieces => (c :: piece) :: pieces

namespace Path

/-- Empty pieces and single dots do not count. Two slashes at the front, and no more than two, stay
two; any other number is one. -/
def ofText (text : String) : Path :=
  let chars := text.toList
  let root := match (chars.takeWhile (· == '/')).length with
    | 0 => ""
    | 2 => "//"
    | _ => "/"
  let pieces := (splitSlashes chars).map String.ofList
  { root, parts := pieces.filter fun piece => piece != "" && piece != "." }

def text (path : Path) : String :=
  if path.root.isEmpty && path.parts.isEmpty then "."
  else path.root ++ "/".intercalate path.parts

/-- A path with a NUL in it can stand for nothing. -/
def isUsable (path : Path) : Bool := !path.text.toList.contains '\x00'

end Path

/-- The bytes of a file. -/
abbrev Bytes := List Nat

/-- A file below a directory, by the names that lead to it. -/
structure FileEntry where
  parts : List String
  bytes : Bytes
  deriving DecidableEq, Repr

/-- What stands at a path. Of a directory it is all files below it, at any depth. -/
inductive Place where
  | missing
  | file (bytes : Bytes)
  | directory (files : List FileEntry)
  deriving DecidableEq, Repr

/-- Order of lists by the first place at which they differ. A list comes before those that go on
where it ends. -/
def lexLt {α : Type} (lt : α → α → Bool) : List α → List α → Bool
  | _, [] => false
  | [], _ :: _ => true
  | a :: as, b :: bs => lt a b || (!lt b a && lexLt lt as bs)

/-- Order of names by code points. -/
def nameLt (a b : String) : Bool := lexLt (fun c d => c.toNat < d.toNat) a.toList b.toList

/-- Order of files by the names that lead to them. -/
def FileEntry.le (a b : FileEntry) : Bool := !lexLt nameLt b.parts a.parts

namespace Place

/-- What stands behind the names `here`, in a directory that holds `files`. -/
def look (files : List FileEntry) (here : List String) : Place :=
  match files.find? (·.parts == here) with
  | some entry => .file entry.bytes
  | none =>
    let below := files.filterMap fun entry =>
      if here.isPrefixOf entry.parts then some { entry with parts := entry.parts.drop here.length }
      else none
    if below.isEmpty && !here.isEmpty then .missing else .directory below

/-- Follows names from the directory `here`; two dots go back to the one above. -/
def follow (files : List FileEntry) (here : List String) : List String → Place
  | [] => look files here
  | name :: rest =>
    match look files here with
    | .directory _ =>
      if name == ".." then
        if here.isEmpty then .missing else follow files here.dropLast rest
      else follow files (here ++ [name]) rest
    | _ => .missing

/-- What stands at a path, if `files` is all there is below the working directory. -/
def ofFiles (files : List FileEntry) (path : Path) : Place :=
  if path.isUsable && path.root.isEmpty then follow files [] path.parts else .missing

end Place

end TolerantParser
