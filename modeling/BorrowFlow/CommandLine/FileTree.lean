import BorrowFlow.CommandLine.Path

/-! # Files in memory

  The files that a run may read, as a value: a run over a `FileTree` is a pure
  function.  Only the working folder and what is below it is known; everything
  else is a place where folders exist but no file is found.
-/

namespace BorrowFlow.CommandLine

/-- Why a file cannot be read. -/
inductive ReadFault where
  | missing
  /-- The path leads to a folder. -/
  | isFolder
  /-- The path goes on after a file. -/
  | throughFile
  /-- A name, or the whole path, is longer than the system takes. -/
  | tooLong
  /-- Any other reason, in the system's words. -/
  | other (text : String)
  deriving DecidableEq

/-- The wording of a fault. -/
def ReadFault.message : ReadFault → String
  | .missing => "No such file or directory"
  | .isFolder => "Is a directory"
  | .throughFile => "Not a directory"
  | .tooLong => "File name too long"
  | .other text => text

/-- The folders and files below the working folder, each with the names that lead
    to it. -/
structure FileTree where
  folders : List (List String) := []
  files : List (List String × List UInt8) := []

namespace FileTree

/-- The content of a file. -/
def file? (t : FileTree) (names : List String) : Option (List UInt8) :=
  (t.files.find? fun f => f.1 = names).map Prod.snd

/-- Is there a folder?  A folder is there if it, or anything below it, is. -/
def hasFolder (t : FileTree) (names : List String) : Bool :=
  t.folders.any (names.isPrefixOf ·) || t.files.any fun f => names.isPrefixOf f.1.dropLast

/-- A folder on the way. -/
inductive Place where
  /-- The working folder or one below it. -/
  | inside (names : List String)
  /-- Any other folder. -/
  | outside

/-- The folder above. -/
def Place.parent : Place → Place
  | .inside [] => .outside
  | .inside names => .inside names.dropLast
  | .outside => .outside

/-- The most bytes that a name can have. -/
def maxName : Nat := 255

/-- The most bytes that a path can have. -/
def maxPath : Nat := 4095

/-- Follow some names from a folder to a file. -/
def follow (t : FileTree) : Place → List String → Except ReadFault (List UInt8)
  | _, [] => .error .isFolder
  | here, ".." :: rest => t.follow here.parent rest
  | here, name :: rest =>
    -- a name is measured when it is looked up, so an earlier fault on the way wins
    if maxName < name.utf8ByteSize then .error .tooLong
    else match here with
      | .outside => .error .missing
      | .inside names =>
        -- a file ends the way, even if only a double dot follows
        match t.file? (names ++ [name]) with
        | some content => if rest.isEmpty then .ok content else .error .throughFile
        | none =>
          if t.hasFolder (names ++ [name]) then t.follow (.inside (names ++ [name])) rest
          else .error .missing

/-- The content of the file that a path leads to. -/
def read (t : FileTree) (p : Path) : Except ReadFault (List UInt8) :=
  if maxPath < p.render.utf8ByteSize then .error .tooLong
  else t.follow (if p.root = .here then .inside [] else .outside) p.names

end FileTree

end BorrowFlow.CommandLine
