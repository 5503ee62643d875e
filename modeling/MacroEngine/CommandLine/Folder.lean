import MacroEngine.SourcePath

/-!
# Folders

The files that the program can see, and what a path leads to. A path is followed step by step from
the working folder; only a folder can be stepped through, and nothing outside the working folder can
be seen. The files below a folder are listed folder by folder, the entries of each in the order of
their names.
-/

namespace MacroEngine.CommandLine

inductive Entry where
  | file (text : String)
  /-- A folder, with the paths and the texts of all files below it. -/
  | folder (files : List (SourcePath × String))

abbrev Disk := SourcePath → Option Entry

/-- Files with the names that lead to them from the working folder. -/
structure Folder where
  files : List (List String × String)

namespace Folder

/-- The names of the steps of a path text. -/
def namesOf (path : String) : List String :=
  ((Text.splitAt '/' path.toList).map String.ofList).filter fun name => name ≠ "" && name ≠ "."

def namesLe : List String → List String → Bool
  | [], _ => true
  | _ :: _, [] => false
  | a :: as, b :: bs => if a = b then namesLe as bs else decide (a < b)

def ofFiles (files : List (String × String)) : Folder :=
  ⟨(files.map fun (path, text) => (namesOf path, text)).mergeSort fun a b => namesLe a.1 b.1⟩

def text? (folder : Folder) (names : List String) : Option String := folder.files.lookup names

/-- The files below the folder with these names, each with its further names. -/
def below (folder : Folder) (names : List String) : List (List String × String) :=
  folder.files.filterMap fun (file, text) =>
    if names.isPrefixOf file && names.length < file.length then some (file.drop names.length, text)
    else none

def hasFolder (folder : Folder) (names : List String) : Bool :=
  names.isEmpty || !(folder.below names).isEmpty

/-- Follows the steps of a path from a place. -/
def follow? (folder : Folder) : List String → List String → Option (List String)
  | place, [] => some place
  | place, step :: steps =>
    if !folder.hasFolder place then none
    else if step = "" || step = "." then follow? folder place steps
    else if step = ".." then
      if place.isEmpty then none else follow? folder place.dropLast steps
    else follow? folder (place ++ [step]) steps

/-- The path of a file below a folder that was reached by `path`. -/
def join (path : SourcePath) (names : List String) : SourcePath :=
  let slash := if path.text.endsWith "/" then "" else "/"
  ⟨path.text ++ slash ++ "/".intercalate names⟩

def disk (folder : Folder) : Disk := fun path =>
  if path.text = "" || path.text.startsWith "/" then none
  else do
    let place ← folder.follow? [] ((Text.splitAt '/' path.text.toList).map String.ofList)
    match folder.text? place with
    | some text => some (.file text)
    | none =>
      if folder.hasFolder place then
        some (.folder ((folder.below place).map fun (names, text) => (join path names, text)))
      else none

end Folder

end MacroEngine.CommandLine
