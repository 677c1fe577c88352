import ImageReference.Text.Span

/-!
# File trees

The files below the working directory, and the paths that name them. A path is
written without empty and single-dot steps. Outside the working directory only
the directories on the way up are known.
-/

namespace ImageReference

/-- The leading slashes that count, and the steps behind them. -/
structure FilePath where
  root : Text
  steps : List Text
deriving DecidableEq

namespace FilePath

def ofText (text : Text) : FilePath where
  root :=
    match (text.takeWhile (· == '/')).length with
    | 0 => []
    | 2 => ['/', '/']
    | _ => ['/']
  steps := (splitWhere (· == '/') text).filter fun step => !step.isEmpty && step != ['.']

def toText (path : FilePath) : Text :=
  match path.root ++ joinWith '/' path.steps with
  | [] => ['.']
  | text => text

end FilePath

inductive FileNode
  | file (content : List UInt8)
  | directory

abbrev Files := FilePath → Option FileNode

structure FileTree where
  entries : List (List Text × FileNode)

namespace FileTree

inductive Place
  | inside (steps : List Text)
  | outside

/-- What stands at a place. A directory need not be listed if something below it is. -/
def node? (tree : FileTree) : Place → Option FileNode
  | .outside => some .directory
  | .inside steps =>
      match tree.entries.lookup steps with
      | some node => some node
      | none =>
          if steps.isEmpty || tree.entries.any (fun entry => steps.isPrefixOf entry.1) then
            some .directory
          else none

def enter (tree : FileTree) (place : Place) (step : Text) : Option Place :=
  match tree.node? place with
  | some .directory =>
      let next : Option Place := match place with
        | .outside => if step = ['.', '.'] then some .outside else none
        | .inside steps =>
            if step = ['.', '.'] then
              some (if steps.isEmpty then .outside else .inside steps.dropLast)
            else some (.inside (steps ++ [step]))
      next.filter fun place => (tree.node? place).isSome
  | _ => none

def files (tree : FileTree) : Files := fun path => do
  let start : Place := if path.root.isEmpty then .inside [] else .outside
  tree.node? (← path.steps.foldlM tree.enter start)

end FileTree

end ImageReference
