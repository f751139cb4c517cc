import DependencyAudit.Abort
import DependencyAudit.Benchmark.Draws
import DependencyAudit.Files.Removal
import DependencyAudit.Json.Printer
import DependencyAudit.Source.Discovery
import DependencyAudit.Text.Integer

/-!
# Generated projects

The benchmark audits a project made for it: a directory of source files, each of
which imports a sample of well-known modules, and a manifest that declares some
of them.  What stood in the project's directory before is removed first, so
nothing of it is left.  Whatever ends the making of a project, the changes made up to
there stay.
-/

namespace DependencyAudit.Benchmark

/-- The tree after an operation, and what the operation gave. -/
structure Effect (α : Type) where
  tree : Tree
  result : Except Abort α

namespace Effect

variable {α β : Type}

/-- An operation and then another one on the tree it leaves, unless it fails. -/
def andThen (effect : Effect α) (next : Tree → α → Effect β) : Effect β :=
  match effect.result with
  | .error abort => ⟨effect.tree, .error abort⟩
  | .ok value => next effect.tree value

@[simp] theorem andThen_ok (tree : Tree) (value : α) (next : Tree → α → Effect β) :
    andThen ⟨tree, .ok value⟩ next = next tree value := rfl

@[simp] theorem andThen_error (tree : Tree) (abort : Abort) (next : Tree → α → Effect β) :
    andThen ⟨tree, .error abort⟩ next = ⟨tree, .error abort⟩ := rfl

theorem exists_of_andThen {effect : Effect α} {next : Tree → α → Effect β} {after : Tree}
    {found : β} (h : effect.andThen next = ⟨after, .ok found⟩) :
    ∃ tree value, effect = ⟨tree, .ok value⟩ ∧ next tree value = ⟨after, .ok found⟩ := by
  obtain ⟨tree, result⟩ := effect
  cases result with
  | error abort => simp at h
  | ok value => exact ⟨tree, value, rfl, h⟩

/-- A change of a tree; one that has no place fails at the path. -/
def ofChange (tree : Tree) (path : Path) : Option Tree → Effect Unit
  | some changed => ⟨changed, .ok ()⟩
  | none => ⟨tree, .error (.unwritable path)⟩

end Effect

/-- The modules that generated files import. -/
def libraries : List String :=
  ["react", "react-dom", "lodash", "lodash/map", "express", "axios", "@mobily/ts-belt",
    "@tanstack/react-query", "zod", "dayjs", "./local", "../shared/util", "node:fs",
    "chalk"]

def projectName : String := "benchmark_src"

def sourceSuffixes : List String := ["ts", "tsx", "js", "jsx"]

def maxImports : Nat := 10

/-- The two ways in which a generated file imports a module. -/
inductive ImportForm where
  | named
  | required
  deriving DecidableEq, Repr

def ImportForm.line : ImportForm → String → String
  | .named, library => "import x from \"" ++ library ++ "\";\n"
  | .required, library => "const x = require('" ++ library ++ "');\n"

def importLine (draws : Draws) (library : String) : String × Draws :=
  let (named, later) := draws.coin
  ((if named then ImportForm.named else ImportForm.required).line library, later)

def importLines (draws : Draws) : List String → String × Draws
  | [] => ("", draws)
  | library :: rest =>
    let (line, later) := importLine draws library
    let (lines, final) := importLines later rest
    (line ++ lines, final)

def closingLines : String := "\nexport function main() \x7b\x7d\n"

structure GeneratedFile where
  name : String
  imports : List String
  text : String
  deriving DecidableEq, Repr

def generateFile (draws : Draws) (index : Nat) : GeneratedFile × Draws :=
  let (suffix, draws) := draws.choose? sourceSuffixes
  let (count, draws) := draws.upTo maxImports
  let (imports, draws) := draws.sample libraries count
  let (lines, draws) := importLines draws imports
  ({ name := "file_" ++ toString index ++ "." ++ suffix.getD ""
     imports
     text := lines ++ closingLines }, draws)

/-- The files of a project, numbered from an index on. -/
def generateFiles (draws : Draws) (index : Nat) : Nat → List GeneratedFile × Draws
  | 0 => ([], draws)
  | count + 1 =>
    let (file, later) := generateFile draws index
    let (files, final) := generateFiles later (index + 1) count
    (file :: files, final)

def projectManifest : Json :=
  .object [
    ("name", .string "benchmark-project"),
    ("version", .string "0.1.0"),
    ("dependencies", .object [
      ("react", .string "^18.0.0"), ("lodash", .string "^4.0.0"),
      ("left-pad", .string "^1.0.0")]),
    ("devDependencies", .object [
      ("express", .string "^4.0.0"), ("typescript", .string "^5.0.0")])]

def bytesOf (text : String) : List UInt8 :=
  text.toUTF8.toList

/-- Where the project is made. -/
def projectLocation (tree : Tree) : Location :=
  tree.workingDirectory ++ [projectName]

/-- The text of a value in a file; one with a code point that is no character cannot be
written. -/
def writtenText (value : Json) : Except Abort String :=
  match CodeText.string? value.render with
  | none => .error .unpairedSurrogate
  | some text => .ok text

/-- The tree with a text file at names below the project. -/
def writeText (tree : Tree) (names : List String) (text : String) : Effect Unit :=
  .ofChange tree ⟨.workingDirectory, projectName :: names⟩
    (tree.write? (projectLocation tree ++ names) (bytesOf text))

def writeFiles (tree : Tree) : List GeneratedFile → Effect Unit
  | [] => ⟨tree, .ok ()⟩
  | file :: rest =>
    (writeText tree ["src", file.name] file.text).andThen fun next _ => writeFiles next rest

def writeManifest (tree : Tree) : Effect Unit :=
  match writtenText projectManifest with
  | .error abort => ⟨tree, .error abort⟩
  | .ok text => writeText tree ["package.json"] text

/-- The tree without the project, unless something in it lies too deep to be removed. -/
def removeProject (limits : Limits) (tree : Tree) : Effect Unit :=
  let place := projectLocation tree
  match tree.firstBeyond? limits.removals place with
  | some stop => ⟨(tree.removeUpTo? place stop).getD tree, .error .removalTooDeep⟩
  | none => .ofChange tree ⟨.workingDirectory, [projectName]⟩ (tree.remove? place)

/-- The tree without the project and with its source directory made anew. -/
def clear (limits : Limits) (tree : Tree) : Effect Unit :=
  (removeProject limits tree).andThen fun removed _ =>
    .ofChange removed ⟨.workingDirectory, [projectName, "src"]⟩
      (removed.makeDirectory? [] (projectLocation tree ++ ["src"]))

def writeProject (limits : Limits) (tree : Tree) (files : List GeneratedFile) : Effect Unit :=
  (clear limits tree).andThen fun cleared _ =>
    (writeFiles cleared files).andThen fun sources _ => writeManifest sources

def makeProject (limits : Limits) (tree : Tree) (draws : Draws) (count : Int) :
    Effect Unit :=
  match tree.node? (projectLocation tree) with
  | some (.file _) => ⟨tree, .error (.benchmarkNotDirectory projectName)⟩
  | _ => writeProject limits tree (generateFiles draws 0 count.toNat).1

/-- The line about the files made; a number of too many digits cannot be printed. -/
def madeLine (count : Int) : Except Abort String :=
  if (Nat.toDigits 10 count.natAbs).length ≤ Text.maxDigits then
    .ok ("Generated " ++ toString count ++ " source files in " ++ projectName ++ "/src/\n")
  else .error .numberTooLong

/-- The files of the project, each with the text of its path and its bytes, in
the order of those texts. -/
def projectFiles (tree : Tree) : List (String × List UInt8) :=
  let files := (tree.filesBelow (projectLocation tree)).map fun file =>
    ("/".intercalate (projectName :: file.1), file.2)
  (Ascending.ofList (files.map Prod.fst)).filterMap fun text =>
    files.find? fun file => file.1 = text

end DependencyAudit.Benchmark
