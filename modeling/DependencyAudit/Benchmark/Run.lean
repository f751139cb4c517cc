import DependencyAudit.Benchmark.Project
import DependencyAudit.Benchmark.Timing
import DependencyAudit.Run

/-!
# A benchmark run

The benchmark makes a project, installs the audit, and times an audit of the
project in each mode.  Chance, the clock and the outcome of the installation come
from its surroundings.  The audits really run, on the tree with the project; what
they print is kept with the commands and does not show in the benchmark's output.
-/

namespace DependencyAudit.Benchmark

structure Installation where
  exitCode : Int := 0
  stderr : String := ""
  deriving DecidableEq, Repr

/-- What a run asks of its surroundings: draws, clock readings in microseconds,
the installation if its tool exists, and the terminal settings. -/
structure Surroundings where
  draws : Draws
  clock : Nat → Int
  installation : Option Installation := some {}
  terminal : Terminal := {}

/-- A command that the benchmark ran; of an audit also its outcome. -/
inductive Call where
  | install (command : List String)
  | audit (command : List String) (outcome : Outcome)
  deriving DecidableEq, Repr

structure Transcript where
  exitCode : Nat := 0
  stdout : String := ""
  stderr : String := ""
  calls : List Call := []
  deriving DecidableEq, Repr

def installer : String := "uv"

def installCommand : List String := [installer, "pip", "install", "."]

def auditArguments : List String :=
  ["-d", projectName ++ "/src", "-p", projectName ++ "/package.json"]

def auditCommand (arguments : List String) : List String :=
  "dep-guard" :: arguments

/-- The audit of the project with some arguments, run as a child. -/
def callAudit (limits : Limits) (tree : Tree) (terminal : Terminal)
    (arguments : List String) : Except Abort Call :=
  match Run.run limits tree { terminal with output := .pipe } arguments with
  | .error abort => .error abort
  | .ok outcome => .ok (.audit (auditCommand arguments) outcome)

/-- The timed part of a run, after the installation. -/
def measure (limits : Limits) (tree : Tree) (surroundings : Surroundings) (count : Int)
    (printed : String) : Except Abort Transcript :=
  let parallelArguments := auditArguments ++ ["--parallel"]
  let sequentialTime := elapsed (surroundings.clock 0) (surroundings.clock 1)
  let parallelTime := elapsed (surroundings.clock 2) (surroundings.clock 3)
  match callAudit limits tree surroundings.terminal auditArguments,
      callAudit limits tree surroundings.terminal parallelArguments,
      comparison sequentialTime parallelTime with
  | .ok sequential, .ok parallel, .ok line =>
    .ok {
      stdout := printed ++ "\nRunning benchmark in sequential mode...\n" ++
        "Running benchmark in parallel mode...\n" ++
        resultLines count sequentialTime parallelTime ++ line
      calls := [.install installCommand, sequential, parallel] }
  | .error abort, _, _ => .error abort
  | _, .error abort, _ => .error abort
  | _, _, .error abort => .error abort

/-- The part of a run after the project is made and reported. -/
def runOn (limits : Limits) (tree : Tree) (surroundings : Surroundings) (count : Int)
    (made : String) : Except Abort Transcript :=
  let printed := made ++ "Installing dep-guard...\n"
  match surroundings.installation with
  | none => .error (.missingInstaller installer)
  | some installation =>
    if installation.exitCode = 0 then measure limits tree surroundings count printed
    else
      .ok {
        exitCode := 1
        stdout := printed ++ "Error installing dep-guard:\n" ++ installation.stderr ++ "\n"
        calls := [.install installCommand] }

/-- Making a project, with the line that is printed about it. -/
def make (limits : Limits) (tree : Tree) (draws : Draws) (count : Int) : Effect String :=
  (makeProject limits tree draws count).andThen fun made _ => ⟨made, madeLine count⟩

def generate (limits : Limits) (tree : Tree) (draws : Draws) (count : Int) :
    Effect Transcript :=
  (make limits tree draws count).andThen fun made line => ⟨made, .ok { stdout := line }⟩

def run (limits : Limits) (tree : Tree) (surroundings : Surroundings) (count : Int) :
    Effect Transcript :=
  (make limits tree surroundings.draws count).andThen fun made line =>
    ⟨made, runOn limits made surroundings count line⟩

end DependencyAudit.Benchmark
