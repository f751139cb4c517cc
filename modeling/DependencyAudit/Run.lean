import DependencyAudit.CommandLine.Help
import DependencyAudit.CommandLine.Reader
import DependencyAudit.Manifest.Reader

/-!
# An audit run

A run reads the command line, the manifest and the sources, and prints a report.
It exits with one when there are issues and with two when the command line or the
manifest is at fault.  In verbose mode the events come before everything else on
standard error.  A report with a code point that is no character cannot be printed.
-/

namespace DependencyAudit

/-- What a process leaves: its exit code and what it printed. -/
structure Outcome where
  exitCode : Nat
  stdout : String
  stderr : String
  deriving DecidableEq, Repr

namespace Run

open CommandLine

def debugLines (options : Options) (events : List Event) : String :=
  if options.verbose then
    String.join (events.map fun event => "DEBUG dep_guard: " ++ event.message ++ "\n")
  else ""

def failed (terminal : Terminal) (debug message : String) : Outcome :=
  ⟨2, "", debug ++ terminal.paint .red message ++ "\n"⟩

def finished (terminal : Terminal) (options : Options) (debug : String)
    (analysis : Analysis) : Except Abort Outcome :=
  let kept := analysis.ignoring (options.ignored.map CodeText.ofString)
  match CodeText.string? (Report.render terminal kept options.format) with
  | none => .error .unpairedSurrogate
  | some report => .ok ⟨if kept.hasIssues then 1 else 0, report ++ "\n", debug⟩

def audit (limits : Limits) (tree : Tree) (terminal : Terminal) (options : Options) :
    Except Abort Outcome :=
  match Manifest.read limits tree (Path.parse options.manifest) with
  | .error abort => .error abort
  | .ok ⟨.error error, events⟩ =>
    .ok (failed terminal (debugLines options events) error.message)
  | .ok ⟨.ok manifest, events⟩ =>
    match Analysis.ofSources limits tree manifest (Path.parse options.root)
        options.checkAll options.mode with
    | .error abort => .error abort
    | .ok analysis =>
      finished terminal options (debugLines options (events ++ analysis.events))
        analysis.value

def run (limits : Limits) (tree : Tree) (terminal : Terminal) (tokens : List String) :
    Except Abort Outcome :=
  match (parse tokens).value with
  | .help => .ok ⟨0, help ++ "\n", ""⟩
  | .invalid error => .ok (failed terminal "" ("Error: " ++ error.message))
  | .audit options => audit limits tree terminal options

end Run

end DependencyAudit
