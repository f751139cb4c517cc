import DependencyAudit.Abort
import DependencyAudit.Decimal.FixedPlaces

/-!
# Timings

A clock reading is a count of microseconds and a timing the difference of two
readings in seconds, as floating-point numbers.  The comparison is a percentage
of the sequential timing, which therefore must not be zero.
-/

namespace DependencyAudit.Benchmark

def seconds (microseconds : Int) : Float :=
  match microseconds with
  | .ofNat n => Float.ofScientific n true 6
  | .negSucc n => -Float.ofScientific (n + 1) true 6

def elapsed (start finish : Int) : Float :=
  seconds finish - seconds start

/-- The difference of two timings as a percentage of a third. -/
def percentage (longer shorter whole : Float) : String :=
  Decimal.fixed 2 ((longer - shorter) / whole * 100)

/-- The line that compares the two timings. -/
def comparison (sequential parallel : Float) : Except Abort String :=
  if sequential == 0 then .error .noSequentialTime
  else if parallel < sequential then
    .ok ("\n🚀 Improvement of " ++ percentage sequential parallel sequential ++
      "% with --parallel flag!\n")
  else
    .ok ("\n⚠️ Parallel mode was " ++ percentage parallel sequential sequential ++
      "% slower.\n")

def resultLines (count : Int) (sequential parallel : Float) : String :=
  "\n--- Benchmark Results ---\n" ++
    "Number of files: " ++ toString count ++ "\n" ++
    "Sequential mode: " ++ Decimal.fixed 4 sequential ++ " seconds\n" ++
    "Parallel mode:   " ++ Decimal.fixed 4 parallel ++ " seconds\n"

end DependencyAudit.Benchmark
