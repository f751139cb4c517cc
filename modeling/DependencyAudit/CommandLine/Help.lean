/-!
# Help

The text that the command line prints when it is asked for help.
-/

namespace DependencyAudit.CommandLine

def version : String := "0.1.0"

def help : String :=
  "
dep-guard - Dependency analyzer for JavaScript and TypeScript projects

Usage:
  dep-guard [options]

Options:
  -t, --text                Output as text (default)
  -j, --json                Output as JSON
  -a, --all                 Check all dependencies including devDependencies
  -d, --dst-dir DIR         Source directory to scan (default: ./src)
  -p, --package-json PATH   Path of package.json (default: ./package.json)
  -i, --ignore a,b,c        Packages to leave out of the report (comma separated)
  --parallel                Use parallel processing for faster file scanning
  --max-workers N           Worker threads for --parallel (default: 4)
  -v, --verbose             Print debug logging to stderr
  -h, --help                Show this help message

Examples:
  dep-guard
  dep-guard -j
  dep-guard --all
  dep-guard -j --all -d lib -p lib/package.json
"

end DependencyAudit.CommandLine
