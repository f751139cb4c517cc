import DependencyAudit.Files.Access
import DependencyAudit.Json.Basic

/-!
# Aborts

Most failures are answers: a manifest that cannot be read, an option that makes
no sense.  The failures listed here are not; they end the operation at once and
nothing of its result or its events is left.  Some of them are limits: of the reader
of numbers and of nested containers, of the depth of directories, of the numbers that
can be printed and of the code points that can.
-/

namespace DependencyAudit

inductive Abort where
  | nullInPath
  | integerTooLong (digits : Nat)
  | nestedTooDeep (container : Json.Container)
  | scanTooDeep
  | removalTooDeep
  | inaccessible (path : Path) (error : OsError)
  | noWorkers
  | unknownClass (name : String)
  | unknownFormat (name : String)
  | benchmarkNotDirectory (name : String)
  | unwritable (path : Path)
  | unpairedSurrogate
  | numberTooLong
  | missingInstaller (name : String)
  | noSequentialTime
  deriving DecidableEq, Repr

def Json.Container.noun : Json.Container → String
  | .array => "array"
  | .object => "object"

def Abort.message : Abort → String
  | .nullInPath => "embedded null byte"
  | .integerTooLong digits =>
    "Exceeds the limit (4300 digits) for integer string conversion: value has " ++
      toString digits ++ " digits; use sys.set_int_max_str_digits() to increase the limit"
  | .nestedTooDeep container =>
    "maximum recursion depth exceeded while decoding a JSON " ++ container.noun ++
      " from a unicode string"
  | .scanTooDeep | .removalTooDeep => "maximum recursion depth exceeded"
  | .inaccessible path error => error.message path
  | .noWorkers => "max_workers must be greater than 0"
  | .unknownClass name => Text.quoted name ++ " is not a valid DependencyType"
  | .unknownFormat name => Text.quoted name ++ " is not a valid OutputFormat"
  | .benchmarkNotDirectory name =>
    OsError.notDirectory.report ("PosixPath(" ++ Text.quoted name ++ ")")
  | .unwritable path => OsError.nameTooLong.message path
  | .unpairedSurrogate => "surrogates not allowed"
  | .numberTooLong =>
    "Exceeds the limit (4300 digits) for integer string conversion; " ++
      "use sys.set_int_max_str_digits() to increase the limit"
  | .missingInstaller name => OsError.notFound.report (Text.quoted name)
  | .noSequentialTime => "float division by zero"

end DependencyAudit
