import ConfigRecovery.Json.SyntaxError
import ConfigRecovery.Json.Value
import ConfigRecovery.Store.SystemFault

/-!
# Failures of a recovery

Every operation that can fail gives a `Failure`. A recovery that fails wraps the failure once, as
`aborted`; `cause` looks through that wrapping and `chain` lists all that lies below a failure.
-/

namespace ConfigRecovery

inductive Field where
  | root
  | named (name : String)
  /-- The descriptor of a subpackage by its position -/
  | subpackage (index : Nat)
  | subpackageRoot (index : Nat)
  | subpackagePages (index : Nat)
  /-- The entry of a page by its key as written -/
  | page (key : String)
  /-- The window of a page by its key as written -/
  | window (key : String)
deriving Repr, DecidableEq

def Field.text : Field → String
  | .root => "<root>"
  | .named name => name
  | .subpackage index => "subPackages[" ++ toString index ++ "]"
  | .subpackageRoot index => "subPackages[" ++ toString index ++ "].root"
  | .subpackagePages index => "subPackages[" ++ toString index ++ "].pages"
  | .page key => "page[" ++ key ++ "]"
  | .window key => "page[" ++ key ++ "].window"

/-- The shape of value that a field must have. -/
inductive Shape where
  | object | array | string | strings
deriving Repr, DecidableEq

def Shape.text : Shape → String
  | .object => "an object"
  | .array => "an array"
  | .string => "a string"
  | .strings => "string entries"

inductive Problem where
  /-- The field has a value of another kind, or no value -/
  | unexpected (expected : Shape) (found : Option Json.Kind)
  | subpackagesNotArray
  | missingPageList
  /-- A problem with a text of its own -/
  | other (text : String)
deriving Repr, DecidableEq

def Problem.text : Problem → String
  | .unexpected expected found =>
    "expected " ++ expected.text ++ ", found " ++ (found.map (·.name)).getD "nothing"
  | .subpackagesNotArray => "expected an array"
  | .missingPageList => "missing page list"
  | .other text => text

inductive Failure where
  | fileRead (path : String) (fault : SystemFault)
  | fileWrite (path : String) (fault : SystemFault)
  | directoryCreate (path : String) (fault : SystemFault)
  /-- A directory that does not open while the files below the root are listed -/
  | walk (path : String) (fault : SystemFault)
  /-- A path that would leave the output directory -/
  | traversal (path : String)
  | invalidJson (error : Json.SyntaxError)
  | malformed (field : Field) (problem : Problem)
  | missingManifest
  | missingService
  | streamClosed
  | alreadyRun
  /-- A recovery that ended with a failure -/
  | aborted (cause : Failure)
  | internal (text : String)
deriving Repr, DecidableEq

namespace Failure

/-- The wording of a walk that stops at a directory. -/
def walkText (path : String) (fault : SystemFault) : String :=
  "IO error for operation on " ++ path ++ ": " ++ fault.message

def message : Failure → String
  | .fileRead path fault => "failed to read file '" ++ path ++ "': " ++ fault.message
  | .fileWrite path fault => "failed to write file '" ++ path ++ "': " ++ fault.message
  | .directoryCreate path fault => "failed to create directory '" ++ path ++ "': " ++ fault.message
  | .walk path fault => "failed to walk output tree: " ++ walkText path fault
  | .traversal path => "path traversal detected: '" ++ path ++ "' would escape output directory"
  | .invalidJson error => "invalid JSON: " ++ error.message
  | .malformed field problem =>
    "malformed manifest field '" ++ field.text ++ "': " ++ problem.text
  | .missingManifest => "manifest source not found"
  | .missingService => "service source not found"
  | .streamClosed => "service match channel closed"
  | .alreadyRun => "parser already ran; one run per instance"
  | .aborted cause => "parse failed: " ++ cause.message
  | .internal text => "internal error: " ++ text

/-- Wraps a failure that ends a recovery; one that is wrapped already stays as it is. -/
def abort : Failure → Failure
  | .aborted cause => .aborted cause
  | failure => .aborted failure

def isFatal : Failure → Bool
  | .aborted _ => true
  | _ => false

/-- The failure without its wrapping. -/
def cause : Failure → Failure
  | .aborted cause => cause
  | failure => failure

/-- The wordings of all that lies below a failure, the nearest first. -/
def chain : Failure → List String
  | .fileRead _ fault | .fileWrite _ fault | .directoryCreate _ fault => [fault.message]
  | .walk path fault => [walkText path fault, fault.message]
  | .invalidJson error => [error.message]
  | .aborted cause => cause.message :: cause.chain
  | _ => []

end Failure

end ConfigRecovery
