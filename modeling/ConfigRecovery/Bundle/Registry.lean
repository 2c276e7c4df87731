import ConfigRecovery.Bundle.Syntax
import ConfigRecovery.Failure
import ConfigRecovery.Path.Basic
import ConfigRecovery.Text.Slice

/-!
# Configurations in a service bundle

A bundle registers the configuration of a page by an assignment to a member of its registry, such
as `registry["pages/index.json"] = { .. }`, often through helper calls. Every object below such an
assignment that is the right side of something is taken, with its exact text.
-/

namespace ConfigRecovery

/-- A configuration with the text that the bundle has for it. -/
structure Literal where
  /-- The key under which it is registered -/
  path : String
  source : String
deriving Repr, DecidableEq

namespace Registry

/-- The key of a node that is a member of the registry. -/
def memberKey? (registry : String) (node : Node) : Option String := do
  guard (node.kind = .member)
  guard ((← node.child? .object).kind = .identifier registry)
  match (← node.child? .property).kind with
  | .string key => if Path.isConfigFile key then some key else none
  | _ => none

/-- The key of a node that assigns a configuration to a member of the registry. -/
def key? (registry : String) (node : Node) : Option String := do
  guard (node.kind = .assignment)
  memberKey? registry (← node.child? .left)

/-- Whether a node is an object on the right side of something. -/
def isLiteral (node : Node) : Bool := node.kind = .object && node.role = .right

/-- The text of a node in the program, if its span is one of the program. -/
def textOf (source : String) (node : Node) : Option String :=
  Text.slice? source node.span.start node.span.stop

/-- The configurations that a node itself registers. -/
def own (registry source : String) (node : Node) : List Literal :=
  match key? registry node with
  | none => []
  | some key =>
    (node.descendants.toList.filter isLiteral).filterMap fun object =>
      (textOf source object).map (⟨key, ·⟩)

/-- The configurations of a program in the order in which they are found. -/
def find (registry source : String) (program : Node) : List Literal :=
  program.walk.toList.flatMap (own registry source)

end Registry

/-- Configurations on their way to a receiver, who may have gone away. -/
structure Stream where
  isOpen : Bool := true
  /-- What was sent, in order -/
  literals : List Literal := []
deriving Repr, DecidableEq

namespace Stream

def send (literal : Literal) : EStateM Failure Stream Unit := fun stream =>
  if stream.isOpen then .ok () { stream with literals := stream.literals ++ [literal] }
  else .error .streamClosed stream

/-- Sends all configurations of a program and gives their number. -/
def scan (registry source : String) (program : Node) : EStateM Failure Stream Nat := do
  let literals := Registry.find registry source program
  literals.forM send
  return literals.length

end Stream

abbrev ProgramReader := String → Except Failure Node

def ProgramReader.literals (reader : ProgramReader) (registry source : String) :
    Except Failure (List Literal) := do
  match Stream.scan registry source (← reader source) {} with
  | .ok _ stream => return stream.literals
  | .error failure _ => throw failure

end ConfigRecovery
