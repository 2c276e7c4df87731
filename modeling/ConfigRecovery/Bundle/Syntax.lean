/-!
# Syntax of a service bundle

A bundle is a program. Its tree of nodes comes from elsewhere and tells apart only what the search
for configurations looks at. `Node.preorder` lists a tree by recursion; `Walk` does the same one
node after the other with a stack of nodes that are still to come.
-/

namespace ConfigRecovery

inductive NodeKind where
  | assignment
  | member
  | identifier (name : String)
  | string (text : String)
  | object
  | call
  /-- Any other node by its name -/
  | other (name : String)
deriving Repr, DecidableEq, Inhabited

inductive Role where
  | root | left | right | object | property | callee | argument
  /-- Any other place by its name -/
  | other (name : String)
deriving Repr, DecidableEq, Inhabited

/-- The bytes of the program that a node takes, from the start to before the stop. -/
structure Span where
  start : Nat
  /-- Where it has stopped -/
  stop : Nat
deriving Repr, DecidableEq, Inhabited

inductive Node where
  | mk (kind : NodeKind) (role : Role) (span : Span) (children : List Node)
deriving Repr, Inhabited

namespace Node

def kind : Node → NodeKind
  | .mk kind _ _ _ => kind

def role : Node → Role
  | .mk _ role _ _ => role

def span : Node → Span
  | .mk _ _ span _ => span

def children : Node → List Node
  | .mk _ _ _ children => children

/-- The first node right below in a role. -/
def child? (node : Node) (role : Role) : Option Node :=
  node.children.find? fun child => child.role = role

mutual

/-- The node and all below it, each before those below it. -/
def preorder : Node → List Node
  | .mk kind role span children => .mk kind role span children :: preorderAll children

/-- All nodes of a list of trees, one tree after the other. -/
def preorderAll : List Node → List Node
  | [] => []
  | node :: nodes => preorder node ++ preorderAll nodes

end

mutual

def size : Node → Nat
  | .mk _ _ _ children => 1 + sizeAll children

def sizeAll : List Node → Nat
  | [] => 0
  | node :: nodes => size node + sizeAll nodes

end

theorem size_eq (node : Node) : node.size = 1 + sizeAll node.children := by
  cases node
  simp [size, children]

theorem sizeAll_append (nodes more : List Node) :
    sizeAll (nodes ++ more) = sizeAll nodes + sizeAll more := by
  induction nodes with
  | nil => simp [sizeAll]
  | cons node nodes ih => simp [sizeAll, ih, Nat.add_assoc]

end Node

/-- A walk over trees: the nodes that are still to come with all below them, the next one first. -/
structure Walk where
  stack : List Node

namespace Walk

/-- The next node, and the walk behind it: what is below the node comes before all else. -/
def next? (walk : Walk) : Option (Node × Walk) :=
  match walk.stack with
  | [] => none
  | node :: stack => some (node, ⟨node.children ++ stack⟩)

theorem next?_size {walk rest : Walk} {node : Node} (h : walk.next? = some (node, rest)) :
    Node.sizeAll rest.stack < Node.sizeAll walk.stack := by
  unfold next? at h
  split at h <;> cases h
  rename_i stack hs
  rw [hs, Node.sizeAll_append, Node.sizeAll, Node.size_eq]
  omega

def toList (walk : Walk) : List Node :=
  match h : walk.next? with
  | none => []
  | some (node, rest) =>
    have := next?_size h
    node :: toList rest
termination_by Node.sizeAll walk.stack

end Walk

def Node.walk (node : Node) : Walk := ⟨[node]⟩

def Node.descendants (node : Node) : Walk := ⟨node.children⟩

end ConfigRecovery
