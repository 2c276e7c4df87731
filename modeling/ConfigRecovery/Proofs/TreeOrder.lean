import Mathlib
import ConfigRecovery.Bundle.Syntax

/-!
# Tree order

A walk gives what `Node.preorder` lists: the trees on its stack one after the other. Every node of a
tree has an address, the way down to it, and tree order is the order of the addresses. Behind a
number of calls, a walk has just the nodes on its stack that are still to come, so call by call it
gives the nodes at all addresses, each once, and then it has ended.
-/

namespace ConfigRecovery

/-- The way from a node down to one below it: the position of the child at each step. -/
abbrev Address := List Nat

namespace Node

/-- The node at the end of a way down. -/
def at? : Node → Address → Option Node
  | node, [] => some node
  | node, i :: rest => node.children[i]?.bind fun child => child.at? rest

mutual

/-- The node and all below it with their addresses, each before those below it. -/
def located : Node → List (Address × Node)
  | .mk kind role span children => ([], .mk kind role span children) :: locatedFrom 0 children

/-- All nodes of a list of trees with their addresses, when the first tree has a position. -/
def locatedFrom (position : Nat) : List Node → List (Address × Node)
  | [] => []
  | node :: nodes =>
    (located node).map (fun entry => (position :: entry.1, entry.2)) ++
      locatedFrom (position + 1) nodes

end

theorem preorder_eq (node : Node) : node.preorder = node :: preorderAll node.children := by
  cases node
  rfl

theorem located_eq (node : Node) : node.located = ([], node) :: locatedFrom 0 node.children := by
  cases node
  rfl

theorem preorderAll_append (nodes more : List Node) :
    preorderAll (nodes ++ more) = preorderAll nodes ++ preorderAll more := by
  induction nodes with
  | nil => rfl
  | cons node nodes ih => rw [List.cons_append, preorderAll, preorderAll, ih, List.append_assoc]

theorem preorderAll_eq_flatMap (nodes : List Node) : preorderAll nodes = nodes.flatMap preorder := by
  induction nodes with
  | nil => rfl
  | cons node nodes ih => rw [preorderAll, ih, List.flatMap_cons]

mutual

theorem map_located (node : Node) : node.located.map (·.2) = node.preorder := by
  cases node with
  | mk kind role span children => rw [located, List.map_cons, map_locatedFrom 0 children, preorder]

theorem map_locatedFrom (position : Nat) (nodes : List Node) :
    (locatedFrom position nodes).map (·.2) = preorderAll nodes := by
  cases nodes with
  | nil => rfl
  | cons node nodes =>
    rw [locatedFrom, List.map_append, List.map_map, map_locatedFrom (position + 1) nodes,
      preorderAll, ← map_located node]
    rfl

end

theorem mem_locatedFrom {position : Nat} {nodes : List Node} {address : Address} {below : Node} :
    (address, below) ∈ locatedFrom position nodes ↔
      ∃ i child rest, address = (position + i) :: rest ∧ nodes[i]? = some child ∧
        (rest, below) ∈ child.located := by
  induction nodes generalizing position with
  | nil => simp [locatedFrom]
  | cons node nodes ih =>
    rw [locatedFrom, List.mem_append, List.mem_map, ih]
    constructor
    · rintro (⟨⟨rest, here⟩, member, equal⟩ | ⟨i, child, rest, rfl, found, member⟩)
      · cases equal
        exact ⟨0, node, rest, rfl, rfl, member⟩
      · exact ⟨i + 1, child, rest, by rw [Nat.add_right_comm, Nat.add_assoc], found, member⟩
    · rintro ⟨i, child, rest, rfl, found, member⟩
      cases i with
      | zero =>
        cases found
        exact Or.inl ⟨(rest, below), member, rfl⟩
      | succ i =>
        exact Or.inr ⟨i, child, rest, by rw [Nat.add_right_comm, Nat.add_assoc], found, member⟩

/-- The addresses of a tree are those that lead somewhere, each to its own node. -/
theorem mem_located {node below : Node} {address : Address} :
    (address, below) ∈ node.located ↔ node.at? address = some below := by
  induction address generalizing node with
  | nil =>
    rw [located_eq, List.mem_cons, mem_locatedFrom, at?]
    simp [eq_comm]
  | cons i rest ih =>
    rw [located_eq, List.mem_cons, mem_locatedFrom, at?, Option.bind_eq_some_iff]
    constructor
    · rintro (equal | ⟨j, child, _, equal, found, member⟩)
      · cases equal
      · rw [Nat.zero_add] at equal
        cases equal
        exact ⟨child, found, ih.mp member⟩
    · rintro ⟨child, found, led⟩
      exact Or.inr ⟨i, child, rest, by rw [Nat.zero_add], found, ih.mpr led⟩

theorem mem_locatedFrom_children {node below : Node} {address : Address} :
    (address, below) ∈ locatedFrom 0 node.children ↔
      address ≠ [] ∧ node.at? address = some below := by
  rw [← mem_located, located_eq, List.mem_cons]
  constructor
  · intro member
    obtain ⟨i, child, rest, rfl, -⟩ := mem_locatedFrom.mp member
    exact ⟨List.cons_ne_nil _ _, Or.inr member⟩
  · rintro ⟨nonempty, equal | member⟩
    · cases equal
      exact (nonempty rfl).elim
    · exact member

theorem at?_append (node : Node) (address below : Address) :
    node.at? (address ++ below) = (node.at? address).bind fun found => found.at? below := by
  induction address generalizing node with
  | nil => rfl
  | cons i rest ih =>
    rw [List.cons_append, at?, at?, Option.bind_assoc]
    exact Option.bind_congr fun child _ => ih child

mutual

/-- Tree order is the order of the addresses. -/
theorem pairwise_located (node : Node) : node.located.Pairwise fun a b => a.1 < b.1 := by
  cases node with
  | mk kind role span children =>
    rw [located, List.pairwise_cons]
    refine ⟨?_, pairwise_locatedFrom 0 children⟩
    rintro ⟨address, below⟩ member
    obtain ⟨i, child, rest, rfl, -⟩ := mem_locatedFrom.mp member
    exact List.nil_lt_cons _ _

theorem pairwise_locatedFrom (position : Nat) (nodes : List Node) :
    (locatedFrom position nodes).Pairwise fun a b => a.1 < b.1 := by
  cases nodes with
  | nil => exact List.Pairwise.nil
  | cons node nodes =>
    rw [locatedFrom, List.pairwise_append, List.pairwise_map]
    refine ⟨?_, pairwise_locatedFrom (position + 1) nodes, ?_⟩
    · exact (pairwise_located node).imp fun less => List.cons_lt_cons_iff.mpr (Or.inr ⟨rfl, less⟩)
    · intro first before second behind
      obtain ⟨entry, -, rfl⟩ := List.mem_map.mp before
      obtain ⟨i, child, rest, equal, -⟩ := mem_locatedFrom.mp (show (second.1, second.2) ∈ _ from behind)
      rw [equal]
      exact List.cons_lt_cons_iff.mpr (Or.inl (by omega))

end

end Node

namespace Walk

theorem next?_eq_none_iff {walk : Walk} : walk.next? = none ↔ walk.stack = [] := by
  unfold next?
  split <;> simp [*]

theorem next?_eq_some {walk rest : Walk} {node : Node} (h : walk.next? = some (node, rest)) :
    ∃ stack, walk.stack = node :: stack ∧ rest = ⟨node.children ++ stack⟩ := by
  unfold next? at h
  split at h <;> cases h
  exact ⟨_, ‹_›, rfl⟩

/-- A walk gives the trees on its stack, the first one first, each in tree order. -/
theorem toList_eq (walk : Walk) : walk.toList = Node.preorderAll walk.stack := by
  fun_induction toList walk with
  | case1 walk done => rw [next?_eq_none_iff.mp done, Node.preorderAll]
  | case2 walk node rest next _ ih =>
    obtain ⟨stack, stacked, rfl⟩ := next?_eq_some next
    rw [ih, stacked, Node.preorderAll_append, Node.preorderAll, Node.preorder_eq, List.cons_append]

/-! ## A walk call by call -/

/-- Puts a tree on top of the stack: it comes next. -/
def push (walk : Walk) (node : Node) : Walk := ⟨node :: walk.stack⟩

/-- The walk behind a call; one that has ended stays as it is. -/
def advance (walk : Walk) : Walk :=
  match walk.next? with
  | none => walk
  | some (_, rest) => rest

/-- The walk behind a number of calls. -/
def after (walk : Walk) : Nat → Walk
  | 0 => walk
  | calls + 1 => walk.advance.after calls

/-- What a call gives that has a number of calls before it. -/
def given? (walk : Walk) (call : Nat) : Option Node := (walk.after call).next?.map (·.1)

theorem foldl_push (walk : Walk) (nodes : List Node) :
    nodes.reverse.foldl push walk = ⟨nodes ++ walk.stack⟩ := by
  induction nodes generalizing walk with
  | nil => rfl
  | cons node nodes ih => rw [List.reverse_cons, List.foldl_append, ih]; rfl

/-- The top of the stack is taken off, and its children are put on it from the last to the first. -/
theorem next?_push (walk : Walk) (node : Node) :
    (walk.push node).next? = some (node, node.children.reverse.foldl push walk) := by
  rw [foldl_push]
  rfl

theorem next?_map_fst (walk : Walk) :
    walk.next?.map (·.1) = (Node.preorderAll walk.stack).head? := by
  obtain ⟨stack⟩ := walk
  cases stack with
  | nil => rfl
  | cons node stack =>
    rw [Node.preorderAll, Node.preorder_eq]
    rfl

theorem preorderAll_advance (walk : Walk) :
    Node.preorderAll walk.advance.stack = (Node.preorderAll walk.stack).tail := by
  obtain ⟨stack⟩ := walk
  cases stack with
  | nil => rfl
  | cons node stack =>
    change Node.preorderAll (node.children ++ stack) = _
    rw [Node.preorderAll_append, Node.preorderAll, Node.preorder_eq, List.cons_append,
      List.tail_cons]

theorem preorderAll_after (walk : Walk) (calls : Nat) :
    Node.preorderAll (walk.after calls).stack = (Node.preorderAll walk.stack).drop calls := by
  induction calls generalizing walk with
  | zero => rfl
  | succ calls ih => rw [after, ih, preorderAll_advance, List.drop_tail]

theorem given?_eq (walk : Walk) (call : Nat) :
    walk.given? call = (Node.preorderAll walk.stack)[call]? := by
  rw [given?, next?_map_fst, preorderAll_after, List.head?_drop]

end Walk

namespace Node

mutual

theorem length_preorder (node : Node) : node.preorder.length = node.size := by
  cases node with
  | mk kind role span children =>
    rw [preorder, List.length_cons, length_preorderAll children, size, Nat.add_comm]

theorem length_preorderAll (nodes : List Node) : (preorderAll nodes).length = sizeAll nodes := by
  cases nodes with
  | nil => rfl
  | cons node nodes =>
    rw [preorderAll, List.length_append, length_preorder node, length_preorderAll nodes, sizeAll]

end

theorem mem_addresses {node : Node} {address : Address} :
    address ∈ node.located.map (·.1) ↔ (node.at? address).isSome := by
  rw [List.mem_map, Option.isSome_iff_exists]
  constructor
  · rintro ⟨⟨_, below⟩, member, rfl⟩
    exact ⟨below, mem_located.mp member⟩
  · rintro ⟨below, found⟩
    exact ⟨(address, below), mem_located.mpr found, rfl⟩

theorem getElem?_preorder (node : Node) (position : Nat) :
    node.preorder[position]? = (node.located.map (·.1))[position]?.bind node.at? := by
  rw [← map_located, List.getElem?_map, List.getElem?_map]
  cases entry : node.located[position]? with
  | none => rfl
  | some pair => exact (mem_located.mp (List.mem_of_getElem? entry)).symm

/--
A walk over a tree gives the node, then what the walks over its children give in order, and then it
has ended; below the node it gives the same without the node itself. Call by call it goes through
the addresses of the tree, each once and in tree order. So does a walk over a stack of trees, one
after the other from the top of the stack, where each call takes the top off the stack and puts its
children on it from the last to the first.
-/
theorem walk_gives_preorder (node : Node) :
    (∀ call, node.walk.given? call = node.preorder[call]?) ∧
    (∀ call, node.descendants.given? call = node.preorder.tail[call]?) ∧
    node.preorder = node :: node.children.flatMap preorder ∧
    (∀ call, node.walk.given? call = none ↔ node.size ≤ call) ∧
    node.walk.toList = node.preorder ∧ node.descendants.toList = node.preorder.tail ∧
    (∃ addresses : List Address, addresses.Pairwise (· < ·) ∧
      (∀ address, address ∈ addresses ↔ (node.at? address).isSome) ∧
      ∀ call, node.walk.given? call = addresses[call]?.bind node.at?) ∧
    (∀ (trees : List Node) call,
      (trees.reverse.foldl Walk.push ⟨[]⟩).given? call = (trees.flatMap preorder)[call]?) ∧
    ∀ walk : Walk, (walk.push node).next? =
      some (node, node.children.reverse.foldl Walk.push walk) := by
  have stacked : preorderAll [node] = node.preorder := by
    rw [preorderAll, preorderAll, List.append_nil]
  have walked (call : Nat) : node.walk.given? call = node.preorder[call]? := by
    rw [walk, Walk.given?_eq, stacked]
  have below : preorderAll node.children = node.preorder.tail := by
    rw [preorder_eq, List.tail_cons]
  refine ⟨walked, ?_, ?_, ?_, ?_, ?_, ⟨node.located.map (·.1), ?_, fun _ => mem_addresses, ?_⟩, ?_,
    fun walk => walk.next?_push node⟩
  · intro call
    rw [descendants, Walk.given?_eq, below]
  · rw [preorder_eq, preorderAll_eq_flatMap]
  · intro call
    rw [walked, List.getElem?_eq_none_iff, length_preorder]
  · rw [walk, Walk.toList_eq, stacked]
  · rw [descendants, Walk.toList_eq, below]
  · exact List.pairwise_map.mpr (pairwise_located node)
  · intro call
    rw [walked, getElem?_preorder]
  · intro trees call
    rw [Walk.foldl_push, List.append_nil, Walk.given?_eq, preorderAll_eq_flatMap]

end Node

end ConfigRecovery
