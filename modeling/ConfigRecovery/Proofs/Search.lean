import ConfigRecovery.Proofs.Literals
import ConfigRecovery.Proofs.Slice
import ConfigRecovery.Proofs.TreeOrder

/-!
# What the search finds

The search goes through a program in tree order, and below each assignment to the registry it goes
through the objects in tree order again. So an object is found once for every such assignment above
it, and the outermost assignment finds it first.
-/

namespace ConfigRecovery

/-- The first of the children of a node that have a role. -/
def Node.FirstChild (node : Node) (role : Role) (child : Node) : Prop :=
  ∃ before after, node.children = before ++ child :: after ∧ child.role = role ∧
    ∀ other ∈ before, other.role ≠ role

theorem Node.child?_eq_some_iff {node child : Node} {role : Role} :
    node.child? role = some child ↔ node.FirstChild role child := by
  rw [child?, FirstChild, List.find?_eq_some_iff_append]
  simp only [decide_eq_true_eq, Bool.not_eq_eq_eq_not, Bool.not_true, decide_eq_false_iff_not]
  constructor
  · rintro ⟨here, before, after, cut, first⟩
    exact ⟨before, after, cut, here, first⟩
  · rintro ⟨before, after, cut, here, first⟩
    exact ⟨here, before, after, cut, first⟩

/-- A span takes whole characters of a program. -/
structure Span.Fits (span : Span) (source : String) : Prop where
  ordered : span.start ≤ span.stop
  inside : span.stop ≤ source.utf8ByteSize
  start_valid : (⟨span.start⟩ : String.Pos.Raw).IsValid source
  stop_valid : (⟨span.stop⟩ : String.Pos.Raw).IsValid source

theorem Path.isConfigFile_iff {path : String} :
    isConfigFile path = true ↔ ∃ stem, path = stem ++ ".json" := by
  rw [isConfigFile, List.isSuffixOf_iff_suffix]
  constructor
  · rintro ⟨stem, cut⟩
    refine ⟨String.ofList stem, ?_⟩
    rw [← String.toList_inj, ← cut, String.toList_append, String.toList_ofList]
    rfl
  · rintro ⟨stem, rfl⟩
    exact ⟨stem.toList, by rw [String.toList_append]; rfl⟩

namespace Registry

/-- A node stands for the member of the registry that is named by a key. -/
def IsMember (registry : String) (node : Node) (key : String) : Prop :=
  node.kind = .member ∧
    (∃ object, node.FirstChild .object object ∧ object.kind = .identifier registry) ∧
    (∃ property, node.FirstChild .property property ∧ property.kind = .string key) ∧
    ∃ stem, key = stem ++ ".json"

/-- A node assigns to the member of the registry that is named by a key. -/
def Registers (registry : String) (node : Node) (key : String) : Prop :=
  node.kind = .assignment ∧ ∃ left, node.FirstChild .left left ∧ IsMember registry left key

theorem memberKey?_eq_some_iff {registry key : String} {node : Node} :
    memberKey? registry node = some key ↔ IsMember registry node key := by
  simp only [memberKey?, IsMember, ← Node.child?_eq_some_iff, ← Path.isConfigFile_iff, bind,
    Option.bind_eq_some_iff, Option.guard_eq_some']
  constructor
  · rintro ⟨-, isMember, object, held, -, named, property, there, found⟩
    split at found
    · rename_i text isText
      split at found
      · rename_i isFile
        cases found
        exact ⟨isMember, ⟨object, held, named⟩, ⟨property, there, isText⟩, isFile⟩
      · cases found
    · cases found
  · rintro ⟨isMember, ⟨object, held, named⟩, ⟨property, there, isText⟩, isFile⟩
    refine ⟨(), isMember, object, held, (), named, property, there, ?_⟩
    simp [isText, isFile]

theorem key?_eq_some_iff {registry key : String} {node : Node} :
    key? registry node = some key ↔ Registers registry node key := by
  simp only [key?, Registers, ← Node.child?_eq_some_iff, ← memberKey?_eq_some_iff, bind,
    Option.bind_eq_some_iff, Option.guard_eq_some']
  constructor
  · rintro ⟨-, assigns, left, target, found⟩
    exact ⟨assigns, left, target, found⟩
  · rintro ⟨assigns, left, target, found⟩
    exact ⟨(), assigns, left, target, found⟩

theorem own_of_not_registers {registry : String} {node : Node} (source : String)
    (h : ∀ key, ¬Registers registry node key) : own registry source node = [] := by
  have noKey : key? registry node = none := by
    rw [Option.eq_none_iff_forall_not_mem]
    intro key found
    exact h key (key?_eq_some_iff.mp found)
  rw [own, noKey]

theorem own_of_registers {registry key : String} {node : Node} (source : String)
    (h : Registers registry node key) :
    own registry source node =
      ((Node.preorderAll node.children).filter fun below =>
        below.kind = .object ∧ below.role = .right).filterMap fun object =>
          (textOf source object).map fun text => ⟨key, text⟩ := by
  have literal : isLiteral = fun below => decide (below.kind = .object ∧ below.role = .right) := by
    funext below
    simp [isLiteral]
  rw [own, key?_eq_some_iff.mpr h, Node.descendants, Walk.toList_eq, literal]

theorem find_eq_flatMap (registry source : String) (node : Node) :
    find registry source node = node.preorder.flatMap (own registry source) := by
  have walk : node.walk.toList = node.preorder := by
    rw [Node.walk, Walk.toList_eq, Node.preorderAll, Node.preorderAll, List.append_nil]
  rw [find, walk]

theorem find_eq_own_append (registry source : String) (node : Node) :
    find registry source node =
      own registry source node ++ node.children.flatMap (find registry source) := by
  have below : (fun child => child.preorder.flatMap (own registry source)) = find registry source :=
    funext fun child => (find_eq_flatMap registry source child).symm
  rw [find_eq_flatMap, Node.preorder_eq, List.flatMap_cons, Node.preorderAll_eq_flatMap,
    List.flatMap_assoc, below]

theorem textOf_eq_some_iff {source text : String} {node : Node} :
    textOf source node = some text ↔ ∃ before after, source = before ++ text ++ after ∧
      before.utf8ByteSize = node.span.start ∧ (before ++ text).utf8ByteSize = node.span.stop :=
  Text.slice?_eq_some_iff

theorem isSome_textOf_iff {source : String} {node : Node} :
    (textOf source node).isSome ↔ node.span.Fits source := by
  rw [textOf, Text.isSome_slice?_iff]
  constructor
  · rintro ⟨ordered, start, stop⟩
    exact ⟨ordered, stop.le_rawEndPos, start, stop⟩
  · rintro ⟨ordered, -, start, stop⟩
    exact ⟨ordered, start, stop⟩

/-! ## Where a configuration was found -/

/-- A configuration with the addresses of the assignment and of the object that it was found at. -/
structure Report where
  assignment : Address
  object : Address
  literal : Literal

namespace Report

/-- A report comes before another one if its assignment does, and below one assignment its object. -/
def Before (first second : Report) : Prop :=
  first.assignment < second.assignment ∨
    first.assignment = second.assignment ∧ first.object < second.object

/-- The object is the right side of something below the assignment, and has the text as its span. -/
structure Holds (registry source : String) (program : Node) (report : Report) : Prop where
  below : report.assignment <+: report.object
  proper : report.assignment ≠ report.object
  registers : ∃ assignment, program.at? report.assignment = some assignment ∧
    Registers registry assignment report.literal.path
  literal : ∃ object, program.at? report.object = some object ∧ object.kind = .object ∧
    object.role = .right ∧ textOf source object = some report.literal.source

end Report

/-- The reports of the objects below one node. -/
def reportsAt (registry source : String) (address : Address) (node : Node) : List Report :=
  match key? registry node with
  | none => []
  | some key =>
    ((Node.locatedFrom 0 node.children).filter fun entry => isLiteral entry.2).filterMap
      fun entry => (textOf source entry.2).map fun text => ⟨address, address ++ entry.1, ⟨key, text⟩⟩

def reports (registry source : String) (program : Node) : List Report :=
  program.located.flatMap fun entry => reportsAt registry source entry.1 entry.2

theorem map_reportsAt (registry source : String) (address : Address) (node : Node) :
    (reportsAt registry source address node).map (·.literal) = own registry source node := by
  cases registers : key? registry node with
  | none =>
    simp only [reportsAt, own, registers]
    rfl
  | some key =>
    simp only [reportsAt, own, registers]
    rw [Node.descendants, Walk.toList_eq, ← Node.map_locatedFrom 0, List.filter_map,
      List.filterMap_map, List.map_filterMap]
    refine List.filterMap_congr fun entry _ => ?_
    rw [Option.map_map]
    rfl

theorem map_reports (registry source : String) (program : Node) :
    (reports registry source program).map (·.literal) = find registry source program := by
  rw [reports, List.map_flatMap, find_eq_flatMap, ← Node.map_located, List.flatMap_map]
  refine List.flatMap_congr fun entry _ => ?_
  exact map_reportsAt _ _ _ _

theorem mem_reportsAt {registry source : String} {address : Address} {node : Node}
    {report : Report} :
    report ∈ reportsAt registry source address node ↔
      report.assignment = address ∧ Registers registry node report.literal.path ∧
        ∃ below object, report.object = address ++ below ∧ below ≠ [] ∧
          node.at? below = some object ∧ (object.kind = .object ∧ object.role = .right) ∧
          textOf source object = some report.literal.source := by
  rw [← key?_eq_some_iff]
  cases registers : key? registry node with
  | none => simp [reportsAt, registers]
  | some key =>
    simp only [reportsAt, registers, List.mem_filterMap, List.mem_filter, Prod.exists,
      Node.mem_locatedFrom_children, isLiteral, Bool.and_eq_true, decide_eq_true_eq,
      Option.map_eq_some_iff, Option.some.injEq]
    constructor
    · rintro ⟨below, object, ⟨⟨nonempty, led⟩, literal⟩, text, taken, rfl⟩
      exact ⟨rfl, rfl, below, object, rfl, nonempty, led, literal, taken⟩
    · obtain ⟨assignment, object, path, text⟩ := report
      dsimp only
      rintro ⟨rfl, rfl, below, found, rfl, nonempty, led, literal, taken⟩
      exact ⟨below, found, ⟨⟨nonempty, led⟩, literal⟩, text, taken, rfl⟩

theorem mem_reports {registry source : String} {program : Node} {report : Report} :
    report ∈ reports registry source program ↔ report.Holds registry source program := by
  simp only [reports, List.mem_flatMap, Prod.exists, Node.mem_located, mem_reportsAt]
  constructor
  · rintro ⟨_, node, there, rfl, registers, below, object, reached, nonempty, led, literal, taken⟩
    refine ⟨⟨below, reached.symm⟩, ?_, ⟨node, there, registers⟩, object, ?_, literal.1, literal.2,
      taken⟩
    · intro same
      rw [← same] at reached
      exact nonempty (List.self_eq_append_right.mp reached)
    · rw [reached, Node.at?_append, there]
      exact led
  · rintro ⟨⟨below, reached⟩, proper, ⟨node, there, registers⟩, object, led, kind, role, taken⟩
    rw [← reached, Node.at?_append, there] at led
    refine ⟨_, node, there, rfl, registers, below, object, reached.symm, ?_, led, ⟨kind, role⟩, taken⟩
    rintro rfl
    exact proper (by simpa using reached)

theorem pairwise_reportsAt (registry source : String) (address : Address) (node : Node) :
    (reportsAt registry source address node).Pairwise Report.Before := by
  cases registers : key? registry node with
  | none => simp [reportsAt, registers]
  | some key =>
    simp only [reportsAt, registers, List.pairwise_filterMap]
    refine ((Node.pairwise_locatedFrom 0 node.children).filter _).imp ?_
    intro first second less one taken other taken'
    obtain ⟨text, -, rfl⟩ := Option.map_eq_some_iff.mp taken
    obtain ⟨text', -, rfl⟩ := Option.map_eq_some_iff.mp taken'
    exact Or.inr ⟨rfl, List.append_left_lt less⟩

theorem pairwise_reports (registry source : String) (program : Node) :
    (reports registry source program).Pairwise Report.Before := by
  rw [reports, List.pairwise_flatMap]
  refine ⟨fun entry _ => pairwise_reportsAt _ _ _ _, ?_⟩
  refine (Node.pairwise_located program).imp fun {first second} less one here other there => ?_
  left
  rw [(mem_reportsAt.mp here).1, (mem_reportsAt.mp there).1]
  exact less

end Registry

/--
What is found in a program is what its top registers and then what is found below each of its
children. Told by where they were found, the configurations are in order of their assignments and
then of their objects, and each object that is the right side of something is there once for every
assignment to the registry above it, unless its span is not one of the program. A stream takes
all of them in this order, or none if its receiver has gone away.
-/
theorem Registry.find_tree_order (registry source : String) (node : Node) :
    find registry source node =
      own registry source node ++ node.children.flatMap (find registry source) ∧
    ((∀ key, ¬Registers registry node key) → own registry source node = []) ∧
    (∀ key, Registers registry node key → own registry source node =
      ((Node.preorderAll node.children).filter fun below =>
        below.kind = .object ∧ below.role = .right).filterMap fun object =>
          (textOf source object).map fun text => ⟨key, text⟩) ∧
    (∀ object, (textOf source object).isSome ↔ object.span.Fits source) ∧
    (∀ object text, textOf source object = some text ↔
      ∃ before after, source = before ++ text ++ after ∧
        before.utf8ByteSize = object.span.start ∧
        (before ++ text).utf8ByteSize = object.span.stop) ∧
    (∃ reports : List Report, find registry source node = reports.map (·.literal) ∧
      reports.Pairwise Report.Before ∧
      ∀ report, report ∈ reports ↔ report.Holds registry source node) ∧
    (∀ stream : Stream, Stream.scan registry source node stream =
      if stream.isOpen = true then
        .ok (find registry source node).length
          { stream with literals := stream.literals ++ find registry source node }
      else if find registry source node = [] then .ok 0 stream
      else .error .streamClosed stream) := by
  refine ⟨find_eq_own_append registry source node, own_of_not_registers source,
    fun key => own_of_registers source, fun object => isSome_textOf_iff,
    fun object text => textOf_eq_some_iff, ?_, ?_⟩
  · exact ⟨reports registry source node, (map_reports registry source node).symm,
      pairwise_reports registry source node, fun report => mem_reports⟩
  · intro stream
    by_cases opened : stream.isOpen = true
    · rw [if_pos opened, Stream.scan_open registry source node opened]
    · rw [if_neg opened, Stream.scan_closed registry source node (by simpa using opened)]

/--
An assignment within an assignment. Of the objects below both of them one has a span that cuts a
character, and the other one is reported twice, for the outermost assignment first.
-/
theorem Registry.find_nested_assignments :
    let member (key : String) : Node := .mk .member .left ⟨0, 0⟩
      [.mk (.identifier "r") .object ⟨0, 0⟩ [], .mk (.string key) .property ⟨0, 0⟩ []]
    let object (span : Span) : Node := .mk .object .right span []
    let inner : Node :=
      .mk .assignment .argument ⟨0, 0⟩ [member "b.json", object ⟨2, 4⟩, object ⟨1, 4⟩]
    let outer : Node :=
      .mk .assignment .root ⟨0, 4⟩ [member "a.json", .mk .call .right ⟨0, 0⟩ [inner]]
    Registers "r" outer "a.json" ∧ Registers "r" inner "b.json" ∧
      own "r" "é{}" outer = [⟨"a.json", "{}"⟩] ∧ own "r" "é{}" inner = [⟨"b.json", "{}"⟩] ∧
      find "r" "é{}" outer = [⟨"a.json", "{}"⟩, ⟨"b.json", "{}"⟩] := by
  intro member object inner outer
  have first : Registers "r" outer "a.json" := key?_eq_some_iff.mp (by decide)
  have second : Registers "r" inner "b.json" := key?_eq_some_iff.mp (by decide)
  have reported : own "r" "é{}" outer = [⟨"a.json", "{}"⟩] := by
    rw [(find_tree_order "r" "é{}" outer).2.2.1 _ first]
    decide
  have below : own "r" "é{}" inner = [⟨"b.json", "{}"⟩] := by
    rw [(find_tree_order "r" "é{}" inner).2.2.1 _ second]
    decide
  refine ⟨first, second, reported, below, ?_⟩
  rw [(find_tree_order "r" "é{}" outer).1, reported]
  cbv

end ConfigRecovery
