import ConfigRecovery.Proofs.PageFiles
import ConfigRecovery.Proofs.Recording
import ConfigRecovery.Store.Directory

/-!
# Paths below a directory

The system reads a path by names of its own, in which a backslash is nothing special. A path that
goes up nowhere and does not start at the top leads down from wherever it is put, and canonical
paths, which are made of ordinary segments, are of that kind.
-/

namespace ConfigRecovery

namespace Disk

/-! ## Names between slashes -/

/-- A name that leads down by one level. -/
structure Plain (name : String) : Prop where
  ne_empty : name ≠ ""
  ne_dot : name ≠ "."
  ne_parent : name ≠ ".."
  no_slash : '/' ∉ name.toList

namespace Plain

variable {name : String}

@[simp]
theorem staysPut_eq (plain : Plain name) : staysPut name = false := by
  simp [staysPut, plain.ne_empty, plain.ne_dot]

theorem ofList {segment : Path.Segment} (ordinary : Path.Ordinary segment) :
    Plain (String.ofList segment) := by
  constructor
  · intro empty
    exact ordinary.ne_nil (String.ofList_injective empty)
  · intro dot
    exact ordinary.ne_dot (String.ofList_injective dot)
  · intro parent
    exact ordinary.ne_parent (String.ofList_injective parent)
  · rw [String.toList_ofList]
    exact ordinary.no_slash

end Plain

theorem names_eq (path : String) : names path = (path.toList.splitOn '/').map String.ofList := by
  rw [names, Text.splitOn_eq]

theorem names_ne_nil (path : String) : names path ≠ [] := by
  rw [names_eq, Ne, List.map_eq_nil_iff]
  exact List.splitOn_ne_nil _ _

theorem no_slash_of_mem_names {path name : String} (listed : name ∈ names path) :
    '/' ∉ name.toList := by
  obtain ⟨part, member, rfl⟩ := List.mem_map.mp listed
  rw [String.toList_ofList]
  intro slash
  exact (Text.of_mem_splitOn member slash).2 rfl

/-- A slash between two paths separates the names of the one from those of the other. -/
theorem names_slash (front back : String) :
    names (front ++ "/" ++ back) = names front ++ names back := by
  rw [names_eq, Text.toList_slash, List.splitOn_append_cons_self, List.map_append, ← names_eq,
    ← names_eq]

theorem names_slash_last (front : String) : names (front ++ "/") = names front ++ [""] := by
  rw [← String.append_empty (s := front ++ "/"), names_slash]
  rfl

/-- A path from the top has an empty name in front. -/
theorem empty_mem_names {path : String} (top : path.toList.head? = some '/') :
    "" ∈ names path := by
  obtain ⟨rest, text⟩ := List.head?_eq_some_iff.mp top
  have cut : path = "" ++ "/" ++ String.ofList rest := by
    rw [← String.toList_inj, text]
    simp
  rw [cut, names_slash]
  exact List.mem_cons_self

end Disk

namespace Path

theorem canonical_eq_empty_iff {raw : String} : canonical raw = "" ↔ segments raw.toList = [] := by
  rw [← show canonical "" = "" from rfl, canonical_eq_iff]
  rfl

/-- The system reads a canonical path as the segments that it is made of. -/
theorem names_canonical {raw : String} (named : canonical raw ≠ "") :
    Disk.names (canonical raw) = (segments raw.toList).map String.ofList := by
  have nonempty : segments raw.toList ≠ [] := by
    rwa [Ne, ← canonical_eq_empty_iff]
  have plain : ∀ segment ∈ segments raw.toList, '/' ∉ segment := by
    intro segment listed
    exact (segments_ordinary raw.toList segment listed).no_slash
  rw [Disk.names_eq, toList_canonical, render, Text.join_eq,
    List.splitOn_intercalate _ plain nonempty]

theorem plain_of_mem_names {raw name : String} (named : canonical raw ≠ "")
    (listed : name ∈ Disk.names (canonical raw)) : Disk.Plain name := by
  rw [names_canonical named] at listed
  obtain ⟨segment, member, rfl⟩ := List.mem_map.mp listed
  exact .ofList (segments_ordinary raw.toList segment member)

end Path

/-! ## Components -/

namespace Disk

/-- The components of a path without a dot in front, which leads nowhere. -/
def route (path : String) : List Component := (components path).filter (· ≠ .here)

/-- The names of a path that lead somewhere. -/
def passed (path : String) : List String := (names path).filter fun name => !staysPut name

theorem route_eq (path : String) : route path =
    (if path.toList.head? = some '/' then [.top] else []) ++ (names path).filterMap component? := by
  have rest : ((names path).filterMap component?).filter (· ≠ .here) =
      (names path).filterMap component? := by
    rw [List.filter_eq_self]
    intro component listed
    obtain ⟨name, -, read⟩ := List.mem_filterMap.mp listed
    unfold component? at read
    grind
  rw [route, components, List.filter_append, rest, lead]
  split
  · rfl
  · split <;> rfl

/-- A component that leaves is the top, in front, or a step up, which may stand anywhere. -/
theorem any_leaves_components {path : String} : (components path).any Component.leaves = true ↔
    path.toList.head? = some '/' ∨ ".." ∈ names path := by
  rw [components, List.any_append, Bool.or_eq_true]
  apply or_congr
  · unfold lead
    split
    · simp_all [Component.leaves]
    · split <;> simp_all [Component.leaves]
  · rw [List.any_eq_true]
    constructor
    · rintro ⟨component, listed, leaves⟩
      obtain ⟨name, member, read⟩ := List.mem_filterMap.mp listed
      unfold component? at read
      grind [Component.leaves]
    · intro up
      exact ⟨.up, List.mem_filterMap.mpr ⟨"..", up, rfl⟩, rfl⟩

/-- Where nothing goes up, the names that lead somewhere lead down. -/
theorem filterMap_component? {names : List String} (down : ".." ∉ names) :
    names.filterMap component? = (names.filter fun name => !staysPut name).map .name := by
  induction names with
  | nil => rfl
  | cons name names ih =>
    rw [List.mem_cons, not_or] at down
    cases stays : staysPut name with
    | true => simp [component?, stays, ih down.2]
    | false => simp [component?, stays, Ne.symm down.1, ih down.2]

theorem plain_of_mem_passed {path name : String} (down : ".." ∉ names path)
    (listed : name ∈ passed path) : Plain name := by
  obtain ⟨member, moves⟩ := List.mem_filter.mp listed
  rw [Bool.not_eq_true', staysPut, Bool.or_eq_false_iff, decide_eq_false_iff_not,
    decide_eq_false_iff_not] at moves
  refine ⟨moves.1, moves.2, ?_, no_slash_of_mem_names member⟩
  rintro rfl
  exact down member

end Disk

/-! ## Resolving below the root -/

namespace DirectoryTree

variable {tree : DirectoryTree}

theorem escapes_eq_false_iff {path : String} : escapes path = false ↔
    path ≠ "" ∧ path.toList.head? ≠ some '/' ∧ ".." ∉ Disk.names path := by
  rw [escapes, Bool.or_eq_false_iff, decide_eq_false_iff_not, Bool.eq_false_iff, Ne,
    Disk.any_leaves_components, not_or]

theorem resolve_ok {path file : String} : tree.resolve path = .ok file ↔
    escapes path = false ∧ file = target tree.root path := by
  unfold resolve
  cases escapes path with
  | true => simp
  | false => simp [eq_comm]

theorem resolve_error {path : String} {failure : Failure} :
    tree.resolve path = .error failure ↔ escapes path = true ∧ failure = .traversal path := by
  unfold resolve
  cases escapes path with
  | true => simp [eq_comm]
  | false => simp

/--
A slash stands between a root and what is put below it. It may be the last one of the root, and
then it is not written twice.
-/
theorem target_eq {root : String} (named : root ≠ "") :
    ∃ front, (root = front ∨ root = front ++ "/") ∧
      ∀ path, target root path = front ++ "/" ++ path := by
  by_cases slash : root.toList.getLast? = some '/'
  · obtain ⟨front, text⟩ := List.getLast?_eq_some_iff.mp slash
    have cut : root = String.ofList front ++ "/" := by
      rw [← String.toList_inj, text]
      simp
    refine ⟨String.ofList front, .inr cut, fun path => ?_⟩
    rw [target, if_pos (.inr slash), ← cut]
  · exact ⟨root, .inl rfl, fun path => if_neg (not_or.mpr ⟨named, slash⟩)⟩

theorem head?_target {root : String} (named : root ≠ "") (path : String) :
    (target root path).toList.head? = root.toList.head? := by
  have nonempty : root.toList ≠ [] := by
    rwa [Ne, String.toList_eq_nil_iff]
  unfold target
  split
  · rw [String.toList_append, List.head?_append_of_ne_nil _ nonempty]
  · rw [String.toList_append, String.toList_append, List.append_assoc,
      List.head?_append_of_ne_nil _ nonempty]

/-- The route of a path below a root goes on from that of the root, one level down at a time. -/
theorem route_target {root path : String} (inside : escapes path = false) :
    Disk.route (target root path) = Disk.route root ++ (Disk.passed path).map .name := by
  obtain ⟨-, start, down⟩ := escapes_eq_false_iff.mp inside
  have own : (Disk.names path).filterMap Disk.component? = (Disk.passed path).map .name :=
    Disk.filterMap_component? down
  by_cases empty : root = ""
  · rw [empty, target, if_pos (.inl rfl), String.empty_append, Disk.route_eq, if_neg start, own]
    rfl
  · obtain ⟨front, same, text⟩ := target_eq empty
    have read : (Disk.names root).filterMap Disk.component? =
        (Disk.names front).filterMap Disk.component? := by
      rcases same with rfl | rfl
      · rfl
      · rw [Disk.names_slash_last, List.filterMap_append]
        exact List.append_nil _
    rw [Disk.route_eq, Disk.route_eq, head?_target empty, text, Disk.names_slash,
      List.filterMap_append, own, read, List.append_assoc]

/-! ## What reaches a directory -/

/-- Whether a path is one that the directory takes. -/
def Takes (tree : DirectoryTree) (path : String) : Prop := ∃ file, tree.resolve path = .ok file

theorem takes_iff {path : String} : tree.Takes path ↔
    path ≠ "" ∧ path.toList.head? ≠ some '/' ∧ ".." ∉ Disk.names path := by
  rw [← escapes_eq_false_iff]
  constructor
  · rintro ⟨file, resolved⟩
    exact (resolve_ok.mp resolved).1
  · intro inside
    exact ⟨_, resolve_ok.mpr ⟨inside, rfl⟩⟩

theorem takes_canonical (tree : DirectoryTree) {raw : String} (named : Path.canonical raw ≠ "") :
    tree.Takes (Path.canonical raw) := by
  have plain (name : String) (listed : name ∈ Disk.names (Path.canonical raw)) :
      Disk.Plain name :=
    Path.plain_of_mem_names named listed
  refine takes_iff.mpr ⟨named, ?_, fun up => (plain ".." up).ne_parent rfl⟩
  intro top
  exact (plain "" (Disk.empty_mem_names top)).ne_empty rfl

theorem takes_configFile (tree : DirectoryTree) (raw : String) :
    tree.Takes (Path.configFile raw) := by
  have named : Path.canonical (Path.configFile raw) ≠ "" := by
    rw [Path.canonical_configFile]
    exact Path.configFile_ne_empty raw
  have taken := tree.takes_canonical named
  rwa [Path.canonical_configFile] at taken

theorem write_traversal {path other : String} {content : Content} {behind : DirectoryTree} :
    OutputTree.write path content tree = .error (.traversal other) behind ↔
      ¬tree.Takes path ∧ other = path ∧ behind = tree := by
  change write path content tree = _ ↔ _
  unfold write
  cases resolved : tree.resolve path with
  | error failure =>
    obtain ⟨-, rfl⟩ := resolve_error.mp resolved
    simp [Takes, resolved, eq_comm]
  | ok file =>
    simp only [Takes, resolved]
    split
    · simp
    · split <;> simp

theorem save_reaches {raw : String} {content : Content} {written : List String}
    (new : Path.canonical raw ∉ written) :
    (stateOf (Sink.save raw content ⟨tree, written⟩)).tree =
      stateOf (OutputTree.write (Path.canonical raw) content tree) := by
  rw [Sink.save, if_neg new]
  cases OutputTree.write (Path.canonical raw) content tree with
  | ok done behind => rfl
  | error failure behind => rfl

/-- Only a path that names nothing is refused behind a sink, and that only once. -/
theorem save_traversal {raw other : String} {content : Content} {written : List String} :
    (∃ behind, Sink.save raw content ⟨tree, written⟩ = .error (.traversal other) behind) ↔
      Path.canonical raw = "" ∧ "" ∉ written ∧ other = "" := by
  constructor
  · rintro ⟨behind, failed⟩
    obtain ⟨new, refused, -⟩ := Sink.save_error.mp failed
    obtain ⟨untaken, rfl, -⟩ := write_traversal.mp refused
    have empty : Path.canonical raw = "" := by
      by_contra named
      exact untaken (tree.takes_canonical named)
    exact ⟨empty, empty ▸ new, empty⟩
  · rintro ⟨empty, new, rfl⟩
    have untaken : ¬tree.Takes "" := fun taken => (takes_iff.mp taken).1 rfl
    refine ⟨⟨tree, "" :: written⟩, Sink.save_error.mpr ?_⟩
    rw [empty]
    exact ⟨new, write_traversal.mpr ⟨untaken, rfl, rfl⟩, rfl⟩

/--
A directory takes a path just when it is not empty, does not start with a slash and has no name that
goes up, and puts it below its root by some levels. Such are the configuration files of all paths
and pages, and all canonical paths but the empty one. A sink hands on canonical paths only, so the
empty one is all that is refused behind it.
-/
theorem resolve_contained (tree : DirectoryTree) :
    (∀ path, tree.Takes path ↔
      path ≠ "" ∧ path.toList.head? ≠ some '/' ∧ ".." ∉ Disk.names path) ∧
    (∀ path file, tree.resolve path = .ok file → ∃ down : List String,
      (∀ name ∈ down, Disk.Plain name) ∧
        Disk.route file = Disk.route tree.root ++ down.map .name) ∧
    (∀ path failure, tree.resolve path = .error failure → failure = .traversal path) ∧
    (∀ raw, tree.Takes (Path.configFile raw)) ∧
    (∀ key : PageKey, tree.Takes key.configFile) ∧
    ∀ raw content written,
      (Path.canonical raw ∉ written →
        (stateOf (Sink.save raw content ⟨tree, written⟩)).tree =
          stateOf (OutputTree.write (Path.canonical raw) content tree)) ∧
      (Path.canonical raw ≠ "" → tree.Takes (Path.canonical raw)) ∧
      ∀ other, (∃ behind,
          Sink.save raw content ⟨tree, written⟩ = .error (.traversal other) behind) ↔
        Path.canonical raw = "" ∧ "" ∉ written ∧ other = "" := by
  refine ⟨fun _ => takes_iff, ?_, fun _ _ failed => (resolve_error.mp failed).2,
    takes_configFile tree, fun key => tree.takes_configFile key.name,
    fun raw content written => ⟨save_reaches, takes_canonical tree, fun _ => save_traversal⟩⟩
  intro path file resolved
  obtain ⟨inside, rfl⟩ := resolve_ok.mp resolved
  obtain ⟨-, -, down⟩ := escapes_eq_false_iff.mp inside
  exact ⟨Disk.passed path, fun _ => Disk.plain_of_mem_passed down, route_target inside⟩

/-- Dots and doubled slashes are taken as they are, and a backslash is no slash to the system. -/
example : (⟨"out/", .empty⟩ : DirectoryTree).resolve ".//a/..\\b" = .ok "out/.//a/..\\b" ∧
    Disk.route "out/.//a/..\\b" = [.name "out", .name "a", .name "..\\b"] := by
  decide

end DirectoryTree

end ConfigRecovery
