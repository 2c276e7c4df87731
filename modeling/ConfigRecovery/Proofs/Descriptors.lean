import ConfigRecovery.Proofs.Partition

/-!
# Descriptors that get no share

A partition fails just when a descriptor can have no share, and then at the first of them. What was
dealt out before it stands as if the list had ended there, and nothing from it on is changed.
-/

namespace ConfigRecovery.Subpackage

/-- A descriptor that gets a share: an object with a root, whose pages are texts if it lists any. -/
inductive Complete : Json.Value → Prop where
  | object {descriptor : Fields Json.Value} {root : String}
    (rooted : Fields.get? descriptor "root" = some (.string root))
    (listed : Fields.get? descriptor "pages" = none ∨ Fields.get? descriptor "pages" = some .null ∨
      ∃ pages, Fields.get? descriptor "pages" = some (.strings pages)) :
    Complete (.object descriptor)

/-- Why the descriptor at a position gets no share. -/
inductive Faulty (place : Nat) : Json.Value → Failure → Prop where
  | shape {value : Json.Value} (other : value.kind ≠ .object) :
    Faulty place value (.malformed (.subpackage place) (.unexpected .object value.kind))
  | root {descriptor : Fields Json.Value}
    (other : ∀ root, Fields.get? descriptor "root" ≠ some (.string root)) :
    Faulty place (.object descriptor) (.malformed (.subpackageRoot place)
      (.unexpected .string ((Fields.get? descriptor "root").map (·.kind))))
  | list {descriptor : Fields Json.Value} {value : Json.Value}
    (listed : Fields.get? descriptor "pages" = some value) (there : value.kind ≠ .null)
    (other : value.kind ≠ .array) :
    Faulty place (.object descriptor)
      (.malformed (.subpackagePages place) (.unexpected .array value.kind))
  | entry {descriptor : Fields Json.Value} {front : List String} {item : Json.Value}
    {rest : List Json.Value}
    (listed : Fields.get? descriptor "pages" = some (.array (front.map .string ++ item :: rest)))
    (other : item.kind ≠ .string) :
    Faulty place (.object descriptor)
      (.malformed (.subpackagePages place) (.unexpected .strings item.kind))

theorem Faulty.names_place {place : Nat} {value : Json.Value} {failure : Failure}
    (faulty : Faulty place value failure) :
    ∃ field problem part, failure = .malformed field problem ∧
      field.text = "subPackages[" ++ toString place ++ "]" ++ part := by
  cases faulty with
  | shape => exact ⟨_, _, "", rfl, by rw [String.append_empty]; rfl⟩
  | root => exact ⟨_, _, ".root", rfl, by rw [String.append_assoc]; rfl⟩
  | list => exact ⟨_, _, ".pages", rfl, by rw [String.append_assoc]; rfl⟩
  | entry => exact ⟨_, _, ".pages", rfl, by rw [String.append_assoc]; rfl⟩

/-! ## One descriptor -/

theorem asStrings_error {field : Field} {items : List Json.Value} {failure : Failure}
    (failed : Manifest.asStrings field items = .error failure) :
    ∃ (front : List String) (item : Json.Value) (rest : List Json.Value),
      items = front.map .string ++ item :: rest ∧ item.kind ≠ .string ∧
      failure = .malformed field (.unexpected .strings item.kind) := by
  induction items with
  | nil => cases failed
  | cons item items ih =>
    rw [Manifest.asStrings, List.mapM_cons] at failed
    cases item with
    | string text =>
      obtain failed | ⟨_, _, failed⟩ := except_bind_error.mp failed
      · cases failed
      obtain failed | ⟨_, _, failed⟩ := except_bind_error.mp failed
      · obtain ⟨front, item, rest, rfl, other, rfl⟩ := ih failed
        exact ⟨text :: front, item, rest, rfl, other, rfl⟩
      · cases failed
    | _ =>
      cases failed
      exact ⟨[], _, items, rfl, by simp [Json.Value.kind], rfl⟩

theorem rootOf_ok {index : Nat} {descriptor : Fields Json.Value} {root : String} :
    rootOf index descriptor = .ok root ↔
      Fields.get? descriptor "root" = some (.string root) := by
  unfold rootOf
  split <;> simp_all

theorem rootOf_error {index : Nat} {descriptor : Fields Json.Value} {failure : Failure}
    (failed : rootOf index descriptor = .error failure) :
    Faulty index (.object descriptor) failure := by
  unfold rootOf at failed
  split at failed
  · cases failed
  · rename_i other
    cases failed
    exact .root other

theorem select_error {index : Nat} {descriptor : Fields Json.Value} {root : String}
    {pages : List String} {failure : Failure}
    (failed : select index descriptor root pages = .error failure) :
    Faulty index (.object descriptor) failure := by
  unfold select at failed
  split at failed
  · rename_i items own
    obtain ⟨front, item, rest, rfl, other, rfl⟩ := asStrings_error failed
    exact .entry own other
  · cases failed
  · cases failed
  · rename_i value notArray notNull own
    cases failed
    refine .list own ?_ ?_
    · cases value <;> simp_all [Json.Value.kind]
    · cases value <;> simp_all [Json.Value.kind]

theorem Share.of_error {index : Nat} {pages : List String} {value : Json.Value} {failure : Failure}
    (failed : Share.of index pages value = .error failure) : Faulty index value failure := by
  cases value with
  | object descriptor =>
    obtain failed | ⟨root, _, failed⟩ := except_bind_error.mp failed
    · exact rootOf_error failed
    obtain failed | ⟨selected, _, failed⟩ := except_bind_error.mp failed
    · exact select_error failed
    · cases failed
  | _ =>
    cases failed
    exact .shape (by simp [Json.Value.kind])

theorem Share.of_complete {value : Json.Value} (complete : Complete value) (index : Nat)
    (pages : List String) : ∃ share, Share.of index pages value = .ok share := by
  obtain @⟨descriptor, root, rooted, listed⟩ := complete
  have chosen : ∃ selected, select index descriptor root pages = .ok selected := by
    unfold select
    rcases listed with unlisted | null | ⟨own, listed⟩
    · rw [unlisted]
      exact ⟨_, rfl⟩
    · rw [null]
      exact ⟨_, rfl⟩
    · rw [listed]
      exact ⟨own, Manifest.asStrings_ok.mpr rfl⟩
  obtain ⟨selected, chosen⟩ := chosen
  exact ⟨_, except_bind_ok.mpr ⟨root, rootOf_ok.mpr rooted,
    except_bind_ok.mpr ⟨selected, chosen, rfl⟩⟩⟩

theorem Share.complete_of_ok {index : Nat} {pages : List String} {value : Json.Value}
    {share : Share} (ok : Share.of index pages value = .ok share) : Complete value := by
  cases value with
  | object descriptor =>
    obtain ⟨root, rooted, ok⟩ := except_bind_ok.mp ok
    obtain ⟨selected, chosen, -⟩ := except_bind_ok.mp ok
    refine .object (rootOf_ok.mp rooted) ?_
    cases select_ok chosen with
    | listed own => exact .inr (.inr ⟨selected, own⟩)
    | rooted unlisted => exact unlisted.imp_right .inl
  | _ => cases ok

/-! ## All descriptors -/

theorem partitionFrom_error {index : Nat} {pages : List String} {value : Json.Value}
    {failure : Failure} (failed : Share.of index pages value = .error failure)
    (rest : List Json.Value) :
    partitionFrom index pages (value :: rest) = ⟨pages, value :: rest, .error failure⟩ := by
  rw [partitionFrom, failed]

theorem length_descriptors (index : Nat) (pages : List String) (descriptors : List Json.Value) :
    (partitionFrom index pages descriptors).descriptors.length = descriptors.length := by
  induction descriptors generalizing index pages with
  | nil => rfl
  | cons value descriptors ih =>
    rw [partitionFrom]
    cases Share.of index pages value with
    | error failure => rfl
    | ok share => exact congrArg (· + 1) (ih _ _)

theorem length_subpackages {index : Nat} {pages : List String} {descriptors : List Json.Value}
    {subpackages : List Subpackage}
    (ok : (partitionFrom index pages descriptors).result = .ok subpackages) :
    subpackages.length = descriptors.length := by
  have untouched : remaining pages [] = pages := (foldl_release pages []).symm
  rw [← untouched] at ok
  obtain ⟨-, -, -, length, -⟩ := partitionFrom_ok ok
  exact length

theorem partitionFrom_ok_iff (index : Nat) (pages : List String) (descriptors : List Json.Value) :
    (∃ subpackages, (partitionFrom index pages descriptors).result = .ok subpackages) ↔
      ∀ value ∈ descriptors, Complete value := by
  induction descriptors generalizing index pages with
  | nil => exact ⟨fun _ _ member => (List.not_mem_nil member).elim, fun _ => ⟨[], rfl⟩⟩
  | cons value descriptors ih =>
    rw [partitionFrom, List.forall_mem_cons]
    cases shared : Share.of index pages value with
    | error failure =>
      constructor
      · rintro ⟨_, ok⟩
        cases ok
      · rintro ⟨complete, -⟩
        obtain ⟨share, ok⟩ := Share.of_complete complete index pages
        cases shared.symm.trans ok
    | ok share =>
      rw [← ih (index + 1) (share.selected.foldl release pages)]
      constructor
      · rintro ⟨_, ok⟩
        obtain ⟨others, rest, -⟩ := except_map_ok.mp ok
        exact ⟨Share.complete_of_ok shared, others, rest⟩
      · rintro ⟨-, others, rest⟩
        exact ⟨_, except_map_ok.mpr ⟨others, rest, rfl⟩⟩

/-- The descriptors behind some that got their shares are dealt with as if they came first. -/
theorem partitionFrom_append {index : Nat} {pages : List String} {front : List Json.Value}
    {subpackages : List Subpackage}
    (ok : (partitionFrom index pages front).result = .ok subpackages) (rest : List Json.Value) :
    let first := partitionFrom index pages front
    let behind := partitionFrom (index + front.length) first.pages rest
    partitionFrom index pages (front ++ rest) =
      ⟨behind.pages, first.descriptors ++ behind.descriptors,
        behind.result.map (subpackages ++ ·)⟩ := by
  induction front generalizing index pages subpackages with
  | nil =>
    cases ok
    have same (result : Except Failure (List Subpackage)) :
        result.map (([] : List Subpackage) ++ ·) = result := by
      cases result <;> rfl
    simp only [partitionFrom, same]
    rfl
  | cons value front ih =>
    rw [partitionFrom] at ok
    rw [List.cons_append, partitionFrom, partitionFrom]
    cases shared : Share.of index pages value with
    | error failure =>
      rw [shared] at ok
      cases ok
    | ok share =>
      rw [shared] at ok
      obtain ⟨others, dealt, rfl⟩ := except_map_ok.mp ok
      have later (result : Except Failure (List Subpackage)) :
          (result.map (others ++ ·)).map (share.subpackage :: ·) =
            result.map (share.subpackage :: others ++ ·) := by
        cases result <;> rfl
      simp only [ih dealt, later, List.length_cons, Nat.add_right_comm, List.cons_append,
        Nat.add_assoc]

/--
A partition fails just when a descriptor is not complete. At the first of them it stops, with a
failure that names the position: the pages and the descriptors before it are left as a partition
among these alone leaves them, which succeeds, and all from it on is unchanged.
-/
theorem partition_stops (pages : List String) (descriptors : List Json.Value) :
    ((∃ failure, (partition pages descriptors).result = .error failure) ↔
      ∃ value ∈ descriptors, ¬Complete value) ∧
    ∀ place value, descriptors[place]? = some value → ¬Complete value →
      (∀ earlier ∈ descriptors.take place, Complete earlier) →
      let before := partition pages (descriptors.take place)
      (∃ subpackages, before.result = .ok subpackages) ∧
      (partition pages descriptors).pages = before.pages ∧
      before.descriptors.length = place ∧
      (partition pages descriptors).descriptors = before.descriptors ++ descriptors.drop place ∧
      ∃ failure field problem part, (partition pages descriptors).result = .error failure ∧
        Faulty place value failure ∧ failure = .malformed field problem ∧
        field.text = "subPackages[" ++ toString place ++ "]" ++ part := by
  constructor
  · have completes := partitionFrom_ok_iff 0 pages descriptors
    rw [← not_iff_not, not_exists, not_exists]
    simp only [not_and, not_not]
    rw [← completes, partition]
    cases (partitionFrom 0 pages descriptors).result <;> simp
  · intro place value found incomplete earlier before
    obtain ⟨subpackages, dealt⟩ :=
      (partitionFrom_ok_iff 0 pages (descriptors.take place)).mpr earlier
    obtain ⟨bound, equal⟩ := List.getElem?_eq_some_iff.mp found
    have length : (descriptors.take place).length = place :=
      List.length_take_of_le (Nat.le_of_lt bound)
    have behind : descriptors.drop place = value :: descriptors.drop (place + 1) := by
      rw [List.drop_eq_getElem_cons bound, equal]
    cases shared : Share.of place (partitionFrom 0 pages (descriptors.take place)).pages value with
    | ok share => exact absurd (Share.complete_of_ok shared) incomplete
    | error failure =>
      have faulty := Share.of_error shared
      obtain ⟨field, problem, part, named, text⟩ := faulty.names_place
      -- the share of `value` fails with the pages that those before it left
      have whole := partitionFrom_append dealt (descriptors.drop place)
      rw [List.take_append_drop, Nat.zero_add, length, behind] at whole
      have stopped : partition pages descriptors =
          ⟨before.pages, before.descriptors ++ descriptors.drop place, .error failure⟩ := by
        rw [behind]
        exact whole.trans (by rw [partitionFrom_error shared]; rfl)
      rw [stopped]
      exact ⟨⟨subpackages, dealt⟩, rfl, (length_descriptors _ _ _).trans length, rfl, failure,
        field, problem, part, rfl, faulty, named, text⟩

/-- A list of pages with an entry that is no text, behind a descriptor that takes a page. -/
theorem partition_stops_entry :
    let descriptors : List Json.Value := [.object [("root", .string "a/")],
      .object [("root", .string "b"), ("pages", .array [.string "b", .null])], .null]
    ∃ failure, (partition ["e", "a/x", "b"] descriptors).result = .error failure ∧
      (partition ["e", "a/x", "b"] descriptors).pages = ["e", "b"] ∧
      (partition ["e", "a/x", "b"] descriptors).descriptors =
        .object [("root", .string "a/"), ("pages", .strings ["x"])] :: descriptors.tail ∧
      ∃ field problem part, failure = .malformed field problem ∧
        field.text = "subPackages[1]" ++ part := by
  intro descriptors
  have first : Complete (.object [("root", .string "a/")]) := .object rfl (.inl rfl)
  have second : ¬Complete (.object [("root", .string "b"),
      ("pages", .array [.string "b", .null])]) := by
    intro complete
    obtain ⟨share, ok⟩ := Share.of_complete complete 1 []
    cases ok
  obtain ⟨-, stops⟩ := partition_stops ["e", "a/x", "b"] descriptors
  obtain ⟨-, pages, -, others, failure, field, problem, part, failed, -, named, text⟩ :=
    stops 1 _ rfl second (by simpa [descriptors] using first)
  refine ⟨failure, failed, pages.trans ?_, others.trans ?_, field, problem, part, named, text⟩
  · cbv
  · cbv

end ConfigRecovery.Subpackage
