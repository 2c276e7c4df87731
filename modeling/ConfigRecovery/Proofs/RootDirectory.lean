import ConfigRecovery.Proofs.Descriptors
import ConfigRecovery.Proofs.Roots

/-!
# The directory of a root

Roots are compared with pages as texts. What starts with a root that ends in a slash is in the
directory of the root. Another root may end inside a name, so pages of a sibling directory start
with it too, and only those with a slash behind the root are in its own directory.
-/

namespace ConfigRecovery.Subpackage

/-- A page in the directory that a root names, with or without slashes at its end. -/
def InDirectory (root page : String) : Prop :=
  root.toList.rdropWhile (· = '/') ++ ['/'] <+: page.toList

instance (root page : String) : Decidable (InDirectory root page) :=
  inferInstanceAs (Decidable (_ <+: _))

theorem rdropWhile_of_no_slash {root : List Char} (ends : root.getLast? ≠ some '/') :
    root.rdropWhile (· = '/') = root := by
  rw [List.rdropWhile_eq_self_iff]
  intro nonempty
  simpa [List.getLast?_eq_some_getLast nonempty] using ends

theorem slash_of_getLast? {root : List Char} (ends : root.getLast? = some '/') :
    root.rdropWhile (· = '/') ++ ['/'] <+: root := by
  induction root using List.reverseRecOn with
  | nil => cases ends
  | append_singleton root c ih =>
    rw [List.getLast?_concat, Option.some_inj] at ends
    rw [ends, List.rdropWhile_concat_pos (· = '/') root '/' (decide_eq_true rfl)]
    by_cases more : root.getLast? = some '/'
    · exact (ih more).trans (List.prefix_append root _)
    · rw [rdropWhile_of_no_slash more]

theorem head?_relativePage {root page : String} (starts : root.toList <+: page.toList) :
    (relativePage root page).toList.head? = some '/' ↔ (root ++ "/").toList <+: page.toList := by
  have whole := append_relativePage starts
  conv_rhs => rw [← whole, String.toList_append, String.toList_append, List.prefix_append_right_inj]
  cases (relativePage root page).toList with
  | nil => exact iff_of_false (by simp) (by simp)
  | cons c rest => simp [eq_comm]

/-- A page that starts with a root is in its directory if one of them brings the slash. -/
theorem inDirectory_iff {root page : String} (starts : root.toList <+: page.toList) :
    InDirectory root page ↔
      root.toList.getLast? = some '/' ∨ (relativePage root page).toList.head? = some '/' := by
  by_cases ends : root.toList.getLast? = some '/'
  · exact iff_of_true ((slash_of_getLast? ends).trans starts) (Or.inl ends)
  · rw [or_iff_right ends, head?_relativePage starts, InDirectory, rdropWhile_of_no_slash ends,
      String.toList_append]
    rfl

/--
A descriptor without a list takes, of the pages that the descriptors in front of it left, those that
start with its root, and lists what each has behind the root. If the root ends in a slash, all these
are in its directory and the pages elsewhere stay; if not, just those are whose rewritten page starts
with a slash, which is when the page has a slash behind the root.
-/
theorem partition_by_directory {front : List Json.Value}
    (complete : ∀ value ∈ front, Complete value) {descriptor : Fields Json.Value} {root : String}
    (rooted : Rooted descriptor root) (pages : List String) (rest : List Json.Value) :
    let left := (partition pages front).pages
    let selected := left.filter fun page => root.toList <+: page.toList
    let behind := (partition pages (front ++ [.object descriptor])).pages
    (partition pages (front ++ .object descriptor :: rest)).descriptors[front.length]? =
      some (.object
        (Fields.insert descriptor "pages" (.strings (selected.map (relativePage root))))) ∧
    (∀ subpackages, (partition pages (front ++ .object descriptor :: rest)).result =
        .ok subpackages →
      subpackages[front.length]? = some ⟨root, selected.map (relativePage root)⟩) ∧
    behind = left.filter (fun page => left.head? = some page ∨ ¬root.toList <+: page.toList) ∧
    (root.toList.getLast? = some '/' →
      (∀ page ∈ selected, InDirectory root page) ∧
      (left.filter fun page => ¬InDirectory root page).Sublist behind) ∧
    ∀ page ∈ selected,
      root ++ relativePage root page = page ∧
      (InDirectory root page ↔
        root.toList.getLast? = some '/' ∨ (relativePage root page).toList.head? = some '/') ∧
      ((relativePage root page).toList.head? = some '/' ↔
        (root ++ "/").toList <+: page.toList) := by
  intro left selected behind
  obtain ⟨earlier, dealt⟩ := (partitionFrom_ok_iff 0 pages front).mpr complete
  -- the descriptor is dealt with as if it came first, with the pages that those in front left
  have whole (later : List Json.Value) := partitionFrom_append dealt (.object descriptor :: later)
  simp only [partitionFrom_of_rooted rooted] at whole
  have starts (page : String) (member : page ∈ selected) : root.toList <+: page.toList :=
    of_decide_eq_true (List.mem_filter.mp member).2
  have released : behind =
      left.filter fun page => left.head? = some page ∨ ¬root.toList <+: page.toList :=
    congrArg Partition.pages (whole [])
  refine ⟨?_, ?_, released, fun ends => ⟨fun page member => ?_, ?_⟩, fun page member => ?_⟩
  · have length : (partitionFrom 0 pages front).descriptors.length = front.length :=
      length_descriptors 0 pages front
    rw [partition, whole rest, List.getElem?_append_right (by rw [length]), length, Nat.sub_self]
    rfl
  · intro subpackages ok
    rw [partition, whole rest] at ok
    obtain ⟨shares, ok₁, rfl⟩ := except_map_ok.mp ok
    obtain ⟨later, -, rfl⟩ := except_map_ok.mp ok₁
    have length := length_subpackages dealt
    rw [List.getElem?_append_right (by rw [length]), length, Nat.sub_self]
    rfl
  · exact (inDirectory_iff (starts page member)).mpr (Or.inl ends)
  · rw [released]
    refine List.monotone_filter_right left fun page outside => ?_
    have other : ¬InDirectory root page := of_decide_eq_true outside
    exact decide_eq_true (Or.inr fun started => other ((inDirectory_iff started).mpr (Or.inl ends)))
  · have started := starts page member
    exact ⟨append_relativePage started, inDirectory_iff started, head?_relativePage started⟩

/-- A page with two slashes behind its directory, and another directory that goes on with a digit. -/
theorem partition_by_directory_slashes :
    let front : List Json.Value := [.object [("root", .string "a/"), ("pages", .strings ["a/1"])]]
    let descriptor : Fields Json.Value := [("root", .string "pkg/")]
    let pages := ["e", "a/1", "pkg2/x", "pkg/y", "pkg//z"]
    (∀ value ∈ front, Complete value) ∧ Rooted descriptor "pkg/" ∧
    (partition pages (front ++ [.object descriptor])).descriptors[1]? =
      some (.object [("root", .string "pkg/"), ("pages", .strings ["y", "/z"])]) ∧
    (partition pages (front ++ [.object descriptor])).pages = ["e", "pkg2/x"] ∧
    InDirectory "pkg/" "pkg//z" ∧ ¬InDirectory "pkg/" "pkg2/x" := by
  intro front descriptor pages
  have complete : ∀ value ∈ front, Complete value := by
    intro value member
    rw [List.mem_singleton.mp member]
    exact .object rfl (.inr (.inr ⟨["a/1"], rfl⟩))
  have rooted : Rooted descriptor "pkg/" := ⟨rfl, .inl rfl⟩
  obtain ⟨listed, -, behind, inside, -⟩ := partition_by_directory complete rooted pages []
  have left : (partition pages front).pages = ["e", "pkg2/x", "pkg/y", "pkg//z"] := by
    cbv
  rw [left] at listed behind inside
  refine ⟨complete, rooted, listed.trans (by cbv), behind.trans (by decide), ?_, by decide⟩
  exact (inside (by decide)).1 "pkg//z" (by decide)

/--
A root without a slash takes the page of a sibling directory and leaves the slash to its own pages,
and behind a root with a slash there may be another one.
-/
theorem partition_takes_sibling :
    let sibling := partition ["e", "pkg2/x", "pkg/y"] [.object [("root", .string "pkg")]]
    let doubled := partition ["e", "pkg//z"] [.object [("root", .string "pkg/")]]
    (sibling.pages = ["e"] ∧ ¬InDirectory "pkg" "pkg2/x" ∧ sibling.descriptors =
      [.object [("root", .string "pkg"), ("pages", .strings ["2/x", "/y"])]]) ∧
    doubled.descriptors = [.object [("root", .string "pkg/"), ("pages", .strings ["/z"])]] := by
  refine ⟨⟨?_, ?_, ?_⟩, ?_⟩
  · cbv
  · decide
  · cbv
  · cbv

end ConfigRecovery.Subpackage
