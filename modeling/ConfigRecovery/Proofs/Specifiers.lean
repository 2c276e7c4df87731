import ConfigRecovery.Proofs.CanonicalForm
import ConfigRecovery.Proofs.PageNames

/-!
# Components by their specifiers

A component specifier is a path that is followed from the directory of the page that uses it, or
from the top if it starts with a slash; the root of plugins is written for their scheme first. Where
it leads without the extension is the key of the component.
-/

namespace ConfigRecovery

namespace Text

/-- A pattern with another first character does not start here. -/
theorem replaceFirst_cons_of_ne {c d : Char} (other : d ≠ c) (pattern replacement rest : List Char) :
    replaceFirst (c :: pattern) replacement (d :: rest) =
      d :: replaceFirst (c :: pattern) replacement rest := by
  rw [replaceFirst, if_neg]
  rw [List.isPrefixOf_iff_prefix, List.cons_prefix_cons]
  exact fun found => other found.1.symm

end Text

namespace Path

/-! ## Following a path -/

/-- The segments that a path leads to from a directory; with a slash in front it starts at the top. -/
def follow (directory : List Segment) (path : List Char) : List Segment :=
  ((parts path).foldl push (if path.head? = some '/' then [] else directory.reverse)).reverse

theorem follow_slash (directory : List Segment) (path : List Char) :
    follow directory ('/' :: path) = segments path := by
  have cut : parts ('/' :: path) = [] :: parts path := parts_slash [] path
  rw [follow, if_pos List.head?_cons, cut, List.foldl_cons]
  rfl

theorem follow_of_head {path : List Char} (down : path.head? ≠ some '/')
    (directory : List Char) :
    follow (segments directory) path = segments (directory ++ '/' :: path) := by
  rw [follow, if_neg down, segments_slash]

/-- A dot in front of a path stays in the directory. -/
theorem follow_dot {path : List Char} (down : path.head? ≠ some '/') (directory : List Segment) :
    follow directory ('.' :: '/' :: path) = follow directory path := by
  have cut : parts ('.' :: '/' :: path) = ['.'] :: parts path := parts_slash ['.'] path
  rw [follow, if_neg (by simp), follow, if_neg down, cut, List.foldl_cons]
  rfl

end Path

namespace PageKey

/-! ## The directory of a page -/

theorem Written.toList_directory {key : PageKey} {front : List Path.Segment} {last : Path.Segment}
    (w : key.Written front last) : key.directory.toList = Path.render front := by
  have name : ∀ c ∈ last.reverse, decide (c ≠ '/') = true := by
    intro c member
    rw [List.mem_reverse] at member
    exact decide_eq_true fun slash => w.no_slash (slash ▸ member)
  rw [directory, String.toList_ofList, w.name, Path.render_concat, List.reverse_append,
    List.dropWhile_append_of_pos name]
  rcases List.eq_nil_or_concat' front with rfl | ⟨init, segment, rfl⟩
  · rfl
  · rw [Path.render_concat, List.flatMap_append, List.flatMap_singleton, ← List.append_assoc,
      List.reverse_append, List.reverse_singleton, List.singleton_append,
      List.dropWhile_cons_of_neg (by simp), List.drop_one, List.tail_cons, List.reverse_reverse]

/-- The directory of a page is written from the segments of its path but the last. -/
theorem toList_directory (raw : String) :
    (ofPath raw).directory.toList = Path.render (Path.segments raw.toList).dropLast := by
  rcases written_ofPath raw with ⟨nothing, empty⟩ | ⟨front, last, cut, w⟩
  · rw [nothing, directory, empty]
    rfl
  · rw [w.toList_directory, cut, List.dropLast_concat]

theorem segments_directory (raw : String) :
    Path.segments (ofPath raw).directory.toList = (Path.segments raw.toList).dropLast := by
  rw [toList_directory]
  exact Path.segments_render fun segment member =>
    Path.segments_ordinary raw.toList segment (List.mem_of_mem_dropLast member)

/-! ## Specifiers -/

/-- A specifier with the root of plugins in place of the first scheme of plugins in it. -/
def expanded (specifier : String) : List Char :=
  Text.replaceFirst pluginScheme.toList pluginRoot.toList specifier.toList

theorem head?_expanded (specifier : String) : (expanded specifier).head? = some '/' ↔
    specifier.toList.head? = some '/' ∨ pluginScheme.toList <+: specifier.toList := by
  rcases Text.replaceFirst_split pluginScheme.toList pluginRoot.toList specifier.toList with
    ⟨before, after, whole, leftmost, replaced⟩ | ⟨absent, same⟩
  · rw [expanded, replaced]
    cases before with
    | nil =>
      have scheme : pluginScheme.toList <+: specifier.toList := ⟨after, whole.symm⟩
      exact iff_of_true rfl (Or.inr scheme)
    | cons c before =>
      -- what stands before the scheme keeps its first character
      have start : ¬pluginScheme.toList <+: specifier.toList := leftmost 0 (Nat.succ_pos _)
      rw [or_iff_left start, whole]
      rfl
  · have start : ¬pluginScheme.toList <+: specifier.toList := fun found => absent found.isInfix
    rw [expanded, same, or_iff_left start]

theorem expanded_dot (specifier : String) :
    expanded ("./" ++ specifier) = '.' :: '/' :: expanded specifier := by
  have scheme : pluginScheme.toList = 'p' :: "lugin://".toList := by decide
  have text : ("./" ++ specifier).toList = '.' :: '/' :: specifier.toList := by simp
  rw [expanded, expanded, text, scheme, Text.replaceFirst_cons_of_ne (by decide),
    Text.replaceFirst_cons_of_ne (by decide)]

/-- A component is named by where its specifier leads, without the extension. -/
theorem component_eq (page : PageKey) (specifier : String) : page.component specifier =
    ⟨Path.stem (String.ofList (Path.render
      (Path.follow (Path.segments page.directory.toList) (expanded specifier))))⟩ := by
  unfold component
  split
  · rename_i absolute text
    change expanded specifier = '/' :: absolute at text
    rw [text, Path.follow_slash, ofPath, Path.canonical, String.toList_ofList]
  · rename_i path down
    have start : (expanded specifier).head? ≠ some '/' := by
      intro slash
      obtain ⟨absolute, text⟩ := List.head?_eq_some_iff.mp slash
      exact down absolute text
    rw [Path.follow_of_head start, relative, ofPath, Path.canonical, Text.toList_slash,
      String.toList_ofList, expanded]

/-- From the top a specifier leads to the same component, whichever page uses it. -/
theorem component_of_head {specifier : String} (top : (expanded specifier).head? = some '/')
    (page other : PageKey) : page.component specifier = other.component specifier := by
  obtain ⟨absolute, text⟩ := List.head?_eq_some_iff.mp top
  rw [component_eq, component_eq, text, Path.follow_slash, Path.follow_slash]

theorem component_dot {specifier : String} (down : (expanded specifier).head? ≠ some '/')
    (page : PageKey) : page.component ("./" ++ specifier) = page.component specifier := by
  rw [component_eq, component_eq, expanded_dot, Path.follow_dot down]

/--
A specifier is followed from the directory of the page, which is the path of the page but for its
last segment, and the extension is taken off where it leads. So of the page only the directory
matters, and not even that if the specifier starts with a slash or is in the scheme of plugins; to
all others a dot and a slash in front change nothing.
-/
theorem component_follows (raw specifier : String) :
    (ofPath raw).directory.toList = Path.render (Path.segments raw.toList).dropLast ∧
    Path.segments (ofPath raw).directory.toList = (Path.segments raw.toList).dropLast ∧
    (ofPath raw).component specifier = ⟨Path.stem (String.ofList (Path.render
      (Path.follow (Path.segments (ofPath raw).directory.toList) (expanded specifier))))⟩ ∧
    (∀ other, (ofPath other).directory = (ofPath raw).directory →
      (ofPath other).component specifier = (ofPath raw).component specifier) ∧
    (specifier.toList.head? = some '/' ∨ pluginScheme.toList <+: specifier.toList →
      ∀ other, (ofPath other).component specifier = (ofPath raw).component specifier) ∧
    (specifier.toList.head? ≠ some '/' → ¬pluginScheme.toList <+: specifier.toList →
      (ofPath raw).component ("./" ++ specifier) = (ofPath raw).component specifier) := by
  refine ⟨toList_directory raw, segments_directory raw, component_eq _ specifier, ?_, ?_, ?_⟩
  · intro other same
    rw [component_eq, component_eq, same]
  · intro top other
    exact component_of_head ((head?_expanded specifier).mpr top) _ _
  · intro slash scheme
    apply component_dot
    rw [Ne, head?_expanded, not_or]
    exact ⟨slash, scheme⟩

/-- Parents above the top, a plugin that is left again, and a scheme behind a backslash. -/
theorem component_follows_plugin :
    let page := ofPath "a/b.c//page.v2.js"
    page.directory = "a/b.c" ∧
    page.component "plugin://p/../../../q.r.js" = ⟨"q.r"⟩ ∧
    (ofPath "x").component "plugin://p/../../../q.r.js" = ⟨"q.r"⟩ ∧
    page.component "..\\plugin://q" = ⟨"a/__plugin__/q"⟩ ∧
    page.component "./..\\plugin://q" = ⟨"a/__plugin__/q"⟩ ∧
    (ofPath "a/b.c/y").component "..\\plugin://q" = ⟨"a/__plugin__/q"⟩ := by
  intro page
  obtain ⟨directory, -, top, -, anywhere, -⟩ :=
    component_follows "a/b.c//page.v2.js" "plugin://p/../../../q.r.js"
  obtain ⟨-, -, below, only, -, dot⟩ := component_follows "a/b.c//page.v2.js" "..\\plugin://q"
  have plugin : page.component "plugin://p/../../../q.r.js" = ⟨"q.r"⟩ := top.trans (by decide)
  have inside : page.component "..\\plugin://q" = ⟨"a/__plugin__/q"⟩ := below.trans (by decide)
  refine ⟨String.toList_inj.mp (directory.trans (by decide)), plugin, ?_, inside, ?_, ?_⟩
  · exact (anywhere (Or.inr (by decide)) "x").trans plugin
  · exact (dot (by decide) (by decide)).trans inside
  · exact (only "a/b.c/y" (by decide)).trans inside

end PageKey

end ConfigRecovery
