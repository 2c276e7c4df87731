import Mathlib
import ConfigRecovery.Path.Basic

/-!
# Segments of paths

A canonical path is a list of ordinary segments written down. Writing such a list and reading it
again are inverse to each other, so what is canonical stays as it is. The last segment alone decides
where a path is cut for its extension.
-/

namespace ConfigRecovery

namespace Text

variable {separator : Char}

theorem splitOn_eq (separator : Char) (text : List Char) :
    splitOn separator text = text.splitOn separator := by
  induction text with
  | nil => rfl
  | cons c rest ih =>
    rw [splitOn, List.splitOn_cons_eq_if_modifyHead, ih]
    by_cases same : c = separator
    · rw [if_pos same, if_pos (beq_iff_eq.mpr same)]
    · rw [if_neg same, if_neg fun equal => same (beq_iff_eq.mp equal)]
      cases parts : rest.splitOn separator with
      | nil => exact (List.splitOn_ne_nil _ _ parts).elim
      | cons part parts => rfl

theorem join_eq (filler : List Char) (parts : List (List Char)) :
    join filler parts = filler.intercalate parts := by
  fun_induction join filler parts with
  | case1 => rfl
  | case2 part => rw [List.intercalate_singleton]
  | case3 part next parts ih => rw [List.intercalate_cons_cons, ih]

theorem join_concat (separator : Char) (front : List (List Char)) (last : List Char) :
    join [separator] (front ++ [last]) = front.flatMap (· ++ [separator]) ++ last := by
  induction front with
  | nil => rfl
  | cons part front ih =>
    rw [join_eq] at ih ⊢
    rw [List.cons_append, List.intercalate_cons_of_ne_nil (by simp), ih, List.flatMap_cons,
      List.append_assoc (part ++ [separator])]

theorem toList_slash (front back : String) :
    (front ++ "/" ++ back).toList = front.toList ++ '/' :: back.toList := by
  simp

theorem of_mem_splitOn {text part : List Char} {c : Char} (member : part ∈ splitOn separator text)
    (inside : c ∈ part) : c ∈ text ∧ c ≠ separator := by
  fun_induction splitOn separator text generalizing part with
  | case1 =>
    rw [List.mem_singleton.mp member] at inside
    cases inside
  | case2 rest ih =>
    rcases List.mem_cons.mp member with rfl | member
    · cases inside
    · exact ⟨List.mem_cons_of_mem _ (ih member inside).1, (ih member inside).2⟩
  | case3 first rest other empty =>
    rw [splitOn_eq] at empty
    exact (List.splitOn_ne_nil _ _ empty).elim
  | case4 first rest other head parts cut ih =>
    rw [cut] at ih
    rcases List.mem_cons.mp member with rfl | member
    · rcases List.mem_cons.mp inside with rfl | inside
      · exact ⟨List.mem_cons_self, other⟩
      · have found := ih List.mem_cons_self inside
        exact ⟨List.mem_cons_of_mem _ found.1, found.2⟩
    · have found := ih (List.mem_cons_of_mem _ member) inside
      exact ⟨List.mem_cons_of_mem _ found.1, found.2⟩

/-- Text without separators goes on with the last part. -/
theorem splitOn_append {text tail : List Char} {front : List (List Char)} {last : List Char}
    (cut : splitOn separator text = front ++ [last]) (plain : separator ∉ tail) :
    splitOn separator (text ++ tail) = front ++ [last ++ tail] := by
  have whole : text = join [separator] (front ++ [last]) := by
    rw [← cut, join_eq, splitOn_eq, List.intercalate_splitOn]
  have absent {part : List Char} (listed : part ∈ front ++ [last]) : separator ∉ part :=
    fun inside => (of_mem_splitOn (cut ▸ listed) inside).2 rfl
  rw [join_concat] at whole
  rw [whole, List.append_assoc, ← join_concat, splitOn_eq, join_eq]
  apply List.splitOn_intercalate
  · intro part member
    rcases List.mem_append.mp member with member | member
    · exact absent (List.mem_append_left _ member)
    · rw [List.mem_singleton.mp member, List.mem_append, not_or]
      exact ⟨absent (List.mem_append_right _ (List.mem_singleton_self last)), plain⟩
  · simp

end Text

namespace Path

/-- A segment that names a file or a directory, and nothing else. -/
structure Ordinary (segment : Segment) : Prop where
  ne_nil : segment ≠ []
  ne_dot : segment ≠ ['.']
  ne_parent : segment ≠ ['.', '.']
  no_slash : '/' ∉ segment
  no_backslash : '\\' ∉ segment

/-! ## Reading segments -/

theorem not_mem_map_unifySeparator (text : List Char) : '\\' ∉ text.map unifySeparator := by
  intro backslash
  obtain ⟨c, -, unified⟩ := List.mem_map.mp backslash
  unfold unifySeparator at unified
  split at unified
  · cases unified
  · contradiction

theorem no_separator_of_mem_parts {raw : List Char} {part : Segment} (member : part ∈ parts raw) :
    '/' ∉ part ∧ '\\' ∉ part :=
  ⟨fun slash => (Text.of_mem_splitOn member slash).2 rfl,
    fun backslash => not_mem_map_unifySeparator raw (Text.of_mem_splitOn member backslash).1⟩

theorem map_unifySeparator {text : List Char} (backslash : '\\' ∉ text) :
    text.map unifySeparator = text := by
  refine (List.map_congr_left fun c member => ?_).trans text.map_id
  have other : c ≠ '\\' := fun equal => backslash (equal ▸ member)
  exact if_neg other

theorem parts_ne_nil (raw : List Char) : parts raw ≠ [] := by
  rw [parts, Text.splitOn_eq]
  exact List.splitOn_ne_nil _ _

theorem parts_append {raw tail : List Char} {front : List Segment} {last : Segment}
    (cut : parts raw = front ++ [last]) (slash : '/' ∉ tail) (backslash : '\\' ∉ tail) :
    parts (raw ++ tail) = front ++ [last ++ tail] := by
  rw [parts, List.map_append, map_unifySeparator backslash]
  exact Text.splitOn_append cut slash

theorem push_of_ordinary {part : Segment} (ordinary : Ordinary part) (stack : List Segment) :
    push stack part = part :: stack := by
  rw [push, if_neg, if_neg ordinary.ne_parent]
  rintro (empty | dot)
  · exact ordinary.ne_nil empty
  · exact ordinary.ne_dot dot

theorem foldl_push_of_ordinary {read : List Segment} (ordinary : ∀ part ∈ read, Ordinary part)
    (stack : List Segment) : read.foldl push stack = read.reverse ++ stack := by
  induction read generalizing stack with
  | nil => rfl
  | cons part read ih =>
    obtain ⟨first, rest⟩ := List.forall_mem_cons.mp ordinary
    rw [List.foldl_cons, push_of_ordinary first, ih rest, List.reverse_cons, List.append_assoc]
    rfl

theorem ordinary_of_mem_push {stack : List Segment} {part segment : Segment}
    (kept : ∀ segment ∈ stack, Ordinary segment) (slash : '/' ∉ part) (backslash : '\\' ∉ part)
    (member : segment ∈ push stack part) : Ordinary segment := by
  unfold push at member
  split at member
  · exact kept segment member
  · rename_i named
    split at member
    · exact kept segment (List.mem_of_mem_tail member)
    · rename_i down
      rcases List.mem_cons.mp member with rfl | member
      · rw [not_or] at named
        exact ⟨named.1, named.2, down, slash, backslash⟩
      · exact kept segment member

theorem ordinary_of_mem_foldl_push {read stack : List Segment}
    (plain : ∀ part ∈ read, '/' ∉ part ∧ '\\' ∉ part)
    (kept : ∀ segment ∈ stack, Ordinary segment) :
    ∀ segment ∈ read.foldl push stack, Ordinary segment := by
  induction read generalizing stack with
  | nil => exact kept
  | cons part read ih =>
    obtain ⟨⟨slash, backslash⟩, rest⟩ := List.forall_mem_cons.mp plain
    exact ih rest fun segment member => ordinary_of_mem_push kept slash backslash member

theorem segments_ordinary (raw : List Char) : ∀ segment ∈ segments raw, Ordinary segment := by
  intro segment member
  refine ordinary_of_mem_foldl_push (fun _ listed => no_separator_of_mem_parts listed) ?_ segment
    (List.mem_reverse.mp member)
  simp

/-! ## Writing segments -/

theorem render_concat (front : List Segment) (last : Segment) :
    render (front ++ [last]) = front.flatMap (· ++ ['/']) ++ last :=
  Text.join_concat '/' front last

theorem mem_render {written : List Segment} {c : Char} (member : c ∈ render written) :
    c = '/' ∨ ∃ segment ∈ written, c ∈ segment := by
  rcases List.eq_nil_or_concat' written with rfl | ⟨front, last, rfl⟩
  · cases member
  · rw [render_concat] at member
    rcases List.mem_append.mp member with member | member
    · obtain ⟨segment, listed, inside⟩ := List.mem_flatMap.mp member
      rcases List.mem_append.mp inside with inside | inside
      · exact Or.inr ⟨segment, List.mem_append_left _ listed, inside⟩
      · exact Or.inl (List.mem_singleton.mp inside)
    · exact Or.inr ⟨last, by simp, member⟩

theorem no_backslash_render {written : List Segment} (plain : ∀ segment ∈ written, '\\' ∉ segment) :
    '\\' ∉ render written := by
  intro member
  rcases mem_render member with equal | ⟨segment, listed, inside⟩
  · cases equal
  · exact plain segment listed inside

theorem parts_render {written : List Segment} (nonempty : written ≠ [])
    (plain : ∀ segment ∈ written, '/' ∉ segment ∧ '\\' ∉ segment) :
    parts (render written) = written := by
  have backslash := no_backslash_render fun segment listed => (plain segment listed).2
  rw [parts, map_unifySeparator backslash, render, Text.join_eq, Text.splitOn_eq]
  exact List.splitOn_intercalate _ (fun segment listed => (plain segment listed).1) nonempty

theorem segments_render {written : List Segment}
    (ordinary : ∀ segment ∈ written, Ordinary segment) : segments (render written) = written := by
  by_cases empty : written = []
  · rw [empty]
    rfl
  · have plain : ∀ segment ∈ written, '/' ∉ segment ∧ '\\' ∉ segment := fun segment member =>
      ⟨(ordinary segment member).no_slash, (ordinary segment member).no_backslash⟩
    rw [segments, parts_render empty plain, foldl_push_of_ordinary ordinary, List.append_nil,
      List.reverse_reverse]

theorem toList_canonical (raw : String) : (canonical raw).toList = render (segments raw.toList) :=
  String.toList_ofList

theorem segments_canonical (raw : String) :
    segments (canonical raw).toList = segments raw.toList := by
  rw [toList_canonical, segments_render (segments_ordinary raw.toList)]

theorem canonical_eq_iff {a b : String} :
    canonical a = canonical b ↔ segments a.toList = segments b.toList := by
  constructor
  · intro same
    rw [← segments_canonical a, same, segments_canonical]
  · intro same
    rw [canonical, same, canonical]

@[simp]
theorem canonical_canonical (raw : String) : canonical (canonical raw) = canonical raw :=
  canonical_eq_iff.mpr (segments_canonical raw)

/-- A path is canonical just when it is written from ordinary segments. -/
theorem canonical_eq_self_iff {raw : String} : canonical raw = raw ↔
    ∃ written, (∀ segment ∈ written, Ordinary segment) ∧ raw.toList = render written := by
  constructor
  · intro same
    exact ⟨segments raw.toList, segments_ordinary raw.toList, by rw [← toList_canonical, same]⟩
  · rintro ⟨written, ordinary, whole⟩
    rw [← String.toList_inj, toList_canonical, whole, segments_render ordinary]

end Path

end ConfigRecovery
