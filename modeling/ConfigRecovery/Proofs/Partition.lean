import ConfigRecovery.Package.Subpackage
import ConfigRecovery.Proofs.Manifest

/-!
# Dealing out pages

Taking pages off a list one occurrence at a time depends only on how often each page is taken: the
entry page stays, and of every other page the first occurrences go. So what is left after some
descriptors is a function of all pages selected so far, whichever of them selected a page.
-/

namespace ConfigRecovery

/-- Exchanging the leftmost occurrence of a pattern splits the text there, if there is one. -/
theorem Text.replaceFirst_split (pattern replacement text : List Char) :
    (∃ before after, text = before ++ pattern ++ after ∧
      (∀ place < before.length, ¬pattern <+: text.drop place) ∧
      replaceFirst pattern replacement text = before ++ replacement ++ after) ∨
    (¬pattern <:+: text ∧ replaceFirst pattern replacement text = text) := by
  induction text with
  | nil =>
    cases pattern with
    | nil => exact Or.inl ⟨[], [], rfl, by simp, by simp [replaceFirst]⟩
    | cons c pattern => exact Or.inr ⟨by simp, rfl⟩
  | cons c rest ih =>
    by_cases here : pattern <+: c :: rest
    · obtain ⟨after, whole⟩ := id here
      have dropped : (c :: rest).drop pattern.length = after := by
        rw [← whole, List.drop_left]
      refine Or.inl ⟨[], after, whole.symm, by simp, ?_⟩
      rw [replaceFirst, if_pos (List.isPrefixOf_iff_prefix.mpr here), dropped]
      rfl
    · have skipped : replaceFirst pattern replacement (c :: rest) =
          c :: replaceFirst pattern replacement rest := by
        rw [replaceFirst, if_neg fun found => here (List.isPrefixOf_iff_prefix.mp found)]
      rcases ih with ⟨before, after, whole, leftmost, replaced⟩ | ⟨absent, same⟩
      · refine Or.inl ⟨c :: before, after, by rw [whole]; rfl, ?_, by rw [skipped, replaced]; rfl⟩
        intro place bound
        cases place with
        | zero => exact here
        | succ place =>
          rw [List.drop_succ_cons]
          exact leftmost place (Nat.lt_of_succ_lt_succ bound)
      · refine Or.inr ⟨?_, by rw [skipped, same]⟩
        rw [List.infix_cons_iff]
        rintro (found | found)
        · exact here found
        · exact absent found

namespace Subpackage

/-! ## Taking pages off a list -/

/--
What is left of a page list when some pages were taken: the first page wherever it is, and of each
other page all but the first occurrences, of which as many are gone as were taken.
-/
def remaining (pages taken : List String) : List String :=
  (pages.zipIdx.filter fun (page, place) =>
    pages.head? = some page ∨ taken.count page ≤ (pages.take place).count page).map Prod.fst

theorem foldl_release_cons (first : String) (rest selected : List String) :
    selected.foldl release (first :: rest) = first :: rest.diff (selected.filter (· ≠ first)) := by
  induction selected generalizing rest with
  | nil => simp
  | cons page selected ih =>
    rw [List.foldl_cons, release]
    by_cases head : first = page
    · rw [if_pos head, ih, List.filter_cons_of_neg (by simp [head])]
    · rw [if_neg head, ih, List.filter_cons_of_pos (by simpa using Ne.symm head), List.diff_cons]

theorem map_fst_filter_zipIdx_cons (keep : String → Nat → Bool) (page : String)
    (pages : List String) :
    ((page :: pages).zipIdx.filter fun entry => keep entry.1 entry.2).map Prod.fst =
      (if keep page 0 then [page] else []) ++
        (pages.zipIdx.filter fun entry => keep entry.1 (entry.2 + 1)).map Prod.fst := by
  rw [List.zipIdx_cons, List.zipIdx_succ, List.filter_cons, List.filter_map]
  by_cases first : keep page 0 = true
  · rw [if_pos first, if_pos first, List.map_cons, List.map_map]
    rfl
  · rw [if_neg first, if_neg first, List.map_map]
    rfl

/-- The occurrences that are left when pages are taken from a list without an entry page. -/
theorem diff_eq_filter (pages taken : List String) :
    pages.diff taken = (pages.zipIdx.filter fun (page, place) =>
      taken.count page ≤ (pages.take place).count page).map Prod.fst := by
  induction pages generalizing taken with
  | nil => simp
  | cons page pages ih =>
    have here : decide (taken.count page ≤ ((page :: pages).take 0).count page) =
        decide (page ∉ taken) := by
      rw [decide_eq_decide, List.take_zero, List.count_nil, Nat.le_zero, List.count_eq_zero]
    have later (name : String) (place : Nat) :
        decide (taken.count name ≤ ((page :: pages).take (place + 1)).count name) =
          decide ((taken.erase page).count name ≤ (pages.take place).count name) := by
      rw [decide_eq_decide, List.take_succ_cons, List.count_cons, List.count_erase]
      exact Nat.sub_le_iff_le_add.symm
    refine Eq.trans ?_ (map_fst_filter_zipIdx_cons (fun name place =>
      decide (taken.count name ≤ ((page :: pages).take place).count name)) page pages).symm
    simp only [here, later]
    rw [← ih, List.cons_diff]
    by_cases member : page ∈ taken
    · simp [member]
    · simp [member, List.erase_of_not_mem]

theorem foldl_release (pages selected : List String) :
    selected.foldl release pages = remaining pages selected := by
  cases pages with
  | nil =>
    induction selected with
    | nil => rfl
    | cons page selected ih => exact ih
  | cons first rest =>
    have here : decide ((first :: rest).head? = some first ∨
        selected.count first ≤ ((first :: rest).take 0).count first) = true := by
      simp
    -- the first page is never taken, so behind it only the other selected pages count
    have later (name : String) (place : Nat) :
        decide ((first :: rest).head? = some name ∨
          selected.count name ≤ ((first :: rest).take (place + 1)).count name) =
        decide ((selected.filter (· ≠ first)).count name ≤ (rest.take place).count name) := by
      rw [decide_eq_decide, List.head?_cons, List.take_succ_cons, List.count_cons]
      by_cases same : first = name
      · have gone : name ∉ selected.filter (· ≠ first) := by simp [same]
        rw [List.count_eq_zero.mpr gone]
        simp [same]
      · rw [List.count_filter (by simpa using Ne.symm same)]
        simp [same]
    rw [foldl_release_cons, diff_eq_filter]
    refine Eq.trans ?_ (map_fst_filter_zipIdx_cons (fun name place =>
      decide ((first :: rest).head? = some name ∨
        selected.count name ≤ ((first :: rest).take place).count name)) first rest).symm
    simp only [here, later]
    rfl

theorem foldl_release_remaining (pages taken selected : List String) :
    selected.foldl release (remaining pages taken) = remaining pages (taken ++ selected) := by
  rw [← foldl_release, ← foldl_release, List.foldl_append]

theorem head?_remaining (pages taken : List String) :
    (remaining pages taken).head? = pages.head? := by
  rw [← foldl_release]
  cases pages with
  | nil => rw [foldl_release]; rfl
  | cons first rest => rw [foldl_release_cons, List.head?_cons, List.head?_cons]

theorem count_remaining (pages taken : List String) (page : String) :
    (remaining pages taken).count page =
      if pages.head? = some page then pages.count page
      else pages.count page - taken.count page := by
  cases pages with
  | nil => simp [remaining]
  | cons first rest =>
    rw [← foldl_release, foldl_release_cons, List.count_cons, List.count_diff, List.count_cons,
      List.head?_cons]
    by_cases same : first = page
    · have gone : page ∉ taken.filter (· ≠ first) := by simp [same]
      rw [List.count_eq_zero.mpr gone]
      simp [same]
    · rw [List.count_filter (by simpa using Ne.symm same)]
      simp [same]

/-- All pages of a kind are gone when all of them that were left are taken, but for the first page. -/
theorem eq_head_of_mem_remaining {left : List String} {kind : String → Bool} {page : String}
    (member : page ∈ remaining left (left.filter kind)) (chosen : kind page = true) :
    left.head? = some page := by
  by_contra other
  have positive := List.count_pos_iff.mpr member
  rw [count_remaining, if_neg other, List.count_filter chosen, Nat.sub_self] at positive
  exact Nat.lt_irrefl 0 positive

/-! ## One descriptor -/

/-- What a descriptor selects from the pages that are left. -/
inductive Selects (left : List String) (root : String) (descriptor : Fields Json.Value) :
    List String → Prop where
  | listed {pages : List String}
    (own : Fields.get? descriptor "pages" = some (.array (pages.map .string))) :
    Selects left root descriptor pages
  | rooted
    (unlisted : Fields.get? descriptor "pages" = none ∨
      Fields.get? descriptor "pages" = some .null) :
    Selects left root descriptor (left.filter fun page => root.toList <+: page.toList)

/-- A page without the leftmost occurrence of a root; one that does not have it stays as it is. -/
inductive Relative (root : String) (page short : String) : Prop where
  | cut {before after : List Char} (whole : page.toList = before ++ root.toList ++ after)
    (leftmost : ∀ place < before.length, ¬root.toList <+: page.toList.drop place)
    (rest : short.toList = before ++ after)
  | same (absent : ¬root.toList <:+: page.toList) (equal : short = page)

/-- What a partition makes of a descriptor when some pages were taken before. -/
structure Dealt (pages taken : List String) (descriptor : Fields Json.Value)
    (selected : List String) (rewritten : Fields Json.Value) (subpackage : Subpackage) : Prop where
  root : Fields.get? descriptor "root" = some (.string subpackage.root)
  selects : Selects (remaining pages taken) subpackage.root descriptor selected
  relative : List.Forall₂ (Relative subpackage.root) selected subpackage.pages
  listed : Fields.get? rewritten "pages" = some (.strings subpackage.pages)
  others : Fields.erase rewritten "pages" = Fields.erase descriptor "pages"
  emptied : Fields.get? descriptor "pages" = none ∨ Fields.get? descriptor "pages" = some .null →
    ∀ page ∈ remaining pages (taken ++ selected), subpackage.root.toList <+: page.toList →
      pages.head? = some page

theorem filter_isPrefixOf (root : String) (pages : List String) :
    (pages.filter fun page => root.toList.isPrefixOf page.toList) =
      pages.filter fun page => root.toList <+: page.toList := by
  congr 1
  funext page
  rw [Bool.eq_iff_iff, List.isPrefixOf_iff_prefix, decide_eq_true_iff]

theorem select_ok {index : Nat} {descriptor : Fields Json.Value} {root : String}
    {left selected : List String} (ok : select index descriptor root left = .ok selected) :
    Selects left root descriptor selected := by
  unfold select at ok
  split at ok
  · rename_i items own
    rw [Manifest.asStrings_ok.mp ok] at own
    exact .listed own
  · rename_i null
    cases ok
    rw [filter_isPrefixOf]
    exact .rooted (Or.inr null)
  · rename_i unlisted
    cases ok
    rw [filter_isPrefixOf]
    exact .rooted (Or.inl unlisted)
  · cases ok

theorem relative_relativePage (root page : String) :
    Relative root page (relativePage root page) := by
  rcases Text.replaceFirst_split root.toList [] page.toList with
    ⟨before, after, whole, leftmost, replaced⟩ | ⟨absent, same⟩
  · refine .cut whole leftmost ?_
    rw [relativePage, replaced, String.toList_ofList, List.append_nil]
  · refine .same absent ?_
    rw [relativePage, same, String.ofList_toList]

theorem Share.of_ok {index : Nat} {pages taken : List String} {value : Json.Value} {share : Share}
    (ok : Share.of index (remaining pages taken) value = .ok share) :
    ∃ descriptor rewritten, value = .object descriptor ∧ share.descriptor = .object rewritten ∧
      Dealt pages taken descriptor share.selected rewritten share.subpackage := by
  cases value with
  | object descriptor =>
    obtain ⟨root, rooted, ok₁⟩ := except_bind_ok.mp ok
    obtain ⟨selected, selection, ok₂⟩ := except_bind_ok.mp ok₁
    cases ok₂
    have there : Fields.get? descriptor "root" = some (.string root) := by
      unfold rootOf at rooted
      split at rooted
      · rename_i own
        cases rooted
        exact own
      · cases rooted
    have selects := select_ok selection
    refine ⟨descriptor, _, rfl, rfl, there, selects, ?_, ?_, ?_, ?_⟩
    · rw [Share.subpackage, List.forall₂_map_right_iff, List.forall₂_same]
      exact fun page _ => relative_relativePage root page
    · exact Fields.get?_insert_self descriptor "pages" _
    · exact Fields.erase_insert descriptor "pages" _
    · intro unlisted page member chosen
      cases selects with
      | listed own =>
        rcases unlisted with unlisted | null
        · cases own.symm.trans unlisted
        · cases own.symm.trans null
      | rooted =>
        rw [← foldl_release_remaining, foldl_release] at member
        rw [← head?_remaining pages taken]
        exact eq_head_of_mem_remaining member (decide_eq_true chosen)
  | _ => cases ok

/-! ## All descriptors -/

/-- Whether or not a partition succeeds, the pages that it leaves are those not taken by then. -/
theorem exists_taken (index : Nat) (pages : List String) (descriptors : List Json.Value) :
    ∃ taken, (partitionFrom index pages descriptors).pages = remaining pages taken := by
  induction descriptors generalizing index pages with
  | nil => exact ⟨[], foldl_release pages []⟩
  | cons value descriptors ih =>
    rw [partitionFrom]
    cases Share.of index pages value with
    | error failure => exact ⟨[], foldl_release pages []⟩
    | ok share =>
      obtain ⟨taken, left⟩ := ih (index + 1) (share.selected.foldl release pages)
      refine ⟨share.selected ++ taken, left.trans ?_⟩
      rw [← foldl_release, ← List.foldl_append, foldl_release]

theorem partitionFrom_ok {pages taken : List String} {index : Nat} {descriptors : List Json.Value}
    {subpackages : List Subpackage}
    (ok : (partitionFrom index (remaining pages taken) descriptors).result = .ok subpackages) :
    let outcome := partitionFrom index (remaining pages taken) descriptors
    ∃ selections : List (List String), selections.length = descriptors.length ∧
      outcome.descriptors.length = descriptors.length ∧
      subpackages.length = descriptors.length ∧
      outcome.pages = remaining pages (taken ++ selections.flatten) ∧
      ∀ place < descriptors.length, ∃ descriptor selected rewritten subpackage,
        descriptors[place]? = some (.object descriptor) ∧ selections[place]? = some selected ∧
        outcome.descriptors[place]? = some (.object rewritten) ∧
        subpackages[place]? = some subpackage ∧
        Dealt pages (taken ++ (selections.take place).flatten) descriptor selected rewritten
          subpackage := by
  -- the pages taken so far are all that a descriptor learns of those before it
  induction descriptors generalizing taken index subpackages with
  | nil =>
    cases ok
    refine ⟨[], rfl, rfl, rfl, ?_, ?_⟩
    · rw [List.flatten_nil, List.append_nil]
      rfl
    · intro place bound
      cases bound
  | cons value descriptors ih =>
    cases shared : Share.of index (remaining pages taken) value with
    | error failure =>
      simp only [partitionFrom, shared] at ok
      cases ok
    | ok share =>
      simp only [partitionFrom, shared, foldl_release_remaining] at ok ⊢
      obtain ⟨others, rest, rfl⟩ := except_map_ok.mp ok
      obtain ⟨descriptor, rewritten, rfl, written, dealt⟩ := Share.of_ok shared
      obtain ⟨selections, length, descriptorsLength, subpackagesLength, left, each⟩ := ih rest
      refine ⟨share.selected :: selections, by simp [length], by simp [descriptorsLength],
        by simp [subpackagesLength], ?_, ?_⟩
      · rw [left, List.flatten_cons, List.append_assoc]
      · intro place bound
        cases place with
        | zero =>
          refine ⟨descriptor, share.selected, rewritten, share.subpackage, rfl, rfl, ?_, rfl, ?_⟩
          · rw [written]
            rfl
          · rw [List.take_zero, List.flatten_nil, List.append_nil]
            exact dealt
        | succ place =>
          obtain ⟨descriptor, selected, rewritten, subpackage, there, chosen, after, made, dealt⟩ :=
            each place (Nat.lt_of_succ_lt_succ bound)
          refine ⟨descriptor, selected, rewritten, subpackage, there, chosen, after, made, ?_⟩
          rw [List.take_succ_cons, List.flatten_cons, ← List.append_assoc]
          exact dealt

/--
A partition that succeeds accounts for every occurrence of a page: those of the first page stay, and
of each other page as many of the first occurrences are gone as the descriptors selected. Every
descriptor selects from what those before it left, and lists its pages relative to its root.
-/
theorem partition_accounts {pages : List String} {descriptors : List Json.Value}
    {subpackages : List Subpackage} (ok : (partition pages descriptors).result = .ok subpackages) :
    ∃ selections : List (List String), selections.length = descriptors.length ∧
      (partition pages descriptors).descriptors.length = descriptors.length ∧
      subpackages.length = descriptors.length ∧
      (partition pages descriptors).pages = remaining pages selections.flatten ∧
      (partition pages descriptors).pages.head? = pages.head? ∧
      (∀ page, (partition pages descriptors).pages.count page =
        if pages.head? = some page then pages.count page
        else pages.count page - selections.flatten.count page) ∧
      ∀ place < descriptors.length, ∃ descriptor selected rewritten subpackage,
        descriptors[place]? = some (.object descriptor) ∧ selections[place]? = some selected ∧
        (partition pages descriptors).descriptors[place]? = some (.object rewritten) ∧
        subpackages[place]? = some subpackage ∧
        Dealt pages (selections.take place).flatten descriptor selected rewritten subpackage := by
  have untouched : remaining pages [] = pages := (foldl_release pages []).symm
  unfold partition at ok ⊢
  rw [← untouched] at ok
  obtain ⟨selections, length, descriptorsLength, subpackagesLength, left, each⟩ :=
    partitionFrom_ok ok
  simp only [untouched, List.nil_append] at descriptorsLength left each
  refine ⟨selections, length, descriptorsLength, subpackagesLength, left, ?_, ?_, each⟩
  · rw [left, head?_remaining]
  · intro page
    rw [left, count_remaining]

/-- A page taken more often than it is there, the first page taken, and a root that takes the rest. -/
theorem partition_accounts_repeated :
    let pages := ["s/e", "s/x", "b", "s/x", "s/y"]
    let descriptors : List Json.Value :=
      [.object [("root", .string "s/"), ("pages", .strings ["s/x", "s/e", "z"])],
        .object [("root", .string "s/"), ("name", .null)]]
    (partition pages descriptors).result =
      .ok [⟨"s/", ["x", "e", "z"]⟩, ⟨"s/", ["e", "x", "y"]⟩] ∧
    (partition pages descriptors).pages.head? = some "s/e" ∧
    ∃ selections : List (List String), selections.length = 2 ∧
      (partition pages descriptors).pages = remaining pages selections.flatten := by
  intro pages descriptors
  have ok : (partition pages descriptors).result =
      .ok [⟨"s/", ["x", "e", "z"]⟩, ⟨"s/", ["e", "x", "y"]⟩] := by
    cbv
  obtain ⟨selections, length, -, -, left, head, -⟩ := partition_accounts ok
  exact ⟨ok, head, selections, length, left⟩

end Subpackage

end ConfigRecovery
