import ConfigRecovery.Package.PageTable
import ConfigRecovery.Proofs.Fields
import ConfigRecovery.Proofs.Step

/-!
# Entries of pages

Every entry of the manifest's pages is read, in order, and the first one that describes no window is
what is wrong with them. Where entries spell one page, the first of them has its window.
-/

namespace ConfigRecovery.PageTable

variable {table : PageTable}

/-! ## Keys and windows -/

theorem ext {other : PageTable} (same : ∀ key, table.get? key = other.get? key) : table = other :=
  congrArg PageTable.mk (Std.ExtTreeMap.ext_getElem? same)

theorem mem_toList {key : PageKey} {window : Window} :
    (key, window) ∈ table.toList ↔ table.get? key = some window :=
  Std.ExtTreeMap.mem_toList_iff_getElem?_eq_some

theorem map_fst_toList (table : PageTable) : table.toList.map Prod.fst = table.keys :=
  Std.ExtTreeMap.map_fst_toList_eq_keys

theorem contains_iff {key : PageKey} :
    table.contains key = true ↔ (table.get? key).isSome = true :=
  iff_of_eq (congrArg (· = true) Std.ExtTreeMap.contains_eq_isSome_getElem?)

theorem mem_keys {key : PageKey} : key ∈ table.keys ↔ ∃ window, table.get? key = some window := by
  rw [← Option.isSome_iff_exists, ← contains_iff]
  exact Std.ExtTreeMap.mem_keys

theorem nodup_keys (table : PageTable) : table.keys.Nodup :=
  Std.ExtTreeMap.nodup_keys

@[simp]
theorem get?_empty (key : PageKey) : empty.get? key = none :=
  Std.ExtTreeMap.getElem?_empty

@[simp]
theorem get?_insert (table : PageTable) (key other : PageKey) (window : Window) :
    (table.insert key window).get? other =
      if key = other then some window else table.get? other := by
  simp [get?, insert, Std.ExtTreeMap.getElem?_insert]

theorem get?_insertNew (key other : PageKey) (window : Window) :
    (table.insertNew key window).get? other =
      (table.get? other).or (if key = other then some window else none) := by
  have held : (table.insertNew key window).get? other =
      if key = other ∧ key ∉ table.windows then some window else table.get? other := by
    simp [get?, insertNew, Std.ExtTreeMap.getElem?_insertIfNew]
  rw [held]
  by_cases same : key = other
  · subst same
    have there : key ∈ table.windows ↔ (table.get? key).isSome = true :=
      Std.ExtTreeMap.mem_iff_isSome_getElem?
    cases found : table.get? key <;> simp [there, found]
  · simp [same]

/-! ## One entry -/

/-- The window that an entry of the manifest describes. -/
inductive Describes : Json.Value → Window → Prop where
  | listed {page : Fields Json.Value} {window : Window}
      (held : Fields.get? page "window" = some (.object window)) : Describes (.object page) window
  | null {page : Fields Json.Value} (held : Fields.get? page "window" = some .null) :
      Describes (.object page) []
  | absent {page : Fields Json.Value} (unset : Fields.get? page "window" = none) :
      Describes (.object page) []

/-- What is wrong with an entry that describes no window. -/
inductive Misshapen (raw : String) : Json.Value → Failure → Prop where
  | entry {value : Json.Value} (other : value.kind ≠ .object) :
      Misshapen raw value (.malformed (.page raw) (.unexpected .object value.kind))
  | window {page : Fields Json.Value} {value : Json.Value}
      (held : Fields.get? page "window" = some value) (other : value.kind ≠ .object)
      (present : value.kind ≠ .null) :
      Misshapen raw (.object page) (.malformed (.window raw) (.unexpected .object value.kind))

section

variable {raw : String} {value : Json.Value} {window : Window} {failure : Failure}

theorem windowOf_of_describes (raw : String) (describes : Describes value window) :
    windowOf raw value = .ok window := by
  cases describes with
  | listed held => simp only [windowOf, held]
  | null held => simp only [windowOf, held]
  | absent unset => simp only [windowOf, unset]

theorem windowOf_of_misshapen (misshapen : Misshapen raw value failure) :
    windowOf raw value = .error failure := by
  cases misshapen with
  | entry other =>
    cases value with
    | object page => exact (other rfl).elim
    | _ => rfl
  | @window page value held other present =>
    cases value with
    | object window => exact (other rfl).elim
    | null => exact (present rfl).elim
    | _ => simp only [windowOf, held]

theorem describes_or_misshapen (raw : String) (value : Json.Value) :
    (∃ window, Describes value window) ∨ ∃ failure, Misshapen raw value failure := by
  cases value with
  | object page =>
    cases held : Fields.get? page "window" with
    | none => exact .inl ⟨_, .absent held⟩
    | some value =>
      cases value with
      | object window => exact .inl ⟨window, .listed held⟩
      | null => exact .inl ⟨[], .null held⟩
      | _ => exact .inr ⟨_, .window held nofun nofun⟩
  | _ => exact .inr ⟨_, .entry nofun⟩

theorem Describes.unique {other : Window} (describes : Describes value window)
    (describes' : Describes value other) : window = other := by
  have equal : Except.ok window = (Except.ok other : Except Failure Window) :=
    (windowOf_of_describes "" describes).symm.trans (windowOf_of_describes "" describes')
  exact Except.ok.inj equal

end

/-! ## All entries -/

section

variable {raw : String} {entry : Json.Value} {pages : Fields Json.Value} {loaded : PageTable}
  {failure : Failure}

theorem addPages_cons (raw : String) (entry : Json.Value) (pages : Fields Json.Value) :
    table.addPages ((raw, entry) :: pages) =
      windowOf raw entry >>= fun window =>
        (table.insertNew (.ofPath raw) window).addPages pages := by
  simp only [addPages, List.foldlM_cons, bind_assoc, pure_bind]

theorem addPages_cons_of_describes {window : Window} (describes : Describes entry window) :
    table.addPages ((raw, entry) :: pages) =
      (table.insertNew (.ofPath raw) window).addPages pages := by
  rw [addPages_cons, windowOf_of_describes raw describes]
  rfl

theorem addPages_cons_of_misshapen (misshapen : Misshapen raw entry failure) :
    table.addPages ((raw, entry) :: pages) = .error failure := by
  rw [addPages_cons, windowOf_of_misshapen misshapen]
  rfl

theorem addPages_append (table : PageTable) {front : Fields Json.Value} (pages : Fields Json.Value)
    (sound : ∀ page ∈ front, ∃ window, Describes page.2 window) :
    ∃ middle, table.addPages front = .ok middle ∧
      table.addPages (front ++ pages) = middle.addPages pages := by
  induction front generalizing table with
  | nil => exact ⟨table, rfl, rfl⟩
  | cons page front ih =>
    obtain ⟨raw, entry⟩ := page
    obtain ⟨⟨window, describes⟩, rest⟩ := List.forall_mem_cons.mp sound
    rw [List.cons_append, addPages_cons_of_describes describes,
      addPages_cons_of_describes describes]
    exact ih _ rest

/-- Either all entries describe windows, or there is a first one that does not. -/
theorem sound_or_misshapen (pages : Fields Json.Value) :
    (∀ page ∈ pages, ∃ window, Describes page.2 window) ∨
    ∃ front raw entry back failure, pages = front ++ (raw, entry) :: back ∧
      (∀ page ∈ front, ∃ window, Describes page.2 window) ∧ Misshapen raw entry failure := by
  induction pages with
  | nil => exact .inl (by simp)
  | cons page pages ih =>
    obtain ⟨raw, entry⟩ := page
    obtain ⟨window, describes⟩ | ⟨failure, misshapen⟩ := describes_or_misshapen raw entry
    · obtain sound | ⟨front, key, value, back, failure, rfl, sound, misshapen⟩ := ih
      · exact .inl (List.forall_mem_cons.mpr ⟨⟨window, describes⟩, sound⟩)
      · refine .inr ⟨(raw, entry) :: front, key, value, back, failure, rfl, ?_, misshapen⟩
        exact List.forall_mem_cons.mpr ⟨⟨window, describes⟩, sound⟩
    · exact .inr ⟨[], raw, entry, pages, failure, rfl, by simp, misshapen⟩

theorem addPages_ok_iff : (∃ loaded, table.addPages pages = .ok loaded) ↔
    ∀ page ∈ pages, ∃ window, Describes page.2 window := by
  constructor
  · rintro ⟨loaded, ok⟩
    obtain sound | ⟨front, raw, entry, back, failure, rfl, sound, misshapen⟩ :=
      sound_or_misshapen pages
    · exact sound
    · obtain ⟨middle, -, next⟩ := addPages_append table ((raw, entry) :: back) sound
      rw [next, addPages_cons_of_misshapen misshapen] at ok
      cases ok
  · intro sound
    obtain ⟨loaded, ok, -⟩ := addPages_append table [] sound
    exact ⟨loaded, ok⟩

/-- The first entry without a window is what the reading fails with, whatever page it spells. -/
theorem addPages_error_iff : table.addPages pages = .error failure ↔
    ∃ front raw entry back, pages = front ++ (raw, entry) :: back ∧
      (∀ page ∈ front, ∃ window, Describes page.2 window) ∧ Misshapen raw entry failure := by
  constructor
  · intro failed
    obtain sound | ⟨front, raw, entry, back, other, rfl, sound, misshapen⟩ :=
      sound_or_misshapen pages
    · obtain ⟨loaded, ok⟩ := addPages_ok_iff.mpr sound
      cases failed.symm.trans ok
    · obtain ⟨middle, -, next⟩ := addPages_append table ((raw, entry) :: back) sound
      rw [next, addPages_cons_of_misshapen misshapen] at failed
      cases failed
      exact ⟨front, raw, entry, back, rfl, sound, misshapen⟩
  · rintro ⟨front, raw, entry, back, rfl, sound, misshapen⟩
    obtain ⟨middle, -, next⟩ := addPages_append table ((raw, entry) :: back) sound
    rw [next, addPages_cons_of_misshapen misshapen]

theorem contains_insertNew (key other : PageKey) (window : Window) :
    (table.insertNew key window).contains other = true ↔
      key = other ∨ table.contains other = true := by
  rw [insertNew, contains, Std.ExtTreeMap.contains_insertIfNew, Bool.or_eq_true, beq_iff_eq,
    Std.LawfulEqOrd.compare_eq_iff_eq, contains]

theorem contains_addPages (ok : table.addPages pages = .ok loaded) {key : PageKey} :
    loaded.contains key = true ↔
      (∃ raw ∈ pages.keys, PageKey.ofPath raw = key) ∨ table.contains key = true := by
  induction pages generalizing table with
  | nil =>
    cases ok
    simp [Fields.keys]
  | cons page pages ih =>
    obtain ⟨raw, entry⟩ := page
    rw [addPages_cons] at ok
    obtain ⟨window, -, ok⟩ := except_bind_ok.mp ok
    rw [ih ok, contains_insertNew]
    simp [or_assoc, or_left_comm]

theorem get?_addPages_of_held (ok : table.addPages pages = .ok loaded) {key : PageKey}
    {window : Window} (held : table.get? key = some window) : loaded.get? key = some window := by
  induction pages generalizing table with
  | nil =>
    cases ok
    exact held
  | cons page pages ih =>
    obtain ⟨raw, entry⟩ := page
    rw [addPages_cons] at ok
    obtain ⟨other, -, ok⟩ := except_bind_ok.mp ok
    apply ih ok
    rw [get?_insertNew, held, Option.some_or]

/-- A page has the window of the first entry that spells it. -/
theorem get?_addPages_of_first {front back : Fields Json.Value}
    (ok : empty.addPages (front ++ (raw, entry) :: back) = .ok loaded)
    (first : ∀ earlier ∈ Fields.keys front, PageKey.ofPath earlier ≠ PageKey.ofPath raw) :
    ∃ window, Describes entry window ∧ loaded.get? (.ofPath raw) = some window := by
  have sound := addPages_ok_iff.mp ⟨loaded, ok⟩
  rw [List.forall_mem_append, List.forall_mem_cons] at sound
  obtain ⟨before, ⟨window, describes⟩, -⟩ := sound
  obtain ⟨middle, middleOk, next⟩ := addPages_append empty ((raw, entry) :: back) before
  rw [next, addPages_cons_of_describes describes] at ok
  have unknown : middle.get? (.ofPath raw) = none := by
    apply get?_eq_none
    rw [Bool.eq_false_iff, ne_eq, contains_addPages middleOk]
    rintro (⟨earlier, listed, same⟩ | known)
    · exact first earlier listed same
    · cases known
  refine ⟨window, describes, get?_addPages_of_held ok ?_⟩
  rw [get?_insertNew, unknown, if_pos rfl, Option.none_or]

end

theorem ofValue_of_not_object {value : Json.Value} (other : value.kind ≠ .object) :
    ofValue value = .error (.malformed (.named "page") (.unexpected .object value.kind)) := by
  cases value with
  | object pages => exact (other rfl).elim
  | _ => rfl

section

variable {pages : Fields Json.Value} {loaded : PageTable}

theorem get?_addPages_of_unlisted (ok : empty.addPages pages = .ok loaded) {key : PageKey}
    (unlisted : ¬∃ raw ∈ pages.keys, PageKey.ofPath raw = key) : loaded.get? key = none := by
  apply get?_eq_none
  rw [Bool.eq_false_iff, ne_eq, contains_addPages ok]
  exact not_or.mpr ⟨unlisted, by simp [contains, empty]⟩

/-- Where no page is spelled twice, every entry is the first of its page. -/
theorem get?_addPages_of_mem (ok : empty.addPages pages = .ok loaded)
    (distinct : (pages.keys.map PageKey.ofPath).Nodup) {raw : String} {entry : Json.Value}
    (member : (raw, entry) ∈ pages) :
    ∃ window, Describes entry window ∧ loaded.get? (.ofPath raw) = some window := by
  obtain ⟨front, back, rfl⟩ := List.append_of_mem member
  apply get?_addPages_of_first ok
  intro earlier before equal
  simp only [Fields.keys, List.map_append, List.map_cons, List.nodup_append] at distinct
  exact distinct.2.2 _ (List.mem_map_of_mem before) _ List.mem_cons_self equal

theorem addPages_perm {other : Fields Json.Value} (ok : empty.addPages pages = .ok loaded)
    (same : pages.Perm other) (distinct : (pages.keys.map PageKey.ofPath).Nodup) :
    empty.addPages other = .ok loaded := by
  have sound := addPages_ok_iff.mp ⟨loaded, ok⟩
  obtain ⟨reordered, ok'⟩ : ∃ reordered, empty.addPages other = .ok reordered :=
    addPages_ok_iff.mpr fun page member => sound page (same.mem_iff.mpr member)
  have keys : pages.keys.Perm other.keys := same.map _
  have distinct' := (keys.map PageKey.ofPath).nodup_iff.mp distinct
  have windows : reordered = loaded := by
    apply ext
    intro key
    by_cases listed : ∃ raw ∈ pages.keys, PageKey.ofPath raw = key
    · obtain ⟨raw, listed, rfl⟩ := listed
      obtain ⟨⟨raw, entry⟩, member, rfl⟩ := List.mem_map.mp listed
      obtain ⟨window, describes, held⟩ := get?_addPages_of_mem ok distinct member
      obtain ⟨window', describes', held'⟩ :=
        get?_addPages_of_mem ok' distinct' (same.mem_iff.mp member)
      rw [held, held', describes.unique describes']
    · rw [get?_addPages_of_unlisted ok listed, get?_addPages_of_unlisted ok']
      simpa only [keys.mem_iff] using listed
  rw [ok', windows]

end

/--
The table of a value. There is one if the value is an object whose entries all describe windows;
otherwise the first entry that does not is named. The keys are those of the entries, and each has
the window of the first entry that spells it.
-/
theorem ofValue_keeps_first (value : Json.Value) :
    ((∃ table, ofValue value = .ok table) ↔ ∃ pages, value = .object pages ∧
      ∀ page ∈ pages, ∃ window, Describes page.2 window) ∧
    (∀ failure, ofValue value = .error failure ↔
      (value.kind ≠ .object ∧
        failure = .malformed (.named "page") (.unexpected .object value.kind)) ∨
      ∃ front raw entry back, value = .object (front ++ (raw, entry) :: back) ∧
        (∀ page ∈ front, ∃ window, Describes page.2 window) ∧ Misshapen raw entry failure) ∧
    ∀ pages table, value = .object pages → ofValue value = .ok table →
      table.keys.Nodup ∧
      (∀ key, key ∈ table.keys ↔ ∃ raw ∈ Fields.keys pages, PageKey.ofPath raw = key) ∧
      (∀ front raw entry back, pages = front ++ (raw, entry) :: back →
        (∀ earlier ∈ Fields.keys front, PageKey.ofPath earlier ≠ PageKey.ofPath raw) →
        ∃ window, Describes entry window ∧ table.get? (.ofPath raw) = some window) ∧
      ∀ other, List.Perm pages other → ((Fields.keys pages).map PageKey.ofPath).Nodup →
        ofValue (.object other) = .ok table := by
  refine ⟨?_, ?_, ?_⟩
  · constructor
    · rintro ⟨table, ok⟩
      cases value with
      | object pages => exact ⟨pages, rfl, addPages_ok_iff.mp ⟨table, ok⟩⟩
      | _ => cases ok
    · rintro ⟨pages, rfl, sound⟩
      exact addPages_ok_iff.mpr sound
  · intro failure
    by_cases object : value.kind = .object
    · cases value with
      | object pages =>
        simp only [ofValue, addPages_error_iff, Json.Value.object.injEq, object, ne_eq,
          not_true_eq_false, false_and, false_or]
      | _ => cases object
    · rw [ofValue_of_not_object object]
      constructor
      · intro equal
        cases equal
        exact .inl ⟨object, rfl⟩
      · rintro (⟨-, rfl⟩ | ⟨front, raw, entry, back, rfl, -⟩)
        · rfl
        · exact (object rfl).elim
  · rintro pages table rfl ok
    refine ⟨nodup_keys table, ?_, ?_, ?_⟩
    · intro key
      rw [mem_keys, ← Option.isSome_iff_exists, ← contains_iff, contains_addPages ok]
      simp [contains, empty]
    · rintro front raw entry back rfl first
      exact get?_addPages_of_first ok first
    · intro other same distinct
      exact addPages_perm ok same distinct

/-- A page that is spelled twice; its second entry is not used, yet it must describe a window. -/
theorem ofValue_keeps_first_spelled_twice :
    let home : Json.Value := .object [("window", .object [("x", .null)])]
    let again : Json.Value := .object [("window", .object [("y", .null)])]
    let broken : Json.Value := .object [("window", .bool true)]
    (∃ table, ofValue (.object [("a.js", home), ("b", .object []), ("./a", again)]) = .ok table ∧
      table.get? ⟨"a"⟩ = some [("x", .null)]) ∧
    ofValue (.object [("a.js", home), ("b", .object []), ("./a", broken)]) =
      .error (.malformed (.window "./a") (.unexpected .object (some .boolean))) := by
  intro home again broken
  have homely : Describes home [("x", .null)] := .listed rfl
  have bare : Describes (.object []) [] := .absent rfl
  constructor
  · obtain ⟨table, ok⟩ := (ofValue_keeps_first _).1.mpr
      ⟨[("a.js", home), ("b", .object []), ("./a", again)], rfl, by
        simpa using ⟨⟨_, homely⟩, ⟨_, bare⟩, _, .listed rfl⟩⟩
    obtain ⟨-, -, first, -⟩ := (ofValue_keeps_first _).2.2 _ table rfl ok
    obtain ⟨window, describes, held⟩ := first [] _ _ _ rfl nofun
    have key : PageKey.ofPath "a.js" = ⟨"a"⟩ := by decide
    rw [key, describes.unique homely] at held
    exact ⟨table, ok, held⟩
  · apply ((ofValue_keeps_first _).2.1 _).mpr
    refine .inr ⟨[("a.js", home), ("b", .object [])], "./a", broken, [], rfl, ?_, ?_⟩
    · simpa using ⟨⟨_, homely⟩, _, bare⟩
    · exact .window (show Fields.get? _ "window" = some (.bool true) from rfl) nofun nofun

end ConfigRecovery.PageTable
