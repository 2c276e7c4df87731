import ConfigRecovery.Package.Usage
import ConfigRecovery.Proofs.PageEntries

/-!
# Components in use

Marking a window changes neither the components that it names nor a mark that it has. So the
components that a table's windows name are settled before the work on them starts, and at each
moment the marked windows are those that the visited keys name.
-/

namespace ConfigRecovery

/-! ## Marked windows -/

namespace Window

/-- The second window is the first one with its mark set, in its place or at the end. -/
inductive Marked : Window → Window → Prop where
  | replaced {front back : Window} {old : Json.Value} (first : "component" ∉ Fields.keys front) :
    Marked (front ++ ("component", old) :: back) (front ++ ("component", .bool true) :: back)
  | appended {window : Window} (absent : "component" ∉ Fields.keys window) :
    Marked window (window ++ [("component", .bool true)])

theorem marked_mark (window : Window) : Marked window window.mark := by
  rw [mark]
  rcases Fields.insert_place window componentFlag (.bool true) with
    ⟨front, old, back, rfl, first, placed⟩ | ⟨absent, appended⟩
  · rw [placed]
    exact .replaced first
  · rw [appended]
    exact .appended absent

theorem mark_mark (window : Window) : window.mark.mark = window.mark := by
  induction window with
  | nil => rfl
  | cons field window ih =>
    obtain ⟨k, v⟩ := field
    by_cases here : k = componentFlag
    · simp [mark, Fields.insert, here]
    · simpa [mark, Fields.insert, here] using ih

theorem isComponent_mark (window : Window) : window.mark.isComponent = true := by
  simp [isComponent, mark]

theorem usage?_eq_some {window : Window} {fields : Fields Json.Value} :
    window.usage? = some fields ↔
      Fields.get? window "usingComponents" = some (.object fields) := by
  unfold usage? usageField
  split <;> simp_all

theorem mem_specifiers {window : Window} {specifier : String} :
    specifier ∈ window.specifiers ↔ ∃ usage name,
      Fields.get? window "usingComponents" = some (.object usage) ∧
      (name, .string specifier) ∈ usage := by
  rw [specifiers, List.mem_filterMap]
  constructor
  · rintro ⟨⟨name, value⟩, member, found⟩
    cases listed : usage? window with
    | none => simp [listed] at member
    | some usage =>
      rw [listed] at member
      refine ⟨usage, name, ?_, ?_⟩
      · exact usage?_eq_some.mp listed
      · cases value with
        | string text =>
          cases found
          exact member
        | _ => cases found
  · rintro ⟨usage, name, listed, member⟩
    exact ⟨(name, .string specifier), by rwa [usage?_eq_some.mpr listed], rfl⟩

end Window

/-! ## Uses -/

/-- The window of one page names another page as a component. -/
def PageTable.Uses (table : PageTable) (page target : PageKey) : Prop :=
  ∃ window usage name specifier, table.get? page = some window ∧
    Fields.get? window "usingComponents" = some (.object usage) ∧
    (name, .string specifier) ∈ usage ∧ page.component specifier = target

namespace UsageScan

/-- The components that the window of a page names. -/
def targets (table : PageTable) (page : PageKey) : List PageKey :=
  (specifiers table page).map page.component

theorem mem_targets {table : PageTable} {page target : PageKey} :
    target ∈ targets table page ↔ table.Uses page target := by
  rw [targets, List.mem_map]
  constructor
  · rintro ⟨specifier, member, rfl⟩
    rw [specifiers] at member
    cases found : table.get? page with
    | none => simp [found, Window.specifiers, Window.usage?, Fields.get?] at member
    | some window =>
      rw [found] at member
      obtain ⟨usage, name, listed, there⟩ := Window.mem_specifiers.mp member
      exact ⟨window, usage, name, specifier, found, listed, there, rfl⟩
  · rintro ⟨window, usage, name, specifier, found, listed, there, rfl⟩
    refine ⟨specifier, ?_, rfl⟩
    rw [specifiers, found]
    exact Window.mem_specifiers.mpr ⟨usage, name, listed, there⟩

/-! ## One visit -/

section

variable (page : PageKey) (found : List String) (scan : UsageScan)

theorem get?_foldl_follow (key : PageKey) :
    (found.foldl (follow page) scan).table.get? key =
      if key ∈ found.map page.component then some ((scan.table.get? key).getD []).mark
      else scan.table.get? key := by
  induction found generalizing scan with
  | nil => rfl
  | cons specifier found ih =>
    have here : (follow page scan specifier).table.get? key =
        if page.component specifier = key then some ((scan.table.get? key).getD []).mark
        else scan.table.get? key :=
      PageTable.get?_mark _ _ _
    rw [List.foldl_cons, ih, here, List.map_cons]
    by_cases first : page.component specifier = key
    · simp [first, Window.mark_mark]
    · simp [first, Ne.symm first]

theorem visited_foldl_follow : (found.foldl (follow page) scan).visited = scan.visited := by
  induction found generalizing scan with
  | nil => rfl
  | cons specifier found ih => rw [List.foldl_cons, ih]; rfl

theorem queue_foldl_follow : scan.queue <+: (found.foldl (follow page) scan).queue := by
  induction found generalizing scan with
  | nil => exact List.prefix_rfl
  | cons specifier found ih =>
    refine List.IsPrefix.trans ?_ (ih (follow page scan specifier))
    rw [follow]
    split
    · exact List.prefix_append _ _
    · exact List.prefix_rfl

end

theorem get?_visit (scan : UsageScan) (page key : PageKey) :
    (scan.visit page).table.get? key =
      if key ∈ targets scan.table page then some ((scan.table.get? key).getD []).mark
      else scan.table.get? key :=
  get?_foldl_follow page _ _ key

theorem visited_visit (scan : UsageScan) (page : PageKey) :
    (scan.visit page).visited = page :: scan.visited :=
  visited_foldl_follow page _ _

theorem queue_visit (scan : UsageScan) (page : PageKey) :
    scan.queue <+: (scan.visit page).queue :=
  queue_foldl_follow page _ { scan with visited := page :: scan.visited }

/-! ## The whole work -/

/-- What each step preserves is true of the outcome, for which no key is left. -/
theorem drain_induction {P : UsageScan → Prop}
    (skip : ∀ {scan key queue}, scan.queue = key :: queue → key ∈ scan.visited → P scan →
      P scan.tail)
    (visit : ∀ {scan key queue}, scan.queue = key :: queue → key ∉ scan.visited → P scan →
      P (scan.tail.visit key))
    {scan : UsageScan} (start : P scan) : P scan.drain ∧ scan.drain.queue = [] := by
  fun_induction drain scan with
  | case1 scan empty => exact ⟨start, empty⟩
  | case2 scan key queue next seen _ ih => exact ih (skip next seen start)
  | case3 scan key queue next new _ ih => exact ih (visit next new start)

/-- What has come of a table's windows when some keys were visited and the others are queued. -/
structure Progress (table : PageTable) (scan : UsageScan) : Prop where
  /-- The windows that the visited keys name are marked, all others are as before. -/
  get?_eq : ∀ key, scan.table.get? key =
    if key ∈ scan.visited.flatMap (targets table) then some ((table.get? key).getD []).mark
    else table.get? key
  /-- No page of the table is forgotten. -/
  pending : ∀ key, (table.get? key).isSome → key ∈ scan.visited ∨ key ∈ scan.queue

namespace Progress

variable {table : PageTable} {scan : UsageScan}

theorem targets_eq (progress : Progress table scan) (page : PageKey) :
    targets scan.table page = targets table page := by
  have same : specifiers scan.table page = specifiers table page := by
    rw [specifiers, progress.get?_eq]
    split
    · exact Window.specifiers_mark _
    · rfl
  rw [targets, targets, same]

theorem atStart (table : PageTable) : Progress table (start table) where
  get?_eq _ := rfl
  pending key there := by
    refine Or.inr (Std.ExtTreeMap.mem_keys.mpr ?_)
    rwa [Std.ExtTreeMap.mem_iff_isSome_getElem?]

theorem skip {key : PageKey} {queue : List PageKey} (next : scan.queue = key :: queue)
    (seen : key ∈ scan.visited) (progress : Progress table scan) : Progress table scan.tail where
  get?_eq := progress.get?_eq
  pending page there := by
    rcases progress.pending page there with visited | queued
    · exact Or.inl visited
    · rw [next, List.mem_cons] at queued
      rcases queued with rfl | queued
      · exact Or.inl seen
      · refine Or.inr ?_
        rwa [tail, next]

theorem visit {key : PageKey} {queue : List PageKey} (next : scan.queue = key :: queue)
    (progress : Progress table scan) : Progress table (scan.tail.visit key) where
  get?_eq page := by
    have now : scan.tail.table.get? page = _ := progress.get?_eq page
    have named : targets scan.tail.table key = targets table key := progress.targets_eq key
    rw [get?_visit, named, visited_visit, List.flatMap_cons, now]
    by_cases here : page ∈ targets table key
    · rw [if_pos here, if_pos (List.mem_append_left _ here)]
      split
      · rw [Option.getD_some, Window.mark_mark]
      · rfl
    · rw [if_neg here]
      simp only [List.mem_append, here, false_or]
      rfl
  pending page there := by
    rw [visited_visit, List.mem_cons]
    rcases progress.pending page there with visited | queued
    · exact Or.inl (Or.inr visited)
    · rw [next, List.mem_cons] at queued
      rcases queued with rfl | queued
      · exact Or.inl (Or.inl rfl)
      · refine Or.inr ((queue_visit _ _).subset ?_)
        rwa [tail, next]

end Progress

theorem drain_progress (table : PageTable) :
    Progress table (start table).drain ∧ (start table).drain.queue = [] :=
  drain_induction (P := Progress table) Progress.skip (fun next _ => Progress.visit next)
    (Progress.atStart table)

/-- The keys that are visited in the end name the same components as the pages of the table. -/
theorem mem_visited_targets (table : PageTable) (target : PageKey) :
    target ∈ (start table).drain.visited.flatMap (targets table) ↔
      ∃ page, table.Uses page target := by
  obtain ⟨progress, empty⟩ := drain_progress table
  rw [List.mem_flatMap]
  constructor
  · rintro ⟨page, -, named⟩
    exact ⟨page, mem_targets.mp named⟩
  · rintro ⟨page, uses⟩
    -- a page that names something is one of the table: a window made on the way names nothing
    refine ⟨page, ?_, mem_targets.mpr uses⟩
    obtain ⟨window, _, _, _, found, -⟩ := uses
    have there : (table.get? page).isSome := by simp [found]
    rcases progress.pending page there with visited | queued
    · exact visited
    · rw [empty] at queued
      cases queued

end UsageScan

namespace PageTable

theorem get?_markComponents_of_uses {table : PageTable} {page target : PageKey}
    (uses : table.Uses page target) :
    table.markComponents.1.get? target = some ((table.get? target).getD []).mark := by
  have windows := (UsageScan.drain_progress table).1.get?_eq target
  rwa [if_pos ((UsageScan.mem_visited_targets table target).mpr ⟨page, uses⟩)] at windows

theorem get?_markComponents_of_not_uses {table : PageTable} {key : PageKey}
    (unused : ∀ page, ¬table.Uses page key) :
    table.markComponents.1.get? key = table.get? key := by
  have windows := (UsageScan.drain_progress table).1.get?_eq key
  rw [if_neg] at windows
  · exact windows
  · rw [UsageScan.mem_visited_targets]
    rintro ⟨page, uses⟩
    exact unused page uses

theorem uses_markComponents {table : PageTable} {page target : PageKey} :
    table.markComponents.1.Uses page target ↔ table.Uses page target := by
  rw [← UsageScan.mem_targets, ← UsageScan.mem_targets]
  exact iff_of_eq (congrArg _ ((UsageScan.drain_progress table).1.targets_eq page))

/--
Marking the components of a table adds the components that its windows name and sets the mark of
exactly these. Afterwards every component that a window names is there and marked.
-/
theorem markComponents_closure (table : PageTable) :
    let resolved := table.markComponents.1
    (∀ key, (resolved.get? key).isSome ↔
      (table.get? key).isSome ∨ ∃ page, table.Uses page key) ∧
    (∀ key, (∀ page, ¬table.Uses page key) → resolved.get? key = table.get? key) ∧
    (∀ page key window, table.Uses page key → table.get? key = some window →
      ∃ marked, resolved.get? key = some marked ∧ window.Marked marked) ∧
    (∀ page key, table.Uses page key → table.get? key = none →
      resolved.get? key = some [("component", .bool true)]) ∧
    (∀ page key, resolved.Uses page key →
      ∃ window, resolved.get? key = some window ∧ window.isComponent = true) := by
  intro resolved
  refine ⟨?_, ?_, ?_, ?_, ?_⟩
  · intro key
    by_cases used : ∃ page, table.Uses page key
    · obtain ⟨page, uses⟩ := used
      simp only [resolved, get?_markComponents_of_uses uses, Option.isSome_some, true_iff]
      exact Or.inr ⟨page, uses⟩
    · have unused : ∀ page, ¬table.Uses page key := fun page uses => used ⟨page, uses⟩
      simp only [resolved, get?_markComponents_of_not_uses unused, used, or_false]
  · intro key unused
    exact get?_markComponents_of_not_uses unused
  · intro page key window uses found
    refine ⟨window.mark, ?_, Window.marked_mark window⟩
    rw [get?_markComponents_of_uses uses, found, Option.getD_some]
  · intro page key uses absent
    rw [get?_markComponents_of_uses uses, absent]
    rfl
  · intro page key uses
    refine ⟨_, get?_markComponents_of_uses (uses_markComponents.mp uses), ?_⟩
    exact Window.isComponent_mark _

/-- Two pages that use each other, of which the second one denies it and uses an unknown page. -/
theorem markComponents_cycle :
    let first : Window := [("usingComponents", .object [("x", .string "b")])]
    let second : Window := [("component", .bool false),
      ("usingComponents", .object [("y", .string "/a"), ("z", .string "s/c")])]
    let table := (empty.insert ⟨"a"⟩ first).insert ⟨"b"⟩ second
    table.Uses ⟨"b"⟩ ⟨"a"⟩ ∧
    (∃ marked, table.markComponents.1.get? ⟨"b"⟩ = some marked ∧ second.Marked marked) ∧
    table.markComponents.1.get? ⟨"s/c"⟩ = some [("component", .bool true)] := by
  intro first second table
  have one : table.get? ⟨"a"⟩ = some first := by simp [table]
  have two : table.get? ⟨"b"⟩ = some second := by simp [table]
  have absent : table.get? ⟨"s/c"⟩ = none := by simp [table]
  obtain ⟨-, -, known, unknown, -⟩ := markComponents_closure table
  have back : table.Uses ⟨"b"⟩ ⟨"a"⟩ :=
    ⟨second, _, "y", "/a", two, rfl, List.mem_cons_self, by decide⟩
  have forth : table.Uses ⟨"a"⟩ ⟨"b"⟩ :=
    ⟨first, _, "x", "b", one, rfl, List.mem_cons_self, by decide⟩
  have beyond : table.Uses ⟨"b"⟩ ⟨"s/c"⟩ :=
    ⟨second, _, "z", "s/c", two, rfl, List.mem_cons_of_mem _ List.mem_cons_self, by decide⟩
  exact ⟨back, known _ _ _ forth two, unknown _ _ beyond absent⟩

end PageTable

end ConfigRecovery
