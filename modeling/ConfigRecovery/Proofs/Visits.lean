import ConfigRecovery.Proofs.Usage

/-!
# Visits of keys

A key joins the queue only when its window is created. So the keys that were taken from the queue
and those that wait in it are one line without repetition, which holds just the keys of the table.
Every key is taken once, and what was counted on the way can be read off the table.
-/

namespace ConfigRecovery

theorem Window.length_specifiers (window : Window) :
    window.specifiers.length =
      (window.usage?.getD []).countP fun use => use.2.kind = .string := by
  rw [specifiers, List.length_filterMap_eq_countP]
  apply List.countP_congr
  rintro ⟨name, value⟩ -
  cases value <;> simp [Json.Value.kind]

theorem PageTable.isSome_get?_mark (table : PageTable) (marked key : PageKey) :
    ((table.mark marked).get? key).isSome = true ↔
      marked = key ∨ (table.get? key).isSome = true := by
  rw [get?_mark]
  split <;> simp [*]

namespace UsageScan

variable {table : PageTable} {scan done : UsageScan} {key : PageKey}
  {queue taken more : List PageKey}

/-! ## The loop -/

/-- The scan behind the first key of its queue. -/
def advance (scan : UsageScan) (key : PageKey) : UsageScan :=
  if key ∈ scan.visited then scan.tail else scan.tail.visit key

/-- Keys are taken from the front of the queue, one after the other. -/
inductive Takes : UsageScan → List PageKey → UsageScan → Prop where
  | stop (scan : UsageScan) : Takes scan [] scan
  | take {scan done : UsageScan} {key : PageKey} {queue taken : List PageKey}
      (next : scan.queue = key :: queue) (rest : Takes (scan.advance key) taken done) :
      Takes scan (key :: taken) done

theorem exists_takes_drain (scan : UsageScan) : ∃ taken, Takes scan taken scan.drain := by
  fun_induction drain scan with
  | case1 scan empty => exact ⟨[], .stop scan⟩
  | case2 scan key queue next seen _ ih =>
    obtain ⟨taken, takes⟩ := ih
    refine ⟨key :: taken, .take next ?_⟩
    rwa [advance, if_pos seen]
  | case3 scan key queue next new _ ih =>
    obtain ⟨taken, takes⟩ := ih
    refine ⟨key :: taken, .take next ?_⟩
    rwa [advance, if_neg new]

theorem queue_advance (next : scan.queue = key :: queue) : queue <+: (scan.advance key).queue := by
  have left : scan.tail.queue = queue := by rw [tail, next, List.tail_cons]
  rw [advance]
  split
  · rw [left]
  · exact left ▸ queue_visit scan.tail key

/-- What waits in the queue is taken first. -/
theorem Takes.queue_prefix (takes : Takes scan taken done) (finished : done.queue = []) :
    scan.queue <+: taken := by
  induction takes with
  | stop scan => rw [finished]
  | take next rest ih =>
    rw [next, List.prefix_cons_inj]
    exact (queue_advance next).trans (ih finished)

theorem Takes.continues {middle : UsageScan} {all : List PageKey} (takes : Takes scan taken middle)
    (run : Takes scan all done) (finished : done.queue = []) :
    ∃ rest, all = taken ++ rest ∧ Takes middle rest done := by
  induction takes generalizing all with
  | stop scan => exact ⟨all, rfl, run⟩
  | take next rest ih =>
    cases run with
    | stop => cases next.symm.trans finished
    | take next' rest' =>
      cases next.symm.trans next'
      obtain ⟨rest, rfl, onward⟩ := ih rest'
      exact ⟨rest, rfl, onward⟩

/-! ## The line of keys -/

/-- The keys of a scan in the order in which they came to its queue. -/
structure InLine (table : PageTable) (line : List PageKey) (scan : UsageScan) : Prop where
  nodup : line.Nodup
  known : ∀ key, (scan.table.get? key).isSome = true ↔ key ∈ line
  created : ∃ new, line = table.keys ++ new ∧ new.length = scan.created
  specifiers_eq : ∀ key, specifiers scan.table key = specifiers table key

section

variable {page : PageKey} {specifier : String}

theorem follow_of_known (known : scan.table.contains (page.component specifier) = true) :
    scan.follow page specifier =
      { scan with
        table := scan.table.mark (page.component specifier)
        resolved := scan.resolved + 1 } := by
  simp [follow, known]

theorem follow_of_new (new : scan.table.contains (page.component specifier) = false) :
    scan.follow page specifier =
      { scan with
        table := scan.table.mark (page.component specifier)
        queue := scan.queue ++ [page.component specifier]
        resolved := scan.resolved + 1
        created := scan.created + 1 } := by
  simp [follow, new]

end

namespace InLine

theorem follow {page : PageKey} (inLine : InLine table (taken ++ scan.queue) scan)
    (specifier : String) :
    InLine table (taken ++ (scan.follow page specifier).queue) (scan.follow page specifier) := by
  have same (key : PageKey) :
      specifiers (scan.table.mark (page.component specifier)) key = specifiers table key :=
    (specifiers_mark _ _ _).trans (inLine.specifiers_eq key)
  cases known : scan.table.contains (page.component specifier) with
  | true =>
    rw [follow_of_known known]
    refine ⟨inLine.nodup, fun key => ?_, inLine.created, same⟩
    rw [PageTable.isSome_get?_mark, inLine.known, or_iff_right_of_imp]
    rintro rfl
    exact (inLine.known _).mp (PageTable.contains_iff.mp known)
  | false =>
    have fresh : page.component specifier ∉ taken ++ scan.queue := by
      rw [← inLine.known, ← PageTable.contains_iff, known]
      exact Bool.false_ne_true
    obtain ⟨new, line, count⟩ := inLine.created
    rw [follow_of_new known, ← List.append_assoc]
    refine ⟨?_, fun key => ?_, ⟨new ++ [page.component specifier], ?_, ?_⟩, same⟩
    · rw [← List.concat_eq_append, List.nodup_concat]
      exact ⟨fresh, inLine.nodup⟩
    · rw [PageTable.isSome_get?_mark, inLine.known, or_comm, eq_comm, ← List.mem_singleton,
        ← List.mem_append]
    · rw [line, List.append_assoc]
    · rw [List.length_append, count, List.length_singleton]

theorem foldl_follow {page : PageKey} (found : List String)
    (inLine : InLine table (taken ++ scan.queue) scan) :
    InLine table (taken ++ (found.foldl (UsageScan.follow page) scan).queue)
      (found.foldl (UsageScan.follow page) scan) := by
  induction found generalizing scan with
  | nil => exact inLine
  | cons specifier found ih => exact ih (inLine.follow specifier)

end InLine

theorem resolved_foldl_follow (page : PageKey) (found : List String) (scan : UsageScan) :
    (found.foldl (follow page) scan).resolved = scan.resolved + found.length := by
  induction found generalizing scan with
  | nil => rfl
  | cons specifier found ih =>
    have here : (follow page scan specifier).resolved = scan.resolved + 1 := rfl
    rw [List.foldl_cons, ih, here, List.length_cons, Nat.add_right_comm, Nat.add_assoc]

/-! ## The tally -/

/-- The specifiers in the windows of some keys. -/
def uses (table : PageTable) (keys : List PageKey) : Nat :=
  (keys.map fun key => (specifiers table key).length).sum

/-- What a scan has come to when some keys were taken. -/
structure Tally (table : PageTable) (taken : List PageKey) (scan : UsageScan) : Prop where
  inLine : InLine table (taken ++ scan.queue) scan
  visited : scan.visited = taken.reverse
  resolved : scan.resolved = uses table taken

namespace Tally

theorem atStart (table : PageTable) : Tally table [] (start table) where
  inLine := by
    refine ⟨PageTable.nodup_keys table, fun key => ?_, ⟨[], ?_, rfl⟩, fun _ => rfl⟩
    · rw [List.nil_append, start, PageTable.mem_keys, Option.isSome_iff_exists]
    · rw [List.nil_append, List.append_nil, start]
  visited := rfl
  resolved := rfl

theorem advance (next : scan.queue = key :: queue) (tally : Tally table taken scan) :
    Tally table (taken ++ [key]) (scan.advance key) := by
  have line : taken ++ scan.queue = (taken ++ [key]) ++ scan.tail.queue := by
    rw [tail, next, List.tail_cons, List.append_assoc, List.singleton_append]
  have new : key ∉ scan.visited := by
    have distinct := tally.inLine.nodup
    rw [next, List.nodup_append] at distinct
    rw [tally.visited, List.mem_reverse]
    intro before
    exact distinct.2.2 key before key List.mem_cons_self rfl
  have inLine : InLine table ((taken ++ [key]) ++ scan.tail.queue)
      { scan.tail with visited := key :: scan.visited } := by
    obtain ⟨nodup, known, created, same⟩ := line ▸ tally.inLine
    exact ⟨nodup, known, created, same⟩
  rw [UsageScan.advance, if_neg new]
  constructor
  · exact inLine.foldl_follow _
  · rw [visited_visit, List.reverse_append, List.reverse_singleton, ← tally.visited]
    rfl
  · have here : specifiers scan.tail.table key = specifiers table key :=
      tally.inLine.specifiers_eq key
    rw [visit, resolved_foldl_follow, here, uses, List.map_append, List.sum_append]
    change scan.resolved + _ = _
    simp [tally.resolved, uses]

end Tally

theorem Takes.tally (takes : Takes scan more done) (start : Tally table taken scan) :
    Tally table (taken ++ more) done := by
  induction takes generalizing taken with
  | stop scan => rwa [List.append_nil]
  | take next rest ih =>
    have after := ih (start.advance next)
    rwa [List.append_assoc] at after

/-- The whole work takes the keys of the marked table in one line. -/
theorem exists_line (table : PageTable) : ∃ line,
    Takes (start table) line (start table).drain ∧ Tally table line (start table).drain ∧
      InLine table line (start table).drain := by
  obtain ⟨line, takes⟩ := exists_takes_drain (start table)
  have tally := takes.tally (.atStart table)
  rw [List.nil_append] at tally
  have inLine := tally.inLine
  rw [(drain_progress table).2, List.append_nil] at inLine
  exact ⟨line, takes, tally, inLine⟩

theorem InLine.mem_keys {line : List PageKey} (inLine : InLine table line scan) :
    key ∈ line ↔ key ∈ scan.table.keys := by
  rw [← inLine.known, PageTable.mem_keys, Option.isSome_iff_exists]

theorem InLine.perm_keys {line : List PageKey} (inLine : InLine table line scan) :
    line.Perm scan.table.keys :=
  (List.perm_ext_iff_of_nodup inLine.nodup (PageTable.nodup_keys _)).mpr fun _ => inLine.mem_keys

theorem InLine.absent {new : List PageKey} (inLine : InLine table (table.keys ++ new) scan)
    (member : key ∈ new) : table.get? key = none := by
  rw [← Option.not_isSome_iff_eq_none, Option.isSome_iff_exists, ← PageTable.mem_keys]
  exact fun listed => (List.nodup_append.mp inLine.nodup).2.2 key listed key member rfl

theorem uses_append (table : PageTable) (keys more : List PageKey) :
    uses table (keys ++ more) = uses table keys + uses table more := by
  simp [uses]

theorem uses_of_absent {keys : List PageKey} (absent : ∀ key ∈ keys, table.get? key = none) :
    uses table keys = 0 := by
  rw [uses, List.sum_eq_zero_iff]
  intro count member
  obtain ⟨key, listed, rfl⟩ := List.mem_map.mp member
  simp [specifiers, absent key listed, Window.specifiers, Window.usage?, Fields.get?]

theorem uses_keys (table : PageTable) : uses table table.keys =
    (table.toList.map fun page =>
      (page.2.usage?.getD []).countP fun use => use.2.kind = .string).sum := by
  rw [uses, ← PageTable.map_fst_toList, List.map_map]
  apply congrArg List.sum
  apply List.map_congr_left
  rintro ⟨key, window⟩ listed
  rw [← Window.length_specifiers, Function.comp_apply, specifiers,
    PageTable.mem_toList.mp listed, Option.getD_some]

end UsageScan

namespace PageTable

open UsageScan

theorem resolved_markComponents (table : PageTable) :
    table.markComponents.2.resolved = uses table table.keys := by
  obtain ⟨line, -, tally, inLine⟩ := exists_line table
  obtain ⟨new, rfl, -⟩ := inLine.created
  change (start table).drain.resolved = _
  rw [tally.resolved, uses_append, uses_of_absent fun key => inLine.absent, Nat.add_zero]

theorem created_markComponents (table : PageTable) :
    table.markComponents.2.created =
      table.markComponents.1.keys.countP fun key => (table.get? key).isNone := by
  obtain ⟨line, -, -, inLine⟩ := exists_line table
  have order := inLine.perm_keys
  obtain ⟨new, rfl, count⟩ := inLine.created
  have old : table.keys.countP (fun key => (table.get? key).isNone) = 0 := by
    rw [List.countP_eq_zero]
    intro key listed
    obtain ⟨window, held⟩ := mem_keys.mp listed
    simp [held]
  have added : new.countP (fun key => (table.get? key).isNone) = new.length := by
    rw [List.countP_eq_length]
    intro key member
    rw [inLine.absent member]
    rfl
  change (start table).drain.created = (start table).drain.table.keys.countP _
  rw [← order.countP_eq, List.countP_append, old, added, Nat.zero_add, count]

theorem markComponents_again (table : PageTable) :
    table.markComponents.1.markComponents.1 = table.markComponents.1 := by
  apply ext
  intro key
  by_cases used : ∃ page, table.Uses page key
  · obtain ⟨page, uses⟩ := used
    rw [get?_markComponents_of_uses (uses_markComponents.mpr uses),
      get?_markComponents_of_uses uses, Option.getD_some, Window.mark_mark]
  · apply get?_markComponents_of_not_uses
    exact fun page uses => used ⟨page, uses_markComponents.mp uses⟩

theorem counts_markComponents_again (table : PageTable) :
    table.markComponents.1.markComponents.2 = ⟨table.markComponents.2.resolved, 0⟩ := by
  obtain ⟨line, -, tally, inLine⟩ := exists_line table
  have same (key : PageKey) : specifiers table.markComponents.1 key = specifiers table key :=
    inLine.specifiers_eq key
  have resolved : table.markComponents.1.markComponents.2.resolved =
      table.markComponents.2.resolved := by
    change _ = (start table).drain.resolved
    rw [resolved_markComponents, tally.resolved, uses, uses]
    simp only [same]
    exact (inLine.perm_keys.map _).sum_eq.symm
  have created : table.markComponents.1.markComponents.2.created = 0 := by
    rw [created_markComponents, markComponents_again, List.countP_eq_zero]
    intro key listed
    obtain ⟨window, held⟩ := mem_keys.mp listed
    simp [held]
  exact congrArg₂ UsageCounts.mk resolved created

/--
Marking the components of a table takes each key of the marked table once from its queue, which
never holds a key for a second time. It counts the texts among the components that the table's
windows list, and the keys that the table did not have, and done again it changes nothing.
-/
theorem markComponents_takes_once (table : PageTable) :
    let marked := table.markComponents
    (∃ line : List PageKey, line.Nodup ∧ (∀ key, key ∈ line ↔ key ∈ marked.1.keys) ∧
      Takes (start table) line (start table).drain ∧ (start table).drain.queue = [] ∧
      (start table).drain.table = marked.1 ∧
      ∀ taken scan, Takes (start table) taken scan → taken ++ scan.queue <+: line) ∧
    (∃ usage : Window → Fields Json.Value,
      (∀ window fields, Fields.get? window "usingComponents" = some (.object fields) →
        usage window = fields) ∧
      (∀ window, (∀ fields, Fields.get? window "usingComponents" ≠ some (.object fields)) →
        usage window = []) ∧
      marked.2.resolved = (table.toList.map fun page =>
        (usage page.2).countP fun use => use.2.kind = .string).sum) ∧
    marked.2.created = marked.1.keys.countP (fun key => (table.get? key).isNone) ∧
    marked.1.markComponents = (marked.1, ⟨marked.2.resolved, 0⟩) := by
  intro marked
  refine ⟨?_, ?_, created_markComponents table, ?_⟩
  · obtain ⟨line, takes, -, inLine⟩ := exists_line table
    have finished := (drain_progress table).2
    refine ⟨line, inLine.nodup, fun key => inLine.mem_keys, takes, finished, rfl, ?_⟩
    intro taken scan begun
    obtain ⟨rest, rfl, onward⟩ := begun.continues takes finished
    rw [List.prefix_append_right_inj]
    exact onward.queue_prefix finished
  · refine ⟨fun window => window.usage?.getD [], ?_, ?_, ?_⟩
    · intro window fields listed
      exact Option.getD_eq_iff.mpr (.inl (Window.usage?_eq_some.mpr listed))
    · intro window unlisted
      refine Option.getD_eq_iff.mpr (.inr ⟨?_, rfl⟩)
      rw [Option.eq_none_iff_forall_ne_some]
      exact fun fields => mt Window.usage?_eq_some.mp (unlisted fields)
    · rw [← uses_keys]
      exact resolved_markComponents table
  · exact Prod.ext (markComponents_again table) (counts_markComponents_again table)

end PageTable

end ConfigRecovery
