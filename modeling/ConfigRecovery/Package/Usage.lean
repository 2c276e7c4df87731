import ConfigRecovery.Package.PageTable

/-!
# Use of components

Components are not listed in the manifest; they show up as specifiers in the windows of the pages
and components that use them. `PageTable.markComponents` works through a queue of keys, visits each
key once, and marks every component that a visited window names. A component that was not known
gets a window of its own and joins the queue. The queue runs dry because a window that is created
names no components.
-/

namespace ConfigRecovery

/-- How far the work on a table's components has come. -/
structure UsageScan where
  table : PageTable
  /-- The keys to visit, in order -/
  queue : List PageKey
  /-- The keys visited, last first -/
  visited : List PageKey
  resolved : Nat
  created : Nat

namespace UsageScan

/-- Marks the component that a page names by a specifier. -/
def follow (page : PageKey) (scan : UsageScan) (specifier : String) : UsageScan :=
  let target := page.component specifier
  let isNew := !scan.table.contains target
  { scan with
    table := scan.table.mark target
    queue := if isNew then scan.queue ++ [target] else scan.queue
    resolved := scan.resolved + 1
    created := if isNew then scan.created + 1 else scan.created }

def specifiers (table : PageTable) (key : PageKey) : List String :=
  ((table.get? key).getD []).specifiers

/-- Visits a key: follows all specifiers in its window. -/
def visit (scan : UsageScan) (key : PageKey) : UsageScan :=
  (specifiers scan.table key).foldl (follow key) { scan with visited := key :: scan.visited }

/-! ## The queue runs dry -/

/-- The work that the queue holds at most: each key, and each specifier in its window. -/
def work (scan : UsageScan) : Nat :=
  (scan.queue.flatMap fun key => key.name :: specifiers scan.table key).length

theorem specifiers_mark (table : PageTable) (marked key : PageKey) :
    specifiers (table.mark marked) key = specifiers table key := by
  unfold specifiers
  rw [PageTable.get?_mark]
  split <;> simp

theorem work_follow (page : PageKey) (scan : UsageScan) (specifier : String) :
    (follow page scan specifier).work ≤ scan.work + 1 := by
  unfold follow work
  simp only [specifiers_mark]
  split
  · rename_i h
    simp only [Bool.not_eq_eq_eq_not, Bool.not_true] at h
    have absent := PageTable.get?_eq_none h
    have : (specifiers scan.table (page.component specifier)).length = 0 := by
      simp [specifiers, absent, Window.specifiers, Window.usage?, Fields.get?]
    simp [this]
  · exact Nat.le_succ _

theorem work_foldl_follow (page : PageKey) (scan : UsageScan) (found : List String) :
    (found.foldl (follow page) scan).work ≤ scan.work + found.length := by
  induction found generalizing scan with
  | nil => simp
  | cons specifier found ih =>
    have := ih (follow page scan specifier)
    have := work_follow page scan specifier
    simp only [List.foldl_cons, List.length_cons]
    omega

/-- The scan without the first key of its queue. -/
def tail (scan : UsageScan) : UsageScan := { scan with queue := scan.queue.tail }

theorem work_tail {scan : UsageScan} {key : PageKey} {queue : List PageKey}
    (h : scan.queue = key :: queue) :
    scan.work = scan.tail.work + 1 + (specifiers scan.table key).length := by
  simp only [work, tail, h, List.flatMap_cons, List.tail_cons, List.length_append, List.length_cons]
  omega

theorem work_visit_tail {scan : UsageScan} {key : PageKey} {queue : List PageKey}
    (h : scan.queue = key :: queue) : (scan.tail.visit key).work < scan.work := by
  have := work_tail h
  have := work_foldl_follow key { scan.tail with visited := key :: scan.visited }
    (specifiers scan.table key)
  simp only [visit, tail, work] at *
  omega

/-- Visits the keys of the queue until there are none. -/
def drain (scan : UsageScan) : UsageScan :=
  match h : scan.queue with
  | [] => scan
  | key :: _ =>
    if key ∈ scan.visited then
      have : scan.tail.work < scan.work := by
        rw [work_tail h]
        omega
      drain scan.tail
    else
      have := work_visit_tail h
      drain (scan.tail.visit key)
termination_by scan.work

/-- The start of the work on a table: all its keys are queued in order. -/
def start (table : PageTable) : UsageScan := ⟨table, table.keys, [], 0, 0⟩

end UsageScan

/-- How many specifiers were followed, and how many windows were created for their components. -/
structure UsageCounts where
  resolved : Nat := 0
  created : Nat := 0
deriving Repr, DecidableEq

/-- Marks every component in use, and gives a window to those that had none. -/
def PageTable.markComponents (table : PageTable) : PageTable × UsageCounts :=
  let done := (UsageScan.start table).drain
  (done.table, ⟨done.resolved, done.created⟩)

end ConfigRecovery
