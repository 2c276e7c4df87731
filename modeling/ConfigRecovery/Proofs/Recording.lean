import ConfigRecovery.Proofs.Step
import ConfigRecovery.Store.Memory

/-!
# Recorded runs

A recording tree hands each file on to another tree and keeps a list of the files that this one
took. A step over a recorded tree in memory foretells what the same step does over a tree that
takes the same files but for some that it refuses: all is the same up to the first write that is
refused, and there the step ends.
-/

namespace ConfigRecovery

/-- A tree with some more files, of which later ones replace earlier ones. -/
def MemoryTree.insertAll (tree : MemoryTree) (writes : List Draft) : MemoryTree :=
  writes.foldl (fun tree draft => tree.insert draft.1 draft.2.encode) tree

/-- A tree with the files that it took, in order. -/
structure Recording (τ : Type) where
  tree : τ
  writes : List Draft := []

namespace Recording

variable {τ : Type} [OutputTree τ]

def write (path : String) (content : Content) : EStateM Failure (Recording τ) Unit := fun record =>
  match OutputTree.write path content record.tree with
  | .ok done tree => .ok done ⟨tree, record.writes ++ [(path, content)]⟩
  | .error failure tree => .error failure ⟨tree, record.writes⟩

instance : OutputTree (Recording τ) := ⟨write, fun record => OutputTree.files record.tree⟩

def after (record : Recording MemoryTree) (writes : List Draft) : Recording MemoryTree :=
  ⟨record.tree.insertAll writes, record.writes ++ writes⟩

@[simp]
theorem after_nil (record : Recording MemoryTree) : record.after [] = record := by
  simp [after, MemoryTree.insertAll]

theorem after_append (record : Recording MemoryTree) (writes more : List Draft) :
    record.after (writes ++ more) = (record.after writes).after more := by
  simp [after, MemoryTree.insertAll]

end Recording

structure Guarded (barrier : String → Option SystemFault) (τ : Type) where
  tree : τ

namespace Guarded

variable {barrier : String → Option SystemFault} {τ : Type} [OutputTree τ]

def write (path : String) (content : Content) : EStateM Failure (Guarded barrier τ) Unit :=
  fun guarded =>
    match barrier path with
    | some fault => .error (.fileWrite path fault) guarded
    | none =>
      match OutputTree.write path content guarded.tree with
      | .ok done tree => .ok done ⟨tree⟩
      | .error failure tree => .error failure ⟨tree⟩

instance : OutputTree (Guarded barrier τ) := ⟨write, fun guarded => OutputTree.files guarded.tree⟩

end Guarded

/-- A tree that takes what a recorded tree in memory takes, but for the paths that it refuses. -/
structure View (barrier : String → Option SystemFault) (τ : Type) [OutputTree τ] where
  of : Recording MemoryTree → τ
  accepts : ∀ {path}, barrier path = none → ∀ content record,
    OutputTree.write path content (of record) = .ok () (of (record.after [(path, content)]))
  refuses : ∀ {path fault}, barrier path = some fault → ∀ content record,
    OutputTree.write path content (of record) = .error (.fileWrite path fault) (of record)
  files_of : ∀ record, OutputTree.files (of record) = OutputTree.files record

namespace View

/-- A tree in memory without the record. -/
def memory : View (fun _ => none) MemoryTree where
  of record := record.tree
  accepts _ _ _ := rfl
  refuses := by
    intro path fault refused
    cases refused
  files_of _ := rfl

def guarded (barrier : String → Option SystemFault) :
    View barrier (Recording (Guarded barrier MemoryTree)) where
  of record := ⟨⟨record.tree⟩, record.writes⟩
  accepts := by
    intro path accepted content record
    change Recording.write path content _ = _
    simp only [Recording.write, OutputTree.write, Guarded.write, accepted]
    rfl
  refuses := by
    intro path fault refused content record
    change Recording.write path content _ = _
    simp only [Recording.write, OutputTree.write, Guarded.write, refused]
  files_of _ := rfl

variable {barrier : String → Option SystemFault} {τ : Type} [OutputTree τ]

def sink (view : View barrier τ) (sink : Sink (Recording MemoryTree)) : Sink τ :=
  ⟨view.of sink.tree, sink.written⟩

end View

namespace Sink

theorem save_of_mem {τ : Type} [OutputTree τ] {path : String} (content : Content) {sink : Sink τ}
    (h : Path.canonical path ∈ sink.written) : save path content sink = .ok false sink :=
  if_pos h

theorem save_recording {path : String} (content : Content) {sink : Sink (Recording MemoryTree)}
    (h : Path.canonical path ∉ sink.written) :
    save path content sink = .ok true
      ⟨sink.tree.after [(Path.canonical path, content)], Path.canonical path :: sink.written⟩ :=
  if_neg h

/-- Saves drafts one after the other; the answers say which of them were handed to the tree. -/
def saveEach {τ : Type} [OutputTree τ] (drafts : List Draft) :
    EStateM Failure (Sink τ) (List Bool) :=
  drafts.mapM fun draft => save draft.1 draft.2

theorem saveEach_cons {τ : Type} [OutputTree τ] (draft : Draft) (drafts : List Draft) :
    (saveEach (draft :: drafts) : EStateM Failure (Sink τ) (List Bool)) =
      save draft.1 draft.2 >>= fun isNew => saveEach drafts >>= fun answers =>
        pure (isNew :: answers) := by
  rw [saveEach, List.mapM_cons]
  rfl

end Sink

/-! ## Steps in two views -/

def stateOf {ε σ α : Type} : EStateM.Result ε σ α → σ
  | .ok _ state => state
  | .error _ state => state

variable {barrier : String → Option SystemFault} {τ : Type} [OutputTree τ] {α β : Type}

/-- What a step from a recorded sink comes to, and what it comes to from the view of the sink. -/
inductive Mirrored (view : View barrier τ) (sink : Sink (Recording MemoryTree)) :
    EStateM.Result Failure (Sink (Recording MemoryTree)) α →
      EStateM.Result Failure (Sink τ) α → Prop where
  | ok {value : α} {behind : Sink (Recording MemoryTree)} {writes : List Draft}
      (reached : behind.tree = sink.tree.after writes)
      (accepted : ∀ draft ∈ writes, barrier draft.1 = none) :
    Mirrored view sink (.ok value behind) (.ok value (view.sink behind))
  | error {failure : Failure} {behind : Sink (Recording MemoryTree)} {writes : List Draft}
      (reached : behind.tree = sink.tree.after writes)
      (accepted : ∀ draft ∈ writes, barrier draft.1 = none) :
    Mirrored view sink (.error failure behind) (.error failure (view.sink behind))
  /-- The step in the view ends at the first write that is refused. -/
  | refused {result : EStateM.Result Failure (Sink (Recording MemoryTree)) α}
      {stopped : Sink τ} {writes later : List Draft} {path : String} {content : Content}
      {fault : SystemFault}
      (reached : (stateOf result).tree = sink.tree.after (writes ++ (path, content) :: later))
      (accepted : ∀ draft ∈ writes, barrier draft.1 = none)
      (refused : barrier path = some fault)
      (stopped_tree : stopped.tree = view.of (sink.tree.after writes)) :
    Mirrored view sink result (.error (.fileWrite path fault) stopped)

/-- A step does the same in a view as over a recorded tree, up to the first write refused there. -/
def Mirrors (view : View barrier τ) (x : EStateM Failure (Sink (Recording MemoryTree)) α)
    (y : EStateM Failure (Sink τ) α) : Prop :=
  ∀ sink, Mirrored view sink (x sink) (y (view.sink sink))

theorem Mirrored.reached {view : View barrier τ} {sink : Sink (Recording MemoryTree)}
    {x : EStateM.Result Failure (Sink (Recording MemoryTree)) α}
    {y : EStateM.Result Failure (Sink τ) α} (h : Mirrored view sink x y) :
    ∃ writes, (stateOf x).tree = sink.tree.after writes := by
  cases h with
  | ok reached accepted => exact ⟨_, reached⟩
  | error reached accepted => exact ⟨_, reached⟩
  | refused reached accepted refused stopped => exact ⟨_, reached⟩

theorem Mirrored.ok_of_accepted {view : View barrier τ} {sink behind : Sink (Recording MemoryTree)}
    {y : EStateM.Result Failure (Sink τ) α} {value : α}
    (h : Mirrored view sink (.ok value behind) y)
    (accepted : ∀ draft ∈ behind.tree.writes, barrier draft.1 = none) :
    y = .ok value (view.sink behind) := by
  cases h with
  | ok reached accepted => rfl
  | @refused _ stopped writes later path content fault reached _ refused _ =>
    change behind.tree = _ at reached
    have written : (path, content) ∈ behind.tree.writes := by simp [reached, Recording.after]
    cases (accepted _ written).symm.trans refused

theorem Mirrored.prepend {view : View barrier τ} {sink mid : Sink (Recording MemoryTree)}
    {x : EStateM.Result Failure (Sink (Recording MemoryTree)) α}
    {y : EStateM.Result Failure (Sink τ) α} {before : List Draft}
    (reached : mid.tree = sink.tree.after before)
    (accepted : ∀ draft ∈ before, barrier draft.1 = none) (h : Mirrored view mid x y) :
    Mirrored view sink x y := by
  have both {writes : List Draft} (more : ∀ draft ∈ writes, barrier draft.1 = none) :
      ∀ draft ∈ before ++ writes, barrier draft.1 = none := by
    intro draft member
    exact (List.mem_append.mp member).elim (accepted draft) (more draft)
  cases h with
  | ok further more =>
    rw [reached, ← Recording.after_append] at further
    exact .ok further (both more)
  | error further more =>
    rw [reached, ← Recording.after_append] at further
    exact .error further (both more)
  | refused further more refused stopped =>
    rw [reached, ← Recording.after_append] at further stopped
    rw [← List.append_assoc] at further
    exact .refused further (both more) refused stopped

namespace Mirrors

variable {view : View barrier τ}

theorem pure (value : α) : Mirrors view (pure value) (pure value) :=
  fun sink => .ok (sink.tree.after_nil).symm (by simp)

theorem throw (failure : Failure) :
    Mirrors view (throw failure : EStateM Failure _ α) (throw failure) :=
  fun sink => .error (sink.tree.after_nil).symm (by simp)

theorem ofResult (result : Except Failure α) :
    Mirrors view (ofResult result) (ofResult result) := by
  cases result with
  | ok value => exact pure value
  | error failure => exact throw failure

theorem bind {x : EStateM Failure (Sink (Recording MemoryTree)) α} {y : EStateM Failure (Sink τ) α}
    {f : α → EStateM Failure (Sink (Recording MemoryTree)) β} {g : α → EStateM Failure (Sink τ) β}
    (first : Mirrors view x y) (rest : ∀ value, Mirrors view (f value) (g value)) :
    Mirrors view (x >>= f) (y >>= g) := by
  intro sink
  have here := first sink
  generalize left : x sink = result at here
  generalize right : y (view.sink sink) = result' at here
  cases here with
  | ok reached accepted =>
    rw [bind_of_ok left, bind_of_ok right]
    exact (rest _ _).prepend reached accepted
  | error reached accepted =>
    rw [bind_of_error left, bind_of_error right]
    exact .error reached accepted
  | refused reached accepted refused stopped =>
    rw [bind_of_error right]
    cases result with
    | error failure behind =>
      rw [bind_of_error left]
      exact .refused reached accepted refused stopped
    | ok value behind =>
      -- the recorded step goes on, and all that it writes comes behind the refused draft
      rw [bind_of_ok left]
      obtain ⟨more, further⟩ := (rest value behind).reached
      change behind.tree = _ at reached
      rw [reached, ← Recording.after_append, List.append_assoc, List.cons_append] at further
      exact .refused further accepted refused stopped

theorem get_bind {f : Sink (Recording MemoryTree) → EStateM Failure (Sink (Recording MemoryTree)) α}
    {g : Sink τ → EStateM Failure (Sink τ) α}
    (rest : ∀ sink, Mirrors view (f sink) (g (view.sink sink))) :
    Mirrors view (get >>= f) (get >>= g) :=
  fun sink => rest sink sink

theorem save (path : String) (content : Content) :
    Mirrors view (Sink.save path content) (Sink.save path content) := by
  intro sink
  by_cases h : Path.canonical path ∈ sink.written
  · have seen : Path.canonical path ∈ (view.sink sink).written := h
    rw [Sink.save_of_mem content h, Sink.save_of_mem content seen]
    exact .ok (sink.tree.after_nil).symm (by simp)
  · have tried : Sink.save path content (view.sink sink) =
        match OutputTree.write (Path.canonical path) content (view.of sink.tree) with
        | .ok _ tree => .ok true ⟨tree, Path.canonical path :: sink.written⟩
        | .error failure tree => .error failure ⟨tree, Path.canonical path :: sink.written⟩ :=
      if_neg h
    rw [Sink.save_recording content h, tried]
    cases met : barrier (Path.canonical path) with
    | none =>
      rw [view.accepts met]
      exact .ok rfl (by simpa using met)
    | some fault =>
      have reached : sink.tree.after [(Path.canonical path, content)] =
          sink.tree.after ([] ++ (Path.canonical path, content) :: []) := rfl
      rw [view.refuses met]
      exact .refused reached (by simp) met (by rw [Recording.after_nil])

theorem saveEach (drafts : List Draft) :
    Mirrors view (Sink.saveEach drafts) (Sink.saveEach drafts) := by
  induction drafts with
  | nil => exact pure []
  | cons draft drafts ih =>
    rw [Sink.saveEach_cons, Sink.saveEach_cons]
    exact (save draft.1 draft.2).bind fun isNew => ih.bind fun answers => pure (isNew :: answers)

end Mirrors

end ConfigRecovery
