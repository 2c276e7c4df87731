import ConfigRecovery.Proofs.Step
import ConfigRecovery.Store.Memory

/-!
# Saving to a tree that takes every file

Over a tree that takes every file, as a tree in memory does, a series of saves always succeeds and
its outcome is a function of the drafts: of those with one canonical path the first one is written,
and the others are only counted.
-/

namespace ConfigRecovery

/-- The canonical path of a draft. -/
def Draft.name (draft : Draft) : String := Path.canonical draft.1

/-- The drafts that reach a tree, with canonical paths, when some paths were handed to it before. -/
def fresh (before : List String) : List Draft → List Draft
  | [] => []
  | draft :: drafts =>
    if draft.name ∈ before then fresh before drafts
    else (draft.name, draft.2) :: fresh (draft.name :: before) drafts

theorem fresh_congr {a b : List String} (same : ∀ name, name ∈ a ↔ name ∈ b)
    (drafts : List Draft) : fresh a drafts = fresh b drafts := by
  induction drafts generalizing a b with
  | nil => rfl
  | cons draft drafts ih =>
    by_cases h : draft.name ∈ a
    · rw [fresh, fresh, if_pos h, if_pos ((same _).mp h), ih same]
    · rw [fresh, fresh, if_neg h, if_neg fun member => h ((same _).mpr member)]
      congr 1
      exact ih fun name => by simp [same]

theorem fresh_cons_of_mem {before : List String} {name : String} (h : name ∈ before)
    (drafts : List Draft) : fresh (name :: before) drafts = fresh before drafts := by
  apply fresh_congr
  intro other
  rw [List.mem_cons]
  exact ⟨fun member => member.elim (fun equal => equal ▸ h) id, Or.inr⟩

/-! ## The first draft of a path -/

/-- The number of names from a start on that do not stand further in front. -/
def firstCount (names : List String) (start count : Nat) : Nat :=
  (List.range' start count).countP fun place =>
    names[place]?.all fun name => name ∉ names.take place

theorem firstCount_eq (before drafts after : List Draft) :
    firstCount ((before ++ drafts ++ after).map Draft.name) before.length drafts.length =
      (fresh (before.map Draft.name) drafts).length := by
  -- a draft that was looked at joins those before, so the whole list stays what it is
  induction drafts generalizing before with
  | nil => rfl
  | cons draft drafts ih =>
    have rest := ih (before ++ [draft])
    have names : fresh ((before ++ [draft]).map Draft.name) drafts =
        fresh (draft.name :: before.map Draft.name) drafts := by
      apply fresh_congr
      intro name
      rw [List.map_append, List.map_singleton, List.mem_append, List.mem_singleton, List.mem_cons,
        or_comm]
    have here : ((before ++ [draft] ++ drafts ++ after).map Draft.name)[before.length]? =
        some draft.name := by
      simp
    have front : ((before ++ [draft] ++ drafts ++ after).map Draft.name).take before.length =
        before.map Draft.name := by
      simp
    rw [names, firstCount, List.length_append, List.length_singleton] at rest
    rw [← List.singleton_append, ← List.append_assoc before, firstCount, List.length_append,
      List.length_singleton, Nat.add_comm 1, List.range'_succ, List.countP_cons, rest, here, front,
      Option.all_some]
    by_cases h : draft.name ∈ before.map Draft.name
    · rw [if_neg (by simpa using h), fresh_cons_of_mem h, List.singleton_append, fresh, if_pos h,
        Nat.add_zero]
    · rw [if_pos (by simpa using h), List.singleton_append, fresh, if_neg h, List.length_cons]

/-- The first draft of a path reaches a tree, unless the path was handed to it before. -/
theorem filter_fresh (names : List String) (drafts : List Draft) (path : String) :
    (fresh names drafts).filter (fun draft => draft.1 = path) =
      if path ∈ names then []
      else
        ((drafts.find? fun draft => draft.name = path).map fun draft => (path, draft.2)).toList := by
  induction drafts generalizing names with
  | nil => simp [fresh]
  | cons draft drafts ih =>
    rw [fresh]
    by_cases same : draft.name = path
    · rw [List.find?_cons_of_pos (by simpa using same), same]
      by_cases seen : path ∈ names
      · rw [if_pos seen, ih, if_pos seen, if_pos seen]
      · rw [if_neg seen, List.filter_cons_of_pos (by simp), ih, if_neg seen,
          if_pos List.mem_cons_self]
        rfl
    · have shifted : path ∈ draft.name :: names ↔ path ∈ names := by
        rw [List.mem_cons, or_iff_right (Ne.symm same)]
      rw [List.find?_cons_of_neg (by simpa using same)]
      split
      · exact ih names
      · rw [List.filter_cons_of_neg (by simpa using same), ih]
        simp only [shifted]

theorem length_fresh_le (names : List String) (drafts : List Draft) :
    (fresh names drafts).length ≤ drafts.length := by
  induction drafts generalizing names with
  | nil => exact Nat.le_refl 0
  | cons draft drafts ih =>
    rw [fresh]
    split
    · exact Nat.le_succ_of_le (ih names)
    · exact Nat.succ_le_succ (ih _)

/-- All drafts reach a tree just when their paths differ from each other and from those before. -/
theorem length_fresh_eq_iff (names : List String) (drafts : List Draft) :
    (fresh names drafts).length = drafts.length ↔
      (drafts.map Draft.name).Nodup ∧ ∀ draft ∈ drafts, draft.name ∉ names := by
  induction drafts generalizing names with
  | nil => simp [fresh]
  | cons draft drafts ih =>
    rw [fresh]
    by_cases seen : draft.name ∈ names
    · have short := length_fresh_le names drafts
      rw [if_pos seen, List.length_cons]
      constructor
      · omega
      · exact fun both => (both.2 draft List.mem_cons_self seen).elim
    · rw [if_neg seen, List.length_cons, List.length_cons, Nat.add_right_cancel_iff, ih,
        List.map_cons, List.nodup_cons, List.forall_mem_cons]
      simp only [List.mem_cons, not_or, List.mem_map]
      constructor
      · rintro ⟨distinct, new⟩
        refine ⟨⟨?_, distinct⟩, seen, fun other listed => (new other listed).2⟩
        rintro ⟨other, listed, same⟩
        exact (new other listed).1 same
      · rintro ⟨⟨own, distinct⟩, -, new⟩
        refine ⟨distinct, fun other listed => ⟨?_, new other listed⟩⟩
        exact fun same => own ⟨other, listed, same⟩

theorem length_fresh_lt {names : List String} {drafts : List Draft} {draft : Draft}
    (member : draft ∈ drafts) (seen : draft.name ∈ names) :
    (fresh names drafts).length < drafts.length := by
  refine Nat.lt_of_le_of_ne (length_fresh_le names drafts) fun all => ?_
  exact ((length_fresh_eq_iff names drafts).mp all).2 draft member seen

/-! ## Saves one by one -/

namespace Sink

variable {τ : Type} [OutputTree τ] {path : String} {content : Content} {sink behind : Sink τ}

theorem save_ok {isNew : Bool} : save path content sink = .ok isNew behind ↔
    (Path.canonical path ∈ sink.written ∧ isNew = false ∧ behind = sink) ∨
      Path.canonical path ∉ sink.written ∧ isNew = true ∧
        OutputTree.write (Path.canonical path) content sink.tree = .ok () behind.tree ∧
        behind.written = Path.canonical path :: sink.written := by
  by_cases seen : Path.canonical path ∈ sink.written
  · simp [save, seen, eq_comm]
  · cases written : OutputTree.write (Path.canonical path) content sink.tree with
    | ok done tree =>
      obtain ⟨tree', names⟩ := behind
      simp [save, seen, written, eq_comm]
    | error failure tree => simp [save, seen, written]

theorem save_error {failure : Failure} : save path content sink = .error failure behind ↔
    Path.canonical path ∉ sink.written ∧
      OutputTree.write (Path.canonical path) content sink.tree = .error failure behind.tree ∧
      behind.written = Path.canonical path :: sink.written := by
  by_cases seen : Path.canonical path ∈ sink.written
  · simp [save, seen]
  · cases written : OutputTree.write (Path.canonical path) content sink.tree with
    | ok done tree => simp [save, seen, written]
    | error other tree =>
      obtain ⟨tree', names⟩ := behind
      simp [save, seen, written, and_assoc, eq_comm]

end Sink

/-- How a tree that takes every file grows, and what can be read from it. -/
structure Accepting (τ : Type) [OutputTree τ] where
  insert : τ → Draft → τ
  get? : τ → String → Option ByteArray
  write_eq : ∀ path content tree,
    OutputTree.write path content tree = .ok () (insert tree (path, content))
  get?_insert : ∀ tree draft path,
    get? (insert tree draft) path = if draft.1 = path then some draft.2.encode else get? tree path

namespace Accepting

variable {τ : Type} [OutputTree τ] (accepting : Accepting τ)

/-- The sink behind a save. -/
def put (sink : Sink τ) (draft : Draft) : Sink τ :=
  if draft.name ∈ sink.written then sink
  else ⟨accepting.insert sink.tree (draft.name, draft.2), draft.name :: sink.written⟩

variable {sink : Sink τ} {draft : Draft} {drafts : List Draft}

section

variable {accepting}

theorem put_of_mem (seen : draft.name ∈ sink.written) : accepting.put sink draft = sink :=
  if_pos seen

theorem put_of_not_mem (new : draft.name ∉ sink.written) : accepting.put sink draft =
    ⟨accepting.insert sink.tree (draft.name, draft.2), draft.name :: sink.written⟩ :=
  if_neg new

theorem written_put_of_not_mem (new : draft.name ∉ sink.written) :
    (accepting.put sink draft).written = draft.name :: sink.written := by
  rw [put_of_not_mem new]

theorem mem_written_put {name : String} :
    name ∈ (accepting.put sink draft).written ↔ name = draft.name ∨ name ∈ sink.written := by
  by_cases seen : draft.name ∈ sink.written
  · rw [put_of_mem seen]
    exact ⟨Or.inr, fun either => either.elim (fun same => same ▸ seen) id⟩
  · rw [written_put_of_not_mem seen, List.mem_cons]

theorem get?_put {path : String} : accepting.get? (accepting.put sink draft).tree path =
    if draft.name = path ∧ path ∉ sink.written then some draft.2.encode
    else accepting.get? sink.tree path := by
  by_cases seen : draft.name ∈ sink.written
  · rw [put_of_mem seen, if_neg]
    rintro ⟨rfl, absent⟩
    exact absent seen
  · rw [put_of_not_mem seen, accepting.get?_insert]
    by_cases same : draft.name = path
    · rw [if_pos same, if_pos ⟨same, same ▸ seen⟩]
    · rw [if_neg same, if_neg fun both => same both.1]

end

theorem save_eq (draft : Draft) (sink : Sink τ) : Sink.save draft.1 draft.2 sink =
    .ok (decide (draft.name ∉ sink.written)) (accepting.put sink draft) := by
  by_cases seen : draft.name ∈ sink.written
  · rw [put_of_mem seen, decide_eq_false (not_not_intro seen)]
    exact if_pos seen
  · rw [put_of_not_mem seen, decide_eq_true seen]
    refine (if_neg seen).trans ?_
    rw [accepting.write_eq]
    rfl

/-! ## Series of saves -/

theorem mem_written_foldl_put {name : String} :
    name ∈ (drafts.foldl accepting.put sink).written ↔
      name ∈ drafts.map Draft.name ∨ name ∈ sink.written := by
  induction drafts generalizing sink with
  | nil => simp
  | cons draft drafts ih =>
    rw [List.foldl_cons, ih, mem_written_put, List.map_cons, List.mem_cons, or_left_comm, or_assoc]

theorem get?_foldl_put_of_written {path : String} (seen : path ∈ sink.written) :
    accepting.get? (drafts.foldl accepting.put sink).tree path = accepting.get? sink.tree path := by
  induction drafts generalizing sink with
  | nil => rfl
  | cons draft drafts ih =>
    rw [List.foldl_cons, ih (mem_written_put.mpr (Or.inr seen)), get?_put]
    exact if_neg fun both => both.2 seen

/-- A path that was not handed on before gets the content of its first draft. -/
theorem get?_foldl_put {path : String} (new : path ∉ sink.written) :
    accepting.get? (drafts.foldl accepting.put sink).tree path =
      ((drafts.find? fun draft => draft.name = path).map fun draft => draft.2.encode).or
        (accepting.get? sink.tree path) := by
  induction drafts generalizing sink with
  | nil => rfl
  | cons draft drafts ih =>
    rw [List.foldl_cons]
    by_cases same : draft.name = path
    · rw [get?_foldl_put_of_written _ (mem_written_put.mpr (Or.inl same.symm)), get?_put,
        if_pos ⟨same, new⟩, List.find?_cons_of_pos (by simpa using same)]
      rfl
    · have absent : path ∉ (accepting.put sink draft).written := by
        rw [mem_written_put]
        rintro (equal | member)
        · exact same equal.symm
        · exact new member
      rw [ih absent, get?_put, if_neg fun both => same both.1,
        List.find?_cons_of_neg (by simpa using same)]

theorem tree_foldl_put : (drafts.foldl accepting.put sink).tree =
    (fresh sink.written drafts).foldl accepting.insert sink.tree := by
  induction drafts generalizing sink with
  | nil => rfl
  | cons draft drafts ih =>
    rw [List.foldl_cons, ih, fresh]
    by_cases seen : draft.name ∈ sink.written
    · rw [put_of_mem seen, if_pos seen]
    · rw [put_of_not_mem seen, if_neg seen]
      rfl

theorem saveAll_eq (drafts : List Draft) (sink : Sink τ) :
    ∃ skipped, saveAll drafts sink =
        .ok ((fresh sink.written drafts).length, skipped) (drafts.foldl accepting.put sink) ∧
      (fresh sink.written drafts).length + skipped = drafts.length := by
  induction drafts generalizing sink with
  | nil => exact ⟨0, rfl, rfl⟩
  | cons draft drafts ih =>
    obtain ⟨path, content⟩ := draft
    obtain ⟨skipped, saved, total⟩ := ih (accepting.put sink (path, content))
    have first := accepting.save_eq (path, content) sink
    rw [saveAll, bind_of_ok first, bind_of_ok saved, List.foldl_cons, fresh]
    by_cases seen : Draft.name (path, content) ∈ sink.written
    · rw [put_of_mem seen] at total ⊢
      refine ⟨skipped + 1, ?_, ?_⟩
      · simp [seen, pure, EStateM.pure]
      · rw [if_pos seen, List.length_cons]
        omega
    · rw [written_put_of_not_mem seen] at total ⊢
      refine ⟨skipped, ?_, ?_⟩
      · simp [seen, pure, EStateM.pure]
      · rw [if_neg seen, List.length_cons, List.length_cons]
        omega

end Accepting

/-! ## Saves in memory -/

@[simp]
theorem MemoryTree.get?_insert (tree : MemoryTree) (path other : String) (bytes : ByteArray) :
    (tree.insert path bytes).get? other = if path = other then some bytes else tree.get? other := by
  simp [MemoryTree.insert, MemoryTree.get?, Std.ExtTreeMap.getElem?_insert]

def Accepting.memory : Accepting MemoryTree where
  insert tree draft := tree.insert draft.1 draft.2.encode
  get? := MemoryTree.get?
  write_eq _ _ _ := rfl
  get?_insert tree draft path := tree.get?_insert draft.1 path draft.2.encode

namespace Sink

/-- The sink behind a save. -/
def put (sink : Sink MemoryTree) (draft : Draft) : Sink MemoryTree :=
  if draft.name ∈ sink.written then sink
  else ⟨sink.tree.insert draft.name draft.2.encode, draft.name :: sink.written⟩

theorem save_memory (draft : Draft) (sink : Sink MemoryTree) :
    save draft.1 draft.2 sink = .ok (decide (draft.name ∉ sink.written)) (sink.put draft) :=
  Accepting.memory.save_eq draft sink

theorem mem_written_foldl_put {drafts : List Draft} {sink : Sink MemoryTree} {name : String} :
    name ∈ (drafts.foldl put sink).written ↔
      name ∈ drafts.map Draft.name ∨ name ∈ sink.written :=
  Accepting.memory.mem_written_foldl_put

theorem get?_foldl_put {sink : Sink MemoryTree} {path : String} (h : path ∉ sink.written)
    (drafts : List Draft) :
    (drafts.foldl put sink).tree.get? path =
      ((drafts.find? fun draft => draft.name = path).map fun draft => draft.2.encode).or
        (sink.tree.get? path) :=
  Accepting.memory.get?_foldl_put h

end Sink

end ConfigRecovery
