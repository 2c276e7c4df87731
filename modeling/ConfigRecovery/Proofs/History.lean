import ConfigRecovery.Proofs.Recording
import ConfigRecovery.Proofs.Save

/-!
# Histories of saves

A recorded tree behind a sink shows what a history of saves comes to. The first draft of every
canonical path is written, and no other; what the sink knows of a path is whether some spelling of
it came up before.
-/

namespace ConfigRecovery

/-! ## Drafts that reach the tree -/

theorem fresh_append (names : List String) (drafts more : List Draft) :
    fresh names (drafts ++ more) =
      fresh names drafts ++ fresh (drafts.map Draft.name ++ names) more := by
  induction drafts generalizing names with
  | nil => rfl
  | cons draft drafts ih =>
    have shifted : fresh (drafts.map Draft.name ++ draft.name :: names) more =
        fresh ((draft :: drafts).map Draft.name ++ names) more := by
      apply fresh_congr
      intro name
      simp [or_left_comm]
    rw [List.cons_append, fresh, fresh]
    by_cases h : draft.name ∈ names
    · rw [if_pos h, if_pos h, ih, List.map_cons, List.cons_append,
        fresh_cons_of_mem (List.mem_append_right _ h)]
    · rw [if_neg h, if_neg h, ih, shifted, List.cons_append]

theorem mem_map_fresh {names : List String} {drafts : List Draft} {name : String} :
    name ∈ (fresh names drafts).map (·.1) ↔ name ∈ drafts.map Draft.name ∧ name ∉ names := by
  induction drafts generalizing names with
  | nil => simp [fresh]
  | cons draft drafts ih =>
    rw [fresh, List.map_cons, List.mem_cons]
    by_cases h : draft.name ∈ names
    · rw [if_pos h, ih]
      constructor
      · rintro ⟨listed, new⟩
        exact ⟨Or.inr listed, new⟩
      · rintro ⟨rfl | listed, new⟩
        · exact (new h).elim
        · exact ⟨listed, new⟩
    · rw [if_neg h, List.map_cons, List.mem_cons, ih, List.mem_cons, not_or]
      by_cases same : name = draft.name
      · simp [same, h]
      · simp [same]

theorem nodup_map_fresh (names : List String) (drafts : List Draft) :
    ((fresh names drafts).map (·.1)).Nodup := by
  induction drafts generalizing names with
  | nil => exact List.nodup_nil
  | cons draft drafts ih =>
    rw [fresh]
    split
    · exact ih names
    · rw [List.map_cons, List.nodup_cons, mem_map_fresh]
      exact ⟨fun listed => listed.2 List.mem_cons_self, ih _⟩

/-- No draft before a place has the path of the draft there. -/
def IsFirst (drafts : List Draft) (place : Nat) : Prop :=
  ∀ earlier < place, drafts[earlier]?.map Draft.name ≠ drafts[place]?.map Draft.name

instance (drafts : List Draft) : DecidablePred (IsFirst drafts) := fun _ => Nat.decidableBallLT _ _

theorem isFirst_length (before after : List Draft) (draft : Draft) :
    IsFirst (before ++ draft :: after) before.length ↔ draft.name ∉ before.map Draft.name := by
  have there : (before ++ draft :: after)[before.length]? = some draft := by simp
  rw [IsFirst, there, List.mem_map]
  constructor
  · rintro first ⟨other, member, same⟩
    obtain ⟨i, bound, located⟩ := List.getElem_of_mem member
    apply first i bound
    rw [List.getElem?_append_left bound, List.getElem?_eq_getElem bound, located, Option.map_some,
      Option.map_some, same]
  · intro absent earlier bound same
    rw [List.getElem?_append_left bound, List.getElem?_eq_getElem bound, Option.map_some,
      Option.map_some, Option.some.injEq] at same
    exact absent ⟨before[earlier], List.getElem_mem bound, same⟩

/-- The drafts that are the first with their path, with canonical paths. -/
def firsts (drafts : List Draft) : List Draft :=
  (drafts.zipIdx.filter fun entry => IsFirst drafts entry.2).map fun entry =>
    (entry.1.name, entry.1.2)

theorem fresh_eq_firsts_from (before drafts : List Draft) :
    fresh (before.map Draft.name) drafts =
      ((drafts.zipIdx before.length).filter fun entry => IsFirst (before ++ drafts) entry.2).map
        fun entry => (entry.1.name, entry.1.2) := by
  induction drafts generalizing before with
  | nil => rfl
  | cons draft drafts ih =>
    have rest := ih (before ++ [draft])
    have names : fresh ((before ++ [draft]).map Draft.name) drafts =
        fresh (draft.name :: before.map Draft.name) drafts := by
      apply fresh_congr
      intro name
      simp [or_comm]
    rw [names, List.length_append, List.length_singleton, List.append_assoc,
      List.singleton_append] at rest
    rw [fresh, List.zipIdx_cons, List.filter_cons]
    by_cases h : draft.name ∈ before.map Draft.name
    · have first : ¬IsFirst (before ++ draft :: drafts) before.length := by
        rw [isFirst_length]
        exact fun new => new h
      rw [if_pos h, if_neg (by simpa using first), ← rest, fresh_cons_of_mem h]
    · have first : IsFirst (before ++ draft :: drafts) before.length :=
        (isFirst_length before drafts draft).mpr h
      rw [if_neg h, if_pos (by simpa using first), List.map_cons, ← rest]

theorem fresh_nil_eq_firsts (drafts : List Draft) : fresh [] drafts = firsts drafts :=
  fresh_eq_firsts_from [] drafts

theorem isFirst_take (drafts : List Draft) {place moment : Nat} (bound : place < moment) :
    IsFirst (drafts.take moment) place ↔ IsFirst drafts place := by
  rw [IsFirst, IsFirst, List.getElem?_take_of_lt bound]
  constructor
  · intro first earlier before
    rw [← List.getElem?_take_of_lt (before.trans bound)]
    exact first earlier before
  · intro first earlier before
    rw [List.getElem?_take_of_lt (before.trans bound)]
    exact first earlier before

/-! ## Histories -/

namespace Sink

/-- The sink behind a history. -/
def behind (seed : MemoryTree) (drafts : List Draft) : Sink (Recording MemoryTree) :=
  ⟨(⟨seed, []⟩ : Recording MemoryTree).after (fresh [] drafts),
    ((fresh [] drafts).map (·.1)).reverse⟩

theorem mem_written_behind {seed : MemoryTree} {drafts : List Draft} {name : String} :
    name ∈ (behind seed drafts).written ↔ name ∈ drafts.map Draft.name := by
  rw [behind, List.mem_reverse, mem_map_fresh]
  simp

theorem save_behind (seed : MemoryTree) (drafts : List Draft) (draft : Draft) :
    save draft.1 draft.2 (behind seed drafts) =
      .ok (decide (draft.name ∉ drafts.map Draft.name)) (behind seed (drafts ++ [draft])) := by
  have more : fresh [] (drafts ++ [draft]) =
      fresh [] drafts ++ if draft.name ∈ drafts.map Draft.name then []
        else [(draft.name, draft.2)] := by
    rw [fresh_append, List.append_nil]
    rfl
  by_cases h : draft.name ∈ drafts.map Draft.name
  · have same : behind seed (drafts ++ [draft]) = behind seed drafts := by
      rw [behind, more, if_pos h, List.append_nil, behind]
    rw [save_of_mem _ (mem_written_behind.mpr h), same, decide_eq_false (not_not_intro h)]
  · have new : Path.canonical draft.1 ∉ (behind seed drafts).written :=
      fun listed => h (mem_written_behind.mp listed)
    rw [save_recording _ new, decide_eq_true h]
    simp only [behind, more, if_neg h, Recording.after_append, List.map_append, List.reverse_append]
    rfl

theorem saveEach_behind (seed : MemoryTree) (before drafts : List Draft) :
    saveEach drafts (behind seed before) =
      .ok ((List.range' before.length drafts.length).map fun place =>
        decide (IsFirst (before ++ drafts) place)) (behind seed (before ++ drafts)) := by
  induction drafts generalizing before with
  | nil =>
    rw [List.append_nil]
    rfl
  | cons draft drafts ih =>
    have rest := ih (before ++ [draft])
    rw [List.append_assoc, List.singleton_append, List.length_append, List.length_singleton] at rest
    have first : decide (draft.name ∉ before.map Draft.name) =
        decide (IsFirst (before ++ draft :: drafts) before.length) :=
      decide_eq_decide.mpr (isFirst_length before drafts draft).symm
    rw [saveEach_cons, bind_of_ok (save_behind seed before draft), bind_of_ok rest, first,
      List.length_cons, List.range'_succ, List.map_cons]
    rfl

theorem saveEach_take (seed : MemoryTree) (drafts : List Draft) (moment : Nat) :
    saveEach (drafts.take moment) (behind seed []) =
      .ok (((List.range drafts.length).map fun place => decide (IsFirst drafts place)).take moment)
        (behind seed (drafts.take moment)) := by
  have front := saveEach_behind seed [] (drafts.take moment)
  have answers : (List.range (min moment drafts.length)).map (fun place =>
        decide (IsFirst (drafts.take moment) place)) =
      (List.range (min moment drafts.length)).map fun place => decide (IsFirst drafts place) := by
    apply List.map_congr_left
    intro place listed
    have bound : place < moment := by
      have := List.mem_range.mp listed
      omega
    exact decide_eq_decide.mpr (isFirst_take drafts bound)
  rw [List.nil_append, List.length_nil, ← List.range_eq_range', List.length_take, answers] at front
  rw [← List.map_take, List.take_range, front]

theorem saveEach_drop (seed : MemoryTree) (drafts : List Draft) (moment : Nat) :
    saveEach (drafts.drop moment) (behind seed (drafts.take moment)) =
      .ok (((List.range drafts.length).map fun place => decide (IsFirst drafts place)).drop moment)
        (behind seed drafts) := by
  have back := saveEach_behind seed (drafts.take moment) (drafts.drop moment)
  have places : List.range' (min moment drafts.length) (drafts.length - moment) =
      (List.range drafts.length).drop moment := by
    rw [List.range_eq_range', List.drop_range']
    by_cases short : moment ≤ drafts.length
    · rw [Nat.min_eq_left short, Nat.mul_one, Nat.zero_add]
    · rw [Nat.sub_eq_zero_of_le (by omega)]
      rfl
  rw [List.take_append_drop, List.length_take, List.length_drop, places] at back
  rw [← List.map_drop, back]

theorem foldl_put_eq (seed : MemoryTree) (names : List String) (drafts : List Draft) :
    (drafts.foldl put ⟨seed, names⟩).tree = seed.insertAll (fresh names drafts) := by
  induction drafts generalizing seed names with
  | nil => rfl
  | cons draft drafts ih =>
    rw [List.foldl_cons, put, fresh]
    by_cases h : draft.name ∈ names
    · rw [if_pos h, if_pos h, ih]
    · rw [if_neg h, if_neg h, ih]
      rfl

theorem get?_behind (seed : MemoryTree) (drafts : List Draft) (path : String) :
    (behind seed drafts).tree.tree.get? path =
      ((drafts.find? fun draft => draft.name = path).map fun draft => draft.2.encode).or
        (seed.get? path) := by
  let start : Sink MemoryTree := ⟨seed, []⟩
  have new : path ∉ start.written := List.not_mem_nil
  have kept := get?_foldl_put new drafts
  rw [foldl_put_eq] at kept
  exact kept

theorem count_behind (seed : MemoryTree) (drafts : List Draft) :
    (behind seed drafts).count = (drafts.map Draft.name).toFinset.card := by
  have same : ((fresh [] drafts).map (·.1)).toFinset = (drafts.map Draft.name).toFinset := by
    ext name
    rw [List.mem_toFinset, List.mem_toFinset, mem_map_fresh]
    simp
  have distinct := List.toFinset_card_of_nodup (nodup_map_fresh [] drafts)
  rw [count, behind, List.length_reverse, ← distinct, same]

/-- What a history of saves over a fresh sink writes, answers and remembers at every moment. -/
theorem saveEach_keeps_first (seed : MemoryTree) (drafts : List Draft) :
    let start : Sink (Recording MemoryTree) := ⟨⟨seed, []⟩, []⟩
    ∃ answers sink, saveEach drafts start = .ok answers sink ∧
      sink.tree.writes = firsts drafts ∧
      answers = (List.range drafts.length).map (fun place => decide (IsFirst drafts place)) ∧
      (∀ moment, ∃ mid, saveEach (drafts.take moment) start = .ok (answers.take moment) mid ∧
        saveEach (drafts.drop moment) mid = .ok (answers.drop moment) sink ∧
        (∀ path, mid.isWritten path = true ↔
          Path.canonical path ∈ (drafts.take moment).map Draft.name) ∧
        mid.count = ((drafts.take moment).map Draft.name).toFinset.card) ∧
      (∀ path, sink.tree.tree.get? path =
        ((drafts.find? fun draft => draft.name = path).map fun draft => draft.2.encode).or
          (seed.get? path)) ∧
      saveEach drafts (⟨seed, []⟩ : Sink MemoryTree) =
        .ok answers ⟨sink.tree.tree, sink.written⟩ := by
  intro start
  have whole := saveEach_behind seed [] drafts
  rw [List.nil_append, List.length_nil, ← List.range_eq_range'] at whole
  refine ⟨_, behind seed drafts, whole, fresh_nil_eq_firsts drafts, rfl, ?_,
    get?_behind seed drafts, ?_⟩
  · intro moment
    refine ⟨behind seed (drafts.take moment), saveEach_take seed drafts moment,
      saveEach_drop seed drafts moment, ?_, count_behind seed _⟩
    intro path
    rw [isWritten, decide_eq_true_eq, mem_written_behind]
  · have mirrored : Mirrors View.memory (saveEach drafts) (saveEach drafts) :=
      Mirrors.saveEach drafts
    have seen := mirrored (behind seed [])
    rw [whole] at seen
    exact seen.ok_of_accepted fun _ _ => rfl

end Sink

end ConfigRecovery
