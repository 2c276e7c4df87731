import ConfigRecovery.Proofs.History

/-!
# Saves that fail

A sink keeps a path from the moment when the path is handed to the tree. So a save that fails counts
like one that succeeds: the path is never handed on again, even if the tree would take it later. A
history in which no save fails is the only kind in which the record says what was written.
-/

namespace ConfigRecovery

/-- A save, and what happens to the tree before it. -/
structure Attempt (τ : Type) where
  meanwhile : τ → τ := id
  draft : Draft

namespace Sink

variable {τ : Type} [OutputTree τ]

/-- A sink that nothing was handed to. -/
abbrev blank {τ : Type} (tree : τ) : Sink τ := ⟨tree, []⟩

/-- The answer of a save and the sink behind it, whether or not the tree takes the file. -/
def attempt (sink : Sink τ) (attempt : Attempt τ) : Except Failure Bool × Sink τ :=
  match save attempt.draft.1 attempt.draft.2 ⟨attempt.meanwhile sink.tree, sink.written⟩ with
  | .ok isNew behind => (.ok isNew, behind)
  | .error failure behind => (.error failure, behind)

/-- Saves one after the other; a failure does not keep the next save from being tried. -/
def attemptAll (sink : Sink τ) : List (Attempt τ) → List (Except Failure Bool) × Sink τ
  | [] => ([], sink)
  | attempt :: attempts =>
    let first := sink.attempt attempt
    let rest := first.2.attemptAll attempts
    (first.1 :: rest.1, rest.2)

/-! ## One save -/

variable {sink : Sink τ} {attempt : Attempt τ}

theorem attempt_of_mem (seen : attempt.draft.name ∈ sink.written) :
    sink.attempt attempt = (.ok false, ⟨attempt.meanwhile sink.tree, sink.written⟩) := by
  have skipped : save attempt.draft.1 attempt.draft.2
      ⟨attempt.meanwhile sink.tree, sink.written⟩ = .ok false _ := save_of_mem _ seen
  rw [Sink.attempt, skipped]

theorem attempt_of_taken (new : attempt.draft.name ∉ sink.written) {tree : τ}
    (taken : OutputTree.write attempt.draft.name attempt.draft.2 (attempt.meanwhile sink.tree) =
      .ok () tree) :
    sink.attempt attempt = (.ok true, ⟨tree, attempt.draft.name :: sink.written⟩) := by
  have saved : save attempt.draft.1 attempt.draft.2 ⟨attempt.meanwhile sink.tree, sink.written⟩ =
      .ok true ⟨tree, attempt.draft.name :: sink.written⟩ := by
    change Path.canonical attempt.draft.1 ∉ sink.written at new
    change OutputTree.write (Path.canonical attempt.draft.1) _ _ = _ at taken
    simp only [save, if_neg new, taken]
    rfl
  rw [Sink.attempt, saved]

theorem attempt_of_failed (new : attempt.draft.name ∉ sink.written) {failure : Failure} {tree : τ}
    (failed : OutputTree.write attempt.draft.name attempt.draft.2 (attempt.meanwhile sink.tree) =
      .error failure tree) :
    sink.attempt attempt = (.error failure, ⟨tree, attempt.draft.name :: sink.written⟩) := by
  have saved : save attempt.draft.1 attempt.draft.2 ⟨attempt.meanwhile sink.tree, sink.written⟩ =
      .error failure ⟨tree, attempt.draft.name :: sink.written⟩ := by
    change Path.canonical attempt.draft.1 ∉ sink.written at new
    change OutputTree.write (Path.canonical attempt.draft.1) _ _ = _ at failed
    simp only [save, if_neg new, failed]
    rfl
  rw [Sink.attempt, saved]

theorem written_attempt_of_not_mem (new : attempt.draft.name ∉ sink.written) :
    (sink.attempt attempt).2.written = attempt.draft.name :: sink.written := by
  cases tried : OutputTree.write attempt.draft.name attempt.draft.2
    (attempt.meanwhile sink.tree) with
  | ok _ tree => rw [attempt_of_taken new tried]
  | error failure tree => rw [attempt_of_failed new tried]

theorem mem_written_attempt {name : String} :
    name ∈ (sink.attempt attempt).2.written ↔ name = attempt.draft.name ∨ name ∈ sink.written := by
  by_cases seen : attempt.draft.name ∈ sink.written
  · rw [attempt_of_mem seen]
    exact ⟨Or.inr, fun either => either.elim (fun same => same ▸ seen) id⟩
  · rw [written_attempt_of_not_mem seen, List.mem_cons]

theorem nodup_written_attempt (distinct : sink.written.Nodup) :
    (sink.attempt attempt).2.written.Nodup := by
  by_cases seen : attempt.draft.name ∈ sink.written
  · rwa [attempt_of_mem seen]
  · rw [written_attempt_of_not_mem seen]
    exact List.nodup_cons.mpr ⟨seen, distinct⟩

/-- Only a path that was not seen before is answered with a failure or with a write. -/
theorem answer_eq_false_iff : (sink.attempt attempt).1 = .ok false ↔
    attempt.draft.name ∈ sink.written := by
  constructor
  · intro skipped
    by_contra new
    cases tried : OutputTree.write attempt.draft.name attempt.draft.2
      (attempt.meanwhile sink.tree) with
    | ok _ tree =>
      rw [attempt_of_taken new tried] at skipped
      cases skipped
    | error failure tree =>
      rw [attempt_of_failed new tried] at skipped
      cases skipped
  · intro seen
    rw [attempt_of_mem seen]

/-! ## Histories -/

variable {attempts : List (Attempt τ)} {place : Nat}

def Attempt.names (attempts : List (Attempt τ)) : List String :=
  attempts.map fun attempt => attempt.draft.name

theorem length_attemptAll : (sink.attemptAll attempts).1.length = attempts.length := by
  induction attempts generalizing sink with
  | nil => rfl
  | cons attempt attempts ih => exact congrArg (· + 1) ih

theorem mem_written_attemptAll {name : String} : name ∈ (sink.attemptAll attempts).2.written ↔
    name ∈ Attempt.names attempts ∨ name ∈ sink.written := by
  induction attempts generalizing sink with
  | nil => simp [attemptAll, Attempt.names]
  | cons attempt attempts ih =>
    rw [attemptAll, ih, mem_written_attempt, Attempt.names, Attempt.names, List.map_cons,
      List.mem_cons, or_left_comm, or_assoc]

theorem nodup_written_attemptAll (distinct : sink.written.Nodup) :
    (sink.attemptAll attempts).2.written.Nodup := by
  induction attempts generalizing sink with
  | nil => exact distinct
  | cons attempt attempts ih => exact ih (nodup_written_attempt distinct)

theorem attemptAll_at (sink : Sink τ) (here : attempts[place]? = some attempt) :
    let before := (sink.attemptAll (attempts.take place)).2
    (sink.attemptAll attempts).1[place]? = some (before.attempt attempt).1 ∧
      (sink.attemptAll (attempts.take (place + 1))).2 = (before.attempt attempt).2 := by
  induction attempts generalizing sink place with
  | nil => cases here
  | cons first attempts ih =>
    cases place with
    | zero =>
      cases here
      exact ⟨rfl, rfl⟩
    | succ place => exact ih _ here

/-! ## What a record should say -/

/-- A save of a name before some moment was answered with a write. -/
def Wrote (sink : Sink τ) (attempts : List (Attempt τ)) (moment : Nat) (name : String) : Prop :=
  ∃ place < moment, (Attempt.names attempts)[place]? = some name ∧
    (sink.attemptAll attempts).1[place]? = some (.ok true)

/-- What a sink would do in a history if it took a path down only when the tree took the file. -/
structure Faithful (sink : Sink τ) (attempts : List (Attempt τ)) : Prop where
  recorded : ∀ moment path, (sink.attemptAll (attempts.take moment)).2.isWritten path = true →
    sink.Wrote attempts moment (Path.canonical path)
  skipped : ∀ place attempt, attempts[place]? = some attempt →
    (sink.attemptAll attempts).1[place]? = some (.ok false) →
      sink.Wrote attempts place attempt.draft.name
  unchanged : ∀ place failure, (sink.attemptAll attempts).1[place]? = some (.error failure) →
    (sink.attemptAll (attempts.take (place + 1))).2.written =
      (sink.attemptAll (attempts.take place)).2.written
  repeated : ∀ place attempt tree, attempts[place]? = some attempt →
    ¬sink.Wrote attempts place attempt.draft.name →
    OutputTree.write attempt.draft.name attempt.draft.2
        (attempt.meanwhile (sink.attemptAll (attempts.take place)).2.tree) = .ok () tree →
      (sink.attemptAll attempts).1[place]? = some (.ok true) ∧
        (sink.attemptAll (attempts.take (place + 1))).2.tree = tree

section

variable {tree : τ}

theorem mem_written_fresh {name : String} :
    name ∈ ((blank tree).attemptAll attempts).2.written ↔
      name ∈ Attempt.names attempts := by
  rw [mem_written_attemptAll, or_iff_left List.not_mem_nil]

theorem answer_fresh_eq_false_iff (tree : τ) (here : attempts[place]? = some attempt) :
    ((blank tree).attemptAll attempts).1[place]? = some (.ok false) ↔
      attempt.draft.name ∈ Attempt.names (attempts.take place) := by
  rw [(attemptAll_at _ here).1, Option.some.injEq, answer_eq_false_iff, mem_written_fresh]

theorem written_of_failed (here : attempts[place]? = some attempt) {failure : Failure}
    (failed : ((blank tree).attemptAll attempts).1[place]? = some (.error failure)) :
    ((blank tree).attemptAll (attempts.take (place + 1))).2.written =
      attempt.draft.name :: ((blank tree).attemptAll (attempts.take place)).2.written := by
  obtain ⟨answer, behind⟩ := attemptAll_at (blank tree) here
  rw [behind, written_attempt_of_not_mem]
  intro seen
  rw [answer, answer_eq_false_iff.mpr seen] at failed
  cases failed

theorem wrote_of_mem
    (succeeded : ∀ failure, .error failure ∉ ((blank tree).attemptAll attempts).1)
    {moment : Nat} {name : String} (tried : name ∈ Attempt.names (attempts.take moment)) :
    (blank tree).Wrote attempts moment name := by
  induction moment with
  | zero => cases tried
  | succ moment ih =>
    by_cases before : name ∈ Attempt.names (attempts.take moment)
    · obtain ⟨place, bound, named, wrote⟩ := ih before
      exact ⟨place, Nat.lt_succ_of_lt bound, named, wrote⟩
    · cases here : attempts[moment]? with
      | none =>
        rw [List.take_add_one, here, Option.toList_none, List.append_nil] at tried
        exact (before tried).elim
      | some attempt =>
        rw [List.take_add_one, here, Option.toList_some, Attempt.names, List.map_append,
          List.map_singleton, List.mem_append, List.mem_singleton] at tried
        obtain rfl := tried.resolve_left before
        have named : (Attempt.names attempts)[moment]? = some attempt.draft.name := by
          rw [Attempt.names, List.getElem?_map, here, Option.map_some]
        refine ⟨moment, Nat.lt_succ_self moment, named, ?_⟩
        have new := (answer_fresh_eq_false_iff tree here).not.mpr before
        cases answer : ((blank tree).attemptAll attempts).1[moment]? with
        | none =>
          rw [List.getElem?_eq_none_iff, length_attemptAll, ← List.getElem?_eq_none_iff,
            here] at answer
          cases answer
        | some result =>
          rw [answer] at new
          cases result with
          | error failure => exact (succeeded failure (List.mem_of_getElem? answer)).elim
          | ok isNew =>
            cases isNew with
            | false => exact (new rfl).elim
            | true => rfl

theorem faithful_iff : (blank tree).Faithful attempts ↔
    ∀ failure, .error failure ∉ ((blank tree).attemptAll attempts).1 := by
  constructor
  · intro faithful failure member
    obtain ⟨place, bound, answer⟩ := List.getElem_of_mem member
    have failed := List.getElem?_eq_some_iff.mpr ⟨bound, answer⟩
    rw [length_attemptAll] at bound
    have kept := faithful.unchanged place failure failed
    rw [written_of_failed (List.getElem?_eq_getElem bound) failed] at kept
    exact List.cons_ne_self _ _ kept
  · intro succeeded
    constructor
    · intro moment path written
      rw [isWritten, decide_eq_true_eq, mem_written_fresh] at written
      exact wrote_of_mem succeeded written
    · intro place attempt here skipped
      exact wrote_of_mem succeeded ((answer_fresh_eq_false_iff tree here).mp skipped)
    · intro place failure failed
      exact (succeeded failure (List.mem_of_getElem? failed)).elim
    · intro place attempt next here unwritten taken
      have new : attempt.draft.name ∉
          ((blank tree).attemptAll (attempts.take place)).2.written :=
        fun seen => unwritten (wrote_of_mem succeeded (mem_written_fresh.mp seen))
      obtain ⟨answer, behind⟩ := attemptAll_at (blank tree) here
      rw [answer, behind, attempt_of_taken new taken]
      exact ⟨rfl, rfl⟩

end

/--
A path counts as written as soon as a save of it was tried, and only the first save of a path
reaches the tree. A save that fails leaves its path in the record, so the record says what was
written just in those histories in which no save fails.
-/
theorem attemptAll_records (tree : τ) (attempts : List (Attempt τ)) :
    let start := blank tree
    let answers := (start.attemptAll attempts).1
    let reached := fun moment => (start.attemptAll (attempts.take moment)).2
    (∀ moment path, (reached moment).isWritten path = true ↔
      Path.canonical path ∈ Attempt.names (attempts.take moment)) ∧
    (∀ moment, (reached moment).count = (Attempt.names (attempts.take moment)).toFinset.card) ∧
    (∀ place attempt, attempts[place]? = some attempt →
      (answers[place]? = some (.ok false) ↔
        attempt.draft.name ∈ Attempt.names (attempts.take place)) ∧
      (attempt.draft.name ∈ Attempt.names (attempts.take place) →
        reached (place + 1) = ⟨attempt.meanwhile (reached place).tree, (reached place).written⟩) ∧
      ∀ failure, answers[place]? = some (.error failure) →
        (reached (place + 1)).written = attempt.draft.name :: (reached place).written) ∧
    (start.Faithful attempts ↔ ∀ failure, .error failure ∉ answers) := by
  intro start answers reached
  refine ⟨?_, ?_, ?_, faithful_iff⟩
  · intro moment path
    rw [isWritten, decide_eq_true_eq, mem_written_fresh]
  · intro moment
    have distinct : (reached moment).written.Nodup := nodup_written_attemptAll List.nodup_nil
    rw [count, ← List.toFinset_card_of_nodup distinct]
    congr 1
    ext name
    rw [List.mem_toFinset, List.mem_toFinset, mem_written_fresh]
  · intro place attempt here
    refine ⟨answer_fresh_eq_false_iff tree here, ?_, fun failure => written_of_failed here⟩
    intro seen
    have behind := (attemptAll_at start here).2
    rw [attempt_of_mem (mem_written_fresh.mpr seen)] at behind
    exact behind

/-- A tree refuses a file at first and would take it later, but is not asked again. -/
theorem attemptAll_refused_once :
    let refusing : Refusing MemoryTree := { tree := .empty, refused := ["a.json"] }
    let attempts : List (Attempt (Refusing MemoryTree)) :=
      [{ draft := ("a.json", .text "x") },
        { meanwhile := fun tree => { tree with refused := [] }, draft := ("./a.json", .text "x") }]
    let start := blank refusing
    (start.attemptAll attempts).1 =
      [.error (.fileWrite "a.json" (.custom "refused")), .ok false] ∧
    (start.attemptAll attempts).2.isWritten "a.json" = true ∧
    (start.attemptAll attempts).2.count = 1 ∧
    (start.attemptAll attempts).2.tree.tree.files = [] ∧
    ¬start.Faithful attempts := by
  intro refusing attempts start
  have answers : (start.attemptAll attempts).1 =
      [.error (.fileWrite "a.json" (.custom "refused")), .ok false] := by
    rfl
  refine ⟨answers, rfl, rfl, rfl, ?_⟩
  rw [faithful_iff, answers]
  exact fun succeeded => succeeded _ List.mem_cons_self

end Sink

end ConfigRecovery
