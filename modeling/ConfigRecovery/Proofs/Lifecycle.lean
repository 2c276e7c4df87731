import ConfigRecovery.Proofs.Save
import ConfigRecovery.Proofs.Script

/-!
# One run per recovery

The first run decides the stage of a recovery for good: all later runs are refused and touch
nothing. A run that fails wraps the failure of its own work once. Only what comes from outside, from
the tree or from the reader of the program, can be wrapped already, and then it is not wrapped again.
-/

namespace ConfigRecovery

/-! ## Where failures come from -/

section

variable {τ : Type} [OutputTree τ]

/-- A sink behind some saves that succeeded. -/
inductive Sink.Reached (start : Sink τ) : Sink τ → Prop where
  | start : Reached start start
  | save {mid behind : Sink τ} {path : String} {content : Content} {isNew : Bool}
      (reached : Reached start mid) (saved : Sink.save path content mid = .ok isNew behind) :
      Reached start behind

theorem Sink.Reached.trans {start mid behind : Sink τ} (first : start.Reached mid)
    (rest : mid.Reached behind) : start.Reached behind := by
  induction rest with
  | start => exact first
  | save _ saved ih => exact ih.save saved

/-- A failure that a tree answers with, to a save or to a listing of its files. -/
inductive Sink.Answers (start : Sink τ) (failure : Failure) (behind : Sink τ) : Prop where
  | write {before : Sink τ} {path : String} {content : Content} (reached : start.Reached before)
      (written : behind.written = path :: before.written)
      (failed : OutputTree.write path content before.tree = .error failure behind.tree)
  | files (reached : start.Reached behind) (failed : OutputTree.files behind.tree = .error failure)

theorem Sink.Answers.prepend {start mid behind : Sink τ} {failure : Failure}
    (first : start.Reached mid) (answered : mid.Answers failure behind) :
    start.Answers failure behind := by
  cases answered with
  | write reached written failed => exact .write (first.trans reached) written failed
  | files reached failed => exact .files (first.trans reached) failed

variable {raises : Failure → Prop} {α : Type}

/-- What a step leads to that comes up with some failures of its own. -/
inductive Ends (raises : Failure → Prop) (start : Sink τ) :
    EStateM.Result Failure (Sink τ) α → Prop where
  | value {value : α} {behind : Sink τ} (reached : start.Reached behind) :
      Ends raises start (.ok value behind)
  | raised {failure : Failure} {behind : Sink τ} (own : raises failure) :
      Ends raises start (.error failure behind)
  | answered {failure : Failure} {behind : Sink τ} (answered : start.Answers failure behind) :
      Ends raises start (.error failure behind)

theorem Ends.prepend {start mid : Sink τ} {result : EStateM.Result Failure (Sink τ) α}
    (first : start.Reached mid) (ends : Ends raises mid result) : Ends raises start result := by
  cases ends with
  | value reached => exact .value (first.trans reached)
  | raised own => exact .raised own
  | answered answered => exact .answered (answered.prepend first)

theorem Script.ends {settings : Settings} (script : Script settings raises α) (start : Sink τ) :
    Ends raises start (script.run start) := by
  induction script generalizing start with
  | done value => exact .value .start
  | fail failure own => exact .raised own
  | save draft next ih =>
    rw [Script.run]
    cases saved : Sink.save draft.1 draft.2 start with
    | ok isNew mid =>
      rw [bind_of_ok saved]
      exact (ih isNew mid).prepend (Sink.Reached.start.save saved)
    | error failure behind =>
      obtain ⟨-, failed, written⟩ := Sink.save_error.mp saved
      rw [bind_of_error saved]
      exact .answered (.write .start written failed)
  | index next ih =>
    change Ends raises start ((ofResult (OutputTree.files start.tree) >>= _) start)
    cases listed : OutputTree.files start.tree with
    | ok files => exact ih _ start
    | error failure => exact .answered (.files .start listed)

end

/-! ## Histories of calls -/

/-- A call of a recovery. Every run may have a sink of its own, over any kind of tree. -/
inductive Call : Type 1 where
  | manifest (text : String)
  | service (text : String)
  | game (isGame : Bool)
  | run {τ : Type} [OutputTree τ] (source : LiteralSource) (sink : Sink τ)

def Call.isRun : Call → Bool
  | @run .. => true
  | _ => false

namespace Recovery

/-- The recovery behind a call. -/
def perform (recovery : Recovery) : Call → Recovery
  | .manifest text => recovery.setManifest text
  | .service text => recovery.setService text
  | .game isGame => recovery.setGame isGame
  | @Call.run _ _ source sink => (recovery.run source sink).recovery

def performAll (recovery : Recovery) (calls : List Call) : Recovery := calls.foldl perform recovery

variable {recovery : Recovery}

theorem stage_perform_of_setting {call : Call} (setting : call.isRun = false) :
    (recovery.perform call).stage = recovery.stage := by
  cases call with
  | run source sink => cases setting
  | _ => rfl

theorem stage_perform_of_spent (spent : recovery.stage ≠ .idle) (call : Call) :
    (recovery.perform call).stage = recovery.stage := by
  cases call with
  | run source sink => rw [perform, run_of_not_idle spent]
  | _ => rfl

theorem stage_performAll_of_settings {calls : List Call}
    (settings : ∀ call ∈ calls, call.isRun = false) :
    (recovery.performAll calls).stage = recovery.stage := by
  induction calls generalizing recovery with
  | nil => rfl
  | cons call calls ih =>
    obtain ⟨first, rest⟩ := List.forall_mem_cons.mp settings
    exact (ih rest).trans (stage_perform_of_setting first)

theorem stage_performAll_of_spent (spent : recovery.stage ≠ .idle) (calls : List Call) :
    (recovery.performAll calls).stage = recovery.stage := by
  induction calls generalizing recovery with
  | nil => rfl
  | cons call calls ih =>
    have same := stage_perform_of_spent spent call
    exact (ih (same ▸ spent)).trans same

variable {τ : Type} [OutputTree τ]

theorem stage_run (idle : recovery.stage = .idle) (source : LiteralSource) (sink : Sink τ) :
    let outcome := recovery.run source sink
    outcome.recovery.stage = if outcome.result.isOk then .done else .failed := by
  intro outcome
  have eq : outcome = _ := run_of_idle idle source sink
  rw [eq]
  cases recovery.work source sink with
  | ok summary behind => rfl
  | error failure behind => rfl

theorem run_error {source : LiteralSource} {sink : Sink τ} {failure : Failure}
    (idle : recovery.stage = .idle) (failed : (recovery.run source sink).result = .error failure) :
    ∃ own, recovery.work source sink = .error own (recovery.run source sink).sink ∧
      failure = own.abort := by
  rw [run_of_idle idle] at failed ⊢
  cases worked : recovery.work source sink with
  | ok summary behind =>
    rw [worked] at failed
    cases failed
  | error own behind =>
    rw [worked] at failed
    exact ⟨own, rfl, (Except.error.inj failed).symm⟩

/--
Until the first run a recovery is idle, whatever is set. The first run decides the stage, and every
later run is refused without a wrapping and leaves the recovery and its own sink as they are. The
first run fails with the failure of its work, wrapped once; only if the reader of the program or the
tree gave a failure that was wrapped already, it is that one.
-/
theorem run_once (settings : Settings) {before : List Call}
    (unrun : ∀ call ∈ before, call.isRun = false) (source : LiteralSource) (sink : Sink τ)
    (later : List Call) :
    let ready := ({ settings } : Recovery).performAll before
    let outcome := ready.run source sink
    let spent := ({ settings } : Recovery).performAll (before ++ .run source sink :: later)
    ready.stage = .idle ∧ spent.stage = (if outcome.result.isOk then .done else .failed) ∧
    (∀ (τ' : Type) [OutputTree τ'] (source' : LiteralSource) (sink' : Sink τ'),
      spent.run source' sink' = ⟨.error .alreadyRun, spent, sink'⟩) ∧
    outcome.result ≠ .error .alreadyRun ∧
    ∀ failure, outcome.result = .error failure → ∃ own,
      ready.work source sink = .error own outcome.sink ∧
      (own.isFatal = false ∧ failure = .aborted own ∨
        own.isFatal = true ∧ failure = own ∧
          ((∃ reader service, source = .program reader ∧ ready.service = some service ∧
              reader service = .error own) ∨
            sink.Answers own outcome.sink)) := by
  intro ready outcome spent
  have idle : ready.stage = .idle := stage_performAll_of_settings unrun
  have decided : spent.stage = (if outcome.result.isOk then .done else .failed) := by
    have split : spent = outcome.recovery.performAll later := by
      simp [spent, performAll, List.foldl_append, perform, outcome, ready]
    have ran := stage_run idle source sink
    have started : outcome.recovery.stage ≠ .idle := by
      rw [ran]
      split <;> exact nofun
    rw [split, stage_performAll_of_spent started, ran]
  have finished : spent.stage ≠ .idle := by
    rw [decided]
    split <;> exact nofun
  refine ⟨idle, decided, fun τ' _ source' sink' => run_of_not_idle finished source' sink', ?_, ?_⟩
  · intro refused
    obtain ⟨own, -, wrapped⟩ := run_error idle refused
    cases own <;> cases wrapped
  · intro failure failed
    obtain ⟨own, worked, rfl⟩ := run_error idle failed
    refine ⟨own, worked, ?_⟩
    obtain ⟨script, runs⟩ := work_eq_run ready source
    have ends := script.ends sink
    rw [← runs τ, worked] at ends
    cases fatal : own.isFatal with
    | false =>
      left
      cases own with
      | aborted cause => cases fatal
      | _ => exact ⟨rfl, rfl⟩
    | true =>
      right
      refine ⟨rfl, ?_, ?_⟩
      · cases own with
        | aborted cause => rfl
        | _ => cases fatal
      · cases ends with
        | raised own =>
          obtain unwrapped | read := own
          · cases fatal.symm.trans unwrapped
          · exact .inl read
        | answered answered => exact .inr answered

/-- A reader's failure that is wrapped already ends the run, and settings do not revive it. -/
theorem run_once_wrapped :
    let before : List Call := [.manifest "\x7b\"pages\":[\"a\"]\x7d", .service "s"]
    let reader : ProgramReader := fun _ => .error (.aborted (.internal "broken"))
    let sink : Sink MemoryTree := ⟨.empty, []⟩
    let ready := ({} : Recovery).performAll before
    let outcome := ready.run (.program reader) sink
    let spent := ({} : Recovery).performAll (before ++ [.run (.program reader) sink, .game true])
    (∀ call ∈ before, call.isRun = false) ∧
      outcome.result = .error (.aborted (.internal "broken")) ∧ spent.stage = .failed ∧
      spent.run (.stream []) outcome.sink = ⟨.error .alreadyRun, spent, outcome.sink⟩ := by
  intro before reader sink ready outcome spent
  have unrun : ∀ call ∈ before, call.isRun = false := by
    simp [before, Call.isRun]
  have parsed : Manifest.ofSource "\x7b\"pages\":[\"a\"]\x7d" .truthy =
      .ok ⟨[("pages", .array [.string "a"])], .truthy⟩ := by
    cbv
  have failed : outcome.result = .error (.aborted (.internal "broken")) := by
    simp only [outcome, ready, before, reader, performAll, List.foldl, perform, setManifest,
      setService, run, work, writeApp, assemble, parsed]
    cbv
  obtain ⟨-, decided, refused, -, -⟩ :=
    run_once {} unrun (.program reader) sink [.game true]
  refine ⟨unrun, failed, ?_, refused MemoryTree (.stream []) outcome.sink⟩
  rw [decided, failed]
  rfl

end Recovery

end ConfigRecovery
