import ConfigRecovery.Proofs.Output
import ConfigRecovery.Proofs.Script

/-!
# Runs with refused writes

A run over a tree that refuses some paths is compared with the run over a tree that takes them all.
The two are the same up to the first write that is refused, and there the former ends: nothing that
comes later in the latter is written. What is wrong with a manifest comes up before anything but the
file of the extension platform is written.
-/

namespace ConfigRecovery

/-! ## What a recorded run fails with -/

section

variable {settings : Settings} {sink behind : Sink (Recording MemoryTree)} {failure : Failure}

theorem Sink.save_succeeds (path : String) (content : Content)
    (sink : Sink (Recording MemoryTree)) : ∃ isNew behind, Sink.save path content sink = .ok isNew behind := by
  by_cases h : Path.canonical path ∈ sink.written
  · exact ⟨false, sink, save_of_mem content h⟩
  · exact ⟨true, _, save_recording content h⟩

theorem merge_succeeds (table : PageTable) (literals : List Literal)
    (sink : Sink (Recording MemoryTree)) :
    ∃ counts behind, merge table literals sink = .ok counts behind := by
  obtain ⟨counts, merged, -⟩ := merge_memory table literals (View.memory.sink sink)
  have scripted : Scripted {} (fun _ => False) (fun _ _ => merge table literals) :=
    .merge table literals
  have here := scripted.mirrors View.memory sink
  rw [merged] at here
  cases result : merge table literals sink with
  | ok counts behind => exact ⟨counts, behind, rfl⟩
  | error failure behind =>
    rw [result] at here
    cases here

theorem linkTabBar_succeeds (settings : Settings) (tabBar : Option Json.Value)
    (sink : Sink (Recording MemoryTree)) :
    ∃ linked, linkTabBar settings tabBar sink = .ok linked sink := by
  cases tabBar with
  | none => exact ⟨_, rfl⟩
  | some tabBar =>
    cases items : TabBar.items? tabBar with
    | none =>
      simp only [linkTabBar, items]
      exact ⟨_, rfl⟩
    | some _ =>
      simp only [linkTabBar, items]
      exact ⟨_, rfl⟩

theorem writeExtension_fresh (fresh : sink.written = []) (settings : Settings)
    (extension : Option Json.Value) :
    ∃ isNew behind, writeExtension settings extension sink = .ok isNew behind ∧
      behind.tree = match extension with
        | none => sink.tree
        | some body => sink.tree.after [(Path.canonical settings.extFile, .json body)] := by
  cases extension with
  | none => exact ⟨false, sink, rfl, rfl⟩
  | some body =>
    have new : Path.canonical settings.extFile ∉ sink.written := by simp [fresh]
    exact ⟨true, _, Sink.save_recording (.json body) new, rfl⟩

theorem assemble_error {source : String} (fresh : sink.written = [])
    (failed : assemble settings source sink = .error failure behind) :
    failure.aboutManifest = true ∧ (behind.tree = sink.tree ∨
      ∃ m outline body, Manifest.ofSource source settings.policy = .ok m ∧
        Outline.ofManifest m = .ok outline ∧ outline.extension = some body ∧
        behind.tree = sink.tree.after [(Path.canonical settings.extFile, .json body)]) := by
  unfold assemble at failed
  obtain failed | ⟨m, _, parsed, failed⟩ := step_bind_error.mp failed
  · obtain ⟨unread, rfl⟩ := ofResult_error.mp failed
    exact ⟨Blaming.manifest_ofSource source settings.policy failure unread, .inl rfl⟩
  obtain ⟨read, rfl⟩ := ofResult_ok.mp parsed
  obtain failed | ⟨outline, _, taken, failed⟩ := step_bind_error.mp failed
  · obtain ⟨unread, rfl⟩ := ofResult_error.mp failed
    exact ⟨Blaming.outline m failure unread, .inl rfl⟩
  obtain ⟨outlined, rfl⟩ := ofResult_ok.mp taken
  obtain ⟨isNew, mid, written, place⟩ := writeExtension_fresh fresh settings outline.extension
  obtain failed | ⟨_, _, equal, failed⟩ := step_bind_error.mp failed
  · cases written.symm.trans failed
  cases written.symm.trans equal
  obtain ⟨linked, link⟩ := linkTabBar_succeeds settings (outline.rest.take "tabBar").1 mid
  obtain failed | ⟨_, _, equal, failed⟩ := step_bind_error.mp failed
  · cases link.symm.trans failed
  cases link.symm.trans equal
  obtain failed | ⟨_, _, _, failed⟩ := step_bind_error.mp failed
  · obtain ⟨unread, rfl⟩ := ofResult_error.mp failed
    refine ⟨Blaming.pageTable _ failure unread, ?_⟩
    cases held : outline.extension with
    | none =>
      rw [held] at place
      exact .inl place
    | some body =>
      rw [held] at place
      exact .inr ⟨m, outline, body, read, outlined, held, place⟩
  · exact (step_pure_error failed).elim

theorem writeApp_error {source : String}
    (failed : writeApp settings source sink = .error failure behind) :
    assemble settings source sink = .error failure behind := by
  obtain failed | ⟨assembly, mid, -, failed⟩ := step_bind_error.mp failed
  · exact failed
  obtain ⟨isNew, last, saved⟩ :=
    Sink.save_succeeds settings.appFile (.json (.object assembly.app)) mid
  obtain failed | ⟨_, _, -, failed⟩ := step_bind_error.mp failed
  · cases saved.symm.trans failed
  · exact (step_pure_error failed).elim

/-- A run on a stream fails on the manifest, or for want of a bundle behind the application. -/
theorem Recovery.work_error {recovery : Recovery} {literals : List Literal} {manifest : String}
    (given : recovery.manifest = some manifest) (noGame : recovery.isGame = false)
    (failed : recovery.work (.stream literals) sink = .error failure behind) :
    assemble recovery.settings manifest sink = .error failure behind ∨
      failure = .missingService ∧
        ∃ written, writeApp recovery.settings manifest sink = .ok written behind := by
  simp only [work, given, noGame] at failed
  obtain failed | ⟨written, mid, accepted, failed⟩ := step_bind_error.mp failed
  · exact .inl (writeApp_error failed)
  obtain failed | ⟨service, _, required, failed⟩ := step_bind_error.mp failed
  · obtain ⟨missing, rfl⟩ := ofResult_error.mp failed
    exact .inr ⟨requireService_error missing, written, accepted⟩
  obtain ⟨-, rfl⟩ := ofResult_ok.mp required
  obtain failed | ⟨_, _, streamed, failed⟩ := step_bind_error.mp failed
  · cases (ofResult_error.mp failed).1
  obtain ⟨-, rfl⟩ := ofResult_ok.mp streamed
  obtain ⟨counts, last, merged⟩ := merge_succeeds written.1 _ mid
  obtain failed | ⟨_, _, -, failed⟩ := step_bind_error.mp failed
  · cases merged.symm.trans failed
  · exact (step_pure_error failed).elim

end

/-! ## Two runs -/

namespace Recovery

variable {barrier : String → Option SystemFault} {τ : Type} [OutputTree τ]

/-- A run in a view is the recorded run, or that run cut off at the first write that is refused. -/
theorem run_mirrored (view : View barrier τ) (recovery : Recovery) (source : LiteralSource)
    (sink : Sink (Recording MemoryTree)) :
    let free := recovery.run source sink
    let barred := recovery.run source (view.sink sink)
    ∃ writes, free.sink.tree = sink.tree.after writes ∧
      ((∀ draft ∈ writes, barrier draft.1 = none) ∧
          barred = ⟨free.result, free.recovery, view.sink free.sink⟩ ∨
        ∃ before path content later fault, writes = before ++ (path, content) :: later ∧
          (∀ draft ∈ before, barrier draft.1 = none) ∧ barrier path = some fault ∧
          barred.result = .error (.aborted (.fileWrite path fault)) ∧
          barred.recovery = { recovery with stage := .failed } ∧
          barred.sink.tree = view.of (sink.tree.after before)) := by
  intro free barred
  by_cases idle : recovery.stage = .idle
  · obtain ⟨script, runs⟩ := work_eq_run recovery source
    have here := script.mirrors view sink
    rw [← runs, ← runs] at here
    have free_eq : free = _ := run_of_idle idle source sink
    have barred_eq : barred = _ := run_of_idle idle source (view.sink sink)
    rw [free_eq, barred_eq]
    generalize recovery.work source sink = recorded at here
    generalize recovery.work source (view.sink sink) = viewed at here
    cases here with
    | ok reached accepted => exact ⟨_, reached, .inl ⟨accepted, rfl⟩⟩
    | error reached accepted => exact ⟨_, reached, .inl ⟨accepted, rfl⟩⟩
    | @refused _ _ before later path content fault reached accepted refused stopped =>
      refine ⟨before ++ (path, content) :: later, ?_,
        .inr ⟨before, path, content, later, fault, rfl, accepted, refused, rfl, rfl, stopped⟩⟩
      cases recorded with
      | ok summary behind => exact reached
      | error failure behind => exact reached
  · have free_eq : free = _ := run_of_not_idle idle source sink
    have barred_eq : barred = _ := run_of_not_idle idle source (view.sink sink)
    rw [free_eq, barred_eq]
    exact ⟨[], sink.tree.after_nil.symm, .inl ⟨by simp, rfl⟩⟩

/-- The file of the extension platform that a manifest asks for, as it is written. -/
inductive AsksExtension (settings : Settings) (manifest : String) : Draft → Prop where
  | intro {m : Manifest} {outline : Outline} {body : Json.Value}
      (read : Manifest.ofSource manifest settings.policy = .ok m)
      (outlined : Outline.ofManifest m = .ok outline) (held : outline.extension = some body) :
    AsksExtension settings manifest (Path.canonical settings.extFile, .json body)

theorem run_stream_error {recovery : Recovery} {literals : List Literal} {seed : MemoryTree}
    {cause : Failure} (noGame : recovery.isGame = false) :
    let start : Sink (Recording MemoryTree) := ⟨⟨seed, []⟩, []⟩
    let free := recovery.run (.stream literals) start
    free.result = .error (.aborted cause) →
      recovery.manifest = none ∧ cause = .missingManifest ∨
      ∃ manifest, recovery.manifest = some manifest ∧
        (cause.aboutManifest = true ∧ (free.sink.tree.writes = [] ∨
            ∃ draft, AsksExtension recovery.settings manifest draft ∧
              free.sink.tree.writes = [draft]) ∨
          cause = .missingService ∧
            ∃ written, writeApp recovery.settings manifest start = .ok written free.sink) := by
  intro start free failed
  by_cases idle : recovery.stage = .idle
  · have free_eq : free = _ := run_of_idle idle (.stream literals) start
    rw [free_eq] at failed ⊢
    cases worked : recovery.work (.stream literals) start with
    | ok summary behind =>
      rw [worked] at failed
      cases failed
    | error failure behind =>
      rw [worked] at failed
      have aborted : failure.abort = .aborted cause := Except.error.inj failed
      cases given : recovery.manifest with
      | none =>
        unfold work at worked
        rw [given] at worked
        cases worked
        cases aborted
        exact .inl ⟨rfl, rfl⟩
      | some manifest =>
        refine .inr ⟨manifest, rfl, ?_⟩
        obtain failed | ⟨rfl, written, accepted⟩ := work_error given noGame worked
        · obtain ⟨blamed, reached⟩ := assemble_error rfl failed
          rw [Failure.abort_of_aboutManifest blamed] at aborted
          cases aborted
          refine .inl ⟨blamed, ?_⟩
          obtain reached | ⟨m, outline, body, read, outlined, held, reached⟩ := reached
          · exact .inl (congrArg Recording.writes reached)
          · exact .inr ⟨_, .intro read outlined held, congrArg Recording.writes reached⟩
        · cases aborted
          exact .inr ⟨rfl, written, accepted⟩
  · have free_eq : free = _ := run_of_not_idle idle (.stream literals) start
    rw [free_eq] at failed
    cases failed

theorem run_stream_error_viewed (view : View barrier τ) {recovery : Recovery}
    {literals : List Literal} {seed : MemoryTree} {cause : Failure}
    (noGame : recovery.isGame = false) :
    let start : Sink (Recording MemoryTree) := ⟨⟨seed, []⟩, []⟩
    let free := recovery.run (.stream literals) start
    (∀ draft ∈ free.sink.tree.writes, barrier draft.1 = none) →
    free.result = .error (.aborted cause) →
      (cause.aboutManifest = true → free.sink.tree.writes = [] ∨
        ∃ manifest draft, recovery.manifest = some manifest ∧
          AsksExtension recovery.settings manifest draft ∧ free.sink.tree.writes = [draft]) ∧
      (cause = .missingService → ∃ manifest written, recovery.manifest = some manifest ∧
        writeApp recovery.settings manifest (view.sink start) =
          .ok written (view.sink free.sink)) := by
  intro start free accepted failed
  obtain ⟨-, rfl⟩ | ⟨manifest, given, ⟨blamed, wrote⟩ | ⟨rfl, written, wrote⟩⟩ :=
    run_stream_error noGame failed
  · exact ⟨nofun, nofun⟩
  · constructor
    · intro _
      obtain untouched | ⟨draft, asked, one⟩ := wrote
      · exact .inl untouched
      · exact .inr ⟨manifest, draft, given, asked, one⟩
    · rintro rfl
      cases blamed
  · refine ⟨nofun, fun _ => ?_⟩
    have scripted : Scripted recovery.settings (fun _ => True)
        (fun _ _ => writeApp recovery.settings manifest) :=
      .writeApp (fun _ _ => trivial) manifest
    have here := scripted.mirrors view start
    rw [wrote] at here
    exact ⟨manifest, written, given, here.ok_of_accepted accepted⟩

/--
A run over a tree that refuses some paths, beside the run over one that takes them all: the former
makes the writes of the latter up to the first that is refused. A run on a stream that fails on the
manifest has written the file of the extension platform at most, and one that lacks its bundle all
that `writeApp` writes.
-/
theorem run_refused (recovery : Recovery) (source : LiteralSource) (seed : MemoryTree)
    (barrier : String → Option SystemFault) :
    let free := recovery.run source (⟨⟨seed, []⟩, []⟩ : Sink (Recording MemoryTree))
    let plain := recovery.run source (⟨seed, []⟩ : Sink MemoryTree)
    let start : Sink (Recording (Guarded barrier MemoryTree)) := ⟨⟨⟨seed⟩, []⟩, []⟩
    let barred := recovery.run source start
    let writes := free.sink.tree.writes
    plain = ⟨free.result, free.recovery, ⟨seed.insertAll writes, free.sink.written⟩⟩ ∧
    ((∀ draft ∈ writes, barrier draft.1 = none) ∧
        barred = ⟨free.result, free.recovery,
          ⟨⟨⟨seed.insertAll writes⟩, writes⟩, free.sink.written⟩⟩ ∨
      ∃ before path content later fault, writes = before ++ (path, content) :: later ∧
        (∀ draft ∈ before, barrier draft.1 = none) ∧ barrier path = some fault ∧
        barred.result = .error (.aborted (.fileWrite path fault)) ∧
        barred.recovery = { recovery with stage := .failed } ∧
        barred.sink.tree = ⟨⟨seed.insertAll before⟩, before⟩) ∧
    (∀ literals cause, source = .stream literals → recovery.isGame = false →
      barred.result = .error (.aborted cause) →
        (cause.aboutManifest = true → barred.sink.tree.writes = [] ∨
          ∃ manifest draft, recovery.manifest = some manifest ∧
            AsksExtension recovery.settings manifest draft ∧
            barred.sink.tree.writes = [draft]) ∧
        (cause = .missingService → ∃ manifest written, recovery.manifest = some manifest ∧
          writeApp recovery.settings manifest start = .ok written barred.sink)) := by
  intro free plain start barred writes
  let first : Sink (Recording MemoryTree) := ⟨⟨seed, []⟩, []⟩
  obtain ⟨all, reached, either⟩ := run_mirrored (View.guarded barrier) recovery source first
  obtain ⟨_, _, unbarred⟩ := run_mirrored View.memory recovery source first
  have logged : writes = all := congrArg Recording.writes reached
  have tree : free.sink.tree.tree = seed.insertAll writes := by
    rw [logged]
    exact congrArg Recording.tree reached
  rw [← logged] at either
  refine ⟨?_, ?_, ?_⟩
  · obtain ⟨-, seen⟩ | ⟨_, _, _, _, _, -, -, refused, -⟩ := unbarred
    · rw [← tree]
      exact seen
    · cases refused
  · rw [← tree]
    exact either
  · rintro literals cause rfl noGame failed
    obtain ⟨accepted, seen⟩ | ⟨_, path, _, _, fault, -, -, -, stopped, -⟩ := either
    · have seen : barred =
          ⟨free.result, free.recovery, (View.guarded barrier).sink free.sink⟩ := seen
      rw [seen] at failed ⊢
      exact run_stream_error_viewed (View.guarded barrier) noGame accepted failed
    · cases failed.symm.trans stopped
      exact ⟨nofun, nofun⟩

/-- The application's file is refused behind that of the extension platform. -/
theorem run_refused_app :
    let manifest := "\x7b\"pages\":[\"a\"],\"extAppid\":\"x\",\"ext\":\x7b\x7d\x7d"
    let recovery : Recovery := { manifest := some manifest, service := some "s" }
    let barrier : String → Option SystemFault := fun path =>
      if path = "app.json" then some (.number 13) else none
    let start : Sink (Recording (Guarded barrier MemoryTree)) := ⟨⟨⟨.empty⟩, []⟩, []⟩
    let barred := recovery.run (.stream []) start
    barred.result = .error (.aborted (.fileWrite "app.json" (.number 13))) ∧
      barred.recovery.stage = .failed ∧ barred.sink.tree.writes.map (·.1) = ["ext.json"] := by
  intro manifest recovery barrier start barred
  have parsed : Manifest.ofSource manifest .truthy = .ok ⟨[("pages", .array [.string "a"]),
      ("extAppid", .string "x"), ("ext", .object [])], .truthy⟩ := by
    cbv
  obtain ⟨-, either, -⟩ := run_refused recovery (.stream []) .empty barrier
  have writes : (recovery.run (.stream [])
      (⟨⟨.empty, []⟩, []⟩ : Sink (Recording MemoryTree))).sink.tree.writes.map (·.1) =
      ["ext.json", "app.json"] := by
    simp only [run, work, recovery, writeApp, assemble, parsed]
    cbv
  obtain ⟨accepted, -⟩ | ⟨before, path, content, later, fault, split, -, refused, result, stage,
    tree⟩ := either
  · have listed : "app.json" ∈ ["ext.json", "app.json"] := by decide
    rw [← writes] at listed
    obtain ⟨draft, member, name⟩ := List.mem_map.mp listed
    have here := accepted draft member
    rw [name] at here
    cases here
  · have app : path = "app.json" ∧ fault = .number 13 := by simpa [barrier, eq_comm] using refused
    obtain ⟨rfl, rfl⟩ := app
    rw [split, List.map_append, List.map_cons] at writes
    refine ⟨result, congrArg Recovery.stage stage, ?_⟩
    rw [tree]
    cases before with
    | nil => simp at writes
    | cons draft before =>
      cases before with
      | nil => exact congrArg (List.take 1) writes
      | cons other before => simp at writes

end Recovery

end ConfigRecovery
