import ConfigRecovery.Proofs.Blaming
import ConfigRecovery.Proofs.Literals
import ConfigRecovery.Proofs.Recording

/-!
# Steps as scripts

All that a step does to its sink is to save drafts and to look for icons among the files of the tree.
A script says so by constructors: it is the step with nothing told of the kind of tree, and one
induction over scripts says of all steps of a recovery what each of them keeps.
-/

namespace ConfigRecovery

variable {α β : Type} {settings : Settings} {raises : Failure → Prop}

/-- What a step does, which fails by itself with some failures only. -/
inductive Script (settings : Settings) (raises : Failure → Prop) (α : Type) where
  | done (value : α)
  | fail (failure : Failure) (own : raises failure)
  | save (draft : Draft) (next : Bool → Script settings raises α)
  /-- Looks at the files, but only at those that may be icons -/
  | index (next : ContentIndex → Script settings raises α)

namespace Script

def run {τ : Type} [OutputTree τ] : Script settings raises α → EStateM Failure (Sink τ) α
  | done value => pure value
  | fail failure _ => throw failure
  | save draft next => Sink.save draft.1 draft.2 >>= fun isNew => (next isNew).run
  | index next => get >>= fun sink => ofResult (OutputTree.files sink.tree) >>= fun files =>
    (next (ContentIndex.ofFiles settings files)).run

/-- A script that goes on with another one. -/
def andThen : Script settings raises α → (α → Script settings raises β) → Script settings raises β
  | done value, rest => rest value
  | fail failure own, _ => fail failure own
  | save draft next, rest => save draft fun isNew => (next isNew).andThen rest
  | index next, rest => index fun found => (next found).andThen rest

theorem run_andThen {τ : Type} [OutputTree τ] (script : Script settings raises α)
    (rest : α → Script settings raises β) :
    ((script.andThen rest).run : EStateM Failure (Sink τ) β) =
      script.run >>= fun value => (rest value).run := by
  induction script with
  | done value => simp [andThen, run]
  | fail failure own => rfl
  | save draft next ih => simp [andThen, run, ih]
  | index next ih => simp [andThen, run, ih]

theorem mirrors {barrier : String → Option SystemFault} {τ : Type} [OutputTree τ]
    (script : Script settings raises α) (view : View barrier τ) :
    Mirrors view script.run script.run := by
  induction script with
  | done value => exact .pure value
  | fail failure own => exact .throw failure
  | save draft next ih => exact (Mirrors.save draft.1 draft.2).bind ih
  | index next ih =>
    apply Mirrors.get_bind
    intro sink
    have same : OutputTree.files (view.sink sink).tree = OutputTree.files sink.tree :=
      view.files_of sink.tree
    rw [same]
    exact (Mirrors.ofResult _).bind fun files => ih _

end Script

/-- A step that is the run of one script over trees of every kind. -/
def Scripted (settings : Settings) (raises : Failure → Prop)
    (x : ∀ (τ : Type) [OutputTree τ], EStateM Failure (Sink τ) α) : Prop :=
  ∃ script : Script settings raises α, ∀ (τ : Type) [OutputTree τ], x τ = script.run

namespace Scripted

theorem mirrors {barrier : String → Option SystemFault} {τ : Type} [OutputTree τ]
    {x : ∀ (τ : Type) [OutputTree τ], EStateM Failure (Sink τ) α}
    (scripted : Scripted settings raises x) (view : View barrier τ) :
    Mirrors view (x (Recording MemoryTree)) (x τ) := by
  obtain ⟨script, runs⟩ := scripted
  rw [runs, runs]
  exact script.mirrors view

theorem pure (value : α) : Scripted settings raises (fun _ _ => pure value) :=
  ⟨.done value, fun _ _ => rfl⟩

theorem throw {failure : Failure} (own : raises failure) :
    Scripted settings raises (fun _ _ => (throw failure : EStateM Failure _ α)) :=
  ⟨.fail failure own, fun _ _ => rfl⟩

theorem bind {x : ∀ (τ : Type) [OutputTree τ], EStateM Failure (Sink τ) α}
    {f : ∀ (τ : Type) [OutputTree τ], α → EStateM Failure (Sink τ) β}
    (first : Scripted settings raises x) (rest : ∀ value, Scripted settings raises fun τ _ => f τ value) :
    Scripted settings raises (fun τ _ => x τ >>= f τ) := by
  obtain ⟨script, runs⟩ := first
  choose next follows using rest
  refine ⟨script.andThen next, fun τ _ => ?_⟩
  have rest : f τ = fun value => (next value).run := funext fun value => follows value τ
  change x τ >>= f τ = _
  rw [Script.run_andThen, runs τ, rest]

/-- A step that takes a result may count on it being one that the step before had. -/
theorem ofResult_bind {result : Except Failure α}
    {f : ∀ (τ : Type) [OutputTree τ], α → EStateM Failure (Sink τ) β}
    (own : ∀ failure, result = .error failure → raises failure)
    (rest : ∀ value, result = .ok value → Scripted settings raises fun τ _ => f τ value) :
    Scripted settings raises (fun τ _ => ofResult result >>= f τ) := by
  cases result with
  | ok value => exact rest value rfl
  | error failure => exact throw (own failure rfl)

theorem save (path : String) (content : Content) :
    Scripted settings raises (fun _ _ => Sink.save path content) :=
  ⟨.save (path, content) .done, fun _ _ => by simp [Script.run]⟩

theorem saveAll (drafts : List Draft) : Scripted settings raises (fun _ _ => saveAll drafts) := by
  induction drafts with
  | nil => exact pure (0, 0)
  | cons draft drafts ih =>
    apply (save draft.1 draft.2).bind
    exact fun isNew => ih.bind fun counts => pure _

theorem merge (table : PageTable) (literals : List Literal) :
    Scripted settings raises (fun _ _ => merge table literals) :=
  (saveAll _).bind fun _ => (saveAll _).bind fun _ => pure _

theorem writeExtension (body : Option Json.Value) :
    Scripted settings raises (fun _ _ => writeExtension settings body) := by
  cases body with
  | none => exact pure false
  | some body => exact save _ _

theorem linkTabBar (tabBar : Option Json.Value) :
    Scripted settings raises (fun _ _ => linkTabBar settings tabBar) := by
  cases tabBar with
  | none => exact pure _
  | some tabBar =>
    cases items : TabBar.items? tabBar with
    | none =>
      simp only [ConfigRecovery.linkTabBar, items]
      exact pure _
    | some _ =>
      simp only [ConfigRecovery.linkTabBar, items]
      exact ⟨.index fun found => .done (some (TabBar.link found tabBar).1, (TabBar.link found tabBar).2),
        fun _ _ => rfl⟩

section

variable (blamed : ∀ failure : Failure, failure.aboutManifest = true → raises failure)

include blamed

theorem ofBlaming_bind {result : Except Failure α} (blaming : Blaming result)
    {f : ∀ (τ : Type) [OutputTree τ], α → EStateM Failure (Sink τ) β}
    (rest : ∀ value, Scripted settings raises fun τ _ => f τ value) :
    Scripted settings raises (fun τ _ => ofResult result >>= f τ) :=
  ofResult_bind (fun failure failed => blamed failure (blaming failure failed))
    fun value _ => rest value

theorem assemble (source : String) :
    Scripted settings raises (fun _ _ => assemble settings source) := by
  apply ofBlaming_bind blamed (.manifest_ofSource _ _)
  intro manifest
  apply ofBlaming_bind blamed (.outline _)
  intro outline
  apply (writeExtension _).bind
  intro isNew
  apply (linkTabBar _).bind
  exact fun linked => ofBlaming_bind blamed (.pageTable _) fun table => pure _

theorem writeApp (source : String) :
    Scripted settings raises (fun _ _ => writeApp settings source) :=
  (assemble blamed _).bind fun _ => (save _ _).bind fun _ => pure _

theorem writeGame (source : String) :
    Scripted settings raises (fun _ _ => writeGame settings source) :=
  ofBlaming_bind blamed (.value_ofSource _) fun _ => (save _ _).bind fun _ => pure _

end

end Scripted

/-! ## The script of a run -/

theorem LiteralSource.literals_error {source : LiteralSource} {registry service : String}
    {failure : Failure} (failed : source.literals registry service = .error failure) :
    ∃ reader, source = .program reader ∧ reader service = .error failure := by
  cases source with
  | stream literals => cases failed
  | program reader =>
    refine ⟨reader, rfl, ?_⟩
    change reader.literals registry service = .error failure at failed
    cases read : reader service with
    | ok program => cases (reader.literals_of_ok registry read).symm.trans failed
    | error other => simpa [ProgramReader.literals, read, bind, Except.bind] using failed

namespace Recovery

theorem requireService_error {service : Option String} {failure : Failure}
    (failed : requireService service = .error failure) : failure = .missingService := by
  cases service with
  | none =>
    cases failed
    rfl
  | some service =>
    rw [requireService] at failed
    by_cases h : service = ""
    · rw [if_pos h] at failed
      cases failed
      rfl
    · rw [if_neg h] at failed
      cases failed

theorem requireService_ok {service : Option String} {text : String}
    (ok : requireService service = .ok text) : service = some text := by
  cases service with
  | none => cases ok
  | some service =>
    rw [requireService] at ok
    split at ok
    · cases ok
    · rw [Except.ok.inj ok]

/-- What a run comes up with by itself: failures without a wrapping, and those of its reader. -/
def Raises (recovery : Recovery) (source : LiteralSource) (failure : Failure) : Prop :=
  failure.isFatal = false ∨ ∃ reader service, source = .program reader ∧
    recovery.service = some service ∧ reader service = .error failure

theorem work_eq_run (recovery : Recovery) (source : LiteralSource) :
    ∃ script : Script recovery.settings (recovery.Raises source) Summary, ∀ (τ : Type) [OutputTree τ],
      (recovery.work source : EStateM Failure (Sink τ) Summary) = script.run := by
  change Scripted recovery.settings (recovery.Raises source) (fun _ _ => recovery.work source)
  have blamed (failure : Failure) (about : failure.aboutManifest = true) :
      recovery.Raises source failure := .inl (Failure.isFatal_of_aboutManifest about)
  unfold work
  split
  · exact Scripted.throw (.inl rfl)
  · split
    · exact Scripted.writeGame blamed _
    · apply (Scripted.writeApp blamed _).bind
      intro written
      apply Scripted.ofResult_bind
      · intro failure missing
        exact .inl (requireService_error missing ▸ rfl)
      intro service required
      apply Scripted.ofResult_bind
      · intro failure failed
        obtain ⟨reader, given, read⟩ := LiteralSource.literals_error failed
        exact .inr ⟨reader, service, given, requireService_ok required, read⟩
      · intro literals _
        exact (Scripted.merge _ _).bind fun counts => Scripted.pure _

/-! ## Stages -/

variable {τ : Type} [OutputTree τ]

theorem run_of_idle {recovery : Recovery} (idle : recovery.stage = .idle) (source : LiteralSource)
    (sink : Sink τ) :
    recovery.run source sink = match recovery.work source sink with
      | .ok summary sink => ⟨.ok summary, { recovery with stage := .done }, sink⟩
      | .error failure sink =>
        ⟨.error failure.abort, { recovery with stage := .failed }, sink⟩ :=
  if_neg (not_not_intro idle)

theorem run_of_not_idle {recovery : Recovery} (ran : recovery.stage ≠ .idle)
    (source : LiteralSource) (sink : Sink τ) :
    recovery.run source sink = ⟨.error .alreadyRun, recovery, sink⟩ :=
  if_pos ran

end Recovery

end ConfigRecovery
