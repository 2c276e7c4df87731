import ConfigRecovery.Proofs.Step

/-!
# Failures of the manifest

Whatever is read from a manifest, one piece after the other, fails with nothing but what is wrong
with its text.
-/

namespace ConfigRecovery

variable {α β : Type}

/-- Whether the text of a manifest is to blame. -/
def Failure.aboutManifest : Failure → Bool
  | .invalidJson _ => true
  | .malformed _ _ => true
  | _ => false

theorem Failure.abort_of_aboutManifest {failure : Failure} (h : failure.aboutManifest = true) :
    failure.abort = .aborted failure := by
  cases failure with
  | aborted cause => cases h
  | _ => rfl

theorem Failure.isFatal_of_aboutManifest {failure : Failure} (about : failure.aboutManifest = true) :
    failure.isFatal = false := by
  cases failure with
  | aborted cause => cases about
  | _ => rfl

/-- All that a result can fail with is about the manifest. -/
def Blaming (x : Except Failure α) : Prop :=
  ∀ failure, x = .error failure → failure.aboutManifest = true

namespace Blaming

theorem ok (value : α) : Blaming (.ok value) := by
  intro failure failed
  cases failed

theorem malformed (field : Field) (problem : Problem) :
    Blaming (.error (.malformed field problem) : Except Failure α) := by
  intro failure failed
  cases failed
  rfl

theorem bind {x : Except Failure α} {f : α → Except Failure β} (first : Blaming x)
    (rest : ∀ value, Blaming (f value)) : Blaming (x >>= f) := by
  intro failure failed
  obtain failed | ⟨value, -, failed⟩ := except_bind_error.mp failed
  · exact first failure failed
  · exact rest value failure failed

theorem map {x : Except Failure α} (first : Blaming x) (f : α → β) : Blaming (x.map f) := by
  intro failure failed
  cases result : x with
  | ok value =>
    rw [result] at failed
    cases failed
  | error other =>
    rw [result] at failed
    cases failed
    exact first failure result

theorem mapM {f : α → Except Failure β} (each : ∀ value, Blaming (f value)) (values : List α) :
    Blaming (values.mapM f) := by
  intro failure failed
  obtain ⟨value, -, failed⟩ := except_mapM_error failed
  exact each value failure failed

theorem option_mapM {f : α → Except Failure β} (each : ∀ value, Blaming (f value))
    (value : Option α) : Blaming (value.mapM f) := by
  cases value with
  | none => exact ok none
  | some value => exact (each value).map some

theorem foldlM {f : β → α → Except Failure β} (each : ∀ state value, Blaming (f state value))
    (values : List α) (state : β) : Blaming (values.foldlM f state) := by
  induction values generalizing state with
  | nil => exact ok state
  | cons value values ih =>
    rw [List.foldlM_cons]
    exact (each state value).bind ih

theorem value_ofSource (source : String) : Blaming (Json.Value.ofSource source) := by
  intro failure failed
  unfold Json.Value.ofSource at failed
  cases read : Json.Value.ofText source with
  | ok value =>
    rw [read] at failed
    cases failed
  | error fault =>
    rw [read] at failed
    cases failed
    rfl

theorem manifest_ofSource (source : String) (policy : Policy) :
    Blaming (Manifest.ofSource source policy) := by
  refine (value_ofSource source).bind fun value => ?_
  cases value with
  | object fields => exact ok _
  | _ => exact malformed _ _

theorem asString (field : Field) (value : Json.Value) :
    Blaming (Manifest.asString field value) := by
  cases value with
  | string text => exact ok text
  | _ => exact malformed _ _

theorem asStrings (field : Field) (items : List Json.Value) :
    Blaming (Manifest.asStrings field items) := by
  refine mapM (fun value => ?_) items
  cases value with
  | string text => exact ok text
  | _ => exact malformed _ _

theorem asStringList (field : Field) (value : Json.Value) :
    Blaming (Manifest.asStringList field value) := by
  cases value with
  | array items => exact asStrings field items
  | _ => exact malformed _ _

theorem share (index : Nat) (pages : List String) (descriptor : Json.Value) :
    Blaming (Subpackage.Share.of index pages descriptor) := by
  cases descriptor with
  | object descriptor =>
    have root : Blaming (Subpackage.rootOf index descriptor) := by
      unfold Subpackage.rootOf
      split
      · exact ok _
      · exact malformed _ _
    refine root.bind fun root => ?_
    have selected : Blaming (Subpackage.select index descriptor root pages) := by
      unfold Subpackage.select
      split
      · exact asStrings _ _
      · exact ok _
      · exact ok _
      · exact malformed _ _
    exact selected.bind fun selected => ok _
  | _ => exact malformed _ _

theorem partitionFrom (index : Nat) (pages : List String) (descriptors : List Json.Value) :
    Blaming (Subpackage.partitionFrom index pages descriptors).result := by
  induction descriptors generalizing index pages with
  | nil => exact ok []
  | cons descriptor descriptors ih =>
    rw [Subpackage.partitionFrom]
    cases shared : Subpackage.Share.of index pages descriptor with
    | error failure =>
      intro other failed
      cases failed
      exact share index pages descriptor failure shared
    | ok share => exact (ih _ _).map _

theorem dealPages (pages : List String) (declared : Option Json.Value) :
    Blaming (Outline.dealPages pages declared) := by
  cases declared with
  | none => exact ok _
  | some value =>
    cases value with
    | array descriptors => exact (partitionFrom 0 pages descriptors).bind fun subpackages => ok _
    | _ => exact malformed _ _

theorem outline (m : Manifest) : Blaming (Outline.ofManifest m) := by
  refine (option_mapM (asString _) _).bind fun entry => ?_
  refine (option_mapM (asStringList _) _).bind fun listed => ?_
  cases listed with
  | none => exact malformed _ _
  | some listed => exact (dealPages _ _).bind fun dealt => ok _

theorem windowOf (key : String) (value : Json.Value) : Blaming (PageTable.windowOf key value) := by
  unfold PageTable.windowOf
  split
  · split
    · exact ok _
    · exact ok _
    · exact ok _
    · exact malformed _ _
  · exact malformed _ _

theorem pageTable (pages : Option Json.Value) : Blaming (pageTable pages) := by
  cases pages with
  | none => exact ok _
  | some value =>
    cases value with
    | object pages =>
      exact foldlM (fun table entry => (windowOf _ _).bind fun window => ok _) pages _
    | _ => exact malformed _ _

end Blaming

end ConfigRecovery
