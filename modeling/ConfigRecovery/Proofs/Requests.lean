import ConfigRecovery.Proofs.Manifest

/-!
# Histories of requests

A manifest is asked for one field after the other. The first request that takes a field uses the
field up, whatever comes of the request, and nothing else ever changes the manifest. So at every
moment it has the fields that no taking request has named, and an answer depends on the history only
through whether the field was named before. A manifest, like any object, has no key twice.
-/

namespace ConfigRecovery

/-- What a manifest is asked for. -/
inductive Request where
  | take (key : String)
  | takeOr (key : String) (default : Json.Value)
  | takeString (key : String)
  | takeStrings (key : String)
  | get (key : String)
  | contains (key : String)

inductive Answer where
  | optional (value : Option Json.Value)
  | value (value : Json.Value)
  | text (text : Except Failure (Option String))
  | texts (texts : Except Failure (Option (List String)))
  | presence (found : Bool)

namespace Request

def key : Request → String
  | take key | takeOr key _ | takeString key | takeStrings key | get key | contains key => key

def takes : Request → Bool
  | take _ | takeOr _ _ | takeString _ | takeStrings _ => true
  | get _ | contains _ => false

/-- The answer to a request that is handed a value or nothing. -/
def answer (handed : Option Json.Value) : Request → Answer
  | take _ | get _ => .optional handed
  | takeOr _ default => .value (handed.getD default)
  | takeString key => .text (handed.mapM (Manifest.asString (.named key)))
  | takeStrings key => .texts (handed.mapM (Manifest.asStringList (.named key)))
  | contains _ => .presence handed.isSome

/-- The keys that the taking requests of a history name. -/
def named (history : List Request) : List String := (history.filter (·.takes)).map (·.key)

theorem named_append (history more : List Request) :
    named (history ++ more) = named history ++ named more := by
  rw [named, List.filter_append, List.map_append, named, named]

theorem named_singleton (request : Request) :
    named [request] = if request.takes then [request.key] else [] := by
  cases takes : request.takes <;> simp [named, takes]

theorem named_take_mono (history : List Request) {place later : Nat} (le : place ≤ later) :
    named (history.take place) ⊆ named (history.take later) := by
  intro key listed
  obtain ⟨request, member, same⟩ := List.mem_map.mp listed
  obtain ⟨early, takes⟩ := List.mem_filter.mp member
  have late := (List.take_prefix_take_left le).subset early
  exact List.mem_map.mpr ⟨request, List.mem_filter.mpr ⟨late, takes⟩, same⟩

/-- The request at a place takes the field of a key, and none before it does. -/
def FirstNames (history : List Request) (place : Nat) (key : String) : Prop :=
  key ∉ named (history.take place) ∧ key ∈ named (history.take (place + 1))

theorem firstNames_iff {history : List Request} {place : Nat} {key : String} :
    FirstNames history place key ↔ key ∉ named (history.take place) ∧
      ∃ request, history[place]? = some request ∧ request.takes = true ∧ request.key = key := by
  rw [FirstNames, List.take_add_one, named_append, List.mem_append]
  refine and_congr_right fun new => ?_
  rw [or_iff_right new]
  cases here : history[place]? with
  | none => simp [named]
  | some request =>
    rw [Option.toList_some, named_singleton]
    cases takes : request.takes with
    | false => simp [takes]
    | true => simpa [takes] using eq_comm

theorem FirstNames.unique {history : List Request} {place other : Nat} {key : String}
    (first : FirstNames history place key) (second : FirstNames history other key) :
    place = other := by
  have not_before {a b : Nat} (here : FirstNames history a key) (there : FirstNames history b key) :
      ¬a < b := fun less => there.1 (named_take_mono history less here.2)
  have above := not_before first second
  have below := not_before second first
  omega

end Request

namespace Manifest

def ask (m : Manifest) : Request → Answer × Manifest
  | .take key => (.optional (m.take key).1, (m.take key).2)
  | .takeOr key default => (.value (m.takeOr key default).1, (m.takeOr key default).2)
  | .takeString key => (.text (m.takeString key).1, (m.takeString key).2)
  | .takeStrings key => (.texts (m.takeStrings key).1, (m.takeStrings key).2)
  | .get key => (.optional (m.get? key), m)
  | .contains key => (.presence (m.contains key), m)

def askAll (m : Manifest) : List Request → List Answer × Manifest
  | [] => ([], m)
  | request :: requests =>
    let first := m.ask request
    let rest := first.2.askAll requests
    (first.1 :: rest.1, rest.2)

/-- What a manifest hands to a request; to a taking one only a value that counts as present. -/
def offer (m : Manifest) (request : Request) : Option Json.Value :=
  if request.takes then (m.get? request.key).filter m.policy.accepts else m.get? request.key

/-! ## One request -/

variable {m : Manifest} {request : Request}

theorem ask_eq (m : Manifest) (request : Request) : m.ask request =
    (request.answer (m.offer request),
      if request.takes then (m.take request.key).2 else m) := by
  cases request <;> rfl

theorem get?_without (m : Manifest) (taken : List String) (key : String) :
    (m.without taken).get? key = if key ∈ taken then none else m.get? key :=
  Fields.get?_without m.fields taken key

theorem offer_without (m : Manifest) (taken : List String) (request : Request) :
    (m.without taken).offer request =
      if request.key ∈ taken then none else m.offer request := by
  rw [offer, get?_without, offer]
  by_cases listed : request.key ∈ taken
  · rw [if_pos listed, if_pos listed, Option.filter_none, ite_self]
  · rw [if_neg listed, if_neg listed]
    rfl

theorem offer_of_absent (absent : m.contains request.key = false) : m.offer request = none := by
  have missing : m.get? request.key = none := Option.isNone_iff_eq_none.mp
    (Option.isSome_eq_false_iff.mp absent)
  rw [offer, missing, Option.filter_none, ite_self]

theorem ask_without (distinct : m.fields.keys.Nodup) (taken : List String) (request : Request) :
    (m.without taken).ask request =
      (request.answer (if request.key ∈ taken then none else m.offer request),
        m.without (taken ++ Request.named [request])) := by
  rw [ask_eq, offer_without, Request.named_singleton]
  cases request.takes with
  | false => rw [if_neg Bool.false_ne_true, if_neg Bool.false_ne_true, List.append_nil]
  | true =>
    rw [if_pos rfl, if_pos rfl, take, without, without]
    simp only [Fields.erase_without distinct]

/-! ## Histories -/

theorem askAll_without (distinct : m.fields.keys.Nodup) (taken : List String)
    (history : List Request) :
    ((m.without taken).askAll history).2 = m.without (taken ++ Request.named history) := by
  -- the keys that are gone already grow by one with a request that takes a field
  induction history generalizing taken with
  | nil => simp [askAll, Request.named]
  | cons request history ih =>
    rw [askAll, ask_without distinct, ih, List.append_assoc, ← Request.named_append]
    rfl

theorem behind_askAll (distinct : m.fields.keys.Nodup) (history : List Request) :
    (m.askAll history).2 = m.without (Request.named history) := by
  have start := askAll_without distinct [] history
  rwa [without_nil, List.nil_append] at start

theorem askAll_at (m : Manifest) {history : List Request} {place : Nat} {request : Request}
    (here : history[place]? = some request) :
    let before := (m.askAll (history.take place)).2
    (m.askAll history).1[place]? = some (before.ask request).1 ∧
      (m.askAll (history.take (place + 1))).2 = (before.ask request).2 := by
  induction history generalizing m place with
  | nil => cases here
  | cons first history ih =>
    cases place with
    | zero =>
      cases here
      exact ⟨rfl, rfl⟩
    | succ place => exact ih _ here

/-- A taking request of a history is handed the value of a field. -/
def Hands (m : Manifest) (history : List Request) (place : Nat) (key : String)
    (value : Json.Value) : Prop :=
  ∃ request, history[place]? = some request ∧ request.takes = true ∧ request.key = key ∧
    (m.askAll (history.take place)).2.offer request = some value

theorem hands_iff (distinct : m.fields.keys.Nodup) {history : List Request} {place : Nat}
    {key : String} {value : Json.Value} : m.Hands history place key value ↔
      Request.FirstNames history place key ∧ m.get? key = some value ∧
        m.policy.accepts value = true := by
  have offered (request : Request) (takes : request.takes = true) :
      (m.askAll (history.take place)).2.offer request = some value ↔
        request.key ∉ Request.named (history.take place) ∧ m.get? request.key = some value ∧
          m.policy.accepts value = true := by
    rw [behind_askAll distinct, offer_without, Option.ite_none_left_eq_some, offer, if_pos takes,
      Option.filter_eq_some_iff]
  rw [Request.firstNames_iff]
  constructor
  · rintro ⟨request, here, takes, rfl, handed⟩
    obtain ⟨new, stored⟩ := (offered request takes).mp handed
    exact ⟨⟨new, request, here, takes, rfl⟩, stored⟩
  · rintro ⟨⟨new, request, here, takes, rfl⟩, stored⟩
    exact ⟨request, here, takes, rfl, (offered request takes).mpr ⟨new, stored⟩⟩

/--
At every moment of a history a manifest has just the fields that no taking request has named so far,
as they were and in their order, whatever the requests came to. The answer to a request is made from
what is there of the field at first, or from nothing if the field was named before, just as by a
manifest that never had it. So a value is handed out to the first request that takes its field, if
it counts as present, and never again; looking at a field changes nothing.
-/
theorem askAll_conserves (distinct : m.fields.keys.Nodup) (history : List Request) :
    let answers := (m.askAll history).1
    let behind := fun place => (m.askAll (history.take place)).2
    let named := fun place => Request.named (history.take place)
    (∀ place, behind place = ⟨m.fields.filter fun field => field.1 ∉ named place, m.policy⟩) ∧
    (∀ place request, history[place]? = some request →
      answers[place]? = some ((behind place).ask request).1 ∧
      ((behind place).ask request).1 =
        request.answer (if request.key ∈ named place then none else m.offer request) ∧
      (request.key ∈ named place → ∀ other : Manifest, other.contains request.key = false →
        ((behind place).ask request).1 = (other.ask request).1) ∧
      (request.takes = false → behind (place + 1) = behind place)) ∧
    (∀ place key, (behind place).get? key = (if key ∈ named place then none else m.get? key) ∧
      ((behind place).contains key = true ↔ key ∉ named place ∧ m.contains key = true)) ∧
    (∀ place key value, m.Hands history place key value ↔
      Request.FirstNames history place key ∧ m.get? key = some value ∧
        m.policy.accepts value = true) ∧
    ∀ place other key value value', m.Hands history place key value →
      m.Hands history other key value' → place = other := by
  intro answers behind named
  have left (place : Nat) : behind place = m.without (named place) := behind_askAll distinct _
  have answered (place : Nat) (request : Request) : ((behind place).ask request).1 =
      request.answer (if request.key ∈ named place then none else m.offer request) := by
    rw [left, ask_without distinct]
  refine ⟨left, ?_, ?_, fun _ _ _ => hands_iff distinct, ?_⟩
  · intro place request here
    obtain ⟨answer, after⟩ := askAll_at m here
    refine ⟨answer, answered place request, ?_, ?_⟩
    · intro listed other absent
      rw [answered, if_pos listed, ask_eq, offer_of_absent absent]
    · intro looks
      refine after.trans ?_
      rw [ask_eq, if_neg (by simp [looks])]
  · intro place key
    rw [left]
    refine ⟨get?_without m _ key, ?_⟩
    rw [contains, Fields.contains, ← get?, get?_without]
    by_cases listed : key ∈ named place
    · simp [listed]
    · simp [listed, contains, Fields.contains, get?]
  · intro place other key value value' first second
    exact ((hands_iff distinct).mp first).1.unique ((hands_iff distinct).mp second).1

/-- A field that is refused for its shape is used up, and so is one that gives way to a default. -/
theorem askAll_conserves_refused :
    let m : Manifest :=
      ⟨[("z", .bool true), ("debug", .bool false), ("name", .string "n"), ("a", .null)], .truthy⟩
    let history : List Request := [.contains "name", .takeStrings "name",
      .takeOr "debug" (.string "d"), .takeString "name", .get "z"]
    m.fields.keys.Nodup ∧ (m.askAll history).2 = ⟨[("z", .bool true), ("a", .null)], .truthy⟩ ∧
      (m.askAll history).1[1]? =
        some (.texts (.error (.malformed (.named "name") (.unexpected .array (some .string))))) ∧
      (m.askAll history).1[2]? = some (.value (.string "d")) ∧
      (m.askAll history).1[3]? = some (.text (.ok none)) ∧
      m.Hands history 1 "name" (.string "n") ∧ (∀ value, ¬m.Hands history 3 "name" value) ∧
      ∀ place value, ¬m.Hands history place "debug" value := by
  intro m history
  have distinct : m.fields.keys.Nodup := by decide
  obtain ⟨left, answered, -, hands, once⟩ := askAll_conserves distinct history
  have given : m.Hands history 1 "name" (.string "n") :=
    (hands 1 "name" (.string "n")).mpr ⟨by constructor <;> decide, rfl, rfl⟩
  refine ⟨distinct, left 5, ?_, ?_, ?_, given, ?_, ?_⟩
  · obtain ⟨answer, reply, -⟩ := answered 1 (.takeStrings "name") rfl
    exact answer.trans (congrArg some reply)
  · obtain ⟨answer, reply, -⟩ := answered 2 (.takeOr "debug" (.string "d")) rfl
    exact answer.trans (congrArg some reply)
  · obtain ⟨answer, reply, -⟩ := answered 3 (.takeString "name") rfl
    exact answer.trans (congrArg some reply)
  · intro value again
    exact absurd (once _ _ _ _ _ given again) (by decide)
  · intro place value handed
    obtain ⟨-, stored, present⟩ := (hands place "debug" value).mp handed
    cases stored
    exact Bool.false_ne_true present

end Manifest

end ConfigRecovery
