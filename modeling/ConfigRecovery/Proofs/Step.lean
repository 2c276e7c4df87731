import Mathlib
import ConfigRecovery.Recovery.Run

/-!
# Steps made of two

A step made of two succeeds just when both do, the second from the state behind the first, and it
fails with the one of them that fails.
-/

namespace ConfigRecovery

variable {ε σ α β : Type}

theorem except_bind_ok {x : Except ε α} {f : α → Except ε β} {b : β} :
    x >>= f = .ok b ↔ ∃ a, x = .ok a ∧ f a = .ok b := by
  cases x with
  | error e => simp [bind, Except.bind]
  | ok a => simp [bind, Except.bind]

theorem except_bind_error {x : Except ε α} {f : α → Except ε β} {e : ε} :
    x >>= f = .error e ↔ x = .error e ∨ ∃ a, x = .ok a ∧ f a = .error e := by
  cases x with
  | error other => simp [bind, Except.bind]
  | ok a => simp [bind, Except.bind]

theorem except_pure_ok {a b : α} : (pure a : Except ε α) = .ok b ↔ a = b := by
  simp [pure, Except.pure]

theorem except_map_ok {x : Except ε α} {f : α → β} {b : β} :
    x.map f = .ok b ↔ ∃ a, x = .ok a ∧ f a = b := by
  cases x with
  | error e => simp [Except.map]
  | ok a => simp [Except.map]

theorem except_forM_ok {f : α → Except ε Unit} {items : List α} :
    items.forM f = .ok () ↔ ∀ item ∈ items, f item = .ok () := by
  induction items with
  | nil => simp [except_pure_ok]
  | cons item items ih =>
    rw [List.forM, except_bind_ok, List.forall_mem_cons, ← ih]
    exact ⟨fun ⟨_, first, rest⟩ => ⟨first, rest⟩, fun ⟨first, rest⟩ => ⟨_, first, rest⟩⟩

theorem except_mapM_ok {f : α → Except ε β} {items : List α} {results : List β} :
    items.mapM f = .ok results ↔
      List.Forall₂ (fun item result => f item = .ok result) items results := by
  induction items generalizing results with
  | nil => rw [List.mapM_nil, except_pure_ok, List.forall₂_nil_left_iff, eq_comm]
  | cons item items ih =>
    rw [List.mapM_cons, except_bind_ok, List.forall₂_cons_left_iff]
    apply exists_congr
    intro result
    rw [except_bind_ok]
    constructor
    · rintro ⟨first, rest, others, last⟩
      exact ⟨rest, first, ih.mp others, (except_pure_ok.mp last).symm⟩
    · rintro ⟨rest, first, others, rfl⟩
      exact ⟨first, rest, ih.mpr others, rfl⟩

theorem except_forM_error {f : α → Except ε Unit} {items : List α} {e : ε}
    (failed : items.forM f = .error e) : ∃ item ∈ items, f item = .error e := by
  induction items with
  | nil => cases failed
  | cons item items ih =>
    rw [List.forM] at failed
    obtain failed | ⟨_, -, failed⟩ := except_bind_error.mp failed
    · exact ⟨item, List.mem_cons_self, failed⟩
    · obtain ⟨other, listed, failed⟩ := ih failed
      exact ⟨other, List.mem_cons_of_mem _ listed, failed⟩

theorem except_mapM_error {f : α → Except ε β} {items : List α} {e : ε}
    (failed : items.mapM f = .error e) : ∃ item ∈ items, f item = .error e := by
  induction items with
  | nil => cases failed
  | cons item items ih =>
    rw [List.mapM_cons] at failed
    obtain failed | ⟨_, -, failed⟩ := except_bind_error.mp failed
    · exact ⟨item, List.mem_cons_self, failed⟩
    · obtain failed | ⟨_, -, failed⟩ := except_bind_error.mp failed
      · obtain ⟨other, listed, failed⟩ := ih failed
        exact ⟨other, List.mem_cons_of_mem _ listed, failed⟩
      · cases failed

theorem bind_of_ok {x : EStateM ε σ α} {f : α → EStateM ε σ β} {s r : σ} {a : α}
    (h : x s = .ok a r) : (x >>= f) s = f a r := by
  change EStateM.bind x f s = f a r
  simp only [EStateM.bind, h]

theorem bind_of_error {x : EStateM ε σ α} {f : α → EStateM ε σ β} {s r : σ} {e : ε}
    (h : x s = .error e r) : (x >>= f) s = .error e r := by
  change EStateM.bind x f s = .error e r
  simp only [EStateM.bind, h]

theorem step_bind_ok {x : EStateM ε σ α} {f : α → EStateM ε σ β} {s t : σ} {b : β} :
    (x >>= f) s = .ok b t ↔ ∃ a r, x s = .ok a r ∧ f a r = .ok b t := by
  constructor
  · intro h
    cases hx : x s with
    | ok a r => exact ⟨a, r, rfl, by rwa [bind_of_ok hx] at h⟩
    | error e r =>
      rw [bind_of_error hx] at h
      cases h
  · rintro ⟨a, r, hx, hf⟩
    rwa [bind_of_ok hx]

theorem step_bind_error {x : EStateM ε σ α} {f : α → EStateM ε σ β} {s t : σ} {e : ε} :
    (x >>= f) s = .error e t ↔
      x s = .error e t ∨ ∃ a r, x s = .ok a r ∧ f a r = .error e t := by
  cases hx : x s with
  | ok a r =>
    rw [bind_of_ok hx]
    constructor
    · intro failed
      exact .inr ⟨a, r, rfl, failed⟩
    · rintro (failed | ⟨_, _, equal, failed⟩)
      · cases failed
      · cases equal
        exact failed
  | error other r =>
    rw [bind_of_error hx]
    constructor
    · intro failed
      cases failed
      exact .inl rfl
    · rintro (failed | ⟨_, _, equal, -⟩)
      · cases failed
        rfl
      · cases equal

theorem step_pure_ok {a b : α} {s t : σ} :
    (pure a : EStateM ε σ α) s = .ok b t ↔ a = b ∧ s = t := by
  change EStateM.Result.ok a s = .ok b t ↔ _
  rw [EStateM.Result.ok.injEq]

theorem step_pure_error {a : α} {s t : σ} {e : ε} : (pure a : EStateM ε σ α) s ≠ .error e t := by
  intro failed
  cases failed

/-- Whether a step succeeded. -/
def succeeded : EStateM.Result ε σ α → Bool
  | .ok _ _ => true
  | .error _ _ => false

theorem ok_of_succeeded {r : EStateM.Result ε σ α} (h : succeeded r = true) :
    ∃ a s, r = .ok a s := by
  cases r with
  | ok a s => exact ⟨a, s, rfl⟩
  | error e s => cases h

theorem ofResult_ok {x : Except Failure α} {s t : σ} {a : α} :
    ofResult x s = .ok a t ↔ x = .ok a ∧ s = t := by
  cases x with
  | ok b =>
    change EStateM.Result.ok b s = .ok a t ↔ _
    rw [EStateM.Result.ok.injEq, Except.ok.injEq]
  | error failure =>
    constructor
    · intro h
      cases h
    · intro h
      cases h.1

theorem ofResult_error {x : Except Failure α} {s t : σ} {failure : Failure} :
    ofResult x s = .error failure t ↔ x = .error failure ∧ s = t := by
  cases x with
  | ok b =>
    constructor
    · intro h
      cases h
    · intro h
      cases h.1
  | error other =>
    change EStateM.Result.error other s = .error failure t ↔ _
    rw [EStateM.Result.error.injEq, Except.error.injEq]

end ConfigRecovery
