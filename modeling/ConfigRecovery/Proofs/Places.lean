import ConfigRecovery.Proofs.Step
import ConfigRecovery.Store.Disk

/-!
# Places on a disk without links

Without links a path is followed name by name from one place to the next. Making directories puts
them where nothing was, and writing a file puts it where nothing or a file was, so all places that a
path led to before are still there.
-/

namespace ConfigRecovery.Disk

variable {disk before after : Disk} {place stop : Place} {way : List String}

def Linkless (disk : Disk) : Prop :=
  ∀ (place : Place) (target : String), disk.entries[place]? ≠ some (.link target)

theorem entries_put (disk : Disk) (place other : Place) (entry : Entry) :
    (disk.put place entry).entries[other]? =
      if place = other then some entry else disk.entries[other]? := by
  rw [put, Std.ExtTreeMap.getElem?_insert]
  simp only [Std.compare_eq_iff_eq]

theorem entry?_cons (disk : Disk) (name : String) (place : Place) :
    disk.entry? (name :: place) = disk.entries[name :: place]? :=
  if_neg (List.cons_ne_nil _ _)

theorem isDirectoryAt_iff : disk.isDirectoryAt place = true ↔
    place = [] ∨ disk.entries[place]? = some .directory := by
  unfold isDirectoryAt entry?
  by_cases top : place = []
  · simp [top]
  · rw [if_neg top]
    cases disk.entries[place]? with
    | none => simp [top]
    | some entry => cases entry <;> simp [top]

/-! ## Following names -/

/-- Names lead from a directory to another one, over directories only. -/
inductive Leads (disk : Disk) : Place → List String → Place → Prop where
  | here {place : Place} (directory : disk.isDirectoryAt place = true) : Leads disk place [] place
  | stay {place stop : Place} {name : String} {way : List String}
      (stays : staysPut name = true) (rest : Leads disk place way stop) :
      Leads disk place (name :: way) stop
  | up {place stop : Place} {way : List String} (directory : disk.isDirectoryAt place = true)
      (rest : Leads disk place.tail way stop) : Leads disk place (".." :: way) stop
  | down {place stop : Place} {name : String} {way : List String}
      (directory : disk.isDirectoryAt place = true) (moves : staysPut name = false)
      (lower : name ≠ "..") (short : name.utf8ByteSize ≤ maxName)
      (rest : Leads disk (name :: place) way stop) : Leads disk place (name :: way) stop

namespace Leads

theorem start (leads : Leads disk place way stop) : disk.isDirectoryAt place = true := by
  induction leads with
  | here directory => exact directory
  | stay stays rest ih => exact ih
  | up directory rest ih => exact directory
  | down directory moves lower short rest ih => exact directory

theorem mono (leads : Leads before place way stop)
    (kept : ∀ place, before.isDirectoryAt place = true → after.isDirectoryAt place = true) :
    Leads after place way stop := by
  induction leads with
  | here directory => exact .here (kept _ directory)
  | stay stays rest ih => exact .stay stays ih
  | up directory rest ih => exact .up (kept _ directory) ih
  | down directory moves lower short rest ih => exact .down (kept _ directory) moves lower short ih

end Leads

theorem walk_of_leads (leads : Leads disk place way stop) (links : Nat) :
    disk.walk ⟨place, links⟩ way = .ok ⟨stop, links⟩ := by
  induction leads with
  | here directory => rw [walk]
  | stay stays rest ih => simpa [walk, rest.start, stays] using ih
  | up directory rest ih => simpa [walk, directory, staysPut] using ih
  | @down place stop name way directory moves lower short rest ih =>
    have there : disk.entries[name :: place]? = some .directory :=
      (isDirectoryAt_iff.mp rest.start).resolve_left (List.cons_ne_nil _ _)
    simpa [walk, directory, moves, lower, Nat.not_lt.mpr short, entry?_cons, there] using ih

theorem leads_of_walk (linkless : disk.Linkless) {start cursor : Cursor}
    (walked : disk.walk start way = .ok cursor)
    (arrived : disk.isDirectoryAt cursor.place = true) :
    Leads disk start.place way cursor.place := by
  fun_induction walk disk start way with
  | case1 cursor' =>
    cases walked
    exact .here arrived
  | case3 place links name rest directory stays ih => exact .stay stays (ih walked)
  | case4 place links rest directory stays ih => exact .up (by simpa using directory) (ih walked)
  | case7 place name rest directory stays up long target there =>
    exact absurd (entry?_cons disk name place ▸ there) (linkless _ _)
  | case8 place name rest directory stays up long target there =>
    exact absurd (entry?_cons disk name place ▸ there) (linkless _ _)
  | case9 place links name rest directory stays up long entry _ there ih =>
    exact .down (by simpa using directory) (Bool.eq_false_iff.mpr stays) up (Nat.not_lt.mp long)
      (ih walked)
  | _ => cases walked

theorem Leads.unique {other : Place} (leads : Leads disk place way stop)
    (again : Leads disk place way other) : stop = other := by
  have same := (walk_of_leads leads 0).symm.trans (walk_of_leads again 0)
  cases same
  rfl

theorem Leads.finish (leads : Leads disk place way stop) : disk.isDirectoryAt stop = true := by
  induction leads with
  | here directory => exact directory
  | stay stays rest ih => exact ih
  | up directory rest ih => exact ih
  | down directory moves lower short rest ih => exact ih

theorem leads_append {more : List String} : Leads disk place (way ++ more) stop ↔
    ∃ mid, Leads disk place way mid ∧ Leads disk mid more stop := by
  constructor
  · intro leads
    induction way generalizing place with
    | nil => exact ⟨place, .here leads.start, leads⟩
    | cons name way ih =>
      rw [List.cons_append] at leads
      cases leads with
      | stay stays rest =>
        obtain ⟨mid, first, second⟩ := ih rest
        exact ⟨mid, .stay stays first, second⟩
      | up directory rest =>
        obtain ⟨mid, first, second⟩ := ih rest
        exact ⟨mid, .up directory first, second⟩
      | down directory moves lower short rest =>
        obtain ⟨mid, first, second⟩ := ih rest
        exact ⟨mid, .down directory moves lower short first, second⟩
  · rintro ⟨mid, first, second⟩
    induction first with
    | here directory => exact second
    | stay stays rest ih => exact .stay stays (ih second)
    | up directory rest ih => exact .up directory (ih second)
    | down directory moves lower short rest ih => exact .down directory moves lower short (ih second)

/-- Names that lead down are stacked on the place where they start. -/
theorem Leads.eq_of_down (leads : Leads disk place way stop)
    (down : ∀ name ∈ way, staysPut name = false ∧ name ≠ "..") : stop = way.reverse ++ place := by
  induction leads with
  | here directory => rfl
  | stay stays rest ih =>
    have moves := (down _ List.mem_cons_self).1
    rw [stays] at moves
    cases moves
  | up directory rest ih => exact absurd rfl (down _ List.mem_cons_self).2
  | down directory moves lower short rest ih =>
    obtain ⟨-, others⟩ := List.forall_mem_cons.mp down
    rw [ih others, List.reverse_cons, List.append_assoc]
    rfl

theorem walkToDirectory_ok {start cursor : Cursor} : disk.walkToDirectory start way = .ok cursor ↔
    disk.walk start way = .ok cursor ∧ disk.isDirectoryAt cursor.place = true := by
  unfold walkToDirectory
  cases disk.walk start way with
  | error fault => simp
  | ok stop =>
    by_cases directory : disk.isDirectoryAt stop.place = true
    · simp only [directory]
      constructor
      · intro same
        cases same
        exact ⟨rfl, directory⟩
      · rintro ⟨same, -⟩
        exact same
    · simp only [directory]
      constructor
      · intro same
        cases same
      · rintro ⟨same, arrived⟩
        cases same
        exact absurd arrived directory

theorem isDirectory_iff (linkless : disk.Linkless) {path : String} :
    disk.isDirectory path = true ↔
      pathFault? path = none ∧ ∃ top, Leads disk [] (names path) top := by
  unfold isDirectory resolve
  cases pathFault? path with
  | some fault => simp
  | none =>
    simp only [true_and]
    constructor
    · intro directory
      cases walked : disk.walk .start (names path) with
      | error fault =>
        rw [walked] at directory
        cases directory
      | ok cursor =>
        rw [walked] at directory
        exact ⟨cursor.place, leads_of_walk linkless walked directory⟩
    · rintro ⟨top, leads⟩
      rw [Cursor.start, walk_of_leads leads]
      exact leads.finish

theorem resolve_of_leads {path : String} (sound : pathFault? path = none)
    (leads : Leads disk [] (names path) stop) : disk.resolve path = .ok stop := by
  unfold resolve
  rw [sound, Cursor.start]
  change Except.map _ (disk.walk _ _) = _
  rw [walk_of_leads leads]
  rfl

/-! ## Making directories -/

/-- Directories where nothing was are all that is new. -/
def Raised (before after : Disk) : Prop :=
  ∀ place : Place, after.entries[place]? = before.entries[place]? ∨
    before.entries[place]? = none ∧ after.entries[place]? = some .directory

namespace Raised

theorem refl (disk : Disk) : Raised disk disk := fun _ => .inl rfl

theorem trans {mid : Disk} (first : Raised before mid) (second : Raised mid after) :
    Raised before after := by
  intro place
  obtain same | ⟨free, new⟩ := second place
  · rw [same]
    exact first place
  · obtain same | ⟨_, old⟩ := first place
    · exact .inr ⟨same ▸ free, new⟩
    · rw [free] at old
      cases old

theorem isDirectoryAt (raised : Raised before after) (place : Place)
    (directory : before.isDirectoryAt place = true) : after.isDirectoryAt place = true := by
  rw [isDirectoryAt_iff] at directory ⊢
  apply directory.imp_right
  intro there
  obtain same | ⟨free, -⟩ := raised place
  · rw [same, there]
  · rw [free] at there
    cases there

theorem file_iff (raised : Raised before after) {bytes : ByteArray} :
    after.entries[place]? = some (.file bytes) ↔ before.entries[place]? = some (.file bytes) := by
  obtain same | ⟨free, new⟩ := raised place
  · rw [same]
  · simp [free, new]

theorem linkless (raised : Raised before after) (linkless : before.Linkless) : after.Linkless := by
  intro place target there
  obtain same | ⟨-, new⟩ := raised place
  · exact linkless place target (same ▸ there)
  · rw [new] at there
    cases there

end Raised

theorem raised_put {name : String} (free : disk.entry? (name :: place) = none) :
    Raised disk (disk.put (name :: place) .directory) := by
  intro other
  rw [entries_put]
  by_cases same : name :: place = other
  · rw [if_pos same, ← same]
    exact .inr ⟨entry?_cons disk name place ▸ free, rfl⟩
  · exact .inl (if_neg same)

/-- A directory is made below the one that all but its last name lead to, where nothing is. -/
theorem makeDirectory_ok {path : String} (made : disk.makeDirectory path = .ok after) :
    pathFault? path = none ∧ ∃ name above cursor, namesBackward path = name :: above ∧
      disk.walkToDirectory .start above.reverse = .ok cursor ∧ ¬(name = "." ∨ name = "..") ∧
      name.utf8ByteSize ≤ maxName ∧ disk.entry? (name :: cursor.place) = none ∧
      after = disk.put (name :: cursor.place) .directory := by
  unfold makeDirectory at made
  cases sound : pathFault? path with
  | some fault =>
    rw [sound] at made
    cases made
  | none =>
    cases last : namesBackward path with
    | nil =>
      rw [sound, last] at made
      cases made
    | cons name above =>
      rw [sound, last] at made
      obtain ⟨cursor, walked, placed⟩ := except_bind_ok.mp made
      dsimp only at placed
      split at placed
      · cases placed
      · next moves =>
        split at placed
        · cases placed
        · next short =>
          cases there : disk.entry? (name :: cursor.place) with
          | some entry =>
            rw [there] at placed
            cases placed
          | none =>
            rw [there] at placed
            cases placed
            exact ⟨rfl, name, above, cursor, rfl, walked, moves, Nat.not_lt.mp short, there, rfl⟩

theorem raised_of_makeDirectory {path : String} (made : disk.makeDirectory path = .ok after) :
    Raised disk after := by
  obtain ⟨-, name, above, cursor, -, -, -, -, free, rfl⟩ := makeDirectory_ok made
  exact raised_put free

/-- What holds after each directory that is made holds after all of them. -/
theorem makeAll_induction (holds : Disk → Prop) {paths : List String}
    (step : ∀ path ∈ paths, ∀ before after : Disk, holds before →
      before.makeDirectory path = .ok after → holds after)
    (start : holds disk) : holds (disk.makeAll paths).2 := by
  fun_induction makeAll disk paths with
  | case1 => exact start
  | case2 path outer behind made => exact step path List.mem_cons_self _ _ start made
  | case3 path outer fault behind above missing ih =>
    rw [above] at ih
    exact ih fun path listed => step path (List.mem_cons_of_mem _ listed)
  | case4 path outer done mid above behind made missing ih =>
    rw [above] at ih
    have below := ih fun path listed => step path (List.mem_cons_of_mem _ listed)
    exact step path List.mem_cons_self _ _ below made
  | case5 path outer done behind above fault failed missing ih =>
    rw [above] at ih
    exact ih fun path listed => step path (List.mem_cons_of_mem _ listed)
  | case6 path outer fault failed other => exact start

theorem raised_makeAll (paths : List String) (disk : Disk) :
    Raised disk (disk.makeAll paths).2 :=
  makeAll_induction _ (fun _ _ _ _ raised made => raised.trans (raised_of_makeDirectory made))
    (.refl _)

theorem raised_makeDirectories (path : String) (disk : Disk) :
    Raised disk (disk.makeDirectories path).2 :=
  raised_makeAll _ disk

/-! ## Writing a file -/

theorem Linkless.put_file (linkless : disk.Linkless) (place : Place) (bytes : ByteArray) :
    (disk.put place (.file bytes)).Linkless := by
  intro other target
  rw [entries_put]
  split
  · simp
  · exact linkless other target

/-- Directories stay where nothing is written. -/
theorem isDirectoryAt_put {other : Place} {entry : Entry}
    (free : disk.entries[place]? ≠ some .directory) (directory : disk.isDirectoryAt other = true) :
    (disk.put place entry).isDirectoryAt other = true := by
  rw [isDirectoryAt_iff] at directory ⊢
  apply directory.imp_right
  intro there
  rw [entries_put, if_neg, there]
  rintro rfl
  exact free there

/--
On a disk without links a file is put below the directory that all but its last name lead to, unless
there is a directory in its place.
-/
theorem writeFile_ok (linkless : disk.Linkless) {path : String} {bytes : ByteArray} :
    disk.writeFile path bytes = .ok after ↔ pathFault? path = none ∧ ∃ name above parent,
      namesBackward path = name :: above ∧ Leads disk [] above.reverse parent ∧
      ¬(endsInSlash path ∨ name = "." ∨ name = "..") ∧ name.utf8ByteSize ≤ maxName ∧
      disk.entries[name :: parent]? ≠ some .directory ∧
      after = disk.put (name :: parent) (.file bytes) := by
  unfold writeFile
  cases pathFault? path with
  | some fault => simp
  | none =>
    rw [writeFrom]
    cases last : namesBackward path with
    | nil => simp
    | cons name above =>
      constructor
      · intro wrote
        dsimp only at wrote
        split at wrote
        · cases wrote
        · next parent links walked =>
          obtain ⟨walked, arrived⟩ := walkToDirectory_ok.mp walked
          have leads := leads_of_walk linkless walked arrived
          split at wrote
          · cases wrote
          · next file =>
            split at wrote
            · cases wrote
            · next short =>
              rw [entry?_cons] at wrote
              split at wrote
              · cases wrote
              · next target there => exact absurd there (linkless _ _)
              · next free link =>
                cases wrote
                exact ⟨rfl, name, above, parent, rfl, leads, file, Nat.not_lt.mp short, free, rfl⟩
      · rintro ⟨-, _, _, parent, same, leads, file, short, free, rfl⟩
        cases same
        have walked := walkToDirectory_ok.mpr ⟨walk_of_leads leads maxLinks, leads.finish⟩
        dsimp only
        split
        · next fault failed => cases walked.symm.trans failed
        · next other links walked' =>
          cases walked.symm.trans walked'
          rw [if_neg file, if_neg (Nat.not_lt.mpr short), entry?_cons]
          split
          · next there => exact absurd there free
          · next target there => exact absurd there (linkless _ _)
          · rfl

end ConfigRecovery.Disk
