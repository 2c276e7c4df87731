import ConfigRecovery.Proofs.Application
import ConfigRecovery.Proofs.ContentIndex

/-!
# Icons of the tab bar

An item is changed slot by slot. The fields of one slot are no fields of another, so what becomes of
a slot can be read off the item as it was at first, and the fields that stay keep their order.
-/

namespace ConfigRecovery

/-! ## Keys that stay -/

/-- Some of the keys are gone and new ones stand at the end; the others keep their order. -/
def Fields.Keeps (gone added : List String) (before after : List String) : Prop :=
  ∃ lost new, after = before.filter (· ∉ lost) ++ new ∧ lost ⊆ gone ∧
    ∀ key ∈ new, key ∈ added ∧ key ∉ before

namespace Fields.Keeps

variable {α : Type} {gone added : List String}

theorem refl (keys : List String) : Keeps gone added keys keys :=
  ⟨[], [], by simp, by simp, by simp⟩

theorem trans (disjoint : ∀ key ∈ gone, key ∉ added) {a b c : List String}
    (first : Keeps gone added a b) (second : Keeps gone added b c) : Keeps gone added a c := by
  obtain ⟨lost, new, rfl, lost_gone, new_added⟩ := first
  obtain ⟨lost', new', rfl, lost_gone', new_added'⟩ := second
  refine ⟨lost ++ lost', new.filter (· ∉ lost') ++ new', ?_, ?_, ?_⟩
  · rw [List.filter_append, List.filter_filter, List.append_assoc]
    congr 1
    apply List.filter_congr
    intro key _
    simp [Bool.and_comm]
  · exact List.append_subset.mpr ⟨lost_gone, lost_gone'⟩
  · intro key member
    rcases List.mem_append.mp member with early | late
    · exact new_added key (List.mem_filter.mp early).1
    · obtain ⟨allowed, absent⟩ := new_added' key late
      refine ⟨allowed, fun listed => absent ?_⟩
      -- a key that was there at first and can be added was never lost
      have stays : key ∉ lost := fun dropped => disjoint key (lost_gone dropped) allowed
      exact List.mem_append_left _ (List.mem_filter.mpr ⟨listed, by simpa using stays⟩)

theorem insert (fields : Fields α) {key : String} (allowed : key ∈ added) (value : α) :
    Keeps gone added (keys fields) (keys (Fields.insert fields key value)) := by
  rw [keys_insert]
  by_cases h : key ∈ keys fields
  · rw [if_pos h]
    exact refl _
  · rw [if_neg h]
    exact ⟨[], [key], by simp, by simp, by simpa using ⟨allowed, h⟩⟩

theorem erase {fields : Fields α} (distinct : (keys fields).Nodup) {key : String}
    (allowed : key ∈ gone) : Keeps gone added (keys fields) (keys (Fields.erase fields key)) := by
  rw [erase_eq_without distinct, keys_without]
  exact ⟨[key], [], by simp, by simpa using allowed, by simp⟩

end Fields.Keeps

namespace TabBar

/-! ## One slot -/

def Slot.fields (slot : Slot) : List String := [slot.data, slot.path]

/-- The inline data of an icon, if there is any. -/
def iconText? (item : Fields Json.Value) (slot : Slot) : Option String :=
  match Fields.get? item slot.data with
  | some (.string data) => if data = "" then none else some data
  | _ => none

def iconBytes? (item : Fields Json.Value) (slot : Slot) : Option (List UInt8) :=
  (iconText? item slot).bind fun data =>
    Base64.decode (data.toList.filter fun c => !ContentIndex.isBlank c)

def found? (index : ContentIndex) (item : Fields Json.Value) (slot : Slot) : Option String :=
  (iconBytes? item slot).bind index.lookup

section

variable {index : ContentIndex} {item : Fields Json.Value} {slot : Slot}

theorem icon_congr {other : Fields Json.Value}
    (same : Fields.get? item slot.data = Fields.get? other slot.data) :
    iconText? item slot = iconText? other slot ∧ iconBytes? item slot = iconBytes? other slot := by
  have text : iconText? item slot = iconText? other slot := by
    rw [iconText?, iconText?, same]
  exact ⟨text, by rw [iconBytes?, iconBytes?, text]⟩

theorem found?_eq_bind :
    found? index item slot = (iconText? item slot).bind index.lookupInline := by
  rw [found?, iconBytes?, Option.bind_assoc]
  rfl

theorem linkSlot_eq : linkSlot index item slot =
    match iconText? item slot with
    | none => (item, {})
    | some data =>
      match index.lookupInline data with
      | some path => (Fields.erase (Fields.insert item slot.path (.string path)) slot.data, ⟨1, 0⟩)
      | none => (item, ⟨0, 1⟩) := by
  unfold linkSlot iconText?
  cases Fields.get? item slot.data with
  | none => rfl
  | some value =>
    cases value with
    | string data =>
      by_cases h : data = ""
      · simp only [if_pos h]
      · cases looked : index.lookupInline data with
        | none => simp only [if_neg h, looked]
        | some path => simp only [if_neg h, looked]
    | _ => rfl

theorem linkSlot_of_found {path : String} (found : found? index item slot = some path) :
    (iconText? item slot).isSome = true ∧ linkSlot index item slot =
      (Fields.erase (Fields.insert item slot.path (.string path)) slot.data, ⟨1, 0⟩) := by
  rw [found?_eq_bind, Option.bind_eq_some_iff] at found
  obtain ⟨data, text, looked⟩ := found
  simp only [linkSlot_eq, text, looked]
  exact ⟨rfl, trivial⟩

theorem linkSlot_of_missed (missed : found? index item slot = none) :
    linkSlot index item slot = (item, ⟨0, if (iconText? item slot).isSome then 1 else 0⟩) := by
  rw [found?_eq_bind] at missed
  rw [linkSlot_eq]
  cases text : iconText? item slot with
  | none => rfl
  | some data =>
    rw [text, Option.bind_some] at missed
    simp only [missed]
    rfl

end

/-! ## The slots of an item -/

/-- What the slots of an item come to, as the index finds their icons. -/
structure Relinked (index : ContentIndex) (slots : List Slot) (item linked : Fields Json.Value) :
    Prop where
  found : ∀ slot ∈ slots, ∀ path, found? index item slot = some path →
    Fields.get? linked slot.path = some (.string path) ∧ Fields.get? linked slot.data = none
  missed : ∀ slot ∈ slots, found? index item slot = none →
    Fields.get? linked slot.path = Fields.get? item slot.path ∧
      Fields.get? linked slot.data = Fields.get? item slot.data
  others : ∀ key ∉ slots.flatMap Slot.fields, Fields.get? linked key = Fields.get? item key

def linkSlots (index : ContentIndex) (item : Fields Json.Value) :
    List Slot → Fields Json.Value × Counts
  | [] => (item, {})
  | slot :: slots =>
    let first := linkSlot index item slot
    let rest := linkSlots index first.1 slots
    (rest.1, first.2.add rest.2)

section

variable {index : ContentIndex} {item : Fields Json.Value} {slot : Slot} {slots : List Slot}

theorem nodup_linkSlot (distinct : item.keys.Nodup) :
    (linkSlot index item slot).1.keys.Nodup := by
  cases hit : found? index item slot with
  | some path =>
    rw [(linkSlot_of_found hit).2]
    exact Fields.nodup_keys_erase (Fields.nodup_keys_insert distinct _ _) _
  | none =>
    rw [linkSlot_of_missed hit]
    exact distinct

theorem get?_linkSlot (distinct : item.keys.Nodup) (key : String) :
    Fields.get? (linkSlot index item slot).1 key =
      match found? index item slot with
      | some path =>
        if key = slot.data then none
        else if key = slot.path then some (.string path) else Fields.get? item key
      | none => Fields.get? item key := by
  cases hit : found? index item slot with
  | some path =>
    rw [(linkSlot_of_found hit).2, Fields.get?_erase (Fields.nodup_keys_insert distinct _ _),
      Fields.get?_insert]
  | none => rw [linkSlot_of_missed hit]

theorem get?_linkSlot_of_not_mem (distinct : item.keys.Nodup) {key : String}
    (other : key ∉ slot.fields) :
    Fields.get? (linkSlot index item slot).1 key = Fields.get? item key := by
  simp only [Slot.fields, List.mem_cons, List.not_mem_nil, or_false, not_or] at other
  rw [get?_linkSlot distinct]
  cases found? index item slot with
  | some path => simp only [if_neg other.1, if_neg other.2]
  | none => rfl

theorem keeps_linkSlot (distinct : item.keys.Nodup) {gone added : List String}
    (disjoint : ∀ key ∈ gone, key ∉ added) (data : slot.data ∈ gone) (path : slot.path ∈ added) :
    Fields.Keeps gone added item.keys (linkSlot index item slot).1.keys := by
  cases hit : found? index item slot with
  | some name =>
    rw [(linkSlot_of_found hit).2]
    have inserted := Fields.nodup_keys_insert distinct slot.path (.string name)
    exact (Fields.Keeps.insert item path _).trans disjoint (Fields.Keeps.erase inserted data)
  | none =>
    rw [linkSlot_of_missed hit]
    exact .refl _

theorem nodup_linkSlots (distinct : item.keys.Nodup) :
    (linkSlots index item slots).1.keys.Nodup := by
  induction slots generalizing item with
  | nil => exact distinct
  | cons slot slots ih => exact ih (nodup_linkSlot distinct)

theorem keeps_linkSlots (distinct : item.keys.Nodup) {gone added : List String}
    (disjoint : ∀ key ∈ gone, key ∉ added)
    (allowed : ∀ slot ∈ slots, slot.data ∈ gone ∧ slot.path ∈ added) :
    Fields.Keeps gone added item.keys (linkSlots index item slots).1.keys := by
  induction slots generalizing item with
  | nil => exact .refl _
  | cons slot slots ih =>
    obtain ⟨⟨data, path⟩, rest⟩ := List.forall_mem_cons.mp allowed
    exact (keeps_linkSlot distinct disjoint data path).trans disjoint
      (ih (nodup_linkSlot distinct) rest)

theorem Slot.data_mem_fields (slot : Slot) : slot.data ∈ slot.fields := by
  simp [fields]

theorem Slot.path_mem_fields (slot : Slot) : slot.path ∈ slot.fields := by
  simp [fields]

theorem separate_cons (separate : ((slot :: slots).flatMap Slot.fields).Nodup) :
    slot.data ≠ slot.path ∧ (∀ key ∈ slot.fields, key ∉ slots.flatMap Slot.fields) ∧
      (slots.flatMap Slot.fields).Nodup := by
  rw [List.flatMap_cons, List.nodup_append] at separate
  obtain ⟨own, rest, apart⟩ := separate
  refine ⟨?_, fun key mine other => apart key mine key other rfl, rest⟩
  simpa [Slot.fields] using own

theorem icon_linkSlot (separate : ((slot :: slots).flatMap Slot.fields).Nodup)
    (distinct : item.keys.Nodup) {other : Slot} (member : other ∈ slots) :
    iconText? (linkSlot index item slot).1 other = iconText? item other ∧
      found? index (linkSlot index item slot).1 other = found? index item other := by
  have foreign : other.data ∉ slot.fields := by
    intro shared
    have listed := List.mem_flatMap.mpr ⟨other, member, other.data_mem_fields⟩
    exact (separate_cons separate).2.1 other.data shared listed
  have same : Fields.get? (linkSlot index item slot).1 other.data = Fields.get? item other.data :=
    get?_linkSlot_of_not_mem distinct foreign
  obtain ⟨text, bytes⟩ := icon_congr same
  exact ⟨text, by rw [found?, found?, bytes]⟩

/-- No slot looks at a field of another, so all of them are linked as they are found at first. -/
theorem linkSlots_relinked (separate : (slots.flatMap Slot.fields).Nodup)
    (distinct : item.keys.Nodup) : Relinked index slots item (linkSlots index item slots).1 := by
  induction slots generalizing item with
  | nil => exact ⟨by simp, by simp, fun _ _ => rfl⟩
  | cons slot slots ih =>
    obtain ⟨apart, alone, rest⟩ := separate_cons separate
    have stays : (linkSlot index item slot).1.keys.Nodup := nodup_linkSlot distinct
    have later := ih rest stays
    have unseen {other : Slot} (member : other ∈ slots) {key : String} (own : key ∈ other.fields) :
        key ∉ slot.fields :=
      fun shared => alone key shared (List.mem_flatMap.mpr ⟨other, member, own⟩)
    have same {other : Slot} (member : other ∈ slots) :
        found? index (linkSlot index item slot).1 other = found? index item other :=
      (icon_linkSlot separate distinct member).2
    constructor
    · intro other member path hit
      rcases List.mem_cons.mp member with rfl | member
      · rw [linkSlots, later.others _ (alone _ other.path_mem_fields),
          later.others _ (alone _ other.data_mem_fields), get?_linkSlot distinct,
          get?_linkSlot distinct, hit]
        simp [apart.symm]
      · exact later.found other member path (same member ▸ hit)
    · intro other member miss
      rcases List.mem_cons.mp member with rfl | member
      · rw [linkSlots, later.others _ (alone _ other.path_mem_fields),
          later.others _ (alone _ other.data_mem_fields), get?_linkSlot distinct,
          get?_linkSlot distinct, miss]
        exact ⟨rfl, rfl⟩
      · have kept := later.missed other member (same member ▸ miss)
        rw [get?_linkSlot_of_not_mem distinct (unseen member other.path_mem_fields),
          get?_linkSlot_of_not_mem distinct (unseen member other.data_mem_fields)] at kept
        exact kept
    · intro key foreign
      rw [List.flatMap_cons, List.mem_append, not_or] at foreign
      rw [linkSlots, later.others key foreign.2, get?_linkSlot_of_not_mem distinct foreign.1]

theorem linkSlots_counts (separate : (slots.flatMap Slot.fields).Nodup)
    (distinct : item.keys.Nodup) :
    (linkSlots index item slots).2.resolved =
        slots.countP (fun slot => (found? index item slot).isSome) ∧
      (linkSlots index item slots).2.resolved + (linkSlots index item slots).2.unresolved =
        slots.countP fun slot => (iconText? item slot).isSome := by
  induction slots generalizing item with
  | nil => exact ⟨rfl, rfl⟩
  | cons slot slots ih =>
    have stays : (linkSlot index item slot).1.keys.Nodup := nodup_linkSlot distinct
    obtain ⟨resolved, all⟩ := ih (separate_cons separate).2.2 stays
    have same {other : Slot} (member : other ∈ slots) :
        iconText? (linkSlot index item slot).1 other = iconText? item other ∧
          found? index (linkSlot index item slot).1 other = found? index item other :=
      icon_linkSlot separate distinct member
    have found :
        slots.countP (fun other => (found? index (linkSlot index item slot).1 other).isSome) =
          slots.countP fun other => (found? index item other).isSome :=
      List.countP_congr fun other member => by rw [(same member).2]
    have texts : slots.countP (fun other => (iconText? (linkSlot index item slot).1 other).isSome) =
        slots.countP fun other => (iconText? item other).isSome :=
      List.countP_congr fun other member => by rw [(same member).1]
    rw [found] at resolved
    rw [texts] at all
    rw [linkSlots, List.countP_cons, List.countP_cons]
    cases hit : found? index item slot with
    | some path =>
      obtain ⟨text, linked⟩ := linkSlot_of_found hit
      simp only [Counts.add, linked, text] at resolved all ⊢
      simp
      omega
    | none =>
      have kept := linkSlot_of_missed hit
      simp only [Counts.add, kept] at resolved all ⊢
      simp
      omega

end

theorem foldl_linkSlot (index : ContentIndex) (slots : List Slot) (item : Fields Json.Value)
    (counts : Counts) :
    slots.foldl (fun (item, counts) slot =>
        let (item, more) := linkSlot index item slot
        (item, counts.add more)) (item, counts) =
      ((linkSlots index item slots).1, counts.add (linkSlots index item slots).2) := by
  induction slots generalizing item counts with
  | nil => rfl
  | cons slot slots ih =>
    rw [List.foldl_cons, ih, linkSlots]
    simp [Counts.add, Nat.add_assoc]

theorem linkItem_object (index : ContentIndex) (item : Fields Json.Value) :
    linkItem index (.object item) =
      (.object (linkSlots index (linkPage item) slots).1,
        (linkSlots index (linkPage item) slots).2) := by
  rw [linkItem, foldl_linkSlot]
  simp [Counts.add]

/-! ## The page of an item -/

def pageValue : Option Json.Value → Option Json.Value
  | some (.string page) => some (.string (PageKey.ofPath page).name)
  | other => other

theorem get?_linkPage (item : Fields Json.Value) (key : String) :
    Fields.get? (linkPage item) key =
      if key = pageField then pageValue (Fields.get? item pageField) else Fields.get? item key := by
  unfold linkPage
  split
  · rename_i page held
    rw [held, Fields.get?_insert]
    rfl
  · rename_i noText
    have same : pageValue (Fields.get? item pageField) = Fields.get? item pageField := by
      unfold pageValue
      split
      · rename_i page held
        exact (noText page held).elim
      · rfl
    by_cases h : key = pageField
    · rw [if_pos h, h, same]
    · rw [if_neg h]

theorem keys_linkPage (item : Fields Json.Value) : (linkPage item).keys = item.keys := by
  unfold linkPage
  split
  · rename_i page held
    have listed : pageField ∈ item.keys := by
      by_contra absent
      cases held.symm.trans (Fields.get?_eq_none_iff.mpr absent)
    rw [Fields.keys_insert, if_pos listed]
  · rfl

theorem icon_linkPage (item : Fields Json.Value) {slot : Slot} (own : slot.data ≠ pageField) :
    iconText? (linkPage item) slot = iconText? item slot ∧
      iconBytes? (linkPage item) slot = iconBytes? item slot := by
  apply icon_congr
  rw [get?_linkPage, if_neg own]

/-! ## Items and files -/

section

variable (settings : Settings) (files : List File)

def slotFiles (item : Fields Json.Value) (slot : Slot) : List File :=
  match iconBytes? item slot with
  | some bytes => ContentIndex.holders settings files bytes
  | none => []

/-- The digest tells the icons of an item from the files that hold something else. -/
def Apart (item : Fields Json.Value) : Prop :=
  ∀ slot ∈ slots, ∀ bytes, iconBytes? item slot = some bytes → ∀ file ∈ files,
    ContentIndex.isEligible settings file = true →
      Digest.of file.2.toList = Digest.of bytes → file.2.toList = bytes

/-- An item behind the linking: its icons refer to files, or else they are what they were. -/
structure LinkedItem (item linked : Fields Json.Value) : Prop where
  found : ∀ slot ∈ slots, slotFiles settings files item slot ≠ [] →
    ∃ file ∈ slotFiles settings files item slot,
      (∀ other ∈ slotFiles settings files item slot, utf8 file.1 ≤ utf8 other.1) ∧
      Fields.get? linked slot.path = some (.string (Path.canonical file.1)) ∧
      Fields.get? linked slot.data = none
  missed : ∀ slot ∈ slots, slotFiles settings files item slot = [] →
    Fields.get? linked slot.path = Fields.get? item slot.path ∧
      Fields.get? linked slot.data = Fields.get? item slot.data
  page : Fields.get? linked pageField = pageValue (Fields.get? item pageField)
  others : ∀ key, key ≠ pageField → key ∉ slots.flatMap Slot.fields →
    Fields.get? linked key = Fields.get? item key
  distinct : linked.keys.Nodup
  keeps : Fields.Keeps (slots.map (·.data)) (slots.map (·.path)) item.keys linked.keys

/-- A value of the list behind the linking; what is no object stays as it is. -/
inductive LinkedValue : Json.Value → Json.Value → Prop where
  | object {item linked : Fields Json.Value} (h : LinkedItem settings files item linked) :
    LinkedValue (.object item) (.object linked)
  | other {value : Json.Value} (h : value.kind ≠ .object) : LinkedValue value value

end

/-- The icons of a value of the list, each with the item that it belongs to. -/
def icons : Json.Value → List (Fields Json.Value × Slot)
  | .object item => slots.map (item, ·)
  | _ => []

section

variable {settings : Settings} {files : List File} {item : Fields Json.Value}

theorem found?_of_no_file {slot : Slot} (member : slot ∈ slots) (apart : Apart settings files item)
    (unheld : slotFiles settings files item slot = []) :
    found? (ContentIndex.ofFiles settings files) item slot = none := by
  unfold slotFiles at unheld
  cases bytes : iconBytes? item slot with
  | none => rw [found?, bytes, Option.bind_none]
  | some content =>
    rw [bytes] at unheld
    rw [found?, bytes, Option.bind_some]
    exact ContentIndex.lookup_ofFiles_eq_none (apart slot member content bytes) unheld

theorem found?_of_file {slot : Slot} (member : slot ∈ slots) (apart : Apart settings files item)
    (nonempty : slotFiles settings files item slot ≠ []) :
    ∃ file ∈ slotFiles settings files item slot,
      (∀ other ∈ slotFiles settings files item slot, utf8 file.1 ≤ utf8 other.1) ∧
      found? (ContentIndex.ofFiles settings files) item slot =
        some (Path.canonical file.1) := by
  unfold slotFiles at nonempty ⊢
  cases bytes : iconBytes? item slot with
  | none =>
    rw [bytes] at nonempty
    exact (nonempty rfl).elim
  | some content =>
    rw [bytes] at nonempty
    rw [found?, bytes, Option.bind_some]
    exact ContentIndex.lookup_ofFiles_eq_some (apart slot member content bytes) nonempty

theorem slots_separate : (slots.flatMap Slot.fields).Nodup := by
  decide

theorem pageField_not_mem : pageField ∉ slots.flatMap Slot.fields := by
  decide

theorem ne_pageField {slot : Slot} (member : slot ∈ slots) {key : String}
    (own : key ∈ slot.fields) : key ≠ pageField := by
  rintro rfl
  exact pageField_not_mem (List.mem_flatMap.mpr ⟨slot, member, own⟩)

theorem linkSlots_linked (distinct : item.keys.Nodup) (apart : Apart settings files item) :
    LinkedItem settings files item
      (linkSlots (ContentIndex.ofFiles settings files) (linkPage item) slots).1 := by
  have paged : (linkPage item).keys.Nodup := by
    rw [keys_linkPage]
    exact distinct
  have linked : Relinked (ContentIndex.ofFiles settings files) slots (linkPage item) _ :=
    linkSlots_relinked slots_separate paged
  have same {slot : Slot} (member : slot ∈ slots) :
      found? (ContentIndex.ofFiles settings files) (linkPage item) slot =
        found? (ContentIndex.ofFiles settings files) item slot := by
    rw [found?, found?, (icon_linkPage item (ne_pageField member slot.data_mem_fields)).2]
  constructor
  · intro slot member nonempty
    obtain ⟨file, held, smallest, hit⟩ := found?_of_file member apart nonempty
    exact ⟨file, held, smallest, linked.found slot member _ ((same member).trans hit)⟩
  · intro slot member unheld
    have miss := found?_of_no_file member apart unheld
    have kept := linked.missed slot member ((same member).trans miss)
    rwa [get?_linkPage, get?_linkPage, if_neg (ne_pageField member slot.path_mem_fields),
      if_neg (ne_pageField member slot.data_mem_fields)] at kept
  · rw [linked.others pageField pageField_not_mem, get?_linkPage, if_pos rfl]
  · intro key noPage foreign
    rw [linked.others key foreign, get?_linkPage, if_neg noPage]
  · exact nodup_linkSlots paged
  · rw [← keys_linkPage item]
    exact keeps_linkSlots paged (by decide) (by decide)

theorem linkSlots_file_counts (distinct : item.keys.Nodup) (apart : Apart settings files item) :
    let counts := (linkSlots (ContentIndex.ofFiles settings files) (linkPage item) slots).2
    counts.resolved = slots.countP (fun slot => !(slotFiles settings files item slot).isEmpty) ∧
      counts.resolved + counts.unresolved =
        slots.countP fun slot => (iconText? item slot).isSome := by
  intro counts
  have paged : (linkPage item).keys.Nodup := by
    rw [keys_linkPage]
    exact distinct
  have ⟨resolved, all⟩ : counts.resolved = _ ∧ counts.resolved + counts.unresolved = _ :=
    linkSlots_counts slots_separate paged
  constructor
  · refine resolved.trans (List.countP_congr fun slot member => ?_)
    rw [found?, (icon_linkPage item (ne_pageField member slot.data_mem_fields)).2, ← found?]
    by_cases unheld : slotFiles settings files item slot = []
    · rw [found?_of_no_file member apart unheld, unheld]
      simp
    · obtain ⟨file, -, -, hit⟩ := found?_of_file member apart unheld
      simp [hit, unheld]
  · refine all.trans (List.countP_congr fun slot member => ?_)
    rw [(icon_linkPage item (ne_pageField member slot.data_mem_fields)).1]

theorem linkItem_linked {value : Json.Value} (distinct : value.Distinct)
    (apart : ∀ item, value = .object item → Apart settings files item) :
    let linked := linkItem (ContentIndex.ofFiles settings files) value
    LinkedValue settings files value linked.1 ∧
      linked.2.resolved =
        (icons value).countP (fun icon => !(slotFiles settings files icon.1 icon.2).isEmpty) ∧
      linked.2.resolved + linked.2.unresolved =
        (icons value).countP fun icon => (iconText? icon.1 icon.2).isSome := by
  intro linked
  cases value with
  | object item =>
    have known := apart item rfl
    have eq : linked = _ := linkItem_object _ item
    rw [eq, icons, List.countP_map, List.countP_map]
    exact ⟨.object (linkSlots_linked distinct.keys_nodup known),
      linkSlots_file_counts distinct.keys_nodup known⟩
  | _ => exact ⟨.other nofun, rfl, rfl⟩

end

/-! ## The whole tab bar -/

theorem foldl_add (counts : List Counts) (start : Counts) :
    counts.foldl .add start =
      start.add ⟨(counts.map (·.resolved)).sum, (counts.map (·.unresolved)).sum⟩ := by
  induction counts generalizing start with
  | nil => rfl
  | cons first counts ih =>
    rw [List.foldl_cons, ih]
    simp [Counts.add, Nat.add_assoc]

theorem items?_eq_some_iff {tabBar : Json.Value} {items : List Json.Value} :
    items? tabBar = some items ↔ ∃ fields : Fields Json.Value, tabBar = .object fields ∧
      Fields.get? fields listField = some (.array items) := by
  constructor
  · intro listed
    cases tabBar with
    | object fields =>
      refine ⟨fields, rfl, ?_⟩
      unfold items? at listed
      split at listed
      · rename_i found
        cases listed
        exact found
      · cases listed
    | _ => cases listed
  · rintro ⟨fields, rfl, listed⟩
    simp only [items?, Json.Value.field?, listed]

theorem link_object (index : ContentIndex) {fields : Fields Json.Value} {items : List Json.Value}
    (listed : Fields.get? fields listField = some (.array items)) :
    link index (.object fields) =
      (.object (Fields.insert fields listField
          (.array (items.map fun item => (linkItem index item).1))),
        (items.map fun item => (linkItem index item).2).foldl .add {}) := by
  have found : items? (.object fields) = some items := items?_eq_some_iff.mpr ⟨fields, rfl, listed⟩
  simp only [link, found, List.map_map]
  rfl

/--
The tab bar behind the linking. Every icon with a file refers to the one with the smallest path,
every other icon is kept, and so is all else but the names of the pages.
-/
theorem link_relinks {settings : Settings} {files : List File} {tabBar : Json.Value}
    (distinct : tabBar.Distinct)
    (apart : ∀ items, items? tabBar = some items → ∀ item, Json.Value.object item ∈ items →
      Apart settings files item) :
    let linked := link (ContentIndex.ofFiles settings files) tabBar
    (items? tabBar = none → linked = (tabBar, {})) ∧
    ∀ items, items? tabBar = some items → ∃ before after : Fields Json.Value, ∃ items',
      tabBar = .object before ∧ linked.1 = .object after ∧ after.keys = before.keys ∧
      (∀ key ≠ listField, Fields.get? after key = Fields.get? before key) ∧
      items? linked.1 = some items' ∧ List.Forall₂ (LinkedValue settings files) items items' ∧
      linked.2.resolved = (items.flatMap icons).countP
        (fun icon => !(slotFiles settings files icon.1 icon.2).isEmpty) ∧
      linked.2.resolved + linked.2.unresolved =
        (items.flatMap icons).countP fun icon => (iconText? icon.1 icon.2).isSome := by
  intro linked
  refine ⟨link_of_items_none, ?_⟩
  intro items listed
  obtain ⟨fields, rfl, held⟩ := items?_eq_some_iff.mp listed
  have eq : linked = _ := link_object _ held
  let index := ContentIndex.ofFiles settings files
  have each {value : Json.Value} (member : value ∈ items) := by
    have known : value.Distinct := by
      cases distinct.get? held with
      | array all => exact all value member
    exact @linkItem_linked settings files value known fun item object =>
      apart items listed item (object ▸ member)
  have present : listField ∈ fields.keys := by
    by_contra absent
    cases held.symm.trans (Fields.get?_eq_none_iff.mpr absent)
  have counts : linked.2 = ⟨(items.map fun item => (linkItem index item).2.resolved).sum,
      (items.map fun item => (linkItem index item).2.unresolved).sum⟩ := by
    rw [eq, foldl_add]
    simp [Counts.add, Function.comp_def, index]
  refine ⟨fields, _, items.map fun item => (linkItem index item).1, rfl, congrArg Prod.fst eq, ?_,
    ?_, ?_, ?_, ?_, ?_⟩
  · rw [Fields.keys_insert, if_pos present]
  · intro key other
    exact Fields.get?_insert_of_ne other
  · rw [eq, items?_eq_some_iff]
    exact ⟨_, rfl, Fields.get?_insert_self _ _ _⟩
  · rw [List.forall₂_map_right_iff, List.forall₂_same]
    exact fun value member => (each member).1
  · rw [counts, List.countP_flatMap]
    exact congrArg List.sum (List.map_congr_left fun value member => (each member).2.1)
  · rw [counts, List.countP_flatMap, ← List.sum_map_add]
    exact congrArg List.sum (List.map_congr_left fun value member => (each member).2.2)

/-- Of two files with the bytes of an icon the item names the one with the smaller path. -/
theorem link_relinks_smaller_path :
    let bytes : ByteArray := ⟨#[104, 105]⟩
    let files : List File := [("b.png", bytes), ("a.png", bytes), ("0.wxml", bytes)]
    let item : Fields Json.Value :=
      [("iconData", .string "aGk ="), ("selectedIconData", .string "?")]
    let tabBar : Json.Value := .object [("list", .array [.object item])]
    let linked := link (ContentIndex.ofFiles {} files) tabBar
    tabBar.Distinct ∧
      (∀ items, items? tabBar = some items → ∀ item, Json.Value.object item ∈ items →
        Apart {} files item) ∧
      linked.2 = ⟨1, 1⟩ ∧ ∃ after : Fields Json.Value, items? linked.1 = some [.object after] ∧
        Fields.get? after "iconPath" = some (.string "a.png") ∧
        Fields.get? after "iconData" = none ∧
        Fields.get? after "selectedIconData" = some (.string "?") := by
  intro bytes files item tabBar linked
  let home : Slot := ⟨"iconData", "iconPath"⟩
  let selected : Slot := ⟨"selectedIconData", "selectedIconPath"⟩
  have read : iconBytes? item home = some [104, 105] := by cbv
  have unread : iconBytes? item selected = none := by cbv
  have held : slotFiles {} files item home = [("b.png", bytes), ("a.png", bytes)] := by cbv
  have unheld : slotFiles {} files item selected = [] := by cbv
  have content : ∀ file ∈ files, file.2.toList = [104, 105] := by
    have here : bytes.toList = [104, 105] := by cbv
    simp [files, here]
  have listing : items? tabBar = some [.object item] := rfl
  have distinct : tabBar.Distinct := by
    have texts : ∀ field ∈ item, field.2.Distinct := by
      simp [item, Json.Value.Distinct.string]
    have one : (Json.Value.object item).Distinct := .object (by decide) texts
    have list : (Json.Value.array [.object item]).Distinct := .array (by simpa using one)
    exact .object (by decide) (by simpa using list)
  have apart : ∀ items, items? tabBar = some items → ∀ item, Json.Value.object item ∈ items →
      Apart {} files item := by
    intro items listed other member
    cases listing.symm.trans listed
    cases List.mem_singleton.mp member
    intro slot known bytes given file inFiles _ _
    have either : slot = home ∨ slot = selected := by simpa [slots] using known
    rcases either with rfl | rfl
    · cases read.symm.trans given
      exact content file inFiles
    · cases unread.symm.trans given
  obtain ⟨before, after, items', -, -, -, -, listed, each, resolved, total⟩ :=
    (link_relinks distinct apart).2 _ listing
  have one : linked.2.resolved = 1 := resolved.trans (by cbv)
  have two : linked.2.resolved + linked.2.unresolved = 2 := total.trans (by cbv)
  refine ⟨distinct, apart, ?_, ?_⟩
  · have rest : linked.2.unresolved = 1 := by omega
    exact congrArg₂ Counts.mk one rest
  · cases each with
    | cons first rest =>
      cases rest
      cases first with
      | other h => exact (h rfl).elim
      | @object _ after h =>
        have found := h.found home (by simp [slots, home]) (by simp [held])
        obtain ⟨file, holds, smallest, path, data⟩ := found
        rw [held] at holds smallest
        have name : file.1 = "a.png" := by
          rcases List.mem_cons.mp holds with rfl | last
          · have before := utf8_le_iff.mp (smallest ("a.png", bytes) (by simp))
            exact absurd before (by decide)
          · rw [List.mem_singleton.mp last]
        rw [name] at path
        have canonical : Path.canonical "a.png" = "a.png" := by decide
        rw [canonical] at path
        exact ⟨after, listed, path, data, (h.missed selected (by simp [slots, selected]) unheld).2⟩

end TabBar

end ConfigRecovery
