import ConfigRecovery.Package.Outline
import ConfigRecovery.Proofs.Distinct

/-!
# Taking fields

As long as no field is taken twice, what a take gives does not depend on the takes before it, and
what is left is the manifest without the fields taken.
-/

namespace ConfigRecovery

namespace Manifest

/-- The manifest behind the takes of some fields. -/
def without (m : Manifest) (taken : List String) : Manifest :=
  { m with fields := m.fields.without taken }

@[simp]
theorem without_nil (m : Manifest) : m.without [] = m := by
  simp [without]

theorem ofSource_ok {source : String} {policy : Policy} {m : Manifest} :
    ofSource source policy = .ok m ↔
      ∃ fields, Json.Value.ofText source = .ok (.object fields) ∧ m = ⟨fields, policy⟩ := by
  unfold ofSource Json.Value.ofSource
  cases h : Json.Value.ofText source with
  | error fault =>
    constructor
    · intro ok
      cases ok
    · rintro ⟨fields, equal, -⟩
      cases equal
  | ok value =>
    cases value <;>
      simp [Except.mapError, bind, Except.bind, pure, Except.pure, throw, throwThe,
        MonadExceptOf.throw, eq_comm]

theorem ofSource_distinct {source : String} {policy : Policy} {m : Manifest}
    (h : ofSource source policy = .ok m) : (Json.Value.object m.fields).Distinct := by
  obtain ⟨fields, read, rfl⟩ := ofSource_ok.mp h
  exact Json.Value.ofText_distinct read

/-! ## Texts -/

theorem asStrings_ok {field : Field} {items : List Json.Value} {texts : List String} :
    asStrings field items = .ok texts ↔ items = texts.map .string := by
  rw [asStrings, except_mapM_ok, ← List.forall₂_eq_eq_eq, List.forall₂_map_right_iff]
  apply iff_of_eq
  congr 1
  funext item text
  cases item with
  | string own => simp
  | _ => simp

theorem takeString_ok {m : Manifest} {key : String} {text : Option String} :
    (m.takeString key).1 = .ok text ↔ (m.take key).1 = text.map .string := by
  rw [takeString]
  cases (m.take key).1 with
  | none =>
    cases text with
    | none => exact iff_of_true rfl rfl
    | some text => exact iff_of_false (fun ok => by cases ok) (fun same => by cases same)
  | some value =>
    refine except_map_ok.trans ?_
    cases value with
    | string own => cases text <;> simp [asString]
    | _ => cases text <;> simp [asString]

theorem takeStrings_ok {m : Manifest} {key : String} {texts : List String} :
    (m.takeStrings key).1 = .ok (some texts) ↔ (m.take key).1 = some (.strings texts) := by
  rw [takeStrings]
  cases (m.take key).1 with
  | none => exact iff_of_false (fun ok => by cases ok) (fun same => by cases same)
  | some value =>
    refine except_map_ok.trans ?_
    cases value with
    | array items => simp [asStringList, asStrings_ok, Json.Value.strings]
    | _ => simp [asStringList, Json.Value.strings]

/-! ## One take after the other -/

theorem take_distinct {m : Manifest} (h : (Json.Value.object m.fields).Distinct) {key : String}
    {value : Json.Value} (taken : (m.take key).1 = some value) : value.Distinct := by
  obtain ⟨stored, -⟩ := Option.filter_eq_some_iff.mp taken
  exact h.get? stored

section

variable {m : Manifest} (distinct : m.fields.keys.Nodup) (taken : List String) {key : String}

include distinct

theorem take_without (new : key ∉ taken) :
    (m.without taken).take key = ((m.take key).1, m.without (taken ++ [key])) := by
  simp only [take, get?, without, Fields.get?_without, if_neg new, Fields.erase_without distinct]

theorem takeString_without (new : key ∉ taken) :
    (m.without taken).takeString key = ((m.takeString key).1, m.without (taken ++ [key])) := by
  simp only [takeString, take_without distinct taken new]

theorem takeStrings_without (new : key ∉ taken) :
    (m.without taken).takeStrings key = ((m.takeStrings key).1, m.without (taken ++ [key])) := by
  simp only [takeStrings, take_without distinct taken new]

end

end Manifest

theorem Outline.ofManifest_ok {m : Manifest} (distinct : m.fields.keys.Nodup) {outline : Outline}
    (ok : Outline.ofManifest m = .ok outline) :
    ∃ entry listed, (m.takeString "entryPagePath").1 = .ok entry ∧
      (m.takeStrings "pages").1 = .ok (some listed) ∧
      Outline.dealPages (Outline.orderPages listed entry) (m.take "subPackages").1 =
        .ok (outline.pages, outline.subpackages, outline.subpackageCount) ∧
      outline.global = (m.take "global").1 ∧
      outline.extension = extensionBody (m.take "extAppid").1 (m.take "ext").1 ∧
      outline.rest =
        m.without ["entryPagePath", "pages", "global", "subPackages", "extAppid", "ext"] := by
  have first := Manifest.takeString_without distinct [] (List.not_mem_nil (a := "entryPagePath"))
  rw [Manifest.without_nil, List.nil_append] at first
  rw [Outline.ofManifest, first] at ok
  simp only [Manifest.takeStrings_without distinct, Manifest.take_without distinct, List.mem_cons,
    List.not_mem_nil, or_false, String.reduceEq, not_false_eq_true, List.cons_append,
    List.nil_append] at ok
  obtain ⟨entry, taken, ok⟩ := except_bind_ok.mp ok
  obtain ⟨listed?, listing, ok⟩ := except_bind_ok.mp ok
  cases listed? with
  | none => cases ok
  | some listed =>
    obtain ⟨⟨pages, subpackages, count⟩, dealt, ok⟩ := except_bind_ok.mp ok
    cases ok
    exact ⟨entry, listed, taken, listing, dealt, rfl, rfl, rfl⟩

end ConfigRecovery
