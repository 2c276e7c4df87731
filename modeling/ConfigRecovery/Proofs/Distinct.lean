import ConfigRecovery.Json.Reader
import ConfigRecovery.Proofs.Fields
import ConfigRecovery.Proofs.Step

/-!
# Distinct keys

No object that the reader gives has two fields with one key, however deep it lies: a key that comes
again takes the place of the former. The states of the reader carry this from token to token.
-/

namespace ConfigRecovery.Json

/-- No object in the value has two fields with one key. -/
inductive Value.Distinct : Value → Prop where
  | null : Distinct .null
  | bool (flag : Bool) : Distinct (.bool flag)
  | number (number : Number) : Distinct (.number number)
  | string (text : String) : Distinct (.string text)
  | array {items : List Value} (all : ∀ item ∈ items, Distinct item) : Distinct (.array items)
  | object {fields : Fields Value} (keys : fields.keys.Nodup)
      (all : ∀ field ∈ fields, Distinct field.2) : Distinct (.object fields)

namespace Value.Distinct

theorem keys_nodup {fields : Fields Value} (h : Distinct (.object fields)) :
    fields.keys.Nodup := by
  cases h with
  | object keys all => exact keys

theorem get? {fields : Fields Value} (h : Distinct (.object fields)) {key : String} {value : Value}
    (found : Fields.get? fields key = some value) : Distinct value := by
  cases h with
  | object keys all => exact all _ (Fields.mem_of_get? found)

theorem insert {fields : Fields Value} (h : Distinct (.object fields)) (key : String)
    {value : Value} (hv : Distinct value) : Distinct (.object (Fields.insert fields key value)) := by
  cases h with
  | object keys all =>
    refine .object (Fields.nodup_keys_insert keys key value) ?_
    intro field member
    rcases Fields.mem_insert member with rfl | old
    · exact hv
    · exact all field old

end Value.Distinct

namespace Reader

/-- What an open container holds so far is distinct. -/
def Frame.Distinct : Frame → Prop
  | .list items => ∀ item ∈ items, item.Distinct
  | .object fields _ => (Value.object fields).Distinct

/-- All that a state holds is distinct. -/
def State.Distinct : State → Prop
  | .value stack | .firstItem stack | .firstKey stack => ∀ frame ∈ stack, frame.Distinct
  | .nextItem items stack => (Frame.list items).Distinct ∧ ∀ frame ∈ stack, frame.Distinct
  | .nextKey fields stack | .colon fields _ stack =>
    (Value.object fields).Distinct ∧ ∀ frame ∈ stack, frame.Distinct
  | .after done stack => done.Distinct ∧ ∀ frame ∈ stack, frame.Distinct

end Reader

/-- A token that stands for a value stands for a distinct one. -/
def Lexeme.Distinct (lexeme : Lexeme) : Prop := ∀ value, lexeme = .scalar value → value.Distinct

theorem readNumber_distinct {text rest : List Char} {value : Value}
    (h : readNumber text = .ok (value, rest)) : value.Distinct := by
  obtain ⟨⟨numeral, behind⟩, -, h⟩ := except_bind_ok.mp h
  cases hv : numeral.value with
  | error unread => simp [hv, throw, throwThe, MonadExceptOf.throw] at h
  | ok number =>
    simp only [hv, except_pure_ok, Prod.mk.injEq] at h
    rw [← h.1]
    exact .number number

theorem Lexeme.ofScalar_distinct {result : Except Stop (Value × List Char)}
    (h : ∀ value rest, result = .ok (value, rest) → value.Distinct) :
    (Lexeme.ofScalar result).1.Distinct := by
  intro value equal
  cases result with
  | error stop => cases equal
  | ok pair =>
    cases equal
    exact h pair.1 pair.2 rfl

theorem Lexeme.ofScalar_word_distinct (word : List Char) {value : Value} (hv : value.Distinct)
    (text : List Char) : (Lexeme.ofScalar ((readWord word text).map (value, ·))).1.Distinct := by
  apply ofScalar_distinct
  intro other rest h
  obtain ⟨behind, -, equal⟩ := except_map_ok.mp h
  cases equal
  exact hv

theorem Lexeme.ofString_distinct (result : Except Stop (List Char × List Char)) :
    (Lexeme.ofString result).1.Distinct := by
  intro value equal
  cases result <;> cases equal

theorem Lexeme.ite_distinct {p : Prop} [Decidable p] {a b : Lexeme × List Char}
    (ha : a.1.Distinct) (hb : b.1.Distinct) : (if p then a else b).1.Distinct := by
  split <;> assumption

theorem Lexeme.read_distinct (c : Char) (rest : List Char) : (Lexeme.read c rest).1.Distinct := by
  have word : ∀ lexeme : Lexeme, (∀ value, lexeme ≠ .scalar value) → lexeme.Distinct :=
    fun _ h value equal => (h value equal).elim
  unfold Lexeme.read
  repeat' apply Lexeme.ite_distinct
  all_goals try exact word _ fun _ => Lexeme.noConfusion
  · exact ofString_distinct _
  · exact ofScalar_word_distinct _ .null _
  · exact ofScalar_word_distinct _ (.bool true) _
  · exact ofScalar_word_distinct _ (.bool false) _
  · exact ofScalar_distinct fun _ _ h => readNumber_distinct h

theorem Token.scan_distinct (text : List Char) : ∀ token ∈ Token.scan text, token.lexeme.Distinct := by
  fun_induction Token.scan text with
  | case1 => simp
  | case2 c rest blank ih => exact ih
  | case3 c rest blank shorter ih =>
    intro token member
    rcases List.mem_cons.mp member with rfl | member
    · exact Lexeme.read_distinct c rest
    · exact ih token member

namespace Reader

theorem deeper_distinct {stack : List Frame} {token : Token} {opened state : State}
    (h : deeper stack token opened = .ok state) (ho : opened.Distinct) : state.Distinct := by
  unfold deeper at h
  split at h <;> cases h
  exact ho

theorem startValue_distinct {stack : List Frame} {token : Token} {state : State}
    (h : startValue stack token = .ok state) (hs : ∀ frame ∈ stack, frame.Distinct)
    (ht : token.lexeme.Distinct) : state.Distinct := by
  unfold startValue at h
  split at h
  · exact deeper_distinct h hs
  · exact deeper_distinct h hs
  · cases h
    exact ⟨.string _, hs⟩
  · rename_i value equal
    cases h
    exact ⟨ht value equal, hs⟩
  all_goals cases h

theorem startKey_distinct {fields : Fields Value} {stack : List Frame} {token : Token}
    {state : State} (h : startKey fields stack token = .ok state)
    (hf : (Value.object fields).Distinct) (hs : ∀ frame ∈ stack, frame.Distinct) :
    state.Distinct := by
  unfold startKey at h
  split at h <;> cases h
  exact ⟨hf, hs⟩

theorem afterValue_distinct {value : Value} {token : Token} {stack : List Frame} {state : State}
    (h : afterValue value token stack = .ok state) (hv : value.Distinct)
    (hs : ∀ frame ∈ stack, frame.Distinct) : state.Distinct := by
  cases stack with
  | nil => cases h
  | cons frame stack =>
    obtain ⟨hf, below⟩ := List.forall_mem_cons.mp hs
    cases frame with
    | list items =>
      have all : ∀ item ∈ value :: items, item.Distinct := List.forall_mem_cons.mpr ⟨hv, hf⟩
      simp only [afterValue] at h
      split at h <;> cases h
      · exact ⟨all, below⟩
      · exact ⟨.array fun item member => all item (List.mem_reverse.mp member), below⟩
    | object fields key =>
      have all : (Value.object (Fields.insert fields key value)).Distinct := hf.insert key hv
      simp only [afterValue] at h
      split at h <;> cases h
      · exact ⟨all, below⟩
      · exact ⟨all, below⟩

theorem step_distinct {state next : State} {token : Token} (h : step state token = .ok next)
    (hs : state.Distinct) (ht : token.lexeme.Distinct) : next.Distinct := by
  have empty : (Value.object []).Distinct := .object List.nodup_nil (by simp)
  cases state with
  | value stack => exact startValue_distinct h hs ht
  | firstItem stack =>
    simp only [step] at h
    split at h
    · cases h
      exact ⟨.array (by simp), hs⟩
    · exact startValue_distinct h (List.forall_mem_cons.mpr ⟨by simp [Frame.Distinct], hs⟩) ht
  | nextItem items stack =>
    simp only [step] at h
    split at h
    · cases h
    · exact startValue_distinct h (List.forall_mem_cons.mpr hs) ht
  | firstKey stack =>
    simp only [step] at h
    split at h
    · cases h
      exact ⟨empty, hs⟩
    · exact startKey_distinct h empty hs
  | nextKey fields stack =>
    simp only [step] at h
    split at h
    · cases h
    · exact startKey_distinct h hs.1 hs.2
  | colon fields key stack =>
    simp only [step] at h
    split at h <;> cases h
    exact List.forall_mem_cons.mpr hs
  | after value stack => exact afterValue_distinct h hs.1 hs.2

theorem run_distinct {tokens : List Token} (ht : ∀ token ∈ tokens, token.lexeme.Distinct)
    {state last : State} (h : tokens.foldlM step state = .ok last) (hs : state.Distinct) :
    last.Distinct := by
  induction tokens generalizing state with
  | nil =>
    cases h
    exact hs
  | cons token tokens ih =>
    obtain ⟨first, rest⟩ := List.forall_mem_cons.mp ht
    rw [List.foldlM_cons] at h
    obtain ⟨next, taken, h⟩ := except_bind_ok.mp h
    exact ih rest h (step_distinct taken hs first)

theorem finish_distinct {state : State} {value : Value} (h : finish state = .ok value)
    (hs : state.Distinct) : value.Distinct := by
  unfold finish at h
  split at h <;> cases h
  exact hs.1

end Reader

theorem Value.ofText_distinct {text : String} {value : Value} (h : Value.ofText text = .ok value) :
    value.Distinct := by
  unfold Value.ofText at h
  cases hr : Reader.read text.toList with
  | error stop =>
    rw [hr] at h
    cases h
  | ok read =>
    rw [hr] at h
    cases h
    obtain ⟨last, scanned, finished⟩ := except_bind_ok.mp hr
    refine Reader.finish_distinct finished (Reader.run_distinct (Token.scan_distinct _) scanned ?_)
    intro frame member
    cases member

end ConfigRecovery.Json
