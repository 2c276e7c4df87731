import ConfigRecovery.Proofs.Distinct
import ConfigRecovery.Proofs.Save
import ConfigRecovery.Proofs.Scalars

/-!
# Values read back

A value without doubles is read back from its text as it was written, in every layout that puts only
blanks between tokens. The reader opens a limited number of containers, so a value must not nest
deeper than that; the writer has no such limit.
-/

namespace ConfigRecovery

namespace Json

/-! ## Which values are read back -/

namespace Value

/-- All numbers in the value are integers of 64 bits. -/
inductive Integral : Value → Prop where
  | null : Integral .null
  | bool (flag : Bool) : Integral (.bool flag)
  | number {number : Number} (word : number.IsWord) : Integral (.number number)
  | string (text : String) : Integral (.string text)
  | array {items : List Value} (all : ∀ item ∈ items, Integral item) : Integral (.array items)
  | object {fields : Fields Value} (all : ∀ field ∈ fields, Integral field.2) :
    Integral (.object fields)

attribute [simp] Distinct.number Distinct.string Integral.string

@[simp] theorem distinct_array {items : List Value} :
    Distinct (.array items) ↔ ∀ item ∈ items, item.Distinct := by
  refine ⟨fun distinct => ?_, .array⟩
  cases distinct with
  | array all => exact all

@[simp] theorem distinct_object {fields : Fields Value} :
    Distinct (.object fields) ↔ fields.keys.Nodup ∧ ∀ field ∈ fields, field.2.Distinct := by
  refine ⟨fun distinct => ?_, fun both => .object both.1 both.2⟩
  cases distinct with
  | object keys all => exact ⟨keys, all⟩

@[simp] theorem integral_number {number : Number} : Integral (.number number) ↔ number.IsWord := by
  refine ⟨fun integral => ?_, .number⟩
  cases integral with
  | number word => exact word

@[simp] theorem integral_array {items : List Value} :
    Integral (.array items) ↔ ∀ item ∈ items, item.Integral := by
  refine ⟨fun integral => ?_, .array⟩
  cases integral with
  | array all => exact all

@[simp] theorem integral_object {fields : Fields Value} :
    Integral (.object fields) ↔ ∀ field ∈ fields, field.2.Integral := by
  refine ⟨fun integral => ?_, .object⟩
  cases integral with
  | object all => exact all

mutual

/-- How many containers lie in one another at most, the value itself counted. -/
def depth : Value → Nat
  | .array items => depthOfItems items + 1
  | .object fields => depthOfFields fields + 1
  | _ => 0

def depthOfItems : List Value → Nat
  | [] => 0
  | item :: items => max (depth item) (depthOfItems items)

def depthOfFields : List (String × Value) → Nat
  | [] => 0
  | (_, value) :: fields => max (depth value) (depthOfFields fields)

end

end Value

/-! ## Layouts -/

/-- A layout that puts nothing but blanks between tokens. -/
structure Layout.Blank (layout : Layout) : Prop where
  lineBreak : ∀ depth, ∀ c ∈ layout.lineBreak depth, isBlank c = true
  gap : ∀ c ∈ layout.gap, isBlank c = true

namespace Layout

theorem blank_compact : compact.Blank := ⟨by simp [compact], by simp [compact]⟩

theorem blank_pretty : pretty.Blank := by
  constructor
  · intro depth c member
    rcases List.mem_cons.mp member with rfl | member
    · rfl
    · rw [List.eq_of_mem_replicate member]
      rfl
  · intro c member
    rw [List.mem_singleton.mp member]
    rfl

theorem writeItems_eq (layout : Layout) (depth : Nat) (items : List Value) :
    layout.writeItems depth items = items.map (layout.write depth) := by
  induction items with
  | nil => rw [writeItems, List.map_nil]
  | cons item items ih => rw [writeItems, List.map_cons, ih]

/-- A field as it is written. -/
def writeField (layout : Layout) (depth : Nat) (field : String × Value) : List Char :=
  Quoted.encode field.1.toList ++ ':' :: layout.gap ++ layout.write depth field.2

theorem writeFields_eq (layout : Layout) (depth : Nat) (fields : Fields Value) :
    layout.writeFields depth fields = fields.map (layout.writeField depth) := by
  induction fields with
  | nil => rw [writeFields, List.map_nil]
  | cons field fields ih => rw [writeFields, List.map_cons, ih, writeField]

/-- The pieces behind the first one, each with its comma. -/
def following (layout : Layout) (depth : Nat) : List (List Char) → List Char
  | [] => []
  | piece :: pieces => ',' :: (layout.lineBreak depth ++ (piece ++ layout.following depth pieces))

theorem join_cons (layout : Layout) (depth : Nat) (piece : List Char) (pieces : List (List Char)) :
    Text.join (',' :: layout.lineBreak depth) (piece :: pieces) =
      piece ++ layout.following depth pieces := by
  induction pieces generalizing piece with
  | nil => rw [Text.join, following, List.append_nil]
  | cons next pieces ih => rw [Text.join, ih, following, List.append_assoc, List.cons_append]

theorem enclose_cons (layout : Layout) (opening closing : Char) (depth : Nat) (piece : List Char)
    (pieces : List (List Char)) :
    layout.enclose opening closing depth (piece :: pieces) =
      opening :: (layout.lineBreak (depth + 1) ++ (piece ++
        (layout.following (depth + 1) pieces ++ (layout.lineBreak depth ++ [closing])))) := by
  rw [enclose, List.isEmpty_cons, if_neg Bool.false_ne_true, join_cons]
  simp only [List.append_assoc, List.cons_append]

end Layout

/-! ## Running the reader -/

theorem Ends.cons {c : Char} (h : c.isDigit = false ∧ c ≠ '.' ∧ c ≠ 'e' ∧ c ≠ 'E')
    (rest : List Char) : Ends (c :: rest) := by
  intro d first
  cases first
  exact h

theorem Ends.of_blank {blanks rest : List Char} (blank : ∀ c ∈ blanks, isBlank c = true)
    (ends : Ends rest) : Ends (blanks ++ rest) := by
  cases blanks with
  | nil => exact ends
  | cons c blanks =>
    refine Ends.cons ?_ (blanks ++ rest)
    have among := blank c List.mem_cons_self
    simp only [isBlank, Bool.or_eq_true, decide_eq_true_eq] at among
    rcases among with ((rfl | rfl) | rfl) | rfl <;> decide

namespace Reader

/-- The state of the reader behind a text. -/
def run (state : State) (text : List Char) : Except Stop State :=
  (Token.scan text).foldlM step state

theorem run_blanks {blanks : List Char} (blank : ∀ c ∈ blanks, isBlank c = true) (state : State)
    (rest : List Char) : run state (blanks ++ rest) = run state rest := by
  induction blanks with
  | nil => rfl
  | cons c blanks ih =>
    obtain ⟨first, others⟩ := List.forall_mem_cons.mp blank
    rw [← ih others, List.cons_append, run, Token.scan, if_pos first, run]

/-- A token takes the reader one step on. -/
theorem run_token {c : Char} {text rest : List Char} {lexeme : Lexeme} {state next : State}
    (solid : isBlank c = false) (read : Lexeme.read c text = (lexeme, rest))
    (taken : step state ⟨lexeme, c :: text⟩ = .ok next) :
    run state (c :: text) = run next rest := by
  rw [run, Token.scan, solid, if_neg Bool.false_ne_true, read, List.foldlM_cons, taken]
  rfl

/-- States in which a value may start, with the containers that it lies in. -/
inductive Starts : State → List Frame → Prop where
  | value (stack : List Frame) : Starts (.value stack) stack
  | firstItem (stack : List Frame) : Starts (.firstItem stack) (.list [] :: stack)
  | nextItem (items : List Value) (stack : List Frame) :
    Starts (.nextItem items stack) (.list items :: stack)

theorem Starts.step_eq {state : State} {stack : List Frame} (starts : Starts state stack)
    {token : Token} (opens : token.lexeme ≠ .closeList) :
    step state token = startValue stack token := by
  cases starts with
  | value => rfl
  | firstItem stack =>
    rw [step]
    split
    · exact absurd ‹_› opens
    · rfl
  | nextItem items stack =>
    rw [step]
    split
    · exact absurd ‹_› opens
    · rfl

/-- States in which a key may start, with the fields before it. -/
inductive StartsKey : State → Fields Value → List Frame → Prop where
  | firstKey (stack : List Frame) : StartsKey (.firstKey stack) [] stack
  | nextKey (fields : Fields Value) (stack : List Frame) :
    StartsKey (.nextKey fields stack) fields stack

theorem StartsKey.step_eq {state : State} {fields : Fields Value} {stack : List Frame}
    (starts : StartsKey state fields stack) {token : Token}
    (opens : token.lexeme ≠ .closeObject) : step state token = startKey fields stack token := by
  cases starts with
  | firstKey stack =>
    rw [step]
    split
    · exact absurd ‹_› opens
    · rfl
  | nextKey fields stack =>
    rw [step]
    split
    · exact absurd ‹_› opens
    · rfl

/-- Wherever the value may start and stand, it is read from its text, up to where that ends. -/
def Reads (layout : Layout) (value : Value) : Prop :=
  ∀ (state : State) (stack : List Frame), Starts state stack →
    stack.length + value.depth ≤ maxDepth → ∀ (depth : Nat) (rest : List Char), Ends rest →
      run state (layout.write depth value ++ rest) = run (.after value stack) rest

/-! ## Scalars -/

theorem reads_word (layout : Layout) {value : Value} {c : Char} {word : List Char}
    (solid : isBlank c = false) (written : ∀ depth, layout.write depth value = c :: word)
    (read : ∀ rest, Lexeme.read c (word ++ rest) = (.scalar value, rest)) : Reads layout value := by
  intro state stack starts _ depth rest _
  rw [written, List.cons_append]
  refine run_token solid (read rest) ?_
  rw [starts.step_eq Lexeme.noConfusion]
  rfl

theorem reads_number (layout : Layout) {number : Number} (word : number.IsWord) :
    Reads layout (.number number) := by
  intro state stack starts _ depth rest ends
  obtain ⟨c, text, whole, first⟩ := exists_text_cons word
  have read : Lexeme.read c (text ++ rest) = (.scalar (.number number), rest) := by
    rw [Lexeme.read_number first, ← List.cons_append, ← whole, readNumber_text word ends]
    rfl
  rw [Layout.write, whole, List.cons_append]
  refine run_token (not_blank_of_starts_number first) read ?_
  rw [starts.step_eq Lexeme.noConfusion]
  rfl

theorem run_encode {state next : State} (text : String) (rest : List Char)
    (taken : ∀ source, step state ⟨.string text, source⟩ = .ok next) :
    run state (Quoted.encode text.toList ++ rest) = run next rest := by
  have read : Lexeme.read '"' (text.toList.flatMap Quoted.encodeChar ++ ['"'] ++ rest) =
      (.string text, rest) := by
    rw [List.append_assoc, List.singleton_append, Lexeme.read_string]
  exact run_token rfl read (taken _)

theorem reads_string (layout : Layout) (text : String) : Reads layout (.string text) := by
  intro state stack starts _ depth rest _
  rw [Layout.write]
  refine run_encode text rest fun source => ?_
  rw [starts.step_eq Lexeme.noConfusion]
  rfl

/-! ## Containers -/

/-- What follows a piece does not go on with a number: it is a comma, a blank or the bracket. -/
theorem ends_following (layout : Layout) {closing : List Char}
    (blanks : ∀ c ∈ closing, isBlank c = true) (depth : Nat) (pieces : List (List Char))
    {bracket : Char} (ends : ∀ rest, Ends (bracket :: rest)) (rest : List Char) :
    Ends (layout.following depth pieces ++ (closing ++ bracket :: rest)) := by
  cases pieces with
  | nil =>
    rw [Layout.following, List.nil_append]
    exact (ends rest).of_blank blanks
  | cons piece pieces => exact .cons (by decide) _

section

variable {layout : Layout} (blank : layout.Blank) {closing : List Char}
  (blanks : ∀ c ∈ closing, isBlank c = true)

include blank

theorem run_field {value : Value} (reads : Reads layout value) {state : State}
    {fields : Fields Value} {stack : List Frame} (starts : StartsKey state fields stack)
    (room : stack.length + 1 + value.depth ≤ maxDepth) (key : String) (depth : Nat)
    {rest : List Char} (ends : Ends rest) :
    run state (layout.writeField depth (key, value) ++ rest) =
      run (.after value (.object fields key :: stack)) rest := by
  have named (source : List Char) :
      step state ⟨.string key, source⟩ = .ok (.colon fields key stack) := by
    rw [starts.step_eq Lexeme.noConfusion]
    rfl
  have colon (text : List Char) : run (.colon fields key stack) (':' :: text) =
      run (.value (.object fields key :: stack)) text := run_token rfl rfl rfl
  have inside : (Frame.object fields key :: stack).length + value.depth ≤ maxDepth := by
    rw [List.length_cons]
    omega
  rw [Layout.writeField]
  simp only [List.cons_append, List.append_assoc]
  rw [run_encode key _ named, colon, run_blanks blank.gap, reads _ _ (.value _) inside depth _ ends]

include blanks

theorem run_items {items : List Value} (reads : ∀ item ∈ items, Reads layout item)
    {stack : List Frame} (room : stack.length + 1 + Value.depthOfItems items ≤ maxDepth)
    (value : Value) (done : List Value) (depth : Nat) (rest : List Char) :
    run (.after value (.list done :: stack))
        (layout.following depth (items.map (layout.write depth)) ++ (closing ++ ']' :: rest)) =
      run (.after (.array (done.reverse ++ value :: items)) stack) rest := by
  -- the value that was read last joins the list only at the comma or bracket behind it
  induction items generalizing value done with
  | nil =>
    rw [List.map_nil, Layout.following, List.nil_append, run_blanks blanks]
    refine run_token rfl rfl ?_
    rw [step, afterValue]
    simp
  | cons item items ih =>
    obtain ⟨first, others⟩ := List.forall_mem_cons.mp reads
    rw [Value.depthOfItems] at room
    have comma (text : List Char) : run (.after value (.list done :: stack)) (',' :: text) =
        run (.nextItem (value :: done) stack) text := run_token rfl rfl rfl
    have inside : (Frame.list (value :: done) :: stack).length + item.depth ≤ maxDepth := by
      rw [List.length_cons]
      omega
    have ends := ends_following layout blanks depth (items.map (layout.write depth))
      (.cons (c := ']') (by decide)) rest
    rw [List.map_cons, Layout.following]
    simp only [List.cons_append, List.append_assoc]
    rw [comma, run_blanks (blank.lineBreak depth), first _ _ (.nextItem _ _) inside depth _ ends,
      ih others (by omega), List.reverse_cons, List.append_assoc, List.singleton_append]

theorem run_fields {fields : Fields Value} (reads : ∀ field ∈ fields, Reads layout field.2)
    {stack : List Frame} (room : stack.length + 1 + Value.depthOfFields fields ≤ maxDepth)
    {key : String} (value : Value) (done : Fields Value)
    (distinct : (Fields.keys (done ++ (key, value) :: fields)).Nodup) (depth : Nat)
    (rest : List Char) :
    run (.after value (.object done key :: stack))
        (layout.following depth (fields.map (layout.writeField depth)) ++
          (closing ++ '\x7d' :: rest)) =
      run (.after (.object (done ++ (key, value) :: fields)) stack) rest := by
  induction fields generalizing key value done with
  | nil =>
    rw [List.map_nil, Layout.following, List.nil_append, run_blanks blanks]
    refine run_token rfl rfl ?_
    rw [step, afterValue]
    simp [Fields.insert_of_absent (Fields.absent_of_nodup distinct)]
  | cons field fields ih =>
    obtain ⟨first, others⟩ := List.forall_mem_cons.mp reads
    rw [Value.depthOfFields] at room
    -- no key comes twice, so a field that is set stands behind all others
    have comma (text : List Char) : run (.after value (.object done key :: stack)) (',' :: text) =
        run (.nextKey (done ++ [(key, value)]) stack) text := by
      rw [← Fields.insert_of_absent (Fields.absent_of_nodup distinct)]
      exact run_token rfl rfl rfl
    have inside : stack.length + 1 + field.2.depth ≤ maxDepth := by omega
    have ends := ends_following layout blanks depth (fields.map (layout.writeField depth))
      (.cons (c := '\x7d') (by decide)) rest
    have later : (Fields.keys ((done ++ [(key, value)]) ++ field :: fields)).Nodup := by
      rwa [List.append_assoc, List.singleton_append]
    rw [List.map_cons, Layout.following]
    simp only [List.cons_append, List.append_assoc]
    rw [comma, run_blanks (blank.lineBreak depth),
      run_field blank first (.nextKey _ _) inside field.1 depth ends,
      ih others (by omega) field.2 _ later, List.append_assoc, List.singleton_append]

end

theorem reads_array {layout : Layout} (blank : layout.Blank) {items : List Value}
    (reads : ∀ item ∈ items, Reads layout item) : Reads layout (.array items) := by
  intro state stack starts room depth rest ends
  rw [Value.depth] at room
  have opened (text : List Char) : run state ('[' :: text) = run (.firstItem stack) text := by
    refine run_token rfl rfl ?_
    rw [starts.step_eq Lexeme.noConfusion]
    exact if_pos (by omega)
  rw [Layout.write, Layout.writeItems_eq]
  cases items with
  | nil =>
    rw [List.map_nil]
    exact (opened _).trans (run_token rfl rfl rfl)
  | cons item items =>
    obtain ⟨first, others⟩ := List.forall_mem_cons.mp reads
    rw [Value.depthOfItems] at room
    have inside : (Frame.list [] :: stack).length + item.depth ≤ maxDepth := by
      rw [List.length_cons]
      omega
    have blanks := blank.lineBreak depth
    have ends := ends_following layout blanks (depth + 1) (items.map (layout.write (depth + 1)))
      (.cons (c := ']') (by decide)) rest
    rw [List.map_cons, Layout.enclose_cons]
    simp only [List.cons_append, List.append_assoc, List.nil_append]
    rw [opened, run_blanks (blank.lineBreak (depth + 1)),
      first _ _ (.firstItem stack) inside (depth + 1) _ ends,
      run_items blank blanks others (by omega), List.reverse_nil, List.nil_append]

theorem reads_object {layout : Layout} (blank : layout.Blank) {fields : Fields Value}
    (distinct : fields.keys.Nodup) (reads : ∀ field ∈ fields, Reads layout field.2) :
    Reads layout (.object fields) := by
  intro state stack starts room depth rest ends
  rw [Value.depth] at room
  have opened (text : List Char) : run state ('\x7b' :: text) = run (.firstKey stack) text := by
    refine run_token rfl rfl ?_
    rw [starts.step_eq Lexeme.noConfusion]
    exact if_pos (by omega)
  rw [Layout.write, Layout.writeFields_eq]
  cases fields with
  | nil =>
    rw [List.map_nil]
    exact (opened _).trans (run_token rfl rfl rfl)
  | cons field fields =>
    obtain ⟨first, others⟩ := List.forall_mem_cons.mp reads
    rw [Value.depthOfFields] at room
    have inside : stack.length + 1 + field.2.depth ≤ maxDepth := by omega
    have blanks := blank.lineBreak depth
    have ends := ends_following layout blanks (depth + 1)
      (fields.map (layout.writeField (depth + 1))) (.cons (c := '\x7d') (by decide)) rest
    rw [List.map_cons, Layout.enclose_cons]
    simp only [List.cons_append, List.append_assoc, List.nil_append]
    rw [opened, run_blanks (blank.lineBreak (depth + 1)),
      run_field blank first (.firstKey stack) inside field.1 (depth + 1) ends,
      run_fields blank blanks others (by omega) field.2 [] distinct]
    rfl

/-! ## Values -/

theorem reads_of_integral {layout : Layout} (blank : layout.Blank) {value : Value}
    (distinct : value.Distinct) (integral : value.Integral) : Reads layout value := by
  have word (value : Value) (rest text : List Char) :
      Lexeme.ofScalar ((readWord text (text ++ rest)).map (value, ·)) = (.scalar value, rest) := by
    rw [readWord_append]
    rfl
  induction distinct with
  | null =>
    refine reads_word layout rfl (fun _ => by rw [Layout.write]; rfl) fun rest => ?_
    exact word .null rest "ull".toList
  | bool flag =>
    cases flag with
    | true =>
      refine reads_word layout rfl (fun _ => by rw [Layout.write]; rfl) fun rest => ?_
      exact word (.bool true) rest "rue".toList
    | false =>
      refine reads_word layout rfl (fun _ => by rw [Layout.write]; rfl) fun rest => ?_
      exact word (.bool false) rest "alse".toList
  | number number => exact reads_number layout (Value.integral_number.mp integral)
  | string text => exact reads_string layout text
  | array all ih =>
    have inside := Value.integral_array.mp integral
    exact reads_array blank fun item member => ih item member (inside item member)
  | object keys all ih =>
    have inside := Value.integral_object.mp integral
    exact reads_object blank keys fun field member => ih field member (inside field member)

theorem read_write {layout : Layout} (blank : layout.Blank) {value : Value}
    (distinct : value.Distinct) (integral : value.Integral) (shallow : value.depth ≤ maxDepth) :
    read (layout.write 0 value) = .ok value := by
  have room : ([] : List Frame).length + value.depth ≤ maxDepth := by
    rwa [List.length_nil, Nat.zero_add]
  have ends : Ends [] := by
    intro c first
    cases first
  have whole := reads_of_integral blank distinct integral _ _ (.value []) room 0 [] ends
  rw [List.append_nil] at whole
  change run (.value []) (layout.write 0 value) >>= finish = _
  rw [whole, run, Token.scan]
  rfl

end Reader

namespace Value

section

variable {value : Value} (distinct : value.Distinct) (integral : value.Integral)
  (shallow : value.depth ≤ Reader.maxDepth)

include distinct integral shallow

theorem ofText_compact : ofText value.compact = .ok value := by
  rw [ofText, compact, String.toList_ofList,
    Reader.read_write Layout.blank_compact distinct integral shallow]
  rfl

theorem ofText_pretty : ofText value.pretty = .ok value := by
  rw [ofText, pretty, String.toList_ofList,
    Reader.read_write Layout.blank_pretty distinct integral shallow]
  rfl

theorem ofBytes?_pretty : ofBytes? value.pretty.toUTF8 = some value := by
  have text : String.fromUTF8? value.pretty.toUTF8 = some value.pretty :=
    dif_pos value.pretty.isValidUTF8
  simp only [ofBytes?, text, bind, Option.bind, ofText_pretty distinct integral shallow]
  rfl

end

end Value

end Json

namespace MemoryTree

/--
A value without doubles and of moderate depth is held by the file it is written to: the file's bytes
are text, and reading them gives the value back, with the fields of all objects in their order. The
other files stay as they are.
-/
theorem write_reads_back {value : Json.Value} (distinct : value.Distinct)
    (integral : value.Integral) (shallow : value.depth ≤ 127) (tree : MemoryTree) (path : String) :
    ∃ after, OutputTree.write path (.json value) tree = .ok () after ∧
      after.json? path = some value ∧
      (∃ bytes, after.get? path = some bytes ∧ bytes.IsValidUTF8 ∧ bytes = value.pretty.toUTF8) ∧
      ∀ other ≠ path, after.get? other = tree.get? other := by
  have held : (tree.insert path value.pretty.toUTF8).get? path = some value.pretty.toUTF8 := by
    rw [get?_insert, if_pos rfl]
  refine ⟨tree.insert path value.pretty.toUTF8, rfl, ?_,
    ⟨_, held, value.pretty.isValidUTF8, rfl⟩, ?_⟩
  · rw [json?, held]
    exact Json.Value.ofBytes?_pretty distinct integral shallow
  · intro other different
    rw [get?_insert, if_neg different.symm]

/-- An object with an empty list, a control character in a key, and the least integer. -/
theorem write_reads_back_least :
    let value : Json.Value := .object [("\x01\"", .array []), ("n", .number (.int (-2 ^ 63)))]
    value.Distinct ∧ value.Integral ∧ value.depth ≤ 127 ∧
      ∃ after, OutputTree.write "a.json" (.json value) MemoryTree.empty = .ok () after ∧
        after.json? "a.json" = some value := by
  intro value
  have distinct : value.Distinct := by simp [value, Fields.keys]
  have integral : value.Integral := by simp [value, Json.Number.IsWord]
  have shallow : value.depth ≤ 127 := by decide
  obtain ⟨after, written, back, -⟩ := write_reads_back distinct integral shallow .empty "a.json"
  exact ⟨distinct, integral, shallow, after, written, back⟩

end MemoryTree

end ConfigRecovery
