import ConfigRecovery.Proofs.Step

/-!
# Where configurations come from

A source gives its own list, or what is found in the program that its reader makes of the bundle.
The stream between the search and the merge keeps order and number.
-/

namespace ConfigRecovery

namespace Stream

theorem forM_send (literals : List Literal) {stream : Stream} (opened : stream.isOpen = true) :
    (literals.forM send : EStateM Failure Stream PUnit) stream =
      .ok () { stream with literals := stream.literals ++ literals } := by
  induction literals generalizing stream with
  | nil =>
    rw [List.append_nil]
    rfl
  | cons literal literals ih =>
    have sent : send literal stream =
        .ok () { stream with literals := stream.literals ++ [literal] } := by
      rw [send, if_pos opened]
    have rest := @ih { stream with literals := stream.literals ++ [literal] } opened
    rw [List.append_assoc, List.singleton_append] at rest
    exact (bind_of_ok sent).trans rest

theorem scan_open (registry source : String) (program : Node) {stream : Stream}
    (opened : stream.isOpen = true) :
    scan registry source program stream =
      .ok (Registry.find registry source program).length
        { stream with literals := stream.literals ++ Registry.find registry source program } := by
  rw [scan, bind_of_ok (forM_send _ opened)]
  rfl

theorem forM_send_closed (literals : List Literal) {stream : Stream}
    (closed : stream.isOpen = false) :
    (literals.forM send : EStateM Failure Stream PUnit) stream =
      if literals = [] then .ok () stream else .error .streamClosed stream := by
  cases literals with
  | nil => rfl
  | cons literal literals =>
    have refused : send literal stream = .error .streamClosed stream := by
      rw [send, closed]
      rfl
    rw [if_neg (List.cons_ne_nil _ _)]
    exact bind_of_error refused

theorem scan_closed (registry source : String) (program : Node) {stream : Stream}
    (closed : stream.isOpen = false) :
    scan registry source program stream =
      if Registry.find registry source program = [] then .ok 0 stream
      else .error .streamClosed stream := by
  have sent := forM_send_closed (Registry.find registry source program) closed
  by_cases empty : Registry.find registry source program = []
  · rw [if_pos empty] at sent ⊢
    rw [scan, bind_of_ok sent, empty]
    rfl
  · rw [if_neg empty] at sent ⊢
    rw [scan, bind_of_error sent]

end Stream

theorem ProgramReader.literals_of_ok {reader : ProgramReader} (registry : String) {source : String}
    {program : Node} (h : reader source = .ok program) :
    reader.literals registry source = .ok (Registry.find registry source program) := by
  have scanned := Stream.scan_open registry source program (show ({} : Stream).isOpen = true from rfl)
  refine except_bind_ok.mpr ⟨program, h, ?_⟩
  simp only [scanned]
  rfl

/-- The literals that a source gives for a bundle. -/
inductive LiteralSource.Gives (registry service : String) :
    LiteralSource → List Literal → Prop where
  | stream (literals : List Literal) : Gives registry service (.stream literals) literals
  | program {reader : ProgramReader} {program : Node} (read : reader service = .ok program) :
    Gives registry service (.program reader) (Registry.find registry service program)

theorem LiteralSource.Gives.literals_eq {registry service : String} {source : LiteralSource}
    {literals : List Literal} (given : source.Gives registry service literals) :
    source.literals registry service = .ok literals := by
  cases given with
  | stream => rfl
  | program read => exact ProgramReader.literals_of_ok registry read

end ConfigRecovery
