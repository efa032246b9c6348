-- One text, answered in two ways: as a script, and as what a user types in a
-- conversation. Both answer the lines before the first exit command, with the
-- same actions, and both leave the same session.
import Abacus.Proofs.RecordPlaces

namespace Abacus

/-! ## Up to the exit command -/

theorem Text.not_isExit_of_mem (t : Text) : ∀ raw ∈ t.linesBeforeExit, raw.isExit = false := by
  intro raw h
  simpa using List.mem_takeWhile_imp h

/-- All lines come before an exit command, or the first one comes right after them. -/
theorem Text.lines_cases (t : Text) :
    t.lines = t.linesBeforeExit ∨
      ∃ raw later, t.lines = t.linesBeforeExit ++ raw :: later ∧ raw.isExit = true := by
  have hsplit : t.linesBeforeExit ++ t.lines.dropWhile (!isExit ·) = t.lines :=
    List.takeWhile_append_dropWhile
  have hhead := List.head?_dropWhile_not (!isExit ·) t.lines
  rcases hrest : t.lines.dropWhile (!isExit ·) with _ | ⟨raw, later⟩ <;> rw [hrest] at hsplit hhead
  · rw [List.append_nil] at hsplit
    exact Or.inl hsplit.symm
  · exact Or.inr ⟨raw, later, hsplit.symm, by simpa using hhead⟩

/-- The exit command leaves the session as it is. -/
theorem Session.answer_of_isExit (s : Session) {raw : Text} (h : raw.isExit = true) :
    s.answer raw = (.exit, s) := by
  have hexit := (s.answer_exit_iff raw).mpr h
  have hstep := s.step_answer raw
  rw [hexit] at hstep
  refine Prod.ext hexit ?_
  generalize (s.answer raw).2 = s' at hstep
  cases hstep
  rfl

/-- Lines that end nothing are answered, and then the exit command or the end of the input with
a farewell. -/
theorem Conversation.ofInput_of_farewell (s : Session) {raws : List Text} {input : List UInt8}
    (h : ∀ raw ∈ raws, raw.isExit = false)
    (split : Text.byteLines input = raws.map Text.encode ∨
      ∃ last later, Text.byteLines input = raws.map Text.encode ++ Text.encode last :: later ∧
        last.isExit = true) :
    Conversation.ofInput s input =
      { session := s.after (raws.map .typed)
        said := "Bye!" :: ((s.actions (raws.map .typed)).flatMap Action.told).reverse
        ending := some .farewell } := by
  have hfold := foldl_hear (c := { session := s }) rfl h
  rw [List.append_nil] at hfold
  unfold ofInput
  rcases split with hall | ⟨last, later, hsplit, hexit⟩
  · rw [hall, hfold]
    rfl
  · rw [hsplit, List.foldl_append, hfold, List.foldl_cons, hear_encode_exit rfl hexit,
      foldl_hear_of_ended rfl, Session.answer_of_isExit _ hexit]
    rfl

/-- The whole conversation: the actions on the lines before the exit command, and a farewell. -/
theorem Conversation.ofInput_encode (s : Session) (t : Text) :
    Conversation.ofInput s (Text.encode t) =
      { session := s.after (t.linesBeforeExit.map .typed)
        said := "Bye!" ::
          ((s.actions (t.linesBeforeExit.map .typed)).flatMap Action.told).reverse
        ending := some .farewell } := by
  refine ofInput_of_farewell s t.not_isExit_of_mem ?_
  rw [Text.byteLines_encode]
  rcases t.lines_cases with hlines | ⟨raw, later, hlines, hexit⟩
  · exact Or.inl (congrArg (List.map Text.encode) hlines)
  · refine Or.inr ⟨raw, later.map Text.encode, ?_, hexit⟩
    rw [hlines, List.map_append, List.map_cons]

theorem Script.Run.step_of_isExit {r : Run} (running : r.exited = false) {raw : Text}
    (h : raw.isExit = true) : r.step raw = { r with read := r.read + 1, exited := true } := by
  unfold step
  rw [running, Session.answer_of_isExit _ h]
  rfl

/-- The whole run: the actions on the lines before the exit command. -/
theorem Script.Run.ofSource_eq (s : Session) (t : Text) :
    ∃ read exited, Script.Run.ofSource s t =
      { session := s.after (t.linesBeforeExit.map .typed)
        read := read
        evaluated := (s.actions (t.linesBeforeExit.map .typed)).countP Action.isEvaluated
        printed := (((s.actions (t.linesBeforeExit.map .typed)).filter
          Action.isPrinted).flatMap Action.told).reverse
        recorded := (((s.actions (t.linesBeforeExit.map .typed)).zipIdx 1).filterMap
          fun (action, number) => recordAt action number).reverse
        exited := exited } := by
  have hfold := foldl_step (r := { session := s }) rfl t.not_isExit_of_mem
  rw [List.append_nil, List.append_nil, Nat.zero_add, Nat.zero_add] at hfold
  unfold ofSource
  rcases t.lines_cases with hlines | ⟨raw, later, hlines, hexit⟩ <;> rw [hlines]
  · exact ⟨_, _, hfold⟩
  · rw [List.foldl_append, hfold, List.foldl_cons, step_of_isExit rfl hexit,
      foldl_step_of_exited rfl]
    exact ⟨_, _, rfl⟩

theorem Script.Run.records_ofSource (s : Session) (t : Text) (file : String) :
    (Script.Run.ofSource s t).records.map (Record.render file) =
      recordsOf file (s.actions (t.linesBeforeExit.map .typed)) := by
  obtain ⟨read, exited, hrun⟩ := ofSource_eq s t
  unfold records recordsOf
  rw [hrun, List.reverse_reverse, List.map_filterMap]
  simp only [map_render_recordAt]

/-! ## The law -/

/-- A text does the same to a session as a script and as the input of a conversation, which
ends with a farewell. Its lines before the exit command are answered, and no others. The
conversation tells what there is to tell about each line; the script prints the values and
the help text of it, and puts each complaint on record with the number of its line, counting
both. The number can be read off the record just when the record shows its place, and it
does on every line of one-byte characters. -/
theorem a_script_does_what_a_conversation_does (s : Session) (t : Text) (file : String) :
    let heard := t.linesBeforeExit.map Entry.typed
    let actions := s.actions heard
    let talk := Conversation.ofInput s (Text.encode t)
    let run := Script.Run.ofSource s t
    talk.session = s.after heard ∧ run.session = s.after heard ∧
    talk.ending = some .farewell ∧
    talk.output = Text.unlines (actions.flatMap Action.told ++ ["Bye!"]) ∧
    run.output = Text.unlines ((actions.filter Action.isPrinted).flatMap Action.told) ∧
    run.complaints file = String.join (recordsOf file actions) ∧
    run.evaluated = actions.countP Action.isEvaluated ∧
    run.errors = (recordsOf file actions).length ∧
    (∀ (action : Action) (number : Nat) (record : String),
      action.record (file ++ ":" ++ toString number) = some record →
        ((file ++ ":" ++ toString number).toList <:+: record.toList ↔ action.showsPlace = true)) ∧
    ∀ line outcome, Action.evaluated line outcome ∈ actions → (∀ c ∈ line, c.utf8Size = 1) →
      (Action.evaluated line outcome).showsPlace = true := by
  intro heard actions talk run
  have htalk : talk = _ := Conversation.ofInput_encode s t
  obtain ⟨read, exited, hrun⟩ := Script.Run.ofSource_eq s t
  have hrecords : run.records.map (Script.Record.render file) = recordsOf file actions :=
    Script.Run.records_ofSource s t file
  refine ⟨?_, ?_, ?_, ?_, ?_, ?_, ?_, ?_, ?_, ?_⟩
  · rw [htalk]
  · exact congrArg Script.Run.session hrun
  · rw [htalk]
  · unfold Conversation.output
    rw [htalk, List.reverse_cons, List.reverse_reverse]
  · have hprinted : run.printed = _ := congrArg Script.Run.printed hrun
    unfold Script.Run.output
    rw [hprinted, List.reverse_reverse]
  · unfold Script.Run.complaints
    rw [hrecords]
  · exact congrArg Script.Run.evaluated hrun
  · rw [← hrecords, List.length_map]
    exact List.length_reverse.symm
  · intro action number record
    exact Action.place_infix_record_iff
  · intro line outcome
    exact Session.showsPlace_of_short

/-- Of `/go` and `q` as a script, the second line is on record with its number. -/
theorem an_unbound_name_is_recorded_with_its_line :
    let fault : Fault := ⟨.unknownVariable ['q'], 0, 1⟩
    (Action.evaluated ['q'] (.failed fault)) ∈
        Session.actions {} ((Text.linesBeforeExit "/go\nq".toList).map .typed) ∧
      ("script" ++ ":" ++ toString 2).toList <:+:
        (fault.diagnostic.render ("script" ++ ":" ++ toString 2) ['q']).toList := by
  intro fault
  have hmem : (Action.evaluated ['q'] (.failed fault)) ∈
      Session.actions {} ((Text.linesBeforeExit "/go\nq".toList).map .typed) := by decide
  obtain ⟨_, _, _, _, _, _, _, _, hplace, hshort⟩ :=
    a_script_does_what_a_conversation_does {} "/go\nq".toList "script"
  have hshows := hshort ['q'] (.failed fault) hmem (List.forall_mem_singleton.mpr rfl)
  exact ⟨hmem, (hplace (.evaluated ['q'] (.failed fault)) 2 _ rfl).mpr hshows⟩

/-- Of `éé` as a script, one failure is on record, and the number of its line cannot be read
off the record: the frame is missing. -/
theorem a_record_without_a_frame_hides_its_line :
    let run := Script.Run.ofSource {} ['é', 'é']
    run.errors = 1 ∧ run.complaints "script" = Text.unlines ["Error: Invalid identifier"] ∧
      ¬("script" ++ ":" ++ toString 1).toList <:+: (run.complaints "script").toList := by
  intro run
  have hrecorded : run.recorded = [⟨1, .failure ['é', 'é'] ⟨.invalidIdentifier, 0, 4⟩⟩] := by
    decide
  have hcomplaints : run.complaints "script" =
      (Fault.diagnostic ⟨.invalidIdentifier, 0, 4⟩).render ("script" ++ ":" ++ toString 1)
        ['é', 'é'] := by
    unfold Script.Run.complaints Script.Run.records
    rw [hrecorded]
    simp [String.join, Script.Record.render]
  have hrecord : (Action.evaluated ['é', 'é'] (.failed ⟨.invalidIdentifier, 0, 4⟩)).record
      ("script" ++ ":" ++ toString 1) = some (run.complaints "script") :=
    congrArg some hcomplaints.symm
  have hframe : Diagnostic.isDrawn (Diagnostic.clamp ⟨0, 4⟩ ['é', 'é']) ['é', 'é'] = false := by
    decide
  refine ⟨congrArg List.length hrecorded, ?_, ?_⟩
  · rw [hcomplaints]
    exact Diagnostic.render_of_not_isDrawn _ hframe
  · rw [Action.place_infix_record_iff hrecord]
    exact Bool.eq_false_iff.mp hframe

end Abacus
