-- Transcripts: what is done about the lines of a text in turn, and what there
-- is to read about it. A conversation and a script go through the same lines
-- with the same actions, and each shows its own part of them.
import Abacus.Conversation
import Abacus.Script
import Abacus.Proofs.EncodedLines
import Abacus.Proofs.SessionSteps

namespace Abacus

/-! ## Lines and actions -/

/-- The line, as it was typed, is the exit command. -/
def Text.isExit (raw : Text) : Bool :=
  match raw.trim with
  | '/' :: rest => Command.ofLine ('/' :: rest) = .exit
  | _ => false

/-- The lines of a text that come before its first exit command. -/
def Text.linesBeforeExit (t : Text) : List Text := t.lines.takeWhile (!isExit ·)

/-- Whether a line ends everything can be told from the line alone. -/
theorem Session.answer_exit_iff (s : Session) (raw : Text) :
    (s.answer raw).1 = .exit ↔ raw.isExit = true := by
  unfold answer Text.isExit
  rcases raw.trim with _ | ⟨c, rest⟩
  · simp
  · by_cases hc : c = '/'
    · subst hc
      cases hcommand : Command.ofLine ('/' :: rest) <;> simp [hcommand, Command.action]
    · split <;> simp_all

theorem Session.answer_ne_exit {s : Session} {raw : Text} (h : raw.isExit = false) :
    (s.answer raw).1 ≠ .exit := by
  rw [ne_eq, s.answer_exit_iff, h]
  simp

/-! ## What there is to read -/

namespace Action

/-- The line was handed to the calculator. -/
def isEvaluated : Action → Bool
  | evaluated _ _ => true
  | _ => false

/-- What the user is told about a line, before the end of the conversation. -/
def told : Action → List String
  | help => [Command.helpText]
  | unknownCommand => ["Unknown command"]
  | evaluated _ (.value n) => [(Outcome.value n).display]
  | evaluated _ (.failed fault) => [(Outcome.failed fault).display]
  | skip | exit | evaluated _ .silent => []

/-- No more than one thing is told about a line. -/
theorem reverse_told (action : Action) : action.told.reverse = action.told := by
  unfold told
  split <;> rfl

/-- What is told is no complaint: it is the help text, or a value. -/
def isPrinted : Action → Bool
  | help | evaluated _ (.value _) => true
  | _ => false

/-- What is put on record about a line at a place. -/
def record (place : String) : Action → Option String
  | unknownCommand => some (Text.unlines [place ++ ": Unknown command"])
  | evaluated line (.failed fault) => some (fault.diagnostic.render place line)
  | _ => none

end Action

/-- All that is put on record about the lines of a file, which are counted from one. -/
def recordsOf (file : String) (actions : List Action) : List String :=
  (actions.zipIdx 1).filterMap fun (action, number) =>
    action.record (file ++ ":" ++ toString number)

/-! ## The conversation -/

namespace Conversation

variable {c : Conversation}

theorem toList_reply {action : Action} (h : action ≠ .exit) : action.reply.toList = action.told := by
  cases action with
  | exit => exact absurd rfl h
  | evaluated line outcome => cases outcome <;> rfl
  | skip | help | unknownCommand => rfl

/-- A line that ends nothing is answered. -/
theorem hear_encode (unended : c.ending = none) {raw : Text} (h : raw.isExit = false) :
    c.hear (Text.encode raw) =
      { session := (c.session.answer raw).2
        said := (c.session.answer raw).1.told ++ c.said
        ending := none } := by
  have hexit := Session.answer_ne_exit (s := c.session) h
  unfold hear
  rw [Text.decode?_encode]
  simp [unended, hexit, say, toList_reply hexit]

/-- The exit command is answered with the farewell. -/
theorem hear_encode_exit (unended : c.ending = none) {raw : Text} (h : raw.isExit = true) :
    c.hear (Text.encode raw) =
      { session := (c.session.answer raw).2
        said := "Bye!" :: c.said
        ending := some .farewell } := by
  have hexit := (c.session.answer_exit_iff raw).mpr h
  unfold hear
  rw [Text.decode?_encode]
  simp [unended, hexit, say, Action.reply]

/-- Lines that end nothing are answered one after another. -/
theorem foldl_hear (unended : c.ending = none) {raws : List Text}
    (h : ∀ raw ∈ raws, raw.isExit = false) :
    (raws.map Text.encode).foldl hear c =
      { session := c.session.after (raws.map .typed)
        said := ((c.session.actions (raws.map .typed)).flatMap Action.told).reverse ++ c.said
        ending := none } := by
  induction raws generalizing c with
  | nil =>
    obtain ⟨session, said, ending⟩ := c
    cases unended
    rfl
  | cons raw rest ih =>
    obtain ⟨hraw, hrest⟩ := List.forall_mem_cons.mp h
    have hstep := hear_encode unended hraw
    have hunended : (c.hear (Text.encode raw)).ending = none := by rw [hstep]
    rw [List.map_cons, List.foldl_cons, ih hunended hrest, hstep]
    simp [Session.actions, Session.after, Session.enter, Action.reverse_told]

theorem foldl_hear_of_ended {ending : Ending} (ended : c.ending = some ending)
    (lines : List (List UInt8)) : lines.foldl hear c = c := by
  refine List.foldl_fixed' (fun line => ?_) lines
  unfold hear
  rw [ended]
  rfl

end Conversation

/-! ## The script -/

namespace Script.Run

variable {r : Run}

/-- The record about an action on the line of this number. -/
def recordAt (action : Action) (number : Nat) : Option Record :=
  match action with
  | .unknownCommand => some ⟨number, .unknownCommand⟩
  | .evaluated line (.failed fault) => some ⟨number, .failure line fault⟩
  | _ => none

theorem map_render_recordAt (file : String) (action : Action) (number : Nat) :
    (recordAt action number).map (Record.render file) =
      action.record (file ++ ":" ++ toString number) := by
  unfold recordAt Action.record
  split <;> rfl

/-- A line that is no exit command is answered, counted and put down. -/
theorem step_of_not_exit (running : r.exited = false) {raw : Text} (h : raw.isExit = false) :
    r.step raw =
      { session := (r.session.answer raw).2
        read := r.read + 1
        evaluated := r.evaluated + [(r.session.answer raw).1].countP Action.isEvaluated
        printed := ([(r.session.answer raw).1].filter Action.isPrinted).flatMap Action.told ++
          r.printed
        recorded := (recordAt (r.session.answer raw).1 (r.read + 1)).toList ++ r.recorded
        exited := false } := by
  have hexit := Session.answer_ne_exit (s := r.session) h
  obtain ⟨session, read, evaluated, printed, recorded, exited⟩ := r
  cases running
  unfold step
  dsimp only at hexit ⊢
  rcases hanswer : session.answer raw with ⟨action, after⟩
  rw [hanswer] at hexit
  cases action with
  | exit => exact absurd rfl hexit
  | skip | help | unknownCommand => rfl
  | evaluated line outcome => cases outcome <;> rfl

theorem reverse_printed_cons (action : Action) (rest : List Action) :
    (((action :: rest).filter Action.isPrinted).flatMap Action.told).reverse =
      ((rest.filter Action.isPrinted).flatMap Action.told).reverse ++
        ([action].filter Action.isPrinted).flatMap Action.told := by
  by_cases h : action.isPrinted = true
  · simp [h, Action.reverse_told]
  · simp [h]

theorem reverse_recorded_cons (action : Action) (rest : List Action) (number : Nat) :
    (((action :: rest).zipIdx number).filterMap fun (action, number) =>
        recordAt action number).reverse =
      ((rest.zipIdx (number + 1)).filterMap fun (action, number) =>
        recordAt action number).reverse ++ (recordAt action number).toList := by
  rw [List.zipIdx_cons, List.filterMap_cons]
  cases h : recordAt action number <;> simp [h]

/-- Lines that are no exit commands are answered one after another. -/
theorem foldl_step (running : r.exited = false) {raws : List Text}
    (h : ∀ raw ∈ raws, raw.isExit = false) :
    raws.foldl step r =
      { session := r.session.after (raws.map .typed)
        read := r.read + raws.length
        evaluated := r.evaluated +
          (r.session.actions (raws.map .typed)).countP Action.isEvaluated
        printed := (((r.session.actions (raws.map .typed)).filter Action.isPrinted).flatMap
          Action.told).reverse ++ r.printed
        recorded := (((r.session.actions (raws.map .typed)).zipIdx (r.read + 1)).filterMap
          fun (action, number) => recordAt action number).reverse ++ r.recorded
        exited := false } := by
  induction raws generalizing r with
  | nil =>
    obtain ⟨session, read, evaluated, printed, recorded, exited⟩ := r
    cases running
    rfl
  | cons raw rest ih =>
    obtain ⟨hraw, hrest⟩ := List.forall_mem_cons.mp h
    have hstep := step_of_not_exit running hraw
    have hrunning : (r.step raw).exited = false := by rw [hstep]
    rw [List.foldl_cons, ih hrunning hrest, hstep]
    have hactions : r.session.actions ((raw :: rest).map .typed) =
        [(r.session.answer raw).1] ++ (r.session.answer raw).2.actions (rest.map .typed) := rfl
    have hread : r.read + 1 + rest.length = r.read + (raw :: rest).length := by
      rw [List.length_cons]
      omega
    rw [hactions, List.countP_append, ← Nat.add_assoc, ← hread, List.singleton_append,
      reverse_printed_cons, reverse_recorded_cons, List.append_assoc, List.append_assoc]
    rfl

/-- After an exit command no line has an effect. -/
theorem foldl_step_of_exited (exited : r.exited = true) (raws : List Text) :
    raws.foldl step r = r := by
  refine List.foldl_fixed' (fun raw => ?_) raws
  unfold step
  rw [exited]
  rfl

end Script.Run

end Abacus
