-- A script and the conversation after it: one session goes through both. The
-- conversation begins with the names that the script left, however the script
-- came to its end, and goes on as if its user had typed the script first.
import Abacus.Program
import Abacus.Proofs.ScriptAndConversation

namespace Abacus

/-! ## Lines one after another -/

namespace Text

theorem unlines_append (first second : List String) :
    unlines (first ++ second) = unlines first ++ unlines second := by
  unfold unlines
  rw [List.map_append, String.join_append]

section Marks

variable {α : Type} [DecidableEq α] {mark ret : α}

/-- What stands before a mark is whole lines, and what stands behind it has its own. -/
theorem linesAt_append_mark (front items : List α) :
    linesAt mark ret (front ++ mark :: items) =
      (front.splitOn mark).map (dropReturn ret) ++ linesAt mark ret items := by
  obtain ⟨first, later, hitems⟩ := List.exists_cons_of_ne_nil (List.splitOn_ne_nil mark items)
  unfold linesAt
  dsimp only
  rw [List.splitOn_append_cons_self, hitems, List.dropLast_append_cons, List.getLast?_append_cons,
    List.map_append, List.append_assoc]

theorem linesAt_append_mark_of_not_mem {front : List α} (h : mark ∉ front) (items : List α) :
    linesAt mark ret (front ++ mark :: items) = dropReturn ret front :: linesAt mark ret items := by
  rw [linesAt_append_mark, List.splitOn_eq_singleton h, List.map_singleton, List.singleton_append]

end Marks

end Text

/-! ## Conversations that go on -/

namespace Conversation

/-- The conversation behind what was said before it. -/
def behind (c : Conversation) (old : List String) : Conversation := { c with said := c.said ++ old }

/-- What is done about a line that is heard. Nothing is done about a line that is no text, or
that comes after the end. -/
def action? (c : Conversation) (line : List UInt8) : Option Action :=
  if c.ending.isSome then none
  else (Text.decode? line).map fun raw => (c.session.answer raw).1

/-- What is done about each of the lines, in turn. -/
def actions (c : Conversation) : List (List UInt8) → List (Option Action)
  | [] => []
  | line :: rest => c.action? line :: (c.hear line).actions rest

variable (c : Conversation) (old : List String)

variable {c}

theorem foldl_hear_typed (s : Session) {raws : List Text} (h : ∀ raw ∈ raws, raw.isExit = false) :
    (raws.map Text.encode).foldl hear { session := s } =
      behind { session := s.after (raws.map .typed) }
        ((s.actions (raws.map .typed)).flatMap Action.told).reverse := by
  rw [foldl_hear rfl h, List.append_nil]
  rfl

end Conversation

/-! ## The program -/

end Abacus
