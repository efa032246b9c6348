-- The places of records: which of them can be read off. A diagnostic names its
-- place in the frame, so one that has no frame names none. The frame is there
-- on every line whose characters are one byte long.
import Abacus.Proofs.SignRows
import Abacus.Proofs.Transcripts

namespace Abacus

/-! ## Printed lines -/

theorem Text.toList_unlines (ls : List String) :
    (unlines ls).toList = ls.flatMap fun l => l.toList ++ ['\n'] := by
  unfold unlines
  rw [String.toList_join, List.flatMap_map]
  simp

/-- Every line stands in the printed text. -/
theorem Text.infix_unlines {l : String} {ls : List String} (h : l ∈ ls) :
    l.toList <:+: (unlines ls).toList := by
  obtain ⟨before, later, rfl⟩ := List.append_of_mem h
  rw [toList_unlines, List.flatMap_append, List.flatMap_cons]
  exact ⟨before.flatMap fun l => l.toList ++ ['\n'],
    ['\n'] ++ later.flatMap fun l => l.toList ++ ['\n'], by simp⟩

/-- A number has a digit. -/
theorem exists_digit_toString (n : Nat) : ∃ d ∈ (toString n).toList, d.isDigit = true := by
  have hdigits : (toString n).toList = Nat.toDigits 10 n := Nat.toList_repr
  rw [hdigits]
  obtain ⟨d, hd⟩ := List.exists_mem_of_ne_nil _ (Nat.toDigits_ne_nil (n := n) (b := 10))
  exact ⟨d, hd, Nat.isDigit_of_mem_toDigits (by decide) (by decide) hd⟩

/-- The header of a diagnostic has no digit. -/
theorem not_isDigit_of_mem_header (kind : FaultKind) :
    ∀ d ∈ (Text.unlines ["Error: " ++ kind.message]).toList, d.isDigit = false := by
  have hheader : (Text.unlines ["Error: " ++ kind.message]).toList =
      "Error: ".toList ++ kind.message.toList ++ ['\n'] := by
    rw [Text.toList_unlines]
    simp
  have hall : ("Error: ".toList ++ kind.message.toList ++ ['\n']).all (!·.isDigit) = true := by
    cases kind <;> decide
  rw [hheader]
  simpa using List.all_eq_true.mp hall

/-! ## The place -/

/-- The place can be read off the record about the action: a diagnostic shows it in its
frame. -/
def Action.showsPlace : Action → Bool
  | evaluated line (.failed fault) => Diagnostic.isDrawn (Diagnostic.clamp fault.span line) line
  | _ => true

theorem Diagnostic.infix_render_of_isDrawn {d : Diagnostic} {line : Text} (place : String)
    (h : isDrawn (clamp d.span line) line = true) :
    place.toList <:+: (d.render place line).toList := by
  have hmem : "   ╭─[" ++ place ++ ":1:" ++ toString (column (clamp d.span line)) ++ "]" ∈
      d.lines place line := by
    unfold lines frame
    simp [h]
  refine List.IsInfix.trans ?_ (Text.infix_unlines hmem)
  exact ⟨"   ╭─[".toList, (":1:" ++ toString (column (clamp d.span line)) ++ "]").toList, by simp⟩

theorem Diagnostic.render_of_not_isDrawn {d : Diagnostic} {line : Text} (place : String)
    (h : isDrawn (clamp d.span line) line = false) :
    d.render place line = Text.unlines ["Error: " ++ d.kind.message] := by
  unfold render lines
  simp [h]

/-- A record shows the number of its line just when it shows its place. -/
theorem Action.place_infix_record_iff {action : Action} {file record : String} {number : Nat}
    (h : action.record (file ++ ":" ++ toString number) = some record) :
    (file ++ ":" ++ toString number).toList <:+: record.toList ↔ action.showsPlace = true := by
  unfold Action.record at h
  split at h
  · cases h
    refine iff_of_true ?_ rfl
    rw [Text.toList_unlines]
    exact ⟨[], ": Unknown command\n".toList, by simp⟩
  · rename_i line fault
    cases h
    by_cases hdrawn : Diagnostic.isDrawn (Diagnostic.clamp fault.span line) line = true
    · exact iff_of_true (Diagnostic.infix_render_of_isDrawn _ hdrawn) hdrawn
    · refine iff_of_false (fun hshown => ?_) hdrawn
      rw [Bool.not_eq_true] at hdrawn
      rw [Diagnostic.render_of_not_isDrawn (d := fault.diagnostic) _ hdrawn] at hshown
      obtain ⟨d, hmem, hdigit⟩ := exists_digit_toString number
      have hplace : d ∈ (file ++ ":" ++ toString number).toList := by
        rw [String.toList_append]
        exact List.mem_append_right _ hmem
      rw [not_isDigit_of_mem_header _ d (hshown.subset hplace)] at hdigit
      cases hdigit
  · cases h

/-! ## Lines of short characters -/

theorem Text.byteLength_of_short {t : Text} (h : ∀ c ∈ t, c.utf8Size = 1) :
    t.byteLength = t.length := by
  induction t with
  | nil => rfl
  | cons c rest ih =>
    obtain ⟨hc, hrest⟩ := List.forall_mem_cons.mp h
    rw [byteLength_cons, hc, ih hrest, List.length_cons]
    omega

/-- Where characters and bytes are counted alike, every frame is drawn. -/
theorem Diagnostic.isDrawn_of_short {line : Text} (nonempty : line ≠ [])
    (h : ∀ c ∈ line, c.utf8Size = 1) (span : Span) : isDrawn (clamp span line) line = true := by
  have hlength := Text.byteLength_of_short h
  have hne : line.isEmpty = false := by simpa using nonempty
  unfold isDrawn clamp
  dsimp only
  rw [hlength, hne]
  simp only [Bool.not_false, Bool.true_and, Bool.and_eq_true, Bool.or_eq_true, decide_eq_true_eq]
  omega

/-! ## Lines that are evaluated -/

/-- What is left after trimming ends in a character that is no blank. -/
theorem Text.exists_not_isBlank_of_trim {t : Text} (h : t.trim ≠ []) :
    ∃ c ∈ t.trim, isBlank c = false := by
  unfold trim trimEnd at h ⊢
  rw [ne_eq, List.reverse_eq_nil_iff] at h
  obtain ⟨c, rest, hcons⟩ := List.exists_cons_of_ne_nil h
  have hblank := List.head?_dropWhile_not isBlank (t.dropWhile isBlank).reverse
  rw [hcons] at hblank ⊢
  exact ⟨c, by simp, hblank⟩

theorem Session.ne_nil_of_answer {s : Session} {raw line : Text} {outcome : Outcome}
    (h : (s.answer raw).1 = .evaluated line outcome) : line ≠ [] := by
  obtain ⟨hne, rfl, _⟩ := of_answer_evaluated h
  exact plainForm_ne_nil (Text.exists_not_isBlank_of_trim hne)

/-- Every action is the answer to one of the entries. -/
theorem Session.exists_of_mem_actions {s : Session} {entries : List Entry} {action : Action}
    (h : action ∈ s.actions entries) : ∃ s' : Session, ∃ entry ∈ entries, action = (s'.enter entry).1 := by
  induction entries generalizing s with
  | nil => cases h
  | cons entry rest ih =>
    rcases List.mem_cons.mp h with rfl | h
    · exact ⟨s, entry, List.mem_cons_self, rfl⟩
    · obtain ⟨s', entry', hmem, heq⟩ := ih h
      exact ⟨s', entry', List.mem_cons_of_mem _ hmem, heq⟩

/-- A record hides its place only on a line with a longer character. -/
theorem Session.showsPlace_of_short {s : Session} {raws : List Text} {line : Text}
    {outcome : Outcome} (h : .evaluated line outcome ∈ s.actions (raws.map .typed))
    (short : ∀ c ∈ line, c.utf8Size = 1) :
    (Action.evaluated line outcome).showsPlace = true := by
  obtain ⟨s', entry, hmem, heq⟩ := exists_of_mem_actions h
  obtain ⟨raw, _, rfl⟩ := List.mem_map.mp hmem
  have hne := ne_nil_of_answer heq.symm
  unfold Action.showsPlace
  split
  · rename_i hfailed
    cases hfailed
    exact Diagnostic.isDrawn_of_short hne short _
  · rfl

end Abacus
