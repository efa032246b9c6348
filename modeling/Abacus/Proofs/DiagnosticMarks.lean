-- The marks of a diagnostic: which characters of the source they stand under.
-- A fault counts bytes and the columns count characters, so the marks stand
-- under the part that is to blame just where both counts agree, which is up to
-- the first longer character of the line.
import Abacus.Proofs.FaultPlaces
import Abacus.Proofs.ScriptAndConversation

namespace Abacus

/-! ## Rows of marks -/

/-- The row has a mark in this column. -/
def Text.Marks (row : Text) (column : Nat) : Prop := ∃ c, row[column]? = some c ∧ c ≠ ' '

/-- The lines of a diagnostic show the source, name the column of its character `first`,
counted from one, and have their marks right under `count` characters from there on. -/
def Diagnostic.PointsAt (lines : List String) (place : String) (source : Text)
    (first count : Nat) : Prop :=
  lines[1]? = some ("   ╭─[" ++ place ++ ":1:" ++ toString (first + 1) ++ "]") ∧
  lines[3]? = some (" 1 │ " ++ String.ofList source) ∧
  ∃ row : Text, lines[4]? = some ("   │ " ++ String.ofList row) ∧
    ∀ column, row.Marks column ↔ first ≤ column ∧ column < first + count

namespace Diagnostic

variable {mark : Span} {first count : Nat}

/-- The marks are in the columns that the span counts. -/
theorem marks_underline_iff (h : mark.start < mark.stop) (column : Nat) :
    (underline mark).Marks column ↔ mark.start ≤ column ∧ column < mark.stop := by
  have hne : ¬mark.start = mark.stop := by omega
  unfold Text.Marks underline
  by_cases hcolumn : column < mark.stop + 2
  · by_cases hmiddle : column = middle mark
    · have hin : mark.start ≤ column ∧ column < mark.stop := by
        unfold middle at hmiddle
        omega
      simp [hcolumn, ← hmiddle, hne, hin]
    · by_cases hin : mark.start ≤ column ∧ column < mark.stop
      · simp [hcolumn, hmiddle, hin]
      · simp [hcolumn, hmiddle, hin]
  · simp [hcolumn]
    omega

/-- Two rows of columns are one when each has the columns of the other. -/
theorem columns_eq_iff (h : mark.start < mark.stop) :
    (∀ column, mark.start ≤ column ∧ column < mark.stop ↔
      first ≤ column ∧ column < first + count) ↔
      mark.start = first ∧ mark.stop = first + count := by
  constructor
  · intro hcolumns
    have hstart := hcolumns mark.start
    have hlast := hcolumns (mark.stop - 1)
    have hstop := hcolumns mark.stop
    have hfirst := hcolumns first
    have hend := hcolumns (first + count - 1)
    omega
  · rintro ⟨rfl, hstop⟩ column
    rw [hstop]

/-- Below the header of a frame stands its source, if the marks stop in it. -/
theorem lines_of_stop_le {d : Diagnostic} {source : Text} (file : String) (nonempty : source ≠ [])
    (h : d.span.Covers source) (stop : d.span.stop ≤ source.length) :
    ∃ later, d.lines file source =
      ["Error: " ++ d.kind.message,
        "   ╭─[" ++ file ++ ":1:" ++ toString (column d.span) ++ "]", "   │",
        " 1 │ " ++ String.ofList (shown source),
        "   │ " ++ String.ofList (underline d.span)] ++ later := by
  have hlt := h.nonempty
  have hdrawn : isDrawn d.span source = true := by
    simp [isDrawn, nonempty]
    omega
  refine ⟨("   │ " ++ String.ofList (pointer d.span) ++ " " ++ d.kind.message) :: d.noteLines ++
    ["───╯"], ?_⟩
  simp [lines, frame, sourceLines, showsSource, h.clamp_eq, hdrawn, stop]

/-- A source is not shown where the marks stop beyond it. -/
theorem getElem?_lines_of_lt_stop {d : Diagnostic} {source : Text} (file : String)
    (h : d.span.Covers source) (stop : source.length < d.span.stop) :
    (d.lines file source)[3]? ≠ some (" 1 │ " ++ String.ofList source) := by
  have hshows : showsSource d.span source = false := by
    simpa [showsSource] using stop
  by_cases hdrawn : isDrawn d.span source = true
  · have hblank : (d.lines file source)[3]? = some "   │ " := by
      simp [lines, frame, sourceLines, h.clamp_eq, hdrawn, hshows]
    rw [hblank]
    intro heq
    have htext := congrArg String.toList (Option.some.inj heq)
    simp at htext
  · rw [Bool.not_eq_true] at hdrawn
    simp [lines, h.clamp_eq, hdrawn]

/-- A diagnostic points at the columns of its span, when these are columns of the source. -/
theorem pointsAt_lines_iff {d : Diagnostic} {source : Text} (file : String)
    (blank : ∀ c ∈ source, Text.isBlank c = false) (h : d.span.Covers source) :
    PointsAt (d.lines file source) file source first count ↔
      d.span.stop ≤ source.length ∧ d.span.start = first ∧ d.span.stop = first + count := by
  have hlt := h.nonempty
  have hne : source ≠ [] := by
    rintro rfl
    have hle := h.stop.le
    simp at hle
    omega
  by_cases hstop : d.span.stop ≤ source.length
  · obtain ⟨later, hlines⟩ := lines_of_stop_le file hne h hstop
    rw [shown_of_no_blank blank] at hlines
    unfold PointsAt
    rw [hlines]
    constructor
    · rintro ⟨_, _, row, hrow, hmarks⟩
      have heq : underline d.span = row := String.ofList_inj.mp (by simpa using hrow)
      subst heq
      refine ⟨hstop, (columns_eq_iff hlt).mp fun column => ?_⟩
      rw [← hmarks, marks_underline_iff hlt]
    · rintro ⟨_, hfirst, hcount⟩
      refine ⟨by simp [column, hfirst], by simp, underline d.span, by simp, ?_⟩
      intro column
      rw [marks_underline_iff hlt]
      exact (columns_eq_iff hlt).mpr ⟨hfirst, hcount⟩ column
  · refine iff_of_false ?_ fun hall => hstop hall.1
    rintro ⟨_, hsource, _⟩
    exact getElem?_lines_of_lt_stop file h (by omega) hsource

end Diagnostic

/-! ## Bytes and characters -/

/-- The bytes and the characters of a text are as many only where each character is one byte. -/
theorem Text.byteLength_eq_length_iff {t : Text} :
    t.byteLength = t.length ↔ ∀ c ∈ t, c.utf8Size = 1 := by
  constructor
  · intro h
    induction t with
    | nil => simp
    | cons c rest ih =>
      have hc := c.utf8Size_pos
      have hrest := Text.length_le_byteLength rest
      simp only [byteLength_cons, List.length_cons] at h
      rw [List.forall_mem_cons]
      exact ⟨by omega, ih (by omega)⟩
  · exact byteLength_of_short

/-! ## Lines of a script -/

theorem Script.Run.mem_actions_of_mem_records {s : Session} {t : Text} {number : Nat} {line : Text}
    {fault : Fault} (h : ⟨number, .failure line fault⟩ ∈ (Script.Run.ofSource s t).records) :
    .evaluated line (.failed fault) ∈ s.actions (t.linesBeforeExit.map .typed) := by
  obtain ⟨read, exited, hrun⟩ := ofSource_eq s t
  unfold records at h
  rw [hrun, List.reverse_reverse, List.mem_filterMap] at h
  obtain ⟨⟨action, n⟩, hmem, hrecord⟩ := h
  have haction := List.fst_mem_of_mem_zipIdx hmem
  dsimp only at hrecord
  unfold recordAt at hrecord
  split at hrecord
  · cases hrecord
  · cases hrecord
    exact haction
  · cases hrecord

/-- A failure on record is that of the plain form of a line. -/
theorem Script.Run.exists_failed_of_mem_records {s : Session} {t : Text} {number : Nat}
    {line : Text} {fault : Fault}
    (h : ⟨number, .failure line fault⟩ ∈ (Script.Run.ofSource s t).records) :
    ∃ raw ∈ t.lines, line = plainForm raw.trim ∧ line ≠ [] ∧
      ∃ s' : Session, (s'.execute line).1 = .failed fault := by
  obtain ⟨s', entry, hmem, heq⟩ := Session.exists_of_mem_actions (mem_actions_of_mem_records h)
  obtain ⟨raw, hraw, rfl⟩ := List.mem_map.mp hmem
  have hne := Session.ne_nil_of_answer heq.symm
  obtain ⟨_, hline, hfailed⟩ := Session.of_answer_evaluated heq.symm
  exact ⟨raw, (List.takeWhile_sublist _).subset hraw, hline, hne, s', hfailed.symm⟩

/-! ## The law -/

/-- A line of a script that fails is put on record with a diagnostic of its plain form. The
fault covers whole characters of it. The diagnostic shows the line, with its column and its
marks right at the characters to blame, just when all characters up to the last of them are
one byte long. -/
theorem marks_are_right_up_to_the_first_longer_character (s : Session) (t : Text) (file : String)
    (number : Nat) (line : Text) (fault : Fault)
    (h : ⟨number, .failure line fault⟩ ∈ (Script.Run.ofSource s t).records) :
    let place := file ++ ":" ++ toString number
    let shown := fault.diagnostic.lines place line
    (∃ raw ∈ t.lines, line = plainForm raw.trim) ∧
    Script.Record.render file ⟨number, .failure line fault⟩ = Text.unlines shown ∧
    (∃ before blamed after, line = before ++ blamed ++ after ∧ blamed ≠ [] ∧
      before.byteLength = fault.span.start ∧ (before ++ blamed).byteLength = fault.span.stop) ∧
    ∀ before blamed after, line = before ++ blamed ++ after →
      before.byteLength = fault.span.start → (before ++ blamed).byteLength = fault.span.stop →
      (Diagnostic.PointsAt shown place line before.length blamed.length ↔
        ∀ c ∈ before ++ blamed, c.utf8Size = 1) := by
  intro place shown
  obtain ⟨raw, hraw, hline, hne, s', hfailed⟩ := Script.Run.exists_failed_of_mem_records h
  have hcovers := Session.covers_of_failed hne hfailed
  refine ⟨⟨raw, hraw, hline⟩, rfl, hcovers.exists_piece, ?_⟩
  intro before blamed after hsplit hstart hstop
  have hblank : ∀ c ∈ line, Text.isBlank c = false := by
    rw [hline]
    exact fun c => not_isBlank_of_mem_plainForm
  have hlength : (before ++ blamed).length ≤ line.length := by
    simp [hsplit]
  have hfront := before.length_le_byteLength
  have hback := blamed.length_le_byteLength
  rw [Diagnostic.pointsAt_lines_iff place hblank hcovers, ← Text.byteLength_eq_length_iff]
  change fault.span.stop ≤ line.length ∧ fault.span.start = before.length ∧
    fault.span.stop = before.length + blamed.length ↔ _
  rw [← hstart, ← hstop]
  simp only [Text.byteLength_append, List.length_append] at hlength ⊢
  omega

/-- The `é` after the doubled star of `2**é` does no harm. -/
theorem a_longer_character_after_the_marks_does_no_harm :
    let fault : Fault := ⟨.malformed, 1, 3⟩
    ⟨1, .failure "2**é".toList fault⟩ ∈ (Script.Run.ofSource {} "2**é".toList).records ∧
      Diagnostic.PointsAt (fault.diagnostic.lines ("script" ++ ":" ++ toString 1) "2**é".toList)
        ("script" ++ ":" ++ toString 1) "2**é".toList 1 2 := by
  intro fault
  have hmem : ⟨1, .failure "2**é".toList fault⟩ ∈
      (Script.Run.ofSource {} "2**é".toList).records := by decide
  refine ⟨hmem, ?_⟩
  obtain ⟨_, _, _, hpoints⟩ :=
    marks_are_right_up_to_the_first_longer_character {} _ "script" 1 _ fault hmem
  exact (hpoints ['2'] ['*', '*'] ['é'] rfl rfl rfl).mpr
    (Text.byteLength_eq_length_iff.mp rfl)

/-- The doubled star of `é**2` is its second and third character. The diagnostic gives it the
column 3, and its marks stand under the second star and the `2`. -/
theorem marks_stand_one_column_late :
    let fault : Fault := ⟨.malformed, 2, 4⟩
    let place := "script" ++ ":" ++ toString 1
    let shown := fault.diagnostic.lines place "é**2".toList
    (Script.Run.ofSource {} "é**2".toList).records = [⟨1, .failure "é**2".toList fault⟩] ∧
      Text.byteLength ['é'] = fault.span.start ∧ Text.byteLength ['é', '*', '*'] = fault.span.stop ∧
      ¬Diagnostic.PointsAt shown place "é**2".toList 1 2 ∧
      Diagnostic.PointsAt shown place "é**2".toList 2 2 := by
  intro fault place shown
  have hrecords : (Script.Run.ofSource {} "é**2".toList).records =
      [⟨1, .failure "é**2".toList fault⟩] := by decide
  have hcovers : fault.span.Covers "é**2".toList :=
    Span.covers_piece ['é'] ['2'] (List.cons_ne_nil '*' ['*'])
  have hblank : ∀ c ∈ "é**2".toList, Text.isBlank c = false := by
    have hplain : plainForm "é**2".toList = "é**2".toList := by decide
    rw [← hplain]
    exact fun c => not_isBlank_of_mem_plainForm
  have hpoints : ∀ first count, Diagnostic.PointsAt shown place "é**2".toList first count ↔ _ :=
    fun first count => Diagnostic.pointsAt_lines_iff place hblank hcovers
  refine ⟨hrecords, rfl, rfl, ?_, ?_⟩
  · rw [hpoints]
    rintro ⟨_, hstart, _⟩
    cases hstart
  · rw [hpoints]
    decide

end Abacus
