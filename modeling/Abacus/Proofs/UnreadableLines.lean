-- A conversation hears its lines up to the first that ends it: a line that is
-- no text, or the exit command. What stands before that line is answered as if
-- it stood alone, and no byte behind it matters.
import Abacus.Proofs.ScriptThenConversation

namespace Abacus

namespace Text

/-! ## Bytes of a text -/

theorem toByteArray_injective : Function.Injective (List.toByteArray : List UInt8 → ByteArray) := by
  intro first second h
  have hdata := congrArg (fun bytes : ByteArray => bytes.data.toList) h
  simpa using hdata

/-- Bytes that read as a text are the bytes of that text. -/
theorem encode_of_decode? {bytes : List UInt8} {t : Text} (h : decode? bytes = some t) :
    encode t = bytes := by
  unfold decode? String.fromUTF8? at h
  split at h
  · rename_i hvalid
    obtain rfl := Option.some.inj h
    apply toByteArray_injective
    change (String.fromUTF8 bytes.toByteArray hvalid).toList.utf8Encode = _
    rw [← String.toByteArray_ofList, String.ofList_toList]
    rfl
  · cases h

theorem encode_injective : Function.Injective encode := by
  intro first second h
  have hdecoded := congrArg decode? h
  rw [decode?_encode, decode?_encode] at hdecoded
  exact Option.some.inj hdecoded

/-! ## Whole lines -/

/-- The bytes are lines with their ends, so what is written behind them starts a line. -/
def WholeLines (bytes : List UInt8) : Prop := ∀ last ∈ bytes.getLast?, last = 10

theorem wholeLines_append_mark (front : List UInt8) : WholeLines (front ++ [10]) := by
  intro last hlast
  rw [List.getLast?_concat] at hlast
  exact (Option.some.inj hlast).symm

/-- Whole lines are nothing, or they end in a mark. -/
theorem WholeLines.cases {head : List UInt8} (h : WholeLines head) :
    head = [] ∨ ∃ front, head = front ++ [10] := by
  rcases List.eq_nil_or_concat' head with hnil | ⟨front, last, hconcat⟩
  · exact Or.inl hnil
  · have hlast : last = 10 := h last (by rw [hconcat, List.getLast?_concat]; rfl)
    exact Or.inr ⟨front, by rw [hconcat, hlast]⟩

theorem WholeLines.append {first second : List UInt8} (h : WholeLines first)
    (h' : WholeLines second) : WholeLines (first ++ second) := by
  rcases h'.cases with rfl | ⟨front, rfl⟩
  · rwa [List.append_nil]
  · rw [← List.append_assoc]
    exact wholeLines_append_mark _

theorem byteLines_append_mark (front : List UInt8) :
    byteLines (front ++ [10]) = (front.splitOn 10).map (dropReturn 13) := by
  have hmark := @linesAt_append_mark UInt8 _ 10 13 front []
  exact hmark.trans (List.append_nil _)

/-- What is written behind whole lines leaves them as they are. -/
theorem byteLines_append {head : List UInt8} (h : WholeLines head) (rest : List UInt8) :
    byteLines (head ++ rest) = byteLines head ++ byteLines rest := by
  rcases h.cases with rfl | ⟨front, rfl⟩
  · rfl
  · rw [byteLines_append_mark, List.append_assoc]
    exact linesAt_append_mark front rest

theorem length_byteLines_le {bytes : List UInt8} (h : 10 ∉ bytes) :
    (byteLines bytes).length ≤ 1 := by
  unfold byteLines linesAt
  rw [List.splitOn_eq_singleton h]
  exact Option.length_toList_le

/-- Before each line of the bytes there are whole lines. -/
theorem exists_append_of_byteLines {input line : List UInt8} {before later : List (List UInt8)}
    (h : byteLines input = before ++ line :: later) :
    ∃ head rest, input = head ++ rest ∧ WholeLines head ∧ byteLines head = before ∧
      byteLines rest = line :: later := by
  induction before generalizing input with
  | nil => exact ⟨[], input, rfl, by simp [WholeLines], rfl, h⟩
  | cons first before ih =>
    by_cases hmark : 10 ∈ input
    · obtain ⟨front, rest, rfl, hfront⟩ := List.eq_append_cons_of_mem hmark
      have hline (items : List UInt8) :
          byteLines (front ++ 10 :: items) = dropReturn 13 front :: byteLines items :=
        linesAt_append_mark_of_not_mem hfront items
      rw [hline, List.cons_append, List.cons.injEq] at h
      obtain ⟨hfirst, hrest⟩ := h
      obtain ⟨head, rest', rfl, hhead, hbefore, hlater⟩ := ih hrest
      have hwhole : WholeLines (front ++ 10 :: head) := by
        rw [List.append_cons]
        exact (wholeLines_append_mark front).append hhead
      refine ⟨front ++ 10 :: head, rest', by simp, hwhole, ?_, hlater⟩
      rw [hline, hfirst, hbefore]
    · -- Without a mark there is one line at most.
      have hlength := length_byteLines_le hmark
      rw [h, List.cons_append, List.length_cons, List.length_append, List.length_cons] at hlength
      omega

end Text

/-! ## The line that ends a conversation -/

namespace Conversation

/-- Lines that are heard and then nothing more, or a line that is no text, or the exit
command. -/
theorem exists_heard (lines : List (List UInt8)) :
    ∃ raws : List Text, (∀ raw ∈ raws, raw.isExit = false) ∧
      (lines = raws.map Text.encode ∨
        (∃ bad later, lines = raws.map Text.encode ++ bad :: later ∧ Text.decode? bad = none) ∨
        ∃ last later, lines = raws.map Text.encode ++ Text.encode last :: later ∧
          last.isExit = true) := by
  induction lines with
  | nil => exact ⟨[], by simp, Or.inl rfl⟩
  | cons line rest ih =>
    rcases hline : Text.decode? line with _ | raw
    · exact ⟨[], by simp, Or.inr (Or.inl ⟨line, rest, rfl, hline⟩)⟩
    · obtain rfl := Text.encode_of_decode? hline
      by_cases hexit : raw.isExit = true
      · exact ⟨[], by simp, Or.inr (Or.inr ⟨raw, rest, rfl, hexit⟩)⟩
      · obtain ⟨raws, hraws, hcases⟩ := ih
        refine ⟨raw :: raws, List.forall_mem_cons.mpr ⟨by simpa using hexit, hraws⟩, ?_⟩
        rcases hcases with rfl | ⟨bad, later, rfl, hbad⟩ | ⟨last, later, rfl, hlast⟩
        · exact Or.inl rfl
        · exact Or.inr (Or.inl ⟨bad, later, rfl, hbad⟩)
        · exact Or.inr (Or.inr ⟨last, later, rfl, hlast⟩)

variable {c : Conversation}

theorem hear_of_unreadable (unended : c.ending = none) {line : List UInt8}
    (h : Text.decode? line = none) : c.hear line = { c with ending := some .unreadable } := by
  unfold hear
  rw [unended, h]
  rfl

theorem close_of_ended {ending : Ending} (ended : c.ending = some ending) : c.close = c := by
  unfold close
  rw [ended]
  rfl

/-- A line that is no text ends the conversation, unless an exit command came before it. -/
theorem ending_foldl_hear (unended : c.ending = none) {before later : List (List UInt8)}
    {bad : List UInt8} (noExit : ∀ raw, Text.encode raw ∈ before → raw.isExit = false)
    (h : Text.decode? bad = none) :
    ((before ++ bad :: later).foldl hear c).ending = some .unreadable := by
  induction before generalizing c with
  | nil =>
    rw [List.nil_append, List.foldl_cons, hear_of_unreadable unended h]
    rw [foldl_hear_of_ended rfl]
  | cons line rest ih =>
    rw [List.cons_append, List.foldl_cons]
    rcases hline : Text.decode? line with _ | raw
    · rw [hear_of_unreadable unended hline, foldl_hear_of_ended rfl]
    · obtain rfl := Text.encode_of_decode? hline
      have hraw := noExit raw List.mem_cons_self
      refine ih ?_ fun later hlater => noExit later (List.mem_cons_of_mem _ hlater)
      rw [hear_encode unended hraw]

/-- A conversation that heard the exit command is over. -/
theorem exists_ending_of_exit {raw : Text} (h : raw.isExit = true) {lines : List (List UInt8)}
    (hmem : Text.encode raw ∈ lines) : ∃ ending, (lines.foldl hear c).ending = some ending := by
  obtain ⟨before, later, rfl⟩ := List.append_of_mem hmem
  rw [List.foldl_append, List.foldl_cons]
  -- It may be over before: then nothing more is heard.
  rcases hended : (before.foldl hear c).ending with _ | ending
  · rw [hear_encode_exit hended h, foldl_hear_of_ended rfl]
    exact ⟨_, rfl⟩
  · rw [← List.foldl_cons, foldl_hear_of_ended hended]
    exact ⟨_, hended⟩

/-! ## Two ways to the end -/

section Ways

variable (s : Session) {raws : List Text} {input : List UInt8}

/-- Lines that end nothing, and then one that is no text. -/
theorem ofInput_of_unreadable (h : ∀ raw ∈ raws, raw.isExit = false) {bad : List UInt8}
    {later : List (List UInt8)}
    (split : Text.byteLines input = raws.map Text.encode ++ bad :: later)
    (hbad : Text.decode? bad = none) :
    ofInput s input =
      { session := s.after (raws.map .typed)
        said := ((s.actions (raws.map .typed)).flatMap Action.told).reverse
        ending := some .unreadable } := by
  unfold ofInput
  rw [split, List.foldl_append, foldl_hear_typed s h, List.foldl_cons, hear_of_unreadable rfl hbad,
    foldl_hear_of_ended rfl]
  rfl

variable (input)

/-- Each input goes one of the two ways. -/
theorem ofInput_cases :
    ∃ raws : List Text, (∀ raw ∈ raws, raw.isExit = false) ∧
      ((ofInput s input).ending = some .farewell ∧
          (Text.byteLines input = raws.map Text.encode ∨
            ∃ last later,
              Text.byteLines input = raws.map Text.encode ++ Text.encode last :: later ∧
                last.isExit = true) ∨
        (ofInput s input).ending = some .unreadable ∧
          ∃ bad later, Text.byteLines input = raws.map Text.encode ++ bad :: later ∧
            Text.decode? bad = none) := by
  obtain ⟨raws, hraws, hall | ⟨bad, later, hsplit, hbad⟩ | hexit⟩ :=
    exists_heard (Text.byteLines input)
  · exact ⟨raws, hraws, Or.inl ⟨by rw [ofInput_of_farewell s hraws (.inl hall)], .inl hall⟩⟩
  · refine ⟨raws, hraws, Or.inr ⟨?_, bad, later, hsplit, hbad⟩⟩
    rw [ofInput_of_unreadable s hraws hsplit hbad]
  · exact ⟨raws, hraws, Or.inl ⟨by rw [ofInput_of_farewell s hraws (.inr hexit)], .inr hexit⟩⟩

theorem ending_ofInput_iff :
    (ofInput s input).ending = some .unreadable ↔
      ∃ before bad later, Text.byteLines input = before ++ bad :: later ∧
        Text.decode? bad = none ∧ ∀ raw, Text.encode raw ∈ before → raw.isExit = false := by
  constructor
  · intro hending
    obtain ⟨raws, hraws, ⟨hfarewell, _⟩ | ⟨_, bad, later, hsplit, hbad⟩⟩ := ofInput_cases s input
    · rw [hfarewell] at hending
      cases hending
    · refine ⟨raws.map Text.encode, bad, later, hsplit, hbad, ?_⟩
      intro raw hmem
      exact hraws raw ((List.mem_map_of_injective Text.encode_injective).mp hmem)
  · rintro ⟨before, bad, later, hsplit, hbad, hbefore⟩
    unfold ofInput
    have hending : ((Text.byteLines input).foldl hear { session := s }).ending =
        some .unreadable := by
      rw [hsplit]
      exact ending_foldl_hear rfl hbefore hbad
    rw [close_of_ended hending, hending]

end Ways

theorem output_of_said {c : Conversation} {told : List String} (h : c.said = told.reverse) :
    c.output = Text.unlines told := by
  unfold output
  rw [h, List.reverse_reverse]

theorem output_of_farewell {c : Conversation} {told : List String}
    (h : c.said = "Bye!" :: told.reverse) : c.output = Text.unlines (told ++ ["Bye!"]) :=
  output_of_said (by rw [h, List.reverse_append, List.reverse_singleton, List.singleton_append])

/-- What comes after the exit command has no effect. -/
theorem ofInput_append_of_exit (s : Session) {head : List UInt8} (whole : Text.WholeLines head)
    {raw : Text} (hexit : raw.isExit = true) (hmem : Text.encode raw ∈ Text.byteLines head)
    (rest : List UInt8) : ofInput s (head ++ rest) = ofInput s head := by
  obtain ⟨ending, hended⟩ := exists_ending_of_exit (c := { session := s }) hexit hmem
  unfold ofInput
  rw [Text.byteLines_append whole, List.foldl_append, foldl_hear_of_ended hended]

end Conversation

/-! ## The law -/

/-- A conversation is broken off just when a line with no exit command before it is no text.
Then the lines before the first such line are answered as they would be alone, only without
the farewell, and neither the bytes of that line nor any after it matter. Otherwise the lines
before the exit command, or all lines, are answered, and the farewell is the last that is
said. No byte behind an exit line matters, be it text or not. -/
theorem a_conversation_breaks_off_at_its_first_unreadable_line (s : Session)
    (input : List UInt8) :
    let talk := Conversation.ofInput s input
    (talk.ending = some .unreadable ↔
      ∃ before bad later, Text.byteLines input = before ++ bad :: later ∧
        Text.decode? bad = none ∧ ∀ raw, Text.encode raw ∈ before → raw.isExit = false) ∧
    (talk.ending = some .unreadable →
      ∃ (raws : List Text) (head rest bad : List UInt8) (later : List (List UInt8)),
        input = head ++ rest ∧ Text.WholeLines head ∧
        Text.byteLines head = raws.map Text.encode ∧ (∀ raw ∈ raws, raw.isExit = false) ∧
        Text.byteLines rest = bad :: later ∧ Text.decode? bad = none ∧
        talk.session = s.after (raws.map .typed) ∧
        talk.output = Text.unlines ((s.actions (raws.map .typed)).flatMap Action.told) ∧
        (Conversation.ofInput s head).session = talk.session ∧
        (Conversation.ofInput s head).output = talk.output ++ "Bye!\n" ∧
        ∀ rest' bad' later', Text.byteLines rest' = bad' :: later' → Text.decode? bad' = none →
          Conversation.ofInput s (head ++ rest') = talk) ∧
    (talk.ending ≠ some .unreadable →
      talk.ending = some .farewell ∧
      ∃ raws : List Text, (∀ raw ∈ raws, raw.isExit = false) ∧
        (Text.byteLines input = raws.map Text.encode ∨
          ∃ last later, Text.byteLines input = raws.map Text.encode ++ Text.encode last :: later ∧
            last.isExit = true) ∧
        talk.session = s.after (raws.map .typed) ∧
        talk.output =
          Text.unlines ((s.actions (raws.map .typed)).flatMap Action.told ++ ["Bye!"])) ∧
    ∀ head rest, input = head ++ rest → Text.WholeLines head →
      (∃ raw, raw.isExit = true ∧ Text.encode raw ∈ Text.byteLines head) →
        ∀ rest', Conversation.ofInput s (head ++ rest') = talk := by
  intro talk
  obtain ⟨raws, hraws, hways⟩ := Conversation.ofInput_cases s input
  refine ⟨Conversation.ending_ofInput_iff s input, ?_, ?_, ?_⟩
  · intro hunreadable
    rcases hways with ⟨hending, _⟩ | ⟨_, bad, later, hsplit, hbad⟩
    · cases hending.symm.trans hunreadable
    · have htalk : talk = _ := Conversation.ofInput_of_unreadable s hraws hsplit hbad
      obtain ⟨head, rest, hinput, hwhole, hhead, hrest⟩ := Text.exists_append_of_byteLines hsplit
      have halone := Conversation.ofInput_of_farewell s hraws (Or.inl hhead)
      have houtput := Conversation.output_of_said (congrArg Conversation.said htalk)
      refine ⟨raws, head, rest, bad, later, hinput, hwhole, hhead, hraws, hrest, hbad, ?_, houtput,
        ?_, ?_, ?_⟩
      · rw [htalk]
      · rw [halone, htalk]
      · rw [Conversation.output_of_farewell (congrArg Conversation.said halone), houtput,
          Text.unlines_append]
        rfl
      · intro rest' bad' later' hrest' hbad'
        have hsplit' : Text.byteLines (head ++ rest') = raws.map Text.encode ++ bad' :: later' := by
          rw [Text.byteLines_append hwhole, hhead, hrest']
        rw [Conversation.ofInput_of_unreadable s hraws hsplit' hbad', htalk]
  · intro hreadable
    rcases hways with ⟨hending, hsplit⟩ | ⟨hending, _⟩
    · have htalk : talk = _ := Conversation.ofInput_of_farewell s hraws hsplit
      refine ⟨hending, raws, hraws, hsplit, by rw [htalk], ?_⟩
      exact Conversation.output_of_farewell (congrArg Conversation.said htalk)
    · exact absurd hending hreadable
  · rintro head rest hinput hwhole ⟨raw, hexit, hmem⟩ rest'
    have htalk : talk = Conversation.ofInput s (head ++ rest) :=
      congrArg (Conversation.ofInput s) hinput
    rw [htalk, Conversation.ofInput_append_of_exit s hwhole hexit hmem,
      Conversation.ofInput_append_of_exit s hwhole hexit hmem]

/-- Of `a=2`, `a`, a bad byte and `/exit`, the two lines before the bad byte are answered and
the conversation breaks off. Of `/exit` and a bad byte, the bad byte is not looked at. -/
theorem a_bad_byte_is_heard_only_before_the_exit_command :
    let broken := Text.encode "a=2\na\n".toList ++ 255 :: Text.encode "\n/exit".toList
    let exit := Text.encode "/exit".toList ++ [10]
    (Conversation.ofInput {} broken).ending = some .unreadable ∧
      (Conversation.ofInput {} broken).output = "2\n" ∧
      (Conversation.ofInput {} broken).session.store.get? ['a'] = some 2 ∧
      (Conversation.ofInput {} (exit ++ [255])).output = "Bye!\n" := by
  intro broken exit
  obtain ⟨hbroken, _⟩ := a_conversation_breaks_off_at_its_first_unreadable_line {} broken
  obtain ⟨_, _, _, hbehind⟩ := a_conversation_breaks_off_at_its_first_unreadable_line {} exit
  have hlines : Text.byteLines broken =
      ["a=2".toList, "a".toList].map Text.encode ++ [255] :: [Text.encode "/exit".toList] := by
    decide
  have hexit : Text.isExit "/exit".toList = true ∧
      Text.encode "/exit".toList ∈ Text.byteLines exit := by decide
  have hheard : ∀ raw ∈ ["a=2".toList, "a".toList], Text.isExit raw = false := by decide
  refine ⟨hbroken.mpr ⟨_, _, _, hlines, by decide, ?_⟩, by decide, by decide, ?_⟩
  · intro raw hmem
    exact hheard raw ((List.mem_map_of_injective Text.encode_injective).mp hmem)
  · rw [hbehind exit [] (List.append_nil _).symm (Text.wholeLines_append_mark _) ⟨_, hexit⟩ [255]]
    decide

end Abacus
