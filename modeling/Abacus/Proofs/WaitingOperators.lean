-- The operators that wait: between two opening parentheses they stand with a
-- growing rank, the minus signs in front of an operand on top. So no more than
-- three of them wait between two operands there, and whatever leaves at one
-- time leaves with a falling rank.
import Abacus.Proofs.Parentheses
import Abacus.Proofs.Tiling
import Abacus.Text.Lines
import Mathlib.Data.List.Perm.Subperm

namespace Abacus

/-! ## Operators next to each other -/

namespace Op

/-- The newer operator may wait right behind the older one. -/
def WaitsBehind (older newer : Op) : Prop :=
  newer = .lparen ∨ newer = .neg ∨ older.rank < newer.rank

theorem rank_le_neg (op : Op) : op.rank ≤ Op.neg.rank := by
  rcases op with (_ | _ | _ | _ | _) | _ | _ | _ <;> decide

/-- Without a parenthesis, the newer one binds at least as tightly. -/
theorem WaitsBehind.rank_le {older newer : Op} (h : WaitsBehind older newer)
    (closed : newer ≠ .lparen) : older.rank ≤ newer.rank := by
  rcases h with rfl | rfl | h
  · exact absurd rfl closed
  · exact rank_le_neg older
  · exact Nat.le_of_lt h

/-- Behind a minus sign only minus signs wait. -/
theorem WaitsBehind.eq_neg {newer : Op} (h : WaitsBehind .neg newer) (closed : newer ≠ .lparen) :
    newer = .neg := by
  rcases h with rfl | rfl | h
  · exact absurd rfl closed
  · rfl
  · exact absurd (rank_le_neg newer) (Nat.not_le.mpr h)

/-- The operators of a stretch, the oldest first: those with two sides, of a growing rank, and
then signs. -/
def Rising (ops : List Op) : Prop :=
  ∃ (joining : List BinOp) (signs : Nat),
    ops = joining.map .binary ++ List.replicate signs .neg ∧
      (joining.map BinOp.rank).Pairwise (· < ·)

theorem Rising.nil : Rising [] := ⟨[], 0, rfl, .nil⟩

theorem Rising.cons {op : Op} {ops : List Op} (h : Rising ops)
    (parens : op ≠ .lparen ∧ op ≠ .rparen) (closed : ∀ newer ∈ ops, newer ≠ .lparen)
    (waits : ∀ newer ∈ ops.head?, WaitsBehind op newer) : Rising (op :: ops) := by
  obtain ⟨joining, signs, rfl, hrising⟩ := h
  -- A sign comes before no operator with two sides, so then there is none.
  cases op with
  | lparen => exact absurd rfl parens.1
  | rparen => exact absurd rfl parens.2
  | neg =>
    rcases joining with _ | ⟨first, later⟩
    · exact ⟨[], signs + 1, rfl, .nil⟩
    · have hsign := (waits _ rfl).eq_neg (closed _ List.mem_cons_self)
      cases hsign
  | binary op =>
    refine ⟨op :: joining, signs, rfl, ?_⟩
    rcases joining with _ | ⟨first, later⟩
    · exact List.pairwise_singleton _ _
    · have hlt : op.rank < first.rank := by
        rcases waits _ rfl with h | h | h
        · cases h
        · cases h
        · exact h
      rw [List.map_cons, List.pairwise_cons]
      refine ⟨?_, hrising⟩
      intro rank hrank
      rcases List.mem_cons.mp hrank with rfl | hrank
      · exact hlt
      · exact hlt.trans ((List.pairwise_cons.mp hrising).1 rank hrank)

/-- Operators that wait behind each other rise where no parenthesis is among them. -/
theorem rising_of_isChain {ops : List Op} (waits : ops.IsChain WaitsBehind)
    (parens : ∀ op ∈ ops, op ≠ .lparen ∧ op ≠ .rparen) : Rising ops := by
  induction ops with
  | nil => exact .nil
  | cons op rest ih =>
    obtain ⟨hop, hrest⟩ := List.forall_mem_cons.mp parens
    obtain ⟨hwaits, htail⟩ := List.isChain_cons.mp waits
    exact (ih htail hrest).cons hop (fun newer hnewer => (hrest newer hnewer).1) hwaits

end Op

theorem BinOp.rank_mem (op : BinOp) : op.rank ∈ [1, 2, 3] := by
  cases op <;> decide

/-- There are three ranks to rise through. -/
theorem BinOp.length_le_of_rising {joining : List BinOp}
    (h : (joining.map BinOp.rank).Pairwise (· < ·)) : joining.length ≤ 3 := by
  have hnodup : (joining.map BinOp.rank).Nodup := h.imp Nat.ne_of_lt
  have hsubset : joining.map BinOp.rank ⊆ [1, 2, 3] := by
    intro rank hrank
    obtain ⟨op, _, rfl⟩ := List.mem_map.mp hrank
    exact op.rank_mem
  have hlength := (hnodup.subperm hsubset).length_le
  rwa [List.length_map] at hlength

/-! ## The operators that wait -/

namespace Conversion

/-- The newest operator stands first, and each one may wait behind the next. -/
structure Stacked (c : Conversion) : Prop where
  waits : c.pending.IsChain fun newer older => older.what.WaitsBehind newer.what
  unclosed : ∀ op ∈ c.pending, op.what ≠ .rparen

variable {c c' : Conversion} {t : Token}

theorem stacked_start : Stacked {} := ⟨.nil, by simp⟩

/-- The step: what is put on top may wait there, and what is left below stays as it was. -/
theorem Move.stacked (h : Move c t c') (hc : c.Stacked) : c'.Stacked := by
  obtain ⟨hwaits, hunclosed⟩ := hc
  cases h with
  | operand | plus => exact ⟨hwaits, hunclosed⟩
  | opening =>
    exact ⟨List.isChain_cons.mpr ⟨fun _ _ => Or.inl rfl, hwaits⟩,
      List.forall_mem_cons.mpr ⟨nofun, hunclosed⟩⟩
  | minus =>
    exact ⟨List.isChain_cons.mpr ⟨fun _ _ => Or.inr (Or.inl rfl), hwaits⟩,
      List.forall_mem_cons.mpr ⟨nofun, hunclosed⟩⟩
  | @closing span place inner outer split closed =>
    have hsuffix : outer <:+ c.pending :=
      split ▸ (List.suffix_cons _ outer).trans (List.suffix_append inner _)
    exact ⟨hwaits.suffix hsuffix, fun op hop => hunclosed op (hsuffix.subset hop)⟩
  | @between op span tight rest unsigned parens split binds loose =>
    have hsuffix : rest <:+ c.pending := split ▸ List.suffix_append tight rest
    refine ⟨List.isChain_cons.mpr ⟨?_, hwaits.suffix hsuffix⟩, List.forall_mem_cons.mpr
      ⟨parens.2, fun op hop => hunclosed op (hsuffix.subset hop)⟩⟩
    exact fun older holder => Or.inr (Or.inr (loose older holder))

/-- The run: so it is after any tokens. -/
theorem stacked_of_foldlM {tokens : List Token} (hc : c.Stacked)
    (h : tokens.foldlM step c = .ok c') : c'.Stacked := by
  induction tokens generalizing c with
  | nil =>
    cases h
    exact hc
  | cons t rest ih =>
    obtain ⟨d, hmove, hrest⟩ := exists_move_of_foldlM_cons h
    exact ih (hmove.stacked hc) hrest

/-! ## Stretches without a parenthesis -/

/-- Between two opening parentheses the operators rise. -/
theorem Stacked.rising (hc : c.Stacked) {segment : List (Placed Op)}
    (h : segment ∈ c.pending.reverse.splitOnP opens) : Op.Rising (segment.map (·.what)) := by
  obtain ⟨hstands, hfree⟩ := Text.infix_of_mem_splitOnP.2 segment h
  have hchain : c.pending.reverse.IsChain fun older newer => older.what.WaitsBehind newer.what :=
    List.isChain_reverse.mpr hc.waits
  have hpiece := List.IsChain.infix hchain hstands
  refine Op.rising_of_isChain ((List.isChain_map _).mpr hpiece) ?_
  intro what hwhat
  obtain ⟨op, hop, rfl⟩ := List.mem_map.mp hwhat
  refine ⟨fun heq => ?_, hc.unclosed op (List.mem_reverse.mp (hstands.subset hop))⟩
  have hopens := hfree op hop
  rw [opens_iff.mpr heq] at hopens
  cases hopens

/-- Each token binds at least as tightly as those that are put out after it. -/
def Falling (put : List Token) : Prop :=
  put.Pairwise fun first next => next.what.rank ≤ first.what.rank

theorem reverse_emit (ops : List (Placed Op)) (output : List Token) :
    (emit ops output).reverse = output.reverse ++ ops.map token := by
  rw [emit, List.reverse_append, List.reverse_reverse]

/-- What leaves from the top down, and no parenthesis with it, leaves with a falling rank. -/
theorem Stacked.falling (hc : c.Stacked) {top : List (Placed Op)} (h : top <+: c.pending)
    (closed : ∀ op ∈ top, op.what ≠ .lparen) : Falling (top.map token) := by
  have hchain : top.IsChain fun newer older => newer.what.rank ≥ older.what.rank :=
    List.IsChain.imp_of_mem_imp (fun newer _ hnewer _ hwaits =>
      hwaits.rank_le (closed newer hnewer)) <| List.IsChain.prefix hc.waits h
  have hranks : (top.map (·.what.rank)).Pairwise (· ≥ ·) :=
    ((List.isChain_map _).mpr hchain).pairwise
  refine List.pairwise_map.mpr ((List.pairwise_map.mp hranks).imp ?_)
  exact fun hle => Int.ofNat_le.mpr hle

/-! ## What a token puts out -/

/-- The operators that leave when a token is read, from the top down, and what waits then. -/
inductive GivesUp (c : Conversion) (t : Token) : List (Placed Op) → Conversion → Prop
  /-- None leaves, and all of them go on waiting. -/
  | nothing {c' : Conversion} (same : c'.pending = c.pending) : GivesUp c t [] c'
  /-- The token is an operator, and waits on top of those that do not leave. -/
  | forWaiting {c' : Conversion} {left rest : List (Placed Op)} (op : Op)
      (operator : t.what.isOperand = false) (split : c.pending = left ++ rest)
      (waits : c'.pending = ⟨op, t.span⟩ :: rest) : GivesUp c t left c'
  /-- The token closes a parenthesis. The one that opens it is gone with what stood above. -/
  | forClosing {c' : Conversion} {left : List (Placed Op)} (opening : Placed Op)
      (closes : t.what = .operator .rparen) (opens : opens opening = true)
      (split : c.pending = left ++ opening :: c'.pending) : GivesUp c t left c'

/-- What is put out when a token is read: the operators that leave, and the token itself if it
is an operand. -/
def putOut (t : Token) (left : List (Placed Op)) : List Token :=
  left.map token ++ [t].filter (·.what.isOperand)

/-- An operator that is read puts out those that leave for it. -/
theorem Stacked.falling_emit (hc : c.Stacked) (op : Op) (span : Span) {left : List (Placed Op)}
    (h : left <+: c.pending) (closed : ∀ o ∈ left, o.what ≠ .lparen) :
    (emit left c.output).reverse = c.output.reverse ++ putOut ⟨.operator op, span⟩ left ∧
      Falling (putOut ⟨.operator op, span⟩ left) := by
  have hput : putOut ⟨.operator op, span⟩ left = left.map token := List.append_nil _
  rw [hput]
  exact ⟨reverse_emit left c.output, hc.falling h closed⟩

/-- The operators that a token puts out are those that leave, and they leave with a falling
rank. -/
theorem Stacked.falling_putOut (hc : c.Stacked) (h : Move c t c') :
    ∃ left, GivesUp c t left c' ∧ c'.output.reverse = c.output.reverse ++ putOut t left ∧
      Falling (putOut t left) := by
  cases h with
  | operand text span =>
    exact ⟨[], .nothing rfl, List.reverse_cons, List.pairwise_singleton _ _⟩
  | plus => exact ⟨[], .nothing rfl, (List.append_nil _).symm, .nil⟩
  | opening | minus => exact ⟨[], .forWaiting _ rfl rfl rfl, (List.append_nil _).symm, .nil⟩
  | @closing span place inner outer split closed =>
    have hleft : inner <+: c.pending := split ▸ List.prefix_append _ _
    exact ⟨inner, .forClosing _ rfl (opens_iff.mpr rfl) split, hc.falling_emit _ span hleft closed⟩
  | @between op span tight rest unsigned parens split binds loose =>
    have hleft : tight <+: c.pending := split ▸ List.prefix_append _ _
    have htight : ∀ o ∈ tight, o.what ≠ .lparen :=
      fun o ho => ne_lparen_of_rank_le parens (binds o ho)
    exact ⟨tight, .forWaiting op rfl split rfl, hc.falling_emit op span hleft htight⟩

end Conversion

/-! ## The parentheses that are open -/

theorem Text.OpenAt.count_eq {t : Text} {places : List Span} (h : t.OpenAt places) :
    t.count '(' = t.count ')' + places.length := by
  induction h with
  | none balanced => exact balanced.settled
  | @one s t places outer balanced ih =>
    have hsettled := balanced.settled
    rw [List.count_append, List.count_append, List.count_cons_self, List.length_cons, ih,
      List.count_cons_of_ne (by decide)]
    omega

/-- The tokens before another are the first lexemes, in their places. -/
theorem Token.eq_place_of_ofLine_eq {line : Text} {before after : List Token}
    (h : ofLine line = before ++ after) :
    before = place 0 (before.map (·.what)) ∧
      Lexeme.ofLine line = before.map (·.what) ++ after.map (·.what) := by
  have hwhat : Lexeme.ofLine line = before.map (·.what) ++ after.map (·.what) := by
    rw [← List.map_append, ← h, map_what_ofLine]
  refine ⟨?_, hwhat⟩
  unfold ofLine at h
  rw [hwhat, place_append] at h
  have hlength : before.length = (place 0 (before.map (·.what))).length := by
    have hsame := congrArg List.length (map_what_place 0 (before.map (·.what)))
    rw [List.length_map, List.length_map] at hsame
    exact hsame.symm
  exact (List.append_inj h.symm hlength).1

/-- What waits as an opening parenthesis is open in what was read. -/
theorem Conversion.opened_of_ofLine_eq {line : Text} {before after : List Token} {c : Conversion}
    (h : Token.ofLine line = before ++ after) (run : before.foldlM step {} = .ok c) :
    c.Opened (before.flatMap (·.what.text)) := by
  obtain ⟨hplace, hlexemes⟩ := Token.eq_place_of_ofLine_eq h
  have hfree : ∀ run, .operand run ∈ before.map (·.what) → run.Balanced := by
    intro run hrun
    have hmem : .operand run ∈ Lexeme.ofLine line := hlexemes ▸ List.mem_append_left _ hrun
    exact Text.balanced_of_no_operator (Lexeme.no_operator_of_mem_ofLine hmem)
  have htext : (before.map (·.what)).flatMap Lexeme.text = before.flatMap (·.what.text) :=
    List.flatMap_map _ _ _
  rcases opened_of_foldlM opened_start hfree with ⟨c', hrun, hopened⟩ | ⟨_, _, _, _, hrun⟩ <;>
    rw [Text.byteLength_nil, ← hplace, run] at hrun <;> cases hrun
  rwa [List.nil_append, htext] at hopened

/-! ## The law -/

/-- Whatever tokens of a line were read, the operators that wait are cut at the opening
parentheses among them into stretches: in each of these, from the oldest on, stand operators
of a growing rank, no more than three, and then minus signs in front of an operand. The
opening parentheses are those that are open in the characters that were read, and no closing
one waits. A token puts out the operators that leave for it, from the top down, or itself if it
is an operand, and the end puts out all that wait. They are put out with a falling rank, and so
are the operators that leave before a parenthesis is found to be at fault. -/
theorem waiting_operators_rise_between_parentheses (line : Text) (before after : List Token)
    (c : Conversion) (read : Token.ofLine line = before ++ after)
    (run : before.foldlM Conversion.step {} = .ok c) :
    let text := before.flatMap (·.what.text)
    (∀ segment ∈ c.pending.reverse.splitOnP Conversion.opens,
      ∃ (joining : List BinOp) (signs : Nat),
        segment.map (·.what) = joining.map .binary ++ List.replicate signs .neg ∧
          (joining.map BinOp.rank).Pairwise (· < ·) ∧ joining.length ≤ 3) ∧
    (∀ op ∈ c.pending, op.what ≠ .rparen) ∧
    Text.OpenAt text ((c.pending.filter Conversion.opens).map (·.span)) ∧
    text.count '(' = text.count ')' + c.pending.countP Conversion.opens ∧
    (∀ t c', c.step t = .ok c' → ∃ left, c.GivesUp t left c' ∧
      c'.output.reverse = c.output.reverse ++ Conversion.putOut t left ∧
      Conversion.Falling (Conversion.putOut t left)) ∧
    (∀ out, c.finish = .ok out →
      out = c.output.reverse ++ c.pending.map Conversion.token ∧
      Conversion.Falling (c.pending.map Conversion.token)) ∧
    Conversion.Falling ((c.pending.takeWhile (!Conversion.opens ·)).map Conversion.token) := by
  intro text
  have hstacked := Conversion.stacked_of_foldlM Conversion.stacked_start run
  have hopened := Conversion.opened_of_ofLine_eq read run
  refine ⟨?_, hstacked.unclosed, hopened, ?_, ?_, ?_, ?_⟩
  · intro segment hsegment
    obtain ⟨joining, signs, hsplit, hrising⟩ := hstacked.rising hsegment
    exact ⟨joining, signs, hsplit, hrising, BinOp.length_le_of_rising hrising⟩
  · have hcount := Text.OpenAt.count_eq hopened
    rwa [List.length_map, ← List.countP_eq_length_filter] at hcount
  · intro t c' hstep
    exact hstacked.falling_putOut (Conversion.move_of_step hstep)
  · intro out hfinish
    obtain ⟨hclosed, rfl⟩ := Conversion.finish_eq_ok hfinish
    exact ⟨Conversion.reverse_emit _ _, hstacked.falling List.prefix_rfl hclosed⟩
  · refine hstacked.falling (List.takeWhile_prefix _) fun op hop heq => ?_
    have hnot := List.mem_takeWhile_imp hop
    rw [Conversion.opens_iff.mpr heq] at hnot
    cases hnot

/-- After `2+3*-(4^` five operators wait, one of them a parenthesis: below it a plus, a star and
a minus sign, above it a caret. -/
theorem five_operators_wait_behind_two_plus_three :
    ∃ c, (Token.ofLine "2+3*-(4^".toList).foldlM Conversion.step {} = .ok c ∧
      c.pending.map (·.what) =
        [.binary .pow, .lparen, .neg, .binary .mul, .binary .add] ∧
      c.pending.countP Conversion.opens = 1 ∧
      ∀ segment ∈ c.pending.reverse.splitOnP Conversion.opens,
        ∃ (joining : List BinOp) (signs : Nat),
          segment.map (·.what) = joining.map .binary ++ List.replicate signs .neg ∧
            (joining.map BinOp.rank).Pairwise (· < ·) ∧ joining.length ≤ 3 := by
  let pending : List (Placed Op) :=
    [⟨.binary .pow, 7, 8⟩, ⟨.lparen, 5, 6⟩, ⟨.neg, 4, 5⟩, ⟨.binary .mul, 3, 4⟩,
      ⟨.binary .add, 1, 2⟩]
  let c : Conversion :=
    ⟨[⟨.operand ['4'], 6, 7⟩, ⟨.operand ['3'], 2, 3⟩, ⟨.operand ['2'], 0, 1⟩], pending, true⟩
  have hrun : (Token.ofLine "2+3*-(4^".toList).foldlM Conversion.step {} = .ok c := by decide
  obtain ⟨hsegments, _⟩ := waiting_operators_rise_between_parentheses "2+3*-(4^".toList
    (Token.ofLine "2+3*-(4^".toList) [] c (List.append_nil _).symm hrun
  exact ⟨c, hrun, rfl, rfl, hsegments⟩

end Abacus
