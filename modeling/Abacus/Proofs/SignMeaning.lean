-- Collapsing keeps the meaning: an expression and its plain form have the same
-- answer, but for one shape of line. There two signs or more come right after
-- an operand or a group, and the atom behind them is the base of a power. The
-- plain form takes the signs to the whole power there.
import Abacus.Proofs.FormulaMeaning
import Abacus.Proofs.SignRows

namespace Abacus

/-! ## Signs of a meaning -/

/-- What a sign makes of a meaning. -/
def signed (sign : Char) (m : Except FaultKind Int) : Except FaultKind Int :=
  if sign = '-' then m.map (-·) else m

theorem signed_minus (m : Except FaultKind Int) : signed '-' m = m.map (-·) := rfl

@[simp] theorem signed_signed (sign : Char) (m : Except FaultKind Int) :
    signed sign (signed sign m) = m := by
  unfold signed
  split
  · cases m <;> simp [Except.map]
  · rfl

theorem signed_mergeSigns {c d : Char} (hc : isSign c = true) (hd : isSign d = true)
    (m : Except FaultKind Int) : signed (mergeSigns c d) m = signed c (signed d m) := by
  rcases isSign_iff.mp hc with rfl | rfl <;> rcases isSign_iff.mp hd with rfl | rfl
  · rfl
  · rfl
  · rfl
  · exact (signed_signed '-' m).symm

/-- A sign in front of a product or a quotient is a sign in front of its left operand. -/
theorem signed_bind_of_rank {op : BinOp} (h : op.rank = 2) (limits : Limits) (sign : Char)
    (m n : Except FaultKind Int) :
    (do let a ← signed sign m; let b ← n; op.meaning limits a b) =
      signed sign (do let a ← m; let b ← n; op.meaning limits a b) := by
  by_cases hs : sign = '-'
  · subst hs
    rw [signed_minus, signed_minus]
    rcases m with k | a
    · rfl
    · rcases n with k | b
      · rfl
      · cases op with
        | mul =>
          change Except.ok (-a * b) = Except.ok (-(a * b))
          rw [Int.neg_mul]
        | div =>
          change (if b = 0 then Except.error FaultKind.divisionByZero else Except.ok ((-a).tdiv b)) =
            (if b = 0 then _ else _ : Except FaultKind Int).map (-·)
          by_cases hb : b = 0
          · simp [hb, Except.map]
          · simp [hb, Except.map, Int.neg_tdiv]
        | _ => cases h
  · unfold signed
    rw [if_neg hs, if_neg hs]

/-- A sum is the same with a sign of its right operand merged into its own. -/
theorem exists_mergeSigns_eq_symbol {op : BinOp} (h : op.rank = 1) {d : Char}
    (hd : isSign d = true) (limits : Limits) (m n : Except FaultKind Int) :
    ∃ op' : BinOp, op'.rank = 1 ∧ mergeSigns op.symbol d = op'.symbol ∧
      (do let a ← m; let b ← signed d n; op'.meaning limits a b) =
        (do let a ← m; let b ← n; op.meaning limits a b) := by
  rcases isSign_iff.mp hd with rfl | rfl
  · have hop : mergeSigns op.symbol '+' = op.symbol := by
      cases op <;> first | rfl | cases h
    exact ⟨op, h, hop, rfl⟩
  · rw [signed_minus]
    cases op with
    | add =>
      refine ⟨.sub, rfl, rfl, ?_⟩
      rcases m with k | a
      · rfl
      · rcases n with k | b
        · rfl
        · exact congrArg Except.ok (Int.sub_neg a b)
    | sub =>
      refine ⟨.add, rfl, rfl, ?_⟩
      rcases m with k | a
      · rfl
      · rcases n with k | b
        · rfl
        · exact congrArg Except.ok Int.sub_eq_add_neg.symm
    | _ => cases h

/-! ## Expressions wherever they stand -/

/-- The text is an expression with this meaning, wherever in a line it begins. -/
def Means (limits : Limits) (store : Store) (level : Nat) (t : Text)
    (m : Except FaultKind Int) : Prop :=
  ∀ start, ∃ e, Formula level start t e ∧ e.meaning limits store = m

namespace Means

variable {limits : Limits} {store : Store} {level : Nat} {s t : Text} {m n : Except FaultKind Int}

theorem ne_nil (h : Means limits store level t m) : t ≠ [] := by
  obtain ⟨_, he, _⟩ := h 0
  exact he.ne_nil

theorem group (h : Means limits store 1 t m) : Means limits store 5 ('(' :: t ++ [')']) m := by
  intro start
  obtain ⟨e, he, hm⟩ := h (start + 1)
  exact ⟨e, .group he, hm⟩

theorem sign {c : Char} (hc : isSign c = true) (h : Means limits store 4 t m) :
    Means limits store 4 (c :: t) (signed c m) := by
  intro start
  obtain ⟨e, he, rfl⟩ := h (start + 1)
  rcases isSign_iff.mp hc with rfl | rfl
  · exact ⟨e, .plus he, rfl⟩
  · exact ⟨_, .minus he, rfl⟩

theorem binary {op : BinOp} (hs : Means limits store op.rank s m)
    (ht : Means limits store (op.rank + 1) t n) :
    Means limits store op.rank (s ++ op.symbol :: t)
      (do let a ← m; let b ← n; op.meaning limits a b) := by
  intro start
  obtain ⟨a, ha, rfl⟩ := hs start
  obtain ⟨b, hb, rfl⟩ := ht (start + s.byteLength + 1)
  exact ⟨_, .binary ha hb, rfl⟩

theorem tighter (h : Means limits store (level + 1) t m) : Means limits store level t m := by
  intro start
  obtain ⟨e, he, hm⟩ := h start
  exact ⟨e, .tighter he, hm⟩

end Means

/-! ## The one shape -/

/-- The text begins with a sign, and the atom behind its signs is the base of a power. -/
def SignedBase (t : Text) : Prop :=
  ∃ signs atom after, signs ≠ [] ∧ (∀ c ∈ signs, isSign c = true) ∧
    (∃ start e, Formula 5 start atom e) ∧ t = signs ++ (atom ++ '^' :: after)

/-- Right after an operand or a group stand two signs or more, and the atom behind them is
the base of a power. -/
def HasSignedBase (line : Text) : Prop :=
  ∃ before c signs atom after, Closes c ∧ 2 ≤ signs.length ∧ (∀ d ∈ signs, isSign d = true) ∧
    (∃ start e, Formula 5 start atom e) ∧
    line = before ++ c :: (signs ++ (atom ++ '^' :: after))

theorem HasSignedBase.append {t : Text} (h : HasSignedBase t) (before after : Text) :
    HasSignedBase (before ++ t ++ after) := by
  obtain ⟨b, c, signs, atom, a, hc, hlen, hsigns, hatom, rfl⟩ := h
  exact ⟨before ++ b, c, signs, atom, a ++ after, hc, hlen, hsigns, hatom, by simp⟩

theorem SignedBase.append {t : Text} (h : SignedBase t) (after : Text) :
    SignedBase (t ++ after) := by
  obtain ⟨signs, atom, a, hne, hsigns, hatom, rfl⟩ := h
  exact ⟨signs, atom, a ++ after, hne, hsigns, hatom, by simp⟩

/-- A sign of a sum and the signs of its right operand are a row after the left operand. -/
theorem HasSignedBase.of_right {level start : Nat} {s t : Text} {a : Tree} {sign : Char}
    (left : Formula level start s a) (hsign : isSign sign = true) (h : SignedBase t) :
    HasSignedBase (s ++ sign :: t) := by
  obtain ⟨init, c, rfl, hc⟩ := left.closes_last
  obtain ⟨signs, atom, after, hne, hsigns, hatom, rfl⟩ := h
  refine ⟨init, c, sign :: signs, atom, after, hc, ?_, ?_, hatom, by simp⟩
  · have := List.length_pos_iff.mpr hne
    rw [List.length_cons]
    omega
  · intro d hd
    rcases List.mem_cons.mp hd with rfl | hd
    · exact hsign
    · exact hsigns d hd

/-- A power begins with an atom behind its signs. -/
theorem Formula.exists_atom {level start : Nat} {t : Text} {e : Tree}
    (h : Formula level start t e) (hlevel : 3 ≤ level) :
    ∃ signs atom rest, (∀ c ∈ signs, isSign c = true) ∧ (∃ start e, Formula 5 start atom e) ∧
      t = signs ++ (atom ++ rest) ∧ (rest = [] ∨ ∃ after, rest = '^' :: after) := by
  induction h with
  | operand nonempty plain =>
    exact ⟨[], _, [], by simp, ⟨0, _, .operand nonempty plain⟩, by simp, Or.inl rfl⟩
  | group sum _ =>
    exact ⟨[], _, [], by simp, ⟨_, _, .group sum⟩, by simp, Or.inl rfl⟩
  | plus _ ih | minus _ ih =>
    obtain ⟨signs, atom, rest, hsigns, hatom, rfl, hrest⟩ := ih (by decide)
    refine ⟨_ :: signs, atom, rest, ?_, hatom, rfl, hrest⟩
    intro c hc
    rcases List.mem_cons.mp hc with rfl | hc
    · rfl
    · exact hsigns c hc
  | @binary _ op _ t _ _ _ _ ih _ =>
    obtain ⟨signs, atom, rest, hsigns, hatom, rfl, hrest⟩ := ih hlevel
    have hop : op.symbol = '^' := by
      cases op <;> first | rfl | exact absurd hlevel (by decide)
    refine ⟨signs, atom, rest ++ op.symbol :: t, hsigns, hatom, by simp, Or.inr ?_⟩
    rw [hop]
    rcases hrest with rfl | ⟨after, rfl⟩
    · exact ⟨t, rfl⟩
    · exact ⟨after ++ '^' :: t, by simp⟩
  | tighter _ ih => exact ih (by omega)

theorem Formula.not_isSign_head {level start : Nat} {t : Text} {e : Tree}
    (h : Formula level start t e) (hlevel : 5 ≤ level) :
    ∃ c rest, t = c :: rest ∧ isSign c = false := by
  induction h with
  | @operand _ t nonempty plain =>
    obtain ⟨c, rest, rfl⟩ := List.exists_cons_of_ne_nil nonempty
    exact ⟨c, rest, rfl, isSign_of_isAlphanum (Operand.isAlphanum_of_isPlain plain c (by simp))⟩
  | group _ _ => exact ⟨'(', _, rfl, rfl⟩
  | plus _ _ | minus _ _ => exact absurd hlevel (by decide)
  | @binary _ op _ _ _ _ _ _ _ _ => exact absurd hlevel (by cases op <;> decide)
  | tighter _ ih => exact ih (Nat.le_succ_of_le hlevel)

/-- A power that begins with a sign has an atom behind its signs for a base. -/
theorem SignedBase.of_power {start : Nat} {s t : Text} {a : Tree} (left : Formula 3 start s a)
    {c : Char} {rest : Text} (hs : s = c :: rest) (hc : isSign c = true) :
    SignedBase (s ++ '^' :: t) := by
  obtain ⟨signs, atom, more, hsigns, hatom, hsplit, hmore⟩ := left.exists_atom (by decide)
  have hne : signs ≠ [] := by
    rintro rfl
    obtain ⟨p, e, hatom⟩ := hatom
    obtain ⟨b, _, rfl, hb⟩ := hatom.not_isSign_head (Nat.le_refl 5)
    rw [hs, List.nil_append, List.cons_append, List.cons.injEq] at hsplit
    rw [hsplit.1, hb] at hc
    cases hc
  rcases hmore with rfl | ⟨after, rfl⟩
  · exact ⟨signs, atom, t, hne, hsigns, hatom, by rw [hsplit]; simp⟩
  · exact ⟨signs, atom, after ++ '^' :: t, hne, hsigns, hatom, by rw [hsplit]; simp⟩

/-! ## Collapsing an expression -/

/-- Where the text begins with a sign, the rest of it means what the sign takes from `m`. -/
def Unsigned (limits : Limits) (store : Store) (level : Nat) (t : Text)
    (m : Except FaultKind Int) : Prop :=
  ∀ d rest, t = d :: rest → isSign d = true → Means limits store level rest (signed d m)

variable {limits : Limits} {store : Store} {level start : Nat} {s t : Text} {a b e : Tree}
  {m n : Except FaultKind Int}

theorem Unsigned.tighter (h : Unsigned limits store (level + 1) t m) :
    Unsigned limits store level t m :=
  fun d rest ht hd => (h d rest ht hd).tighter

theorem unsigned_of_not_isSign {c : Char} {rest : Text} (hc : isSign c = false) :
    Unsigned limits store level (c :: rest) m := by
  intro d rest' ht hd
  cases ht
  rw [hc] at hd
  cases hd

/-- A sign in front of a signed atom may merge with the sign of the atom. -/
theorem Means.sign_merged {c : Char} (hc : isSign c = true) (h : Means limits store 4 t m)
    (hu : Unsigned limits store 4 t m) :
    Means limits store 4 (pushSign c t) (signed c m) ∧
      Unsigned limits store 4 (pushSign c t) (signed c m) := by
  obtain ⟨d, rest, rfl⟩ := List.exists_cons_of_ne_nil h.ne_nil
  by_cases hd : isSign d = true
  · have hmerge : signed (mergeSigns c d) (signed d m) = signed c m := by
      rw [signed_mergeSigns hc hd, signed_signed]
    have hrest : Means limits store 4 rest (signed d m) := hu d rest rfl hd
    rw [pushSign_of_isSign hc hd]
    refine ⟨hmerge ▸ hrest.sign (isSign_mergeSigns c d), ?_⟩
    intro x rest' ht hx
    cases ht
    rw [← hmerge, signed_signed]
    exact hrest
  · rw [Bool.not_eq_true] at hd
    rw [pushSign_of_not_isSign hd]
    refine ⟨h.sign hc, ?_⟩
    intro x rest' ht hx
    cases ht
    rw [signed_signed]
    exact h

/-- The sign of a sum may merge with the sign that its right operand begins with. -/
theorem Means.sum {op : BinOp} (hop : op.rank = 1) (hs : Means limits store 1 s m)
    (ht : Means limits store 2 t n) (hu : Unsigned limits store 2 t n) :
    Means limits store 1 (s ++ pushSign op.symbol t)
      (do let a ← m; let b ← n; op.meaning limits a b) := by
  have hsign : isSign op.symbol = true := by
    cases op <;> first | rfl | cases hop
  obtain ⟨d, rest, rfl⟩ := List.exists_cons_of_ne_nil ht.ne_nil
  by_cases hd : isSign d = true
  · obtain ⟨op', hop', hsymbol, hmeaning⟩ := exists_mergeSigns_eq_symbol hop hd limits m n
    rw [pushSign_of_isSign hsign hd, hsymbol, ← hmeaning]
    have hrest : Means limits store 2 rest (signed d n) := hu d rest rfl hd
    rw [← hop'] at hs ⊢
    exact hs.binary (by rw [hop']; exact hrest)
  · rw [Bool.not_eq_true] at hd
    rw [pushSign_of_not_isSign hd]
    rw [← hop] at hs ⊢
    exact hs.binary (by rw [hop]; exact ht)

/-- A product or a quotient begins with the sign that its left operand begins with. -/
theorem Unsigned.product {op : BinOp} (hop : op.rank = 2) (hne : s ≠ [])
    (hs : Unsigned limits store 2 s m) (ht : Means limits store 3 t n) :
    Unsigned limits store 2 (s ++ op.symbol :: t)
      (do let a ← m; let b ← n; op.meaning limits a b) := by
  intro d rest hsplit hd
  obtain ⟨c, s, rfl⟩ := List.exists_cons_of_ne_nil hne
  rw [List.cons_append, List.cons.injEq] at hsplit
  obtain ⟨rfl, rfl⟩ := hsplit
  rw [← signed_bind_of_rank hop]
  have hrest : Means limits store 2 s (signed c m) := hs c s rfl hd
  rw [← hop] at hrest ⊢
  exact hrest.binary (by rw [hop]; exact ht)

theorem Formula.collapseSigns_append (left : Formula level start s a) (t : Text) :
    collapseSigns (s ++ t) = collapseSigns s ++ collapseSigns t := by
  obtain ⟨init, c, rfl, hc⟩ := left.closes_last
  exact Abacus.collapseSigns_append hc.not_isSign t

/-- A power is not signed as a whole: where it begins with a sign, it is of the one shape. -/
theorem Unsigned.power (left : Formula 3 start s a) (hbase : ¬SignedBase (s ++ '^' :: t)) :
    Unsigned limits store 3 (collapseSigns (s ++ '^' :: t)) m := by
  obtain ⟨c, rest, rfl⟩ := List.exists_cons_of_ne_nil left.ne_nil
  have hc : isSign c = false := by
    rw [← Bool.not_eq_true]
    exact fun hc => hbase (.of_power left rfl hc)
  rw [List.cons_append, collapseSigns_cons_of_not_isSign hc]
  exact unsigned_of_not_isSign hc

/-- What collapsing keeps of an expression: its meaning, and, where it can stand after the
sign of a sum and is not of the one shape, what it means without a sign in front. -/
def Collapses (limits : Limits) (store : Store) (level : Nat) (t : Text)
    (m : Except FaultKind Int) : Prop :=
  Means limits store level (collapseSigns t) m ∧
    (2 ≤ level → 4 ≤ level ∨ ¬SignedBase t → Unsigned limits store level (collapseSigns t) m)

namespace Collapses

theorem sign {c : Char} (hc : isSign c = true) (h : Collapses limits store 4 t m) :
    Collapses limits store 4 (c :: t) (signed c m) := by
  have hu := h.2 (by decide) (Or.inl (Nat.le_refl 4))
  obtain ⟨hmeans, hunsigned⟩ := h.1.sign_merged hc hu
  exact ⟨hmeans, fun _ _ => hunsigned⟩

theorem tighter (h : Collapses limits store (level + 1) t m) : Collapses limits store level t m := by
  obtain ⟨hmeans, hunsigned⟩ := h
  refine ⟨hmeans.tighter, fun hlevel hbase => (hunsigned (by omega) ?_).tighter⟩
  exact hbase.imp_left Nat.le_succ_of_le

variable {op : BinOp}

theorem sum (hrank : op.rank = 1) (left : Formula op.rank start s a)
    (hs : Collapses limits store op.rank s m) (ht : Collapses limits store (op.rank + 1) t n)
    (hno : ¬HasSignedBase (s ++ op.symbol :: t)) :
    Collapses limits store op.rank (s ++ op.symbol :: t)
      (do let a ← m; let b ← n; op.meaning limits a b) := by
  have hsign : isSign op.symbol = true := by
    cases op <;> first | rfl | cases hrank
  have hbase : ¬SignedBase t := fun h => hno (.of_right left hsign h)
  have hu := ht.2 (by omega) (Or.inr hbase)
  unfold Collapses at hs ht ⊢
  rw [left.collapseSigns_append, collapseSigns_cons]
  simp only [hrank] at hs ht hu ⊢
  exact ⟨hs.1.sum hrank ht.1 hu, fun h => absurd h (by decide)⟩

theorem product (hrank : op.rank = 2) (hs : Collapses limits store op.rank s m)
    (ht : Collapses limits store (op.rank + 1) t n) :
    Collapses limits store op.rank (s ++ op.symbol :: t)
      (do let a ← m; let b ← n; op.meaning limits a b) := by
  have hsign : isSign op.symbol = false := by
    cases op <;> first | rfl | cases hrank
  unfold Collapses
  rw [collapseSigns_append_cons hsign]
  refine ⟨hs.1.binary ht.1, fun _ hbase => ?_⟩
  have hbases : ¬SignedBase s := fun h => hbase.elim (by omega) fun hb => hb (h.append _)
  have hu := hs.2 (by omega) (Or.inr hbases)
  obtain ⟨hmeans, _⟩ := hs
  obtain ⟨hmeant, _⟩ := ht
  simp only [hrank] at hmeans hmeant hu ⊢
  exact hu.product hrank hmeans.ne_nil hmeant

theorem power (left : Formula BinOp.pow.rank start s a)
    (hs : Collapses limits store BinOp.pow.rank s m)
    (ht : Collapses limits store (BinOp.pow.rank + 1) t n) :
    Collapses limits store BinOp.pow.rank (s ++ BinOp.pow.symbol :: t)
      (do let a ← m; let b ← n; BinOp.pow.meaning limits a b) := by
  refine ⟨?_, fun _ hbase => Unsigned.power left (hbase.resolve_left (by decide))⟩
  rw [collapseSigns_append_cons rfl]
  exact hs.1.binary ht.1

end Collapses

/-- An expression that is not of the one shape keeps its meaning. -/
theorem Formula.collapses (limits : Limits) (store : Store) (h : Formula level start t e)
    (hno : ¬HasSignedBase t) : Collapses limits store level t (e.meaning limits store) := by
  induction h with
  | @operand _ t nonempty plain =>
    have hnosign : ∀ c ∈ t, isSign c = false := fun c hc =>
      isSign_of_isAlphanum (Operand.isAlphanum_of_isPlain plain c hc)
    unfold Collapses
    rw [collapseSigns_of_no_sign hnosign]
    refine ⟨fun start => ⟨_, .operand nonempty plain, rfl⟩, fun _ _ => ?_⟩
    obtain ⟨c, rest, rfl⟩ := List.exists_cons_of_ne_nil nonempty
    exact unsigned_of_not_isSign (hnosign c List.mem_cons_self)
  | @group _ t _ _ ih =>
    have hin : ¬HasSignedBase t := fun h => hno (h.append ['('] [')'])
    unfold Collapses
    rw [List.cons_append, collapseSigns_cons_of_not_isSign rfl, collapseSigns_append_cons rfl]
    exact ⟨(ih hin).1.group, fun _ _ => unsigned_of_not_isSign rfl⟩
  | @plus _ t _ _ ih =>
    have hin : ¬HasSignedBase t := fun h => hno (by simpa using h.append ['+'] [])
    exact Collapses.sign rfl (ih hin)
  | @minus _ t _ _ ih =>
    have hin : ¬HasSignedBase t := fun h => hno (by simpa using h.append ['-'] [])
    exact Collapses.sign rfl (ih hin)
  | @binary start op s t a b left right ihl ihr =>
    have hl : ¬HasSignedBase s := fun h => hno (h.append [] _)
    have hr : ¬HasSignedBase t := fun h => hno (by simpa using h.append (s ++ [op.symbol]) [])
    cases op with
    | add | sub => exact .sum rfl left (ihl hl) (ihr hr) hno
    | mul | div => exact .product rfl (ihl hl) (ihr hr)
    | pow => exact .power left (ihl hl) (ihr hr)
  | tighter _ ih => exact (ih hno).tighter

/-! ## The plain form -/

theorem Text.isBlank_of_isAlphanum {c : Char} (h : c.isAlphanum = true) :
    Text.isBlank c = false := by
  delta Char.isAlphanum Char.isAlpha Char.isUpper Char.isLower Char.isDigit at h
  simp only [Bool.or_eq_true, Bool.and_eq_true, decide_eq_true_eq, UInt32.le_iff_toNat_le,
    ge_iff_le] at h
  have hc : c.toNat = c.val.toNat := rfl
  have hA : 'A'.val.toNat = 65 := rfl
  have hZ : 'Z'.val.toNat = 90 := rfl
  have ha : 'a'.val.toNat = 97 := rfl
  have hz : 'z'.val.toNat = 122 := rfl
  have h0 : '0'.val.toNat = 48 := rfl
  have h9 : '9'.val.toNat = 57 := rfl
  simp only [Text.isBlank, Text.blankRanges, List.any_cons, List.any_nil, Bool.or_false,
    Bool.or_eq_false_iff, Bool.and_eq_false_iff, decide_eq_false_iff_not]
  omega

theorem Text.isBlank_of_isOperator {c : Char} (h : isOperator c = true) :
    Text.isBlank c = false := by
  unfold isOperator Op.ofChar? at h
  split at h <;> first | rfl | cases h

theorem Formula.withoutBlanks_eq (h : Formula level start t e) : t.withoutBlanks = t := by
  unfold Text.withoutBlanks
  rw [List.filter_eq_self]
  intro c hc
  rw [Bool.not_eq_true']
  rcases h.isAlphanum_or_isOperator c hc with hc | hc
  · exact Text.isBlank_of_isAlphanum hc
  · exact Text.isBlank_of_isOperator hc

/-- The plain form of an expression that is not of the one shape is an expression too, and
means the same. -/
theorem Formula.plainForm_meaning (limits : Limits) (store : Store) {line : Text}
    (h : Formula.Line line e) (hno : ¬HasSignedBase line) :
    ∃ e', Formula.Line (plainForm line) e' ∧
      e'.meaning limits store = e.meaning limits store := by
  unfold plainForm
  rw [h.withoutBlanks_eq]
  exact (h.collapses limits store hno).1 0

/-- Two outcomes of one gist, which is not silence, are one value or failures of one kind. -/
theorem Outcome.same_of_gist_eq {o o' : Outcome} (h : o'.gist = o.gist) (hs : o ≠ .silent) :
    (∃ v, o = .value v ∧ o' = .value v) ∨
      ∃ fault fault', o = .failed fault ∧ o' = .failed fault' ∧ fault'.kind = fault.kind := by
  cases o with
  | value v =>
    cases o' <;> cases h
    exact Or.inl ⟨v, rfl, rfl⟩
  | silent => exact absurd rfl hs
  | failed fault =>
    cases o' with
    | failed fault' =>
      simp only [gist, Except.error.injEq] at h
      exact Or.inr ⟨fault, fault', rfl, rfl, h⟩
    | _ => cases h

/-- An expression and its plain form have the same value, or fail in the same way, unless the
line is of the one shape. For that shape it can be otherwise. -/
theorem collapsed_signs_mean_the_same :
    (∀ (s : Session) (line : Text) (e : Tree), Formula.Line line e → ¬HasSignedBase line →
      (∃ v, (s.execute line).1 = .value v ∧ (s.execute (plainForm line)).1 = .value v) ∨
        ∃ fault fault', (s.execute line).1 = .failed fault ∧
          (s.execute (plainForm line)).1 = .failed fault' ∧ fault'.kind = fault.kind) ∧
    ∃ line e v v', Formula.Line line e ∧ HasSignedBase line ∧ v ≠ v' ∧
      (Session.execute {} line).1 = .value v ∧
      (Session.execute {} (plainForm line)).1 = .value v' := by
  constructor
  · intro s line e h hno
    obtain ⟨e', h', hmeaning⟩ := Formula.plainForm_meaning s.limits s.store h hno
    apply Outcome.same_of_gist_eq
    · rw [s.gist_execute_formula h, s.gist_execute_formula h', hmeaning]
    · exact s.execute_formula_ne_silent h
  · have hone : Formula 5 0 ['1'] _ := .operand (by decide) (by decide)
    have htwo : Formula 5 3 ['2'] _ := .operand (by decide) (by decide)
    have hexponent : Formula 5 5 ['2'] _ := .operand (by decide) (by decide)
    have hnegated : Formula 4 2 "-2".toList _ := .minus htwo.tighter
    have hpower : Formula 2 2 "-2^2".toList _ :=
      Formula.joined .pow hnegated.tighter hexponent.tighter (by decide)
    have hline : Formula.Line "1--2^2".toList _ :=
      Formula.joined .sub (hone.loosen (by decide)) hpower (by decide)
    refine ⟨_, _, -3, 5, hline, ?_, by decide, by decide, by decide⟩
    refine ⟨[], '1', ['-', '-'], ['2'], ['2'], Or.inl (by decide), by decide, ?_, ?_, rfl⟩
    · simp [isSign]
    · exact ⟨0, _, .operand (by decide) (by decide)⟩

/-- `2--3*x` and `2+3*x`, where `x` is 4. -/
theorem two_minus_minus_three_times_four :
    ∃ e, Formula.Line "2--3*x".toList e ∧ ¬HasSignedBase "2--3*x".toList ∧
      plainForm "2--3*x".toList = "2+3*x".toList ∧
      (Session.execute { store := Store.assign {} ['x'] 4 } "2+3*x".toList).1 = .value 14 := by
  have htwo : Formula 5 0 ['2'] _ := .operand (by decide) (by decide)
  have hthree : Formula 5 3 ['3'] _ := .operand (by decide) (by decide)
  have hx : Formula 5 5 ['x'] _ := .operand (by decide) (by decide)
  have hnegated : Formula 4 2 "-3".toList _ := .minus hthree.tighter
  have hproduct : Formula 2 2 "-3*x".toList _ :=
    Formula.joined .mul (hnegated.loosen (by decide)) (hx.loosen (by decide)) (by decide)
  have hno : ¬HasSignedBase "2--3*x".toList := by
    rintro ⟨before, c, signs, atom, after, _, _, _, _, hline⟩
    have hmem : '^' ∈ "2--3*x".toList := by simp [hline]
    exact absurd hmem (by decide)
  have hline : Formula.Line "2--3*x".toList _ :=
    Formula.joined .sub (htwo.loosen (by decide)) hproduct (by decide)
  refine ⟨_, hline, hno, by decide, ?_⟩
  have hvalue : (Session.execute { store := Store.assign {} ['x'] 4 } "2--3*x".toList).1 =
      .value 14 := by decide
  rcases collapsed_signs_mean_the_same.1 _ _ _ hline hno with ⟨v, hv, hv'⟩ | ⟨f, f', hf, _⟩
  · rw [hvalue] at hv
    cases hv
    exact hv'
  · rw [hvalue] at hf
    cases hf

end Abacus
