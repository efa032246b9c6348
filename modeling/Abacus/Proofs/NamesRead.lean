-- The names that a line reads: the answer to a line depends on their values
-- and on nothing else in the store. So two sessions that agree on all names
-- that are read go on alike, whatever else is bound in them.
import Abacus.Proofs.Bindings

namespace Abacus

/-! ## Reading -/

/-- What a line of this shape looks up: itself as a bare value, the operands of an expression,
or the right side of a reference. -/
def LineShape.lookups (line : Text) : LineShape → List Text
  | value => [line]
  | expression => (operands (Token.ofLine line)).map (·.what)
  | assignment _ _ => []
  | reference _ source => [source.what]

/-- The names that a line reads. A line that is refused for its form reads none. -/
def Text.namesRead (line : Text) : List Text :=
  match Session.refuseDoubled line, LineShape.ofLine line with
  | .ok _, .ok shape => (shape.lookups line).filter Operand.isName
  | _, _ => []

/-- The names that an entry reads. -/
def Entry.namesRead (entry : Entry) : List Text :=
  match entry.line? with
  | some line => line.namesRead
  | none => []

theorem Text.mem_namesRead {line name : Text} {shape : LineShape}
    (doubled : Session.refuseDoubled line = .ok ()) (hshape : LineShape.ofLine line = .ok shape)
    (lookup : name ∈ shape.lookups line) (named : Operand.isName name = true) :
    name ∈ line.namesRead := by
  unfold namesRead
  rw [doubled, hshape]
  exact List.mem_filter.mpr ⟨lookup, named⟩

/-! ## Agreement -/

/-- The stores give the same value, or none, to each of the names. -/
def Store.AgreeOn (names : Text → Prop) (a b : Store) : Prop :=
  ∀ name, names name → a.get? name = b.get? name

/-- Nothing but names is bound. -/
def Store.BindsNames (store : Store) : Prop :=
  ∀ name, store.contains name = true → Operand.isName name = true

section Agreement

variable {a b : Store} {names : Text → Prop}

theorem Store.AgreeOn.assign (h : a.AgreeOn names b) (name : Text) (value : Int) :
    (a.assign name value).AgreeOn names (b.assign name value) := by
  intro other hother
  rw [get?_assign, get?_assign, h other hother]

theorem Store.BindsNames.get?_eq_none (h : a.BindsNames) {t : Text}
    (ht : ¬Operand.isName t = true) : a.get? t = none := by
  rcases hget : a.get? t with _ | value
  · rfl
  · exact absurd (h t (contains_iff.mpr ⟨value, hget⟩)) ht

/-- An operand has the same value in both stores if they agree on it, in case it is a name. -/
theorem Operand.resolve_eq (ha : a.BindsNames) (hb : b.BindsNames) {operand : Placed Text}
    (h : isName operand.what = true → a.get? operand.what = b.get? operand.what) :
    resolve a operand = resolve b operand := by
  have hget : a.get? operand.what = b.get? operand.what := by
    by_cases hname : isName operand.what = true
    · exact h hname
    · rw [ha.get?_eq_none hname, hb.get?_eq_none hname]
  unfold resolve
  rw [hget]

/-- Only the operands among the tokens are looked up. -/
theorem Stack.step_eq (limits : Limits) (stack : Stack) {t : Token}
    (h : ∀ operand ∈ LineShape.operands [t], Operand.resolve a operand = Operand.resolve b operand) :
    step limits a stack t = step limits b stack t := by
  obtain ⟨what, span⟩ := t
  rcases what with text | op
  · rw [step_operand, step_operand, h ⟨text, span⟩ List.mem_cons_self]
  · rcases stack with _ | ⟨right, _ | ⟨left, rest⟩⟩ <;> cases op <;> rfl

theorem evaluate_eq {limits : Limits} {tokens : List Token}
    (h : ∀ operand ∈ LineShape.operands tokens,
      Operand.resolve a operand = Operand.resolve b operand) :
    evaluate limits a tokens = evaluate limits b tokens := by
  have hfold : ∀ stack, tokens.foldlM (Stack.step limits a) stack =
      tokens.foldlM (Stack.step limits b) stack := by
    induction tokens with
    | nil => exact fun stack => rfl
    | cons t rest ih =>
      intro stack
      have hcons : LineShape.operands (t :: rest) =
          LineShape.operands [t] ++ LineShape.operands rest := Conversion.operands_append [t] rest
      rw [hcons] at h
      have hstep := Stack.step_eq limits stack fun operand hmem =>
        h operand (List.mem_append_left _ hmem)
      have hrest := ih fun operand hmem => h operand (List.mem_append_right _ hmem)
      rw [List.foldlM_cons, List.foldlM_cons, hstep]
      congr 1
      exact funext hrest
  unfold evaluate
  rw [hfold]

end Agreement

/-! ## One line -/

namespace Session

variable {s t : Session} {names : Text → Prop}

/-- What two sessions come to that cannot be told apart by the names. -/
inductive Alike (names : Text → Prop) :
    Except Fault (Option Int × Store) → Except Fault (Option Int × Store) → Prop
  | failed (fault : Fault) : Alike names (.error fault) (.error fault)
  | done (value? : Option Int) {a b : Store} (agree : a.AgreeOn names b) :
      Alike names (.ok (value?, a)) (.ok (value?, b))

/-- The sessions have the same limits and agree on the names. -/
structure Agree (names : Text → Prop) (s t : Session) : Prop where
  limits : s.limits = t.limits
  stores : s.store.AgreeOn names t.store
  left : s.store.BindsNames
  right : t.store.BindsNames

theorem Agree.valueOf_eq (h : Agree names s t) {line : Text}
    (doubled : refuseDoubled line = .ok ()) (shape : LineShape.ofLine line = .ok .expression)
    (reads : ∀ name ∈ line.namesRead, names name) : s.valueOf line = t.valueOf line := by
  unfold valueOf
  rcases hpost : Postfix.ofLine line with fault | tokens
  · rfl
  · have hresolve : ∀ operand ∈ LineShape.operands tokens,
        Operand.resolve s.store operand = Operand.resolve t.store operand := by
      intro operand hmem
      rw [Postfix.operands_ofTokens hpost] at hmem
      refine Operand.resolve_eq h.left h.right fun hname => h.stores _ (reads _ ?_)
      exact Text.mem_namesRead doubled shape (List.mem_map_of_mem hmem) hname
    have hvalue : evaluate s.limits s.store tokens = evaluate t.limits t.store tokens := by
      rw [h.limits]
      exact evaluate_eq hresolve
    change (if tokens.isEmpty then _ else _) = (if tokens.isEmpty then _ else _)
    rw [hvalue]

theorem Agree.alike_perform (h : Agree names s t) {line : Text}
    (reads : ∀ name ∈ line.namesRead, names name) :
    Alike names (s.perform line) (t.perform line) := by
  unfold perform
  rcases hdoubled : refuseDoubled line with fault | ⟨⟩
  · exact .failed fault
  · rcases hshape : LineShape.ofLine line with fault | shape
    · exact .failed fault
    · cases shape with
      | value =>
        have hresolve : Operand.resolve s.store ⟨line, LineShape.whole line⟩ =
            Operand.resolve t.store ⟨line, LineShape.whole line⟩ :=
          Operand.resolve_eq h.left h.right fun hname => h.stores _
            (reads _ (Text.mem_namesRead hdoubled hshape List.mem_cons_self hname))
        change Alike names (Operand.resolve s.store _ >>= _) (Operand.resolve t.store _ >>= _)
        rw [hresolve]
        cases Operand.resolve t.store ⟨line, LineShape.whole line⟩ with
        | error fault => exact .failed fault
        | ok value => exact .done (some value) h.stores
      | expression =>
        change Alike names (s.valueOf line >>= _) (t.valueOf line >>= _)
        rw [h.valueOf_eq hdoubled hshape reads]
        cases t.valueOf line with
        | error fault => exact .failed fault
        | ok value? => exact .done value? h.stores
      | assignment name literal =>
        obtain ⟨_, _, hliteral⟩ := LineShape.of_assignment hshape
        obtain ⟨value, hvalue⟩ := Option.isSome_iff_exists.mp hliteral
        change Alike names (Operand.resolve s.store literal >>= _)
          (Operand.resolve t.store literal >>= _)
        unfold Operand.resolve
        rw [hvalue]
        exact .done none (h.stores.assign name value)
      | reference name source =>
        obtain ⟨_, _, hsource⟩ := LineShape.of_reference hshape
        have hget : s.store.get? source.what = t.store.get? source.what := h.stores _
          (reads _ (Text.mem_namesRead hdoubled hshape List.mem_cons_self hsource))
        change Alike names (s.store.copy name source >>= _) (t.store.copy name source >>= _)
        unfold Store.copy
        rw [hget]
        cases t.store.get? source.what with
        | none => exact .failed _
        | some value => exact .done none (h.stores.assign name value)

theorem Agree.execute (h : Agree names s t) {line : Text}
    (reads : ∀ name ∈ line.namesRead, names name) :
    (s.execute line).1 = (t.execute line).1 ∧
      (s.execute line).2.store.AgreeOn names (t.execute line).2.store := by
  have halike := h.alike_perform reads
  unfold Session.execute
  generalize s.perform line = first at halike
  generalize t.perform line = second at halike
  cases halike with
  | failed fault => exact ⟨rfl, h.stores⟩
  | done value? agree => cases value? <;> exact ⟨rfl, agree⟩

/-! ## Many lines -/

/-- One entry is answered alike, and leaves the sessions in agreement. -/
theorem Agree.enter (h : Agree names s t) {entry : Entry}
    (reads : ∀ name ∈ entry.namesRead, names name) :
    (s.enter entry).1 = (t.enter entry).1 ∧ Agree names (s.enter entry).2 (t.enter entry).2 := by
  have hlimits : (s.enter entry).2.limits = (t.enter entry).2.limits := by
    rw [limits_enter, limits_enter, h.limits]
  have hleft := (s.step_enter entry).isName h.left
  have hright := (t.step_enter entry).isName h.right
  suffices hline : (s.enter entry).1 = (t.enter entry).1 ∧
      (s.enter entry).2.store.AgreeOn names (t.enter entry).2.store from
    ⟨hline.1, hlimits, hline.2, hleft, hright⟩
  rcases hentry : entry.line? with _ | line
  · obtain ⟨action, hstill⟩ := enter_of_no_line hentry
    rw [hstill, hstill]
    exact ⟨rfl, h.stores⟩
  · unfold Entry.namesRead at reads
    rw [hentry] at reads
    obtain ⟨houtcome, hstores⟩ := h.execute reads
    rw [enter_of_line s hentry, enter_of_line t hentry]
    exact ⟨congrArg (Action.evaluated line) houtcome, hstores⟩

theorem Agree.after (h : Agree names s t) {entries : List Entry}
    (reads : ∀ entry ∈ entries, ∀ name ∈ entry.namesRead, names name) :
    s.actions entries = t.actions entries ∧
      Agree names (s.after entries) (t.after entries) := by
  induction entries generalizing s t with
  | nil => exact ⟨rfl, h⟩
  | cons entry rest ih =>
    obtain ⟨hfirst, hnext⟩ := h.enter (reads entry List.mem_cons_self)
    obtain ⟨hrest, hlast⟩ := ih hnext fun e he => reads e (List.mem_cons_of_mem _ he)
    refine ⟨?_, hlast⟩
    unfold actions
    rw [hfirst, hrest]

end Session

/-! ## The law -/

/-- Two sessions of the same limits that began without names and give the same values to some
names: entries that read these names only are answered alike, and after each of them the
sessions still give the same values to these names. -/
theorem a_session_depends_on_the_names_it_reads (limits : Limits)
    (before₁ before₂ : List Entry) (names : Text → Prop)
    (agree : ∀ name, names name → (Session.after { limits } before₁).store.get? name =
      (Session.after { limits } before₂).store.get? name)
    (entries : List Entry) (reads : ∀ entry ∈ entries, ∀ name ∈ entry.namesRead, names name) :
    let s := Session.after { limits } before₁
    let t := Session.after { limits } before₂
    s.actions entries = t.actions entries ∧
    ∀ first later, entries = first ++ later → ∀ name, names name →
      (s.after first).store.get? name = (t.after first).store.get? name := by
  intro s t
  have hlimits : s.limits = t.limits := by rw [Session.limits_after, Session.limits_after]
  have hagree : s.Agree names t :=
    ⟨hlimits, agree, Session.isName_after limits before₁, Session.isName_after limits before₂⟩
  refine ⟨(hagree.after reads).1, ?_⟩
  rintro first later rfl
  have hfirst := hagree.after fun entry hentry => reads entry (List.mem_append_left _ hentry)
  exact hfirst.2.stores

/-- `d=a`, `b=9` and `a*d-5` read `a` and `d` only. So they are answered alike where `b` was 3
and where `b` was 7 and `c` was 1, and both times `a` and `d` are 2 in the end. -/
theorem other_names_do_not_matter :
    let s := Session.after {} [.plain "a=2".toList, .plain "b=3".toList]
    let t := Session.after {} [.plain "a=2".toList, .plain "c=1".toList, .plain "b=7".toList]
    let entries : List Entry := [.plain "d=a".toList, .plain "b=9".toList, .plain "a*d-5".toList]
    s.store.get? ['b'] ≠ t.store.get? ['b'] ∧
      entries.flatMap Entry.namesRead = [['a'], ['a'], ['d']] ∧
      s.actions entries = t.actions entries ∧
      s.actions entries = [.evaluated "d=a".toList .silent, .evaluated "b=9".toList .silent,
        .evaluated "a*d-5".toList (.value (-1))] ∧
      (s.after entries).store.get? ['d'] = (t.after entries).store.get? ['d'] := by
  intro s t entries
  have hlaw := a_session_depends_on_the_names_it_reads {} [.plain "a=2".toList, .plain "b=3".toList]
    [.plain "a=2".toList, .plain "c=1".toList, .plain "b=7".toList]
    (fun name => name = ['a'] ∨ name = ['d']) (by rintro name (rfl | rfl) <;> decide) entries
    (by decide)
  exact ⟨by decide, by decide, hlaw.1, by decide, hlaw.2 entries [] rfl ['d'] (Or.inr rfl)⟩

end Abacus
