-- The laws of the bindings: only a line that is answered in silence changes
-- the store, it changes one name, and every value in the store was written as
-- a literal in an earlier line.
import Abacus.Proofs.SessionSteps
import Mathlib.Data.List.Induction

namespace Abacus

/-! ## The store -/

theorem Store.contains_iff {store : Store} {name : Text} :
    store.contains name = true ↔ ∃ value, store.get? name = some value := by
  unfold contains
  exact Option.isSome_iff_exists

theorem Store.contains_assign {store : Store} {name other : Text} (value : Int)
    (h : store.contains other = true) : (store.assign name value).contains other = true := by
  unfold contains at h ⊢
  rw [get?_assign]
  split
  · rfl
  · exact h

/-- How an entry that is answered with this action changes the store. -/
def Store.Changes (old new : Store) : Action → Prop
  | .evaluated line .silent =>
    ∃ name right value, line = name ++ '=' :: right ∧ Operand.isName name = true ∧
      old.Gives right value ∧ new.get? name = some value ∧
      ∀ other, other ≠ name → new.get? other = old.get? other
  | _ => new = old

namespace Session

/-- One of the entries gave a literal with this value to a name, and succeeded. -/
def Assigned (s : Session) (entries : List Entry) (value : Int) : Prop :=
  ∃ before entry later name literal, entries = before ++ entry :: later ∧
    ((s.after before).enter entry).1 = .evaluated (name ++ '=' :: literal) .silent ∧
    Operand.isName name = true ∧ Decimal.read? literal = some value

variable {s s' : Session} {action : Action}

/-! ## One step -/

theorem Step.changes (h : s.Step action s') : s.store.Changes s'.store action := by
  cases h with
  | still spoken =>
    unfold Store.Changes
    split
    · exact absurd rfl (spoken _)
    · rfl
  | @binds line name right value split named gives =>
    exact ⟨name, right, value, split, named, gives, Store.get?_assign_self _ _ _,
      fun other hne => Store.get?_assign_of_ne _ _ hne⟩

/-- No step takes a name out. -/
theorem Step.contains (h : s.Step action s') {name : Text}
    (hname : s.store.contains name = true) : s'.store.contains name = true := by
  cases h with
  | still _ => exact hname
  | binds => exact Store.contains_assign _ hname

/-- A name that is bound after a step was bound before, or stands left in its line. -/
theorem Step.isName (h : s.Step action s')
    (ih : ∀ name, s.store.contains name = true → Operand.isName name = true) :
    ∀ name, s'.store.contains name = true → Operand.isName name = true := by
  cases h with
  | still _ => exact ih
  | @binds _ target _ value _ named _ =>
    intro name hname
    obtain ⟨v, hv⟩ := Store.contains_iff.mp hname
    rw [Store.get?_assign] at hv
    split at hv
    · rename_i heq
      exact heq ▸ named
    · exact ih name (Store.contains_iff.mpr ⟨v, hv⟩)

theorem Assigned.concat {entries : List Entry} {value : Int} (h : s.Assigned entries value)
    (entry : Entry) : s.Assigned (entries ++ [entry]) value := by
  obtain ⟨before, e, later, name, literal, rfl, hrest⟩ := h
  exact ⟨before, e, later ++ [entry], name, literal, by simp, hrest⟩

/-- A value that is in the store after an entry was there before, or the entry assigns it. -/
theorem assigned_enter {entries : List Entry} (entry : Entry)
    (ih : ∀ name value, (s.after entries).store.get? name = some value →
      s.Assigned entries value) :
    ∀ name value, ((s.after entries).enter entry).2.store.get? name = some value →
      s.Assigned (entries ++ [entry]) value := by
  intro name value hvalue
  have hstep := (s.after entries).step_enter entry
  generalize haction : ((s.after entries).enter entry).1 = action at hstep
  generalize ((s.after entries).enter entry).2 = t at hstep hvalue
  cases hstep with
  | still _ => exact (ih name value hvalue).concat entry
  | @binds line target right v split named gives =>
    rw [Store.get?_assign] at hvalue
    split at hvalue
    · cases hvalue
      rcases gives with hlit | ⟨_, hsource⟩
      · exact ⟨entries, entry, [], target, right, rfl, split ▸ haction, named, hlit⟩
      · exact (ih right value hsource).concat entry
    · exact (ih name value hvalue).concat entry

/-! ## Many steps -/

theorem contains_after (s : Session) (entries : List Entry) {name : Text}
    (h : s.store.contains name = true) : (s.after entries).store.contains name = true := by
  induction entries generalizing s with
  | nil => exact h
  | cons entry rest ih => exact ih _ ((s.step_enter entry).contains h)

theorem isName_after (limits : Limits) (entries : List Entry) :
    ∀ name, (Session.after { limits } entries).store.contains name = true →
      Operand.isName name = true := by
  induction entries using List.reverseRecOn with
  | nil =>
    intro name h
    cases h
  | append_singleton entries entry ih =>
    rw [after_concat]
    exact (step_enter _ entry).isName ih

theorem assigned_after (limits : Limits) (entries : List Entry) :
    ∀ name value, (Session.after { limits } entries).store.get? name = some value →
      Session.Assigned { limits } entries value := by
  induction entries using List.reverseRecOn with
  | nil =>
    intro name value h
    cases h
  | append_singleton entries entry ih =>
    rw [after_concat]
    exact assigned_enter entry ih

end Session

/-! ## The laws -/

/-- In every session that began without names: the bound names are names, every bound value
was assigned as a literal, an entry changes the store as its action says and no more, and
what is bound stays bound. -/
theorem only_a_silent_line_changes_the_store (limits : Limits) (entries : List Entry) :
    let s := Session.after { limits } entries
    (∀ name, s.store.contains name = true → Operand.isName name = true) ∧
    (∀ name value, s.store.get? name = some value → Session.Assigned { limits } entries value) ∧
    (∀ entry, s.store.Changes (s.enter entry).2.store (s.enter entry).1) ∧
    ∀ later name, s.store.contains name = true → (s.after later).store.contains name = true := by
  intro s
  refine ⟨Session.isName_after limits entries, Session.assigned_after limits entries, ?_, ?_⟩
  · intro entry
    exact (s.step_enter entry).changes
  · intro later name
    exact s.contains_after later

/-- After `a = -3`, `b=a` and `a=4` the value of `b` is still -3, and -3 was assigned. -/
theorem a_copy_keeps_the_old_value :
    (Session.after {} [.typed "a = -3".toList, .plain "b=a".toList, .plain "a=4".toList]).store.get?
        ['b'] = some (-3) ∧
      Session.Assigned {} [.typed "a = -3".toList, .plain "b=a".toList, .plain "a=4".toList] (-3) := by
  have hb : (Session.after {} [.typed "a = -3".toList, .plain "b=a".toList,
      .plain "a=4".toList]).store.get? ['b'] = some (-3) := by decide
  exact ⟨hb, (only_a_silent_line_changes_the_store {} _).2.1 ['b'] (-3) hb⟩

end Abacus
