-- The store: which names have a value. A name stands in it at most once, and
-- no operation takes a name out.
import Abacus.Fault

namespace Abacus

/-- The names that have a value, each with its value. The newest binding is first. -/
structure Store where
  entries : List (Text × Int) := []
  distinct : (entries.map Prod.fst).Nodup := by simp
  deriving DecidableEq, Repr

namespace Store

/-- The value of a name. -/
def get? (s : Store) (name : Text) : Option Int := s.entries.lookup name

/-- The name has a value. -/
def contains (s : Store) (name : Text) : Bool := (s.get? name).isSome

/-- The number of names that have a value. -/
def size (s : Store) : Nat := s.entries.length

/-- Gives the name this value, in place of the one that it may have. -/
def assign (s : Store) (name : Text) (value : Int) : Store where
  entries := (name, value) :: s.entries.filter (·.1 != name)
  distinct := by
    have h : ((s.entries.filter (·.1 != name)).map Prod.fst).Nodup :=
      s.distinct.sublist (List.filter_sublist.map Prod.fst)
    simp [h]

/-- Gives `name` the value that `source` has now. A source without a value is at fault. -/
def copy (s : Store) (name : Text) (source : Placed Text) : Except Fault Store :=
  match s.get? source.what with
  | some value => .ok (s.assign name value)
  | none => .error ⟨.unknownVariable source.what, source.span⟩

/-! ## Looking up -/

@[simp] theorem get?_empty (name : Text) : ({} : Store).get? name = none := rfl

@[simp] theorem get?_assign_self (s : Store) (name : Text) (value : Int) :
    (s.assign name value).get? name = some value := by
  simp [get?, assign]

theorem lookup_filter_ne {entries : List (Text × Int)} {name other : Text} (h : other ≠ name) :
    (entries.filter (·.1 != name)).lookup other = entries.lookup other := by
  induction entries with
  | nil => rfl
  | cons e rest ih =>
    obtain ⟨k, v⟩ := e
    by_cases hk : k = name
    · subst hk
      simp [List.lookup_cons, ih, beq_eq_false_iff_ne.mpr h]
    · by_cases ho : other = k <;> simp [List.lookup_cons, hk, ho, ih]

theorem get?_assign_of_ne (s : Store) {name other : Text} (value : Int) (h : other ≠ name) :
    (s.assign name value).get? other = s.get? other := by
  simp [get?, assign, List.lookup_cons, beq_eq_false_iff_ne.mpr h, lookup_filter_ne h]

theorem get?_assign (s : Store) (name other : Text) (value : Int) :
    (s.assign name value).get? other = if other = name then some value else s.get? other := by
  by_cases h : other = name
  · subst h
    simp
  · simp [get?_assign_of_ne s value h, h]

end Store

end Abacus
