-- Spans: the stretch of a line that a token, a value or a fault stands on.
-- Offsets count the UTF-8 bytes of the line.

namespace Abacus

/-- The bytes from `start` up to, and not including, `stop`. -/
structure Span where
  start : Nat
  stop : Nat
  deriving DecidableEq, Repr, Inhabited

namespace Span

/-- The span of one byte. -/
def single (start : Nat) : Span := ⟨start, start + 1⟩

/-- The least span that holds both. -/
def join (a b : Span) : Span := ⟨min a.start b.start, max a.stop b.stop⟩

/-! ## Joining -/

@[simp] theorem start_join (a b : Span) : (a.join b).start = min a.start b.start := rfl

@[simp] theorem stop_join (a b : Span) : (a.join b).stop = max a.stop b.stop := rfl

theorem join_comm (a b : Span) : a.join b = b.join a := by
  simp [join, Nat.min_comm, Nat.max_comm]

theorem join_assoc (a b c : Span) : (a.join b).join c = a.join (b.join c) := by
  simp [join, Nat.min_assoc, Nat.max_assoc]

@[simp] theorem join_self (a : Span) : a.join a = a := by
  simp [join]

end Span

/-- A thing of the line, together with the bytes that it stands on. -/
structure Placed (α : Type) where
  what : α
  span : Span
  deriving DecidableEq, Repr

end Abacus
