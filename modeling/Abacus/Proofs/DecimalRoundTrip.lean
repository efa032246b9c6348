-- Decimals there and back: the written form of an integer is read as this
-- integer, and digits denote what their places say.
import Abacus.Decimal
import Mathlib.Data.List.Induction
import Mathlib.Data.Nat.Digits.Defs

namespace Abacus.Decimal

/-! ## What a text denotes -/

/-- The number of a row of digits by their places: ones at the end, tens before them, and so
on. -/
def positional (ds : Text) : Nat :=
  Nat.ofDigits 10 (ds.reverse.map fun d => d.toNat - '0'.toNat)

/-- The integer that a numeral denotes, alone or behind one sign. -/
inductive Denotes : Text → Int → Prop
  | unsigned {ds : Text} (numeral : isNumeral ds = true) : Denotes ds (positional ds)
  | plus {ds : Text} (numeral : isNumeral ds = true) : Denotes ('+' :: ds) (positional ds)
  | minus {ds : Text} (numeral : isNumeral ds = true) : Denotes ('-' :: ds) (-(positional ds : Int))

/-! ## Rows of digits -/

theorem value_concat (ds : Text) (d : Char) :
    value (ds ++ [d]) = 10 * value ds + (d.toNat - '0'.toNat) := by
  simp [value, List.foldl_append]

theorem value_eq_positional (ds : Text) : value ds = positional ds := by
  induction ds using List.reverseRecOn with
  | nil => rfl
  | append_singleton ds d ih =>
    rw [value_concat, ih]
    simp [positional, Nat.ofDigits_cons, Nat.add_comm]

theorem value_append (s t : Text) : value (s ++ t) = value s * 10 ^ t.length + value t := by
  induction t using List.reverseRecOn with
  | nil => simp [value]
  | append_singleton t d ih =>
    rw [← List.append_assoc, value_concat, ih, value_concat, List.length_append, List.length_singleton,
      Nat.pow_succ]
    ring

/-- Zeros in front count nothing. -/
theorem value_dropWhile_zero (ds : Text) : value (ds.dropWhile (· = '0')) = value ds := by
  induction ds with
  | nil => rfl
  | cons d ds ih =>
    by_cases h : d = '0'
    · subst h
      have hcons : value ('0' :: ds) = value ['0'] * 10 ^ ds.length + value ds :=
        value_append ['0'] ds
      have hzero : value ['0'] = 0 := rfl
      simp [ih, hcons, hzero]
    · simp [h]

/-! ## Blocks -/

theorem value_digitChar {n : Nat} (h : n < 10) : value [Nat.digitChar n] = n := by
  have hall : ∀ i : Fin 10, value [Nat.digitChar i] = i := by decide
  exact hall ⟨n, h⟩

theorem isDigit_digitChar {n : Nat} (h : n < 10) : (Nat.digitChar n).isDigit = true := by
  have hall : ∀ i : Fin 10, (Nat.digitChar i).isDigit = true := by decide
  exact hall ⟨n, h⟩

theorem block_succ (k n : Nat) :
    block (k + 1) n = block k (n / 10 ^ 2 ^ k) ++ block k (n % 10 ^ 2 ^ k) := rfl

theorem length_block (k n : Nat) : (block k n).length = 2 ^ k := by
  induction k generalizing n with
  | zero => rfl
  | succ k ih =>
    rw [block_succ, List.length_append, ih, ih]
    omega

theorem isDigit_of_mem_block {k n : Nat} {d : Char} (h : d ∈ block k n) : d.isDigit = true := by
  induction k generalizing n with
  | zero =>
    obtain rfl := List.mem_singleton.mp h
    exact isDigit_digitChar (Nat.mod_lt n (by decide))
  | succ k ih =>
    rcases List.mem_append.mp h with h | h
    · exact ih h
    · exact ih h

/-- A block has the last digits of its number. -/
theorem value_block (k n : Nat) : value (block k n) = n % 10 ^ 2 ^ k := by
  induction k generalizing n with
  | zero => exact value_digitChar (Nat.mod_lt n (by decide))
  | succ k ih =>
    have hpow : 10 ^ 2 ^ (k + 1) = 10 ^ 2 ^ k * 10 ^ 2 ^ k := by
      rw [← Nat.pow_add]
      congr 1
      omega
    rw [block_succ, value_append, ih, ih, length_block, Nat.mod_mod, hpow, Nat.mod_mul]
    ring

/-- The block of a number is long enough for all its digits. -/
theorem lt_pow_blockSize (n : Nat) : n < 10 ^ 2 ^ blockSize n := by
  have hsize : n.log2 / 3 + 1 < 2 ^ blockSize n := Nat.lt_log2_self
  have hthree : n.log2 + 1 ≤ 3 * 2 ^ blockSize n := by omega
  calc n < 2 ^ (n.log2 + 1) := Nat.lt_log2_self
    _ ≤ 2 ^ (3 * 2 ^ blockSize n) := Nat.pow_le_pow_right (by decide) hthree
    _ = 8 ^ 2 ^ blockSize n := by rw [Nat.pow_mul]
    _ ≤ 10 ^ 2 ^ blockSize n := Nat.pow_le_pow_left (by decide) _

/-! ## Written numbers -/

theorem isNumeral_digits (n : Nat) : isNumeral (digits n) = true := by
  unfold digits
  split
  · rfl
  · rename_i hne
    have hdigit : ∀ d ∈ (block (blockSize n) n).dropWhile (· = '0'), d.isDigit = true := by
      intro d hd
      exact isDigit_of_mem_block ((List.dropWhile_sublist _).subset hd)
    unfold isNumeral
    rw [Bool.and_eq_true]
    exact ⟨by simpa using hne, List.all_eq_true.mpr hdigit⟩

theorem value_digits (n : Nat) : value (digits n) = n := by
  have hvalue : value ((block (blockSize n) n).dropWhile (· = '0')) = n := by
    rw [value_dropWhile_zero, value_block, Nat.mod_eq_of_lt (lt_pow_blockSize n)]
  unfold digits
  split
  · rename_i hnil
    rw [hnil] at hvalue
    exact hvalue
  · exact hvalue

/-- A written integer is digits, behind a minus where it is negative. -/
theorem write_cases (n : Int) :
    (0 ≤ n ∧ write n = digits n.natAbs) ∨ (n < 0 ∧ write n = '-' :: digits n.natAbs) := by
  cases n with
  | ofNat n => exact Or.inl ⟨Int.natCast_nonneg n, rfl⟩
  | negSucc n => exact Or.inr ⟨Int.negSucc_lt_zero n, rfl⟩

/-- What is written denotes the integer that it was written for. -/
theorem denotes_write (n : Int) : Denotes (write n) n := by
  cases n with
  | ofNat n =>
    have h := Denotes.unsigned (isNumeral_digits n)
    rwa [← value_eq_positional, value_digits] at h
  | negSucc n =>
    have h := Denotes.minus (isNumeral_digits (n + 1))
    rwa [← value_eq_positional, value_digits] at h

end Abacus.Decimal
