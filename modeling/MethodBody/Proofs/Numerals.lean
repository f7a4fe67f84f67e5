import MethodBody.Text.Numeral
import Mathlib.Algebra.Ring.Nat

namespace MethodBody

theorem isDigit_of_mem_decimal {n : Nat} {c : Char} (h : c ∈ decimal n) : c.isDigit = true :=
  Nat.isDigit_of_mem_toDigits (by decide) (by decide) h

theorem readUnsigned_of_not_mem {base : Nat} {cs : List Char} (h : '+' ∉ cs) :
    readUnsigned base cs = readNumeral base cs := by
  unfold readUnsigned
  split
  next => simp at h
  next => rfl

theorem readUnsigned_decimal (n : Nat) : readUnsigned 10 (decimal n) = some n := by
  have hplus : '+' ∉ decimal n := fun h => absurd (isDigit_of_mem_decimal h) (by decide)
  rw [readUnsigned_of_not_mem hplus, readNumeral_decimal]

theorem readBelow_decimal {limit n : Nat} (h : n < limit) :
    readBelow limit 10 (decimal n) = some n := by
  simp [readBelow, readUnsigned_decimal, h]

theorem readSigned_signedDecimal (v : Int) : readSigned (signedDecimal v) = some v := by
  unfold signedDecimal
  split
  next hv =>
    rw [readSigned, readNumeral_decimal]
    exact congrArg some (by show -(v.natAbs : Int) = v; omega)
  next hv =>
    unfold readSigned
    split
    next cs he =>
      have hm : '-' ∈ decimal v.natAbs := by simp [he]
      exact absurd (isDigit_of_mem_decimal hm) (by decide)
    next =>
      rw [readUnsigned_decimal]
      exact congrArg some (by show (v.natAbs : Int) = v; omega)

theorem readWithin_signedDecimal {size : Nat} {v : Int} (hl : -(size : Int) ≤ 2 * v)
    (hu : 2 * v < size) : readWithin size (signedDecimal v) = some v := by
  simp [readWithin, readSigned_signedDecimal, hl, hu]

theorem bounds_of_readWithin {size : Nat} {v : Int} {cs : List Char}
    (h : readWithin size cs = some v) : -(size : Int) ≤ 2 * v ∧ 2 * v < size :=
  of_decide_eq_true (Option.filter_eq_some_iff.mp h).2

theorem readDigits_hexDigits (width n k : Nat) :
    readDigits 16 k (hexDigits width n) = some (16 ^ width * k + n % 16 ^ width) := by
  induction width generalizing n with
  | zero => simp [hexDigits, readDigits, Nat.mod_one]
  | succ width ih =>
    have hd : digit? 16 (Nat.digitChar (n % 16)) = some (n % 16) :=
      digit?_digitChar (by decide) (Nat.mod_lt n (by decide))
    rw [hexDigits, readDigits_append, ih, Option.bind_some, readDigits, hd]
    show some (16 * (16 ^ width * k + n / 16 % 16 ^ width) + n % 16) = _
    rw [Nat.pow_succ', Nat.mod_mul, Nat.mul_add, Nat.mul_assoc]
    congr 1
    omega

theorem digitChar_of_mem_hexDigits {width n : Nat} {c : Char} (h : c ∈ hexDigits width n) :
    ∃ d < 16, c = Nat.digitChar d := by
  induction width generalizing n with
  | zero => simp [hexDigits] at h
  | succ width ih =>
    rcases List.mem_append.mp h with h | h
    · exact ih h
    · exact ⟨n % 16, Nat.mod_lt n (by decide), by simpa using h⟩

theorem readUnsigned_hexDigits {width n : Nat} (hw : 0 < width) (hn : n < 16 ^ width) :
    readUnsigned 16 (hexDigits width n) = some n := by
  have hplus : '+' ∉ hexDigits width n := by
    intro h
    obtain ⟨d, hd, he⟩ := digitChar_of_mem_hexDigits h
    have hall : ∀ k : Fin 16, '+' ≠ Nat.digitChar k.val := by decide
    exact hall ⟨d, hd⟩ he
  rw [readUnsigned_of_not_mem hplus]
  have hread := readDigits_hexDigits width n 0
  rw [Nat.mul_zero, Nat.zero_add, Nat.mod_eq_of_lt hn] at hread
  cases hcs : hexDigits width n with
  | nil =>
    have := length_hexDigits width n
    simp only [hcs, List.length_nil] at this
    omega
  | cons c cs => rw [hcs] at hread; exact hread

theorem readBelow_hexDigits {limit width n : Nat} (hw : 0 < width) (hn : n < 16 ^ width)
    (hl : n < limit) : readBelow limit 16 (hexDigits width n) = some n := by
  simp [readBelow, readUnsigned_hexDigits hw hn, hl]

end MethodBody
