namespace MethodBody

/-- The value of a character as a digit of a base up to sixteen; letters count in either case. -/
def digit? (base : Nat) (c : Char) : Option Nat :=
  let value :=
    if '0' ≤ c ∧ c ≤ '9' then c.toNat - '0'.toNat
    else if 'a' ≤ c ∧ c ≤ 'f' then c.toNat - 'a'.toNat + 10
    else if 'A' ≤ c ∧ c ≤ 'F' then c.toNat - 'A'.toNat + 10
    else base
  if value < base then some value else none

theorem digit?_digitChar {base n : Nat} (hb : base ≤ 16) (h : n < base) :
    digit? base (Nat.digitChar n) = some n := by
  have all : ∀ b : Fin 17, ∀ k : Fin 16, k.val < b.val →
      digit? b.val (Nat.digitChar k.val) = some k.val := by decide
  exact all ⟨base, by omega⟩ ⟨n, by omega⟩ h

/-- Appends the digits to the numeral read so far. -/
def readDigits (base : Nat) : Nat → List Char → Option Nat
  | n, [] => some n
  | n, c :: cs =>
    match digit? base c with
    | some d => readDigits base (base * n + d) cs
    | none => none

theorem readDigits_append (base n : Nat) (cs ds : List Char) :
    readDigits base n (cs ++ ds) = (readDigits base n cs).bind (readDigits base · ds) := by
  induction cs generalizing n with
  | nil => rfl
  | cons c cs ih =>
    simp only [List.cons_append, readDigits]
    split
    next => exact ih _
    next => rfl

/-- A numeral has at least one digit and may have any number of leading zeros. -/
def readNumeral (base : Nat) : List Char → Option Nat
  | [] => none
  | cs => readDigits base 0 cs

def readUnsigned (base : Nat) : List Char → Option Nat
  | '+' :: cs => readNumeral base cs
  | cs => readNumeral base cs

def readSigned : List Char → Option Int
  | '-' :: cs => (readNumeral 10 cs).map fun n => -(n : Int)
  | cs => (readUnsigned 10 cs).map Int.ofNat

def readBelow (limit base : Nat) (cs : List Char) : Option Nat :=
  (readUnsigned base cs).filter (· < limit)

/-- A signed numeral in the range of a two's complement that has so many values. -/
def readWithin (size : Nat) (cs : List Char) : Option Int :=
  (readSigned cs).filter fun v => -(size : Int) ≤ 2 * v ∧ 2 * v < size

def decimal (n : Nat) : List Char :=
  Nat.toDigits 10 n

theorem readNumeral_decimal (n : Nat) : readNumeral 10 (decimal n) = some n := by
  have read : readDigits 10 0 (decimal n) = some n := by
    induction n using Nat.strongRecOn with
    | ind n ih =>
      by_cases h : n < 10
      · simp [decimal, Nat.toDigits_of_lt_base h, readDigits, digit?_digitChar (by decide) h]
      · have hd : n / 10 < n := Nat.div_lt_self (by omega) (by decide)
        have hm : n % 10 < 10 := Nat.mod_lt _ (by decide)
        have he := Nat.toDigits_append_toDigits (b := 10) (by decide) (by omega : 0 < n / 10) hm
        rw [Nat.div_add_mod] at he
        rw [decimal, ← he, readDigits_append]
        change (readDigits 10 0 (decimal (n / 10))).bind _ = _
        rw [ih _ hd, Nat.toDigits_of_lt_base hm]
        simp [readDigits, digit?_digitChar (by decide : 10 ≤ 16) hm, Nat.div_add_mod]
  cases h : decimal n with
  | nil => exact absurd h Nat.toDigits_ne_nil
  | cons c cs => rw [← h]; simpa [readNumeral, h] using read

def signedDecimal (v : Int) : List Char :=
  if v < 0 then '-' :: decimal v.natAbs else decimal v.natAbs

/-- The last digits of a number in base sixteen, exactly as many as asked for. -/
def hexDigits : Nat → Nat → List Char
  | 0, _ => []
  | width + 1, n => hexDigits width (n / 16) ++ [Nat.digitChar (n % 16)]

@[simp] theorem length_hexDigits (width n : Nat) : (hexDigits width n).length = width := by
  induction width generalizing n with
  | zero => rfl
  | succ width ih => simp [hexDigits, ih]

end MethodBody
