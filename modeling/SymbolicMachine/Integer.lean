/-!
Integers of any size, as literals hold them: their two's-complement bits, powers reduced by a
modulus, the digits of natural numbers and written numerals.
-/

namespace SymbolicMachine.Integer

/-! ## Bits

A nonnegative integer has finitely many ones; `-(m + 1)` has the complement of the bits of `m`, so
infinitely many. The bitwise operations are given on the natural numbers behind each sign, and
`bit_and`, `bit_or` and `bit_xor` say that they act bit by bit. -/

/-- Bit `i` of `x`, counted from the least significant end. -/
def bit : Int → Nat → Bool
  | .ofNat m, i => m.testBit i
  | .negSucc m, i => !m.testBit i

/-- The ones of `m` at the places where `n` has a zero. -/
def without (m n : Nat) : Nat := m ^^^ (m &&& n)

def and : Int → Int → Int
  | .ofNat m, .ofNat n => .ofNat (m &&& n)
  | .ofNat m, .negSucc n => .ofNat (without m n)
  | .negSucc m, .ofNat n => .ofNat (without n m)
  | .negSucc m, .negSucc n => .negSucc (m ||| n)

def or : Int → Int → Int
  | .ofNat m, .ofNat n => .ofNat (m ||| n)
  | .ofNat m, .negSucc n => .negSucc (without n m)
  | .negSucc m, .ofNat n => .negSucc (without m n)
  | .negSucc m, .negSucc n => .negSucc (m &&& n)

def xor : Int → Int → Int
  | .ofNat m, .ofNat n => .ofNat (m ^^^ n)
  | .ofNat m, .negSucc n => .negSucc (m ^^^ n)
  | .negSucc m, .ofNat n => .negSucc (m ^^^ n)
  | .negSucc m, .negSucc n => .ofNat (m ^^^ n)

/-- The number of ones of `n`. -/
def bitCount (n : Nat) : Nat :=
  (List.range (n.log2 + 1)).countP n.testBit

@[simp] theorem testBit_without (m n i : Nat) :
    (without m n).testBit i = (m.testBit i && !n.testBit i) := by
  cases h : m.testBit i <;> simp [without, h]

@[simp] theorem bit_and (x y : Int) (i : Nat) : bit (and x y) i = (bit x i && bit y i) := by
  cases x <;> cases y <;> simp [and, bit, Bool.and_comm]

@[simp] theorem bit_or (x y : Int) (i : Nat) : bit (or x y) i = (bit x i || bit y i) := by
  cases x <;> cases y <;> simp [or, bit, Bool.or_comm]

@[simp] theorem bit_xor (x y : Int) (i : Nat) : bit (xor x y) i = (bit x i ^^ bit y i) := by
  cases x <;> cases y <;> simp [xor, bit]

/-! ## Powers

The exponent may have hundreds of bits. Squaring keeps intermediate products below the square of the
modulus. -/

/-- `x ^ n` reduced to `[0, m)`, for a positive modulus `m`. -/
def powMod (x : Int) (n : Nat) (m : Int) : Int :=
  if n = 0 then 1 % m
  else
    let half := powMod (x * x % m) (n / 2) m
    if n % 2 = 0 then half else x * half % m
termination_by n

/-! ## Digits

Digits in bases that are powers of two, least significant first, and the number that a list of
digits stands for. -/

/-- How many digits of `bits` bits `n` needs; zero needs none. -/
def digitCount (bits n : Nat) : Nat :=
  if n = 0 then 0 else n.log2 / bits + 1

/-- The `count` lowest digits of `n`, each of `bits` bits. -/
def digits (bits count n : Nat) : List Nat :=
  (List.range count).map fun i => (n >>> (bits * i)) % (1 <<< bits)

/-- The number with the given digits, each weighted by a power of `2 ^ bits`. -/
def ofDigits (bits : Nat) : List Nat → Nat
  | [] => 0
  | d :: ds => d + ofDigits bits ds <<< bits

@[simp] theorem length_digits (bits count n : Nat) : (digits bits count n).length = count := by
  simp [digits]

/-- One digit more is the lowest digit in front of the digits of the rest. -/
theorem digits_succ (bits count n : Nat) :
    digits bits (count + 1) n = n % (1 <<< bits) :: digits bits count (n >>> bits) := by
  simp [digits, List.range_succ_eq_map, Function.comp_def, Nat.mul_add, Nat.shiftRight_add,
    Nat.add_comm]

/-- A number is known from its lowest digits up to a multiple of the first weight left out. -/
theorem ofDigits_digits (bits count n : Nat) :
    ofDigits bits (digits bits count n) = n % (1 <<< (bits * count)) := by
  induction count generalizing n with
  | zero => simp [digits, ofDigits, Nat.mod_one]
  | succ count ih =>
    rw [digits_succ, ofDigits, ih]
    simp only [Nat.shiftLeft_eq, Nat.one_mul, Nat.shiftRight_eq_div_pow]
    rw [Nat.mul_add, Nat.mul_one, Nat.add_comm (bits * count), Nat.pow_add,
      Nat.mod_mul, Nat.mul_comm (2 ^ bits) (_ % _)]

/-! ## Numerals

An optional minus sign and the digits of the magnitude, without leading zeros. -/

/-- The minus sign of a negative integer. -/
def sign (x : Int) : List Char := if x < 0 then ['-'] else []

/-- The numeral of an integer in a base of at most sixteen, with lowercase letters. -/
def numeral (base : Nat) (x : Int) : List Char := sign x ++ base.toDigits x.natAbs

/-- The decimal numeral. -/
def decimal (x : Int) : String := .ofList (numeral 10 x)

/-- The hexadecimal numeral with zeros between sign and digits, `width` characters or more. -/
def paddedHex (width : Nat) (x : Int) : String :=
  let digits := Nat.toDigits 16 x.natAbs
  .ofList (sign x ++ digits.leftpad (width - (sign x).length) '0')

end SymbolicMachine.Integer
