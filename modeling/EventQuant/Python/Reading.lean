import Mathlib

/-!
What Python reads in a text: an integer, and a decimal, the values that are not
finite among them. Digits may be of any script. A decimal is read exactly or
not at all, so its exponent has to lie within the decimal module's own bounds.
-/
namespace EventQuant.Python

/-- `str.isspace` of a character. -/
def isSpace (c : Char) : Bool :=
  let n := c.toNat
  (9 ≤ n && n ≤ 13) || (28 ≤ n && n ≤ 32) || n = 0x85 || n = 0xa0 || n = 0x1680 ||
    (0x2000 ≤ n && n ≤ 0x200a) || n = 0x2028 || n = 0x2029 || n = 0x202f || n = 0x205f ||
    n = 0x3000

/-- The zeros of the scripts; the nine digits follow each. -/
def zeros : List ℕ :=
  [0x30, 0x660, 0x6f0, 0x7c0, 0x966, 0x9e6, 0xa66, 0xae6, 0xb66, 0xbe6, 0xc66, 0xce6, 0xd66, 0xde6,
    0xe50, 0xed0, 0xf20, 0x1040, 0x1090, 0x17e0, 0x1810, 0x1946, 0x19d0, 0x1a80, 0x1a90, 0x1b50,
    0x1bb0, 0x1c40, 0x1c50, 0xa620, 0xa8d0, 0xa900, 0xa9d0, 0xa9f0, 0xaa50, 0xabf0, 0xff10, 0x104a0,
    0x10d30, 0x11066, 0x110f0, 0x11136, 0x111d0, 0x112f0, 0x11450, 0x114d0, 0x11650, 0x116c0,
    0x11730, 0x118e0, 0x11950, 0x11c50, 0x11d50, 0x11da0, 0x16a60, 0x16ac0, 0x16b50, 0x1d7ce,
    0x1d7d8, 0x1d7e2, 0x1d7ec, 0x1d7f6, 0x1e140, 0x1e2f0, 0x1e950, 0x1fbf0]

/-- `Py_UNICODE_TODECIMAL`, as an ASCII digit. -/
def toDigit (c : Char) : Option Char :=
  (zeros.find? fun first => first ≤ c.toNat ∧ c.toNat ≤ first + 9).map fun first =>
    Char.ofNat (0x30 + (c.toNat - first))

/-- `str.isdecimal`. -/
def isDecimal (text : List Char) : Bool := text ≠ [] ∧ text.all fun c => (toDigit c).isSome

/-- The characters `str.isdigit` takes and `int` does not: superscripts and
their like. -/
def otherDigits : List (ℕ × ℕ) :=
  [(0xb2, 0xb3), (0xb9, 0xb9), (0x1369, 0x1371), (0x19da, 0x19da), (0x2070, 0x2070),
    (0x2074, 0x2079), (0x2080, 0x2089), (0x2460, 0x2468), (0x2474, 0x247c), (0x2488, 0x2490),
    (0x24ea, 0x24ea), (0x24f5, 0x24fd), (0x24ff, 0x24ff), (0x2776, 0x277e), (0x2780, 0x2788),
    (0x278a, 0x2792), (0x10a40, 0x10a43), (0x10e60, 0x10e68), (0x11052, 0x1105a),
    (0x1f100, 0x1f10a)]

/-- `str.isdigit`. -/
def isDigits (text : List Char) : Bool :=
  text ≠ [] ∧ text.all fun c =>
    (toDigit c).isSome || otherDigits.any fun range => range.1 ≤ c.toNat ∧ c.toNat ≤ range.2

def stripBy (drop : Char → Bool) (text : List Char) : List Char :=
  ((text.dropWhile drop).reverse.dropWhile drop).reverse

def digitsValue (digits : List Char) : ℕ :=
  digits.foldl (fun n d => 10 * n + (d.toNat - '0'.toNat)) 0

def takeSign : List Char → Bool × List Char
  | '-' :: rest => (true, rest)
  | '+' :: rest => (false, rest)
  | rest => (false, rest)

/-- The digits `int` reads at most. -/
def maxStrDigits : ℕ := 4300

/-- `_PyUnicode_TransformDecimalAndSpaceToASCII` of a character. -/
def intChar (c : Char) : Char :=
  if c.toNat < 127 then c else if isSpace c then ' ' else (toDigit c).getD '?'

/-- `Py_ISSPACE`. -/
def isAsciiSpace (c : Char) : Bool := c = ' ' || (9 ≤ c.toNat && c.toNat ≤ 13)

/-- `int` of a text: a sign and runs of digits with single underscores between;
`none` where it raises. -/
def int (s : String) : Option ℤ :=
  let (negative, unsigned) := takeSign (stripBy isAsciiSpace (s.toList.map intChar))
  let digits := unsigned.filter (· ≠ '_')
  if (unsigned.splitOn '_').all (fun run => run ≠ [] ∧ run.all Char.isDigit) ∧
      digits.length ≤ maxStrDigits then
    some (if negative then -digitsValue digits else digitsValue digits)
  else none

/-- A `Decimal`. -/
inductive DecimalValue
  | finite (q : ℚ)
  | infinite (negative : Bool)
  | nan (signaling : Bool)
  deriving DecidableEq, Repr

namespace DecimalValue

/-- `a + b`; `none` where it raises. -/
def add : DecimalValue → DecimalValue → Option DecimalValue
  | .nan true, _ => none
  | _, .nan true => none
  | .nan false, _ => some (.nan false)
  | _, .nan false => some (.nan false)
  | .finite a, .finite b => some (.finite (a + b))
  | .infinite a, .infinite b => if a = b then some (.infinite a) else none
  | .infinite a, .finite _ => some (.infinite a)
  | .finite _, .infinite b => some (.infinite b)

/-- `a == b`; `none` where it raises. What is not a number equals nothing. -/
def same : DecimalValue → DecimalValue → Option Bool
  | .nan true, _ => none
  | _, .nan true => none
  | .nan false, _ => some false
  | _, .nan false => some false
  | a, b => some (a = b)

end DecimalValue

/-- What `Decimal` says of a text it cannot read. -/
def conversionSyntax : String := "[<class 'decimal.ConversionSyntax'>]"

/-- What `Decimal` says of a number out of its range. -/
def invalidOperation : String := "[<class 'decimal.InvalidOperation'>]"

/-- `numeric_as_ascii` of a character. -/
def numericChar (c : Char) : Option Char :=
  if c.toNat ≤ 127 then some c else if isSpace c then some ' ' else toDigit c

/-- `numeric_as_ascii`: nothing is left of a text with a character that can be
no part of a number. -/
def numericAscii (s : String) : List Char :=
  (((stripBy isSpace s.toList).filter (· ≠ '_')).mapM numericChar).getD []

def exponent : List Char → Option ℤ
  | [] => some 0
  | e :: rest =>
    if e = 'e' ∨ e = 'E' then
      let (negative, digits) := takeSign rest
      if digits = [] ∨ ¬ digits.all Char.isDigit then none
      else some (if negative then -digitsValue digits else digitsValue digits)
    else none

def specialDecimal (negative : Bool) (unsigned : List Char) : Option DecimalValue :=
  let name := unsigned.map Char.toLower
  if name = "inf".toList ∨ name = "infinity".toList then some (.infinite negative)
  else
    let signaling := name.head? = some 's'
    let quiet := if signaling then name.tail else name
    if "nan".toList.isPrefixOf quiet ∧ (quiet.drop 3).all Char.isDigit then some (.nan signaling)
    else none

def scale (power : ℤ) (n : ℕ) : ℚ :=
  if 0 ≤ power then (n * 10 ^ power.toNat : ℕ) else (n : ℚ) / (10 ^ (-power).toNat : ℕ)

/-- `MAX_EMAX`, and as many digits. -/
def maxEmax : ℤ := 999999999999999999

/-- `MIN_ETINY`. -/
def minEtiny : ℤ := -1999999999999999997

/-- A coefficient and its last digit's power of ten are within the bounds, so
that nothing is rounded. -/
def InRange (digits : List Char) (last : ℤ) : Prop :=
  let significant := (digits.dropWhile (· = '0')).length
  (significant : ℤ) ≤ maxEmax ∧ minEtiny ≤ last ∧ last + (significant - 1 : ℕ) ≤ maxEmax

instance (digits : List Char) (last : ℤ) : Decidable (InRange digits last) := by
  unfold InRange
  infer_instance

/-- `Decimal` of a text. -/
@[irreducible] def readDecimal (s : String) : Except String DecimalValue :=
  let (negative, unsigned) := takeSign (numericAscii s)
  let (whole, rest) := unsigned.span Char.isDigit
  let (fraction, rest) := match rest with
    | '.' :: rest => rest.span Char.isDigit
    | rest => ([], rest)
  let digits := whole ++ fraction
  if digits = [] then
    match specialDecimal negative unsigned with
    | some special => .ok special
    | none => .error conversionSyntax
  else match exponent rest with
    | none => .error conversionSyntax
    | some power =>
      let last := power - fraction.length
      if InRange digits last then
        let scaled := scale last (digitsValue digits)
        .ok (.finite (if negative then -scaled else scaled))
      else .error invalidOperation

/-- `Decimal` of a text; `none` where it raises. -/
def decimalValue (s : String) : Option DecimalValue :=
  match readDecimal s with
  | .ok value => some value
  | .error _ => none

/-- `Decimal` of a text that stands for a number. -/
def decimal (s : String) : Option ℚ :=
  match readDecimal s with
  | .ok (.finite q) => some q
  | _ => none

theorem readDecimal_of_decimal {s : String} {q : ℚ} (h : decimal s = some q) :
    readDecimal s = .ok (.finite q) := by
  unfold decimal at h
  split at h
  · rename_i hread
    rw [hread, Option.some.inj h]
  · cases h

end EventQuant.Python
