import ClosureLang.Number.Binary64

/-!
# Decimal numbers

A decimal is a natural number times a power of ten. It is read as the nearest double, and a double is written with
the fewest digits that read back as the same double.
-/

namespace ClosureLang

/-- The number `digits * 10 ^ exponent`. -/
structure Decimal where
  digits : Nat
  exponent : Int
deriving DecidableEq, Repr, Inhabited

namespace Decimal

/-! ## Reading -/

/-- The word of the nearest double. Decimals far above or below all doubles are answered without their power of ten. -/
def toWord (d : Decimal) : Nat :=
  if d.digits = 0 then 0
  else if 400 < d.exponent then Binary64.infinity
  else if d.exponent + d.digits.log2 < -400 then 0
  else Binary64.nearest ((d.digits * Nat.pow 10 d.exponent.toNat) <<< 1074) (Nat.pow 10 (-d.exponent).toNat)

/-- The nearest double of a decimal with a sign. -/
def toFloat (d : Decimal) (negative : Bool) : Float := Binary64.ofWord negative d.toWord

/-- The number that a run of digits writes. -/
def natOfDigits (cs : List Char) : Nat :=
  cs.foldl (fun n c => 10 * n + (c.toNat - '0'.toNat)) 0

/-- The part after the exponent mark: a sign and digits. -/
def exponentOfChars : List Char → Int
  | '-' :: cs => -(natOfDigits cs : Int)
  | '+' :: cs => natOfDigits cs
  | cs => natOfDigits cs

/-- The decimal that a number literal writes: digits, a fraction, an exponent. Underscores count for nothing. -/
def ofLiteral (text : List Char) : Decimal :=
  let cs := text.filter (· != '_')
  let whole := cs.takeWhile Char.isDigit
  let rest := cs.dropWhile Char.isDigit
  let (fraction, rest) :=
    match rest with
    | '.' :: rest => (rest.takeWhile Char.isDigit, rest.dropWhile Char.isDigit)
    | _ => ([], rest)
  let exponent :=
    match rest with
    | _ :: rest => exponentOfChars rest
    | [] => 0
  ⟨natOfDigits (whole ++ fraction), exponent - fraction.length⟩

/-! ## Writing -/

/-- Whether a decimal reads back as the double with this word. -/
def readsAs (word : Nat) (d : Decimal) : Bool := d.toWord == word

/-- The two decimals with this exponent around the double, the lower one first. The flag tells whether the upper one
is at least as near. -/
def neighbours (word : Nat) (exponent : Int) : Decimal × Decimal × Bool :=
  let n := Binary64.units word * Nat.pow 10 (-exponent).toNat
  let d := Nat.pow 10 exponent.toNat <<< 1074
  (⟨n / d, exponent⟩, ⟨n / d + 1, exponent⟩, d ≤ 2 * (n % d))

/-- The nearer of the two neighbours that read back, an exact tie going up. -/
def onGrid? (word : Nat) (exponent : Int) : Option Decimal :=
  let (lower, upper, up) := neighbours word exponent
  match readsAs word lower, readsAs word upper with
  | true, true => some (if up then upper else lower)
  | true, false => some lower
  | false, true => some upper
  | false, false => none

/-- All digits of the double. -/
def exact (word : Nat) : Decimal := ⟨Binary64.units word * Nat.pow 5 1074, -1074⟩

/-- Tries finer and finer grids, and writes all digits if none of them is fine enough. -/
def search (word : Nat) (exponent : Int) : Nat → Decimal
  | 0 => exact word
  | tries + 1 =>
    match onGrid? word exponent with
    | some d => d
    | none => search word (exponent - 1) tries

/-- The fewest digits that read back as a finite double, and of these the nearest to it. The first grid has at most
one digit of the double, and eighteen further ones reach all doubles. -/
def shortest (word : Nat) : Decimal :=
  if word = 0 then ⟨0, 0⟩
  else search word (((Binary64.units word).log2 - 1074 : Int) * 30103 / 100000 + 1) 20

end Decimal

end ClosureLang
