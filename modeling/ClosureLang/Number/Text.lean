import ClosureLang.Number.Decimal

/-!
# Number text

How a double is written: its shortest digits, laid out as a style says.
-/

namespace ClosureLang.Number

/-- The decisions of a number format. -/
structure Style where
  /-- Whether a number whose first digit counts `10 ^ e` is written without an exponent. -/
  positional : Int → Bool
  /-- Whether a whole number written without an exponent keeps a point and a zero. -/
  keepPoint : Bool

/-- Numbers of the language are written without an exponent, whole numbers without a point. -/
def plain : Style := ⟨fun _ => true, false⟩

/-- Inspected numbers have a point or an exponent, the latter from `1e16` on and below `1e-4`. -/
def inspected : Style := ⟨fun e => -5 < e && e < 16, true⟩

/-- Digits with the point that many places from the right, where a negative count means zeros before the point. -/
def positionalText (style : Style) (digits : String) (exponent : Int) : String :=
  let zeros (n : Nat) := String.ofList (List.replicate n '0')
  if 0 ≤ exponent then
    digits ++ zeros exponent.toNat ++ (if style.keepPoint then ".0" else "")
  else
    let places := (-exponent).toNat
    if places < digits.length then
      let cs := digits.toList
      String.ofList (cs.take (cs.length - places)) ++ "." ++ String.ofList (cs.drop (cs.length - places))
    else "0." ++ zeros (places - digits.length) ++ digits

/-- One digit, a point and the others if there are more, then the exponent. -/
def scientificText (digits : String) (lead : Int) : String :=
  match digits.toList with
  | c :: [] => String.singleton c ++ "e" ++ toString lead
  | c :: cs => String.singleton c ++ "." ++ String.ofList cs ++ "e" ++ toString lead
  | [] => ""

/-- A decimal without its sign. -/
def decimalText (style : Style) (d : Decimal) : String :=
  let digits := toString d.digits
  let lead := d.exponent + digits.length - 1
  if d.digits = 0 || style.positional lead then positionalText style digits d.exponent
  else scientificText digits lead

/-- A number in a style. Zeros and infinities show their sign, a NaN has none. -/
def render (style : Style) (x : Float) : String :=
  let word := Binary64.word x
  if Binary64.infinity < word then "NaN"
  else
    let sign := if Binary64.negative x then "-" else ""
    if word = Binary64.infinity then sign ++ "inf"
    else sign ++ decimalText style (Decimal.shortest word)

/-- The text of a number of the language. -/
def text (x : Float) : String := render plain x

end ClosureLang.Number
