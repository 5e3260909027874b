/-!
# Double precision numbers as words

The magnitude of a double is a word of 63 bits. A finite word stands for a natural number of units of `2 ^ -1074`,
and larger words stand for more units. Rounding goes from a ratio of units to the nearest word, a half to the even one.
-/

namespace ClosureLang.Binary64

/-- The word of infinity, above the words of all finite magnitudes. -/
def infinity : Nat := 2047 <<< 52

/-- How far the significand of a word is shifted. -/
def scale (word : Nat) : Nat := (word >>> 52) - 1

/-- The digits of a word, with the leading bit of a normal number. -/
def significand (word : Nat) : Nat := word - (scale word <<< 52)

/-- The magnitude of a finite word in units of `2 ^ -1074`. -/
def units (word : Nat) : Nat := significand word <<< scale word

/-- The quotient `n / d` to the nearest natural number, a half to the even one. -/
def roundHalfEven (n d : Nat) : Nat :=
  let q := n / d
  let r := n % d
  if d < 2 * r || (2 * r == d && q % 2 == 1) then q + 1 else q

/-- The word nearest to `n / d` units. -/
def nearest (n d : Nat) : Nat :=
  let s := (n / d).log2 - 52
  min infinity ((s <<< 52) + roundHalfEven n (d <<< s))

/-! ## Words of a `Float` -/

/-- The word whose only bit is the sign. -/
def signWord : Nat := 1 <<< 63

/-- The magnitude of a number as a word. -/
def word (x : Float) : Nat := x.toBits.toNat % signWord

/-- The sign bit, which zeros and infinities have too. -/
def negative (x : Float) : Bool := signWord ≤ x.toBits.toNat

/-- The number with the given sign and magnitude. -/
def ofWord (negative : Bool) (word : Nat) : Float :=
  Float.ofBits (UInt64.ofNat (word + if negative then signWord else 0))

/-- The remainder of truncated division. It is exact and has the sign of the dividend. -/
def remainder (x y : Float) : Float :=
  if infinity ≤ word x || infinity < word y || word y == 0 then Float.ofBits 0x7ff8000000000000
  else if word y == infinity then x
  else ofWord (negative x) (nearest (units (word x) % units (word y)) 1)

/-- Equality of numbers: zeros are equal whatever their sign, and a NaN equals every NaN. -/
def same (x y : Float) : Bool := x == y || (x.isNaN && y.isNaN)

end ClosureLang.Binary64
