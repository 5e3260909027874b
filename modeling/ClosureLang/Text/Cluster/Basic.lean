import ClosureLang.Text.Cluster.Kind

/-!
# Clusters

What a reader sees as one character can be several: a letter with its marks, a syllable, a flag, pictures that are
joined to one. Such a cluster ends where the next character does not join it.
-/

namespace ClosureLang.Text

namespace Cluster

/-! ## Joining -/

/-- What the end of a text lets a later character join: half a flag, a picture with its marks, such a picture with a
joiner after it, a consonant with its marks, or a consonant that a linker follows. -/
inductive Tail where
  | plain
  | flag
  | picture
  | joined
  | consonant
  | linked
deriving DecidableEq, Repr, Inhabited

/-- The tail after one more character. -/
def Tail.after : Tail → Kind → Tail
  | flag, .regional => plain
  | _, .regional => flag
  | _, .picture => picture
  | picture, .extending | picture, .linker | picture, .nonJoiner => picture
  | picture, .joiner => joined
  | _, .consonant => consonant
  | consonant, .extending | consonant, .joiner => consonant
  | consonant, .linker => linked
  | linked, .extending | linked, .joiner | linked, .linker => linked
  | _, _ => plain

def Kind.isControl : Kind → Bool
  | carriageReturn | lineFeed | control => true
  | _ => false

/-- Whether a kind is always a part of the character before it. -/
def Kind.isMark : Kind → Bool
  | extending | linker | joiner | nonJoiner | spacing => true
  | _ => false

/-- Whether two Hangul letters or syllables belong to one syllable. -/
def Kind.sharesSyllable : Kind → Kind → Bool
  | leading, leading | leading, vowel | leading, openSyllable | leading, closedSyllable => true
  | openSyllable, vowel | openSyllable, trailing | vowel, vowel | vowel, trailing => true
  | closedSyllable, trailing | trailing, trailing => true
  | _, _ => false

/-- Whether a character joins the one before it. A line end of two characters is one cluster, and other controls stand
alone. -/
def joins (tail : Tail) (last next : Kind) : Bool :=
  if last.isControl || next.isControl then last == .carriageReturn && next == .lineFeed
  else next.isMark || last == .prepended || last.sharesSyllable next ||
    match next with
    | .regional => tail == .flag
    | .picture => tail == .joined
    | .consonant => tail == .linked
    | _ => false

/-! ## Splitting -/

/-- The clusters of a text that goes on with a cluster, which is held in reverse. -/
def splitFrom (tail : Tail) (last : Kind) (cluster : List Char) : List Char → List (List Char)
  | [] => [cluster.reverse]
  | c :: cs =>
    let next := Kind.ofChar c
    if joins tail last next then splitFrom (tail.after next) next (c :: cluster) cs
    else cluster.reverse :: splitFrom (tail.after next) next [c] cs

end Cluster

/-- The clusters of a text, in order. -/
def clusters : List Char → List (List Char)
  | [] => []
  | c :: cs =>
    let kind := Cluster.Kind.ofChar c
    Cluster.splitFrom (Cluster.Tail.plain.after kind) kind [c] cs

end ClosureLang.Text
