import ClosureLang.Text.Cluster.Basic

/-!
# Backspaces

A backspace takes back the cluster typed before it.
-/

namespace ClosureLang.Text

/-- A text while it is typed: its characters, the last one first, and the sizes of its clusters, the last one first. -/
structure Draft where
  chars : List Char
  sizes : List Nat
deriving DecidableEq, Repr

namespace Draft

def empty : Draft := ⟨[], []⟩

/-- The size of a cluster in bytes. It is kept in one byte, so 256 of them count as none. -/
def sizeOf (cluster : List Char) : Nat := (String.ofList cluster).utf8ByteSize % 256

/-- Takes back characters that have so many bytes together. -/
def takeBack : Nat → List Char → List Char
  | _, [] => []
  | n, c :: cs => if c.utf8Size ≤ n then takeBack (n - c.utf8Size) cs else c :: cs

def backspace (d : Draft) : Draft :=
  match d.sizes with
  | [] => d
  | n :: sizes => ⟨takeBack n d.chars, sizes⟩

def type (d : Draft) (cluster : List Char) : Draft :=
  if cluster = ['\x08'] then d.backspace else ⟨cluster.reverse ++ d.chars, sizeOf cluster :: d.sizes⟩

end Draft

/-- A text after its backspaces have been carried out. -/
def carryOutBackspaces (cs : List Char) : List Char := ((clusters cs).foldl Draft.type .empty).chars.reverse

end ClosureLang.Text
