/-!
# Words

Indices are given and written as words of 64 bits. An index below zero stands for the word with the same bits.
-/

namespace ClosureLang.Word

/-- The number of words. -/
def count : Nat := 1 <<< 64

/-- The index that a word stands for. The upper half of the words stands for indices below zero. -/
def toIndex (word : Int) : Int := word.bmod count

def ofIndex (index : Int) : Int := if index < 0 then index + count else index

def text (index : Int) : String := toString (ofIndex index)

end ClosureLang.Word
