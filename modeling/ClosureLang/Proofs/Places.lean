import Mathlib.Data.List.DropRight
import ClosureLang.Proofs.Lines

/-!
# Where places are

The place after some characters is known from these alone: their bytes give the offset, their line feeds the line, and
the characters since the last line feed the column. A reader that goes along a text knows this of its own place. So its
counters go no further than the text is long.
-/

namespace ClosureLang

open Lexer (size)

theorem Lexer.size_pos {cs : List Char} (h : cs ≠ []) : 0 < size cs := by
  match cs with
  | c :: cs =>
    rw [Lexer.size_cons]
    exact Nat.lt_of_lt_of_le c.utf8Size_pos (Nat.le_add_right _ _)

namespace Position

/-- The place after the first characters of a text. -/
def after (read : List Char) : Position :=
  ⟨size read, read.count '\n' + 1, (read.rtakeWhile (· != '\n')).length + 1⟩

theorem after_concat (read : List Char) (c : Char) : after (read ++ [c]) = (after read).next c := by
  unfold after next
  rw [Lexer.size_append, Lexer.size_singleton, List.count_append, List.count_singleton, List.rtakeWhile_concat]
  by_cases hc : c = '\n'
  · simp [hc]
  · simp [hc]

theorem advance_after (read cs : List Char) : (after read).advance cs = after (read ++ cs) := by
  induction cs generalizing read with
  | nil => rw [List.append_nil, advance, List.foldl_nil]
  | cons c cs ih =>
    calc (after read).advance (c :: cs) = ((after read).next c).advance cs := rfl
      _ = (after (read ++ [c])).advance cs := by rw [after_concat]
      _ = after (read ++ c :: cs) := by rw [ih, List.append_assoc, List.singleton_append]

end Position

/-- The span of a stretch of text after what has been read. -/
def Span.stretch (read text : List Char) : Span := .between (.after read) (.after (read ++ text))

namespace Lexer

/-- The reader stands in the text, right behind the characters `read`. -/
structure At (source read : List Char) (l : Lexer) : Prop where
  source_eq : source = read ++ l.rest
  position_eq : l.position = .after read

theorem at_ofString (source : String) : At source.toList [] (ofString source) := ⟨rfl, rfl⟩

theorem At.skip {source read : List Char} {l : Lexer} (h : At source read l) (n : Nat) :
    At source (read ++ l.rest.take n) (l.skip n) where
  source_eq := by rw [h.source_eq, Lexer.skip, List.append_assoc, List.take_append_drop]
  position_eq := by rw [Lexer.skip, h.position_eq, Position.advance_after]

end Lexer

/-! ## Counters -/

/-- A line and a column, counted from one and up to `n` at most. -/
structure Counters (n line column : Nat) : Prop where
  line_pos : 0 < line
  line_le : line ≤ n
  column_pos : 0 < column
  column_le : column ≤ n

theorem Counters.mono {n k line column : Nat} (h : Counters n line column) (hle : n ≤ k) : Counters k line column :=
  ⟨h.line_pos, h.line_le.trans hle, h.column_pos, h.column_le.trans hle⟩

theorem Position.counters_after (read : List Char) :
    Counters (read.length + 1) (after read).line (after read).column where
  line_pos := Nat.succ_pos _
  line_le := Nat.succ_le_succ List.count_le_length
  column_pos := Nat.succ_pos _
  column_le := Nat.succ_le_succ (List.rtakeWhile_suffix _ read).length_le

namespace Lexer

/-- The lines and columns of tokens, or of an error, are counted from one and up to `n` at most. -/
def CountsUpTo (n : Nat) : Except LexError (List Token) → Prop
  | .ok tokens => ∀ t ∈ tokens, Counters n t.span.line t.span.column
  | .error e => Counters n e.line e.column

theorem CountsUpTo.mono {n k : Nat} {result : Except LexError (List Token)} (h : CountsUpTo n result) (hle : n ≤ k) :
    CountsUpTo k result := by
  cases result with
  | ok tokens => exact fun t ht => (h t ht).mono hle
  | error e => exact Counters.mono h hle

variable {source read : List Char} {l : Lexer}

theorem At.counters (h : At source read l) : Counters (source.length + 1) l.position.line l.position.column := by
  rw [h.position_eq]
  refine (Position.counters_after read).mono (Nat.succ_le_succ ?_)
  rw [h.source_eq, List.length_append]
  exact Nat.le_add_right _ _

theorem At.ending_countsUpTo (h : At source read l) : CountsUpTo (source.length + 1) l.ending := by
  unfold ending
  split
  · exact List.forall_mem_singleton.2 h.counters
  · exact h.counters

theorem tokenize_countsUpTo (h : At source read l) : CountsUpTo (source.length + 1) l.tokenize.1 := by
  induction l using tokenize.induct generalizing read with
  | case1 l _ kind n hlexeme _ _ _ _ _ =>
    rename_i ih
    -- The token has the counters of the reader behind the gap, and the later ones those of a reader further on.
    have hstart := h.skip (Token.gapLength false l.rest)
    have hlater : CountsUpTo (source.length + 1) (l.skipGap.skip n).tokenize.1 := ih (hstart.skip n)
    rw [tokenize_of_lexeme hlexeme]
    cases hresult : (l.skipGap.skip n).tokenize.1 with
    | error e =>
      rw [hresult] at hlater
      exact hlater
    | ok tokens =>
      rw [hresult] at hlater
      exact List.forall_mem_cons.2 ⟨hstart.counters, hlater⟩
  | case2 l _ hlexeme | case3 l _ hlexeme =>
    rw [tokenize_end hlexeme]
    exact (h.skip _).ending_countsUpTo

end Lexer

namespace Token

theorem ofSource_countsUpTo (source : String) : Lexer.CountsUpTo (source.length + 1) (ofSource source) :=
  Lexer.tokenize_countsUpTo (Lexer.at_ofString source)

/-- In a text with fewer than `2 ^ 32 - 1` characters, lines and columns fit in 32 bits. -/
theorem ofSource_countsUpTo_of_length {source : String} (h : source.length < 2 ^ 32 - 1) :
    Lexer.CountsUpTo (2 ^ 32 - 1) (ofSource source) :=
  (ofSource_countsUpTo source).mono h

end Token

end ClosureLang
