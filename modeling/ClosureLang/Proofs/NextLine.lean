import ClosureLang.Proofs.Places

/-!
# A text and the next line

No token goes on over a line feed and no comment does, so a text with another line after it has the tokens of both. The
tokens of the line stand further on by the bytes and lines of the text, in the columns where they were, and so does a
character of the line that starts no token.
-/

namespace ClosureLang

open Lexer (size)

/-! ## Places further on -/

/-- The place that many bytes and lines further on, in the same column. -/
def Position.shift (p : Position) (bytes lines : Nat) : Position := ⟨p.offset + bytes, p.line + lines, p.column⟩

def Span.shift (s : Span) (bytes lines : Nat) : Span := ⟨s.start + bytes, s.stop + bytes, s.line + lines, s.column⟩

def Token.shift (t : Token) (bytes lines : Nat) : Token := ⟨t.kind, t.span.shift bytes lines⟩

def LexError.shift (e : LexError) (lines : Nat) : LexError := ⟨e.character, e.line + lines, e.column⟩

theorem Position.next_shift (p : Position) (c : Char) (bytes lines : Nat) :
    (p.shift bytes lines).next c = (p.next c).shift bytes lines := by
  unfold next shift
  split
  · rw [mk.injEq]
    exact ⟨Nat.add_right_comm .., Nat.add_right_comm .., rfl⟩
  · rw [mk.injEq]
    exact ⟨Nat.add_right_comm .., rfl, rfl⟩

theorem Position.advance_shift (p : Position) (cs : List Char) (bytes lines : Nat) :
    (p.shift bytes lines).advance cs = (p.advance cs).shift bytes lines := by
  induction cs generalizing p with
  | nil => rfl
  | cons c cs ih =>
    calc (p.shift bytes lines).advance (c :: cs) = ((p.next c).shift bytes lines).advance cs := by
          rw [← next_shift]
          rfl
      _ = (p.advance (c :: cs)).shift bytes lines := ih (p.next c)

/-- A line feed leads to the start of a line. -/
theorem Position.after_newline (read : List Char) :
    after (read ++ ['\n']) = start.shift (size read + 1) (read.count '\n' + 1) := by
  have hsize : size (read ++ ['\n']) = 0 + (size read + 1) := by
    rw [Lexer.size_append, Lexer.size_singleton, Nat.zero_add]
    rfl
  have hlines : (read ++ ['\n']).count '\n' + 1 = 1 + (read.count '\n' + 1) := by
    rw [List.count_append, List.count_singleton_self, Nat.add_comm]
  have hcolumn : (read ++ ['\n']).rtakeWhile (· != '\n') = [] := by
    rw [List.rtakeWhile_concat]
    rfl
  rw [after, hsize, hlines, hcolumn]
  rfl

namespace Lexer

variable {l : Lexer}

/-! ## Readers further on -/

/-- The same text, starting further on. -/
def shift (l : Lexer) (bytes lines : Nat) : Lexer := ⟨l.rest, l.position.shift bytes lines⟩

theorem skip_shift (n bytes lines : Nat) : (l.shift bytes lines).skip n = (l.skip n).shift bytes lines := by
  unfold skip shift
  rw [Position.advance_shift]

theorem skipGap_shift (bytes lines : Nat) : (l.shift bytes lines).skipGap = l.skipGap.shift bytes lines :=
  skip_shift ..

/-- What is found in a text that starts further on. -/
def shiftResult (bytes lines : Nat) : Except LexError (List Token) → Except LexError (List Token)
  | .ok tokens => .ok (tokens.map (·.shift bytes lines))
  | .error e => .error (e.shift lines)

theorem shiftResult_map_cons (bytes lines : Nat) (t : Token) (result : Except LexError (List Token)) :
    shiftResult bytes lines (result.map (t :: ·)) =
      (shiftResult bytes lines result).map (t.shift bytes lines :: ·) := by
  cases result <;> rfl

theorem tokenize_shift (l : Lexer) (bytes lines : Nat) :
    (l.shift bytes lines).tokenize.1 = shiftResult bytes lines l.tokenize.1 := by
  induction l using tokenize.induct with
  | case1 l _ kind n hlexeme _ _ _ _ _ =>
    rename_i ih
    have hlexeme' : Token.lexeme? (l.shift bytes lines).skipGap.rest = some (kind, n) := by rwa [skipGap_shift]
    rw [tokenize_of_lexeme hlexeme, tokenize_of_lexeme hlexeme', shiftResult_map_cons, ← ih, skipGap_shift, skip_shift]
    rfl
  | case2 l _ hlexeme =>
    rename_i hrest
    have hrest' : (l.shift bytes lines).skipGap.rest = [] := by rwa [skipGap_shift]
    rw [tokenize_of_stop hrest, tokenize_of_stop hrest', skipGap_shift]
    rfl
  | case3 l _ hlexeme c cs =>
    rename_i hrest
    have hrest' : (l.shift bytes lines).skipGap.rest = c :: cs := by rwa [skipGap_shift]
    have hlexeme' : Token.lexeme? (l.shift bytes lines).skipGap.rest = none := by rwa [skipGap_shift]
    rw [tokenize_of_none hrest hlexeme, tokenize_of_none hrest' hlexeme', skipGap_shift]
    rfl

/-! ## Both texts -/

theorem addLine_lexeme {kind : Token.Kind} {n : Nat} {r : List Char}
    (h : Token.lexeme? l.skipGap.rest = some (kind, n)) :
    Token.lexeme? (l.addLine r).skipGap.rest = some (kind, n) ∧
      (l.addLine r).skipGap.position = l.skipGap.position ∧
      (l.addLine r).skipGap.skip n = (l.skipGap.skip n).addLine r := by
  have hne : l.skipGap.rest ≠ [] := List.length_pos_iff.1 (Token.lexeme?_length h).2
  rw [skipGap_addLine_of_word hne]
  exact ⟨(Token.lexeme?_newline _ _).trans h, rfl, skip_addLine (Token.lexeme?_le h)⟩

/-- A character that starts no token stays where it is. -/
theorem tokenize_addLine_of_error {e : LexError} (h : l.tokenize.1 = .error e) (r : List Char) :
    (l.addLine r).tokenize.1 = .error e := by
  induction l using tokenize.induct with
  | case1 l _ kind n hlexeme _ _ _ _ _ =>
    rename_i ih
    obtain ⟨hlexeme', -, hskip⟩ := addLine_lexeme (r := r) hlexeme
    rw [tokenize_of_lexeme hlexeme] at h
    cases hrest : (l.skipGap.skip n).tokenize.1 with
    | ok rest =>
      rw [hrest] at h
      cases h
    | error e' =>
      rw [hrest] at h
      cases h
      rw [tokenize_of_lexeme hlexeme', hskip, ih hrest]
      rfl
  | case2 l _ hlexeme =>
    rename_i hrest
    rw [tokenize_of_stop hrest] at h
    cases h
  | case3 l _ hlexeme c cs =>
    rename_i hrest
    have hne : l.skipGap.rest ≠ [] := by
      rw [hrest]
      exact List.cons_ne_nil c cs
    have heq : (l.addLine r).skipGap = l.skipGap.addLine r := skipGap_addLine_of_word hne
    have hrest' : (l.addLine r).skipGap.rest = c :: (cs ++ '\n' :: r) := by rw [heq, addLine, hrest]; rfl
    have hlexeme' : Token.lexeme? (l.addLine r).skipGap.rest = none := by
      rw [heq]
      exact (Token.lexeme?_newline _ _).trans hlexeme
    rw [tokenize_of_none hrest hlexeme] at h
    rw [tokenize_of_none hrest' hlexeme', heq]
    exact h

/-- Only the text after the gap matters. -/
theorem tokenize_congr {l' : Lexer} (h : l.skipGap = l'.skipGap) : l.tokenize = l'.tokenize := by
  match hlexeme : Token.lexeme? l'.skipGap.rest with
  | some (kind, n) => rw [tokenize_step hlexeme, tokenize_step (by rwa [h]), h]
  | none => rw [tokenize_end hlexeme, tokenize_end (by rwa [h]), h]

/-- After the words of a text come the tokens of the next line. -/
theorem tokenize_addLine_of_spells {ws : List Token.Proper} {stop : Token} (h : Spells l ws stop) (r : List Char) :
    (l.addLine r).tokenize.1 = (l.toLine r).tokenize.1.map (ws.map (·.val) ++ ·) := by
  induction h with
  | @stop l h =>
    rw [tokenize_congr (skipGap_addLine_of_stop h)]
    cases (l.toLine r).tokenize.1 <;> rfl
  | @word l kind n ws stop h hs ih =>
    obtain ⟨hlexeme, hposition, hskip⟩ := addLine_lexeme (r := r) h
    have hline : (l.skipGap.skip n).toLine r = l.toLine r := by rw [toLine_skip, skipGap, toLine_skip]
    rw [tokenize_of_lexeme hlexeme, hposition, hskip, ih, hline]
    cases (l.toLine r).tokenize.1 <;> rfl

/-- The next line alone, but further on, is what comes after the text. -/
theorem toLine_ofString (s r : String) :
    (ofString s).toLine r.toList = (ofString r).shift (s.utf8ByteSize + 1) (s.toList.count '\n' + 1) := by
  have hadvance : Position.start.advance (s.toList ++ ['\n']) = .after (s.toList ++ ['\n']) :=
    Position.advance_after [] _
  have hsize : size s.toList = s.utf8ByteSize := by rw [size, String.ofList_toList]
  rw [toLine, ofString, hadvance, Position.after_newline, hsize]
  rfl

end Lexer

/-! ## Texts line by line -/

namespace Token

/-- The tokens of a text and another line are the words of the text and then, further on, the tokens of the line. An
error of the text stays as it is, and an error of the line is found further on too. -/
theorem ofSource_line (s r : String) :
    match ofSource s with
    | .error e => ofSource (s ++ "\n" ++ r) = .error e
    | .ok tokens => ∃ words stop, tokens = words ++ [stop] ∧ stop.kind = .eof ∧
        ofSource (s ++ "\n" ++ r) =
          match ofSource r with
          | .error e => .error (e.shift (s.toList.count '\n' + 1))
          | .ok later => .ok (words ++ later.map (·.shift (s.utf8ByteSize + 1) (s.toList.count '\n' + 1))) := by
  have hline : ofSource (s ++ "\n" ++ r) = ((Lexer.ofString s).addLine r.toList).tokenize.1 := by
    simp [ofSource, Lexer.ofString, Lexer.addLine]
  rw [hline]
  cases hsource : ofSource s with
  | error e => exact Lexer.tokenize_addLine_of_error hsource _
  | ok tokens =>
    obtain ⟨ws, stop, hspells, rfl⟩ := Lexer.ofSource_eq_ok_iff.1 hsource
    refine ⟨ws.map (·.val), stop, rfl, hspells.stop_kind, ?_⟩
    rw [Lexer.tokenize_addLine_of_spells hspells, Lexer.toLine_ofString, Lexer.tokenize_shift, ofSource]
    cases (Lexer.ofString r).tokenize.1 <;> rfl

end Token

end ClosureLang
