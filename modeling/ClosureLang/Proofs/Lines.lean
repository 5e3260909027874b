import ClosureLang.Proofs.Spelling

/-!
# Texts line by line

A line feed ends every word and every comment, so another line adds its words to those of the text before it and
changes none of them. The places of the words are in order, and each word begins before the blank end of the text.
-/

namespace ClosureLang

open Token (Kind kinds)

namespace Lexer

/-! ## Another line -/

section Lines

variable {l : Lexer} {r : List Char} {ws vs us : List Token.Proper} {stop stop' : Token}

/-- The text with another line after it. -/
def addLine (l : Lexer) (r : List Char) : Lexer := ⟨l.rest ++ '\n' :: r, l.position⟩

/-- The other line alone, where it stands after the text. -/
def toLine (l : Lexer) (r : List Char) : Lexer := ⟨r, l.position.advance (l.rest ++ ['\n'])⟩

theorem skip_addLine {n : Nat} (h : n ≤ l.rest.length) : (l.addLine r).skip n = (l.skip n).addLine r := by
  simp [skip, addLine, List.drop_append_of_le_length h, List.take_append_of_le_length h]

theorem toLine_skip (n : Nat) : (l.skip n).toLine r = l.toLine r := by
  simp only [skip, toLine, Position.advance, ← List.foldl_append, ← List.append_assoc, List.take_append_drop]

theorem gapLength_of_stop (h : l.skipGap.rest = []) : Token.gapLength false l.rest = l.rest.length :=
  Nat.le_antisymm (Token.gapLength_le _ _) (List.drop_eq_nil_iff.1 h)

theorem skipGap_addLine_of_stop (h : l.skipGap.rest = []) : (l.addLine r).skipGap = (l.toLine r).skipGap := by
  have hgap : Token.gapLength false (l.rest ++ '\n' :: r) = (l.rest ++ ['\n']).length + Token.gapLength false r := by
    rw [Token.gapLength_newline, if_pos (gapLength_of_stop h), List.length_append]
    rfl
  -- The gap goes on over the line feed, so that both readers stop behind it.
  have happend : l.rest ++ '\n' :: r = l.rest ++ ['\n'] ++ r := List.append_cons _ _ _
  simp only [skipGap, skip, addLine, toLine, hgap]
  rw [happend, List.drop_length_add_append, List.take_length_add_append, Position.advance, List.foldl_append]
  rfl

theorem skipGap_addLine_of_word (h : l.skipGap.rest ≠ []) : (l.addLine r).skipGap = l.skipGap.addLine r := by
  have hgap : Token.gapLength false (l.rest ++ '\n' :: r) = Token.gapLength false l.rest := by
    rw [Token.gapLength_newline, if_neg]
    intro hlength
    exact h (List.drop_eq_nil_iff.2 (Nat.le_of_eq hlength.symm))
  have hskip : (l.addLine r).skipGap = (l.addLine r).skip (Token.gapLength false l.rest) := by
    rw [skipGap, addLine, hgap]
  rw [hskip, skip_addLine (Token.gapLength_le _ _)]
  rfl

theorem spells_of_lexeme {kind : Kind} {n : Nat} (h : Token.lexeme? l.skipGap.rest = some (kind, n)) :
    Spells l vs stop ↔ ∃ ws, vs = ⟨⟨kind, .between l.skipGap.position (l.skipGap.skip n).position⟩,
      Token.ne_eof_of_lexeme? h⟩ :: ws ∧ Spells (l.skipGap.skip n) ws stop := by
  constructor
  · intro hs
    cases hs with
    | stop hnil =>
      rw [hnil] at h
      cases h
    | word h' hs =>
      cases h.symm.trans h'
      exact ⟨_, rfl, hs⟩
  · rintro ⟨ws, rfl, hs⟩
    exact .word h hs

/-- Another line adds its words. -/
theorem spells_addLine (h : Spells l ws stop) :
    Spells (l.addLine r) vs stop' ↔ ∃ us, vs = ws ++ us ∧ Spells (l.toLine r) us stop' := by
  induction h generalizing vs with
  | stop h =>
    have heq := skipGap_addLine_of_stop (r := r) h
    constructor
    · exact fun hs => ⟨vs, rfl, hs.of_skipGap_eq heq⟩
    · rintro ⟨us, rfl, hs⟩
      exact hs.of_skipGap_eq heq.symm
  | @word l kind n ws stop h hs ih =>
    have hne : l.skipGap.rest ≠ [] := List.length_pos_iff.1 (Token.lexeme?_length h).2
    have heq := skipGap_addLine_of_word (r := r) hne
    have hlexeme : Token.lexeme? (l.addLine r).skipGap.rest = some (kind, n) := by
      rw [heq]
      exact (Token.lexeme?_newline _ _).trans h
    have hskip : (l.addLine r).skipGap.skip n = (l.skipGap.skip n).addLine r := by
      rw [heq, skip_addLine (Token.lexeme?_le h)]
    have hline : (l.skipGap.skip n).toLine r = l.toLine r := by
      rw [toLine_skip, skipGap, toLine_skip]
    have hposition : (l.addLine r).skipGap.position = l.skipGap.position := by
      rw [heq]
      rfl
    rw [spells_of_lexeme hlexeme]
    simp only [hskip, hposition, ih, hline]
    constructor
    · rintro ⟨_, rfl, us, rfl, hs⟩
      exact ⟨us, rfl, hs⟩
    · rintro ⟨us, rfl, hs⟩
      exact ⟨_, rfl, us, rfl, hs⟩

/-- The tokens of a text and another line are the words of both. -/
theorem ofSource_line_iff {s r : String} {tokens : List Token} (h : Spells (ofString s) ws stop) :
    Token.ofSource (s ++ "\n" ++ r) = .ok tokens ↔
      ∃ us stop', Spells ((ofString s).toLine r.toList) us stop' ∧ tokens = (ws ++ us).map (·.val) ++ [stop'] := by
  have hline : ofString (s ++ "\n" ++ r) = (ofString s).addLine r.toList := by
    simp [ofString, addLine]
  rw [ofSource_eq_ok_iff, hline]
  constructor
  · rintro ⟨vs, stop', hs, rfl⟩
    obtain ⟨us, rfl, hline⟩ := (spells_addLine h).1 hs
    exact ⟨us, stop', hline, rfl⟩
  · rintro ⟨us, stop', hs, rfl⟩
    exact ⟨_, stop', (spells_addLine h).2 ⟨us, rfl, hs⟩, rfl⟩

end Lines

/-! ## Places -/

/-- How many bytes the characters take. -/
abbrev size (cs : List Char) : Nat := (String.ofList cs).utf8ByteSize

theorem size_append (cs cs' : List Char) : size (cs ++ cs') = size cs + size cs' := by
  rw [size, String.ofList_append, String.utf8ByteSize_append]

theorem size_singleton (c : Char) : size [c] = c.utf8Size := by
  have h : String.ofList [c] = String.push "" c := rfl
  rw [size, h, String.utf8ByteSize_push]
  exact Nat.zero_add _

theorem size_cons (c : Char) (cs : List Char) : size (c :: cs) = c.utf8Size + size cs := by
  rw [← size_singleton, ← size_append, List.singleton_append]

theorem advance_offset (p : Position) (cs : List Char) : (p.advance cs).offset = p.offset + size cs := by
  induction cs generalizing p with
  | nil => rfl
  | cons c cs ih =>
    have hnext : (p.next c).offset = p.offset + c.utf8Size := by
      unfold Position.next
      split <;> rfl
    rw [Position.advance, List.foldl_cons, ← Position.advance, ih, hnext, size_cons, Nat.add_assoc]

/-- A character that is not blank stays when the blank end of the text goes. -/
theorem size_lt_trimEnd (cs : List Char) {c : Char} (hc : Text.isBlank c = false) (cs' : List Char) :
    size cs < (Text.trimEnd (String.ofList (cs ++ c :: cs'))).utf8ByteSize := by
  -- What is dropped from the end does not reach the character.
  have htrim : ∃ ds, (cs ++ c :: cs').reverse.dropWhile Text.isBlank = ds ++ c :: cs.reverse := by
    rw [List.reverse_append, List.reverse_cons, List.append_assoc, List.dropWhile_append]
    split
    · exact ⟨[], by simp [hc]⟩
    · exact ⟨_, rfl⟩
  obtain ⟨ds, htrim⟩ := htrim
  have hsize : size cs < size (cs ++ [c] ++ ds.reverse) := by
    rw [size_append, size_append, size_singleton]
    have := c.utf8Size_pos
    omega
  rw [Text.trimEnd, String.toList_ofList, htrim, List.reverse_append, List.reverse_cons, List.reverse_reverse]
  exact hsize

theorem trimEnd_le (s : String) : (Text.trimEnd s).utf8ByteSize ≤ s.utf8ByteSize := by
  have hsplit : (s.toList.reverse.dropWhile Text.isBlank).reverse ++ (s.toList.reverse.takeWhile Text.isBlank).reverse =
      s.toList := by
    rw [← List.reverse_append, List.takeWhile_append_dropWhile, List.reverse_reverse]
  calc (Text.trimEnd s).utf8ByteSize ≤ size s.toList := by
        rw [← hsplit, size_append]
        exact Nat.le_add_right _ _
    _ = s.utf8ByteSize := by rw [size, String.ofList_toList]

/-- The reader has come to its place by reading the text. -/
def Reached (source : List Char) (l : Lexer) : Prop :=
  ∃ read, source = read ++ l.rest ∧ l.position.offset = size read

theorem Reached.skip {source : List Char} {l : Lexer} (h : Reached source l) (n : Nat) : Reached source (l.skip n) := by
  obtain ⟨read, hsource, hoffset⟩ := h
  refine ⟨read ++ l.rest.take n, ?_, ?_⟩
  · rw [hsource, Lexer.skip, List.append_assoc, List.take_append_drop]
  · rw [Lexer.skip, advance_offset, hoffset, size_append]

theorem offset_le_skip (l : Lexer) (n : Nat) : l.position.offset ≤ (l.skip n).position.offset := by
  rw [skip, advance_offset]
  exact Nat.le_add_right _ _

/-- No gap stops at a blank character. -/
theorem not_isBlank_of_gapLength {inComment : Bool} {c : Char} {cs cs' : List Char}
    (h : cs.drop (Token.gapLength inComment cs) = c :: cs') : Text.isBlank c = false := by
  induction cs generalizing inComment with
  | nil => cases h
  | cons d ds ih =>
    rw [Token.gapLength] at h
    split at h
    · exact ih h
    · split at h
      · exact ih h
      · next hblank =>
        split at h
        · exact ih h
        · cases h
          exact Bool.eq_false_iff.2 hblank

/-- The places of words and of the end of a text, from an offset on. -/
structure Placed (source : List Char) (first : Nat) (ws : List Token.Proper) (stop : Token) : Prop where
  start_stop : stop.span.start = size source
  start_word : ∀ w ∈ ws, first ≤ w.val.span.start ∧ w.val.span.start < w.val.span.stop ∧
    w.val.span.start < (Text.trimEnd (String.ofList source)).utf8ByteSize
  order : ws.Pairwise (·.val.span.stop ≤ ·.val.span.start)

theorem Spells.placed {source : List Char} {l : Lexer} {ws : List Token.Proper} {stop : Token} (h : Spells l ws stop)
    (hl : Reached source l) : Placed source l.position.offset ws stop := by
  induction h with
  | @stop l h =>
    refine ⟨?_, nofun, .nil⟩
    obtain ⟨read, hsource, hoffset⟩ : Reached source l.skipGap := hl.skip _
    rw [h, List.append_nil] at hsource
    rw [hsource]
    exact hoffset
  | @word l kind n ws stop h hs ih =>
    obtain ⟨hstop, hwords, horder⟩ := ih ((hl.skip _).skip _)
    obtain ⟨hn, hlength⟩ := Token.lexeme?_length h
    obtain ⟨c, cs, hrest⟩ := List.exists_cons_of_length_pos hlength
    have hgap : l.position.offset ≤ l.skipGap.position.offset := offset_le_skip _ _
    have hskip : l.skipGap.position.offset < (l.skipGap.skip n).position.offset := by
      obtain ⟨n, rfl⟩ := Nat.exists_eq_succ_of_ne_zero (Nat.ne_of_gt hn)
      rw [Lexer.skip, advance_offset, hrest, List.take_succ_cons, size_cons]
      have := c.utf8Size_pos
      omega
    have htrim : l.skipGap.position.offset < (Text.trimEnd (String.ofList source)).utf8ByteSize := by
      obtain ⟨read, hsource, hoffset⟩ : Reached source l.skipGap := hl.skip _
      rw [hsource, hrest, hoffset]
      exact size_lt_trimEnd read (not_isBlank_of_gapLength hrest) cs
    refine ⟨hstop, List.forall_mem_cons.2 ⟨⟨hgap, hskip, htrim⟩, fun w hw => ?_⟩,
      .cons (fun w hw => (hwords w hw).1) horder⟩
    obtain ⟨hle, hword⟩ := hwords w hw
    exact ⟨Nat.le_trans hgap (Nat.le_trans (Nat.le_of_lt hskip) hle), hword⟩

end Lexer

end ClosureLang
