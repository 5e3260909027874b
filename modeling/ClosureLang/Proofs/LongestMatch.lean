import ClosureLang.Proofs.Lexemes
import ClosureLang.Proofs.Places

/-!
# Longest match

A text is read as words with gaps between them. A gap takes all blank characters and comments that come, a word is the
longest one that comes then, and every token stands where its word does. Reading stops at the end of the text or at
the first character where neither a gap nor a word can start, and it stays there when it is asked again.
-/

namespace ClosureLang

open Lexer (size)

namespace Token

/-! ## Gaps -/

/-- A blank character or a comment comes first. -/
def StartsGap (cs : List Char) : Prop := (∃ c ∈ cs.head?, Text.isBlank c) ∨ ['/', '/'] <+: cs

/-- Blank characters and comments before a text that starts with neither. A comment goes up to a line feed or to the
end of the text. -/
inductive Gap : List Char → List Char → Prop where
  | nil {rest : List Char} (h : ¬ StartsGap rest) : Gap [] rest
  | blank {c : Char} {gap rest : List Char} (hc : Text.isBlank c) (h : Gap gap rest) : Gap (c :: gap) rest
  | comment {text gap rest : List Char} (htext : '\n' ∉ text) (hend : ∀ c ∈ (gap ++ rest).head?, c = '\n')
      (h : Gap gap rest) : Gap ('/' :: '/' :: (text ++ gap)) rest

theorem not_startsGap {c : Char} {cs : List Char} (hblank : ¬ Text.isBlank c)
    (hcomment : ¬ (c == '/' && cs.head? == some '/')) : ¬ StartsGap (c :: cs) := by
  rintro (⟨d, hd, hd'⟩ | ⟨rest, hrest⟩)
  · cases hd
    exact hblank hd'
  · cases hrest
    exact hcomment rfl

/-- The end of a comment, and the gap after it. -/
def CommentGap (gap rest : List Char) : Prop :=
  ∃ text gap', gap = text ++ gap' ∧ '\n' ∉ text ∧ (∀ c ∈ (gap' ++ rest).head?, c = '\n') ∧ Gap gap' rest

theorem gap_nil : Gap [] [] := by
  refine .nil ?_
  rintro (⟨c, hc, -⟩ | ⟨rest, hrest⟩)
  · cases hc
  · cases hrest

theorem CommentGap.comment {gap rest : List Char} (h : CommentGap gap rest) (hslash : (gap ++ rest).head? = some '/') :
    Gap ('/' :: gap) rest := by
  obtain ⟨text, gap, rfl, htext, hend, hgap⟩ := h
  match text with
  | [] => cases hend '/' hslash
  | c :: text =>
    obtain rfl : c = '/' := by simpa using hslash
    exact .comment (List.not_mem_of_not_mem_cons htext) hend hgap

/-- What is skipped before a word is a gap, also from inside a comment on. -/
theorem gap_take (cs : List Char) :
    Gap (cs.take (gapLength false cs)) (cs.drop (gapLength false cs)) ∧
      CommentGap (cs.take (gapLength true cs)) (cs.drop (gapLength true cs)) := by
  induction cs with
  | nil => exact ⟨gap_nil, [], [], rfl, nofun, nofun, gap_nil⟩
  | cons c cs ih =>
    obtain ⟨hgap, hcomment⟩ := ih
    constructor
    · rw [gapLength, if_neg Bool.false_ne_true]
      split
      · next hblank => exact .blank hblank hgap
      · next hblank =>
        split
        · next hstart =>
          obtain ⟨hc, hhead⟩ := Bool.and_eq_true_iff.1 hstart
          obtain rfl := beq_iff_eq.1 hc
          exact hcomment.comment (by rwa [List.take_append_drop, ← beq_iff_eq])
        · next hstart => exact .nil (not_startsGap hblank hstart)
    · rw [gapLength, if_pos rfl]
      by_cases hc : c = '\n'
      · -- The line feed ends the comment and is a blank character of the gap.
        subst hc
        exact ⟨[], _, rfl, nofun, fun d hd => (Option.some.inj hd).symm, .blank (by decide) hgap⟩
      · rw [bne_iff_ne.2 hc]
        obtain ⟨text, gap, hgap, htext, hend, h⟩ := hcomment
        refine ⟨c :: text, gap, congrArg (c :: ·) hgap, ?_, hend, h⟩
        exact List.not_mem_cons_of_ne_of_not_mem (Ne.symm hc) htext

theorem Gap.not_startsGap {gap rest : List Char} (h : Gap gap rest) : ¬ StartsGap rest := by
  induction h with
  | nil h => exact h
  | blank _ _ ih => exact ih
  | comment _ _ _ ih => exact ih

theorem gapLength_of_not_startsGap {cs : List Char} (h : ¬ StartsGap cs) : gapLength false cs = 0 := by
  match cs with
  | [] => rfl
  | c :: cs =>
    have hblank : ¬ Text.isBlank c := fun hc => h (.inl ⟨c, rfl, hc⟩)
    have hcomment : ¬ (c == '/' && cs.head? == some '/') = true := by
      intro hstart
      obtain ⟨hc, hhead⟩ := Bool.and_eq_true_iff.1 hstart
      obtain rfl := beq_iff_eq.1 hc
      match cs, beq_iff_eq.1 hhead with
      | _ :: cs, rfl => exact h (.inr ⟨cs, rfl⟩)
    rw [gapLength, if_neg Bool.false_ne_true, if_neg hblank, if_neg hcomment]

/-! ## Words with gaps between them -/

/-- The words of a text and the gaps before them, from behind `read` up to `read'`. -/
inductive Words : (read rest : List Char) → List Token → (read' rest' : List Char) → Prop where
  | nil {read rest : List Char} : Words read rest [] read rest
  | cons {read gap text rest read' rest' : List Char} {kind : Kind} {ws : List Token} (hgap : Gap gap (text ++ rest))
      (hword : Longest text rest kind) (hs : Words (read ++ gap ++ text) rest ws read' rest') :
      Words read (gap ++ (text ++ rest)) (⟨kind, .stretch (read ++ gap) text⟩ :: ws) read' rest'

end Token

namespace Lexer

open Token

/-- A reader goes over words and a gap to the place where it ends, and there it says what comes next. -/
def ReadsWords (source read : List Char) (l : Lexer) : Prop :=
  ∃ ws read' gap, Words read l.rest ws read' (gap ++ l.tokenize.2.rest) ∧ Gap gap l.tokenize.2.rest ∧
    At source (read' ++ gap) l.tokenize.2 ∧ lexeme? l.tokenize.2.rest = none ∧
    l.tokenize.1 = l.tokenize.2.ending.map (ws ++ ·)

variable {source read : List Char} {l : Lexer}

theorem readsWords_end (h : At source read l) (hlexeme : lexeme? l.skipGap.rest = none) : ReadsWords source read l := by
  have hrest : l.rest.take (gapLength false l.rest) ++ l.skipGap.rest = l.rest := List.take_append_drop _ _
  refine ⟨[], read, l.rest.take (gapLength false l.rest), ?_, ?_⟩
  · rw [tokenize_end hlexeme, hrest]
    exact .nil
  · rw [tokenize_end hlexeme]
    refine ⟨(gap_take l.rest).1, h.skip _, hlexeme, ?_⟩
    cases l.skipGap.ending <;> rfl

/-- Every reader does so. -/
theorem readsWords (h : At source read l) : ReadsWords source read l := by
  induction l using tokenize.induct generalizing read with
  | case1 l _ kind n hlexeme _ _ _ _ _ =>
    rename_i ih
    have hstart : At source (read ++ l.rest.take (gapLength false l.rest)) l.skipGap := h.skip _
    have hstop := hstart.skip n
    obtain ⟨ws, read', gap, hwords, hgap, hat, hend, hresult⟩ := ih hstop
    have hspan : Span.between l.skipGap.position (l.skipGap.skip n).position =
        .stretch (read ++ l.rest.take (gapLength false l.rest)) (l.skipGap.rest.take n) := by
      rw [hstart.position_eq, hstop.position_eq, Span.stretch]
    refine ⟨⟨kind, .stretch (read ++ l.rest.take (gapLength false l.rest)) (l.skipGap.rest.take n)⟩ :: ws, read', gap,
      ?_, ?_⟩
    · have hgap₀ : Gap (l.rest.take (gapLength false l.rest)) (l.skipGap.rest.take n ++ l.skipGap.rest.drop n) := by
        rw [List.take_append_drop]
        exact (gap_take l.rest).1
      have hrest : l.rest.take (gapLength false l.rest) ++ l.skipGap.rest = l.rest := List.take_append_drop _ _
      have hcons := Words.cons hgap₀ (lexeme?_longest hlexeme) hwords
      rw [List.take_append_drop, hrest] at hcons
      rw [tokenize_step hlexeme]
      exact hcons
    · rw [tokenize_step hlexeme]
      refine ⟨hgap, hat, hend, ?_⟩
      rw [hspan, hresult]
      cases (l.skipGap.skip n).tokenize.2.ending <;> rfl
  | case2 l _ hlexeme => exact readsWords_end h hlexeme
  | case3 l _ hlexeme => exact readsWords_end h hlexeme

/-- Where it ended, a reader ends at once when it is asked again. -/
theorem tokenize_again (hgap : ¬ StartsGap l.rest) (hlexeme : lexeme? l.rest = none) : l.tokenize = (l.ending, l) := by
  have hskip : l.skipGap = l := by
    rw [skipGap, gapLength_of_not_startsGap hgap]
    rfl
  rw [tokenize_end (by rwa [hskip]), hskip]

end Lexer

/-! ## Order -/

namespace Token

/-- Words stand one behind the other, each with text of its own, and the token `stop` marks the end of the text. -/
structure InOrder (source : List Char) (ws : List Token) (stop : Token) : Prop where
  words : ∀ w ∈ ws, w.kind ≠ .eof ∧ w.span.start < w.span.stop
  ends : stop.kind = .eof ∧ stop.span.start = size source ∧ stop.span.stop = size source
  order : (ws ++ [stop]).Pairwise (·.span.stop ≤ ·.span.start)

/-- Words lie between the places before and after them. -/
theorem Words.within {read rest read' rest' : List Char} {ws : List Token} (h : Words read rest ws read' rest') :
    size read ≤ size read' ∧
      (∀ w ∈ ws, w.kind ≠ .eof ∧ size read ≤ w.span.start ∧ w.span.start < w.span.stop ∧ w.span.stop ≤ size read') ∧
      ws.Pairwise (·.span.stop ≤ ·.span.start) := by
  induction h with
  | nil => exact ⟨le_rfl, nofun, .nil⟩
  | @cons read gap text rest read' rest' kind ws hgap hword hs ih =>
    obtain ⟨hle, hws, horder⟩ := ih
    have hstart : size read ≤ size (read ++ gap) := by
      rw [Lexer.size_append]
      exact Nat.le_add_right _ _
    have hstop : size (read ++ gap) < size (read ++ gap ++ text) := by
      rw [Lexer.size_append _ text]
      exact Nat.lt_add_of_pos_right (Lexer.size_pos hword.spelling.isWord.ne_nil)
    have hread : size read ≤ size (read ++ gap ++ text) := hstart.trans hstop.le
    refine ⟨hread.trans hle, List.forall_mem_cons.2 ⟨⟨hword.spelling.ne_eof, hstart, hstop, hle⟩, ?_⟩, .cons ?_ horder⟩
    · intro w hw
      obtain ⟨hkind, hfrom, hto⟩ := hws w hw
      exact ⟨hkind, hread.trans hfrom, hto⟩
    · exact fun w hw => (hws w hw).2.1

theorem Words.inOrder {source read gap : List Char} {ws : List Token} (h : Words [] source ws read gap)
    (hsource : source = read ++ gap) : InOrder source ws ⟨.eof, .stretch source []⟩ := by
  obtain ⟨-, hws, horder⟩ := h.within
  refine ⟨fun w hw => ⟨(hws w hw).1, (hws w hw).2.2.1⟩, ⟨rfl, rfl, ?_⟩, ?_⟩
  · exact congrArg size (List.append_nil source)
  · refine List.pairwise_append.2 ⟨horder, List.pairwise_singleton _ _, fun w hw stop hstop => ?_⟩
    obtain rfl := List.mem_singleton.1 hstop
    calc w.span.stop ≤ size read := (hws w hw).2.2.2
      _ ≤ size read + size gap := Nat.le_add_right _ _
      _ = size source := by rw [hsource, Lexer.size_append]

end Token

/-! ## The whole text -/

namespace Lexer

open Token

/-- The text is words and a last gap, and these are its tokens with the token of its end. -/
def Tokenizes (source : List Char) (tokens : List Token) : Prop :=
  ∃ ws read gap, Words [] source ws read gap ∧ Gap gap [] ∧ source = read ++ gap ∧
    tokens = ws ++ [⟨.eof, .stretch source []⟩] ∧ InOrder source ws ⟨.eof, .stretch source []⟩

/-- After some words and a gap comes a character where no word starts, and the error is about that place. -/
def StopsAt (source : List Char) (e : LexError) : Prop :=
  ∃ ws read gap rest, Words [] source ws read (gap ++ e.character :: rest) ∧ Gap gap (e.character :: rest) ∧
    source = read ++ gap ++ e.character :: rest ∧ (∀ s, s <+: e.character :: rest → ¬ IsWord s) ∧
    e.line = (Position.after (read ++ gap)).line ∧ e.column = (Position.after (read ++ gap)).column

/-- Reading is by longest match, with exact places. It ends well at the end of the text, or with an error at the first
character where nothing can start, and a second time it says the same of the end or of that character. -/
theorem tokenize_longest_match (source : String) :
    match (ofString source).tokenize with
    | (.ok tokens, l) =>
      Tokenizes source.toList tokens ∧ l.tokenize = (.ok [⟨.eof, .stretch source.toList []⟩], l)
    | (.error e, l) =>
      StopsAt source.toList e ∧ e.message = "Unexpected character: '" ++ e.character.toString ++ "'" ∧
        l.tokenize = (.error e, l) := by
  obtain ⟨ws, read, gap, hwords, hgap, hat, hlexeme, hresult⟩ := readsWords (at_ofString source)
  have hagain := tokenize_again hgap.not_startsGap hlexeme
  generalize (ofString source).tokenize = first at *
  obtain ⟨result, l, p⟩ := first
  obtain ⟨hsource, rfl⟩ := hat
  dsimp only at hsource hgap hwords hlexeme hresult hagain
  cases l with
  | nil =>
    rw [List.append_nil] at hsource hwords
    have hstop : ending ⟨[], .after (read ++ gap)⟩ = .ok [⟨.eof, .stretch source.toList []⟩] := by
      rw [hsource, Span.stretch, List.append_nil]
      rfl
    rw [hstop] at hresult hagain
    rw [hresult]
    exact ⟨⟨ws, read, gap, hwords, hgap, hsource, rfl, hwords.inOrder hsource⟩, hagain⟩
  | cons c cs =>
    rw [hresult]
    exact ⟨⟨ws, read, gap, cs, hwords, hgap, hsource, not_isWord_of_lexeme? hlexeme, rfl, rfl⟩, rfl, hagain⟩

end Lexer

end ClosureLang
