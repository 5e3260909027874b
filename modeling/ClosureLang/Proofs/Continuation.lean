import ClosureLang.Diagnostic.Basic
import ClosureLang.Proofs.Lines
import ClosureLang.Proofs.Unfinished

/-!
# When another line helps

A text that is no program may be the beginning of one. The test that the entries of a session undergo looks at the place
of the error: at the end of the text, more text could help. The place tells no more than that. A list of parameters at
the end of the text waits for an arrow, but its error is at the list. And there may be no level left for what the error
asks for.
-/

namespace ClosureLang

open Token (Kind kinds)

/-- Words of these kinds, one after the other. -/
def Token.spelling (ks : List Kind) : String := String.ofList (ks.flatMap (·.text.toList))

theorem Lexer.lexes_spelling {ks : List Kind} (h : ks ⊆ Parser.fillers) : Lexes (Token.spelling ks).toList ks := by
  rw [Token.spelling, String.toList_ofList]
  induction ks with
  | nil => exact lexes_nil
  | cons k ks ih =>
    obtain ⟨hk, hks⟩ := List.cons_subset.1 h
    have hlexes := ih hks
    simp only [Parser.fillers, List.mem_cons, List.not_mem_nil, or_false] at hk
    rcases hk with rfl | rfl | rfl | rfl | rfl
    · exact hlexes.delimiter (c := '\x7b') (by simp)
    · exact hlexes.delimiter (c := '\x7d') (by simp)
    · exact hlexes.delimiter (c := ')') (by simp)
    · exact hlexes.arrow
    · exact hlexes.delimiter (c := ':') (by simp)

/-- Some lines after the text make a program of it. -/
def Expr.Completable (source : String) : Prop :=
  ∃ r tokens e, Token.ofSource (source ++ "\n" ++ r) = .ok tokens ∧ Expr.ofTokens tokens = .ok e

/-- The text is rejected because of nesting. -/
def Expr.NestedTooDeeply (source : String) : Prop :=
  ∃ tokens e, Token.ofSource source = .ok tokens ∧ Expr.ofTokens tokens = .error e ∧ e.problem = .nestedTooDeeply

/-- The error is about a list of parameters, and no word comes after the list. -/
def ParseError.AwaitsArrow (e : ParseError) (tokens : List Token) : Prop :=
  e.problem = .missingArrow ∧ ∀ t ∈ tokens, e.span.stop ≤ t.span.start → t.kind = .eof

namespace Parser

variable {all : List Token.Proper} {stop : Token} {e : ParseError} {source : String}

/-! ## Places of errors -/

theorem way_subset (problem : ParseProblem) : way problem ⊆ fillers := by
  unfold way
  split <;> simp [fillers]

theorem isIncomplete_iff : (Diagnostic.ofParseError e).isIncomplete source ↔
    (Text.trimEnd source).utf8ByteSize ≤ e.span.start := by
  simp [Diagnostic.ofParseError, Diagnostic.isIncomplete]

section Places

variable (hplaced : Lexer.Placed source.toList 0 all stop)

include hplaced

theorem start_lt {w : Token.Proper} (hw : w ∈ all) : w.val.span.start < (Text.trimEnd source).utf8ByteSize := by
  have hlt := (hplaced.start_word w hw).2.2
  rwa [String.ofList_toList] at hlt

/-- Every word begins before the last one ends. -/
theorem start_lt_stop_last {xs : List Token.Proper} {v w : Token.Proper} (hall : all = xs ++ [w]) (hv : v ∈ all) :
    v.val.span.start < w.val.span.stop := by
  have hlt {v : Token.Proper} (hv : v ∈ all) : v.val.span.start < v.val.span.stop := (hplaced.start_word v hv).2.1
  have hw : w ∈ all := by simp [hall]
  have horder := hplaced.order
  rw [hall, List.pairwise_append] at horder
  rcases List.mem_append.1 (hall ▸ hv) with hxs | hlast
  · calc v.val.span.start < v.val.span.stop := hlt hv
      _ ≤ w.val.span.start := horder.2.2 v hxs w (.head _)
      _ < w.val.span.stop := hlt hw
  · rw [List.mem_singleton.1 hlast]
    exact hlt hw

/-- An error about a word is not taken for an error about the end. -/
theorem Final.not_isIncomplete (he : Final all e) : ¬(Diagnostic.ofParseError e).isIncomplete source := by
  rw [isIncomplete_iff, Nat.not_le]
  cases he with
  | word hw _ => exact start_lt hplaced hw
  | arrow hstart _ _ =>
    obtain ⟨w, hw, hstart⟩ := hstart
    rw [← hstart]
    exact start_lt hplaced hw

theorem Final.not_awaitsArrow (he : Final all e) : ¬e.AwaitsArrow (all.map (·.val) ++ [stop]) := by
  rintro ⟨hproblem, hlast⟩
  cases he with
  | word _ h => exact h hproblem
  | @arrow span xs ys w y _ hall hstop =>
    have horder := hplaced.order
    rw [hall, List.pairwise_append, List.pairwise_cons] at horder
    have hle : w.val.span.stop ≤ y.val.span.start := horder.2.1.1 y (.head _)
    exact y.2 (hlast y.val (by simp [hall]) (hstop ▸ hle))

/-- An error about the end is taken for one, unless a list waits for its arrow. -/
theorem Late.isIncomplete_iff_not_awaitsArrow (hstop : stop.kind = .eof) (he : Late all stop e) :
    (Diagnostic.ofParseError e).isIncomplete source ↔ ¬e.AwaitsArrow (all.map (·.val) ++ [stop]) := by
  rw [isIncomplete_iff]
  cases he with
  | stop harrow _ =>
    have hle : (Text.trimEnd source).utf8ByteSize ≤ stop.span.start := by
      rw [hplaced.start_stop, Lexer.size, String.ofList_toList]
      exact Lexer.trimEnd_le source
    exact iff_of_true hle fun h => harrow h.1
  | @arrow span xs w hstart hall hend =>
    refine iff_of_false ?_ (not_not_intro ⟨rfl, ?_⟩)
    · obtain ⟨w, hw, hstart⟩ := hstart
      rw [Nat.not_le]
      exact hstart ▸ start_lt hplaced hw
    · intro t ht hle
      rcases List.mem_append.1 ht with ht | ht
      · obtain ⟨v, hv, rfl⟩ := List.mem_map.1 ht
        exact absurd (hend ▸ hle) (Nat.not_le.2 (start_lt_stop_last hplaced hall hv))
      · rw [List.mem_singleton.1 ht]
        exact hstop

end Places

/-! ## Texts -/

theorem fails_iff {E : ParseError → Prop} : Fails program E (.before all stop []) ↔
    ∃ e, Expr.ofTokens (all.map (·.val) ++ [stop]) = .error e ∧ E e := by
  unfold Expr.ofTokens Fails wp
  rw [Cursor.ofTokens?_before]
  dsimp only
  cases program (.before all stop []) with
  | ok e c => simp
  | error e c => simp

variable (hspells : Lexer.Spells (.ofString source) all stop)

include hspells

/-- Every word that is asked for can stand in another line. -/
theorem ofSource_spelling {ks : List Kind} (hks : ks ⊆ fillers) :
    ∃ us stop', stop'.kind = .eof ∧ kinds us = ks ∧
      Token.ofSource (source ++ "\n" ++ Token.spelling ks) = .ok ((all ++ us).map (·.val) ++ [stop']) := by
  obtain ⟨us, stop', hline, hkinds⟩ := Lexer.lexes_spelling hks (Position.start.advance (source.toList ++ ['\n']))
  exact ⟨us, stop', hline.stop_kind, hkinds, (Lexer.ofSource_line_iff hspells).2 ⟨us, stop', hline, rfl⟩⟩

theorem not_completable (h : Hopeless all) : ¬Expr.Completable source := by
  rintro ⟨r, tokens, e, htokens, he⟩
  obtain ⟨us, stop', hline, rfl⟩ := (Lexer.ofSource_line_iff hspells).1 htokens
  obtain ⟨e', he', -⟩ := fails_iff.1 (h us stop' hline.stop_kind)
  cases he.symm.trans he'

theorem completable_of_mends {ks : List Kind} (hks : ks ⊆ fillers) (h : Mends program all ks (· = .eof)) :
    Expr.Completable source := by
  obtain ⟨us, stop', hstop', hkinds, htokens⟩ := ofSource_spelling hspells hks
  obtain ⟨e, he⟩ := h us [] stop' hstop' hkinds hstop'
  rw [List.append_nil] at he
  refine ⟨_, _, e, htokens, ?_⟩
  rw [Expr.ofTokens, Cursor.ofTokens?_before]
  dsimp only
  rw [he]

theorem nestedTooDeeply_iff {ks : List Kind} (hks : ks ⊆ fillers) {P : Prop}
    (h : ∀ us stop', stop'.kind = .eof → kinds us = ks → (Fails program TooDeep (.before (all ++ us) stop' []) ↔ P)) :
    Expr.NestedTooDeeply (source ++ "\n" ++ Token.spelling ks) ↔ P := by
  obtain ⟨us, stop', hstop', hkinds, htokens⟩ := ofSource_spelling hspells hks
  rw [← h us stop' hstop' hkinds, fails_iff]
  constructor
  · rintro ⟨tokens, e, htokens', he, hdeep⟩
    cases htokens.symm.trans htokens'
    exact ⟨e, he, hdeep⟩
  · rintro ⟨e, he, hdeep⟩
    exact ⟨_, e, htokens, he, hdeep⟩

end Parser

section Rejected

variable {source : String} {tokens : List Token} {e : ParseError}

theorem Parser.exists_verdict (htokens : Token.ofSource source = .ok tokens)
    (herror : Expr.ofTokens tokens = .error e) :
    ∃ all stop, tokens = all.map (·.val) ++ [stop] ∧ Lexer.Spells (.ofString source) all stop ∧
      Lexer.Placed source.toList 0 all stop ∧ Verdict all stop e := by
  obtain ⟨all, stop, hspells, rfl⟩ := Lexer.ofSource_eq_ok_iff.1 htokens
  have hfails : Fails program (· = e) (.before all stop []) := fails_iff.2 ⟨e, herror, rfl⟩
  exact ⟨all, stop, rfl, hspells, hspells.placed ⟨[], rfl, rfl⟩, verdict_of_error hspells.stop_kind hfails⟩

/-- A rejected text is the beginning of a program if its error is about its end, where a list of parameters is at the
end as well, and if there are levels left for what the error asks for. -/
theorem Expr.completable_iff (htokens : Token.ofSource source = .ok tokens) (herror : Expr.ofTokens tokens = .error e) :
    Expr.Completable source ↔
      ((Diagnostic.ofParseError e).isIncomplete source ∨ e.AwaitsArrow tokens) ∧
        ¬Expr.NestedTooDeeply (source ++ "\n" ++ Token.spelling (Parser.way e.problem)) := by
  obtain ⟨all, stop, rfl, hspells, hplaced, hverdict⟩ := Parser.exists_verdict htokens herror
  have hway := Parser.way_subset e.problem
  cases hverdict with
  -- The place of the error tells the first case from the last one, and only levels tell the second one.
  | final he h =>
    refine iff_of_false (Parser.not_completable hspells h) ?_
    intro ⟨hplace, _⟩
    exact hplace.elim (he.not_isIncomplete hplaced) (he.not_awaitsArrow hplaced)
  | exhausted _ h hdeep =>
    have hnested := (Parser.nestedTooDeeply_iff hspells hway fun us stop' hstop' hkinds =>
      iff_true_intro (hdeep us stop' hstop' hkinds)).2 trivial
    exact iff_of_false (Parser.not_completable hspells h) fun h => h.2 hnested
  | incomplete he hks h hdeep =>
    have hnested := (Parser.nestedTooDeeply_iff hspells hway fun us stop' hstop' hkinds =>
      iff_false_intro (hdeep us stop' hstop' hkinds)).1
    have hplace := he.isIncomplete_iff_not_awaitsArrow hplaced hspells.stop_kind
    refine iff_of_true (Parser.completable_of_mends hspells hks h) ⟨?_, hnested⟩
    exact (Classical.em _).symm.imp_left hplace.2

/-- The error of a list of parameters is at the list. -/
theorem ParseError.AwaitsArrow.not_isIncomplete (h : e.AwaitsArrow tokens)
    (htokens : Token.ofSource source = .ok tokens) (herror : Expr.ofTokens tokens = .error e) :
    ¬(Diagnostic.ofParseError e).isIncomplete source := by
  obtain ⟨all, stop, rfl, hspells, hplaced, hverdict⟩ := Parser.exists_verdict htokens herror
  have hlate (he : Parser.Late all stop e) : ¬(Diagnostic.ofParseError e).isIncomplete source :=
    fun hincomplete => (he.isIncomplete_iff_not_awaitsArrow hplaced hspells.stop_kind).1 hincomplete h
  cases hverdict with
  | final he _ => exact he.not_isIncomplete hplaced
  | exhausted he _ _ => exact he.elim hlate fun hdeep => nomatch h.1.symm.trans hdeep
  | incomplete he _ _ _ => exact hlate he

end Rejected

/-- The test tells for a rejected text whether it is the beginning of a program, in all but two cases. It takes a text
for a beginning although there is no level left for what the error asks for. And it overlooks a list of parameters at
the end of the text, which is a beginning if there is a level left for what follows the arrow. -/
theorem Diagnostic.isIncomplete_exact_iff (source : String) (tokens : List Token) (e : ParseError)
    (htokens : Token.ofSource source = .ok tokens) (herror : Expr.ofTokens tokens = .error e) :
    ((Diagnostic.ofParseError e).isIncomplete source ↔ Expr.Completable source) ↔
      ((Diagnostic.ofParseError e).isIncomplete source →
        ¬Expr.NestedTooDeeply (source ++ "\n" ++ Token.spelling (Parser.way e.problem))) ∧
      (e.AwaitsArrow tokens → Expr.NestedTooDeeply (source ++ "\n" ++ Token.spelling (Parser.way e.problem))) := by
  rw [Expr.completable_iff htokens herror]
  constructor
  · intro hexact
    refine ⟨fun hincomplete => (hexact.1 hincomplete).2, fun harrow => ?_⟩
    -- A list that some line completes would have to be taken for a beginning, but its error is not at the end.
    apply Classical.byContradiction
    intro hnested
    exact harrow.not_isIncomplete htokens herror (hexact.2 ⟨.inr harrow, hnested⟩)
  · intro ⟨hlevels, hlist⟩
    constructor
    · intro hincomplete
      exact ⟨.inl hincomplete, hlevels hincomplete⟩
    · intro ⟨hplace, hnested⟩
      exact hplace.elim id fun harrow => absurd (hlist harrow) hnested

/-- Parameters whose arrow may come in the next line. -/
def parameterList : String := "(a, b)"

def parameterTokens : List Token :=
  [⟨.leftParen, ⟨0, 1, 1, 1⟩⟩, ⟨.identifier "a", ⟨1, 2, 1, 2⟩⟩, ⟨.comma, ⟨2, 3, 1, 3⟩⟩,
    ⟨.identifier "b", ⟨4, 5, 1, 5⟩⟩, ⟨.rightParen, ⟨5, 6, 1, 6⟩⟩]

theorem ofTokens_parameterList : Token.ofSource parameterList = .ok (parameterTokens ++ [⟨.eof, ⟨6, 6, 1, 7⟩⟩]) ∧
    Expr.ofTokens (parameterTokens ++ [⟨.eof, ⟨6, 6, 1, 7⟩⟩]) = .error ⟨.missingArrow, ⟨0, 6, 1, 1⟩⟩ := by
  constructor <;> cbv

/-- There are levels left for the body of a lambda with these parameters, so the text should have been taken for the
beginning of a program. -/
theorem Diagnostic.isIncomplete_exact_iff_parameterList :
    ¬((Diagnostic.ofParseError ⟨.missingArrow, ⟨0, 6, 1, 1⟩⟩).isIncomplete parameterList ↔
      Expr.Completable parameterList) := by
  intro hexact
  obtain ⟨hlex, hparse⟩ := ofTokens_parameterList
  obtain ⟨-, hnested⟩ := (isIncomplete_exact_iff parameterList _ _ hlex hparse).1 hexact
  obtain ⟨tokens, e, htokens, he, hdeep⟩ := hnested ⟨rfl, by decide⟩
  have hline : Token.ofSource (parameterList ++ "\n" ++ Token.spelling (Parser.way .missingArrow)) =
      .ok (parameterTokens ++ [⟨.arrow, ⟨7, 9, 2, 1⟩⟩, ⟨.eof, ⟨9, 9, 2, 3⟩⟩]) := by cbv
  have hbody : Expr.ofTokens (parameterTokens ++ [⟨.arrow, ⟨7, 9, 2, 1⟩⟩, ⟨.eof, ⟨9, 9, 2, 3⟩⟩]) =
      .error ⟨.endOfInput, ⟨9, 9, 2, 3⟩⟩ := by cbv
  cases hline.symm.trans htokens
  cases hbody.symm.trans he
  cases hdeep

/-- A list of parameters is reported as an error, although a line with an arrow and a body completes it. -/
theorem Diagnostic.isIncomplete_overlooks_parameterList : ∃ tokens e,
    Token.ofSource parameterList = .ok tokens ∧ Expr.ofTokens tokens = .error e ∧
      (Diagnostic.ofParseError e).isIncomplete parameterList = false ∧ Expr.Completable parameterList := by
  obtain ⟨hlex, hparse⟩ := ofTokens_parameterList
  refine ⟨_, _, hlex, hparse, by decide, "-> a", ?_⟩
  have hline : Token.ofSource (parameterList ++ "\n" ++ "-> a") = .ok (parameterTokens ++
      [⟨.arrow, ⟨7, 9, 2, 1⟩⟩, ⟨.identifier "a", ⟨10, 11, 2, 4⟩⟩, ⟨.eof, ⟨11, 11, 2, 5⟩⟩]) := by cbv
  have hlambda : Expr.ofTokens (parameterTokens ++
      [⟨.arrow, ⟨7, 9, 2, 1⟩⟩, ⟨.identifier "a", ⟨10, 11, 2, 4⟩⟩, ⟨.eof, ⟨11, 11, 2, 5⟩⟩]) =
      .ok (.lambda ⟨0, 11, 1, 1⟩ [.name ⟨1, 2, 1, 2⟩ "a" none, .name ⟨4, 5, 1, 5⟩ "b" none]
        (.name ⟨10, 11, 2, 4⟩ "a" none) none none) := by cbv
  exact ⟨_, _, hline, hlambda⟩

end ClosureLang
