import ClosureLang.Proofs.FirstTokens
import ClosureLang.Proofs.Places
import ClosureLang.Proofs.Rejections
import ClosureLang.Proofs.Rows

/-!
# Carets

The report of an error shows the line that the error is on behind an arrow, and a caret below the character that it
begins with. Lines of a report and columns of an error are counted apart from each other: the first leave out a line
that is not begun, and are numbered in four columns.

Words begin with characters that are not blank, so the caret never stands under a carriage return that is left out.
-/

namespace ClosureLang

/-! ## Lines -/

namespace Position

/-- The line that a place is on, and what stands on it before the place. -/
theorem exists_lineStart (read : List Char) :
    ∃ before tail, read = before ++ tail ∧ '\n' ∉ tail ∧ (after before).column = 1 ∧
      (after before).line = (after read).line ∧ tail.length + 1 = (after read).column := by
  induction read using List.reverseRecOn with
  | nil => exact ⟨[], [], rfl, nofun, rfl, rfl, rfl⟩
  | append_singleton read c ih =>
    obtain ⟨before, tail, hread, htail, hcolumn, hline, hlength⟩ := ih
    by_cases hc : c = '\n'
    · refine ⟨read ++ [c], [], (List.append_nil _).symm, nofun, ?_, rfl, ?_⟩
      · rw [after_concat, next, if_pos hc]
      · rw [after_concat, next, if_pos hc]
        rfl
    · refine ⟨before, tail ++ [c], ?_, ?_, hcolumn, ?_, ?_⟩
      · rw [hread, List.append_assoc]
      · rw [List.mem_append, List.mem_singleton, not_or]
        exact ⟨htail, Ne.symm hc⟩
      · rw [after_concat, next, if_neg hc]
        exact hline
      · rw [after_concat, next, if_neg hc, List.length_append]
        exact congrArg (· + 1) hlength

end Position

namespace Text

/-- Line number `n` of a text. A carriage return before the line feed is not part of it. -/
def IsLine (source : List Char) (n : Nat) (content : List Char) : Prop :=
  ∃ before behind, source = before ++ content ++ behind ∧ (Position.after before).line = n ∧
    (Position.after before).column = 1 ∧ '\n' ∉ content ∧
    (behind = [] ∨ ['\r', '\n'] <+: behind ∨ ['\n'] <+: behind ∧ content.getLast? ≠ some '\r')

/-- A line and a column where a text ends or no blank character stands. -/
def IsPlace (source : List Char) (line column : Nat) : Prop :=
  ∃ read rest, source = read ++ rest ∧ line = (Position.after read).line ∧ column = (Position.after read).column ∧
    ∀ c ∈ rest.head?, isBlank c = false

variable {tail : List Char}

theorem linesFrom_append (h : '\n' ∉ tail) (line cs : List Char) :
    linesFrom line (tail ++ cs) = linesFrom (tail.reverse ++ line) cs := by
  induction tail generalizing line with
  | nil => rfl
  | cons c tail ih =>
    rw [List.mem_cons, not_or] at h
    rw [List.cons_append, linesFrom, ih h.2, List.reverse_cons, List.append_assoc, List.singleton_append]
    exact fun hc => h.1 hc.symm

/-- A line that is ended loses a carriage return before the line feed. -/
theorem exists_linesFrom_newline (line cs : List Char) :
    ∃ kept, linesFrom line ('\n' :: cs) = String.ofList kept.reverse :: linesFrom [] cs ∧
      (line = '\r' :: kept ∨ line = kept ∧ line.head? ≠ some '\r') := by
  by_cases h : ∃ kept, line = '\r' :: kept
  · obtain ⟨kept, rfl⟩ := h
    exact ⟨kept, rfl, .inl rfl⟩
  · refine ⟨line, ?_, .inr ⟨rfl, ?_⟩⟩
    · rw [linesFrom]
      exact fun kept hkept => h ⟨kept, hkept⟩
    · intro hhead
      obtain ⟨kept, hkept⟩ := List.head?_eq_some_iff.1 hhead
      exact h ⟨kept, hkept⟩

theorem exists_lines_newline (h : '\n' ∉ tail) (cs : List Char) :
    ∃ content, linesFrom [] (tail ++ '\n' :: cs) = String.ofList content :: linesFrom [] cs ∧
      (tail = content ++ ['\r'] ∨ tail = content ∧ content.getLast? ≠ some '\r') := by
  obtain ⟨kept, hlines, hkept⟩ := exists_linesFrom_newline tail.reverse cs
  refine ⟨kept.reverse, ?_, ?_⟩
  · rw [linesFrom_append h, List.append_nil, hlines]
  · rw [List.reverse_eq_iff, List.reverse_eq_iff, List.reverse_cons, List.head?_reverse] at hkept
    rcases hkept with hkept | ⟨hkept, hlast⟩
    · exact .inl hkept
    · exact .inr ⟨hkept, hkept ▸ hlast⟩

/-- The lines up to a line feed come first. -/
theorem exists_linesFrom_before (before : List Char) (h : before.getLast? = some '\n') (line cs : List Char) :
    ∃ first, first.length = before.count '\n' ∧ linesFrom line (before ++ cs) = first ++ linesFrom [] cs := by
  induction before generalizing line with
  | nil => cases h
  | cons c before ih =>
    by_cases hc : c = '\n'
    · subst hc
      obtain ⟨kept, hlines, -⟩ := exists_linesFrom_newline line (before ++ cs)
      rw [List.cons_append, hlines, List.count_cons_self]
      cases before with
      | nil => exact ⟨[_], rfl, rfl⟩
      | cons d before =>
        obtain ⟨first, hlength, heq⟩ := ih (by simpa using h) []
        refine ⟨_ :: first, ?_, congrArg (_ :: ·) heq⟩
        rw [List.length_cons, hlength]
    · have hne : before ≠ [] := by
        rintro rfl
        exact hc (Option.some.inj h)
      obtain ⟨first, hlength, heq⟩ := ih (by rwa [List.getLast?_cons_of_ne_nil hne] at h) (c :: line)
      refine ⟨first, ?_, ?_⟩
      · rw [hlength, List.count_cons_of_ne hc]
      · rw [List.cons_append, linesFrom, heq]
        exact hc

theorem exists_lines_before {before : List Char} (h : (Position.after before).column = 1) (cs : List Char) :
    ∃ first, first.length + 1 = (Position.after before).line ∧
      linesFrom [] (before ++ cs) = first ++ linesFrom [] cs := by
  rcases List.eq_nil_or_concat' before with rfl | ⟨front, c, rfl⟩
  · exact ⟨[], rfl, rfl⟩
  · have hc : c = '\n' := by
      by_contra hc
      rw [Position.after_concat, Position.next, if_neg hc] at h
      cases h
    obtain ⟨first, hlength, heq⟩ := exists_linesFrom_before (front ++ [c]) (by simp [hc]) [] cs
    exact ⟨first, congrArg (· + 1) hlength, heq⟩

theorem oneLine_linesFrom (line cs : List Char) (hline : '\n' ∉ line) : ∀ r ∈ linesFrom line cs, OneLine r := by
  induction cs generalizing line with
  | nil =>
    rw [linesFrom]
    split
    · exact nofun
    · rw [List.forall_mem_singleton, oneLine_ofList, List.mem_reverse]
      exact hline
  | cons c cs ih =>
    by_cases hc : c = '\n'
    · subst hc
      obtain ⟨kept, hlines, hkept⟩ := exists_linesFrom_newline line cs
      rw [hlines, List.forall_mem_cons]
      refine ⟨?_, ih [] nofun⟩
      rw [oneLine_ofList, List.mem_reverse]
      rcases hkept with rfl | ⟨rfl, -⟩
      · exact fun h => hline (List.mem_cons_of_mem _ h)
      · exact hline
    · rw [linesFrom]
      · refine ih (c :: line) ?_
        rw [List.mem_cons, not_or]
        exact ⟨Ne.symm hc, hline⟩
      · exact hc

/-- The line around a place where the text ends or no blank character stands. -/
theorem exists_line_around (read rest : List Char) (hrest : ∀ c ∈ rest.head?, isBlank c = false) :
    ∃ content, IsLine (read ++ rest) (Position.after read).line content ∧
      rest.head? = content[(Position.after read).column - 1]? ∧
      (rest = [] → content.length = (Position.after read).column - 1) ∧
      ((Position.after read).line ≤ (linesFrom [] (read ++ rest)).length →
        ∃ first last, linesFrom [] (read ++ rest) = first ++ String.ofList content :: last ∧
          first.length + 1 = (Position.after read).line) := by
  obtain ⟨before, tail, rfl, htail, hcolumn, hline, hlength⟩ := Position.exists_lineStart read
  rw [← hline, ← hlength, Nat.add_sub_cancel, List.append_assoc]
  by_cases hmem : '\n' ∈ rest
  · obtain ⟨front, cs, rfl, hfront⟩ := List.eq_append_cons_of_mem hmem
    -- The place is before the end of the line, which is blank.
    obtain ⟨c, front, rfl⟩ : ∃ c front', front = c :: front' := by
      cases front with
      | nil => cases hrest '\n' rfl
      | cons c front => exact ⟨c, front, rfl⟩
    have hc : c ≠ '\r' := by
      rintro rfl
      cases hrest '\r' rfl
    have hown : '\n' ∉ tail ++ c :: front := by
      rw [List.mem_append, not_or]
      exact ⟨htail, hfront⟩
    obtain ⟨content, hcontent, hend⟩ := exists_lines_newline hown cs
    obtain ⟨first, hfirst, hlines⟩ := exists_lines_before hcolumn (tail ++ c :: front ++ '\n' :: cs)
    rw [← List.append_assoc tail]
    refine ⟨content, ?_, ?_, nofun, fun _ => ⟨first, linesFrom [] cs, ?_, hfirst⟩⟩
    · rcases hend with hend | ⟨rfl, hend⟩
      · refine ⟨before, '\r' :: '\n' :: cs, ?_, rfl, hcolumn, ?_, .inr (.inl ⟨cs, rfl⟩)⟩
        · rw [hend]
          simp
        · rw [hend, List.mem_append, not_or] at hown
          exact hown.1
      · refine ⟨before, '\n' :: cs, ?_, rfl, hcolumn, hown, .inr (.inr ⟨⟨cs, rfl⟩, hend⟩)⟩
        simp
    · have hat : (tail ++ c :: front)[tail.length]? = some c := by simp
      rcases hend with hend | ⟨rfl, -⟩
      · rw [hend] at hat
        rw [List.getElem?_append] at hat
        split at hat
        · exact hat.symm
        · exact absurd (List.mem_singleton.1 (List.mem_of_getElem? hat)) hc
      · exact hat.symm
    · rw [hlines, hcontent]
  · have hown : '\n' ∉ tail ++ rest := by
      rw [List.mem_append, not_or]
      exact ⟨htail, hmem⟩
    obtain ⟨first, hfirst, hlines⟩ := exists_lines_before hcolumn (tail ++ rest)
    have hlast : linesFrom [] (tail ++ rest) = if tail ++ rest = [] then [] else [String.ofList (tail ++ rest)] := by
      rw [← List.append_nil (tail ++ rest), linesFrom_append hown, linesFrom]
      simp only [List.append_nil, List.isEmpty_reverse, List.isEmpty_iff, List.reverse_reverse]
    refine ⟨tail ++ rest, ⟨before, [], ?_, rfl, hcolumn, hown, .inl rfl⟩, ?_, ?_, fun hle => ?_⟩
    · rw [List.append_nil]
    · rw [List.getElem?_append_right (Nat.le_refl _), Nat.sub_self, List.head?_eq_getElem?]
    · rintro rfl
      rw [List.append_nil]
    · rw [hlines, List.length_append] at hle
      rw [hlines, hlast]
      split
      · next hempty =>
        -- There is no such line.
        rw [hlast, if_pos hempty, List.length_nil] at hle
        omega
      · exact ⟨first, [], rfl, hfirst⟩

end Text

namespace Diagnostic

open Text (OneLine oneLine_append ofRows)

/-! ## Rows of a report -/

/-- The first row of a report that is not empty. -/
def heading (d : Diagnostic) : String :=
  d.title ++ " at line " ++ toString d.line ++ ", column " ++ toString d.column ++ ": " ++ d.message

def contextRow (number : Nat) (content : String) : String := "   " ++ lineNumber number ++ " | " ++ content

/-- What stands before the line of the error. -/
def gutter (number : Nat) : String := " → " ++ lineNumber number ++ " | "

/-- What stands before the caret. -/
def margin (column : Nat) : String := "        | " ++ spaces (column - 1)

def arrowRow (number : Nat) (content : String) : String := gutter number ++ content

def caretRow (column : Nat) : String := margin column ++ "^"

/-- The rows for a line of the source and its index. -/
def lineRows (d : Diagnostic) (line : String × Nat) : List String :=
  if line.2 = d.line - 1 then [arrowRow (line.2 + 1) line.1, caretRow d.column] else [contextRow (line.2 + 1) line.1]

/-- The lines of the source that are shown, with their indices. -/
def shownLines (d : Diagnostic) (lines : List String) : List (String × Nat) :=
  ((lines.take (d.line - 1 + 3)).drop (d.line - 1 - 2)).zipIdx (d.line - 1 - 2)

theorem report_eq_ofRows {d : Diagnostic} (hcolumn : 0 < d.column) (htrace : d.trace = []) (source : String) :
    d.report source = ofRows ("" :: d.heading :: "" :: (d.shownLines (Text.lines source)).flatMap d.lineRows) := by
  have hline (line : String × Nat) :
      sourceLine (line.2 == d.line - 1) d.column (line.2 + 1) line.1 = ofRows (d.lineRows line) := by
    unfold sourceLine lineRows
    by_cases h : line.2 = d.line - 1
    · simp [h, hcolumn, ofRows, arrowRow, gutter, caretRow, margin, String.append_assoc]
    · simp [h, ofRows, contextRow]
  have hexcerpt : d.excerpt source = ofRows ((d.shownLines (Text.lines source)).flatMap d.lineRows) := by
    calc d.excerpt source
        = String.join ((d.shownLines (Text.lines source)).map fun line => ofRows (d.lineRows line)) := by
          simp only [← hline]
          rfl
      _ = ofRows ((d.shownLines (Text.lines source)).flatMap d.lineRows) := by
          rw [List.flatMap_def, ← Text.join_ofRows, List.map_map]
          rfl
  rw [report, hexcerpt, htrace, Text.ofRows_cons, Text.ofRows_cons, Text.ofRows_cons]
  have hfeeds (s : String) : "\n\n" ++ s = "\n" ++ ("\n" ++ s) := by
    rw [← String.append_assoc]
    rfl
  have hword (s : String) : toString s = s := rfl
  simp [heading, traceText, hcolumn, hword, hfeeds, String.append_assoc]

section Shown

variable {d : Diagnostic} {lines : List String}

theorem contextRow_of_mem {shown : List (String × Nat)} (h : ∀ line ∈ shown, line.2 ≠ d.line - 1) :
    ∀ row ∈ shown.flatMap d.lineRows, ∃ number content, row = contextRow number content := by
  intro row hrow
  obtain ⟨line, hline, hrow⟩ := List.mem_flatMap.1 hrow
  rw [lineRows, if_neg (h line hline), List.mem_singleton] at hrow
  exact ⟨_, _, hrow⟩

/-- The rows around the line of the error. -/
theorem exists_shownRows {first : List String} (content : String) (last : List String) (h : first.length + 1 = d.line) :
    ∃ above below, (d.shownLines (first ++ content :: last)).flatMap d.lineRows =
        above ++ arrowRow d.line content :: caretRow d.column :: below ∧
      ∀ row ∈ above ++ below, ∃ number content, row = contextRow number content := by
  have hindex : d.line - 1 = first.length := by omega
  have hshown : d.shownLines (first ++ content :: last) =
      (first.drop (first.length - 2)).zipIdx (first.length - 2) ++ (content, first.length) ::
        (last.take 2).zipIdx (first.length + 1) := by
    rw [shownLines, hindex, List.take_length_add_append, List.drop_append_of_le_length (by omega), List.zipIdx_append,
      List.length_drop, show first.length - 2 + (first.length - (first.length - 2)) = first.length by omega]
    rfl
  refine ⟨((first.drop (first.length - 2)).zipIdx (first.length - 2)).flatMap d.lineRows,
    ((last.take 2).zipIdx (first.length + 1)).flatMap d.lineRows, ?_, ?_⟩
  · rw [hshown, List.flatMap_append, List.flatMap_cons, lineRows, if_pos hindex.symm, h]
    rfl
  · rw [← List.flatMap_append]
    apply contextRow_of_mem
    intro line hline
    rcases List.mem_append.1 hline with hline | hline
    · have := (List.mem_zipIdx hline).2.1
      rw [List.length_drop] at this
      omega
    · have := (List.mem_zipIdx hline).1
      omega

theorem contextRow_of_lt (h : lines.length < d.line) :
    ∀ row ∈ (d.shownLines lines).flatMap d.lineRows, ∃ number content, row = contextRow number content := by
  apply contextRow_of_mem
  intro line hline
  have := List.mem_zipIdx hline
  rw [List.length_drop, List.length_take] at this
  omega

theorem oneLine_spaces (n : Nat) : OneLine (spaces n) := by
  rw [spaces, Text.oneLine_ofList, List.mem_replicate]
  exact fun h => absurd h.2 (by decide)

theorem oneLine_lineNumber (n : Nat) : OneLine (lineNumber n) :=
  oneLine_append.2 ⟨oneLine_spaces _, Text.oneLine_nat n⟩

theorem oneLine_shownRows (h : ∀ line ∈ lines, OneLine line) :
    ∀ row ∈ (d.shownLines lines).flatMap d.lineRows, OneLine row := by
  intro row hrow
  obtain ⟨line, hline, hrow⟩ := List.mem_flatMap.1 hrow
  have hcontent : OneLine line.1 := by
    have hmem := List.fst_mem_of_mem_zipIdx hline
    exact h _ (List.mem_of_mem_take (List.mem_of_mem_drop hmem))
  have hnumber := oneLine_lineNumber (line.2 + 1)
  unfold lineRows at hrow
  split at hrow
  · rcases List.mem_pair.1 hrow with rfl | rfl
    · simp only [arrowRow, gutter, oneLine_append]
      exact ⟨⟨⟨by decide, hnumber⟩, by decide⟩, hcontent⟩
    · simp only [caretRow, margin, oneLine_append]
      exact ⟨⟨by decide, oneLine_spaces _⟩, by decide⟩
  · rw [List.mem_singleton.1 hrow]
    simp only [contextRow, oneLine_append]
    exact ⟨⟨⟨by decide, hnumber⟩, by decide⟩, hcontent⟩

theorem oneLine_heading (h : OneLine d.message) : OneLine d.heading := by
  have htitle : OneLine d.title := by
    unfold title
    split <;> decide
  simp only [heading, oneLine_append]
  exact ⟨⟨⟨⟨⟨⟨htitle, by decide⟩, Text.oneLine_nat _⟩, by decide⟩, Text.oneLine_nat _⟩, by decide⟩, h⟩

end Shown

/-! ## Marked rows -/

/-- The row has an arrow in its margin. -/
def Marked (row : String) : Prop := row.toList[1]? = some '→'

theorem not_marked_contextRow (number : Nat) (content : String) : ¬ Marked (contextRow number content) := by
  simp [Marked, contextRow]

theorem not_marked_caretRow (column : Nat) : ¬ Marked (caretRow column) := by
  simp [Marked, caretRow, margin]

theorem not_marked_heading (d : Diagnostic) : ¬ Marked d.heading := by
  unfold Marked heading title
  split <;> simp

/-! ## Pointing -/

/-- A row of the report shows the line of the error behind an arrow and its number, and in the row below it a caret
stands under the character that the error begins with, or behind the line if the error is at the end of the text. -/
structure Pointer (d : Diagnostic) (source gutter content margin : String) : Prop where
  line : Text.IsLine source.toList d.line content.toList
  gutter_eq : ∃ blanks, gutter = " →" ++ spaces blanks ++ toString d.line ++ " | "
  rows : [gutter ++ content, margin ++ "^"] <:+: Text.rows (d.report source)
  single : '^' ∉ margin.toList
  under : margin.length = gutter.length + (d.column - 1)
  place : ∃ read rest, source.toList = read ++ rest ∧ d.line = (Position.after read).line ∧
    d.column = (Position.after read).column ∧ rest.head? = content.toList[d.column - 1]? ∧
    (rest = [] → content.length = d.column - 1)

/-- The report points at the error. -/
def Points (d : Diagnostic) (source : String) : Prop := ∃ gutter content margin, Pointer d source gutter content margin

/-- What is known of an error in the text of a program. -/
structure Placed (d : Diagnostic) (source : String) : Prop where
  trace : d.trace = []
  message : OneLine d.message
  place : Text.IsPlace source.toList d.line d.column

section Points

variable {d : Diagnostic} {source : String}

theorem Placed.column_pos (h : d.Placed source) : 0 < d.column := by
  obtain ⟨read, _, -, -, hcolumn, -⟩ := h.place
  rw [hcolumn]
  exact Nat.succ_pos _

theorem Placed.rows_report (h : d.Placed source) : Text.rows (d.report source) =
    "" :: d.heading :: "" :: (d.shownLines (Text.lines source)).flatMap d.lineRows ++ [""] := by
  rw [report_eq_ofRows h.column_pos h.trace, Text.rows_ofRows]
  have hempty : OneLine "" := by decide
  have hshown := oneLine_shownRows (d := d) (Text.oneLine_linesFrom [] source.toList nofun)
  exact List.forall_mem_cons.2 ⟨hempty, List.forall_mem_cons.2 ⟨oneLine_heading h.message,
    List.forall_mem_cons.2 ⟨hempty, hshown⟩⟩⟩

theorem Pointer.marked {gutter content margin : String} (h : Pointer d source gutter content margin) :
    Marked (gutter ++ content) := by
  obtain ⟨blanks, hgutter⟩ := h.gutter_eq
  simp [Marked, hgutter]

/-- The line of the error, if there is one, is the only row with an arrow, and the caret is below it. -/
theorem Placed.exists_rows (h : d.Placed source) {first last : List String} {content : String}
    (hlines : Text.lines source = first ++ content :: last) (hfirst : first.length + 1 = d.line) :
    ∃ upper lower, Text.rows (d.report source) = upper ++ arrowRow d.line content :: caretRow d.column :: lower ∧
      ∀ row ∈ upper ++ lower, ¬ Marked row := by
  obtain ⟨above, below, hshown, hcontext⟩ := exists_shownRows content last hfirst
  refine ⟨"" :: d.heading :: "" :: above, below ++ [""], ?_, ?_⟩
  · rw [h.rows_report, hlines, hshown]
    simp
  · have hempty : ¬ Marked "" := by simp [Marked]
    have hcontext : ∀ row ∈ above ++ below, ¬ Marked row := by
      intro row hrow
      obtain ⟨number, content, rfl⟩ := hcontext row hrow
      exact not_marked_contextRow _ _
    rw [List.forall_mem_append] at hcontext
    simp only [List.cons_append, List.forall_mem_cons, List.forall_mem_append]
    exact ⟨hempty, not_marked_heading d, hempty, hcontext.1, hcontext.2, hempty, List.forall_mem_nil _⟩

/-- Rows with an arrow in the first of them are those of the error. -/
theorem eq_of_marked {before behind upper lower : List String} {row next arrow caret : String}
    (heq : before ++ row :: next :: behind = upper ++ arrow :: caret :: lower) (hrow : Marked row)
    (hcaret : ¬ Marked caret) (hunmarked : ∀ row ∈ upper ++ lower, ¬ Marked row) : row = arrow ∧ next = caret := by
  obtain ⟨hupper, hlower⟩ := List.forall_mem_append.1 hunmarked
  rcases List.append_eq_append_iff.1 heq with ⟨others, rfl, hothers⟩ | ⟨others, -, hothers⟩
  · cases others with
    | nil =>
      cases hothers
      exact ⟨rfl, rfl⟩
    | cons other others =>
      obtain ⟨rfl, -⟩ := List.cons.inj hothers
      exact absurd hrow (hupper row (by simp))
  · cases others with
    | nil =>
      cases hothers
      exact ⟨rfl, rfl⟩
    | cons other others =>
      have hmem : row ∈ caret :: lower := by
        rw [(List.cons.inj hothers).2]
        simp
      rcases List.mem_cons.1 hmem with rfl | hmem
      · exact absurd hrow hcaret
      · exact absurd hrow (hlower row hmem)

theorem length_spaces (n : Nat) : (spaces n).length = n := by
  rw [spaces, String.length_ofList, List.length_replicate]

theorem length_margin (column : Nat) : (margin column).length = 10 + (column - 1) := by
  rw [margin, String.length_append, length_spaces]
  rfl

theorem gutter_eq (n : Nat) :
    gutter n = " →" ++ spaces (4 - (toString n).length + 1) ++ toString n ++ " | " := by
  rw [← String.toList_inj]
  simp only [gutter, lineNumber, spaces, String.toList_append, String.toList_ofList, List.append_assoc]
  rfl

theorem length_gutter (n : Nat) : (gutter n).length = 6 + max 4 (toString n).length := by
  rw [gutter, lineNumber, String.length_append, String.length_append, String.length_append, length_spaces]
  have harrow : " → ".length = 3 := rfl
  have hbar : " | ".length = 3 := rfl
  omega

/-- The arrow and the number can be told from the row. -/
theorem gutter_unique {blanks n : Nat} {content content' : String}
    (h : " →" ++ spaces blanks ++ toString n ++ " | " ++ content = gutter n ++ content') :
    " →" ++ spaces blanks ++ toString n ++ " | " = gutter n := by
  have hdigit (cs : List Char) : ((toString n).toList ++ cs).head? ≠ some ' ' := by
    rw [Nat.toString_eq_ofList_toDigits, String.toList_ofList, List.head?_append_of_ne_nil _ Nat.toDigits_ne_nil]
    intro hhead
    cases Nat.isDigit_of_mem_toDigits (by decide) (by decide) (List.mem_of_head? hhead)
  rw [gutter_eq] at h ⊢
  rw [← String.toList_inj] at h
  simp only [spaces, String.toList_append, String.toList_ofList, List.append_assoc] at h
  rw [(Text.replicate_append_inj (hdigit _) (hdigit _) (List.append_cancel_left h)).1]

/-- Without the line of the error there is no arrow. -/
theorem Placed.not_points (h : d.Placed source) (hlines : (Text.lines source).length < d.line) : ¬ d.Points source := by
  rintro ⟨gutter, content, margin, hpointer⟩
  have hmem : gutter ++ content ∈ Text.rows (d.report source) := hpointer.rows.subset (List.mem_cons_self ..)
  have hmarked := hpointer.marked
  have hempty : ¬ Marked "" := by simp [Marked]
  rw [h.rows_report] at hmem
  generalize gutter ++ content = row at hmem hmarked
  simp only [List.cons_append, List.mem_cons, List.mem_append, List.not_mem_nil, or_false] at hmem
  rcases hmem with rfl | rfl | rfl | hmem | rfl
  · exact hempty hmarked
  · exact not_marked_heading d hmarked
  · exact hempty hmarked
  · obtain ⟨number, content, rfl⟩ := contextRow_of_lt hlines row hmem
    exact not_marked_contextRow _ _ hmarked
  · exact hempty hmarked

/-- The arrow and the caret are aligned only where the number of the line fits into its columns. -/
theorem Placed.width_of_points (h : d.Placed source) (hle : d.line ≤ (Text.lines source).length)
    (hpoints : d.Points source) : (toString d.line).length ≤ 4 := by
  obtain ⟨read, rest, hsource, hline, -, hrest⟩ := h.place
  obtain ⟨content, -, -, -, hlines⟩ := Text.exists_line_around read rest hrest
  rw [← hsource, ← hline] at hlines
  obtain ⟨first, last, hlines, hfirst⟩ := hlines hle
  obtain ⟨upper, lower, hrows, hunmarked⟩ := h.exists_rows hlines hfirst
  obtain ⟨gutter', content', margin', hpointer⟩ := hpoints
  obtain ⟨before, behind, heq⟩ := hpointer.rows
  rw [hrows, List.append_assoc, List.cons_append, List.cons_append, List.nil_append] at heq
  obtain ⟨harrow, hcaret⟩ := eq_of_marked heq hpointer.marked (not_marked_caretRow _) hunmarked
  have hmargin : margin' = margin d.column := by
    rw [← String.append_left_inj]
    exact hcaret
  have hgutter : gutter' = gutter d.line := by
    obtain ⟨blanks, hgutter⟩ := hpointer.gutter_eq
    rw [hgutter] at harrow ⊢
    exact gutter_unique harrow
  have hunder := hpointer.under
  rw [hmargin, hgutter, length_margin, length_gutter] at hunder
  omega

theorem Placed.points (h : d.Placed source) (hle : d.line ≤ (Text.lines source).length)
    (hwidth : (toString d.line).length ≤ 4) : d.Points source := by
  obtain ⟨read, rest, hsource, hline, hcolumn, hrest⟩ := h.place
  obtain ⟨content, hcontent, hhead, hend, hlines⟩ := Text.exists_line_around read rest hrest
  rw [← hsource, ← hline] at hcontent hlines
  rw [← hcolumn] at hhead hend
  obtain ⟨first, last, hlines, hfirst⟩ := hlines hle
  obtain ⟨upper, lower, hrows, -⟩ := h.exists_rows hlines hfirst
  refine ⟨gutter d.line, String.ofList content, margin d.column, ?_⟩
  constructor
  · rw [String.toList_ofList]
    exact hcontent
  · exact ⟨_, gutter_eq d.line⟩
  · refine ⟨upper, lower, ?_⟩
    rw [hrows, List.append_assoc]
    rfl
  · simp [margin, spaces]
  · rw [length_margin, length_gutter, Nat.max_eq_left hwidth]
  · refine ⟨read, rest, hsource, hline, hcolumn, ?_, ?_⟩
    · rw [String.toList_ofList]
      exact hhead
    · rw [String.length_ofList]
      exact hend

end Points

end Diagnostic

/-! ## Where errors are -/

open Text (OneLine oneLine_append toString_string)

namespace Lexer

variable {source read : List Char} {l : Lexer}

/-- A gap ends before a word or at the end. -/
theorem At.isPlace (h : At source read l) :
    Text.IsPlace source l.skipGap.position.line l.skipGap.position.column := by
  have hgap := h.skip (Token.gapLength false l.rest)
  refine ⟨_, _, hgap.source_eq, congrArg Position.line hgap.position_eq, congrArg Position.column hgap.position_eq, ?_⟩
  intro c hc
  obtain ⟨cs, hcs⟩ := List.head?_eq_some_iff.1 hc
  exact not_isBlank_of_gapLength hcs

theorem Spells.isPlace {ws : List Token.Proper} {stop : Token} (h : Spells l ws stop) (hl : At source read l) :
    ∀ t ∈ ws.map (·.val) ++ [stop], Text.IsPlace source t.span.line t.span.column := by
  induction h generalizing read with
  | stop _ =>
    rw [List.map_nil, List.nil_append, List.forall_mem_singleton]
    exact hl.isPlace
  | @word l kind n ws stop _ _ ih =>
    rw [List.map_cons, List.cons_append, List.forall_mem_cons]
    exact ⟨hl.isPlace, ih ((hl.skip _).skip n)⟩

theorem error_isPlace {error : LexError} (hl : At source read l) (h : l.tokenize.1 = .error error) :
    Text.IsPlace source error.line error.column ∧ Text.isBlank error.character = false := by
  induction l using tokenize.induct generalizing read with
  | case1 l _ kind n hlexeme _ _ _ _ _ =>
    rename_i ih
    rw [tokenize_of_lexeme hlexeme] at h
    cases hrest : (l.skipGap.skip n).tokenize.1 with
    | ok tokens =>
      rw [hrest] at h
      cases h
    | error e =>
      rw [hrest] at h
      cases h
      exact ih ((hl.skip _).skip n) hrest
  | case2 l _ hlexeme =>
    rename_i hrest
    rw [tokenize_of_stop hrest] at h
    cases h
  | case3 l _ hlexeme c cs =>
    rename_i hrest
    rw [tokenize_of_none hrest hlexeme] at h
    cases h
    exact ⟨hl.isPlace, not_isBlank_of_gapLength hrest⟩

end Lexer

theorem Token.isPlace_of_source {source : String} {tokens : List Token} (h : Token.ofSource source = .ok tokens) :
    ∀ t ∈ tokens, Text.IsPlace source.toList t.span.line t.span.column := by
  obtain ⟨ws, stop, hspells, rfl⟩ := Lexer.ofSource_eq_ok_iff.1 h
  exact hspells.isPlace (Lexer.at_ofString source)

theorem Token.ne_nil_of_source {source : String} {tokens : List Token} (h : Token.ofSource source = .ok tokens) :
    tokens ≠ [] := by
  obtain ⟨ws, stop, -, rfl⟩ := Lexer.ofSource_eq_ok_iff.1 h
  exact List.append_ne_nil_of_right_ne_nil _ (List.cons_ne_nil _ _)

namespace Expr

theorem mem_leavesAll {k : Token.Kind} {e : Expr} {es : List Expr} (he : e ∈ es) (hk : k ∈ e.leaves) :
    k ∈ leavesAll es := by
  induction es with
  | nil => cases he
  | cons e' es ih =>
    rw [leavesAll, List.mem_append]
    rcases List.mem_cons.1 he with rfl | he
    · exact .inl hk
    · exact .inr (ih he)

theorem Within.leaves {node e : Expr} (h : node.Within e) : ∀ k ∈ node.leaves, k ∈ e.leaves := by
  induction h with
  | self => exact fun _ => id
  | @part child e hchild _ ih =>
    intro k hk
    have hchildLeaf := ih k hk
    cases e with
    | number | name => cases hchild
    | call | block => exact mem_leavesAll hchild hchildLeaf
    | lambda span params body frame label =>
      rw [Expr.leaves, List.mem_append]
      rcases List.mem_append.1 hchild with hparam | hbody
      · exact .inl (mem_leavesAll hparam hchildLeaf)
      · rw [List.mem_singleton.1 hbody] at hchildLeaf
        exact .inr hchildLeaf
    | assign span x value var =>
      rw [List.mem_singleton.1 hchild] at hchildLeaf
      exact List.mem_cons_of_mem _ hchildLeaf
    | cond span test onTrue onFalse =>
      have hparts := mem_leavesAll hchild hchildLeaf
      simpa [leavesAll, Expr.leaves, parts] using hparts

/-- The message of an error about a node stays on one line. -/
theorem oneLine_message {error : ResolveError} {node : Expr} (h : error.About node)
    (hleaves : ∀ k ∈ node.leaves, Token.Spellable k) : OneLine error.problem.message := by
  have hname {x : String} (hx : node.ownName? = some x) : OneLine x := by
    have hmem : .identifier x ∈ node.leaves := by
      cases node with
      | name span y var =>
        cases hx
        exact List.mem_singleton_self _
      | assign span y value var =>
        cases hx
        exact List.mem_cons_self ..
      | _ => cases hx
    exact (hleaves _ hmem).oneLine
  have habout := h.problem
  cases hproblem : error.problem with
  | undefined x | usedBeforeAssignment x | assignmentOutsideBlock x | duplicateParameter x | assignedTwice x =>
    rw [hproblem] at habout
    unfold ResolveProblem.message
    simp only [oneLine_append, toString_string, hname habout]
    decide
  | parameterNotName found =>
    rw [hproblem] at habout
    cases habout
    unfold ResolveProblem.message
    simp only [oneLine_append, toString_string, oneLine_text _ hleaves]
    decide
  | blockWithoutResult | strayExpression =>
    unfold ResolveProblem.message
    decide

end Expr

theorem ParseProblem.About.oneLine {problem : ParseProblem} {found : Token.Kind} (h : problem.About found)
    (hfound : Token.Spellable found) : OneLine problem.message := by
  cases problem with
  | noExpression k =>
    cases h
    unfold message
    simp only [oneLine_append, toString_string, hfound.oneLine]
    decide
  | expected w k =>
    obtain ⟨hw, rfl⟩ := h
    have hwanted : ∀ w ∈ Parser.wanted, OneLine w.text := by decide
    unfold message
    simp only [oneLine_append, toString_string, hfound.oneLine, hwanted w hw]
    decide
  | nestedTooDeeply | noProgram | endOfInput | missingArrow => decide

theorem LexError.oneLine_message {error : LexError} (h : Text.isBlank error.character = false) :
    OneLine error.message := by
  have hc : OneLine (toString error.character) := by
    change '\n' ∉ (String.singleton error.character).toList
    rw [String.toList_singleton, List.mem_singleton]
    rintro hc
    rw [← hc] at h
    cases h
  unfold message
  simp only [oneLine_append, toString_string, hc]
  decide

namespace Interpreter

variable {i : Interpreter} {source : String} {d : Diagnostic} {log log' : Array Event}

theorem Rejects.placed (h : i.Rejects source d) : d.Placed source := by
  cases h with
  | lexical h =>
    obtain ⟨hplace, hblank⟩ := Lexer.error_isPlace (Lexer.at_ofString source) h
    exact ⟨rfl, LexError.oneLine_message hblank, hplace⟩
  | @parse tokens e htokens h =>
    have hbegins := Expr.ofTokens_begins (T := (· ∈ tokens)) (Token.ne_nil_of_source htokens) fun _ => id
    rw [h] at hbegins
    obtain ⟨t, ht, hline, hcolumn, habout⟩ := hbegins
    refine ⟨rfl, habout.oneLine (Token.spellable_of_source htokens t ht), ?_⟩
    have hplace := Token.isPlace_of_source htokens t ht
    rw [← hline, ← hcolumn] at hplace
    exact hplace
  | @resolution tokens tree tree' e r htokens htree h =>
    have hbegins := Expr.ofTokens_begins (T := (· ∈ tokens)) (Token.ne_nil_of_source htokens) fun _ => id
    rw [htree] at hbegins
    have hblamed : tree.Blamed (fun error => (Diagnostic.ofResolveError error).Placed source) := by
      intro node error hnode habout
      obtain ⟨t, ht, hline, hcolumn⟩ := hbegins node hnode
      have hleaves := Expr.spellable_of_source htokens htree
      refine ⟨rfl, Expr.oneLine_message habout fun k hk => hleaves k (hnode.leaves k hk), ?_⟩
      have hplace := Token.isPlace_of_source htokens t ht
      rw [← hline, ← hcolumn, ← habout.span] at hplace
      exact hplace
    have hfails := Expr.program_fails hblamed (Resolver.new i.globals.names)
    rw [h] at hfails
    exact hfails

/-- The report of an error points at it if and only if its line is among those that are numbered, which leaves out the
end of a text behind a line feed, and the number of the line has no more than four digits. -/
theorem report_points_iff (h : i.compile source log = .error d log') :
    d.Points source ↔ d.line ≤ (Text.lines source).length ∧ d.line < 10000 := by
  have hplaced := (rejects_of_compile h).placed
  have hwidth : (toString d.line).length ≤ 4 ↔ d.line < 10000 := Nat.length_repr_le_iff (by decide)
  rw [← hwidth]
  constructor
  · intro hpoints
    have hle : d.line ≤ (Text.lines source).length := by
      by_contra hlt
      exact hplaced.not_points (Nat.lt_of_not_le hlt) hpoints
    exact ⟨hle, hplaced.width_of_points hle hpoints⟩
  · rintro ⟨hle, hfits⟩
    exact hplaced.points hle hfits

/-- An unknown name on a second line, behind a carriage return and a character of two bytes. -/
theorem report_points_iff_unknownName :
    ∃ d log, (Interpreter.standard .standard).compile "// é\r\n  y + 1\r\n" #[] = .error d log ∧
      (d.line, d.column) = (2, 3) ∧ d.Points "// é\r\n  y + 1\r\n" := by
  have hplace : (match (Interpreter.standard .standard).compile "// é\r\n  y + 1\r\n" #[] with
      | .ok _ _ => none
      | .error d _ => some (d.line, d.column)) = some (2, 3) := by decide +kernel
  cases hcompile : (Interpreter.standard .standard).compile "// é\r\n  y + 1\r\n" #[] with
  | ok p log =>
    rw [hcompile] at hplace
    cases hplace
  | error d log =>
    rw [hcompile] at hplace
    have hplace : (d.line, d.column) = (2, 3) := Option.some.inj hplace
    have hline : d.line = 2 := congrArg Prod.fst hplace
    have hlines : (Text.lines "// é\r\n  y + 1\r\n").length = 2 := by decide +kernel
    refine ⟨d, log, rfl, hplace, (report_points_iff hcompile).2 ?_⟩
    rw [hline, hlines]
    decide

/-- Where an operand is missing at the end of a text, behind a line feed, the report points nowhere. -/
theorem report_misses_end : ∃ d log, (Interpreter.standard .standard).compile "1 +\n" #[] = .error d log ∧
    (d.line, d.column) = (2, 1) ∧ ¬ d.Points "1 +\n" := by
  have hplace : (match (Interpreter.standard .standard).compile "1 +\n" #[] with
      | .ok _ _ => none
      | .error d _ => some (d.line, d.column)) = some (2, 1) := by decide +kernel
  cases hcompile : (Interpreter.standard .standard).compile "1 +\n" #[] with
  | ok p log =>
    rw [hcompile] at hplace
    cases hplace
  | error d log =>
    rw [hcompile] at hplace
    have hplace : (d.line, d.column) = (2, 1) := Option.some.inj hplace
    have hline : d.line = 2 := congrArg Prod.fst hplace
    have hlines : (Text.lines "1 +\n").length = 1 := by decide +kernel
    refine ⟨d, log, rfl, hplace, (rejects_of_compile hcompile).placed.not_points ?_⟩
    rw [hline, hlines]
    decide

end Interpreter

end ClosureLang
