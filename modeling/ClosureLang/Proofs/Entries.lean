import ClosureLang.CommandLine.Repl
import ClosureLang.Proofs.Rejections

/-!
# Entries of a session

An interactive session takes its lines in groups and answers each group once. `Grouped` says which groups there are: no
line is lost but blank ones, none is used twice, and a group goes on only as long as its text is unfinished. What is
printed for a group is the outcome of running its text, whatever came before.
-/

namespace ClosureLang

/-! ## Output -/

namespace Output

@[simp] theorem out_append (a b : Output) : (a ++ b).out = a.out ++ b.out := rfl

@[simp] theorem err_append (a b : Output) : (a ++ b).err = a.err ++ b.err := rfl

@[ext] theorem ext {a b : Output} (hout : a.out = b.out) (herr : a.err = b.err) : a = b := by
  cases a
  cases b
  cases hout
  cases herr
  rfl

theorem append_assoc (a b c : Output) : a ++ b ++ c = a ++ (b ++ c) := by
  ext1 <;> simp [String.append_assoc]

theorem empty_append (a : Output) : empty ++ a = a := by
  ext1 <;> simp [empty]

theorem append_empty (a : Output) : a ++ empty = a := by
  ext1 <;> simp [empty]

instance : Std.Associative (fun a b : Output => a ++ b) := ⟨append_assoc⟩

theorem join_nil : join [] = empty := rfl

theorem join_cons (a : Output) (outputs : List Output) : join (a :: outputs) = a ++ join outputs := by
  calc join (a :: outputs) = outputs.foldl (· ++ ·) (a ++ empty) := by
        rw [join, List.foldl_cons, empty_append, append_empty]
    _ = a ++ join outputs := List.foldl_assoc

theorem join_append (as bs : List Output) : join (as ++ bs) = join as ++ join bs := by
  induction as with
  | nil => rw [List.nil_append, join_nil, empty_append]
  | cons a as ih => rw [List.cons_append, join_cons, join_cons, ih, append_assoc]

end Output

namespace Repl

/-! ## Unfinished texts -/

/-- Running the text fails for no other reason than that it ends. -/
def Unfinished (i : Interpreter) (text : String) : Prop :=
  ∃ d, (i.run text).result = .error d ∧ d.isIncomplete text

theorem eval_not_isIncomplete {i : Interpreter} {p : Program} {d : Diagnostic} {log log' : Array Event}
    (h : i.eval p log = .error d log') (text : String) : d.isIncomplete text = false := by
  rcases Logged.bind_eq_error_iff.1 h with h | ⟨_, _, -, h⟩
  · cases h
  · cases hrun : Machine.run p i.machine with
    | ok v m =>
      rw [hrun] at h
      cases h
    | error e m =>
      rw [hrun] at h
      cases h
      rfl

theorem result_run_of_parse {i : Interpreter} {text : String} {tokens : List Token} {e : ParseError}
    (htokens : Token.ofSource text = .ok tokens) (he : Expr.ofTokens tokens = .error e) :
    (i.run text).result = .error (.ofParseError e) := by
  have hparse : Logged.ofExcept .ofParseError (Expr.ofTokens tokens) #[] = .error (.ofParseError e) #[] := by
    rw [he]
    rfl
  have hcompile : i.compile text #[] = .error (.ofParseError e) #[] :=
    Logged.bind_eq_error_iff.2 (.inr ⟨tokens, #[], by rw [htokens]; rfl, Logged.bind_eq_error_iff.2 (.inl hparse)⟩)
  have hrun : i.run text #[] = .error (.ofParseError e) #[] := Logged.bind_eq_error_iff.2 (.inl hcompile)
  rw [Logged.result, hrun]

/-- Only the words of a text can be unfinished, so it need not be run to find out. -/
theorem isOpen_iff (i : Interpreter) (text : String) : isOpen text ↔ Unfinished i text := by
  constructor
  · intro h
    unfold isOpen at h
    split at h
    · cases h
    next tokens htokens =>
    split at h
    · next e he => exact ⟨.ofParseError e, result_run_of_parse htokens he, h⟩
    · cases h
  · rintro ⟨d, hd, hincomplete⟩
    unfold Logged.result at hd
    split at hd
    · cases hd
    next d' log hrun =>
    cases hd
    rcases Logged.bind_eq_error_iff.1 hrun with hcompile | ⟨p, _, -, heval⟩
    · cases Interpreter.rejects_of_compile hcompile with
      | lexical => cases hincomplete
      | parse htokens he =>
        unfold isOpen
        rw [htokens]
        dsimp only
        rw [he]
        exact hincomplete
      | resolution => cases hincomplete
    · rw [eval_not_isIncomplete heval text] at hincomplete
      cases hincomplete

/-! ## Groups of lines -/

/-- Lines one below the other. -/
def joined (group : List String) : String := String.intercalate "\n" group

/-- The groups that lines are taken in. A group goes on as long as its text is unfinished, up to a blank line or the end
of the input at most. -/
inductive Grouped (i : Interpreter) : List String → List (List String) → Prop where
  | nil : Grouped i [] []
  | blank {line : String} {lines : List String} {groups : List (List String)} (hline : Text.allBlank line)
      (h : Grouped i lines groups) : Grouped i (line :: lines) groups
  | group {group lines : List String} {groups : List (List String)} (hne : group ≠ [])
      (hgroup : ∀ line ∈ group, Text.allBlank line = false)
      (hgoes : ∀ first, first <+: group → first ≠ [] → first ≠ group → Unfinished i (joined first))
      (hends : ¬ Unfinished i (joined group) ∨ ∀ line ∈ lines.head?, Text.allBlank line)
      (h : Grouped i lines groups) : Grouped i (group ++ lines) (group :: groups)

/-- The groups have all lines that are not blank, in order. -/
theorem Grouped.flatten {i : Interpreter} {lines : List String} {groups : List (List String)}
    (h : Grouped i lines groups) : groups.flatten = lines.filter (!Text.allBlank ·) := by
  induction h with
  | nil => rfl
  | blank hline _ ih => rw [ih, List.filter_cons_of_neg (by simp [hline])]
  | @group group lines groups _ hgroup _ _ _ ih =>
    have hall : group.filter (!Text.allBlank ·) = group := by
      rw [List.filter_eq_self]
      exact fun line hline => by simp [hgroup line hline]
    rw [List.flatten_cons, ih, List.filter_append, hall]

theorem joined_concat {group : List String} (h : group ≠ []) (line : String) :
    joined (group ++ [line]) = joined group ++ "\n" ++ line := by
  rw [joined, String.intercalate_append_of_ne_nil h (List.cons_ne_nil _ _), String.intercalate_singleton]
  rfl

/-- A line that is not blank makes a text that is not empty. -/
theorem isEmpty_joined {group : List String} (hgroup : ∀ line ∈ group, Text.allBlank line = false) :
    (joined group).isEmpty = group.isEmpty := by
  cases group with
  | nil => rfl
  | cons line group =>
    have hline : line ≠ "" := by
      rintro rfl
      exact absurd (hgroup "" List.mem_cons_self) (by decide)
    have hjoined : joined (line :: group) ≠ "" := by
      cases group with
      | nil => simpa [joined] using hline
      | cons next group => simp [joined, String.intercalate_cons_cons]
    simpa using hjoined

/-! ## Reactions -/

/-- Lines that wait for more: none of them is blank, and the text was unfinished after each of them. -/
structure Waiting (i : Interpreter) (group : List String) : Prop where
  lines : ∀ line ∈ group, Text.allBlank line = false
  unfinished : ∀ first, first <+: group → first ≠ [] → Unfinished i (joined first)

variable {i : Interpreter} {group lines : List String} {groups : List (List String)} {line : String}

theorem waiting_nil (i : Interpreter) : Waiting i [] where
  lines := nofun
  unfinished _ hfirst hne := absurd (List.prefix_nil.1 hfirst) hne

theorem Waiting.concat (h : Waiting i group) (hline : Text.allBlank line = false)
    (hopen : Unfinished i (joined (group ++ [line]))) : Waiting i (group ++ [line]) where
  lines := List.forall_mem_append.2 ⟨h.lines, List.forall_mem_singleton.2 hline⟩
  unfinished first hfirst hne := by
    rcases List.prefix_concat_iff.1 hfirst with rfl | hfirst
    · exact hopen
    · exact h.unfinished first hfirst hne

/-- Lines that wait are a group if no line follows that could continue it. -/
theorem Waiting.grouped (h : Waiting i group) (hne : group ≠ []) (hlines : ∀ line ∈ lines.head?, Text.allBlank line)
    (hrest : Grouped i lines groups) : Grouped i (group ++ lines) (group :: groups) :=
  .group hne h.lines (fun first hfirst hne _ => h.unfinished first hfirst hne) (.inr hlines) hrest

/-- A line that finishes the text of those that wait ends the group. -/
theorem Waiting.settled (h : Waiting i group) (hline : Text.allBlank line = false)
    (hclosed : ¬ Unfinished i (joined (group ++ [line]))) (hrest : Grouped i lines groups) :
    Grouped i (group ++ line :: lines) ((group ++ [line]) :: groups) := by
  rw [List.append_cons]
  have hlines := List.forall_mem_append.2 ⟨h.lines, List.forall_mem_singleton.2 hline⟩
  refine .group (by simp) hlines ?_ (.inl hclosed) hrest
  intro first hfirst hne hproper
  exact h.unfinished first ((List.prefix_concat_iff.1 hfirst).resolve_left hproper) hne

/-- What a line makes of the lines that wait. -/
theorem react_joined (h : Waiting i group) (line : String) :
    react isOpen (joined group) line =
      if Text.allBlank line then if group.isEmpty then .idle else .settled (joined group)
      else if isOpen (joined (group ++ [line])) then .waiting (joined (group ++ [line]))
      else .settled (joined (group ++ [line])) := by
  have hentry : (if group.isEmpty then line else joined group ++ "\n" ++ line) = joined (group ++ [line]) := by
    cases hgroup : group.isEmpty with
    | true => simp [List.isEmpty_iff.1 hgroup, joined]
    | false => simp [joined_concat (List.isEmpty_eq_false_iff.1 hgroup)]
  rw [react, giveUp, isEmpty_joined h.lines]
  dsimp only
  rw [hentry]

/-- The entries that are settled when some lines come, and then the end of the input. -/
def settledEntries (pending : String) (lines : List String) : List String :=
  (reactAll isOpen pending lines).1.filterMap Reaction.entry? ++
    (giveUp (reactAll isOpen pending lines).2 |> Reaction.entry?).toList

theorem settledEntries_cons (pending line : String) (lines : List String) :
    settledEntries pending (line :: lines) =
      (react isOpen pending line |> Reaction.entry?).toList ++
        settledEntries (react isOpen pending line).pending lines := by
  rw [settledEntries, reactAll]
  cases h : Reaction.entry? (react isOpen pending line) <;> simp [settledEntries, h]

/-- The lines that wait and those that come are grouped, and each group is settled once. -/
theorem settledEntries_grouped (lines : List String) (h : Waiting i group) :
    ∃ groups, Grouped i (group ++ lines) groups ∧ settledEntries (joined group) lines = groups.map joined := by
  induction lines generalizing group with
  | nil =>
    by_cases hgroup : group = []
    · subst hgroup
      exact ⟨[], .nil, rfl⟩
    · refine ⟨[group], h.grouped hgroup nofun .nil, ?_⟩
      rw [settledEntries, reactAll, giveUp, isEmpty_joined h.lines, List.isEmpty_eq_false_iff.2 hgroup]
      rfl
  | cons line lines ih =>
    rw [settledEntries_cons, react_joined h]
    split
    · next hblank =>
      obtain ⟨groups, hgroups, hentries⟩ := ih (waiting_nil i)
      by_cases hgroup : group = []
      · subst hgroup
        exact ⟨groups, .blank hblank hgroups, hentries⟩
      · refine ⟨group :: groups, h.grouped hgroup (by simpa using hblank) (.blank hblank hgroups), ?_⟩
        rw [List.isEmpty_eq_false_iff.2 hgroup, List.map_cons, ← hentries]
        rfl
    · next hblank =>
      rw [Bool.not_eq_true] at hblank
      split
      · next hopen =>
        -- The group goes on with this line.
        rw [List.append_cons]
        exact ih (h.concat hblank ((isOpen_iff i _).1 hopen))
      · next hclosed =>
        obtain ⟨groups, hgroups, hentries⟩ := ih (waiting_nil i)
        refine ⟨(group ++ [line]) :: groups, h.settled hblank (mt (isOpen_iff i _).2 hclosed) hgroups, ?_⟩
        rw [List.map_cons, ← hentries]
        rfl

/-! ## Answers -/

/-- What is printed for the outcome of an entry. -/
def outcome (i : Interpreter) (entry : String) : Output :=
  match (i.run entry).result with
  | .ok v => ⟨v.text ++ "\n", ""⟩
  | .error d => ⟨"", d.report entry ++ "\n"⟩

/-- A part of what a session prints: log messages, and after them the outcome of an entry if one is to be answered. -/
structure Piece where
  events : Array Event
  entered? : Option String

def Piece.output (c : Console) (p : Piece) : Output := c.log p.events ++ p.entered?.elim .empty (outcome c.interpreter)

theorem output_of_none (c : Console) (events : Array Event) : Piece.output c ⟨events, none⟩ = c.log events :=
  Output.append_empty _

theorem print_eq (c : Console) (reaction : Reaction) :
    ∃ events, print c reaction = Piece.output c ⟨events, Reaction.entry? reaction⟩ := by
  cases reaction with
  | idle => exact ⟨#[], (output_of_none c #[]).symm⟩
  | waiting entry => exact ⟨#[.waiting], (output_of_none c #[.waiting]).symm⟩
  | settled entry =>
    cases hrun : c.interpreter.run entry #[] with
    | ok v events =>
      have houtcome : outcome c.interpreter entry = ⟨v.text ++ "\n", ""⟩ := by rw [outcome, Logged.result, hrun]
      refine ⟨events, ?_⟩
      rw [print, answer, hrun, Piece.output, Reaction.entry?, Option.elim_some, houtcome]
    | error d events =>
      have houtcome : outcome c.interpreter entry = ⟨"", d.report entry ++ "\n"⟩ := by rw [outcome, Logged.result, hrun]
      refine ⟨events.push (.failed d), ?_⟩
      rw [print, answer, hrun, Piece.output, Reaction.entry?, Option.elim_some, houtcome]

/-- Reactions show log messages and the outcomes of the entries that they settle, and nothing else. -/
theorem print_pieces (c : Console) (reactions : List Reaction) :
    ∃ pieces : List Piece, Output.join (reactions.map fun reaction => listen c ++ print c reaction) =
      Output.join (pieces.map (·.output c)) ∧ pieces.filterMap (·.entered?) = reactions.filterMap Reaction.entry? := by
  induction reactions with
  | nil => exact ⟨[], rfl, rfl⟩
  | cons reaction reactions ih =>
    obtain ⟨pieces, houtput, hentries⟩ := ih
    obtain ⟨events, hprint⟩ := print_eq c reaction
    refine ⟨⟨#[.piped], none⟩ :: ⟨events, Reaction.entry? reaction⟩ :: pieces, ?_, ?_⟩
    · rw [List.map_cons, Output.join_cons, houtput, List.map_cons, List.map_cons, Output.join_cons, Output.join_cons,
        output_of_none, ← hprint, Output.append_assoc]
      rfl
    · rw [List.filterMap_cons_none rfl, List.filterMap_cons, hentries, List.filterMap_cons]

/-- No message of an event is a warning. -/
theorem log_of_level {c : Console} (h : c.filter.level.rank ≤ Log.Level.warn.rank) (events : Array Event) :
    c.log events = .empty := by
  have hshows (e : Event) : c.filter.shows e.level e.target = false := by
    have hlevel : e.level = .trace ∨ e.level = .debug := by cases e <;> simp [Event.level]
    have hlevel : Log.Level.warn.rank < e.level.rank := by rcases hlevel with h | h <;> rw [h] <;> decide
    simp [Log.Filter.shows, Nat.lt_of_le_of_lt h hlevel]
  simp [Console.log, Log.Filter.render, hshows, Output.empty]

/-- Where no message is shown, only the outcomes are left. -/
theorem join_output_of_level {c : Console} (h : c.filter.level.rank ≤ Log.Level.warn.rank) (pieces : List Piece) :
    Output.join (pieces.map (·.output c)) =
      Output.join ((pieces.filterMap (·.entered?)).map (outcome c.interpreter)) := by
  induction pieces with
  | nil => rfl
  | cons piece pieces ih =>
    obtain ⟨events, entry⟩ := piece
    rw [List.map_cons, Output.join_cons, ih, Piece.output, log_of_level h, Output.empty_append]
    cases entry with
    | none => exact Output.empty_append _
    | some entry => exact (Output.join_cons (outcome c.interpreter entry) _).symm

/-- What a session prints: log messages, and the outcome of every entry that its lines settle. -/
theorem session_pieces (c : Console) (lines : List String) :
    ∃ pieces : List Piece, pieces.filterMap (·.entered?) = settledEntries "" lines ∧
      session c lines .finished = ⟨0, banner ++ Output.join (pieces.map (·.output c)) ++ farewell⟩ := by
  obtain ⟨pieces, houtput, hentries⟩ := print_pieces c
    ((reactAll isOpen "" lines).1 ++ [giveUp (reactAll isOpen "" lines).2])
  refine ⟨pieces, ?_, ?_⟩
  · rw [hentries, List.filterMap_append, settledEntries]
    cases (giveUp (reactAll isOpen "" lines).2) <;> rfl
  · rw [← houtput, List.map_append, Output.join_append, session]
    simp only [List.map_cons, List.map_nil, Output.join_cons, Output.join_nil, Output.append_assoc,
      Output.empty_append]

/-- A session answers its lines in groups. The groups have all lines that are not blank, in order and each of them
once. For each group it prints the outcome of running its lines as one text, and nothing else but log messages, a
banner and a farewell. -/
theorem session_answers (c : Console) (lines : List String) :
    ∃ groups : List (List String), Grouped c.interpreter lines groups ∧
      groups.flatten = lines.filter (!Text.allBlank ·) ∧
      (∃ pieces : List Piece, pieces.filterMap (·.entered?) = groups.map joined ∧
        session c lines .finished = ⟨0, banner ++ Output.join (pieces.map (·.output c)) ++ farewell⟩) ∧
      (c.filter.level.rank ≤ Log.Level.warn.rank → session c lines .finished =
        ⟨0, banner ++ Output.join (groups.map fun group => outcome c.interpreter (joined group)) ++ farewell⟩) := by
  obtain ⟨groups, hgroups, hentries⟩ := settledEntries_grouped lines (waiting_nil c.interpreter)
  obtain ⟨pieces, hpieces, hsession⟩ := session_pieces c lines
  refine ⟨groups, hgroups, hgroups.flatten, ⟨pieces, hpieces.trans hentries, hsession⟩, fun hlevel => ?_⟩
  rw [hsession, join_output_of_level hlevel, hpieces.trans hentries, List.map_map]
  rfl

/-- A sum on two lines, a parenthesis that a blank line gives up, a stray one, and a block that the end gives up. -/
def mixedInput : List String := ["1 +", "2", "", "(1 +", " ", ")", "\x7b"]

theorem session_answers_mixedInput :
    ∃ groups : List (List String), groups.flatten = ["1 +", "2", "(1 +", ")", "\x7b"] ∧
      Grouped (.standard ⟨256, 65536⟩) mixedInput groups ∧
      session (.new ⟨256, 65536⟩ .standard) mixedInput .finished = ⟨0, banner ++
        Output.join (groups.map fun group => outcome (.standard ⟨256, 65536⟩) (joined group)) ++ farewell⟩ := by
  obtain ⟨groups, hgroups, hflatten, -, hsession⟩ := session_answers (.new ⟨256, 65536⟩ .standard) mixedInput
  exact ⟨groups, hflatten, hgroups, hsession (by decide)⟩

end Repl

end ClosureLang
