import ClosureLang.Code.Listing
import ClosureLang.Proofs.Rows

/-!
# Rows of a listing

A listing has a row for each heading, each capture and each instruction. A row is made of words, behind blanks that tell
how deep it is nested. No word has a blank and the first one tells what the row is. So a row can be told from its text,
as long as its names, indices and constants are those that a source can lead to.
-/

namespace ClosureLang

/-! ## Words -/

namespace Text

/-- The text has no blank and no line feed. -/
def IsWord (s : String) : Prop := ' ' ∉ s.toList ∧ OneLine s

instance (s : String) : Decidable (IsWord s) := inferInstanceAs (Decidable (_ ∧ _))

/-- The words of a row, as blanks part it. -/
def words (s : String) : List String := (s.toList.splitOn ' ').map String.ofList

/-- A row of words, behind some blanks. -/
def ofWords (indent : Nat) (ws : List String) : String :=
  String.ofList (List.replicate indent ' ') ++ " ".intercalate ws

variable {s t : String} {ws : List String}

theorem isWord_append : IsWord (s ++ t) ↔ IsWord s ∧ IsWord t := by
  rw [IsWord, String.toList_append, List.mem_append, not_or, oneLine_append, IsWord, IsWord]
  tauto

theorem isWord_nat (n : Nat) : IsWord n.repr := ⟨notMem_nat rfl n, oneLine_nat n⟩

theorem isWord_int (i : Int) : IsWord i.repr := by
  cases i with
  | ofNat n => exact isWord_nat n
  | negSucc n => exact isWord_append.2 ⟨by decide, isWord_nat (n + 1)⟩

theorem ofWords_eq_intercalate (indent : Nat) (h : ws ≠ []) :
    ofWords indent ws = " ".intercalate (List.replicate indent "" ++ ws) := by
  induction indent with
  | zero => rfl
  | succ n ih =>
    rw [List.replicate_succ, List.cons_append, String.intercalate_cons_of_ne_nil (by simp [h]), ← ih]
    simp [ofWords, List.replicate_succ, ← String.toList_inj]

/-- The words come back from the row. Each blank in front stands for an empty word. -/
theorem words_ofWords (indent : Nat) (h : ws ≠ []) (hws : ∀ w ∈ ws, IsWord w) :
    words (ofWords indent ws) = List.replicate indent "" ++ ws := by
  have hblank : ∀ cs ∈ (List.replicate indent "" ++ ws).map String.toList, ' ' ∉ cs := by
    simp only [List.mem_map, List.mem_append, List.mem_replicate]
    rintro _ ⟨w, ⟨-, rfl⟩ | hw, rfl⟩
    · decide
    · exact (hws w hw).1
  rw [ofWords_eq_intercalate indent h, words, String.toList_intercalate]
  rw [show " ".toList = [' '] from rfl, List.splitOn_intercalate ' ' hblank (by simp [h])]
  simp

theorem oneLine_ofWords (indent : Nat) (hws : ∀ w ∈ ws, IsWord w) : OneLine (ofWords indent ws) := by
  have hjoined : OneLine (" ".intercalate ws) := by
    induction ws with
    | nil => decide
    | cons w ws ih =>
      obtain ⟨hw, hws⟩ := List.forall_mem_cons.1 hws
      cases ws with
      | nil => rw [String.intercalate_singleton]; exact hw.2
      | cons w' ws =>
        rw [String.intercalate_cons_cons, oneLine_append, oneLine_append]
        exact ⟨⟨hw.2, by decide⟩, ih hws⟩
  rw [ofWords, oneLine_append, oneLine_ofList]
  exact ⟨by simp, hjoined⟩

end Text

open Text (IsWord OneLine isWord_append isWord_nat isWord_int)

/-! ## Rows -/

/-- An instruction as a row shows it, without its operands that have rows of their own. -/
inductive Instruction where
  | const (value : Value)
  | load (offset : Int)
  | global (index : Nat)
  | store (slot : Int)
  | block
  | cond (line : Nat)
  | closure (name : Option String) (arity : Nat)
  | call (argc line : Nat)

inductive ListingRow where
  | heading (label : String) (arity : Nat) (frameSize : Int)
  | capture (load : CaptureLoad)
  | code (depth : Nat) (instruction : Instruction)

def Instruction.words (globals : Prelude) : Instruction → List String
  | const value => ["const", value.text]
  | load offset => ["load", toString offset]
  | global index => ["prelude", (globals.name? index).getD "?"]
  | store slot => ["store", Word.text slot]
  | block => ["block"]
  | cond line => ["cond", "[line", toString line ++ "]"]
  | closure name arity => ["closure", name.getD "<lambda>" ++ "/" ++ toString arity]
  | call argc line => ["call", toString argc, "[line", toString line ++ "]"]

def CaptureOrigin.words : CaptureOrigin → List String
  | frame offset => ["load", toString offset]
  | itself => ["self"]

namespace ListingRow

/-- The number of blanks that a row begins with. -/
def indent : ListingRow → Nat
  | heading _ _ _ | capture _ => 0
  | code depth _ => 2 * depth

def words (globals : Prelude) : ListingRow → List String
  | heading label arity frameSize =>
    ["==", label ++ "/" ++ toString arity, "frame=" ++ Word.text frameSize, "=="]
  | capture load => "capture" :: Word.text load.slot :: "<-" :: load.origin.words
  | code _ instruction => instruction.words globals

def text (globals : Prelude) (row : ListingRow) : String := Text.ofWords row.indent (row.words globals)

/-- The text of rows of a listing. -/
def textAll (globals : Prelude) (rows : List ListingRow) : String := Text.ofRows (rows.map (text globals))

end ListingRow

mutual

/-- The rows of a piece of code. Closures have a row, but their routines are listed elsewhere. -/
def Code.rows (depth : Nat) : Code → List ListingRow
  | .const value => [.code depth (.const value)]
  | .load offset => [.code depth (.load offset)]
  | .global index => [.code depth (.global index)]
  | .store slot value => .code depth (.store slot) :: value.rows (depth + 1)
  | .block stores result => .code depth .block :: (Code.rowsAll (depth + 1) stores ++ result.rows (depth + 1))
  | .cond test onTrue onFalse line =>
    .code depth (.cond line) :: (test.rows (depth + 1) ++ (onTrue.rows (depth + 1) ++ onFalse.rows (depth + 1)))
  | .closure routine => [.code depth (.closure routine.name routine.arity)]
  | .call callee args line =>
    .code depth (.call args.length line) :: (callee.rows (depth + 1) ++ Code.rowsAll (depth + 1) args)

def Code.rowsAll (depth : Nat) : List Code → List ListingRow
  | [] => []
  | c :: cs => c.rows depth ++ Code.rowsAll depth cs

end

mutual

/-- A routine under a heading, and the routines that it makes closures of. -/
def Routine.rows (label : String) : Routine → List ListingRow
  | ⟨_, arity, frameSize, captures, body⟩ =>
    .heading label arity frameSize :: (captures.map .capture ++ (body.rows 0 ++ body.routineRows))

def Code.routineRows : Code → List ListingRow
  | .const _ | .load _ | .global _ => []
  | .store _ value => value.routineRows
  | .block stores result => Code.routineRowsAll stores ++ result.routineRows
  | .cond test onTrue onFalse _ => test.routineRows ++ (onTrue.routineRows ++ onFalse.routineRows)
  | .closure routine => routine.rows routine.label
  | .call callee args _ => callee.routineRows ++ Code.routineRowsAll args

def Code.routineRowsAll : List Code → List ListingRow
  | [] => []
  | c :: cs => c.routineRows ++ Code.routineRowsAll cs

end

def Program.rows (p : Program) : List ListingRow := p.main.rows "<main>"

/-! ## Listings -/

section Texts

variable (globals : Prelude)

open ListingRow (textAll)

theorem ListingRow.textAll_append (rows rows' : List ListingRow) :
    textAll globals (rows ++ rows') = textAll globals rows ++ textAll globals rows' := by
  rw [textAll, List.map_append, Text.ofRows_append, textAll, textAll]

theorem ListingRow.textAll_cons (row : ListingRow) (rows : List ListingRow) :
    textAll globals (row :: rows) = textAll globals [row] ++ textAll globals rows :=
  textAll_append globals [row] rows

/-- A line of a listing is the row that has its words. -/
theorem listingLine_eq {row : ListingRow} {depth : Nat} {s : String} (hindent : row.indent = 2 * depth)
    (hs : s.toList = (" ".intercalate (row.words globals)).toList) : listingLine depth s = textAll globals [row] := by
  obtain rfl := String.toList_inj.1 hs
  simp [listingLine, textAll, Text.ofRows, ListingRow.text, Text.ofWords, hindent]

mutual

theorem Code.listing_eq (depth : Nat) (c : Code) : c.listing globals depth = textAll globals (c.rows depth) := by
  cases c with
  | const value => exact listingLine_eq globals rfl (by simp [ListingRow.words, Instruction.words])
  | load offset => exact listingLine_eq globals rfl (by simp [ListingRow.words, Instruction.words])
  | global index => exact listingLine_eq globals rfl (by simp [ListingRow.words, Instruction.words])
  | store slot value =>
    have hline : listingLine depth s!"store {Word.text slot}" = textAll globals [.code depth (.store slot)] :=
      listingLine_eq globals rfl (by simp [ListingRow.words, Instruction.words])
    rw [Code.listing, Code.rows, ListingRow.textAll_cons, hline, Code.listing_eq (depth + 1) value]
  | block stores result =>
    have hline : listingLine depth "block" = textAll globals [.code depth .block] := listingLine_eq globals rfl rfl
    rw [Code.listing, Code.rows, ListingRow.textAll_cons, ListingRow.textAll_append, hline,
      Code.listingAll_eq (depth + 1) stores, Code.listing_eq (depth + 1) result, String.append_assoc]
  | cond test onTrue onFalse line =>
    have hline : listingLine depth s!"cond [line {line}]" = textAll globals [.code depth (.cond line)] :=
      listingLine_eq globals rfl (by simp [ListingRow.words, Instruction.words])
    rw [Code.listing, Code.rows, ListingRow.textAll_cons, ListingRow.textAll_append, ListingRow.textAll_append, hline,
      Code.listing_eq (depth + 1) test, Code.listing_eq (depth + 1) onTrue, Code.listing_eq (depth + 1) onFalse,
      String.append_assoc, String.append_assoc]
  | closure routine => exact listingLine_eq globals rfl (by simp [ListingRow.words, Instruction.words, Routine.label])
  | call callee args line =>
    have hline : listingLine depth s!"call {args.length} [line {line}]" =
        textAll globals [.code depth (.call args.length line)] :=
      listingLine_eq globals rfl (by simp [ListingRow.words, Instruction.words])
    rw [Code.listing, Code.rows, ListingRow.textAll_cons, ListingRow.textAll_append, hline,
      Code.listing_eq (depth + 1) callee, Code.listingAll_eq (depth + 1) args, String.append_assoc]

theorem Code.listingAll_eq (depth : Nat) (cs : List Code) :
    Code.listingAll globals depth cs = textAll globals (Code.rowsAll depth cs) := by
  cases cs with
  | nil => rfl
  | cons c cs =>
    rw [Code.listingAll, Code.rowsAll, ListingRow.textAll_append, Code.listing_eq depth c, Code.listingAll_eq depth cs]

end

theorem CaptureLoad.listing_eq (c : CaptureLoad) : c.listing = textAll globals [.capture c] := by
  obtain ⟨slot, origin⟩ := c
  cases origin with
  | frame offset => exact listingLine_eq globals rfl (by simp [ListingRow.words, CaptureOrigin.words])
  | itself => exact listingLine_eq globals rfl (by simp [ListingRow.words, CaptureOrigin.words])

theorem CaptureLoad.listingAll_eq (captures : List CaptureLoad) :
    String.join (captures.map CaptureLoad.listing) = textAll globals (captures.map .capture) := by
  induction captures with
  | nil => rfl
  | cons c captures ih =>
    rw [List.map_cons, String.join_cons, ih, List.map_cons, ListingRow.textAll_cons, c.listing_eq globals]

mutual

theorem Routine.listing_eq (label : String) (r : Routine) :
    r.listing globals label = textAll globals (r.rows label) := by
  obtain ⟨name, arity, frameSize, captures, body⟩ := r
  have hline : listingLine 0 s!"== {label}/{arity} frame={Word.text frameSize} ==" =
      textAll globals [.heading label arity frameSize] := listingLine_eq globals rfl (by simp [ListingRow.words])
  rw [Routine.listing, Routine.rows, ListingRow.textAll_cons, hline, ListingRow.textAll_append,
    ListingRow.textAll_append, CaptureLoad.listingAll_eq globals, body.listing_eq globals 0,
    Code.routineListings_eq body, String.append_assoc, String.append_assoc]

theorem Code.routineListings_eq (c : Code) : c.routineListings globals = textAll globals c.routineRows := by
  cases c with
  | const | load | global => rfl
  | store slot value => exact Code.routineListings_eq value
  | block stores result =>
    rw [Code.routineListings, Code.routineRows, ListingRow.textAll_append, Code.routineListingsAll_eq stores,
      Code.routineListings_eq result]
  | cond test onTrue onFalse line =>
    rw [Code.routineListings, Code.routineRows, ListingRow.textAll_append, ListingRow.textAll_append,
      Code.routineListings_eq test, Code.routineListings_eq onTrue, Code.routineListings_eq onFalse,
      String.append_assoc]
  | closure routine => exact Routine.listing_eq routine.label routine
  | call callee args line =>
    rw [Code.routineListings, Code.routineRows, ListingRow.textAll_append, Code.routineListings_eq callee,
      Code.routineListingsAll_eq args]

theorem Code.routineListingsAll_eq (cs : List Code) :
    Code.routineListingsAll globals cs = textAll globals (Code.routineRowsAll cs) := by
  cases cs with
  | nil => rfl
  | cons c cs =>
    rw [Code.routineListingsAll, Code.routineRowsAll, ListingRow.textAll_append, Code.routineListings_eq c,
      Code.routineListingsAll_eq cs]

end

end Texts

/-- A listing is the text of its rows. -/
theorem Program.listing_eq (p : Program) : p.listing = ListingRow.textAll p.globals p.rows :=
  p.main.listing_eq p.globals "<main>"

/-! ## Operands -/

theorem Word.text_inj {i j : Int} (hi : 0 ≤ i) (hj : 0 ≤ j) (h : text i = text j) : i = j := by
  rw [text, text, ofIndex, ofIndex, if_neg (Int.not_lt.2 hi), if_neg (Int.not_lt.2 hj)] at h
  exact Int.repr_injective h

/-- Different literals have different texts: a finite one is read back, and the text of the infinite one is no
number. -/
theorem Number.text_inj {w w' : Nat} (hw : w ≤ Binary64.infinity) (hw' : w' ≤ Binary64.infinity)
    (h : text (Binary64.ofWord false w) = text (Binary64.ofWord false w')) :
    Binary64.ofWord false w = Binary64.ofWord false w' := by
  have hinfinite {v : Nat} (hv : v < Binary64.infinity) :
      text (Binary64.ofWord false v) ≠ text (Binary64.ofWord false Binary64.infinity) := by
    -- The text of a finite number begins with a digit.
    obtain ⟨c, cs, htext, hdigit, -⟩ := lexeme?_text hv
    rw [text_infinity]
    intro heq
    rw [heq] at htext
    cases htext
    cases hdigit
  rcases Nat.lt_or_eq_of_le hw with hlt | rfl
  · rcases Nat.lt_or_eq_of_le hw' with hlt' | rfl
    · obtain ⟨c, cs, htext, -, hread⟩ := lexeme?_text hlt
      obtain ⟨c', cs', htext', -, hread'⟩ := lexeme?_text hlt'
      obtain ⟨rfl, rfl⟩ := List.cons.inj (htext.symm.trans ((congrArg String.toList h).trans htext'))
      have hsame := (hread [] Token.breaks_nil).symm.trans (hread' [] Token.breaks_nil)
      exact Token.Kind.number.inj (Prod.mk.inj (Option.some.inj hsame)).1
    · exact absurd h (hinfinite hlt)
  · rcases Nat.lt_or_eq_of_le hw' with hlt' | rfl
    · exact absurd h.symm (hinfinite hlt')
    · rfl

theorem Routine.label_arity_inj {label label' : String} {arity arity' : Nat} (hlabel : '/' ∉ label.toList)
    (h : label ++ "/" ++ toString arity = label' ++ "/" ++ toString arity') : label = label' ∧ arity = arity' := by
  have hchars : label.toList ++ '/' :: (toString arity).toList = label'.toList ++ '/' :: (toString arity').toList := by
    simpa using congrArg String.toList h
  obtain ⟨hsame, -, harity⟩ := (List.append_cons_inj_of_notMem hlabel (Text.notMem_nat rfl arity)).1 hchars
  exact ⟨String.toList_inj.1 hsame, Nat.repr_injective (String.toList_inj.1 harity)⟩

/-- The name that a lambda has in a source, if it has one. -/
def Token.IsNameOrNone (name : Option String) : Prop := ∀ x ∈ name, Token.isName x

theorem Routine.label_inj {name name' : Option String} (h : Token.IsNameOrNone name) (h' : Token.IsNameOrNone name')
    (hlabel : name.getD "<lambda>" = name'.getD "<lambda>") : name = name' := by
  have hname {x : String} (hx : Token.isName x) : x ≠ "<lambda>" := by
    rintro rfl
    revert hx
    decide
  cases name with
  | none =>
    cases name' with
    | none => rfl
    | some x => exact absurd hlabel.symm (hname (h' x rfl))
  | some x =>
    cases name' with
    | none => exact absurd hlabel (hname (h x rfl))
    | some x' => exact congrArg some hlabel

theorem Routine.notMem_label {name : Option String} (h : Token.IsNameOrNone name) {c : Char}
    (hc : Token.isNamePart c = false) (hlambda : c ∉ "<lambda>".toList) : c ∉ (name.getD "<lambda>").toList := by
  cases name with
  | none => exact hlambda
  | some x => exact Token.isName.notMem (h x rfl) hc

theorem Routine.isWord_label {name : Option String} (h : Token.IsNameOrNone name) : IsWord (name.getD "<lambda>") :=
  ⟨notMem_label h rfl (by decide), notMem_label h rfl (by decide)⟩

/-- The entries of the prelude can be told by their names. -/
structure Prelude.Tells (globals : Prelude) : Prop where
  nodup : globals.names.Nodup
  words : ∀ x ∈ globals.names, IsWord x

theorem Prelude.tells_standard : Prelude.standard.Tells := ⟨by decide, by decide⟩

theorem Prelude.name?_eq (globals : Prelude) {i : Nat} (hi : i < globals.names.length) :
    globals.name? i = some globals.names[i] := by
  rw [name?, ← List.getElem?_map]
  exact List.getElem?_eq_getElem hi

/-! ## Reading rows back -/

/-- The instruction can be told from its row. -/
def Instruction.Readable (globals : Prelude) : Instruction → Prop
  | const value => ∃ w ≤ Binary64.infinity, value = .number (Binary64.ofWord false w)
  | global index => index < globals.names.length
  | store slot => 0 ≤ slot
  | closure name _ => Token.IsNameOrNone name
  | load _ | block | cond _ | call _ _ => True

/-- The row can be told from its text. -/
def ListingRow.Readable (globals : Prelude) : ListingRow → Prop
  | heading label _ frameSize => IsWord label ∧ '/' ∉ label.toList ∧ 0 ≤ frameSize
  | capture load => 0 ≤ load.slot
  | code _ instruction => instruction.Readable globals

/-- The first word of an instruction is that of no other row. -/
theorem Instruction.exists_words (globals : Prelude) (i : Instruction) :
    ∃ w ws, i.words globals = w :: ws ∧ w ≠ "" ∧ w ≠ "==" ∧ w ≠ "capture" := by
  cases i <;> exact ⟨_, _, rfl, by decide⟩

theorem ListingRow.exists_words (globals : Prelude) (row : ListingRow) :
    ∃ w ws, row.words globals = w :: ws ∧ w ≠ "" := by
  cases row with
  | heading | capture => exact ⟨_, _, rfl, by decide⟩
  | code depth i =>
    obtain ⟨w, ws, hwords, hne, -, -⟩ := i.exists_words globals
    exact ⟨w, ws, hwords, hne⟩

theorem CaptureOrigin.words_inj {o o' : CaptureOrigin} (h : o.words = o'.words) : o = o' := by
  cases o <;> cases o' <;> simp_all [words, Int.repr_inj]

section Readable

variable {globals : Prelude} (hg : globals.Tells)

include hg

theorem Instruction.Readable.isWord {i : Instruction} (h : i.Readable globals) : ∀ w ∈ i.words globals, IsWord w := by
  cases i with
  | const value =>
    obtain ⟨w, hw, rfl⟩ := h
    have hvalue : IsWord (Value.number (Binary64.ofWord false w)).text :=
      ⟨Number.notMem_text hw rfl (by decide), Number.notMem_text hw rfl (by decide)⟩
    simpa [words, hvalue] using by decide
  | global index =>
    have hname := hg.words _ (List.getElem_mem h)
    simpa [words, globals.name?_eq h, hname] using by decide
  | closure name arity => simpa [words, isWord_append, isWord_nat, Routine.isWord_label h] using by decide
  | load offset => simpa [words, isWord_int] using by decide
  | store slot => simpa [words, Word.text, isWord_int] using by decide
  | block => simpa [words] using by decide
  | cond line => simpa [words, isWord_append, isWord_nat] using by decide
  | call argc line => simpa [words, isWord_append, isWord_nat] using by decide

/-- The first word tells the instruction, and each operand has a word, or a part of one that ends where it is said. -/
theorem Instruction.words_inj {i i' : Instruction} (h : i.Readable globals) (h' : i'.Readable globals)
    (heq : i.words globals = i'.words globals) : i = i' := by
  cases i with
  | const value =>
    cases i' with
    | const value' =>
      obtain ⟨w, hw, rfl⟩ := h
      obtain ⟨w', hw', rfl⟩ := h'
      have htext : Number.text (Binary64.ofWord false w) = Number.text (Binary64.ofWord false w') := by
        simpa [words, Value.text] using heq
      rw [Number.text_inj hw hw' htext]
    | _ => simp [words] at heq
  | load offset =>
    cases i' with
    | load offset' => simpa [words, Int.repr_inj] using heq
    | _ => simp [words] at heq
  | global index =>
    cases i' with
    | global index' =>
      have hname : globals.names[index] = globals.names[index'] := by
        simpa [words, globals.name?_eq h, globals.name?_eq h'] using heq
      rw [(hg.nodup.getElem_inj_iff).1 hname]
    | _ => simp [words] at heq
  | store slot =>
    cases i' with
    | store slot' =>
      have htext : Word.text slot = Word.text slot' := by simpa [words] using heq
      rw [Word.text_inj h h' htext]
    | _ => simp [words] at heq
  | block =>
    cases i' with
    | block => rfl
    | _ => simp [words] at heq
  | cond line =>
    cases i' with
    | cond line' => simpa [words, Nat.repr_inj] using heq
    | _ => simp [words] at heq
  | closure name arity =>
    cases i' with
    | closure name' arity' =>
      have hword : name.getD "<lambda>" ++ "/" ++ toString arity = name'.getD "<lambda>" ++ "/" ++ toString arity' := by
        simpa [words] using heq
      obtain ⟨hlabel, rfl⟩ := Routine.label_arity_inj (Routine.notMem_label h rfl (by decide)) hword
      rw [Routine.label_inj h h' hlabel]
    | _ => simp [words] at heq
  | call argc line =>
    cases i' with
    | call argc' line' => simpa [words, Nat.repr_inj] using heq
    | _ => simp [words] at heq

theorem ListingRow.Readable.isWord {row : ListingRow} (h : row.Readable globals) :
    ∀ w ∈ row.words globals, IsWord w := by
  cases row with
  | heading label arity frameSize =>
    simpa [words, isWord_append, isWord_nat, isWord_int, Word.text, h.1] using by decide
  | capture load =>
    obtain ⟨slot, origin⟩ := load
    cases origin <;> simpa [words, CaptureOrigin.words, isWord_int, Word.text] using by decide
  | code depth instruction => exact Instruction.Readable.isWord hg h

theorem ListingRow.Readable.oneLine {row : ListingRow} (h : row.Readable globals) : OneLine (row.text globals) :=
  Text.oneLine_ofWords row.indent (h.isWord hg)

theorem ListingRow.words_inj {row row' : ListingRow} (h : row.Readable globals) (h' : row'.Readable globals)
    (hindent : row.indent = row'.indent) (heq : row.words globals = row'.words globals) : row = row' := by
  cases row with
  | heading label arity frameSize =>
    cases row' with
    | heading label' arity' frameSize' =>
      have hwords : label ++ "/" ++ toString arity = label' ++ "/" ++ toString arity' ∧
          Word.text frameSize = Word.text frameSize' := by simpa [words] using heq
      obtain ⟨rfl, rfl⟩ := Routine.label_arity_inj h.2.1 hwords.1
      rw [Word.text_inj h.2.2 h'.2.2 hwords.2]
    | capture load => simp [words] at heq
    | code depth i =>
      obtain ⟨w, ws, hwords, -, hw, -⟩ := i.exists_words globals
      exact absurd (List.cons.inj (heq.trans hwords)).1.symm hw
  | capture load =>
    cases row' with
    | heading label arity frameSize => simp [words] at heq
    | capture load' =>
      obtain ⟨slot, origin⟩ := load
      obtain ⟨slot', origin'⟩ := load'
      have hwords : Word.text slot = Word.text slot' ∧ origin.words = origin'.words := by simpa [words] using heq
      obtain rfl : slot = slot' := Word.text_inj h h' hwords.1
      rw [CaptureOrigin.words_inj hwords.2]
    | code depth i =>
      obtain ⟨w, ws, hwords, -, -, hw⟩ := i.exists_words globals
      exact absurd (List.cons.inj (heq.trans hwords)).1.symm hw
  | code depth i =>
    obtain ⟨w, ws, hwords, -, hheading, hcapture⟩ := i.exists_words globals
    cases row' with
    | heading label arity frameSize => exact absurd (List.cons.inj (hwords.symm.trans heq)).1 hheading
    | capture load => exact absurd (List.cons.inj (hwords.symm.trans heq)).1 hcapture
    | code depth' i' =>
      obtain rfl : depth = depth' := Nat.eq_of_mul_eq_mul_left (by decide) hindent
      rw [Instruction.words_inj hg h h' heq]

/-- The row can be told from its text. -/
theorem ListingRow.text_inj {row row' : ListingRow} (h : row.Readable globals) (h' : row'.Readable globals)
    (heq : row.text globals = row'.text globals) : row = row' := by
  have hne (row : ListingRow) : row.words globals ≠ [] ∧ (row.words globals).head? ≠ some "" := by
    obtain ⟨w, ws, hwords, hw⟩ := row.exists_words globals
    simp [hwords, hw]
  have hwords := congrArg Text.words heq
  rw [text, text, Text.words_ofWords _ (hne row).1 (h.isWord hg),
    Text.words_ofWords _ (hne row').1 (h'.isWord hg)] at hwords
  obtain ⟨hindent, hwords⟩ := Text.replicate_append_inj (hne row).2 (hne row').2 hwords
  exact words_inj hg h h' hindent hwords

theorem ListingRow.oneLine_texts {rows : List ListingRow} (h : ∀ row ∈ rows, row.Readable globals) :
    ∀ s ∈ rows.map (text globals), OneLine s := by
  intro s hs
  obtain ⟨row, hrow, rfl⟩ := List.mem_map.1 hs
  exact (h row hrow).oneLine hg

/-- The rows can be told from their text. -/
theorem ListingRow.textAll_inj {rows rows' : List ListingRow} (h : ∀ row ∈ rows, row.Readable globals)
    (h' : ∀ row ∈ rows', row.Readable globals) (heq : textAll globals rows = textAll globals rows') :
    rows = rows' := by
  have htexts := Text.ofRows_inj (oneLine_texts hg h) (oneLine_texts hg h') heq
  clear heq
  induction rows generalizing rows' with
  | nil => exact (List.map_eq_nil_iff.1 htexts.symm).symm
  | cons row rows ih =>
    obtain ⟨row', rows', rfl, hrow, hrows⟩ := List.map_eq_cons_iff.1 htexts.symm
    rw [List.forall_mem_cons] at h h'
    rw [text_inj hg h'.1 h.1 hrow, ih h.2 h'.2 hrows.symm]

end Readable

end ClosureLang
