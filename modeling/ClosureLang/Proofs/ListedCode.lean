import ClosureLang.Proofs.ListingRows

/-!
# Code from its rows

The rows of a piece of code are its instructions in preorder, each with its depth. The depth of the next row tells where
an operand ends, and the next heading where a routine ends. A routine stands behind the code that makes closures of it,
and routines come in the order of their closures, so a heading need not say which closure it belongs to. All code comes
back from its rows.
-/

namespace ClosureLang

/-- What a closure shows of its routine. -/
def Routine.signature (r : Routine) : Option String × Nat := (r.name, r.arity)

/-! ## Instructions and operands -/

namespace Code

/-- The row of the code itself, without those of its operands. -/
def instruction : Code → Instruction
  | const value => .const value
  | load offset => .load offset
  | global index => .global index
  | store slot _ => .store slot
  | block _ _ => .block
  | cond _ _ _ line => .cond line
  | closure routine => .closure routine.name routine.arity
  | call _ args line => .call args.length line

/-- The operands in the order of their rows. -/
def operands : Code → List Code
  | const _ | load _ | global _ | closure _ => []
  | store _ value => [value]
  | block stores result => stores ++ [result]
  | cond test onTrue onFalse _ => [test, onTrue, onFalse]
  | call callee args _ => callee :: args

/-- The routine that the code itself makes a closure of. -/
def routine? : Code → Option Routine
  | closure routine => some routine
  | _ => none

theorem eq_closure {c : Code} {r : Routine} (h : c.routine? = some r) : c = closure r := by
  cases c <;> simp_all [routine?]

/-- What the row of a closure says of its routine. -/
theorem signature_eq {c c' : Code} (h : c.instruction = c'.instruction) :
    c.routine?.map Routine.signature = c'.routine?.map Routine.signature := by
  cases c <;> cases c' <;> simp_all [instruction, routine?, Routine.signature]

/-- Apart from what is in the routines of closures, code is its instruction and its operands. -/
theorem eq_of_operands {c c' : Code} (hi : c.instruction = c'.instruction) (ho : c.operands = c'.operands)
    (hr : c.routine? = c'.routine?) : c = c' := by
  cases c <;> cases c' <;> simp_all [instruction, operands, routine?]

theorem rowsAll_eq_flatMap (d : Nat) (cs : List Code) : rowsAll d cs = cs.flatMap (rows d) := by
  induction cs with
  | nil => rfl
  | cons c cs ih => rw [rowsAll, ih, List.flatMap_cons]

theorem routineRowsAll_eq_flatMap (cs : List Code) : routineRowsAll cs = cs.flatMap routineRows := by
  induction cs with
  | nil => rfl
  | cons c cs ih => rw [routineRowsAll, ih, List.flatMap_cons]

theorem rows_eq (d : Nat) (c : Code) : c.rows d = .code d c.instruction :: c.operands.flatMap (rows (d + 1)) := by
  cases c <;> simp [rows, instruction, operands, rowsAll_eq_flatMap]

theorem routineRows_eq (c : Code) (h : c.routine? = none) : c.routineRows = c.operands.flatMap routineRows := by
  cases c <;> simp_all [routineRows, routine?, operands, routineRowsAll_eq_flatMap]

mutual

/-- Induction over code, from the operands and from the body of a routine to the code that has them. -/
theorem induction {P : Code → Prop}
    (h : ∀ c : Code, (∀ x ∈ c.operands, P x) → (∀ r ∈ c.routine?, P r.body) → P c) (c : Code) : P c := by
  refine h c ?_ ?_
  · cases c with
    | const | load | global | closure => exact nofun
    | store slot value => exact List.forall_mem_singleton.2 (induction h value)
    | block stores result =>
      exact List.forall_mem_append.2 ⟨inductionAll h stores, List.forall_mem_singleton.2 (induction h result)⟩
    | cond test onTrue onFalse line =>
      simp only [operands, List.forall_mem_cons]
      exact ⟨induction h test, induction h onTrue, induction h onFalse, nofun⟩
    | call callee args line => exact List.forall_mem_cons.2 ⟨induction h callee, inductionAll h args⟩
  · cases c with
    | closure routine =>
      rintro _ ⟨⟩
      exact inductionRoutine h routine
    | _ => exact nofun

theorem inductionAll {P : Code → Prop}
    (h : ∀ c : Code, (∀ x ∈ c.operands, P x) → (∀ r ∈ c.routine?, P r.body) → P c) (cs : List Code) :
    ∀ c ∈ cs, P c := by
  cases cs with
  | nil => exact nofun
  | cons c cs => exact List.forall_mem_cons.2 ⟨induction h c, inductionAll h cs⟩

theorem inductionRoutine {P : Code → Prop}
    (h : ∀ c : Code, (∀ x ∈ c.operands, P x) → (∀ r ∈ c.routine?, P r.body) → P c) (r : Routine) : P r.body := by
  obtain ⟨name, arity, frameSize, captures, body⟩ := r
  exact induction h body

end

/-- The same code, as far as its own rows tell: closures have routines of the same name and arity. -/
inductive Alike : Code → Code → Prop where
  | intro {c c' : Code} (hi : c.instruction = c'.instruction) (ho : List.Forall₂ Alike c.operands c'.operands) :
      Alike c c'

end Code

/-! ## Where operands end -/

/-- No row of code of this depth or deeper comes first. -/
def ListingRow.Ends (d : Nat) (rows : List ListingRow) : Prop :=
  ∀ depth i, rows.head? = some (.code depth i) → depth < d

namespace Code

open ListingRow (Ends)

variable {d : Nat} {t t' : List ListingRow}

theorem ends_succ (h : Ends d t) : Ends (d + 1) t := fun depth i hhead => Nat.lt_succ_of_lt (h depth i hhead)

theorem ends_rows (d : Nat) (c : Code) (t : List ListingRow) : Ends (d + 1) (c.rows d ++ t) := by
  intro depth i hhead
  rw [rows_eq] at hhead
  cases hhead
  exact Nat.lt_succ_self d

theorem not_ends_rows (d : Nat) (c : Code) (t : List ListingRow) : ¬ Ends d (c.rows d ++ t) := by
  intro h
  rw [rows_eq] at h
  exact Nat.lt_irrefl d (h d c.instruction rfl)

theorem ends_rowsAll (cs : List Code) (h : Ends (d + 1) t) : Ends (d + 1) (cs.flatMap (rows d) ++ t) := by
  cases cs with
  | nil => exact h
  | cons c cs =>
    rw [List.flatMap_cons, List.append_assoc]
    exact ends_rows d c _

/-- Code that its own rows tell, whatever follows them. -/
def Told (c : Code) : Prop :=
  ∀ (d : Nat) (c' : Code) (t t' : List ListingRow), Ends (d + 1) t → Ends (d + 1) t' →
    c.rows d ++ t = c'.rows d ++ t' → c.Alike c' ∧ t = t'

theorem rowsAll_inj {cs cs' : List Code} (hcs : ∀ c ∈ cs, c.Told) (ht : Ends d t) (ht' : Ends d t')
    (h : cs.flatMap (rows d) ++ t = cs'.flatMap (rows d) ++ t') : List.Forall₂ Alike cs cs' ∧ t = t' := by
  induction cs generalizing cs' with
  | nil =>
    cases cs' with
    | nil => exact ⟨.nil, h⟩
    | cons c' cs' =>
      -- The rest of the first rows would have to begin with code that is not in it.
      rw [List.flatMap_nil, List.nil_append, List.flatMap_cons, List.append_assoc] at h
      exact absurd (h ▸ ht) (not_ends_rows d c' _)
  | cons c cs ih =>
    cases cs' with
    | nil =>
      rw [List.flatMap_cons, List.append_assoc, List.flatMap_nil, List.nil_append] at h
      exact absurd (h ▸ ht') (not_ends_rows d c _)
    | cons c' cs' =>
      rw [List.forall_mem_cons] at hcs
      rw [List.flatMap_cons, List.flatMap_cons, List.append_assoc, List.append_assoc] at h
      obtain ⟨halike, hrest⟩ := hcs.1 d c' _ _ (ends_rowsAll cs (ends_succ ht)) (ends_rowsAll cs' (ends_succ ht')) h
      obtain ⟨hall, hrest⟩ := ih hcs.2 hrest
      exact ⟨.cons halike hall, hrest⟩

/-- The rows of code tell its instructions and where they end. -/
theorem told (c : Code) : c.Told := by
  induction c using Code.induction with
  | h c hoperands _ =>
    intro d c' t t' ht ht' h
    rw [rows_eq, rows_eq, List.cons_append, List.cons_append] at h
    obtain ⟨hrow, hrest⟩ := List.cons.inj h
    obtain ⟨hall, hrest⟩ := rowsAll_inj hoperands ht ht' hrest
    exact ⟨.intro (ListingRow.code.inj hrow).2 hall, hrest⟩

/-! ## Where routines end -/

theorem ends_routineRowsAll {cs : List Code}
    (hcs : ∀ c ∈ cs, ∀ t, Ends 0 t → Ends 0 (c.routineRows ++ t)) (h : Ends 0 t) :
    Ends 0 (cs.flatMap routineRows ++ t) := by
  induction cs with
  | nil => exact h
  | cons c cs ih =>
    rw [List.forall_mem_cons] at hcs
    rw [List.flatMap_cons, List.append_assoc]
    exact hcs.1 _ (ih hcs.2)

/-- Rows of routines begin with a heading. -/
theorem ends_routineRows (c : Code) : ∀ t, Ends 0 t → Ends 0 (c.routineRows ++ t) := by
  induction c using Code.induction with
  | h c hoperands _ =>
    intro t h
    cases hroutine : c.routine? with
    | some r =>
      obtain ⟨name, arity, frameSize, captures, body⟩ := r
      rw [eq_closure hroutine, routineRows, Routine.rows]
      exact nofun
    | none =>
      rw [routineRows_eq c hroutine]
      exact ends_routineRowsAll hoperands h

/-- Code that the rows of its routines tell, once its own rows have been read. -/
def RoutinesTold (c : Code) : Prop :=
  ∀ (c' : Code) (t t' : List ListingRow), Ends 0 t → Ends 0 t' → c.Alike c' →
    c.routineRows ++ t = c'.routineRows ++ t' → c = c' ∧ t = t'

theorem routineRowsAll_inj {cs cs' : List Code} (hcs : ∀ c ∈ cs, c.RoutinesTold) (halike : List.Forall₂ Alike cs cs')
    (ht : Ends 0 t) (ht' : Ends 0 t') (h : cs.flatMap routineRows ++ t = cs'.flatMap routineRows ++ t') :
    cs = cs' ∧ t = t' := by
  induction halike with
  | nil => exact ⟨rfl, h⟩
  | @cons c c' cs cs' hc hall ih =>
    rw [List.forall_mem_cons] at hcs
    rw [List.flatMap_cons, List.flatMap_cons, List.append_assoc, List.append_assoc] at h
    have hends (cs : List Code) {t : List ListingRow} : Ends 0 t → Ends 0 (cs.flatMap routineRows ++ t) :=
      ends_routineRowsAll fun c _ => c.ends_routineRows
    obtain ⟨rfl, hrows⟩ := hcs.1 c' _ _ (hends cs ht) (hends cs' ht') hc h
    obtain ⟨rfl, hrest⟩ := ih hcs.2 hrows
    exact ⟨rfl, hrest⟩

end Code

theorem CaptureLoad.rows_inj {captures captures' : List CaptureLoad} {t t' : List ListingRow}
    (ht : ∀ load, t.head? ≠ some (.capture load)) (ht' : ∀ load, t'.head? ≠ some (.capture load))
    (h : captures.map .capture ++ t = captures'.map .capture ++ t') : captures = captures' ∧ t = t' := by
  induction captures generalizing captures' with
  | nil =>
    cases captures' with
    | nil => exact ⟨rfl, h⟩
    | cons load' captures' => exact absurd (congrArg List.head? h) (ht load')
  | cons load captures ih =>
    cases captures' with
    | nil => exact absurd (congrArg List.head? h).symm (ht' load)
    | cons load' captures' =>
      obtain ⟨hload, hrows⟩ := List.cons.inj h
      obtain ⟨rfl, hrest⟩ := ih hrows
      cases hload
      exact ⟨rfl, hrest⟩

open ListingRow (Ends)

variable {t t' : List ListingRow}

/-- A routine is told by its rows: its captures end where its body begins, and the body where the next heading is. -/
theorem Routine.rows_inj {r r' : Routine} {label label' : String} (hbody : r.body.RoutinesTold)
    (hname : r.name = r'.name) (ht : Ends 0 t) (ht' : Ends 0 t') (h : r.rows label ++ t = r'.rows label' ++ t') :
    r = r' ∧ t = t' := by
  obtain ⟨name, arity, frameSize, captures, body⟩ := r
  obtain ⟨name', arity', frameSize', captures', body'⟩ := r'
  simp only [Routine.rows, List.cons_append, List.append_assoc] at h
  obtain ⟨hheading, h⟩ := List.cons.inj h
  have hcode (c : Code) (t : List ListingRow) : ∀ load, (c.rows 0 ++ t).head? ≠ some (.capture load) := by
    intro load
    rw [Code.rows_eq]
    exact nofun
  obtain ⟨hcaptures, h⟩ := CaptureLoad.rows_inj (hcode body _) (hcode body' _) h
  -- What follows the rows of the body is the next heading, inside the body or behind the routine.
  have hends := body.ends_routineRows t ht
  have hends' := body'.ends_routineRows t' ht'
  obtain ⟨halike, h⟩ := body.told 0 body' _ _ (Code.ends_succ hends) (Code.ends_succ hends') h
  obtain ⟨rfl, hrest⟩ := hbody body' t t' ht ht' halike h
  cases hname
  cases hheading
  cases hcaptures
  exact ⟨rfl, hrest⟩

/-- Closures come in the same order as their routines. -/
theorem Code.routinesTold (c : Code) : c.RoutinesTold := by
  induction c using Code.induction with
  | h c hoperands hroutines =>
    rintro c' t t' ht ht' ⟨hi, ho⟩ h
    have hsignature := signature_eq hi
    cases hroutine : c.routine? with
    | some r =>
      rw [hroutine, eq_comm, Option.map_some, Option.map_eq_some_iff] at hsignature
      obtain ⟨r', hroutine', hsignature⟩ := hsignature
      rw [eq_closure hroutine, eq_closure hroutine'] at h ⊢
      -- The name is not in the heading if there is none, but it is in the row of the closure.
      have hname : r.name = r'.name := (congrArg Prod.fst hsignature).symm
      obtain ⟨rfl, hrest⟩ := Routine.rows_inj (hroutines r hroutine) hname ht ht' h
      exact ⟨rfl, hrest⟩
    | none =>
      have hroutine' : c'.routine? = none := by
        rwa [hroutine, eq_comm, Option.map_none, Option.map_eq_none_iff] at hsignature
      rw [routineRows_eq c hroutine, routineRows_eq c' hroutine'] at h
      obtain ⟨hsame, hrest⟩ := routineRowsAll_inj hoperands ho ht ht' h
      exact ⟨eq_of_operands hi hsame (hroutine.trans hroutine'.symm), hrest⟩

/-- A program comes back from its rows, but for the name of its main routine. -/
theorem Program.rows_inj {p q : Program} (hname : p.main.name = q.main.name) (h : p.rows = q.rows) :
    p.main = q.main := by
  have hends : Ends 0 [] := nofun
  exact (Routine.rows_inj p.main.body.routinesTold hname hends hends (congrArg (· ++ []) h)).1

/-! ## The order of routines -/

mutual

/-- The routines in the closures of code, each one before those that it makes closures of. -/
def Code.routines : Code → List Routine
  | .const _ | .load _ | .global _ => []
  | .store _ value => value.routines
  | .block stores result => Code.routinesAll stores ++ result.routines
  | .cond test onTrue onFalse _ => test.routines ++ (onTrue.routines ++ onFalse.routines)
  | .closure ⟨name, arity, frameSize, captures, body⟩ => ⟨name, arity, frameSize, captures, body⟩ :: body.routines
  | .call callee args _ => callee.routines ++ Code.routinesAll args

def Code.routinesAll : List Code → List Routine
  | [] => []
  | c :: cs => c.routines ++ Code.routinesAll cs

end

mutual

/-- The routines that code makes closures of, without those that their own code does. -/
def Code.made : Code → List Routine
  | .const _ | .load _ | .global _ => []
  | .store _ value => value.made
  | .block stores result => Code.madeAll stores ++ result.made
  | .cond test onTrue onFalse _ => test.made ++ (onTrue.made ++ onFalse.made)
  | .closure routine => [routine]
  | .call callee args _ => callee.made ++ Code.madeAll args

def Code.madeAll : List Code → List Routine
  | [] => []
  | c :: cs => c.made ++ Code.madeAll cs

end

namespace Code

theorem routines_closure (r : Routine) : (closure r).routines = r :: r.body.routines := by
  cases r
  rw [routines]

theorem routinesAll_eq_flatMap (cs : List Code) : routinesAll cs = cs.flatMap routines := by
  induction cs with
  | nil => rfl
  | cons c cs ih => rw [routinesAll, ih, List.flatMap_cons]

theorem madeAll_eq_flatMap (cs : List Code) : madeAll cs = cs.flatMap made := by
  induction cs with
  | nil => rfl
  | cons c cs ih => rw [madeAll, ih, List.flatMap_cons]

theorem routines_eq (c : Code) (h : c.routine? = none) : c.routines = c.operands.flatMap routines := by
  cases c <;> simp_all [routines, routine?, operands, routinesAll_eq_flatMap]

theorem made_eq (c : Code) (h : c.routine? = none) : c.made = c.operands.flatMap made := by
  cases c <;> simp_all [made, routine?, operands, madeAll_eq_flatMap]

end Code

namespace Routine

mutual

/-- A routine comes first, and then, for each closure that its body makes, the routine of that closure with those that
it makes in turn. -/
inductive Unfolds : Routine → List Routine → Prop where
  | intro {r : Routine} {rs : List Routine} (h : UnfoldsAll r.body.made rs) : Unfolds r (r :: rs)

inductive UnfoldsAll : List Routine → List Routine → Prop where
  | nil : UnfoldsAll [] []
  | cons {r : Routine} {made rs rs' : List Routine} (h : Unfolds r rs) (hs : UnfoldsAll made rs') :
      UnfoldsAll (r :: made) (rs ++ rs')

end

theorem UnfoldsAll.append {made made' rs rs' : List Routine} (h' : UnfoldsAll made' rs') :
    UnfoldsAll made rs → UnfoldsAll (made ++ made') (rs ++ rs')
  | .nil => h'
  | .cons h hs => by
    rw [List.append_assoc]
    exact .cons h (UnfoldsAll.append h' hs)

mutual

/-- Each routine but the first stands behind one that makes closures of it. -/
theorem Unfolds.exists_maker {root r : Routine} {rs before after : List Routine} :
    Unfolds root rs → rs = before ++ r :: after → before = [] ∧ r = root ∨ ∃ maker ∈ before, r ∈ maker.body.made
  | .intro h, hrs => by
    cases before with
    | nil => exact .inl ⟨rfl, (List.cons.inj hrs).1.symm⟩
    | cons first before =>
      obtain ⟨rfl, hrest⟩ := List.cons.inj hrs
      rcases h.exists_maker hrest with hr | ⟨maker, hmaker, hr⟩
      · exact .inr ⟨root, List.mem_cons_self, hr⟩
      · exact .inr ⟨maker, List.mem_cons_of_mem _ hmaker, hr⟩

theorem UnfoldsAll.exists_maker {r : Routine} {made rs before after : List Routine} :
    UnfoldsAll made rs → rs = before ++ r :: after → r ∈ made ∨ ∃ maker ∈ before, r ∈ maker.body.made
  | .nil, hrs => by simp at hrs
  | .cons h hs, hrs => by
    rcases List.append_eq_append_iff.1 hrs with ⟨between, rfl, hrest⟩ | ⟨inside, hinside, hrest⟩
    · rcases hs.exists_maker hrest with hr | ⟨maker, hmaker, hr⟩
      · exact .inl (List.mem_cons_of_mem _ hr)
      · exact .inr ⟨maker, List.mem_append_right _ hmaker, hr⟩
    · cases inside with
      | nil =>
        -- The first family ends right before the routine.
        have hrest : _ = [] ++ r :: after := hrest.symm
        rcases hs.exists_maker hrest with hr | ⟨_, hmaker, -⟩
        · exact .inl (List.mem_cons_of_mem _ hr)
        · cases hmaker
      | cons r' inside =>
        obtain ⟨rfl, -⟩ := List.cons.inj hrest
        rcases h.exists_maker hinside with ⟨-, rfl⟩ | hmaker
        · exact .inl List.mem_cons_self
        · exact .inr hmaker

end

end Routine

theorem Code.unfolds (c : Code) : Routine.UnfoldsAll c.made c.routines := by
  induction c using Code.induction with
  | h c hoperands hroutines =>
    cases hroutine : c.routine? with
    | some r =>
      rw [eq_closure hroutine, made, routines_closure, ← List.append_nil (r :: r.body.routines)]
      exact .cons (.intro (hroutines r hroutine)) .nil
    | none =>
      rw [made_eq c hroutine, routines_eq c hroutine]
      generalize c.operands = cs at hoperands
      induction cs with
      | nil => exact .nil
      | cons c cs ih =>
        rw [List.forall_mem_cons] at hoperands
        rw [List.flatMap_cons, List.flatMap_cons]
        exact .append (ih hoperands.2) hoperands.1

/-! ## Headings -/

/-- The text of a heading. -/
def Routine.heading (label : String) (r : Routine) : String :=
  s!"== {label}/{r.arity} frame={Word.text r.frameSize} =="

/-- Whether a row of a text is a heading. -/
def Text.isHeading (row : String) : Bool := (Text.words row).head? == some "=="

namespace ListingRow

def isHeading : ListingRow → Bool
  | heading _ _ _ => true
  | _ => false

theorem text_heading (globals : Prelude) (label : String) (r : Routine) :
    text globals (.heading label r.arity r.frameSize) = r.heading label := by
  simp [text, Text.ofWords, indent, words, Routine.heading, ← String.toList_inj]

/-- The first word of a row tells whether it is a heading. -/
theorem isHeading_text {globals : Prelude} (hg : globals.Tells) {row : ListingRow} (h : row.Readable globals) :
    Text.isHeading (row.text globals) = row.isHeading := by
  obtain ⟨w, ws, hwords, -⟩ := row.exists_words globals
  rw [Text.isHeading, text, Text.words_ofWords _ (by simp [hwords]) (h.isWord hg)]
  cases row with
  | heading label arity frameSize => rfl
  | capture load => rfl
  | code depth i =>
    cases depth with
    | succ depth => rfl
    | zero =>
      obtain ⟨w, ws, hwords, -, hw, -⟩ := i.exists_words globals
      simp [indent, words, hwords, hw, isHeading]

theorem headings_textAll {globals : Prelude} (hg : globals.Tells) {rows : List ListingRow}
    (h : ∀ row ∈ rows, row.Readable globals) :
    (Text.rows (textAll globals rows)).filter Text.isHeading = (rows.filter isHeading).map (text globals) := by
  have hlast : [""].filter Text.isHeading = [] := by decide
  rw [textAll, Text.rows_ofRows (oneLine_texts hg h), List.filter_append, hlast, List.append_nil, List.filter_map]
  exact congrArg _ (List.filter_congr fun row hrow => isHeading_text hg (h row hrow))

end ListingRow

/-- The heading of a routine under its own label. -/
def Routine.headingRow (r : Routine) : ListingRow := .heading r.label r.arity r.frameSize

namespace Code

open ListingRow (isHeading)

theorem not_isHeading (c : Code) : ∀ d, ∀ row ∈ c.rows d, ¬ row.isHeading := by
  induction c using Code.induction with
  | h c hoperands _ =>
    intro d row hrow
    rw [rows_eq, List.mem_cons, List.mem_flatMap] at hrow
    rcases hrow with rfl | ⟨x, hx, hrow⟩
    · exact nofun
    · exact hoperands x hx (d + 1) row hrow

end Code

theorem Routine.filter_rows (label : String) {r : Routine}
    (hbody : r.body.routineRows.filter ListingRow.isHeading = r.body.routines.map headingRow) :
    (r.rows label).filter ListingRow.isHeading =
      .heading label r.arity r.frameSize :: r.body.routines.map headingRow := by
  obtain ⟨name, arity, frameSize, captures, body⟩ := r
  have hcaptures : (captures.map ListingRow.capture).filter ListingRow.isHeading = [] := by
    rw [List.filter_eq_nil_iff]
    rintro _ hrow
    obtain ⟨load, -, rfl⟩ := List.mem_map.1 hrow
    exact nofun
  have hcode := List.filter_eq_nil_iff.2 (body.not_isHeading 0)
  rw [Routine.rows, List.filter_cons_of_pos rfl, List.filter_append, List.filter_append, hcaptures, hcode, hbody]
  rfl

theorem Code.filter_routineRows (c : Code) :
    c.routineRows.filter ListingRow.isHeading = c.routines.map Routine.headingRow := by
  induction c using Code.induction with
  | h c hoperands hroutines =>
    cases hroutine : c.routine? with
    | some r =>
      rw [eq_closure hroutine, routineRows, routines_closure]
      exact Routine.filter_rows r.label (hroutines r hroutine)
    | none =>
      rw [routineRows_eq c hroutine, routines_eq c hroutine, List.filter_flatMap, List.map_flatMap]
      exact List.flatMap_congr hoperands

/-- A listing has a heading for the main routine and one for each routine inside it, in the order in which they are
made. -/
theorem Program.headings_listing {p : Program} (hg : p.globals.Tells) (h : ∀ row ∈ p.rows, row.Readable p.globals) :
    (Text.rows p.listing).filter Text.isHeading =
      p.main.heading "<main>" :: p.main.body.routines.map fun r => r.heading r.label := by
  rw [p.listing_eq, ListingRow.headings_textAll hg h, Program.rows,
    Routine.filter_rows "<main>" (Code.filter_routineRows _), List.map_cons, List.map_map, ListingRow.text_heading]
  exact congrArg _ (List.map_congr_left fun r _ => ListingRow.text_heading p.globals r.label r)

end ClosureLang
