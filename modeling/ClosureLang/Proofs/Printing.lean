import ClosureLang.Expr.Printer
import ClosureLang.Proofs.Completeness
import ClosureLang.Proofs.Literals

/-!
# The text of a tree

The text of a tree that was read is a program again, and stands for the same tree. Only infinity is lost: it has no
literal, and its text is a name. The proof has two parts. The words of the text are a phrase of the grammar, whose
operators have become calls and whose lambdas and conditions stand in parentheses. And the text spells these words,
since every name and every literal in it is broken off by what follows.
-/

namespace ClosureLang

open Token (Kind kinds)

namespace Expr

mutual

/-- The names and the literals of a tree, as words. -/
def leaves : Expr → List Kind
  | number _ value => [.number value]
  | name _ x _ => [.identifier x]
  | call _ callee args => callee.leaves ++ leavesAll args
  | lambda _ params body _ _ => leavesAll params ++ body.leaves
  | block _ statements => leavesAll statements
  | assign _ x value _ => .identifier x :: value.leaves
  | cond _ test onTrue onFalse => test.leaves ++ (onTrue.leaves ++ onFalse.leaves)

def leavesAll : List Expr → List Kind
  | [] => []
  | e :: es => e.leaves ++ leavesAll es

end

mutual

/-- The words of the text of a tree. -/
def words : Expr → List Kind
  | number _ value => [if value.isFinite then .number value else .identifier "inf"]
  | name _ x _ => [.identifier x]
  | call _ callee args => callee.words ++ .leftParen :: (wordsAll .comma args ++ [.rightParen])
  | lambda _ params body _ _ =>
    .leftParen :: .leftParen :: (wordsAll .comma params ++ .rightParen :: .arrow :: (body.words ++ [.rightParen]))
  | block _ statements => .leftBrace :: (wordsAll .semicolon statements ++ [.rightBrace])
  | assign _ x value _ => .identifier x :: .equal :: value.words
  | cond _ test onTrue onFalse =>
    .leftParen :: (test.words ++ .question :: (onTrue.words ++ .colon :: (onFalse.words ++ [.rightParen])))

def wordsAll (separator : Kind) : List Expr → List Kind
  | [] => []
  | [e] => e.words
  | e :: es => e.words ++ separator :: wordsAll separator es

end

mutual

/-- The tree that the text of a tree stands for. Infinity is read as a name. -/
def reread : Expr → Expr
  | number span value => if value.isFinite then number span value else name span "inf" none
  | name span x var => name span x var
  | call span callee args => call span callee.reread (rereadAll args)
  | lambda span params body frame label => lambda span (rereadAll params) body.reread frame label
  | block span statements => block span (rereadAll statements)
  | assign span x value var => assign span x value.reread var
  | cond span test onTrue onFalse => cond span test.reread onTrue.reread onFalse.reread

def rereadAll : List Expr → List Expr
  | [] => []
  | e :: es => e.reread :: rereadAll es

end

/-! ## Shapes -/

mutual

theorem text_shape : (e : Expr) → e.shape.text = e.text
  | number .. | name .. => rfl
  | call _ callee args => by rw [shape, text, text, text_shape callee, textList_shapeAll]
  | lambda _ params body _ _ => by rw [shape, text, text, text_shape body, textList_shapeAll]
  | block _ statements => by rw [shape, text, text, textList_shapeAll]
  | assign _ _ value _ => by rw [shape, text, text, text_shape value]
  | cond _ test onTrue onFalse => by
    rw [shape, text, text, text_shape test, text_shape onTrue, text_shape onFalse]

theorem textList_shapeAll (separator : String) : (es : List Expr) →
    textList separator (shapeAll es) = textList separator es
  | [] => rfl
  | [e] => text_shape e
  | e :: e' :: es => by
    have htail := textList_shapeAll separator (e' :: es)
    simp only [shapeAll] at htail ⊢
    simp only [textList, text_shape e, htail]

end

mutual

theorem leaves_shape : (e : Expr) → e.shape.leaves = e.leaves
  | number .. | name .. => rfl
  | call _ callee args => by rw [shape, leaves, leaves, leaves_shape callee, leavesAll_shapeAll]
  | lambda _ params body _ _ => by rw [shape, leaves, leaves, leaves_shape body, leavesAll_shapeAll]
  | block _ statements => by rw [shape, leaves, leaves, leavesAll_shapeAll]
  | assign _ _ value _ => by rw [shape, leaves, leaves, leaves_shape value]
  | cond _ test onTrue onFalse => by
    rw [shape, leaves, leaves, leaves_shape test, leaves_shape onTrue, leaves_shape onFalse]

theorem leavesAll_shapeAll : (es : List Expr) → leavesAll (shapeAll es) = leavesAll es
  | [] => rfl
  | e :: es => by rw [shapeAll, leavesAll, leavesAll, leaves_shape e, leavesAll_shapeAll es]

end

/-! ## Infinity -/

mutual

/-- Only infinity is read as something else. -/
theorem reread_eq_self_iff : (e : Expr) → (e.reread = e ↔ ∀ value, .number value ∈ e.leaves → value.isFinite)
  | number _ value => by
    by_cases h : value.isFinite <;> simp [reread, leaves, h]
  | name .. => by simp [reread, leaves]
  | call _ callee args => by
    simp only [reread, leaves, call.injEq, true_and, reread_eq_self_iff callee, rereadAll_eq_self_iff args,
      List.mem_append, or_imp, forall_and]
  | lambda _ params body _ _ => by
    simp only [reread, leaves, lambda.injEq, true_and, and_true, reread_eq_self_iff body, rereadAll_eq_self_iff params,
      List.mem_append, or_imp, forall_and]
  | block _ statements => by
    simp only [reread, leaves, block.injEq, true_and, rereadAll_eq_self_iff statements]
  | assign _ _ value _ => by
    simp only [reread, leaves, assign.injEq, true_and, and_true, reread_eq_self_iff value, List.mem_cons,
      reduceCtorEq, false_or]
  | cond _ test onTrue onFalse => by
    simp only [reread, leaves, cond.injEq, true_and, reread_eq_self_iff test, reread_eq_self_iff onTrue,
      reread_eq_self_iff onFalse, List.mem_append, or_imp, forall_and]

theorem rereadAll_eq_self_iff : (es : List Expr) →
    (rereadAll es = es ↔ ∀ value, .number value ∈ leavesAll es → value.isFinite)
  | [] => by simp [rereadAll, leavesAll]
  | e :: es => by
    simp only [rereadAll, leavesAll, List.cons.injEq, reread_eq_self_iff e, rereadAll_eq_self_iff es, List.mem_append,
      or_imp, forall_and]

end

theorem reread_labelled (e : Expr) (x : String) : (e.labelled x).reread = e.reread.labelled x := by
  cases e with
  | number span value => by_cases h : value.isFinite <;> simp [reread, labelled, h]
  | _ => rfl

theorem leaves_labelled (e : Expr) (x : String) : (e.labelled x).leaves = e.leaves := by
  cases e <;> rfl

theorem words_labelled (e : Expr) (x : String) : (e.labelled x).words = e.words := by
  cases e <;> rfl

end Expr

/-! ## The words are in the grammar -/

namespace Grammar

theorem Phrase.grouped {ks : List Kind} {t : Expr} {e : Ending} (h : Phrase .expression e ks t) :
    Phrase .application .closed (.leftParen :: (ks ++ [.rightParen])) t :=
  (Phrase.group (.last (.expression h))).loosen (by decide)

theorem name_application (x : String) : Phrase .application .closed [.identifier x] (.name .unknown x none) :=
  Phrase.name.loosen (by decide)

theorem operation_words {operands : List Expr} (function : String)
    (h : Items .arguments (Expr.wordsAll .comma operands) (Expr.rereadAll operands)) :
    Phrase .application .closed (operation function operands).words (operation function operands).reread :=
  .call (name_application function) h

theorem lambda_words {params : List Expr} {body : Expr}
    (hParams : Items .arguments (Expr.wordsAll .comma params) (Expr.rereadAll params))
    (h : Phrase .application .closed body.words body.reread) :
    let t := Expr.lambda .unknown params body none none
    Phrase .application .closed t.words t.reread := by
  have hlambda := Phrase.lambda hParams (h.loosen (by decide))
  have hgroup := (hlambda.loosen (m := .expression) (by decide)).grouped
  simpa [Expr.words, Expr.reread] using hgroup

mutual

/-- The words of the text of a phrase are a phrase that takes arguments, with the same tree. -/
theorem Phrase.words {l : Level} {e : Ending} {ks : List Kind} {t : Expr} :
    Phrase l e ks t → Phrase .application .closed t.words t.reread
  | .tighter h => h.words
  | .choice hTest hTrue hFalse => by
    have hchoice := Phrase.choice (hTest.words.loosen (by decide)) (hTrue.words.loosen (by decide))
      (hFalse.words.loosen (by decide))
    simpa [Expr.words, Expr.reread] using hchoice.grouped
  | .operator _ hLeft hRight =>
    operation_words _ (.more (.expression (hLeft.words.loosen (by decide)))
      (.last (.expression (hRight.words.loosen (by decide)))))
  | .sign _ h => operation_words _ (.last (.expression (h.words.loosen (by decide))))
  | .call hCallee hArgs => .call hCallee.words hArgs.words
  | @Phrase.number value => by
    by_cases hfinite : value.isFinite
    · simpa [Expr.words, Expr.reread, hfinite] using Phrase.number.loosen (m := .application) (by decide)
    · simpa [Expr.words, Expr.reread, hfinite] using name_application "inf"
  | .name => name_application _
  -- The tree does not know of the parentheses, and the text has its own.
  | .group (.last (.expression h)) => h.words
  | .group (.more (.expression h) _) => h.words
  | .block h => (Phrase.block h.words).loosen (by decide)
  | .lambdaOfName h => lambda_words (.last (.expression ((name_application _).loosen (by decide)))) h.words
  | .lambda hParams h => lambda_words hParams.words h.words

theorem Item.words {k : Listing} {ks : List Kind} {t : Expr} : Item k ks t → Item k t.words t.reread
  | .expression h => .expression (h.words.loosen (by decide))
  | .assignment h => by
    simpa [Expr.words, Expr.reread, Expr.words_labelled, Expr.reread_labelled] using
      Item.assignment (h.words.loosen (by decide))

theorem Items.words {k : Listing} {ks : List Kind} {ts : List Expr} :
    Items k ks ts → Items k (Expr.wordsAll k.separator ts) (Expr.rereadAll ts)
  | .nil => .nil
  | .last h => .last h.words
  -- The text has no separator after the last item, even where the words had one.
  | @Items.more _ _ _ _ [] h _ => .last h.words
  | @Items.more _ _ _ _ (_ :: _) h hs => .more h.words hs.words

end

theorem Program.words {ks : List Kind} {t : Expr} (h : Program ks t) : Program t.words t.reread := by
  cases h with
  | single h =>
    cases h with
    | last h => exact .single (.last h.words)
    | more h _ => exact .single (.last h.words)
  | several h => exact .single (.last (.expression ((Phrase.block h.words).loosen (by decide))))

end Grammar

/-! ## The text spells the words -/

namespace Token

/-- Whether a text is a name. -/
def isName (x : String) : Bool :=
  match x.toList with
  | [] => false
  | c :: cs => isNameStart c && cs.all isNamePart

/-- A word of the kind comes from a text. -/
def Spellable : Kind → Prop
  | .identifier x => isName x
  | .number value => ∃ w ≤ Binary64.infinity, value = Binary64.ofWord false w
  | _ => True

theorem spellable_of_lexeme? {cs : List Char} {kind : Kind} {n : Nat} (h : lexeme? cs = some (kind, n)) :
    Spellable kind := by
  unfold lexeme? at h
  split at h
  · next spelling kind' hfound =>
    have hall : ∀ s ∈ symbols, Spellable s.2 := by simp [symbols, Spellable]
    cases h
    exact hall _ (List.mem_of_find?_eq_some hfound)
  · split at h
    · cases h
    · next c cs _ =>
      split at h
      · cases h
        exact ⟨_, Decimal.toWord_le _, rfl⟩
      · split at h
        · next hstart =>
          cases h
          have hpart := isNamePart_of_isNameStart hstart
          simp [Spellable, isName, hpart, hstart]
        · cases h

end Token

theorem Lexer.Spells.spellable {l : Lexer} {ws : List Token.Proper} {stop : Token} (h : Spells l ws stop) :
    ∀ k ∈ kinds ws, Token.Spellable k := by
  induction h with
  | stop _ => simp
  | word h _ ih =>
    rw [Token.kinds_cons, List.forall_mem_cons]
    exact ⟨Token.spellable_of_lexeme? h, ih⟩

namespace Grammar

open Token (Spellable)

theorem spellable_operator {l : Level} {op : Kind} {function : String} (h : (op, function) ∈ operators l) :
    Spellable (.identifier function) := by
  have hall : ∀ p ∈ operators l, Token.isName p.2 := by cases l <;> decide
  exact hall _ h

theorem spellable_sign {op : Kind} {function : String} (h : (op, function) ∈ signs) :
    Spellable (.identifier function) := by
  have hall : ∀ p ∈ signs, Token.isName p.2 := by decide
  exact hall _ h

mutual

/-- The names and literals of a tree are among its words, those of the functions that operators call apart. -/
theorem Phrase.spellable {l : Level} {e : Ending} {ks : List Kind} {t : Expr} :
    Phrase l e ks t → (∀ k ∈ ks, Spellable k) → ∀ k ∈ t.leaves, Spellable k
  | .tighter h, hks => h.spellable hks
  | .choice hTest hTrue hFalse, hks => by
    simp only [List.forall_mem_append, List.forall_mem_cons, Expr.leaves] at hks ⊢
    exact ⟨hTest.spellable hks.1, hTrue.spellable hks.2.2.1, hFalse.spellable hks.2.2.2.2⟩
  | .operator hOp hLeft hRight, hks => by
    simp only [List.forall_mem_append, List.forall_mem_cons] at hks
    simp only [operation, Expr.leaves, Expr.leavesAll, List.forall_mem_append, List.forall_mem_singleton,
      List.append_nil]
    exact ⟨spellable_operator hOp, hLeft.spellable hks.1, hRight.spellable hks.2.2⟩
  | .sign hOp h, hks => by
    simp only [List.forall_mem_cons] at hks
    simp only [operation, Expr.leaves, Expr.leavesAll, List.forall_mem_append, List.forall_mem_singleton,
      List.append_nil]
    exact ⟨spellable_sign hOp, h.spellable hks.2⟩
  | .call hCallee hArgs, hks => by
    simp only [List.forall_mem_append, List.forall_mem_cons, Expr.leaves] at hks ⊢
    exact ⟨hCallee.spellable hks.1, hArgs.spellable hks.2.2.1⟩
  | .number, hks => hks
  | .name, hks => hks
  | .group (.last (.expression h)), hks => by
    simp only [List.forall_mem_append, List.forall_mem_cons] at hks
    exact h.spellable hks.2.1
  | .group (.more (.expression h) _), hks => by
    simp only [List.forall_mem_append, List.forall_mem_cons] at hks
    exact h.spellable hks.2.1.1
  | .block h, hks => by
    simp only [List.forall_mem_append, List.forall_mem_cons] at hks
    exact h.spellable hks.2.1
  | .lambdaOfName h, hks => by
    simp only [List.forall_mem_cons] at hks
    simp only [Expr.leaves, Expr.leavesAll, List.append_nil, List.forall_mem_append, List.forall_mem_singleton]
    exact ⟨hks.1, h.spellable hks.2.2⟩
  | .lambda hParams h, hks => by
    simp only [List.forall_mem_append, List.forall_mem_cons, Expr.leaves] at hks ⊢
    exact ⟨hParams.spellable hks.2.1, h.spellable hks.2.2.2.2⟩

theorem Item.spellable {k : Listing} {ks : List Kind} {t : Expr} :
    Item k ks t → (∀ k ∈ ks, Spellable k) → ∀ k ∈ t.leaves, Spellable k
  | .expression h, hks => h.spellable hks
  | .assignment h, hks => by
    simp only [List.forall_mem_cons, Expr.leaves, Expr.leaves_labelled] at hks ⊢
    exact ⟨hks.1, h.spellable hks.2.2⟩

theorem Items.spellable {k : Listing} {ks : List Kind} {ts : List Expr} :
    Items k ks ts → (∀ k ∈ ks, Spellable k) → ∀ k ∈ Expr.leavesAll ts, Spellable k
  | .nil, _ => by simp [Expr.leavesAll]
  | .last h, hks => by
    rw [Expr.leavesAll, Expr.leavesAll, List.append_nil]
    exact h.spellable hks
  | .more h hs, hks => by
    simp only [List.forall_mem_append, List.forall_mem_cons, Expr.leavesAll] at hks ⊢
    exact ⟨h.spellable hks.1, hs.spellable hks.2.2⟩

end

theorem Program.spellable {ks : List Kind} {t : Expr} (h : Program ks t) (hks : ∀ k ∈ ks, Spellable k) :
    ∀ k ∈ t.leaves, Spellable k := by
  cases h with
  | single h => simpa [Expr.leavesAll] using h.spellable hks
  | several h => exact h.spellable hks

end Grammar

namespace Lexer

variable {cs rest : List Char} {ks : List Kind}

theorem Lexes.equal (h : Lexes cs ks) : Lexes ('=' :: ' ' :: cs) (.equal :: ks) := by
  exact Lexes.word rfl (gapLength_of_not_isBlank (by decide) (by decide) _) (h.blank (by decide))

theorem Lexes.name {x : String} (h : Lexes rest ks) (hx : Token.isName x) (hrest : Token.Breaks rest) :
    Lexes (x.toList ++ rest) (.identifier x :: ks) := by
  unfold Token.isName at hx
  split at hx
  · cases hx
  · next c cs heq =>
    obtain ⟨hstart, hparts⟩ := Bool.and_eq_true_iff.1 hx
    have hall : (c :: cs).takeWhile Token.isNamePart = c :: cs := by
      rw [List.takeWhile_eq_self_iff, List.forall_mem_cons]
      exact ⟨Token.isNamePart_of_isNameStart hstart, List.all_eq_true.1 hparts⟩
    have hlexeme : Token.lexeme? (c :: cs ++ rest) = some (.identifier x, (c :: cs).length) := by
      rw [Token.lexeme?_append (.inr hstart) cs hrest, Token.lexeme?_of_isNameStart hstart, hall, ← heq,
        String.ofList_toList]
    rw [heq]
    refine Lexes.word hlexeme (gapLength_of_isNamePart (Token.isNamePart_of_isNameStart hstart) _) ?_
    rwa [List.drop_left]

theorem Lexes.literal {w : Nat} (h : Lexes rest ks) (hw : w < Binary64.infinity) (hrest : Token.Breaks rest) :
    Lexes ((Number.text (Binary64.ofWord false w)).toList ++ rest) (.number (Binary64.ofWord false w) :: ks) := by
  obtain ⟨c, cs, htext, hc, hlexeme⟩ := Number.lexeme?_text hw
  rw [htext]
  refine Lexes.word (hlexeme rest hrest) (gapLength_of_isNamePart (Token.isNamePart_of_isDigit hc) _) ?_
  rwa [List.drop_left]

end Lexer

namespace Expr

open Lexer
open Token (Spellable Breaks)

theorem breaks_cons {c : Char} (cs : List Char) (h : Token.isNamePart c = false ∧ c ≠ '.' ∧ c ≠ '+' ∧ c ≠ '-') :
    Breaks (c :: cs) := by
  intro d hd
  cases hd
  exact h

/-- The text between the items of a list is the word between them, and breaks the items off. -/
structure Separates (separator : String) (k : Kind) : Prop where
  breaks : ∀ cs, Breaks (separator.toList ++ cs)
  lexes : ∀ cs ks, Lexes cs ks → Lexes (separator.toList ++ cs) (k :: ks)

theorem separates_of_mem {separator : String} {c : Char} {k : Kind} (h : separator.toList = [c, ' '])
    (hc : (c, k) ∈ [(',', .comma), (';', .semicolon)]) : Separates separator k := by
  simp only [List.mem_cons, Prod.mk.injEq, List.not_mem_nil, or_false] at hc
  constructor <;> rw [h]
  · intro cs
    apply breaks_cons
    rcases hc with ⟨rfl, -⟩ | ⟨rfl, -⟩ <;> decide
  · intro cs ks hcs
    apply (hcs.blank (by decide)).delimiter
    rcases hc with ⟨rfl, rfl⟩ | ⟨rfl, rfl⟩ <;> simp

theorem separates_comma : Separates ", " .comma := separates_of_mem (c := ',') rfl (by simp)

theorem separates_semicolon : Separates "; " .semicolon := separates_of_mem (c := ';') rfl (by simp)

mutual

/-- The text of a tree spells its words, before everything that breaks names and literals off. -/
theorem lexes_text : (e : Expr) → (∀ k ∈ e.leaves, Spellable k) → ∀ (rest : List Char) (ks : List Kind),
    Breaks rest → Lexes rest ks → Lexes (e.text.toList ++ rest) (e.words ++ ks)
  | number _ value, hleaves => by
    intro rest ks hrest h
    obtain ⟨w, hw, rfl⟩ := hleaves _ List.mem_cons_self
    by_cases hfinite : w < Binary64.infinity
    · simpa [text, words, (Binary64.isFinite_ofWord_iff hw).2 hfinite] using h.literal hfinite hrest
    · obtain rfl : w = Binary64.infinity := Nat.le_antisymm hw (Nat.le_of_not_lt hfinite)
      have hinfinite := mt (Binary64.isFinite_ofWord_iff hw).1 hfinite
      simp only [text, words, hinfinite, Number.text_infinity]
      exact h.name (by decide) hrest
  | name _ x _, hleaves => fun rest ks hrest h => h.name (hleaves _ List.mem_cons_self) hrest
  | call _ callee args, hleaves => by
    -- The text is put together from its end, here and below: each piece comes before one that is spelt already.
    intro rest ks hrest h
    simp only [leaves, List.forall_mem_append] at hleaves
    have hclose := h.delimiter (c := ')') (k := .rightParen) (by simp)
    have hargs := lexes_textList separates_comma args hleaves.2 _ _ (breaks_cons rest (by decide)) hclose
    have hopen := hargs.delimiter (c := '(') (k := .leftParen) (by simp)
    have hcall := lexes_text callee hleaves.1 _ _ (breaks_cons _ (by decide)) hopen
    simpa [text, words] using hcall
  | lambda _ params body _ _, hleaves => by
    intro rest ks hrest h
    simp only [leaves, List.forall_mem_append] at hleaves
    have hclose := h.delimiter (c := ')') (k := .rightParen) (by simp)
    have hbody := lexes_text body hleaves.2 _ _ (breaks_cons rest (by decide)) hclose
    have harrow := (hbody.blank (c := ' ') (by decide)).arrow
    have hmiddle := (harrow.blank (c := ' ') (by decide)).delimiter (c := ')') (k := .rightParen) (by simp)
    have hparams := lexes_textList separates_comma params hleaves.1 _ _ (breaks_cons _ (by decide)) hmiddle
    have hopen := (hparams.delimiter (c := '(') (k := .leftParen) (by simp)).delimiter (c := '(') (k := .leftParen)
      (by simp)
    simpa [text, words] using hopen
  | block _ statements, hleaves => by
    intro rest ks hrest h
    have hclose := h.delimiter (c := '\x7d') (k := .rightBrace) (by simp)
    have hstatements := lexes_textList separates_semicolon statements hleaves _ _ (breaks_cons rest (by decide)) hclose
    have hopen := hstatements.delimiter (c := '\x7b') (k := .leftBrace) (by simp)
    simpa [text, words] using hopen
  | assign _ x value _, hleaves => by
    intro rest ks hrest h
    simp only [leaves, List.forall_mem_cons] at hleaves
    have hvalue := lexes_text value hleaves.2 _ _ hrest h
    have hequal := hvalue.equal.blank (c := ' ') (by decide)
    have hname := hequal.name hleaves.1 (breaks_cons _ (by decide))
    simpa [text, words] using hname
  | cond _ test onTrue onFalse, hleaves => by
    intro rest ks hrest h
    simp only [leaves, List.forall_mem_append] at hleaves
    have hclose := h.delimiter (c := ')') (k := .rightParen) (by simp)
    have hFalse := lexes_text onFalse hleaves.2.2 _ _ (breaks_cons rest (by decide)) hclose
    have hcolon := (hFalse.blank (c := ' ') (by decide)).delimiter (c := ':') (k := .colon) (by simp)
    have hTrue := lexes_text onTrue hleaves.2.1 _ _ (breaks_cons _ (by decide)) (hcolon.blank (c := ' ') (by decide))
    have hquestion := (hTrue.blank (c := ' ') (by decide)).delimiter (c := '?') (k := .question) (by simp)
    have htest := lexes_text test hleaves.1 _ _ (breaks_cons _ (by decide)) (hquestion.blank (c := ' ') (by decide))
    have hopen := htest.delimiter (c := '(') (k := .leftParen) (by simp)
    simpa [text, words] using hopen

theorem lexes_textList {separator : String} {k : Kind} (hseparator : Separates separator k) : (es : List Expr) →
    (∀ k ∈ leavesAll es, Spellable k) → ∀ (rest : List Char) (ks : List Kind),
    Breaks rest → Lexes rest ks → Lexes ((textList separator es).toList ++ rest) (wordsAll k es ++ ks)
  | [], _ => fun _ _ _ h => h
  | [e], hleaves => by
    intro rest ks hrest h
    simp only [leavesAll, List.append_nil] at hleaves
    exact lexes_text e hleaves rest ks hrest h
  | e :: e' :: es, hleaves => by
    intro rest ks hrest h
    rw [leavesAll, List.forall_mem_append] at hleaves
    have htail := hseparator.lexes _ _ (lexes_textList hseparator (e' :: es) hleaves.2 rest ks hrest h)
    have htext := lexes_text e hleaves.1 _ _ (hseparator.breaks _) htail
    simpa [textList, wordsAll] using htext

end

/-- The text of a tree that was read spells a tree again, unless that is nested too deeply for the reader. It is the
same tree if and only if all literals are finite. -/
theorem text_reads_back {source : String} {tokens : List Token} {e : Expr}
    (hlex : Token.ofSource source = .ok tokens) (hparse : Expr.ofTokens tokens = .ok e) :
    ∃ tokens', Token.ofSource e.text = .ok tokens' ∧
      ((∃ err, Expr.ofTokens tokens' = .error err ∧ err.problem = .nestedTooDeeply) ∨
        ∃ e', Expr.ofTokens tokens' = .ok e' ∧
          (e'.shape = e.shape ↔ ∀ value, .number value ∈ e.leaves → value.isFinite)) := by
  obtain ⟨ws, stop, hspells, rfl⟩ := Lexer.ofSource_eq_ok_iff.1 hlex
  have hprogram : Grammar.Program (kinds ws) e.shape := by
    rcases Parser.ofTokens_outcome (Parser.program_reads hspells.stop_kind ws) with ⟨_, _, hok, h⟩ | ⟨_, herror, -⟩
    · cases hparse.symm.trans hok
      exact h
    · cases hparse.symm.trans herror
  have hlexes := lexes_text e.shape (hprogram.spellable hspells.spellable) [] [] Token.breaks_nil Lexer.lexes_nil
  rw [List.append_nil, List.append_nil, text_shape] at hlexes
  -- The words that the text spells are those of a program, which the reader finds if nesting is no obstacle.
  obtain ⟨ws', stop', hspells', hkinds⟩ := hlexes .start
  refine ⟨_, Lexer.ofSource_eq_ok_iff.2 ⟨ws', stop', hspells', rfl⟩, ?_⟩
  have hwords := hprogram.words
  rw [← hkinds] at hwords
  rcases Parser.ofTokens_outcome (Parser.program_finds hspells'.stop_kind hwords) with
    ⟨e', _, hok, hshape, -⟩ | ⟨err, herror, hdeep⟩
  · refine .inr ⟨e', hok, ?_⟩
    rw [hshape, reread_eq_self_iff, leaves_shape]
  · exact .inl ⟨err, herror, hdeep⟩

/-- A program with every kind of node, and with a literal that is too large. -/
def overflowing : String := "f = (x, 0) -> x ? -x : \x7bg(x); 1e999\x7d; f(0)"

/-- The tree of a source, if it has one. -/
def read? (source : String) : Option Expr :=
  (Token.ofSource source).toOption.bind fun tokens => (Expr.ofTokens tokens).toOption

theorem exists_of_read? {source : String} {e : Expr} (h : read? source = some e) :
    ∃ tokens, Token.ofSource source = .ok tokens ∧ Expr.ofTokens tokens = .ok e := by
  unfold read? at h
  cases htokens : Token.ofSource source with
  | error err =>
    rw [htokens] at h
    cases h
  | ok tokens =>
    rw [htokens] at h
    change (Expr.ofTokens tokens).toOption = some e at h
    refine ⟨tokens, rfl, ?_⟩
    cases hparse : Expr.ofTokens tokens with
    | error err =>
      rw [hparse] at h
      cases h
    | ok e =>
      rw [hparse] at h
      cases h
      rfl

theorem text_reads_back_overflowing : ∃ tokens e tokens' e',
    Token.ofSource overflowing = .ok tokens ∧ Expr.ofTokens tokens = .ok e ∧
      Token.ofSource e.text = .ok tokens' ∧ Expr.ofTokens tokens' = .ok e' ∧
      (e'.shape = e.shape ↔ ∀ value, .number value ∈ e.leaves → value.isFinite) ∧ e'.shape ≠ e.shape := by
  have htwice : ((read? overflowing).bind fun e => read? e.text).isSome := by decide +kernel
  have hinfinite : (read? overflowing).any fun e => .number (Binary64.ofWord false Binary64.infinity) ∈ e.leaves := by
    decide +kernel
  cases hread : read? overflowing with
  | none =>
    rw [hread] at htwice
    cases htwice
  | some e =>
    rw [hread] at htwice hinfinite
    obtain ⟨e', hread'⟩ := Option.isSome_iff_exists.1 htwice
    obtain ⟨tokens, hlex, hparse⟩ := exists_of_read? hread
    obtain ⟨tokens', hlex', hparse'⟩ := exists_of_read? hread'
    obtain ⟨_, hlex₂, hdeep | hshape⟩ := text_reads_back hlex hparse
    · cases hlex'.symm.trans hlex₂
      obtain ⟨err, herror, -⟩ := hdeep
      cases hparse'.symm.trans herror
    · cases hlex'.symm.trans hlex₂
      obtain ⟨e₂, hparse₂, hshape⟩ := hshape
      cases hparse'.symm.trans hparse₂
      refine ⟨tokens, e, tokens', e', hlex, hparse, hlex', hparse', hshape, fun heq => ?_⟩
      have hfinite := hshape.1 heq _ (of_decide_eq_true hinfinite)
      exact Nat.lt_irrefl _ ((Binary64.isFinite_ofWord_iff (Nat.le_refl _)).1 hfinite)

end Expr

end ClosureLang
