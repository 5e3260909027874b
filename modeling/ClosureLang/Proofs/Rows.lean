import ClosureLang.Proofs.Printing

/-!
# Rows of a text

Reports and listings are made row by row, with a line feed after each row. A row holds names, numbers and the text of
trees, and none of these has a line feed, so the rows can be told from the text.
-/

namespace ClosureLang

open Token (Kind)

namespace Text

/-- The text stays on one line. -/
def OneLine (s : String) : Prop := '\n' ∉ s.toList

instance (s : String) : Decidable (OneLine s) := inferInstanceAs (Decidable ('\n' ∉ s.toList))

/-- The rows of a text, as line feeds part it. -/
def rows (s : String) : List String := (s.toList.splitOn '\n').map String.ofList

/-- The text of rows, each with a line feed behind it. -/
def ofRows (rs : List String) : String := String.join (rs.map (· ++ "\n"))

variable {s t : String} {rs rs' : List String}

theorem oneLine_append : OneLine (s ++ t) ↔ OneLine s ∧ OneLine t := by
  rw [OneLine, String.toList_append, List.mem_append, not_or, OneLine, OneLine]

@[simp] theorem toString_string (s : String) : toString s = s := rfl

theorem oneLine_ofList {cs : List Char} : OneLine (String.ofList cs) ↔ '\n' ∉ cs := by
  rw [OneLine, String.toList_ofList]

theorem notMem_nat {c : Char} (hc : c.isDigit = false) (n : Nat) : c ∉ (toString n).toList := by
  rw [Nat.toString_eq_ofList_toDigits, String.toList_ofList]
  intro h
  have hdigit := Nat.isDigit_of_mem_toDigits (by decide) (by decide) h
  rw [hc] at hdigit
  cases hdigit

theorem oneLine_nat (n : Nat) : OneLine (toString n) := notMem_nat rfl n

/-- Rows that begin with fill are as far indented as they have it. -/
theorem replicate_append_inj {α : Type} {x : α} {a b : Nat} {l l' : List α} (hl : l.head? ≠ some x)
    (hl' : l'.head? ≠ some x) (h : List.replicate a x ++ l = List.replicate b x ++ l') : a = b ∧ l = l' := by
  induction a generalizing b with
  | zero =>
    cases b with
    | zero => exact ⟨rfl, h⟩
    | succ b =>
      rw [List.replicate_zero, List.nil_append] at h
      exact absurd (by rw [h]; rfl) hl
  | succ a ih =>
    cases b with
    | zero =>
      rw [List.replicate_zero, List.nil_append] at h
      exact absurd (by rw [← h]; rfl) hl'
    | succ b =>
      rw [List.replicate_succ, List.replicate_succ, List.cons_append, List.cons_append] at h
      obtain ⟨hab, hll⟩ := ih (List.cons.inj h).2
      exact ⟨congrArg (· + 1) hab, hll⟩

theorem ofRows_append (rs rs' : List String) : ofRows (rs ++ rs') = ofRows rs ++ ofRows rs' := by
  rw [ofRows, List.map_append, String.join_append, ofRows, ofRows]

theorem ofRows_cons (r : String) (rs : List String) : ofRows (r :: rs) = r ++ "\n" ++ ofRows rs := by
  rw [ofRows, List.map_cons, String.join_cons, ofRows]

theorem ofRows_singleton (r : String) : ofRows [r] = r ++ "\n" := by
  rw [ofRows_cons, show ofRows [] = "" from rfl, String.append_empty]

theorem ofRows_concat (rs : List String) (r : String) : ofRows (rs ++ [r]) = ofRows rs ++ r ++ "\n" := by
  rw [ofRows_append, ofRows_singleton, ← String.append_assoc]

/-- The text of blocks of rows is that of all rows. -/
theorem join_ofRows (blocks : List (List String)) : String.join (blocks.map ofRows) = ofRows blocks.flatten := by
  induction blocks with
  | nil => rfl
  | cons block blocks ih => rw [List.map_cons, String.join_cons, ih, List.flatten_cons, ofRows_append]

/-- The rows come back from the text, and behind the last line feed there is nothing. -/
theorem rows_ofRows (h : ∀ r ∈ rs, OneLine r) : rows (ofRows rs) = rs ++ [""] := by
  induction rs with
  | nil => rfl
  | cons r rs ih =>
    obtain ⟨hr, hrs⟩ := List.forall_mem_cons.1 h
    have hsplit : (ofRows (r :: rs)).toList = r.toList ++ '\n' :: (ofRows rs).toList := by
      rw [ofRows_cons, String.toList_append, String.toList_append, List.append_assoc]
      rfl
    calc rows (ofRows (r :: rs))
        = String.ofList r.toList :: rows (ofRows rs) := by
          rw [rows, hsplit, List.splitOn_append_cons_self_of_not_mem hr, List.map_cons, rows]
      _ = r :: (rs ++ [""]) := by rw [String.ofList_toList, ih hrs]

theorem ofRows_inj (h : ∀ r ∈ rs, OneLine r) (h' : ∀ r ∈ rs', OneLine r) (heq : ofRows rs = ofRows rs') : rs = rs' := by
  have hrows : rs ++ [""] = rs' ++ [""] := by rw [← rows_ofRows h, heq, rows_ofRows h']
  exact List.append_cancel_right hrows

end Text

open Text (OneLine oneLine_append)

/-! ## What stands in rows -/

theorem Token.isName.notMem {x : String} (h : Token.isName x) {c : Char} (hc : Token.isNamePart c = false) :
    c ∉ x.toList := by
  unfold Token.isName at h
  split at h
  · cases h
  · next d ds hx =>
    rw [Bool.and_eq_true, List.all_eq_true] at h
    rw [hx]
    intro hmem
    have hpart : Token.isNamePart c := by
      rcases List.mem_cons.1 hmem with rfl | hmem
      · exact Token.isNamePart_of_isNameStart h.1
      · exact h.2 _ hmem
    rw [hc] at hpart
    cases hpart

theorem Number.notMem_text {w : Nat} (h : w ≤ Binary64.infinity) {c : Char} (hc : c.isDigit = false)
    (hother : c ∉ ['.', 'i', 'n', 'f']) : c ∉ (text (Binary64.ofWord false w)).toList := by
  rcases Nat.lt_or_eq_of_le h with hlt | rfl
  · have hword : (Decimal.shortest w).toWord < Binary64.infinity := by rwa [Decimal.toWord_shortest hlt]
    obtain ⟨whole, fraction, htext, -, hwhole, hfraction, -⟩ := decimalText_plain (Decimal.shortest w) hword
    have hdot : c ≠ '.' := fun heq => hother (heq ▸ List.mem_cons_self)
    have hwhole' : c ∉ whole := fun hmem => Bool.false_ne_true (hc.symm.trans (hwhole _ hmem))
    have hfraction' : c ∉ fraction := fun hmem => Bool.false_ne_true (hc.symm.trans (hfraction _ hmem))
    rw [text_of_finite hlt, htext, Token.plainLiteral]
    split <;> simp [hwhole', hfraction', hdot]
  · rw [text_infinity]
    exact fun hmem => hother (List.mem_cons_of_mem _ hmem)

theorem Token.Spellable.oneLine {k : Kind} (h : Token.Spellable k) : OneLine k.text := by
  cases k with
  | number value =>
    obtain ⟨w, hw, rfl⟩ := h
    exact Number.notMem_text hw rfl (by decide)
  | identifier x => exact Token.isName.notMem h rfl
  | _ => decide

namespace Expr

open Token (Spellable)

mutual

theorem oneLine_text (e : Expr) (h : ∀ k ∈ e.leaves, Spellable k) : OneLine e.text := by
  cases e with
  | number span value => exact (h (.number value) (List.mem_singleton_self _)).oneLine
  | name span x var => exact (h (.identifier x) (List.mem_singleton_self _)).oneLine
  | call span callee args =>
    obtain ⟨hcallee, hargs⟩ := List.forall_mem_append.1 h
    simp only [text, oneLine_append]
    exact ⟨⟨⟨oneLine_text callee hcallee, by decide⟩, oneLine_textList (by decide) args hargs⟩, by decide⟩
  | lambda span params body frame label =>
    obtain ⟨hparams, hbody⟩ := List.forall_mem_append.1 h
    simp only [text, oneLine_append]
    exact ⟨⟨⟨⟨by decide, oneLine_textList (by decide) params hparams⟩, by decide⟩, oneLine_text body hbody⟩, by decide⟩
  | block span statements =>
    simp only [text, oneLine_append]
    exact ⟨⟨by decide, oneLine_textList (by decide) statements h⟩, by decide⟩
  | assign span x value var =>
    obtain ⟨hx, hvalue⟩ := List.forall_mem_cons.1 h
    simp only [text, oneLine_append]
    exact ⟨⟨hx.oneLine, by decide⟩, oneLine_text value hvalue⟩
  | cond span test onTrue onFalse =>
    obtain ⟨htest, hbranches⟩ := List.forall_mem_append.1 h
    obtain ⟨hTrue, hFalse⟩ := List.forall_mem_append.1 hbranches
    simp only [text, oneLine_append, oneLine_text test htest, oneLine_text onTrue hTrue, oneLine_text onFalse hFalse]
    decide

theorem oneLine_textList {separator : String} (hseparator : OneLine separator) (es : List Expr)
    (h : ∀ k ∈ leavesAll es, Spellable k) : OneLine (textList separator es) := by
  match es with
  | [] =>
    rw [textList]
    decide
  | [e] => exact oneLine_text e (List.forall_mem_append.1 h).1
  | e :: e' :: es =>
    obtain ⟨he, hes⟩ := List.forall_mem_append.1 h
    rw [textList, oneLine_append, oneLine_append]
    · exact ⟨⟨oneLine_text e he, hseparator⟩, oneLine_textList hseparator (e' :: es) hes⟩
    · exact nofun

end

/-- The tree of a source is that of its words. -/
theorem exists_program {source : String} {tokens : List Token} {e : Expr} (htokens : Token.ofSource source = .ok tokens)
    (htree : ofTokens tokens = .ok e) : ∃ ks, (∀ k ∈ ks, Spellable k) ∧ Grammar.Program ks e.shape := by
  obtain ⟨ws, stop, hspells, rfl⟩ := Lexer.ofSource_eq_ok_iff.1 htokens
  rcases Parser.ofTokens_outcome (Parser.program_reads hspells.stop_kind ws) with ⟨_, _, hok, h⟩ | ⟨_, herror, -⟩
  · cases htree.symm.trans hok
    exact ⟨_, hspells.spellable, h⟩
  · cases htree.symm.trans herror

/-- The names and literals of a tree come from the text that it was read from. -/
theorem spellable_of_source {source : String} {tokens : List Token} {e : Expr}
    (htokens : Token.ofSource source = .ok tokens) (htree : ofTokens tokens = .ok e) : ∀ k ∈ e.leaves, Spellable k := by
  obtain ⟨ks, hks, h⟩ := exists_program htokens htree
  rw [← leaves_shape]
  exact h.spellable hks

end Expr

theorem Token.spellable_of_source {source : String} {tokens : List Token} (h : Token.ofSource source = .ok tokens) :
    ∀ t ∈ tokens, Token.Spellable t.kind := by
  obtain ⟨ws, stop, hspells, rfl⟩ := Lexer.ofSource_eq_ok_iff.1 h
  intro t ht
  rcases List.mem_append.1 ht with ht | ht
  · obtain ⟨w, hw, rfl⟩ := List.mem_map.1 ht
    exact hspells.spellable _ (List.mem_map_of_mem hw)
  · rw [List.mem_singleton.1 ht, hspells.stop_kind]
    trivial

end ClosureLang
