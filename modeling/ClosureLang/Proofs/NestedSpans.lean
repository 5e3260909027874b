import ClosureLang.Proofs.FirstTokens
import ClosureLang.Proofs.Places
import ClosureLang.Proofs.Soundness

/-!
# Nested spans

Every node of a tree has the span of a stretch of the source. The children of a node stand inside it, one behind the
other, and an operator between its two operands. Errors of the parser and of the resolver are about such stretches too.

A reader goes along the tokens, so what it finds lies between the place where it starts and the place where it ends.
Nodes that were found one after the other are kept in a row, with the places before and after it.
-/

namespace ClosureLang

open Token (Kind)
open Lexer (size)

/-! ## Stretches -/

namespace Span

/-- The span of a stretch of the text: it starts and stops between characters, and its line and column are those of
its start. -/
def IsStretch (source : List Char) (s : Span) : Prop := ∃ read text, read ++ text <+: source ∧ s = .stretch read text

variable {source : List Char} {s t : Span}

theorem prefix_of_size_le {cs ds : List Char} (hcs : cs <+: source) (hds : ds <+: source) (h : size cs ≤ size ds) :
    cs <+: ds := by
  rcases List.prefix_or_prefix_of_prefix hcs hds with hpre | ⟨es, rfl⟩
  · exact hpre
  · by_cases hes : es = []
    · simp [hes]
    · rw [Lexer.size_append] at h
      have := Lexer.size_pos hes
      omega

theorem IsStretch.stop_le (h : s.IsStretch source) : s.stop ≤ size source := by
  obtain ⟨read, text, ⟨rest, rfl⟩, rfl⟩ := h
  rw [Lexer.size_append]
  exact Nat.le_add_right _ _

/-- From the start of one stretch to the end of another, which is not before it. -/
theorem IsStretch.through (hs : s.IsStretch source) (ht : t.IsStretch source) (hle : s.start ≤ t.stop) :
    (s.through t).IsStretch source := by
  obtain ⟨read, text, hpre, rfl⟩ := hs
  obtain ⟨read', text', hpre', rfl⟩ := ht
  obtain ⟨between, hbetween⟩ := prefix_of_size_le ((List.prefix_append _ _).trans hpre) hpre' hle
  have hstretch : stretch read between = .between (.after read) (.after (read' ++ text')) := by
    rw [stretch, hbetween]
  exact ⟨read, between, hbetween ▸ hpre', hstretch.symm⟩

end Span

/-! ## Trees -/

namespace Expr

/-- The parts of a node in the order of the source. The function of an operator stands between its operands, in the
place of the operator's token. -/
inductive Children (tokens : List Token) : Expr → List Expr → Prop where
  | parts (e : Expr) : Children tokens e e.parts
  | operator {span : Span} {op : Token} {p : Precedence} {f : String} {left right : Expr} (hop : op ∈ tokens)
      (hkind : op.kind.extension? = some (p, .operand f)) :
      Children tokens (.call span (.name op.span f none) [left, right]) [left, .name op.span f none, right]

/-- Every node of the tree has a stretch of the text with something in it, and its children stand inside this stretch,
one behind the other. -/
inductive Nested (source : List Char) (tokens : List Token) : Expr → Prop where
  | node {e : Expr} {es : List Expr} (hes : Children tokens e es) (hspan : e.span.IsStretch source)
      (hlt : e.span.start < e.span.stop)
      (hinside : ∀ child ∈ es, e.span.start ≤ child.span.start ∧ child.span.stop ≤ e.span.stop)
      (horder : es.Pairwise (·.span.stop ≤ ·.span.start)) (hnested : ∀ child ∈ es, Nested source tokens child) :
      Nested source tokens e

/-- Nested trees one behind the other, between two places. -/
inductive Row (source : List Char) (tokens : List Token) : Nat → List Expr → Nat → Prop where
  | nil {lo hi : Nat} (h : lo ≤ hi) : Row source tokens lo [] hi
  | cons {lo hi : Nat} {e : Expr} {es : List Expr} (h : lo ≤ e.span.start) (he : e.Nested source tokens)
      (hes : Row source tokens e.span.stop es hi) : Row source tokens lo (e :: es) hi

variable {source : List Char} {tokens : List Token} {e : Expr} {es fs : List Expr} {lo mid hi : Nat}

theorem Nested.isStretch (h : e.Nested source tokens) : e.span.IsStretch source := by
  cases h with
  | node _ hspan => exact hspan

theorem Nested.lt (h : e.Nested source tokens) : e.span.start < e.span.stop := by
  cases h with
  | node _ _ hlt => exact hlt

theorem Nested.parts (h : e.Nested source tokens) : ∀ child ∈ e.parts, child.Nested source tokens := by
  cases h with
  | node hes _ _ _ _ hnested =>
    cases hes with
    | parts => exact hnested
    | operator =>
      -- The same three nodes, with the function second.
      refine fun child hchild => hnested child ?_
      simpa [Expr.parts, or_left_comm] using hchild

theorem Nested.labelled (h : e.Nested source tokens) (x : String) : (e.labelled x).Nested source tokens := by
  cases e with
  | lambda span params body frame label =>
    cases h with
    | node hes hspan hlt hinside horder hnested =>
      cases hes
      exact .node (.parts _) hspan hlt hinside horder hnested
  | number | name | call | block | assign | cond => exact h

namespace Row

theorem le (h : Row source tokens lo es hi) : lo ≤ hi := by
  induction h with
  | nil h => exact h
  | cons h he _ ih => exact h.trans (he.lt.le.trans ih)

theorem widen {lo' hi' : Nat} (h : Row source tokens lo es hi) (hlo : lo' ≤ lo) (hhi : hi ≤ hi') :
    Row source tokens lo' es hi' := by
  induction h generalizing lo' with
  | nil h => exact .nil (hlo.trans (h.trans hhi))
  | cons h he _ ih => exact .cons (hlo.trans h) he (ih le_rfl hhi)

theorem append (hes : Row source tokens lo es mid) (hfs : Row source tokens mid fs hi) :
    Row source tokens lo (es ++ fs) hi := by
  induction hes with
  | nil h => exact hfs.widen h le_rfl
  | cons h he _ ih => exact .cons h he (ih hfs)

theorem single (h : lo ≤ e.span.start) (he : e.Nested source tokens) (hhi : e.span.stop ≤ hi) :
    Row source tokens lo [e] hi := .cons h he (.nil hhi)

theorem of_single (h : Row source tokens lo [e] hi) :
    lo ≤ e.span.start ∧ e.Nested source tokens ∧ e.span.stop ≤ hi := by
  cases h with
  | cons h he hes => exact ⟨h, he, hes.le⟩

theorem mem (h : Row source tokens lo es hi) :
    ∀ e ∈ es, lo ≤ e.span.start ∧ e.span.stop ≤ hi ∧ e.Nested source tokens := by
  induction h with
  | nil _ => exact nofun
  | cons h he hes ih =>
    refine List.forall_mem_cons.2 ⟨⟨h, hes.le, he⟩, fun e' he' => ?_⟩
    obtain ⟨hstart, hstop, hnested⟩ := ih e' he'
    exact ⟨(h.trans he.lt.le).trans hstart, hstop, hnested⟩

theorem order (h : Row source tokens lo es hi) : es.Pairwise (·.span.stop ≤ ·.span.start) := by
  induction h with
  | nil _ => exact .nil
  | cons h he hes ih => exact .cons (fun e' he' => (hes.mem e' he').1) ih

theorem lt (h : Row source tokens lo es hi) (hes : es ≠ []) : lo < hi := by
  cases h with
  | nil _ => exact absurd rfl hes
  | cons h he hes => exact h.trans_lt (he.lt.trans_le hes.le)

/-- A row reaches from its first tree to its last one. -/
theorem tight (h : Row source tokens lo (e :: es) hi) :
    Row source tokens e.span.start (e :: es) (es.getLastD e).span.stop ∧ (es.getLastD e).Nested source tokens ∧
      lo ≤ e.span.start ∧ (es.getLastD e).span.stop ≤ hi := by
  induction es generalizing e lo with
  | nil =>
    obtain ⟨hlo, he, hhi⟩ := h.of_single
    exact ⟨.single le_rfl he le_rfl, he, hlo, hhi⟩
  | cons e' es ih =>
    cases h with
    | cons hlo he hes =>
      obtain ⟨hrow, hlast, hle, hhi⟩ := ih hes
      rw [List.getLastD_cons]
      exact ⟨.cons le_rfl he (hrow.widen hle le_rfl), hlast, hlo, hhi⟩

/-- A node around a row of children, from the start of one stretch to the end of another. -/
theorem node {s t : Span} (h : Row source tokens s.start es t.stop) (hes : Children tokens e es)
    (hspan : e.span = s.through t) (hs : s.IsStretch source) (ht : t.IsStretch source) (hlt : s.start < t.stop)
    (hlo : lo ≤ s.start) (hhi : t.stop ≤ hi) : Row source tokens lo [e] hi := by
  have he : e.Nested source tokens := by
    refine .node hes ?_ ?_ ?_ h.order fun child hchild => (h.mem child hchild).2.2
    · rw [hspan]
      exact hs.through ht hlt.le
    · rw [hspan]
      exact hlt
    · rw [hspan]
      exact fun child hchild => ⟨(h.mem child hchild).1, (h.mem child hchild).2.1⟩
  refine .single ?_ he ?_
  · rw [hspan]
    exact hlo
  · rw [hspan]
    exact hhi

end Row

end Expr

/-! ## Tokens -/

namespace Token

/-- How the tokens of a text stand in it: each has a stretch, with something in it unless it is the end, and they stand
one behind the other up to the end of the text. -/
structure Layout (source : List Char) (tokens : List Token) : Prop where
  stretch : ∀ t ∈ tokens, t.span.IsStretch source
  text : ∀ t ∈ tokens, t.kind ≠ .eof → t.span.start < t.span.stop
  order : tokens.Pairwise (·.span.stop ≤ ·.span.start)
  ends : ∃ stop, tokens.getLast? = some stop ∧ stop.kind = .eof

end Token

theorem Lexer.Spells.isStretch {source read : List Char} {l : Lexer} {ws : List Token.Proper} {stop : Token}
    (h : Spells l ws stop) (hl : At source read l) : ∀ t ∈ ws.map (·.val) ++ [stop], t.span.IsStretch source := by
  have between {read l} (hl : At source read l) (n : Nat) :
      (Span.between l.position (l.skip n).position).IsStretch source := by
    have hskip := hl.skip n
    refine ⟨read, l.rest.take n, ⟨_, hskip.source_eq.symm⟩, ?_⟩
    rw [hl.position_eq, hskip.position_eq, Span.stretch]
  induction h generalizing read with
  | @stop l h =>
    intro t ht
    obtain rfl : t = _ := by simpa using ht
    exact between (hl.skip (Token.gapLength false l.rest)) 0
  | @word l kind n ws stop h _ ih =>
    have hgap := hl.skip (Token.gapLength false l.rest)
    intro t ht
    rcases List.mem_cons.1 ht with rfl | ht
    · exact between hgap n
    · exact ih (hgap.skip n) t ht

theorem Token.layout_ofSource {source : String} {tokens : List Token} (h : Token.ofSource source = .ok tokens) :
    Layout source.toList tokens := by
  obtain ⟨ws, stop, hspells, rfl⟩ := Lexer.ofSource_eq_ok_iff.1 h
  have hstretch := hspells.isStretch (Lexer.at_ofString source)
  obtain ⟨hstop, hwords, horder⟩ := hspells.placed ⟨[], rfl, rfl⟩
  refine ⟨hstretch, ?_, ?_, ?_⟩
  · intro t ht hkind
    rcases List.mem_append.1 ht with ht | ht
    · obtain ⟨w, hw, rfl⟩ := List.mem_map.1 ht
      exact (hwords w hw).2.1
    · rw [List.mem_singleton.1 ht] at hkind
      exact absurd hspells.stop_kind hkind
  · refine List.pairwise_append.2 ⟨List.pairwise_map.2 horder, List.pairwise_singleton _ _, fun w hw t ht => ?_⟩
    rw [List.mem_singleton.1 ht, hstop]
    exact (hstretch w (List.mem_append_left _ hw)).stop_le
  · exact ⟨stop, List.getLast?_concat, hspells.stop_kind⟩

/-! ## Reading -/

/-- The place is at one of the tokens, with the others after it still to come. -/
def Cursor.Among (tokens : List Token) (c : Cursor) : Prop := c.current :: c.rest <:+ tokens

/-- Where the token that comes next starts. -/
def Cursor.offset (c : Cursor) : Nat := c.current.span.start

section Reading

variable {source : List Char} {tokens : List Token} {c : Cursor}

theorem Cursor.Among.mem (hc : c.Among tokens) : c.current ∈ tokens := hc.subset (List.mem_cons_self ..)

/-- Only the end is the last token, so every other one is used up. -/
theorem Cursor.Among.next (hlayout : Token.Layout source tokens) (hc : c.Among tokens) (hkind : c.current.kind ≠ .eof) :
    c.next.Among tokens ∧ c.current.span.stop ≤ c.next.offset := by
  obtain ⟨t, ts⟩ := c
  unfold Cursor.next
  rw [if_neg hkind]
  cases ts with
  | nil =>
    -- The last token is the end, and this one is not.
    obtain ⟨stop, hlast, hstop⟩ := hlayout.ends
    obtain ⟨before, rfl⟩ := hc
    rw [List.getLast?_concat] at hlast
    exact absurd (Option.some.inj hlast ▸ hstop) hkind
  | cons u us =>
    refine ⟨(List.suffix_cons _ _).trans hc, ?_⟩
    exact (List.pairwise_cons.1 (hlayout.order.sublist hc.sublist)).1 u (List.mem_cons_self ..)

/-- A token with its text between two places. -/
structure Token.Between (tokens : List Token) (lo : Nat) (t : Token) (hi : Nat) : Prop where
  mem : t ∈ tokens
  start_eq : t.span.start = lo
  lt : t.span.start < t.span.stop
  stop_le : t.span.stop ≤ hi

theorem Token.Between.le {lo hi : Nat} {t : Token} (h : t.Between tokens lo hi) : lo ≤ hi :=
  h.start_eq.ge.trans (h.lt.le.trans h.stop_le)

theorem Token.Between.start_lt {lo mid mid' hi : Nat} {t u : Token} (ht : t.Between tokens lo mid) (hmid : mid ≤ mid')
    (hu : u.Between tokens mid' hi) : t.span.start < u.span.stop :=
  calc t.span.start ≤ mid := ht.start_eq.le.trans ht.le
    _ ≤ mid' := hmid
    _ = u.span.start := hu.start_eq.symm
    _ < u.span.stop := hu.lt

/-- A node without children that has the span of a token. -/
theorem Token.Between.row (hlayout : Layout source tokens) {lo hi : Nat} {t : Token} (h : t.Between tokens lo hi)
    {e : Expr} (hes : Expr.Children tokens e []) (hspan : e.span = t.span) : Expr.Row source tokens lo [e] hi := by
  have hstretch := hlayout.stretch t h.mem
  exact Expr.Row.node (.nil h.lt.le) hes hspan hstretch hstretch h.lt h.start_eq.ge h.stop_le

namespace Parser

open ClosureLang.Expr (Row Children)

variable {α β : Type} {R : α → Cursor → Prop}

/-- From the place the reader comes to a result with the property `R` and a place further on among the tokens, or to an
error about a stretch of the text. -/
def Tracks (source : List Char) (tokens : List Token) (c : Cursor) (p : Parser α) (R : α → Cursor → Prop) : Prop :=
  wp p (fun a c' => c'.Among tokens ∧ R a c') (·.span.IsStretch source) c

theorem Tracks.bind {p : Parser β} {f : β → Parser α} {S : β → Cursor → Prop} (hp : Tracks source tokens c p S)
    (hf : ∀ b c', c'.Among tokens → S b c' → Tracks source tokens c' (f b) R) : Tracks source tokens c (p >>= f) R := by
  rw [Tracks, wp_bind]
  exact wp_mono hp (fun b c' ⟨hc', hb⟩ => hf b c' hc' hb) fun _ => id

theorem tracks_pure (hc : c.Among tokens) {a : α} (h : R a c) : Tracks source tokens c (pure a) R := ⟨hc, h⟩

theorem tracks_get {f : Cursor → Parser α} (h : Tracks source tokens c (f c) R) :
    Tracks source tokens c (get >>= f) R := h

theorem tracks_peek {f : Token → Parser α} (h : Tracks source tokens c (f c.current) R) :
    Tracks source tokens c (peek >>= f) R := h

theorem tracks_check {f : Bool → Parser α} {kind : Kind} (h : Tracks source tokens c (f (c.current.kind = kind)) R) :
    Tracks source tokens c (check kind >>= f) R := h

theorem tracks_fail {problem : ParseProblem} {span : Span} (h : span.IsStretch source) :
    Tracks source tokens c (fail problem span) R := h

/-- The reader finds a tree behind the place where it starts. -/
def FindsTree (source : List Char) (tokens : List Token) (p : Parser Expr) : Prop :=
  ∀ c, c.Among tokens → Tracks source tokens c p fun e c' => Row source tokens c.offset [e] c'.offset

section Tokens

variable (hlayout : Token.Layout source tokens) (hc : c.Among tokens)
include hlayout hc

theorem tracks_tooDeep {R : Expr → Cursor → Prop} : Tracks source tokens c tooDeep R := hlayout.stretch _ hc.mem

theorem tracks_advance (hkind : c.current.kind ≠ .eof) :
    Tracks source tokens c advance fun t c' => t = c.current ∧ t.Between tokens c.offset c'.offset := by
  obtain ⟨hnext, hle⟩ := hc.next hlayout hkind
  exact ⟨hnext, rfl, hc.mem, rfl, hlayout.text _ hc.mem hkind, hle⟩

theorem tracks_expect {kind : Kind} (hkind : kind ≠ .eof) :
    Tracks source tokens c (expect kind) fun t c' => t.Between tokens c.offset c'.offset := by
  rw [Tracks, wp_expect]
  split
  · next hcurrent =>
    obtain ⟨hnext, hle⟩ := hc.next hlayout (hcurrent ▸ hkind)
    exact ⟨hnext, hc.mem, rfl, hlayout.text _ hc.mem (hcurrent ▸ hkind), hle⟩
  · exact hlayout.stretch _ hc.mem

end Tokens

section Trees

variable (hlayout : Token.Layout source tokens) {sub : Precedence → Parser Expr}
include hlayout

theorem separated_tracks {item : Parser Expr} {separator close : Kind} (hitem : FindsTree source tokens item)
    (hseparator : separator ≠ .eof) (rounds : Nat) (hc : c.Among tokens) :
    Tracks source tokens c (separated item separator close rounds)
      fun es c' => Row source tokens c.offset es c'.offset := by
  induction rounds generalizing c with
  | zero => exact tracks_pure hc (.nil le_rfl)
  | succ rounds ih =>
    refine tracks_peek ?_
    split
    · exact tracks_pure hc (.nil le_rfl)
    · refine (hitem c hc).bind fun first c₁ hc₁ hfirst => ?_
      refine tracks_check ?_
      split
      · next hmore =>
        have hkind : c₁.current.kind ≠ .eof := of_decide_eq_true hmore ▸ hseparator
        refine (tracks_advance hlayout hc₁ hkind).bind fun _ c₂ hc₂ ⟨_, hbetween⟩ => ?_
        refine (ih hc₂).bind fun others c₃ hc₃ hothers => ?_
        exact tracks_pure hc₃ (hfirst.append (hothers.widen hbetween.le le_rfl))
      · exact tracks_pure hc₁ hfirst

theorem items_tracks {item : Parser Expr} {separator close : Kind} (hitem : FindsTree source tokens item)
    (hseparator : separator ≠ .eof) (hc : c.Among tokens) :
    Tracks source tokens c (items item separator close) fun es c' => Row source tokens c.offset es c'.offset := by
  refine tracks_get ?_
  exact separated_tracks hlayout hitem hseparator _ hc

section Nested

variable (hsub : ∀ above, FindsTree source tokens (sub above))
include hsub

theorem statement_findsTree : FindsTree source tokens (statement sub) := by
  intro c hc
  refine tracks_get ?_
  split
  · next x htarget =>
    have hkind : c.current.kind ≠ .eof := by
      rw [target?_before htarget]
      rintro ⟨⟩
    refine (tracks_advance hlayout hc hkind).bind ?_
    rintro target c₁ hc₁ ⟨-, hname⟩
    refine (tracks_expect hlayout hc₁ (by decide)).bind fun _ c₂ hc₂ hequal => ?_
    refine (hsub .lowest c₂ hc₂).bind fun value c₃ hc₃ hvalue => ?_
    obtain ⟨hlo, hvalue, hhi⟩ := hvalue.of_single
    have hstart : target.span.start ≤ value.span.start :=
      hname.start_eq.le.trans (hname.le.trans (hequal.le.trans hlo))
    have hrow : Row source tokens target.span.start [value.labelled x] value.span.stop := by
      refine .single ?_ (hvalue.labelled x) ?_
      · rwa [Expr.span_labelled]
      · rw [Expr.span_labelled]
    exact tracks_pure hc₃ (hrow.node (.parts _) rfl (hlayout.stretch _ hname.mem) hvalue.isStretch
      (hstart.trans_lt hvalue.lt) hname.start_eq.ge hhi)
  · exact hsub .lowest c hc

omit hlayout in
/-- The body of a lambda comes after its parameters. -/
theorem lambda_tracks (hc : c.Among tokens) {params : List Expr} {start : Span} (hstart : start.IsStretch source)
    (hparams : Row source tokens start.start params c.offset) :
    Tracks source tokens c (lambda sub params start)
      fun e c' => Row source tokens start.start [e] c'.offset := by
  refine (hsub .lowest c hc).bind fun body c₁ hc₁ hbody => ?_
  obtain ⟨hlo, hbody, hhi⟩ := hbody.of_single
  have hlt : start.start < body.span.stop := hparams.le.trans_lt (hlo.trans_lt hbody.lt)
  exact tracks_pure hc₁ ((hparams.append (.single hlo hbody le_rfl)).node (.parts _) rfl hstart hbody.isStretch hlt
    le_rfl hhi)

theorem group_tracks (hc : c.Among tokens) {lo : Nat} {start : Token} (hstart : start.Between tokens lo c.offset) :
    Tracks source tokens c (group sub start.span) fun e c' => Row source tokens lo [e] c'.offset := by
  have hspan := hlayout.stretch _ hstart.mem
  refine (items_tracks hlayout (hsub .lowest) (by decide) hc).bind fun inside c₁ hc₁ hinside => ?_
  refine (tracks_expect hlayout hc₁ (by decide)).bind fun close c₂ hc₂ hclose => ?_
  have hlt := hstart.start_lt hinside.le hclose
  refine tracks_check ?_
  -- What is in the parentheses lies behind the opening one, where the span of a lambda would start.
  have hinside : Row source tokens start.span.start inside c₂.offset :=
    hinside.widen (hstart.start_eq.le.trans hstart.le) hclose.le
  split
  · next harrow =>
    have hkind : c₂.current.kind ≠ .eof := of_decide_eq_true harrow ▸ nofun
    refine (tracks_advance hlayout hc₂ hkind).bind fun _ c₃ hc₃ ⟨_, harrow⟩ => ?_
    rw [← hstart.start_eq]
    exact lambda_tracks hsub hc₃ hspan (hinside.widen le_rfl harrow.le)
  · split
    · exact tracks_pure hc₂ (hinside.widen hstart.start_eq.ge le_rfl)
    · exact tracks_fail (hspan.through (hlayout.stretch _ hclose.mem) hlt.le)

theorem unary_tracks (hc : c.Among tokens) {lo : Nat} {op : Token} (hop : op.Between tokens lo c.offset) (f : String) :
    Tracks source tokens c (unary sub f op.span) fun e c' => Row source tokens lo [e] c'.offset := by
  refine (hsub .unary c hc).bind fun operand c₁ hc₁ hoperand => ?_
  obtain ⟨hlo, hoperand, hhi⟩ := hoperand.of_single
  have hname : Row source tokens op.span.start [.name op.span f none] c.offset :=
    (hop.row hlayout (.parts _) rfl).widen hop.start_eq.le le_rfl
  have hlt : op.span.start < operand.span.stop := hname.le.trans_lt (hlo.trans_lt hoperand.lt)
  exact tracks_pure hc₁ ((hname.append (.single hlo hoperand le_rfl)).node (.parts _) rfl (hlayout.stretch _ hop.mem)
    hoperand.isStretch hlt hop.start_eq.ge hhi)

theorem block_tracks (hc : c.Among tokens) {lo : Nat} {start : Token} (hstart : start.Between tokens lo c.offset) :
    Tracks source tokens c (block sub start.span) fun e c' => Row source tokens lo [e] c'.offset := by
  refine (items_tracks hlayout (statement_findsTree hlayout hsub) (by decide) hc).bind
    fun statements c₁ hc₁ hstatements => ?_
  refine (tracks_expect hlayout hc₁ (by decide)).bind fun close c₂ hc₂ hclose => ?_
  have hrow : Row source tokens start.span.start statements close.span.stop :=
    hstatements.widen (hstart.start_eq.le.trans hstart.le) (hclose.start_eq.ge.trans hclose.lt.le)
  exact tracks_pure hc₂ (hrow.node (.parts _) rfl (hlayout.stretch _ hstart.mem) (hlayout.stretch _ hclose.mem)
    (hstart.start_lt hstatements.le hclose) hstart.start_eq.ge hclose.stop_le)

theorem operand_findsTree : FindsTree source tokens (operand sub) := by
  intro c hc
  by_cases hkind : c.current.kind = .eof
  · -- Nothing is read at the end, and the error is about it.
    have hadvance : advance c = .ok c.current c.next := rfl
    have hoperand : operand sub c = .error ⟨.endOfInput, c.current.span⟩ c.next := by
      rw [operand, bind_of_ok hadvance, hkind]
      rfl
    rw [Tracks, wp, hoperand]
    exact hlayout.stretch _ hc.mem
  refine (tracks_advance hlayout hc hkind).bind ?_
  rintro token c₁ hc₁ ⟨-, htoken⟩
  have hspan := hlayout.stretch _ htoken.mem
  split
  · exact tracks_pure hc₁ (htoken.row hlayout (.parts _) rfl)
  · next x _ =>
    have hname : Row source tokens c.offset [.name token.span x none] c₁.offset := htoken.row hlayout (.parts _) rfl
    refine tracks_check ?_
    split
    · next harrow =>
      have hkind : c₁.current.kind ≠ .eof := by
        rw [of_decide_eq_true harrow]
        rintro ⟨⟩
      refine (tracks_advance hlayout hc₁ hkind).bind ?_
      rintro _ c₂ hc₂ ⟨-, harrow⟩
      rw [← htoken.start_eq] at hname ⊢
      exact lambda_tracks hsub hc₂ hspan (hname.widen le_rfl harrow.le)
    · exact tracks_pure hc₁ hname
  · exact unary_tracks hlayout hsub hc₁ htoken _
  · exact unary_tracks hlayout hsub hc₁ htoken _
  · exact group_tracks hlayout hsub hc₁ htoken
  · exact block_tracks hlayout hsub hc₁ htoken
  · exact tracks_fail hspan
  · exact tracks_fail hspan

/-- What is read after an operand makes a node that starts where the operand does. -/
theorem extend_tracks (hc : c.Among tokens) {lo : Nat} {left : Expr} (hleft : Row source tokens lo [left] c.offset)
    {p : Precedence} {x : Extension} (hkind : c.current.kind.extension? = some (p, x)) :
    Tracks source tokens c (extend sub left p x) fun e c' => Row source tokens lo [e] c'.offset := by
  have heof : c.current.kind ≠ .eof := by
    intro h
    rw [h] at hkind
    cases hkind
  obtain ⟨hlo, hleft, hhi⟩ := hleft.of_single
  cases x with
  | arguments =>
    refine (tracks_advance hlayout hc heof).bind fun _ c₁ hc₁ ⟨_, hopen⟩ => ?_
    refine (items_tracks hlayout (hsub .lowest) (by decide) hc₁).bind fun args c₂ hc₂ hargs => ?_
    refine (tracks_expect hlayout hc₂ (by decide)).bind fun close c₃ hc₃ hclose => ?_
    have hargs : Row source tokens left.span.stop args close.span.stop :=
      hargs.widen (hhi.trans hopen.le) (hclose.start_eq.ge.trans hclose.lt.le)
    exact tracks_pure hc₃ ((Expr.Row.cons le_rfl hleft hargs).node (.parts _) rfl hleft.isStretch
      (hlayout.stretch _ hclose.mem) (hleft.lt.trans_le hargs.le) hlo hclose.stop_le)
  | branches =>
    refine (tracks_advance hlayout hc heof).bind fun _ c₁ hc₁ ⟨_, hquestion⟩ => ?_
    refine (hsub .lowest c₁ hc₁).bind fun onTrue c₂ hc₂ hTrue => ?_
    refine (tracks_expect hlayout hc₂ (by decide)).bind fun _ c₃ hc₃ hcolon => ?_
    refine (hsub .lowest c₃ hc₃).bind fun onFalse c₄ hc₄ hFalse => ?_
    obtain ⟨hlo', hFalse, hhi'⟩ := hFalse.of_single
    have hbranches : Row source tokens left.span.stop [onTrue, onFalse] onFalse.span.stop :=
      (hTrue.widen (hhi.trans hquestion.le) hcolon.le).append (.single hlo' hFalse le_rfl)
    exact tracks_pure hc₄ ((Expr.Row.cons le_rfl hleft hbranches).node (.parts _) rfl hleft.isStretch hFalse.isStretch
      (hleft.lt.trans_le hbranches.le) hlo hhi')
  | operand f =>
    refine (tracks_advance hlayout hc heof).bind fun op c₁ hc₁ ⟨hop, hbetween⟩ => ?_
    refine (hsub p c₁ hc₁).bind fun right c₂ hc₂ hright => ?_
    obtain ⟨hlo', hright, hhi'⟩ := hright.of_single
    -- The function is a node of its own, in the place of the operator.
    have hname : Row source tokens left.span.stop [.name op.span f none] c₁.offset :=
      (hbetween.row hlayout (.parts _) rfl).widen hhi le_rfl
    have hoperands : Row source tokens left.span.stop [.name op.span f none, right] right.span.stop :=
      hname.append (.single hlo' hright le_rfl)
    rw [← hop] at hkind
    exact tracks_pure hc₂ ((Expr.Row.cons le_rfl hleft hoperands).node (.operator hbetween.mem hkind) rfl
      hleft.isStretch hright.isStretch (hleft.lt.trans_le hoperands.le) hlo hhi')

end Nested

theorem extensions_tracks {n : Nat} (hsub : ∀ m < n, ∀ above, FindsTree source tokens (expression m above))
    (hc : c.Among tokens) {lo : Nat} {left : Expr} (hleft : Row source tokens lo [left] c.offset)
    (above : Precedence) :
    Tracks source tokens c (extensions n above left) fun e c' => Row source tokens lo [e] c'.offset := by
  induction n generalizing c left with
  | zero =>
    rw [extensions]
    refine tracks_peek ?_
    split
    · exact tracks_pure hc hleft
    · split
      · exact tracks_pure hc hleft
      · exact tracks_tooDeep hlayout hc
  | succ n ih =>
    rw [extensions]
    refine tracks_peek ?_
    split
    · exact tracks_pure hc hleft
    · next hkind =>
      split
      · exact tracks_pure hc hleft
      · refine (extend_tracks hlayout (hsub n (Nat.lt_succ_self n)) hc hleft hkind).bind
          fun longer c₁ hc₁ hlonger => ?_
        exact ih (fun m hm => hsub m (Nat.lt_succ_of_lt hm)) hc₁ hlonger

theorem expression_findsTree (n : Nat) (above : Precedence) : FindsTree source tokens (expression n above) := by
  induction n using Nat.strongRecOn generalizing above with
  | ind n ih =>
    intro c hc
    cases n with
    | zero =>
      rw [expression]
      exact tracks_tooDeep hlayout hc
    | succ n =>
      rw [expression]
      refine (operand_findsTree hlayout (ih n (Nat.lt_succ_self n)) c hc).bind fun left c₁ hc₁ hleft => ?_
      exact extensions_tracks hlayout (fun m hm => ih m (Nat.lt_succ_of_lt hm)) hc₁ hleft above

theorem program_findsTree : FindsTree source tokens program := by
  intro c hc
  have hitem := statement_findsTree hlayout (expression_findsTree hlayout maxLevels)
  refine (items_tracks hlayout hitem (by decide) hc).bind fun statements c₁ hc₁ hstatements => ?_
  -- The end is not used up, so the reader stays where it is.
  have hend : Tracks source tokens c₁ (expect .eof) fun _ c' => c' = c₁ := by
    rw [Tracks, wp_expect]
    split
    · next hkind =>
      rw [Cursor.next, if_pos hkind]
      exact ⟨hc₁, rfl⟩
    · exact hlayout.stretch _ hc₁.mem
  refine hend.bind fun _ c₂ hc₂ hsame => ?_
  subst hsame
  rcases statements with - | ⟨first, - | ⟨second, others⟩⟩
  · exact tracks_peek (tracks_fail (hlayout.stretch _ hc₂.mem))
  · exact tracks_pure hc₂ hstatements
  · obtain ⟨hrow, hlast, hlo, hhi⟩ := hstatements.tight
    have hfirst := (hstatements.mem first (List.mem_cons_self ..)).2.2
    have hlt := hrow.lt (List.cons_ne_nil _ _)
    exact tracks_pure hc₂ (hrow.node (.parts _) rfl hfirst.isStretch hlast.isStretch hlt hlo hhi)

end Trees

end Parser

end Reading

/-! ## Resolving -/

namespace Resolution

variable {α : Type} {P : Span → Prop} {step : Resolution α}

/-- An error, if there is one, is about a span with the property. -/
def Blames (P : Span → Prop) : Resolution α → Prop
  | done _ _ => True
  | failed _ error _ => P error.span

theorem Fails.blames {E : ResolveError → Prop} (h : step.Fails E) (hE : ∀ error, E error → P error.span) :
    step.Blames P := by
  cases step with
  | done => trivial
  | failed _ error => exact hE error h

end Resolution

namespace Expr

variable {source : List Char} {tokens : List Token}

theorem Nested.within {e node : Expr} (h : e.Nested source tokens) (hnode : node.Within e) :
    node.Nested source tokens := by
  induction hnode with
  | self => exact h
  | part hchild _ ih => exact ih (h.parts _ hchild)

/-- Errors are about spans of nodes. -/
theorem program_blames {e : Expr} (h : e.Nested source tokens) (r : Resolver) :
    (r.program e).Blames (·.IsStretch source) := by
  have hblamed : e.Blamed (·.span.IsStretch source) := by
    intro node error hnode habout
    rw [habout.span]
    exact (h.within hnode).isStretch
  exact (program_fails hblamed r).blames fun _ => id

end Expr

/-! ## Sources -/

/-- What comes of the tokens of a text: a nested tree, whose names are resolved or not for a reason that has a stretch
of the text, or a reason of this kind for there being no tree. -/
def Parser.Located (source : List Char) (tokens : List Token) : Except ParseError Expr → Prop
  | .ok e => e.Nested source tokens ∧ ∀ r : Resolver, (r.program e).Blames (·.IsStretch source)
  | .error error => error.span.IsStretch source

/-- What a reader says of the tokens from a place on. -/
def Parser.result (p : Parser Expr) (c : Cursor) : Except ParseError Expr :=
  match p c with
  | .ok e _ => .ok e
  | .error error _ => .error error

theorem Parser.FindsTree.located {source : List Char} {tokens : List Token} {p : Parser Expr}
    (h : FindsTree source tokens p) {c : Cursor} (hc : c.Among tokens) : Located source tokens (p.result c) := by
  have hp := h c hc
  unfold Tracks wp at hp
  unfold result
  split at hp
  · next hok =>
    rw [hok]
    have he := hp.2.of_single.2.1
    exact ⟨he, Expr.program_blames he⟩
  · next herror =>
    rw [herror]
    exact hp

/-- The spans of a source are nested, in its program and in the expression that is read from any of its tokens on, and
errors are about stretches of the source. -/
theorem Expr.spans_nested {source : String} {tokens : List Token} (h : Token.ofSource source = .ok tokens) :
    Parser.Located source.toList tokens (Expr.ofTokens tokens) ∧
      ∀ c : Cursor, c.Among tokens → Parser.Located source.toList tokens (Parser.anExpression.result c) := by
  have hlayout := Token.layout_ofSource h
  refine ⟨?_, fun c hc => (Parser.expression_findsTree hlayout _ _).located hc⟩
  cases tokens with
  | nil =>
    obtain ⟨stop, hlast, -⟩ := hlayout.ends
    cases hlast
  | cons t ts => exact (Parser.program_findsTree hlayout).located (c := ⟨t, ts⟩) List.suffix_rfl

/-- A call and a second operand on the next line, after a comment with a character of two bytes. -/
theorem Expr.spans_nested_sum :
    ∃ tokens e, Token.ofSource "// é\nf(x) +\n y" = .ok tokens ∧ Expr.ofTokens tokens = .ok e ∧
      e.span = ⟨6, 15, 2, 1⟩ ∧ e.Nested "// é\nf(x) +\n y".toList tokens := by
  have hspan : ((Token.ofSource "// é\nf(x) +\n y").toOption.bind fun tokens =>
      (Expr.ofTokens tokens).toOption.map Expr.span) = some ⟨6, 15, 2, 1⟩ := by cbv
  cases hsource : Token.ofSource "// é\nf(x) +\n y" with
  | error error => rw [hsource] at hspan; cases hspan
  | ok tokens =>
    rw [hsource] at hspan
    change (Expr.ofTokens tokens).toOption.map Expr.span = some ⟨6, 15, 2, 1⟩ at hspan
    have hlocated := (spans_nested hsource).1
    cases htree : Expr.ofTokens tokens with
    | error error => rw [htree] at hspan; cases hspan
    | ok e =>
      rw [htree] at hspan hlocated
      exact ⟨tokens, e, rfl, htree, Option.some.inj hspan, hlocated.1⟩

end ClosureLang
