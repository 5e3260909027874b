import Mathlib
import ClosureLang.Expr.Parser

/-!
# The grammar

Which words make a program, and which tree they stand for. Every level of operators has its own phrases, from the
loosest level to the tightest, and trees are taken without their places in the source. The grammar knows nothing of
how words are read: there is no limit on nesting, and no order in which the rules are tried.
-/

namespace ClosureLang

namespace Expr

mutual

/-- The tree with its places in the source forgotten. -/
def shape : Expr → Expr
  | number _ value => number .unknown value
  | name _ x var => name .unknown x var
  | call _ callee args => call .unknown callee.shape (shapeAll args)
  | lambda _ params body frame label => lambda .unknown (shapeAll params) body.shape frame label
  | block _ statements => block .unknown (shapeAll statements)
  | assign _ x value var => assign .unknown x value.shape var
  | cond _ test onTrue onFalse => cond .unknown test.shape onTrue.shape onFalse.shape

def shapeAll : List Expr → List Expr
  | [] => []
  | e :: es => e.shape :: shapeAll es

end

theorem shape_labelled (e : Expr) (x : String) : (e.labelled x).shape = e.shape.labelled x := by
  cases e <;> rfl

end Expr

namespace Grammar

open Token (Kind)

/-- The levels of phrases, from the loosest to the tightest. -/
inductive Level where
  | expression
  | disjunction
  | conjunction
  | comparison
  | sum
  | product
  | unary
  | application
  | primary
deriving DecidableEq, Repr

/-- The next tighter level. Nothing is tighter than a primary phrase. -/
def Level.tighter : Level → Level
  | expression => disjunction
  | disjunction => conjunction
  | conjunction => comparison
  | comparison => sum
  | sum => product
  | product => unary
  | unary => application
  | application | primary => primary

/-- The operators of a level between two operands, and the functions that they call. -/
def operators : Level → List (Kind × String)
  | .disjunction => [(.pipePipe, "or")]
  | .conjunction => [(.ampAmp, "and")]
  | .comparison =>
    [(.equalEqual, "eq"), (.bangEqual, "neq"), (.less, "lt"), (.lessEqual, "le"), (.greater, "gt"),
     (.greaterEqual, "ge")]
  | .sum => [(.plus, "add"), (.minus, "sub")]
  | .product => [(.star, "mul"), (.slash, "div"), (.percent, "mod")]
  | _ => []

/-- The operators before one operand, and the functions that they call. -/
def signs : List (Kind × String) := [(.minus, "neg"), (.bang, "not")]

/-- Whether a phrase ends in the body of a lambda. Such a phrase takes no operator and no arguments after it, since
they would belong to the body: bodies reach as far as they can. -/
inductive Ending where
  | closed
  | lambda
deriving DecidableEq, Repr

/-- What stands in a list: expressions between commas, or statements between semicolons. -/
inductive Listing where
  | arguments
  | statements
deriving DecidableEq, Repr

def Listing.separator : Listing → Kind
  | arguments => .comma
  | statements => .semicolon

/-- An operator is a call of a function. -/
def operation (function : String) (operands : List Expr) : Expr :=
  .call .unknown (.name .unknown function none) operands

mutual

/-- The words of a phrase of a level, and its tree. -/
inductive Phrase : Level → Ending → List Kind → Expr → Prop where
  | tighter {l : Level} {e : Ending} {ws : List Kind} {t : Expr} (h : Phrase l.tighter e ws t) : Phrase l e ws t
  | choice {e₁ e₂ : Ending} {ws ws₁ ws₂ : List Kind} {test onTrue onFalse : Expr}
      (hTest : Phrase .disjunction .closed ws test) (hTrue : Phrase .expression e₁ ws₁ onTrue)
      (hFalse : Phrase .expression e₂ ws₂ onFalse) :
      Phrase .expression e₂ (ws ++ .question :: (ws₁ ++ .colon :: ws₂)) (.cond .unknown test onTrue onFalse)
  | operator {l : Level} {e : Ending} {op : Kind} {function : String} {ws₁ ws₂ : List Kind} {left right : Expr}
      (hOp : (op, function) ∈ operators l) (hLeft : Phrase l .closed ws₁ left)
      (hRight : Phrase l.tighter e ws₂ right) :
      Phrase l e (ws₁ ++ op :: ws₂) (operation function [left, right])
  | sign {e : Ending} {op : Kind} {function : String} {ws : List Kind} {operand : Expr}
      (hOp : (op, function) ∈ signs) (h : Phrase .unary e ws operand) :
      Phrase .unary e (op :: ws) (operation function [operand])
  | call {ws₁ ws₂ : List Kind} {callee : Expr} {args : List Expr}
      (hCallee : Phrase .application .closed ws₁ callee) (hArgs : Items .arguments ws₂ args) :
      Phrase .application .closed (ws₁ ++ .leftParen :: (ws₂ ++ [.rightParen])) (.call .unknown callee args)
  | number {value : Float} : Phrase .primary .closed [.number value] (.number .unknown value)
  | name {x : String} : Phrase .primary .closed [.identifier x] (.name .unknown x none)
  | group {ws : List Kind} {t : Expr} (h : Items .arguments ws [t]) :
      Phrase .primary .closed (.leftParen :: (ws ++ [.rightParen])) t
  | block {ws : List Kind} {ts : List Expr} (h : Items .statements ws ts) :
      Phrase .primary .closed (.leftBrace :: (ws ++ [.rightBrace])) (.block .unknown ts)
  | lambdaOfName {e : Ending} {x : String} {ws : List Kind} {body : Expr} (h : Phrase .expression e ws body) :
      Phrase .primary .lambda (.identifier x :: .arrow :: ws)
        (.lambda .unknown [.name .unknown x none] body none none)
  | lambda {e : Ending} {ws₁ ws₂ : List Kind} {params : List Expr} {body : Expr}
      (hParams : Items .arguments ws₁ params) (h : Phrase .expression e ws₂ body) :
      Phrase .primary .lambda (.leftParen :: (ws₁ ++ .rightParen :: .arrow :: ws₂))
        (.lambda .unknown params body none none)

/-- The words of one item of a list, and its tree. A lambda takes the name that it is assigned to. -/
inductive Item : Listing → List Kind → Expr → Prop where
  | expression {k : Listing} {e : Ending} {ws : List Kind} {t : Expr} (h : Phrase .expression e ws t) : Item k ws t
  | assignment {e : Ending} {x : String} {ws : List Kind} {value : Expr} (h : Phrase .expression e ws value) :
      Item .statements (.identifier x :: .equal :: ws) (.assign .unknown x (value.labelled x) none)

/-- The words of a list, and the trees of its items. A separator can also stand after the last item. -/
inductive Items : Listing → List Kind → List Expr → Prop where
  | nil {k : Listing} : Items k [] []
  | last {k : Listing} {ws : List Kind} {t : Expr} (h : Item k ws t) : Items k ws [t]
  | more {k : Listing} {ws₁ ws₂ : List Kind} {t : Expr} {ts : List Expr} (h : Item k ws₁ t) (hs : Items k ws₂ ts) :
      Items k (ws₁ ++ k.separator :: ws₂) (t :: ts)

end

/-- The words of a program, and its tree. One statement stands for itself, several are a block. -/
inductive Program : List Kind → Expr → Prop where
  | single {ws : List Kind} {t : Expr} (h : Items .statements ws [t]) : Program ws t
  | several {ws : List Kind} {t₁ t₂ : Expr} {ts : List Expr} (h : Items .statements ws (t₁ :: t₂ :: ts)) :
      Program ws (.block .unknown (t₁ :: t₂ :: ts))

/-! ## Levels -/

/-- The place of a level among all levels. -/
def Level.rank : Level → Nat
  | expression => 0
  | disjunction => 1
  | conjunction => 2
  | comparison => 3
  | sum => 4
  | product => 5
  | unary => 6
  | application => 7
  | primary => 8

theorem rank_tighter (l : Level) : l.tighter.rank = min (l.rank + 1) 8 := by
  cases l <;> rfl

/-- A phrase is also a phrase of every looser level. -/
theorem Phrase.loosen {l m : Level} {e : Ending} {ws : List Kind} {t : Expr} (h : Phrase l e ws t)
    (hle : m.rank ≤ l.rank) : Phrase m e ws t := by
  -- The induction is on how many levels lie between the two.
  obtain ⟨n, hn⟩ : ∃ n, l.rank = m.rank + n := ⟨l.rank - m.rank, by omega⟩
  induction n generalizing m with
  | zero =>
    have : l = m := by
      cases l <;> cases m <;> first | rfl | (simp [Level.rank] at hn)
    exact this ▸ h
  | succ n ih =>
    have hmax : l.rank ≤ 8 := by cases l <;> decide
    have htighter := rank_tighter m
    exact .tighter (ih (by omega) (by omega))

/-! ## First words -/

/-- No phrase is without words. -/
theorem Phrase.ne_nil {l : Level} {e : Ending} {ws : List Kind} {t : Expr} : Phrase l e ws t → ws ≠ []
  | .tighter h => h.ne_nil
  | .choice .. | .operator .. | .call .. => by simp
  | .sign .. | .number | .name | .group _ | .block _ | .lambdaOfName _ | .lambda _ _ => by simp

end Grammar

end ClosureLang
