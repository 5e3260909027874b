import ClosureLang.Proofs.Attribution
import ClosureLang.Proofs.ListedCode

/-!
# Listings of sources

The rows of a program that was compiled from a source can be told from their texts: its names are names of the source,
its constants are literals, and its slots and frame sizes are not below zero. So its listing loses nothing. The listing
has a heading for each lambda of the source, and no other but that of the main routine.
-/

namespace ClosureLang

open Token (Kind Spellable IsNameOrNone)

/-! ## Lambdas -/

namespace Expr

mutual

/-- The lambdas of a tree in the order of the source, each one before those in its body. Each has the name that it is
labelled with or assigned to, if any, and the number of its parameters. -/
def lambdas (binding : Option String) : Expr → List (Option String × Nat)
  | number _ _ | name _ _ _ => []
  | call _ callee args => callee.lambdas none ++ lambdasAll args
  | lambda _ params body _ label => (label.or binding, params.length) :: (lambdasAll params ++ body.lambdas none)
  | block _ statements => lambdasAll statements
  | assign _ x value _ => value.lambdas (some x)
  | cond _ test onTrue onFalse => test.lambdas none ++ (onTrue.lambdas none ++ onFalse.lambdas none)

def lambdasAll : List Expr → List (Option String × Nat)
  | [] => []
  | e :: es => e.lambdas none ++ lambdasAll es

end

theorem length_shapeAll (es : List Expr) : (shapeAll es).length = es.length := by
  induction es with
  | nil => rfl
  | cons e es ih => rw [shapeAll, List.length_cons, ih, List.length_cons]

mutual

theorem lambdas_shape (binding : Option String) (e : Expr) : e.shape.lambdas binding = e.lambdas binding := by
  cases e with
  | number | name => rfl
  | call span callee args => rw [shape, lambdas, lambdas, lambdas_shape none callee, lambdasAll_shape args]
  | lambda span params body frame label =>
    rw [shape, lambdas, lambdas, lambdasAll_shape params, lambdas_shape none body, length_shapeAll]
  | block span statements => rw [shape, lambdas, lambdas, lambdasAll_shape statements]
  | assign span x value var => rw [shape, lambdas, lambdas, lambdas_shape (some x) value]
  | cond span test onTrue onFalse =>
    rw [shape, lambdas, lambdas, lambdas_shape none test, lambdas_shape none onTrue, lambdas_shape none onFalse]

theorem lambdasAll_shape (es : List Expr) : lambdasAll (shapeAll es) = lambdasAll es := by
  cases es with
  | nil => rfl
  | cons e es => rw [shapeAll, lambdasAll, lambdasAll, lambdas_shape none e, lambdasAll_shape es]

end

/-- The lambdas of the tree have names that a source can have. -/
def NamesLambdas (e : Expr) : Prop := ∀ binding, IsNameOrNone binding → ∀ l ∈ e.lambdas binding, IsNameOrNone l.1

theorem isNameOrNone_none : IsNameOrNone none := nofun

theorem isNameOrNone_some {x : String} (h : Token.isName x) : IsNameOrNone (some x) := by
  rintro _ ⟨⟩
  exact h

namespace NamesLambdas

variable {span : Span} {e : Expr} {es : List Expr}

theorem inside (h : e.NamesLambdas) : ∀ l ∈ e.lambdas none, IsNameOrNone l.1 := h none isNameOrNone_none

theorem all (h : ∀ e ∈ es, e.NamesLambdas) : ∀ l ∈ lambdasAll es, IsNameOrNone l.1 := by
  induction es with
  | nil => exact nofun
  | cons e es ih =>
    rw [List.forall_mem_cons] at h
    exact List.forall_mem_append.2 ⟨h.1.inside, ih h.2⟩

theorem name (x : String) : (Expr.name span x none).NamesLambdas := fun _ _ => nofun

theorem call (h : e.NamesLambdas) (hs : ∀ e ∈ es, e.NamesLambdas) : (Expr.call span e es).NamesLambdas :=
  fun _ _ => List.forall_mem_append.2 ⟨h.inside, all hs⟩

theorem lambda (hs : ∀ e ∈ es, e.NamesLambdas) (h : e.NamesLambdas) :
    (Expr.lambda span es e none none).NamesLambdas :=
  fun _ hbinding => List.forall_mem_cons.2 ⟨hbinding, List.forall_mem_append.2 ⟨all hs, h.inside⟩⟩

theorem labelled (h : e.NamesLambdas) {x : String} (hx : Token.isName x) : (e.labelled x).NamesLambdas := by
  cases e with
  | lambda span params body frame label =>
    intro binding hbinding
    have hinner := h binding hbinding
    rw [lambdas, List.forall_mem_cons] at hinner
    rw [Expr.labelled, lambdas, List.forall_mem_cons]
    exact ⟨isNameOrNone_some hx, hinner.2⟩
  | _ => exact h

end NamesLambdas

end Expr

namespace Grammar

mutual

theorem Phrase.namesLambdas {l : Level} {e : Ending} {ks : List Kind} {t : Expr} :
    Phrase l e ks t → (∀ k ∈ ks, Spellable k) → t.NamesLambdas
  | .tighter h, hks => h.namesLambdas hks
  | .choice hTest hTrue hFalse, hks => by
    simp only [List.forall_mem_append, List.forall_mem_cons] at hks
    have hTest := (hTest.namesLambdas hks.1).inside
    have hTrue := (hTrue.namesLambdas hks.2.2.1).inside
    have hFalse := (hFalse.namesLambdas hks.2.2.2.2).inside
    exact fun _ _ => List.forall_mem_append.2 ⟨hTest, List.forall_mem_append.2 ⟨hTrue, hFalse⟩⟩
  | .operator hOp hLeft hRight, hks => by
    simp only [List.forall_mem_append, List.forall_mem_cons] at hks
    refine .call (.name _) (List.forall_mem_cons.2 ⟨hLeft.namesLambdas hks.1, List.forall_mem_singleton.2 ?_⟩)
    exact hRight.namesLambdas hks.2.2
  | .sign hOp h, hks => by
    simp only [List.forall_mem_cons] at hks
    exact .call (.name _) (List.forall_mem_singleton.2 (h.namesLambdas hks.2))
  | .call hCallee hArgs, hks => by
    simp only [List.forall_mem_append, List.forall_mem_cons] at hks
    exact .call (hCallee.namesLambdas hks.1) (hArgs.namesLambdas hks.2.2.1)
  | .number, _ => fun _ _ => nofun
  | .name, _ => .name _
  | .group h, hks => by
    simp only [List.forall_mem_append, List.forall_mem_cons] at hks
    exact h.namesLambdas hks.2.1 _ (List.mem_singleton_self _)
  | .block h, hks => by
    simp only [List.forall_mem_append, List.forall_mem_cons] at hks
    exact fun _ _ => Expr.NamesLambdas.all (h.namesLambdas hks.2.1)
  | .lambdaOfName h, hks => by
    simp only [List.forall_mem_cons] at hks
    exact .lambda (List.forall_mem_singleton.2 (.name _)) (h.namesLambdas hks.2.2)
  | .lambda hParams h, hks => by
    simp only [List.forall_mem_append, List.forall_mem_cons] at hks
    exact .lambda (hParams.namesLambdas hks.2.1) (h.namesLambdas hks.2.2.2.2)

theorem Item.namesLambdas {k : Listing} {ks : List Kind} {t : Expr} :
    Item k ks t → (∀ k ∈ ks, Spellable k) → t.NamesLambdas
  | .expression h, hks => h.namesLambdas hks
  | .assignment h, hks => by
    simp only [List.forall_mem_cons] at hks
    exact fun _ _ => ((h.namesLambdas hks.2.2).labelled hks.1) _ (Expr.isNameOrNone_some hks.1)

theorem Items.namesLambdas {k : Listing} {ks : List Kind} {ts : List Expr} :
    Items k ks ts → (∀ k ∈ ks, Spellable k) → ∀ t ∈ ts, t.NamesLambdas
  | .nil, _ => nofun
  | .last h, hks => List.forall_mem_singleton.2 (h.namesLambdas hks)
  | .more h hs, hks => by
    simp only [List.forall_mem_append, List.forall_mem_cons] at hks
    exact List.forall_mem_cons.2 ⟨h.namesLambdas hks.1, hs.namesLambdas hks.2.2⟩

end

theorem Program.namesLambdas {ks : List Kind} {t : Expr} (h : Program ks t) (hks : ∀ k ∈ ks, Spellable k) :
    t.NamesLambdas := by
  cases h with
  | single h => exact h.namesLambdas hks t (List.mem_singleton_self t)
  | several h => exact fun _ _ => Expr.NamesLambdas.all (h.namesLambdas hks)

end Grammar

theorem Expr.namesLambdas_of_source {source : String} {tokens : List Token} {e : Expr}
    (htokens : Token.ofSource source = .ok tokens) (htree : ofTokens tokens = .ok e) : e.NamesLambdas := by
  obtain ⟨ks, hks, h⟩ := exists_program htokens htree
  intro binding
  rw [← lambdas_shape]
  exact h.namesLambdas hks binding

/-! ## Readable code -/

/-- The rows of the code and of the routines inside it can be told from their texts. -/
structure Code.Readable (globals : Prelude) (c : Code) : Prop where
  rows : ∀ d, ∀ row ∈ c.rows d, row.Readable globals
  routineRows : ∀ row ∈ c.routineRows, row.Readable globals

section Readable

variable {globals : Prelude}

theorem Code.Readable.of {c : Code} (hroutine : c.routine? = none) (hi : c.instruction.Readable globals)
    (ho : ∀ x ∈ c.operands, x.Readable globals) : c.Readable globals where
  rows d row hrow := by
    rw [rows_eq, List.mem_cons, List.mem_flatMap] at hrow
    rcases hrow with rfl | ⟨x, hx, hrow⟩
    · exact hi
    · exact (ho x hx).rows (d + 1) row hrow
  routineRows row hrow := by
    rw [routineRows_eq c hroutine, List.mem_flatMap] at hrow
    obtain ⟨x, hx, hrow⟩ := hrow
    exact (ho x hx).routineRows row hrow

theorem Routine.readable_rows {r : Routine} {label : String} (hword : Text.IsWord label) (hslash : '/' ∉ label.toList)
    (hframe : 0 ≤ r.frameSize) (hcaptures : ∀ load ∈ r.captures, 0 ≤ load.slot) (hbody : r.body.Readable globals) :
    ∀ row ∈ r.rows label, row.Readable globals := by
  obtain ⟨name, arity, frameSize, captures, body⟩ := r
  simp only [Routine.rows, List.forall_mem_cons, List.forall_mem_append, List.forall_mem_map]
  exact ⟨⟨hword, hslash, hframe⟩, hcaptures, hbody.rows 0, hbody.routineRows⟩

theorem Code.Readable.closure {r : Routine} (hname : IsNameOrNone r.name) (hframe : 0 ≤ r.frameSize)
    (hcaptures : ∀ load ∈ r.captures, 0 ≤ load.slot) (hbody : r.body.Readable globals) :
    (Code.closure r).Readable globals where
  rows d := List.forall_mem_singleton.2 hname
  routineRows := by
    have hslash : '/' ∉ r.label.toList := Routine.notMem_label hname rfl (by decide)
    exact r.readable_rows (Routine.isWord_label hname) hslash hframe hcaptures hbody

end Readable

/-! ## Compiled code -/

/-- The code can be told from its listing, and its routines are those of the lambdas. -/
structure Code.Lists (globals : Prelude) (lambdas : List (Option String × Nat)) (c : Code) : Prop where
  readable : c.Readable globals
  routines : c.routines.map Routine.signature = lambdas

structure Code.ListsAll (globals : Prelude) (lambdas : List (Option String × Nat)) (cs : List Code) : Prop where
  readable : ∀ c ∈ cs, c.Readable globals
  routines : (cs.flatMap Code.routines).map Routine.signature = lambdas

section Lists

variable {globals : Prelude} {lambdas lambdas' : List (Option String × Nat)} {c : Code} {cs : List Code}

theorem Code.ListsAll.nil : ListsAll globals [] [] := ⟨List.forall_mem_nil _, rfl⟩

theorem Code.ListsAll.cons (h : c.Lists globals lambdas) (hs : ListsAll globals lambdas' cs) :
    ListsAll globals (lambdas ++ lambdas') (c :: cs) where
  readable := List.forall_mem_cons.2 ⟨h.readable, hs.readable⟩
  routines := by rw [List.flatMap_cons, List.map_append, h.routines, hs.routines]

theorem Code.ListsAll.single (h : c.Lists globals lambdas) : ListsAll globals lambdas [c] := by
  simpa using Code.ListsAll.cons h .nil

theorem Code.Lists.of (hroutine : c.routine? = none) (hi : c.instruction.Readable globals)
    (h : ListsAll globals lambdas c.operands) : c.Lists globals lambdas where
  readable := .of hroutine hi h.readable
  routines := by rw [routines_eq c hroutine, h.routines]

end Lists

variable {t : ScopeTable} {globals : Prelude}

theorem Refers.lists {frames : List Frame} {x : String} {v : Var} (hv : FramesValid t globals.names frames)
    (h : Refers t globals.names x frames v) : (v.access t).Lists globals [] := by
  rcases h.has hv with ⟨i, hi, rfl⟩ | ⟨s, hs, hhas⟩
  · exact .of rfl hi .nil
  · cases v with
    | global i => exact hhas.elim
    | _ => exact .of rfl trivial .nil

/-- Parameters are names, so they hold no lambda. -/
theorem Expr.lambdasAll_params {params : List Expr} (h : ∀ p ∈ params, p.asName? ≠ none) : lambdasAll params = [] := by
  induction params with
  | nil => rfl
  | cons p params ih =>
    rw [List.forall_mem_cons] at h
    rw [lambdasAll, ih h.2, List.append_nil]
    cases p with
    | name => rfl
    | _ => exact absurd rfl h.1

theorem Expr.length_paramNames {params : List Expr} (h : ∀ p ∈ params, p.asName? ≠ none) :
    (paramNames params).length = params.length := by
  induction params with
  | nil => rfl
  | cons p params ih =>
    rw [List.forall_mem_cons] at h
    cases p with
    | name span x var => exact congrArg (· + 1) (ih h.2)
    | _ => exact absurd rfl h.1

/-- The routine of a lambda. -/
theorem LambdaValid.lists {frames : List Frame} {id : Nat} {names : List String} {binding : Option String} {s : Scope}
    (h : LambdaValid t globals.names frames id names binding s) (hname : IsNameOrNone s.name)
    {lambdas : List (Option String × Nat)} {body : Code} (hbody : body.Lists globals lambdas) :
    (Code.closure (.ofScope s (s.captures.map t.load) body)).Lists globals ((s.name, names.length) :: lambdas) where
  readable := by
    refine .closure hname (Int.natCast_nonneg _) (fun load hload => ?_) hbody.readable
    obtain ⟨c, -, rfl⟩ := List.mem_map.1 hload
    rw [t.slot_load c]
    exact Int.natCast_nonneg _
  routines := by
    rw [Code.routines_closure, List.map_cons, Routine.signature, Routine.ofScope, hbody.routines, Scope.arity,
      h.params_eq]

mutual

/-- The code of a resolved tree can be told from its listing, and it has a routine for each lambda of the tree. -/
theorem compile_lists {t : ScopeTable} {globals : Prelude} (hd : t.Dense) (e : Expr) {frames : List Frame}
    {binding : Option String} {e' : Expr} (h : Elab t globals.names frames binding e e')
    (hv : FramesValid t globals.names frames) (hleaves : ∀ k ∈ e.leaves, Spellable k)
    (hnames : ∀ l ∈ e.lambdas binding, IsNameOrNone l.1) :
    ∃ c, e'.compile t (Frame.innermost frames) = .ok c ∧ c.Lists globals (e.lambdas binding) := by
  cases e with
  | number span value =>
    obtain rfl := h
    obtain ⟨w, hw, rfl⟩ := hleaves (.number value) (List.mem_singleton_self _)
    exact ⟨_, rfl, .of rfl ⟨w, hw, rfl⟩ .nil⟩
  | name span x _ =>
    obtain ⟨v, hrefers, rfl⟩ := h
    exact ⟨v.access t, hrefers.compile hd hv span, hrefers.lists hv⟩
  | call span callee args =>
    obtain ⟨callee', args', hcallee, hargs, rfl⟩ := h
    rw [Expr.leaves, List.forall_mem_append] at hleaves
    rw [Expr.lambdas, List.forall_mem_append] at hnames
    obtain ⟨f, hf, hflists⟩ := compile_lists hd callee hcallee hv hleaves.1 hnames.1
    obtain ⟨cs, hcs, hcslists⟩ := compileAll_lists hd args hargs hv hleaves.2 hnames.2
    exact ⟨.call f cs span.line, by rw [Expr.compile, hf, hcs]; rfl, .of rfl trivial (.cons hflists hcslists)⟩
  | lambda span params body _ label =>
    obtain ⟨params', names, id, s, body', hparams, hlambda, hname, hbody, rfl⟩ := h
    obtain ⟨hasName, -, -, rfl⟩ := (@Resolver.bindParams_ok_iff 0 [] names params).1 (by rw [hparams])
    rw [Expr.leaves, List.forall_mem_append] at hleaves
    rw [Expr.lambdas, Expr.lambdasAll_params hasName, List.nil_append, List.forall_mem_cons] at hnames
    obtain ⟨c, hc, hlists⟩ := compile_lists hd body hbody ⟨⟨s, hlambda⟩, hv⟩ hleaves.2 hnames.2
    refine ⟨.closure (.ofScope s (s.captures.map t.load) c), ?_, ?_⟩
    · have hcode : body'.compile t id = .ok c := hc
      rw [Expr.compile, hlambda.layout hd hv, hcode]
      rfl
    · have hclosure := hlambda.lists (hname ▸ hnames.1) hlists
      rw [hname, List.nil_append, Expr.length_paramNames hasName] at hclosure
      rwa [Expr.lambdas, Expr.lambdasAll_params hasName]
  | block span statements =>
    obtain ⟨locals, statements', hblock, -, -, hstatements, rfl⟩ := h
    obtain ⟨stores, result, hc, hlists⟩ :=
      compileStatements_lists hd span statements hstatements ⟨hblock, hv⟩ hleaves hnames
    have hcode : Expr.compileStatements t (Frame.innermost frames) span statements' = .ok (stores, result) := hc
    exact ⟨.block stores result, by rw [Expr.compile, hcode]; rfl, .of rfl trivial hlists⟩
  -- Assignments have no code of their own. Those of a block are its statements.
  | assign => cases h
  | cond span test onTrue onFalse =>
    obtain ⟨test', onTrue', onFalse', htest, htrue, hfalse, rfl⟩ := h
    rw [Expr.leaves, List.forall_mem_append, List.forall_mem_append] at hleaves
    rw [Expr.lambdas, List.forall_mem_append, List.forall_mem_append] at hnames
    obtain ⟨c, hc, hlists⟩ := compile_lists hd test htest hv hleaves.1 hnames.1
    obtain ⟨c₁, hc₁, hlists₁⟩ := compile_lists hd onTrue htrue hv hleaves.2.1 hnames.2.1
    obtain ⟨c₂, hc₂, hlists₂⟩ := compile_lists hd onFalse hfalse hv hleaves.2.2 hnames.2.2
    exact ⟨.cond c c₁ c₂ span.line, by rw [Expr.compile, hc, hc₁, hc₂]; rfl,
      .of rfl trivial (.cons hlists (.cons hlists₁ (.single hlists₂)))⟩

theorem compileAll_lists {t : ScopeTable} {globals : Prelude} (hd : t.Dense) (es : List Expr) {frames : List Frame}
    {es' : List Expr} (h : ElabAll t globals.names frames es es') (hv : FramesValid t globals.names frames)
    (hleaves : ∀ k ∈ Expr.leavesAll es, Spellable k) (hnames : ∀ l ∈ Expr.lambdasAll es, IsNameOrNone l.1) :
    ∃ cs, Expr.compileAll t (Frame.innermost frames) es' = .ok cs ∧ Code.ListsAll globals (Expr.lambdasAll es) cs := by
  cases es with
  | nil =>
    obtain rfl := h
    exact ⟨[], rfl, .nil⟩
  | cons e es =>
    obtain ⟨e', rest', he, hes, rfl⟩ := h
    rw [Expr.leavesAll, List.forall_mem_append] at hleaves
    rw [Expr.lambdasAll, List.forall_mem_append] at hnames
    obtain ⟨c, hc, hlists⟩ := compile_lists hd e he hv hleaves.1 hnames.1
    obtain ⟨cs, hcs, hlistsAll⟩ := compileAll_lists hd es hes hv hleaves.2 hnames.2
    exact ⟨c :: cs, by rw [Expr.compileAll, hc, hcs]; rfl, .cons hlists hlistsAll⟩

theorem compileStatements_lists {t : ScopeTable} {globals : Prelude} (hd : t.Dense) (span : Span) (es : List Expr)
    {frames : List Frame} {es' : List Expr} (h : ElabStatements t globals.names frames es es')
    (hv : FramesValid t globals.names frames) (hleaves : ∀ k ∈ Expr.leavesAll es, Spellable k)
    (hnames : ∀ l ∈ Expr.lambdasAll es, IsNameOrNone l.1) :
    ∃ stores result, Expr.compileStatements t (Frame.innermost frames) span es' = .ok (stores, result) ∧
      Code.ListsAll globals (Expr.lambdasAll es) (stores ++ [result]) := by
  cases h.blockForm with
  | @result e he =>
    obtain ⟨e', hresult, rfl⟩ := elabStatements_result.1 h
    rw [Expr.leavesAll, List.forall_mem_append] at hleaves
    rw [Expr.lambdasAll, List.forall_mem_append] at hnames
    obtain ⟨c, hc, hlists⟩ := compile_lists hd e hresult hv hleaves.1 hnames.1
    exact ⟨[], c, by rw [Expr.compileStatements, hc]; rfl, .cons hlists .nil⟩
  | @assign aspan x value var es hform =>
    obtain ⟨n, value', rest', hslot, hvalue, hrest, rfl⟩ := (elabStatements_assign hform).1 h
    rw [Expr.leavesAll, List.forall_mem_append, Expr.leaves, List.forall_mem_cons] at hleaves
    rw [Expr.lambdasAll, List.forall_mem_append] at hnames
    have hmark (p : Progress) := (framesValid_mark x p).2 hv
    have hinner (p : Progress) : Frame.innermost (Frame.mark x p frames) = Frame.innermost frames :=
      innermost_mark x p frames
    obtain ⟨c, hc, hlists⟩ := compile_lists hd value hvalue (hmark .defining) hleaves.1.2 hnames.1
    obtain ⟨stores, result, hes, hlistsAll⟩ :=
      compileStatements_lists hd span es hrest (hmark .defined) hleaves.2 hnames.2
    rw [hinner] at hc hes
    refine ⟨.store n c :: stores, result, ?_, .cons (.of rfl (Int.natCast_nonneg n) (.single hlists)) hlistsAll⟩
    obtain ⟨e₁, rest₁, rfl⟩ := List.exists_cons_of_ne_nil hrest.ne_nil
    rw [Expr.compileStatements, hc, hes]
    · rfl
    · simp

end

/-! ## Programs -/

/-- The program can be told from its listing, and its routines are those of the lambdas. -/
structure Program.Lists (p : Program) (lambdas : List (Option String × Nat)) : Prop where
  name : p.main.name = none
  rows : ∀ row ∈ p.rows, row.Readable p.globals
  routines : p.main.body.routines.map Routine.signature = lambdas

/-- The main scope has no name. -/
theorem Resolver.name_main {globals : List String} {e e' : Expr} {r : Resolver}
    (h : (Resolver.new globals).program e = .done e' r) {s : Scope} (hs : r.scopes[0]? = some s) : s.name = none := by
  obtain ⟨tree, r', htree, h⟩ := Resolution.andThen_eq_done h
  cases h
  obtain ⟨hy, -⟩ := Expr.resolve_sound e htree (ready_main globals) (by simp)
  have hmain : (((Resolver.new globals).addScope (.ofLambda none none [])).openFrame Frame.main).scopes[0]? =
    some (.ofLambda none none []) := rfl
  obtain ⟨s', hs', hext, -⟩ := hy.advances.grows.scope hmain
  cases hs.symm.trans hs'
  exact hext.name

theorem Interpreter.compile_lists {i : Interpreter} {source : String} {p : Program} {log log' : Array Event}
    (h : i.compile source log = .ok p log') :
    p.globals = i.globals ∧ ∃ tokens tree, Token.ofSource source = .ok tokens ∧ Expr.ofTokens tokens = .ok tree ∧
      p.Lists (tree.lambdas none) := by
  obtain ⟨tokens, tree, tree', r, htokens, htree, hresolved, hprogram⟩ := exists_of_compile h
  have hsound := Resolver.program_sound hresolved
  obtain ⟨s, c, hs, hc, -, -, hok⟩ := hsound.program i.globals
  cases hprogram.symm.trans hok
  have hleaves := Expr.spellable_of_source htokens htree
  have hnames := (Expr.namesLambdas_of_source htokens htree).inside
  have hv : FramesValid r.scopes i.globals.names [Frame.main] := ⟨hsound.main, trivial⟩
  obtain ⟨c', hc', hlists⟩ := ClosureLang.compile_lists hsound.dense tree hsound.tree hv hleaves hnames
  cases hc.symm.trans hc'
  refine ⟨rfl, tokens, tree, htokens, htree, Resolver.name_main hresolved hs, ?_, hlists.routines⟩
  exact Routine.readable_rows (by decide) (by decide) (Int.natCast_nonneg _) nofun hlists.readable

theorem Program.Lists.main_eq {p q : Program} {lambdas lambdas' : List (Option String × Nat)} (hp : p.Lists lambdas)
    (hq : q.Lists lambdas') (hglobals : p.globals = q.globals) (hg : p.globals.Tells) (h : p.listing = q.listing) :
    p.main = q.main := by
  rw [p.listing_eq, q.listing_eq, ← hglobals] at h
  have hrows := ListingRow.textAll_inj hg hp.rows (hglobals ▸ hq.rows) h
  exact Program.rows_inj (hp.name.trans hq.name.symm) hrows

/-- A listing loses nothing. Programs of two sources with the same listing have the same main routine, so they evaluate
alike under all limits. The headings of a listing are that of the main routine and one for each lambda of the source, in
the order of the source, and each stands behind the heading of the routine that makes closures of its own. -/
theorem Interpreter.listing_lossless {i j : Interpreter} (hi : i.globals = .standard) (hj : j.globals = .standard)
    {source source' : String} {p q : Program} {log log₁ log' log₁' : Array Event}
    (hp : i.compile source log = .ok p log₁) (hq : j.compile source' log' = .ok q log₁') :
    (p.listing = q.listing → p.main = q.main ∧ ∀ (k : Interpreter) (log : Array Event), k.eval p log = k.eval q log) ∧
      ∃ tokens tree, Token.ofSource source = .ok tokens ∧ Expr.ofTokens tokens = .ok tree ∧
        (Text.rows p.listing).filter Text.isHeading =
          p.main.heading "<main>" :: (p.main.body.routines.map fun r => r.heading r.label) ∧
        p.main.body.routines.map Routine.signature = tree.lambdas none ∧
        p.main.Unfolds (p.main :: p.main.body.routines) ∧
        ∀ before r after, p.main :: p.main.body.routines = before ++ r :: after → before ≠ [] →
          ∃ maker ∈ before, r ∈ maker.body.made := by
  obtain ⟨hglobals, tokens, tree, htokens, htree, hlists⟩ := compile_lists hp
  obtain ⟨hglobals', _, _, -, -, hlists'⟩ := compile_lists hq
  have hsame : p.globals = q.globals := by rw [hglobals, hglobals', hi, hj]
  have hg : p.globals.Tells := by rw [hglobals, hi]; exact Prelude.tells_standard
  have hunfolds : p.main.Unfolds (p.main :: p.main.body.routines) := .intro p.main.body.unfolds
  refine ⟨fun h => ?_, tokens, tree, htokens, htree, p.headings_listing hg hlists.rows, hlists.routines, hunfolds, ?_⟩
  -- Both were compiled with the same prelude, so they are one program.
  · have hmain := hlists.main_eq hlists' hsame hg h
    refine ⟨hmain, fun k log => ?_⟩
    obtain ⟨main, globals⟩ := p
    obtain ⟨main', globals'⟩ := q
    cases hmain
    cases hsame
    rfl
  · intro before r after h hne
    exact (hunfolds.exists_maker h).resolve_left fun hfirst => hne hfirst.1

/-- A function that gives back the first of two arguments, taken one after the other. -/
def keptFirst : String := "k = x -> y -> x;\nk(2)(true)"

/-- The same with other blanks, a comment and more parentheses. -/
def keptFirstSpaced : String := "k = (x) -> ((y,) -> (x)) ; // k\n(k)(2.0)( true )"

/-- The programs of two sources, if there are such. -/
def Interpreter.compileBoth (i j : Interpreter) (source source' : String) : Option (Program × Program) :=
  match i.compile source #[], j.compile source' #[] with
  | .ok p _, .ok q _ => some (p, q)
  | _, _ => none

theorem Interpreter.listing_lossless_keptFirst :
    ∃ p q log log' tokens tree, (Interpreter.standard .standard).compile keptFirst #[] = .ok p log ∧
      (Interpreter.standard ⟨3, 40⟩).compile keptFirstSpaced #[] = .ok q log' ∧ p.listing = q.listing ∧
      p.main = q.main ∧ (∀ (k : Interpreter) (log : Array Event), k.eval p log = k.eval q log) ∧
      Token.ofSource keptFirst = .ok tokens ∧ Expr.ofTokens tokens = .ok tree ∧
      (Text.rows p.listing).filter Text.isHeading =
        ["== <main>/0 frame=1 ==", "== k/1 frame=0 ==", "== <lambda>/1 frame=1 =="] ∧
      tree.lambdas none = [(some "k", 1), (none, 1)] := by
  have hlistings : (compileBoth (.standard .standard) (.standard ⟨3, 40⟩) keptFirst keptFirstSpaced).any (fun both =>
      decide (both.1.listing = both.2.listing ∧ (Text.rows both.1.listing).filter Text.isHeading =
        ["== <main>/0 frame=1 ==", "== k/1 frame=0 ==", "== <lambda>/1 frame=1 =="] ∧
        both.1.main.body.routines.map Routine.signature = [(some "k", 1), (none, 1)])) = true := by decide +kernel
  unfold compileBoth at hlistings
  cases hp : (Interpreter.standard .standard).compile keptFirst #[] with
  | error d log =>
    rw [hp] at hlistings
    cases hlistings
  | ok p log =>
    cases hq : (Interpreter.standard ⟨3, 40⟩).compile keptFirstSpaced #[] with
    | error d log' =>
      rw [hp, hq] at hlistings
      cases hlistings
    | ok q log' =>
      rw [hp, hq] at hlistings
      obtain ⟨hsame, hheadings, hsignatures⟩ := of_decide_eq_true hlistings
      obtain ⟨hmain, tokens, tree, htokens, htree, -, hlambdas, -, -⟩ := listing_lossless rfl rfl hp hq
      obtain ⟨hmain, heval⟩ := hmain hsame
      exact ⟨p, q, log, log', tokens, tree, rfl, rfl, hsame, hmain, heval, htokens, htree, hheadings,
        hlambdas.symm.trans hsignatures⟩

end ClosureLang
