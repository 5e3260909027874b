import ClosureLang.Diagnostic.Report
import ClosureLang.Proofs.Rows

/-!
# Folded traces

A report shows each stretch of equal calls in one row, up to a number of rows, and counts the calls behind them in one
more row. Stretches are described here by their places in the trace, and not by the way they are found: a stretch is
maximal if no call beside it is equal to its own. The rows of a report are those of the first maximal stretches, so the
calls that it shows and the number that it ends with make up the trace.
-/

namespace ClosureLang

/-- The last word of a text can be told from it. -/
theorem Text.lastWord_inj {x y w v : String} (hw : ' ' ∉ w.toList) (hv : ' ' ∉ v.toList)
    (h : x ++ " " ++ w = y ++ " " ++ v) : x = y ∧ w = v := by
  have hreverse : w.toList.reverse ++ ' ' :: x.toList.reverse = v.toList.reverse ++ ' ' :: y.toList.reverse := by
    simpa using congrArg (fun t => t.toList.reverse) h
  have hwords := congrArg (List.splitOn ' ') hreverse
  rw [List.splitOn_append_cons_self_of_not_mem (mt List.mem_reverse.1 hw),
    List.splitOn_append_cons_self_of_not_mem (mt List.mem_reverse.1 hv)] at hwords
  have hword : w = v := String.toList_inj.1 (List.reverse_injective (List.cons.inj hwords).1)
  subst hword
  rw [String.append_left_inj, String.append_left_inj] at h
  exact ⟨h, rfl⟩

namespace Diagnostic

open Text (ofRows ofRows_cons ofRows_concat notMem_nat lastWord_inj)

/-! ## Stretches of equal calls -/

/-- Equal calls in a row, and the number of the first one. -/
@[ext] structure Stretch where
  first : Nat
  site : CallSite
  length : Nat

namespace Stretch

/-- The trace has the stretch at its place, and no equal call on either side of it. -/
structure IsMaximal (sites : List CallSite) (s : Stretch) : Prop where
  length_pos : 0 < s.length
  equal : ∀ i, s.first ≤ i → i < s.first + s.length → sites[i]? = some s.site
  before : ∀ i, i + 1 = s.first → sites[i]? ≠ some s.site
  behind : sites[s.first + s.length]? ≠ some s.site

/-- The row of a stretch. Its length is told if it is not one. -/
def row (s : Stretch) : String :=
  s!"  {s.first} at {s.site.function} (line {s.site.line})" ++
    (if 1 < s.length then s!" repeated {s.length} times" else "")

/-- The calls of stretches that follow each other. -/
def calls (all : List Stretch) : List CallSite := all.flatMap fun s => List.replicate s.length s.site

variable {trace before behind : List CallSite} {s t : Stretch}

/-- Two maximal stretches are the same, or the later one starts behind the earlier one. -/
theorem IsMaximal.eq_or_le (hs : s.IsMaximal trace) (ht : t.IsMaximal trace) (hle : s.first ≤ t.first) :
    t = s ∨ s.first + s.length ≤ t.first := by
  by_contra! h
  obtain ⟨hne, hlt⟩ := h
  have hcommon := ht.equal t.first le_rfl (Nat.lt_add_of_pos_right ht.length_pos)
  have hsite : s.site = t.site := Option.some.inj ((hs.equal t.first hle hlt).symm.trans hcommon)
  have hfirst : s.first = t.first := by
    by_contra hfirst
    refine ht.before (t.first - 1) (by omega) ?_
    rw [← hsite]
    exact hs.equal _ (by omega) (by omega)
  have hlength : s.length = t.length := by
    rcases Nat.lt_trichotomy s.length t.length with hshort | heq | hlong
    · refine absurd ?_ hs.behind
      rw [hsite]
      exact ht.equal _ (by omega) (by omega)
    · exact heq
    · refine absurd ?_ ht.behind
      rw [← hsite]
      exact hs.equal _ (by omega) (by omega)
  exact hne (Stretch.ext hfirst.symm hsite.symm hlength.symm)

theorem isMaximal_replicate {site : CallSite} {n : Nat} (hn : 0 < n) (hbefore : before.getLast? ≠ some site)
    (hbehind : behind.head? ≠ some site) :
    IsMaximal (before ++ (List.replicate n site ++ behind)) ⟨before.length, site, n⟩ where
  length_pos := hn
  equal i (hi : before.length ≤ i) (hlt : i < before.length + n) := by
    rw [List.getElem?_append_right hi, List.getElem?_append_left (by rw [List.length_replicate]; omega)]
    exact List.getElem?_replicate_of_lt (by omega)
  before i (hi : i + 1 = before.length) := by
    rw [List.getElem?_append_left (by omega), show i = before.length - 1 by omega, ← List.getLast?_eq_getElem?]
    exact hbefore
  behind := by
    have hplace : before.length + n - before.length = (List.replicate n site).length := by
      rw [Nat.add_sub_cancel_left, List.length_replicate]
    rw [List.getElem?_append_right (Nat.le_add_right _ _), hplace, List.getElem?_append_right le_rfl, Nat.sub_self,
      ← List.head?_eq_getElem?]
    exact hbehind

theorem IsMaximal.first_lt (h : s.IsMaximal trace) : s.first < trace.length := by
  have hcall := h.equal s.first le_rfl (Nat.lt_add_of_pos_right h.length_pos)
  exact (List.getElem?_eq_some_iff.1 hcall).1

end Stretch

/-! ## The runs of a trace -/

/-- The calls of runs. -/
def expand (rs : List (CallSite × Nat)) : List CallSite := rs.flatMap fun r => List.replicate r.2 r.1

/-- No run is empty, and no two runs beside each other are of the same call. -/
structure Parted (rs : List (CallSite × Nat)) : Prop where
  pos : ∀ r ∈ rs, 0 < r.2
  apart : rs.IsChain (·.1 ≠ ·.1)

variable {trace : List CallSite} {rs : List (CallSite × Nat)} {site : CallSite} {n : Nat}

theorem expand_cons (site : CallSite) (n : Nat) (rs : List (CallSite × Nat)) :
    expand ((site, n) :: rs) = List.replicate n site ++ expand rs := List.flatMap_cons

theorem expand_append (rs rs' : List (CallSite × Nat)) : expand (rs ++ rs') = expand rs ++ expand rs' :=
  List.flatMap_append

theorem length_expand (rs : List (CallSite × Nat)) : (expand rs).length = (rs.map Prod.snd).sum := by
  rw [expand, List.length_flatMap]
  simp only [List.length_replicate]

namespace Parted

theorem tail (h : Parted ((site, n) :: rs)) : Parted rs :=
  ⟨(List.forall_mem_cons.1 h.pos).2, h.apart.tail⟩

theorem head_pos (h : Parted ((site, n) :: rs)) : 0 < n := (List.forall_mem_cons.1 h.pos).1

theorem head?_expand (h : Parted rs) : (expand rs).head? = rs.head?.map Prod.fst := by
  cases rs with
  | nil => rfl
  | cons r rs =>
    rw [expand_cons, List.head?_append, List.head?_replicate, if_neg h.head_pos.ne']
    rfl

/-- The run behind the first one is of another call. -/
theorem next_ne (h : Parted ((site, n) :: rs)) : rs.head?.map Prod.fst ≠ some site := by
  cases rs with
  | nil => exact (Option.some_ne_none site).symm
  | cons r rs =>
    intro heq
    exact (List.isChain_cons_cons.1 h.apart).1 (Option.some.inj heq).symm

theorem addToRuns (h : Parted rs) (site : CallSite) : Parted (addToRuns site rs) := by
  cases rs with
  | nil => exact ⟨by simp [Diagnostic.addToRuns], List.isChain_singleton _⟩
  | cons r rs =>
    by_cases heq : site = r.1
    · rw [Diagnostic.addToRuns, if_pos heq]
      refine ⟨List.forall_mem_cons.2 ⟨Nat.succ_pos _, h.tail.pos⟩, ?_⟩
      cases rs with
      | nil => exact List.isChain_singleton _
      | cons r' rs => exact List.isChain_cons_cons.2 (List.isChain_cons_cons.1 h.apart)
    · rw [Diagnostic.addToRuns, if_neg heq]
      exact ⟨List.forall_mem_cons.2 ⟨Nat.one_pos, h.pos⟩, List.isChain_cons_cons.2 ⟨heq, h.apart⟩⟩

end Parted

theorem expand_addToRuns (site : CallSite) (rs : List (CallSite × Nat)) :
    expand (addToRuns site rs) = site :: expand rs := by
  cases rs with
  | nil => rfl
  | cons r rs =>
    by_cases heq : site = r.1
    · rw [addToRuns, if_pos heq, heq]
      rfl
    · rw [addToRuns, if_neg heq]
      rfl

theorem runs_parted (trace : List CallSite) : Parted (runs trace) := by
  induction trace with
  | nil => exact ⟨List.forall_mem_nil _, List.isChain_nil⟩
  | cons site trace ih => exact ih.addToRuns site

theorem expand_runs (trace : List CallSite) : expand (runs trace) = trace := by
  induction trace with
  | nil => rfl
  | cons site trace ih =>
    have hstep := expand_addToRuns site (runs trace)
    rw [ih] at hstep
    exact hstep

/-! ## The places of runs -/

/-- The stretches that runs are, of which the first starts at call number `index`. -/
def stretches (index : Nat) : List (CallSite × Nat) → List Stretch
  | [] => []
  | (site, n) :: rs => ⟨index, site, n⟩ :: stretches (index + n) rs

theorem calls_stretches (index : Nat) (rs : List (CallSite × Nat)) :
    Stretch.calls (stretches index rs) = expand rs := by
  induction rs generalizing index with
  | nil => rfl
  | cons r rs ih => rw [stretches, Stretch.calls, List.flatMap_cons, ← Stretch.calls, ih, expand_cons]

theorem length_stretches (index : Nat) (rs : List (CallSite × Nat)) : (stretches index rs).length = rs.length := by
  induction rs generalizing index with
  | nil => rfl
  | cons r rs ih => rw [stretches, List.length_cons, ih, List.length_cons]

theorem take_stretches (room index : Nat) (rs : List (CallSite × Nat)) :
    (stretches index rs).take room = stretches index (rs.take room) := by
  induction rs generalizing room index with
  | nil => rw [List.take_nil, stretches, List.take_nil]
  | cons r rs ih =>
    cases room with
    | zero => rfl
    | succ room => rw [stretches, List.take_succ_cons, ih, List.take_succ_cons, stretches]

theorem le_first_of_mem_stretches {index : Nat} {s : Stretch} (h : s ∈ stretches index rs) : index ≤ s.first := by
  induction rs generalizing index with
  | nil => cases h
  | cons r rs ih =>
    rcases List.mem_cons.1 h with rfl | h
    · exact le_rfl
    · exact (Nat.le_add_right _ _).trans (ih h)

theorem Parted.stretches_inOrder (h : Parted rs) (index : Nat) :
    (stretches index rs).Pairwise (·.first < ·.first) := by
  induction rs generalizing index with
  | nil => exact List.Pairwise.nil
  | cons r rs ih =>
    refine List.Pairwise.cons (fun s hs => ?_) (ih h.tail _)
    exact (Nat.lt_add_of_pos_right h.head_pos).trans_le (le_first_of_mem_stretches hs)

/-- Behind a part of the trace that ends in another call, the runs are exactly the maximal stretches. -/
theorem Parted.mem_stretches_iff (h : Parted rs) (before : List CallSite)
    (hbefore : ∀ site, rs.head?.map Prod.fst = some site → before.getLast? ≠ some site) {s : Stretch} :
    s ∈ stretches before.length rs ↔ before.length ≤ s.first ∧ s.IsMaximal (before ++ expand rs) := by
  induction rs generalizing before with
  | nil =>
    refine iff_of_false List.not_mem_nil ?_
    rintro ⟨hle, hs⟩
    have hlt := hs.first_lt
    rw [expand, List.flatMap_nil, List.append_nil] at hlt
    exact absurd hle hlt.not_ge
  | cons r rs ih =>
    obtain ⟨site, n⟩ := r
    have hfirst : Stretch.IsMaximal (before ++ expand ((site, n) :: rs)) ⟨before.length, site, n⟩ := by
      rw [expand_cons]
      refine Stretch.isMaximal_replicate h.head_pos (hbefore site rfl) ?_
      rw [h.tail.head?_expand]
      exact h.next_ne
    -- For the runs behind it, the first part of the trace has taken in this run.
    have hothers : s ∈ stretches (before.length + n) rs ↔
        before.length + n ≤ s.first ∧ s.IsMaximal (before ++ expand ((site, n) :: rs)) := by
      have hlast : (before ++ List.replicate n site).getLast? = some site := by
        rw [List.getLast?_append, List.getLast?_replicate, if_neg h.head_pos.ne']
        rfl
      have hstep := ih h.tail (before ++ List.replicate n site) fun site' hsite' heq =>
        h.next_ne (hsite'.trans (heq.symm.trans hlast))
      rw [List.length_append, List.length_replicate, List.append_assoc, ← expand_cons] at hstep
      exact hstep
    rw [stretches, List.mem_cons, hothers]
    constructor
    · rintro (rfl | ⟨hle, hs⟩)
      · exact ⟨le_rfl, hfirst⟩
      · exact ⟨(Nat.le_add_right _ _).trans hle, hs⟩
    · rintro ⟨hle, hs⟩
      rcases hfirst.eq_or_le hs hle with heq | hbehind
      · exact .inl heq
      · exact .inr ⟨hbehind, hs⟩

theorem mem_stretches_runs {s : Stretch} : s ∈ stretches 0 (runs trace) ↔ s.IsMaximal trace := by
  have hmem := (runs_parted trace).mem_stretches_iff [] (fun _ _ => (Option.some_ne_none _).symm) (s := s)
  rw [List.nil_append, expand_runs] at hmem
  exact hmem.trans (and_iff_right (Nat.zero_le _))

/-! ## Rows -/

/-- The row about calls that are not shown. -/
def omittedRow (n : Nat) : String := s!"  ... {n} more frame(s)"

theorem runsText_nil (room index : Nat) : runsText room index [] = "" := by
  cases room <;> rfl

theorem runsText_zero (index : Nat) (site : CallSite) (n : Nat) (rs : List (CallSite × Nat)) :
    runsText 0 index ((site, n) :: rs) = omittedRow (expand ((site, n) :: rs)).length ++ "\n" := by
  have hstep : runsText 0 index ((site, n) :: rs) =
      "  ... " ++ toString (((site, n) :: rs).map Prod.snd).sum ++ " more frame(s)\n" := rfl
  rw [hstep, ← length_expand]
  simp [omittedRow, String.append_assoc]

theorem runsText_succ (room index : Nat) (site : CallSite) (n : Nat) (rs : List (CallSite × Nat)) :
    runsText (room + 1) index ((site, n) :: rs) =
      Stretch.row ⟨index, site, n⟩ ++ "\n" ++ runsText room (index + n) rs := rfl

/-- The first runs have a row each. Behind them the text goes on at the call that follows. -/
theorem runsText_split (room index : Nat) (rs : List (CallSite × Nat)) :
    runsText room index rs = ofRows ((stretches index (rs.take room)).map Stretch.row) ++
      runsText 0 (index + (expand (rs.take room)).length) (rs.drop room) := by
  induction rs generalizing room index with
  | nil =>
    rw [List.take_nil, List.drop_nil, runsText_nil, runsText_nil]
    rfl
  | cons r rs ih =>
    obtain ⟨site, n⟩ := r
    cases room with
    | zero => exact String.empty_append.symm
    | succ room =>
      have hplace : index + n + (expand (rs.take room)).length =
          index + (expand ((site, n) :: rs.take room)).length := by
        rw [expand_cons, List.length_append, List.length_replicate, Nat.add_assoc]
      rw [runsText_succ, ih, List.take_succ_cons, List.drop_succ_cons, stretches, List.map_cons, ofRows_cons, hplace,
        ← String.append_assoc]

/-- At the call where the room ends, the calls of the runs that are left are as many as the trace has from there on. -/
theorem runsText_zero_of_runs {shown rest : List (CallSite × Nat)} (h : runs trace = shown ++ rest) (hne : rest ≠ []) :
    runsText 0 (expand shown).length rest = omittedRow (trace.length - (expand shown).length) ++ "\n" := by
  have hlength : trace.length = (expand shown).length + (expand rest).length := by
    rw [← List.length_append, ← expand_append, ← h, expand_runs]
  obtain ⟨⟨site, n⟩, others, rfl⟩ := List.exists_cons_of_ne_nil hne
  rw [runsText_zero, hlength, Nat.add_sub_cancel_left]

theorem runsText_runs (room : Nat) (trace : List CallSite) :
    runsText room 0 (runs trace) = ofRows ((stretches 0 ((runs trace).take room)).map Stretch.row ++
      if room < (runs trace).length then [omittedRow (trace.length - (expand ((runs trace).take room)).length)]
      else []) := by
  rw [runsText_split, Nat.zero_add]
  by_cases hroom : room < (runs trace).length
  · have hparts := (List.take_append_drop room (runs trace)).symm
    have hne : (runs trace).drop room ≠ [] := by
      rw [Ne, List.drop_eq_nil_iff, not_le]
      exact hroom
    rw [if_pos hroom, runsText_zero_of_runs hparts hne, ofRows_concat, String.append_assoc]
  · rw [if_neg hroom, List.drop_eq_nil_of_le (not_lt.1 hroom), runsText_nil, String.append_empty, List.append_nil]

theorem omittedRow_eq_words (x : String) (n : Nat) :
    x ++ omittedRow n = x ++ "  ..." ++ " " ++ toString n ++ " " ++ "more" ++ " " ++ "frame(s)" := by
  simp [omittedRow, ← String.toList_inj]

theorem row_eq_words (x : String) (s : Stretch) :
    ∃ y w, x ++ s.row = y ++ " " ++ w ∧ ' ' ∉ w.toList ∧ 'f' ∉ w.toList := by
  by_cases hlength : 1 < s.length
  · refine ⟨x ++ s!"  {s.first} at {s.site.function} (line {s.site.line}) repeated {s.length}", "times", ?_, ?_, ?_⟩
    · simp [Stretch.row, hlength, ← String.toList_inj]
    · decide
    · decide
  · refine ⟨x ++ s!"  {s.first} at {s.site.function} (line", toString s.site.line ++ ")", ?_, ?_, ?_⟩
    · simp [Stretch.row, hlength, ← String.toList_inj]
    · simpa using notMem_nat rfl s.site.line
    · simpa using notMem_nat rfl s.site.line

/-- A row of calls does not end like the row about calls that are not shown. -/
theorem append_row_ne (s : Stretch) (n : Nat) (x y : String) : x ++ s.row ≠ y ++ omittedRow n := by
  intro h
  obtain ⟨front, w, hrow, hblank, hf⟩ := row_eq_words x s
  rw [hrow, omittedRow_eq_words] at h
  have hword := (lastWord_inj hblank (by decide) h).2
  rw [hword] at hf
  exact hf (by decide)

theorem append_omittedRow_inj {n m : Nat} {x y : String} (h : x ++ omittedRow n = y ++ omittedRow m) : n = m := by
  rw [omittedRow_eq_words, omittedRow_eq_words] at h
  have hmore := (lastWord_inj (by decide) (by decide) h).1
  have hnumber := (lastWord_inj (by decide) (by decide) hmore).1
  exact Nat.repr_injective (lastWord_inj (notMem_nat rfl n) (notMem_nat rfl m) hnumber).2

/-- The last row is about calls that are not shown only where such a row is added, and then it has their number. -/
theorem ends_with_omittedRow_iff (ss : List Stretch) (p : Prop) [Decidable p] (k n : Nat) :
    (∃ rows, ofRows (ss.map Stretch.row ++ if p then [omittedRow k] else []) = ofRows (rows ++ [omittedRow n])) ↔
      p ∧ n = k := by
  by_cases hp : p
  · rw [if_pos hp, and_iff_right hp]
    constructor
    · rintro ⟨rows, h⟩
      rw [ofRows_concat, ofRows_concat, String.append_left_inj] at h
      exact (append_omittedRow_inj h).symm
    · rintro rfl
      exact ⟨_, rfl⟩
  · rw [if_neg hp, List.append_nil]
    refine iff_of_false ?_ fun h => hp h.1
    rintro ⟨rows, h⟩
    rw [ofRows_concat] at h
    rcases List.eq_nil_or_concat ss with rfl | ⟨front, s, rfl⟩
    · exact absurd (String.append_eq_empty_iff.1 h.symm).2 (by decide)
    · rw [List.concat_eq_append, List.map_append, List.map_singleton, ofRows_concat, String.append_left_inj] at h
      exact append_row_ne s n _ _ h

/-- The text of a trace has a row for each of the first maximal stretches of equal calls, with the number of its first
call, and these rows stand for the beginning of the trace. The number of calls behind them is told in a last row if and
only if there are more stretches. -/
theorem runsText_accounts (trace : List CallSite) :
    ∃ all : List Stretch, (∀ s, s ∈ all ↔ s.IsMaximal trace) ∧ all.Pairwise (·.first < ·.first) ∧
      Stretch.calls all = trace ∧ Stretch.calls (all.take maxRuns) <+: trace ∧
      runsText maxRuns 0 (runs trace) = ofRows ((all.take maxRuns).map Stretch.row ++
        if maxRuns < all.length then [omittedRow (trace.length - (Stretch.calls (all.take maxRuns)).length)] else []) ∧
      ∀ n, (∃ rows, runsText maxRuns 0 (runs trace) = ofRows (rows ++ [omittedRow n])) ↔
        maxRuns < all.length ∧ n + (Stretch.calls (all.take maxRuns)).length = trace.length := by
  have hcalls : Stretch.calls (stretches 0 (runs trace)) = trace := by rw [calls_stretches, expand_runs]
  have hshown : Stretch.calls ((stretches 0 (runs trace)).take maxRuns) = expand ((runs trace).take maxRuns) := by
    rw [take_stretches, calls_stretches]
  have hbeginning : expand ((runs trace).take maxRuns) <+: trace := by
    refine ⟨expand ((runs trace).drop maxRuns), ?_⟩
    rw [← expand_append, List.take_append_drop, expand_runs]
  have htext := runsText_runs maxRuns trace
  refine ⟨stretches 0 (runs trace), fun _ => mem_stretches_runs, (runs_parted trace).stretches_inOrder 0, hcalls, ?_,
    ?_, fun n => ?_⟩
  · rw [hshown]
    exact hbeginning
  · rw [hshown, htext, take_stretches, length_stretches]
  · have hle := hbeginning.length_le
    rw [hshown, htext, ends_with_omittedRow_iff, length_stretches]
    refine and_congr_right fun _ => ?_
    omega

end Diagnostic

end ClosureLang
