import Lox.Proofs.Relocation
import Lox.Proofs.StaticGate

/-! What stands above a text. Blanks and closed comments are split off without a token or a
report (`Filler.exists_segments`), so the text below them is scanned as by itself but for the
lines, which are shifted by the line feeds above it. Parsing and evaluation do not look at
lines, hence a run of the text below is the run of the text by itself, with the lines that its
failure names shifted (`run_below_filler`). -/

namespace Lox
open Grammar

/-- Blanks, and comments each with the line feed that ends it. -/
inductive Filler : List Char → Prop
  | nil : Filler []
  | blank {c rest} : c ∈ [' ', '\r', '\t', '\n'] → Filler rest → Filler (c :: rest)
  | comment {body rest} : '\n' ∉ body → Filler rest →
      Filler ('/' :: '/' :: (body ++ '\n' :: rest))

def Diagnostics.shift (lines : Nat) (ds : Diagnostics) : Diagnostics :=
  ⟨ds.reports.map (Diagnostic.shift lines)⟩

/-- The failure with its lines so many further down: those of all diagnostics, or that of the
operator at fault. -/
def Failure.shift (lines : Nat) : Failure → Failure
  | static ds => static (ds.shift lines)
  | runtime e => runtime { e with operator := e.operator.shift lines }
  | write => write
  | defect d => defect { d with operator := d.operator.shift lines }

theorem Failure.ofFault_mapOperator (lines : Nat) (fault : Fault) :
    ofFault (fault.mapOperator (Token.shift lines)) = (ofFault fault).shift lines := by
  cases fault <;> rfl

/-! ## Scanning -/

open Segment

theorem Filler.exists_segments {above : List Char} (h : Filler above) :
    ∃ segments, segments.flatMap text = above ∧ (∀ s ∈ segments, s.Silent) ∧
      ∀ after, Fitting after segments := by
  induction h with
  | nil => exact ⟨[], rfl, nofun, fun _ => .nil⟩
  | @blank c rest hc _ ih =>
    obtain ⟨segments, rfl, hsilent, hfitting⟩ := ih
    exact ⟨.blank c :: segments, rfl, List.forall_mem_cons.mpr ⟨silent_blank c, hsilent⟩,
      fun after => .cons ⟨isBlank_iff.mpr hc, trivial⟩ (hfitting after)⟩
  | @comment body rest hbody _ ih =>
    obtain ⟨segments, rfl, hsilent, hfitting⟩ := ih
    refine ⟨.comment body :: .blank '\n' :: segments, rfl, ?_, fun after => ?_⟩
    · exact List.forall_mem_cons.mpr ⟨silent_comment body,
        List.forall_mem_cons.mpr ⟨silent_blank '\n', hsilent⟩⟩
    · exact .cons ⟨hbody, noMore_cons.mpr rfl⟩ (.cons ⟨rfl, trivial⟩ (hfitting after))

theorem scan_below_filler {above : String} (h : Filler above.toList) (s : String) :
    (scan (above ++ s)).tokens =
        (scan s).tokens.map (Token.shift (above.toList.count '\n')) ∧
      (scan (above ++ s)).problems =
        (scan s).problems.map (Problem.shift (above.toList.count '\n')) := by
  obtain ⟨segments, htext, hsilent, hfitting⟩ := h.exists_segments
  have hsplit : split (above ++ s).toList = segments ++ split s.toList := by
    rw [String.toList_append, ← htext]
    exact (hfitting _).split_append
  obtain ⟨htokens, hproblems⟩ := scan_of_split hsplit
  rw [tokensIn_of_silent hsilent, List.nil_append, htext] at htokens
  rw [problemsAfter_eq_nil fun u hu => (hsilent u hu).problem, List.nil_append, htext] at hproblems
  exact ⟨htokens, hproblems⟩

/-! ## Reading -/

theorem Marked.ofTokens_shift {ts : List Token} (hm : Marked ts) (lines : Nat) :
    (Reading.ofTokens (ts.map (Token.shift lines))).expr =
        (Reading.ofTokens ts).expr.map (Expr.mapOperators (Token.shift lines)) ∧
      (Reading.ofTokens (ts.map (Token.shift lines))).problems =
        (Reading.ofTokens ts).problems.map (Problem.shift lines) := by
  have hmove := relocates_shift lines
  rcases hm.parse_cases with ⟨e, hp⟩ | ⟨want, found, hp⟩
  · rw [Reading.ofTokens_of_ok hp, Reading.ofTokens_of_ok (parse_move hmove hm hp)]
    exact ⟨rfl, rfl⟩
  · rw [Reading.ofTokens_of_problem hp,
      Reading.ofTokens_of_problem (parse_move_of_expected hmove hm hp)]
    exact ⟨rfl, rfl⟩

/-- A text below blanks and comments is read as by itself, with all lines shifted. -/
theorem reading_below_filler {above : String} (h : Filler above.toList) (s : String) :
    (Reading.ofSource (above ++ s)).expr = (Reading.ofSource s).expr.map
        (Expr.mapOperators (Token.shift (above.toList.count '\n'))) ∧
      (Reading.ofSource (above ++ s)).problems =
        (Reading.ofSource s).problems.map (Problem.shift (above.toList.count '\n')) := by
  obtain ⟨htokens, hproblems⟩ := scan_below_filler h s
  obtain ⟨hexpr, hlate⟩ := (marked_scan s).ofTokens_shift (above.toList.count '\n')
  simp only [Reading.expr_ofSource, Reading.problems_ofSource, htokens, hproblems, hexpr, hlate,
    List.map_append, and_self]

theorem diagnostics_below_filler {above : String} (h : Filler above.toList) (s : String) :
    (Reading.ofSource (above ++ s)).diagnostics =
      (Reading.ofSource s).diagnostics.shift (above.toList.count '\n') := by
  rw [Reading.diagnostics, (reading_below_filler h s).2, Diagnostics.reportAll,
    Problem.map_diagnostic_shift]
  rfl

/-! ## Runs -/

theorem interpret_shift (e : Expr) (lines : Nat) (sink : Sink) :
    (interpret (e.mapOperators (Token.shift lines)) sink).outcome =
        (interpret e sink).outcome.mapError (Failure.shift lines) ∧
      (interpret (e.mapOperators (Token.shift lines)) sink).sink = (interpret e sink).sink := by
  have hvalue := e.value_move (relocates_shift lines).respells
  cases hv : e.value with
  | ok v =>
    rw [hv] at hvalue
    obtain ⟨houtcome, hsink⟩ := interpret_of_value hv sink
    obtain ⟨houtcome', hsink'⟩ := interpret_of_value hvalue sink
    rw [houtcome, houtcome', hsink, hsink']
    exact ⟨by split <;> rfl, rfl⟩
  | error fault =>
    rw [hv] at hvalue
    obtain ⟨houtcome, hsink⟩ := interpret_of_fault hv sink
    obtain ⟨houtcome', hsink'⟩ := interpret_of_fault hvalue sink
    rw [houtcome, houtcome', hsink, hsink', Failure.ofFault_mapOperator]
    exact ⟨rfl, rfl⟩

/-- Lines are all that a run shows of what stands above its text. Below blanks and closed
comments a text has the value that it has by itself, or a failure of the same kind in which
each diagnostic, or the operator at fault, is further down by the line feeds above; and it
prints the same bytes. -/
theorem run_below_filler (above s : String) (h : Filler above.toList) (sink : Sink) :
    (run (above ++ s) sink).outcome =
        (run s sink).outcome.mapError (Failure.shift (above.toList.count '\n')) ∧
      (run (above ++ s) sink).sink = (run s sink).sink := by
  obtain ⟨hexpr, hproblems⟩ := reading_below_filler h s
  by_cases hp : (Reading.ofSource s).problems = []
  · obtain ⟨e, he⟩ := exists_expr_of_clean hp
    rw [he] at hexpr
    rw [hp] at hproblems
    obtain ⟨houtcome, hsink⟩ := run_of_clean hexpr hproblems sink
    obtain ⟨houtcome', hsink'⟩ := run_of_clean he hp sink
    rw [houtcome, hsink, houtcome', hsink']
    exact interpret_shift e _ sink
  · have hp' : (Reading.ofSource (above ++ s)).problems ≠ [] := by
      rwa [hproblems, ne_eq, List.map_eq_nil_iff]
    rw [run_of_reported hp sink, run_of_reported hp' sink, diagnostics_below_filler h]
    exact ⟨rfl, rfl⟩

/-- Two line feeds stand above, and one is in the string before the operator. -/
theorem run_below_filler_less :
    Filler "// \"(\r\n\t//\n".toList ∧
    (run "// \"(\r\n\t//\n\"a\nb\" < nil" (.empty none)).outcome =
      .error (.runtime ⟨.operandsNumbers, ⟨.symbol .less, "<", none, 4⟩⟩) ∧
    (run "// \"(\r\n\t//\n\"a\nb\" < nil" (.empty none)).sink = .empty none := by
  have habove : Filler "// \"(\r\n\t//\n".toList :=
    @Filler.comment [' ', '"', '(', '\r'] _ (by decide) (.blank (by decide)
      (@Filler.comment [] _ (by decide) .nil))
  have hexpr : (Reading.ofSource "\"a\nb\" < nil").expr =
      some (.binary (.literal (.string "a\nb")) ⟨.symbol .less, "<", none, 2⟩
        (.literal .nil)) := by decide +kernel
  have hclean : (Reading.ofSource "\"a\nb\" < nil").problems = [] := by decide +kernel
  obtain ⟨houtcome, hsink⟩ := run_of_clean hexpr hclean (.empty none)
  obtain ⟨hshifted, hsame⟩ :=
    run_below_filler "// \"(\r\n\t//\n" "\"a\nb\" < nil" habove (.empty none)
  rw [houtcome] at hshifted
  rw [hsink] at hsame
  exact ⟨habove, hshifted, hsame⟩

end Lox
