import Lox.Proofs.StaticGate

/-! Passes on one collection of diagnostics. A pass does to any collection what it does to an
empty one, behind the reports that are there (`Pass.run_eq`), also when each problem is
reported as soon as it is found (`Pass.live_eq`); what it reports is accounted for by its kind
(`Pass.accounts`). So the reports of a whole run are those of its passes on their own, one
after another (`Pass.reports_after`). -/

namespace Lox
open Segment

/-! ## Reporting at once -/

/-- A scanner at work, with the diagnostics that it reports to. -/
structure Scanner where
  line : Nat
  tokens : List Token
  diagnostics : Diagnostics

namespace Scanner

/-- One segment is read and, if it is a problem, reported. -/
def step (s : Scanner) (segment : Segment) : Scanner :=
  let line := s.line + segment.lineFeeds
  { line
    tokens := s.tokens ++ (segment.token? line).toList
    diagnostics := match segment.problem? line with
      | some p => s.diagnostics.report p.diagnostic
      | none => s.diagnostics }

/-- Reads a text to its end. -/
def go (s : Scanner) : List Char → Scanner
  | [] => s
  | c :: rest => (s.step (first c rest).1).go (first c rest).2
termination_by text => text.length
decreasing_by exact length_first_lt c rest

def scan (ds : Diagnostics) (source : String) : List Token × Diagnostics :=
  let s := go ⟨1, [], ds⟩ source.toList
  (s.tokens ++ [.eof s.line], s.diagnostics)

theorem diagnostics_step (s : Scanner) (segment : Segment) :
    (s.step segment).diagnostics =
      s.diagnostics.reportAll (segment.problem? (s.line + segment.lineFeeds)).toList := by
  simp only [step]
  cases segment.problem? (s.line + segment.lineFeeds) with
  | none => exact (Diagnostics.reportAll_nil _).symm
  | some p => rfl

/-- Behind what is there, a scanner that has read `before` leaves the tokens and the problems
that a scan finds after it. -/
theorem go_eq (s : Scanner) (before text : List Char) (hline : s.line = lineAfter before) :
    (s.go text).tokens ++ [.eof (s.go text).line] = s.tokens ++ tokensAfter before (split text) ∧
      (s.go text).diagnostics = s.diagnostics.reportAll (problemsAfter before (split text)) := by
  fun_induction go s text generalizing before with
  | case1 s => simp [split_nil, tokensAfter, problemsAfter, stamp, hline,
      Diagnostics.reportAll_nil]
  | case2 s c rest ih =>
    have hstep : s.line + (first c rest).1.lineFeeds =
        lineAfter (before ++ (first c rest).1.text) := by
      rw [hline, lineAfter_append]
    obtain ⟨htokens, hproblems⟩ := ih _ hstep
    rw [split_cons, tokensAfter_cons, problemsAfter_cons, htokens, hproblems, diagnostics_step,
      hstep, Diagnostics.reportAll_append]
    refine ⟨?_, rfl⟩
    simp only [step, hstep, List.append_assoc]

theorem scan_eq (ds : Diagnostics) (source : String) :
    scan ds source = ((Lox.scan source).tokens, ds.reportAll (Lox.scan source).problems) := by
  obtain ⟨htokens, hproblems⟩ := go_eq ⟨1, [], ds⟩ [] source.toList rfl
  rw [scan_eq_after]
  exact Prod.ext htokens hproblems

end Scanner

namespace Pass

def parseLive (ds : Diagnostics) (ts : List Token) : Option Expr × Diagnostics :=
  match Lox.parse ts with
  | .ok e => (some e, ds)
  | .error .unmarked => (none, ds)
  | .error (.problem p) => (none, ds.report p.diagnostic)

/-- The pass with every problem reported as soon as it is found. -/
def live (ds : Diagnostics) : Pass → Result × Diagnostics
  | report d => (.nothing, ds.report d)
  | problem p => (.nothing, ds.report ⟨p.line, p.location, p.message⟩)
  | scan source =>
    let s := Scanner.scan ds source
    (.tokens s.1, s.2)
  | parse ts =>
    let r := parseLive ds ts
    (.expr r.1, r.2)
  | read source =>
    let s := Scanner.scan ds source
    let r := parseLive s.2 s.1
    (.expr r.1, r.2)

theorem parseLive_eq (ds : Diagnostics) (ts : List Token) :
    parseLive ds ts =
      ((Reading.ofTokens ts).expr, ds.reportAll (Reading.ofTokens ts).problems) := by
  unfold parseLive Reading.ofTokens
  rcases Lox.parse ts with (_ | p) | e
  · exact Prod.ext rfl (Diagnostics.reportAll_nil ds).symm
  · rfl
  · exact Prod.ext rfl (Diagnostics.reportAll_nil ds).symm

theorem live_eq (ds : Diagnostics) (pass : Pass) : pass.live ds = pass.run ds := by
  cases pass with
  | report d => rfl
  | problem p => rfl
  | scan source => simp only [live, run, Scanner.scan_eq]
  | parse ts => simp only [live, run, parseLive_eq]
  | read source =>
    simp only [live, run, Scanner.scan_eq, parseLive_eq, Reading.expr_ofSource,
      Reading.problems_ofSource, Diagnostics.reportAll_append]

/-! ## One pass -/

/-- What a pass reports where nothing was reported before. -/
def reported (pass : Pass) : List Diagnostic :=
  (pass.run .empty).2.reports

theorem run_eq (ds : Diagnostics) (pass : Pass) :
    pass.run ds = ((pass.run .empty).1, ⟨ds.reports ++ pass.reported⟩) := by
  cases pass <;> rfl

/-- What a pass gives back, with the diagnostics that it reports. -/
inductive Accounts : Pass → Result → List Diagnostic → Prop
  | report {d : Diagnostic} : Accounts (.report d) .nothing [d]
  | problem {p : Problem} : Accounts (.problem p) .nothing [⟨p.line, p.location, p.message⟩]
  | scan {source : String} {ts : List Token} {ps : List Problem}
      (h : Yields [] (split source.toList) ts ps) :
      Accounts (.scan source) (.tokens ts) (ps.map (·.diagnostic))
  | tree {ts : List Token} {e : Expr} (h : Marked ts) : Accounts (.parse ts) (.expr (some e)) []
  /-- One report where the list ends with a marker and there is no tree. -/
  | failure {ts : List Token} {want : Expectation} {found : Token} (h : Marked ts) :
      Accounts (.parse ts) (.expr none) [(Problem.expected want found).diagnostic]
  | unmarked {ts : List Token} (h : ¬ Marked ts) : Accounts (.parse ts) (.expr none) []
  /-- The reports of scanning, then those of parsing what was scanned. -/
  | read {source : String} {ts : List Token} {e? : Option Expr} {early late : List Diagnostic}
      (hscan : Accounts (.scan source) (.tokens ts) early)
      (hparse : Accounts (.parse ts) (.expr e?) late) :
      Accounts (.read source) (.expr e?) (early ++ late)

theorem accounts_scan (source : String) :
    Accounts (.scan source) (.tokens (Lox.scan source).tokens) (scan source).reported :=
  .scan (scan_yields source)

theorem accounts_parse (ts : List Token) :
    Accounts (.parse ts) (.expr (Reading.ofTokens ts).expr) (parse ts).reported := by
  by_cases hm : Marked ts
  · rcases hm.ofTokens_cases with ⟨e, he, hp⟩ | ⟨want, found, he, hp⟩
    · rw [he, reported, run, hp]
      exact .tree hm
    · rw [he, reported, run, hp]
      exact .failure hm
  · rw [reported, run, Reading.ofTokens, parse_of_not_marked hm]
    exact .unmarked hm

theorem reported_read (source : String) :
    (read source).reported = (scan source).reported ++ (parse (Lox.scan source).tokens).reported :=
  List.map_append

theorem accounts (pass : Pass) : Accounts pass (pass.run .empty).1 pass.reported := by
  cases pass with
  | report d => exact .report
  | problem p => exact .problem
  | scan source => exact accounts_scan source
  | parse ts => exact accounts_parse ts
  | read source =>
    rw [reported_read]
    exact .read (accounts_scan source) (accounts_parse _)

/-! ## One pass after another -/

/-- The diagnostics after all passes. -/
def after (ds : Diagnostics) (passes : List Pass) : Diagnostics :=
  passes.foldl (fun ds pass => (pass.run ds).2) ds

theorem runAll_append (ds : Diagnostics) (front rest : List Pass) :
    runAll ds (front ++ rest) = runAll ds front ++ runAll (after ds front) rest := by
  induction front generalizing ds with
  | nil => rfl
  | cons pass front ih => exact congrArg (pass.run ds :: ·) (ih _)

/-- A run reports what its passes do, in their order. -/
theorem reports_after (ds : Diagnostics) (passes : List Pass) :
    (after ds passes).reports = ds.reports ++ passes.flatMap reported := by
  induction passes generalizing ds with
  | nil => simp [after]
  | cons pass rest ih =>
    rw [after, List.foldl_cons, ← after, ih, run_eq, List.flatMap_cons, List.append_assoc]

/-- Accounting over a run. At each pass the reports that are there stay in front, and are
those the passes so far report on their own; behind them stands what the pass reports to an
empty collection, where it also gives the same result. That holds as well when each problem
is reported as soon as it is found. Parsing reports once where it gives no tree for a list that
ends with a marker, and else not at all; reading reports what scanning does, then what
parsing does. -/
theorem passes_account (ds : Diagnostics) (front : List Pass) (pass : Pass) (rest : List Pass) :
    ∃ result late,
      runAll ds (front ++ pass :: rest) = runAll ds front ++
        (result, ⟨(after ds front).reports ++ late⟩) ::
          runAll ⟨(after ds front).reports ++ late⟩ rest ∧
      (after ds front).reports = ds.reports ++ front.flatMap reported ∧
      pass.run .empty = (result, ⟨late⟩) ∧
      (∀ before, pass.live before = (result, ⟨before.reports ++ late⟩)) ∧
      Accounts pass result late := by
  refine ⟨(pass.run .empty).1, pass.reported, ?_, reports_after ds front, rfl, fun before => ?_,
    accounts pass⟩
  · rw [runAll_append, runAll, run_eq]
  · rw [live_eq, run_eq]

end Pass

end Lox
