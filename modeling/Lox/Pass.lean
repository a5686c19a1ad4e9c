import Lox.Reading

/-! Passes that share one collection of diagnostics. Each adds its reports after those
that are there, and what it adds and gives back does not depend on them. -/

namespace Lox

inductive Pass where
  | report (diagnostic : Diagnostic)
  | problem (problem : Problem)
  | scan (source : String)
  | parse (tokens : List Token)
  /-- Scanning, then parsing. -/
  | read (source : String)

namespace Pass

inductive Result where
  | nothing
  | tokens (tokens : List Token)
  | expr (expr : Option Expr)
  deriving DecidableEq

def run (ds : Diagnostics) : Pass → Result × Diagnostics
  | report d => (.nothing, ds.report d)
  | problem p => (.nothing, ds.report p.diagnostic)
  | scan source =>
    let s := Lox.scan source
    (.tokens s.tokens, ds.reportAll s.problems)
  | parse ts =>
    let r := Reading.ofTokens ts
    (.expr r.expr, ds.reportAll r.problems)
  | read source =>
    let r := Reading.ofSource source
    (.expr r.expr, ds.reportAll r.problems)

theorem run_parse_of_problem {ts : List Token} {p : Problem}
    (h : Lox.parse ts = .error (.problem p)) (ds : Diagnostics) :
    (parse ts).run ds = (.expr none, ds.report p.diagnostic) := by
  simp only [run, Reading.ofTokens_of_problem h, Diagnostics.report_diagnostic]

/-- The results of passes one after another, each with the diagnostics after it. -/
def runAll (ds : Diagnostics) : List Pass → List (Result × Diagnostics)
  | [] => []
  | pass :: rest =>
    let step := pass.run ds
    step :: runAll step.2 rest

end Pass

end Lox
