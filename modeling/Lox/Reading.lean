import Lox.Scan
import Lox.Expr.Parse

/-! Reading a source text: scanning, then parsing what was scanned, whatever the
scanner had to report. Problems are in the order of their discovery, the lexical
ones first and at most one syntax error after them. -/

namespace Lox

structure Reading where
  expr : Option Expr
  problems : List Problem
  records : List LogRecord
  deriving DecidableEq

namespace Reading

/-- What parsing adds: its tree, or its problem with the record of the report. -/
def ofTokens (ts : List Token) : Reading :=
  match parse ts with
  | .ok e => ⟨some e, [], []⟩
  | .error failure =>
    let problems := failure.problem?.toList
    ⟨none, problems, problems.map (·.record)⟩

theorem ofTokens_of_ok {ts : List Token} {e : Expr} (h : parse ts = .ok e) :
    ofTokens ts = ⟨some e, [], []⟩ := by
  simp only [ofTokens, h]

theorem ofTokens_of_problem {ts : List Token} {p : Problem} (h : parse ts = .error (.problem p)) :
    ofTokens ts = ⟨none, [p], [p.record]⟩ := by
  simp only [ofTokens, h]
  rfl

theorem expr_ofTokens_iff {ts : List Token} {e : Expr} :
    (ofTokens ts).expr = some e ↔ parse ts = .ok e := by
  unfold ofTokens
  cases parse ts <;> simp

def ofScanning (s : Scanning) : Reading :=
  let parsed := ofTokens s.tokens
  ⟨parsed.expr, s.problems ++ parsed.problems, s.records ++ parsed.records⟩

def ofSource (source : String) : Reading :=
  ofScanning (scanning source)

theorem expr_ofSource (source : String) :
    (ofSource source).expr = (ofTokens (scan source).tokens).expr := rfl

theorem problems_ofSource (source : String) : (ofSource source).problems =
    (scan source).problems ++ (ofTokens (scan source).tokens).problems := rfl

def diagnostics (r : Reading) : Diagnostics :=
  Diagnostics.empty.reportAll r.problems

end Reading

end Lox
