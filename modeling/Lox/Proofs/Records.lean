import Lox.Proofs.PostOrder
import Lox.Proofs.StaticGate

/-! What a run records. Its stages follow one another: the scanner leaves the reports of the
problems and then its count, the parser the report of a syntax error; where nothing was
reported, the evaluator goes through the operations of the tree in post-order, up to the
first that fails. -/

namespace Lox

theorem Reading.ofSource_of_ok {source : String} {e : Expr}
    (h : parse (scan source).tokens = .ok e) :
    ofSource source = ⟨some e, (scan source).problems, (scan source).records⟩ := by
  rw [ofSource, scanning_eq, ofScanning, ofTokens_of_ok h, List.append_nil, List.append_nil]

theorem Reading.ofSource_of_problem {source : String} {p : Problem}
    (h : parse (scan source).tokens = .error (.problem p)) :
    ofSource source =
      ⟨none, (scan source).problems ++ [p], (scan source).records ++ [p.record]⟩ := by
  rw [ofSource, scanning_eq, ofScanning, ofTokens_of_problem h]

/-- The record of a report written out. -/
theorem Diagnostic.record_eq (d : Diagnostic) : d.record = ⟨.debug,
    "reported [line " ++ toString d.line ++ "] Error" ++ d.location ++ ": " ++ d.message⟩ := by
  have hline : "reported [line " = "reported " ++ "[line " := rfl
  simp only [record, render, hline, String.append_assoc]

theorem records_interpret (e : Expr) (sink : Sink) :
    (interpret e sink).records = e.evaluate.records := by
  unfold interpret
  dsimp only
  split <;> rfl

/-- The records of the evaluator, if it is entered, come behind those of the scanner. -/
theorem records_run_of_ok {source : String} {e : Expr} (h : parse (scan source).tokens = .ok e)
    (sink : Sink) :
    (run source sink).records = (scan source).records ++
      if (scan source).problems = [] then e.evaluate.records else [] := by
  have hreading := Reading.ofSource_of_ok h
  have hproblems := congrArg Reading.problems hreading
  split
  · rename_i hp
    rw [records_run_of_clean (congrArg Reading.expr hreading) (hproblems.trans hp), hreading,
      records_interpret]
  · rename_i hp
    rw [run_of_reported (hproblems ▸ hp), hreading, List.append_nil]

theorem records_run_of_problem {source : String} {p : Problem}
    (h : parse (scan source).tokens = .error (.problem p)) (sink : Sink) :
    (run source sink).records = (scan source).records ++ [p.record] := by
  have hreading := Reading.ofSource_of_problem h
  have hp : (Reading.ofSource source).problems ≠ [] := by simp [hreading]
  rw [run_of_reported hp, hreading]

/-- The records of a run. Each lexical problem is reported, in source order, and the tokens are
counted, the end marker with them. Then comes the report of the syntax error, if the tokens
give no tree; nothing, if they give one but something was reported; and else, for each binary
operator that evaluation comes to, the types of its operands around its text. -/
theorem run_leaves_records (source : String) (sink : Sink) :
    Segment.Yields [] (Segment.split source.toList) (scan source).tokens (scan source).problems ∧
    ∃ late, (run source sink).records =
        (scan source).problems.map (fun p => ⟨.debug,
            "reported [line " ++ toString p.diagnostic.line ++ "] Error" ++
              p.diagnostic.location ++ ": " ++ p.diagnostic.message⟩) ++
          ⟨.trace, "scanned " ++ toString (scan source).tokens.length ++ " tokens"⟩ :: late ∧
      ((∀ e, parse (scan source).tokens ≠ .ok e) → ∃ d : Diagnostic,
        (∀ ds, (Pass.parse (scan source).tokens).run ds = (.expr none, ds.report d)) ∧
          late = [⟨.debug, "reported [line " ++ toString d.line ++ "] Error" ++ d.location ++
            ": " ++ d.message⟩]) ∧
      ∀ e, parse (scan source).tokens = .ok e →
        ((scan source).problems ≠ [] → late = []) ∧
        ((scan source).problems = [] → ∃ nodes, e.Reaches nodes ∧ Expr.Traces nodes late) := by
  have hscan : ∀ late, (scan source).records ++ late =
      (scan source).problems.map (fun p => ⟨.debug,
          "reported [line " ++ toString p.diagnostic.line ++ "] Error" ++
            p.diagnostic.location ++ ": " ++ p.diagnostic.message⟩) ++
        ⟨.trace, "scanned " ++ toString (scan source).tokens.length ++ " tokens"⟩ :: late := by
    intro late
    simp only [Scan.records, Problem.record, Diagnostic.record_eq, List.append_assoc,
      List.cons_append, List.nil_append]
  refine ⟨scan_yields source, ?_⟩
  rcases (marked_scan source).parse_cases with ⟨e, hparse⟩ | ⟨want, found, hparse⟩
  · refine ⟨_, (records_run_of_ok hparse sink).trans (hscan _),
      fun hnone => absurd hparse (hnone e), fun f hf => ?_⟩
    obtain rfl : e = f := Except.ok.inj (hparse.symm.trans hf)
    refine ⟨fun hp => if_neg hp, fun hp => ?_⟩
    rw [if_pos hp]
    exact e.exists_reaches
  · refine ⟨_, (records_run_of_problem hparse sink).trans (hscan _), fun _ => ?_, fun e he => ?_⟩
    · exact ⟨_, Pass.run_parse_of_problem hparse, congrArg ([·]) (Diagnostic.record_eq _)⟩
    · cases hparse.symm.trans he

end Lox
