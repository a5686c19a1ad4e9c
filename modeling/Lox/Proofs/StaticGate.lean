import Lox.Pass
import Lox.Proofs.Accepted
import Lox.Proofs.LongestMatch
import Lox.Proofs.Session

/-! The gate between reading a text and evaluating it. A scanned text ends with a marker, so
parsing it gives a tree or reports one syntax error (`Marked.ofTokens_cases`); a run is stopped
exactly by a report, carries all of them, and neither writes nor evaluates; a run that is not
stopped interprets the tree. -/

namespace Lox

theorem marked_scan (source : String) : Marked (scan source).tokens := by
  rw [marked_iff, getLast?_tokens_scan]
  rfl

/-- A list that ends with a marker is parsed or has a syntax error. -/
theorem Marked.parse_cases {ts : List Token} (h : Marked ts) :
    (∃ e, parse ts = .ok e) ∨
      ∃ want found, parse ts = .error (.problem (.expected want found)) := by
  obtain ⟨body, stop, tail, c⟩ := h.cut
  rw [c.parse h]
  cases Nonterminal.expression.outcome body with
  | ok r => exact .inl ⟨r.1, rfl⟩
  | error s => exact .inr ⟨s.expected, s.rest.headD stop, rfl⟩

/-- None is refused without a report. -/
theorem Marked.ofTokens_cases {ts : List Token} (h : Marked ts) :
    (∃ e, (Reading.ofTokens ts).expr = some e ∧ (Reading.ofTokens ts).problems = []) ∨
      ∃ want found, (Reading.ofTokens ts).expr = none ∧
        (Reading.ofTokens ts).problems = [.expected want found] := by
  rcases h.parse_cases with ⟨e, hp⟩ | ⟨want, found, hp⟩
  · exact .inl ⟨e, by rw [Reading.ofTokens_of_ok hp], by rw [Reading.ofTokens_of_ok hp]⟩
  · exact .inr ⟨want, found, by rw [Reading.ofTokens_of_problem hp],
      by rw [Reading.ofTokens_of_problem hp]⟩

theorem Reading.records_ofSource (source : String) : (ofSource source).records =
    (scan source).records ++ (ofTokens (scan source).tokens).records := by
  rw [ofSource, scanning_eq]
  rfl

/-- Parsing leaves the records of its reports. -/
theorem Reading.records_ofTokens (ts : List Token) :
    (ofTokens ts).records = ((ofTokens ts).problems.map (·.diagnostic)).map Diagnostic.record := by
  unfold ofTokens
  cases parse ts <;> simp [Problem.record]

theorem exists_expr_of_clean {source : String} (h : (Reading.ofSource source).problems = []) :
    ∃ e, (Reading.ofSource source).expr = some e := by
  have hnone : (Reading.ofTokens (scan source).tokens).problems = [] :=
    (List.append_eq_nil_iff.mp h).2
  rcases (marked_scan source).ofTokens_cases with ⟨e, he, -⟩ | ⟨want, found, -, hp⟩
  · exact ⟨e, he⟩
  · cases hp.symm.trans hnone

/-! ## Runs -/

/-- A run that has something to report ends with the reports. -/
theorem run_of_reported {source : String} (h : (Reading.ofSource source).problems ≠ [])
    (sink : Sink) : run source sink =
      ⟨.error (.static (Reading.ofSource source).diagnostics), sink,
        (Reading.ofSource source).records⟩ := by
  unfold run
  dsimp only
  split
  · rename_i e _ hp
    exact absurd hp h
  · rfl

theorem records_run_of_clean {source : String} {e : Expr}
    (he : (Reading.ofSource source).expr = some e) (hp : (Reading.ofSource source).problems = [])
    (sink : Sink) :
    (run source sink).records = (Reading.ofSource source).records ++ (interpret e sink).records := by
  simp [run, he, hp]

theorem interpret_ne_static (e : Expr) (sink : Sink) (ds : Diagnostics) :
    (interpret e sink).outcome ≠ .error (.static ds) := by
  intro hds
  rcases interpret_eq_error hds with hwrite | ⟨fault, -, hfault⟩
  · cases hwrite
  · cases fault <;> cases hfault

theorem run_eq_static_iff {source : String} {sink : Sink} {ds : Diagnostics} :
    (run source sink).outcome = .error (.static ds) ↔
      (Reading.ofSource source).problems ≠ [] ∧ ds = (Reading.ofSource source).diagnostics := by
  by_cases hp : (Reading.ofSource source).problems = []
  · obtain ⟨e, he⟩ := exists_expr_of_clean hp
    rw [(run_of_clean he hp sink).1]
    exact iff_of_false (interpret_ne_static e sink ds) fun h => h.1 hp
  · rw [run_of_reported hp sink]
    constructor
    · intro h
      cases h
      exact ⟨hp, rfl⟩
    · intro h
      rw [h.2]

/-- The gate before evaluation. The problems of scanning come in source order; parsing what
was scanned, after whatever was reported, gives a tree and no report, or no tree and one
report of a syntax error. A run is stopped exactly when there is a report: it then carries
all of them, the lexical ones first, leaves the sink alone and the evaluator unused.
Otherwise there is a tree, and the run is that of the tree. -/
theorem run_stopped_iff_reported (source : String) (sink : Sink) :
    Segment.Yields [] (Segment.split source.toList) (scan source).tokens (scan source).problems ∧
    ∃ e? late,
      (∀ ds, (Pass.parse (scan source).tokens).run ds = (.expr e?, ⟨ds.reports ++ late⟩)) ∧
      ((∃ e, e? = some e ∧ late = []) ∨
        ∃ want found, e? = none ∧ late = [(Problem.expected want found).diagnostic]) ∧
      ((∃ ds, (run source sink).outcome = .error (.static ds)) ↔
        (scan source).problems ≠ [] ∨ late ≠ []) ∧
      (∀ ds, (run source sink).outcome = .error (.static ds) →
        ds.reports = (scan source).problems.map (·.diagnostic) ++ late ∧ ds.reports ≠ [] ∧
        (run source sink).sink = sink ∧
        (run source sink).records = (scan source).records ++ late.map Diagnostic.record) ∧
      ((∀ ds, (run source sink).outcome ≠ .error (.static ds)) →
        ∃ e, e? = some e ∧ (run source sink).outcome = (interpret e sink).outcome ∧
          (run source sink).sink = (interpret e sink).sink ∧
          (run source sink).records = (scan source).records ++ (interpret e sink).records) := by
  have hyields : Segment.Yields [] (Segment.split source.toList) (scan source).tokens
      (scan source).problems := scan_yields source
  have hreports : (Reading.ofSource source).diagnostics.reports =
      (scan source).problems.map (·.diagnostic) ++
        (Reading.ofTokens (scan source).tokens).problems.map (·.diagnostic) := List.map_append
  have hrecords : (Reading.ofSource source).records = (scan source).records ++
      ((Reading.ofTokens (scan source).tokens).problems.map (·.diagnostic)).map
        Diagnostic.record := by
    rw [Reading.records_ofSource, Reading.records_ofTokens]
  have hproblems : (Reading.ofSource source).problems ≠ [] ↔ (scan source).problems ≠ [] ∨
      (Reading.ofTokens (scan source).tokens).problems.map (·.diagnostic) ≠ [] := by
    rw [Reading.problems_ofSource, ne_eq, List.append_eq_nil_iff,
      Classical.not_and_iff_not_or_not, ne_eq, ne_eq, List.map_eq_nil_iff]
  refine ⟨hyields, _, _, fun ds => rfl, ?_, ?_, fun ds hds => ?_, fun hgo => ?_⟩
  · rcases (marked_scan source).ofTokens_cases with ⟨e, he, hp⟩ | ⟨want, found, he, hp⟩
    · exact .inl ⟨e, he, by rw [hp, List.map_nil]⟩
    · exact .inr ⟨want, found, he, by rw [hp, List.map_singleton]⟩
  · rw [← hproblems]
    constructor
    · intro h
      obtain ⟨ds, hds⟩ := h
      exact (run_eq_static_iff.mp hds).1
    · intro hp
      exact ⟨_, run_eq_static_iff.mpr ⟨hp, rfl⟩⟩
  · obtain ⟨hp, rfl⟩ := run_eq_static_iff.mp hds
    rw [run_of_reported hp sink]
    exact ⟨hreports, fun h => hp (List.map_eq_nil_iff.mp h), rfl, hrecords⟩
  · have hp : (Reading.ofSource source).problems = [] := by
      refine Classical.byContradiction fun hp => ?_
      exact hgo _ (run_eq_static_iff.mpr ⟨hp, rfl⟩)
    obtain ⟨e, he⟩ := exists_expr_of_clean hp
    have hlate : (Reading.ofTokens (scan source).tokens).problems = [] :=
      (List.append_eq_nil_iff.mp hp).2
    refine ⟨e, he, (run_of_clean he hp sink).1, (run_of_clean he hp sink).2, ?_⟩
    rw [records_run_of_clean he hp sink, hrecords, hlate, List.map_nil, List.map_nil,
      List.append_nil]

end Lox
