import Lox.Proofs.LineBreak
import Lox.Proofs.Relocation
import Lox.Proofs.StaticGate

/-! The leading expression of a text. A parser that has found its expression looks at one token
more and at none behind that, so a parsed list can go on with any tokens in the place of its
end marker, provided that the first is no binary operator (`parse_append`). Hence a text that is
read without a report can have anything else on the lines below it: the tree stays the same,
and only lexical problems below keep it from being run. -/

namespace Lox
open Grammar Nonterminal Segment

/-! ## Parsing more tokens -/

theorem Cut.append {ts body tail front : List Token} {stop : Token} (c : Cut ts body stop tail)
    (hclear : ∀ t ∈ front, t.isEof = false) : Cut (front ++ ts) (front ++ body) stop tail :=
  ⟨by rw [c.eq, List.append_assoc], List.forall_mem_append.mpr ⟨hclear, c.clear⟩, c.marker⟩

theorem Marked.append {ts : List Token} (hm : Marked ts) (front : List Token) :
    Marked (front ++ ts) := by
  obtain ⟨before, stop, rfl, hs⟩ := hm
  exact ⟨front ++ before, stop, (List.append_assoc ..).symm, hs⟩

theorem Cut.head? {ts body tail : List Token} {stop : Token} (c : Cut ts body stop tail) :
    ts.head? = some (body.headD stop) := by
  rw [c.eq]
  cases body <;> rfl

/-- What is parsed is parsed to the same tree when other tokens stand in the place of the end
marker, unless the first of them goes on with the expression. -/
theorem parse_append {front more : List Token} {stop : Token} {e : Expr}
    (hclear : ∀ t ∈ front, t.isEof = false) (hstop : stop.kind = .eof)
    (hp : parse (front ++ [stop]) = .ok e) (hm : Marked more)
    (hnext : ∀ t ∈ more.head?, t.kind ∉ binaryOperators) : parse (front ++ more) = .ok e := by
  have c : Cut (front ++ [stop]) front stop [] := ⟨rfl, hclear, by simp [Token.isEof, hstop]⟩
  obtain ⟨body, last, tail, c'⟩ := hm.cut
  obtain ⟨rest, ho⟩ := (c.parse_eq_ok_iff ⟨front, stop, rfl, hstop⟩).mp hp
  obtain ⟨⟨p, rfl, hd⟩, hstops⟩ := outcome_eq_ok_iff.mp ho
  refine ((c'.append hclear).parse_eq_ok_iff (hm.append _)).mpr ⟨rest ++ body, ?_⟩
  refine outcome_eq_ok_iff.mpr ⟨⟨p, List.append_assoc .., hd⟩, ?_⟩
  cases rest with
  | cons t rest => exact hstops
  | nil => exact (stops_expression_iff c'.marker).mpr (hnext _ c'.head?)

/-! ## Reading more lines -/

theorem Segment.isEof_of_mem_tokensIn {segments : List Segment} (before : List Char) :
    ∀ t ∈ tokensIn before segments, t.isEof = false := by
  induction segments generalizing before with
  | nil => exact nofun
  | cons s rest ih =>
    refine List.forall_mem_append.mpr ⟨fun t ht => ?_, ih _⟩
    obtain ⟨kind, hkind, rfl⟩ := Option.map_eq_some_iff.mp (Option.mem_toList.mp ht)
    cases spells_of_kind? hkind <;> rfl

/-- Below a text that is read without a report, nothing is read but for its lexical problems. -/
theorem reading_leading {s t : String} {e : Expr} (he : (Reading.ofSource s).expr = some e)
    (hs : (Reading.ofSource s).problems = [])
    (ht : ∀ next ∈ (scan t).tokens.head?, next.kind ∉ binaryOperators) :
    (Reading.ofSource (s ++ "\n" ++ t)).expr = some e ∧
      (Reading.ofSource (s ++ "\n" ++ t)).problems =
        (scan t).problems.map (Problem.shift (linesAbove s)) := by
  have hquiet : (scan s).problems = [] := (List.append_eq_nil_iff.mp hs).1
  have hclosed : ∀ line, .unterminatedString line ∉ (scan s).problems := by simp [hquiet]
  obtain ⟨htokens, hproblems⟩ := scan_lineFeed hclosed t
  have hfirst : parse (scan s).tokens = .ok e := Reading.expr_ofTokens_iff.mp he
  rw [tokens_scan] at hfirst
  have hnext : ∀ next ∈ ((scan t).tokens.map (Token.shift (linesAbove s))).head?,
      next.kind ∉ binaryOperators := by
    intro next hn
    rw [List.head?_map] at hn
    obtain ⟨u, hu, rfl⟩ := Option.map_eq_some_iff.mp hn
    exact ht u hu
  have hparse : parse (scan (s ++ "\n" ++ t)).tokens = .ok e := by
    rw [htokens]
    exact parse_append (isEof_of_mem_tokensIn []) rfl hfirst
      ((marked_scan t).move (relocates_shift _)) hnext
  refine ⟨Reading.expr_ofTokens_iff.mpr hparse, ?_⟩
  rw [Reading.problems_ofSource, Reading.ofTokens_of_ok hparse, hproblems, hquiet]
  exact List.append_nil _

/-- Only the leading expression counts. A text that is read without a report is read to the same
tree, to the lines of its operators, when a line feed and another text follow, be it as broken
as it may, unless that begins with a binary operator. The run is then that of the first text
alone; but if the text below has lexical problems, the run stops with these, on their lines
below the first text, and prints nothing. -/
theorem run_leading_expression (s t : String) (hs : (Reading.ofSource s).problems = [])
    (ht : ∀ next ∈ (scan t).tokens.head?, next.kind ∉ binaryOperators) (sink : Sink) :
    (∃ e, (Reading.ofSource s).expr = some e ∧
      (Reading.ofSource (s ++ "\n" ++ t)).expr = some e) ∧
    ((scan t).problems = [] →
      (run (s ++ "\n" ++ t) sink).outcome = (run s sink).outcome ∧
        (run (s ++ "\n" ++ t) sink).sink = (run s sink).sink) ∧
    ((scan t).problems ≠ [] →
      (run (s ++ "\n" ++ t) sink).outcome =
          .error (.static ⟨((scan t).problems.map (·.diagnostic)).map
            (Diagnostic.shift (linesAbove s))⟩) ∧
        (run (s ++ "\n" ++ t) sink).sink = sink) := by
  obtain ⟨e, he⟩ := exists_expr_of_clean hs
  obtain ⟨hexpr, hproblems⟩ := reading_leading he hs ht
  refine ⟨⟨e, he, hexpr⟩, fun hclean => ?_, fun hlexical => ?_⟩
  · rw [hclean, List.map_nil] at hproblems
    obtain ⟨houtcome, hsink⟩ := run_of_clean hexpr hproblems sink
    obtain ⟨houtcome', hsink'⟩ := run_of_clean he hs sink
    exact ⟨houtcome.trans houtcome'.symm, hsink.trans hsink'.symm⟩
  · have hreported : (Reading.ofSource (s ++ "\n" ++ t)).problems ≠ [] := by
      rwa [hproblems, ne_eq, List.map_eq_nil_iff]
    rw [run_of_reported hreported sink, Reading.diagnostics, hproblems, Diagnostics.reportAll,
      Problem.map_diagnostic_shift]
    exact ⟨rfl, rfl⟩

/-- The parenthesis left over on the second line is no report, nor are those on the third; but
that line has a character of no token and an open string. -/
theorem run_leading_expression_open :
    (Reading.ofSource "nil !=\n\"a\" )").problems = [] ∧
    (∀ next ∈ (scan ")( # \"open").tokens.head?, next.kind ∉ binaryOperators) ∧
    (run "nil !=\n\"a\" )\n)( # \"open" (.empty none)).outcome =
      .error (.static ⟨[(Problem.unexpectedCharacter 3 '#').diagnostic,
        (Problem.unterminatedString 3).diagnostic]⟩) ∧
    (run "nil !=\n\"a\" )\n)( # \"open" (.empty none)).sink = .empty none := by
  have hs : (Reading.ofSource "nil !=\n\"a\" )").problems = [] := by decide +kernel
  have htokens : (scan ")( # \"open").tokens.head? =
      some ⟨.symbol .rightParen, ")", none, 1⟩ := by decide +kernel
  have hproblems : (scan ")( # \"open").problems =
      [.unexpectedCharacter 1 '#', .unterminatedString 1] := by decide +kernel
  have ht : ∀ next ∈ (scan ")( # \"open").tokens.head?, next.kind ∉ binaryOperators := by
    rw [htokens]
    rintro next ⟨⟩
    decide
  obtain ⟨-, -, hlexical⟩ := run_leading_expression _ ")( # \"open" hs ht (.empty none)
  obtain ⟨houtcome, hsink⟩ := hlexical (by rw [hproblems]; exact List.cons_ne_nil _ _)
  rw [hproblems] at houtcome
  exact ⟨hs, ht, houtcome, hsink⟩

end Lox
