import Lox.Proofs.CorrectPrefix
import Lox.Proofs.Legal
import Lox.Proofs.PostOrder
import Lox.Proofs.StaticGate

/-! Errors point into the text. A token of a scan is the end marker or a segment of the text,
on the line that its end is on; the text of a symbol is part of that line (`exists_line`).
Parsing copies operators from tokens into the tree and evaluation from the tree into its
fault, so the operator of a runtime error is a token of the scan; a syntax error names one. -/

namespace Lox
open Grammar Segment

/-! ## Places in the text -/

theorem exists_of_mem_stamp {before : List Char} {segments : List Segment} {line : Nat}
    {s : Segment} (h : (line, s) ∈ stamp (lineAfter before) segments) :
    ∃ front rest, segments = front ++ s :: rest ∧
      line = lineAfter (before ++ (front.flatMap text ++ s.text)) := by
  induction segments generalizing before with
  | nil => cases h
  | cons first segments ih =>
    rw [stamp, ← lineAfter_append] at h
    rcases List.mem_cons.mp h with heq | hrest
    · cases heq
      exact ⟨[], segments, rfl, rfl⟩
    · obtain ⟨front, rest, rfl, hline⟩ := ih hrest
      exact ⟨first :: front, rest, rfl, by simpa using hline⟩

/-- The segment stands in the text and ends on the line. -/
def Segment.Placed (s : Segment) (source : List Char) (line : Nat) : Prop :=
  ∃ before after, source = before ++ (s.text ++ after) ∧ line = lineAfter (before ++ s.text)

theorem placed_of_mem_stamp {source : String} {line : Nat} {s : Segment}
    (h : (line, s) ∈ stamp 1 (split source.toList)) : s.Placed source.toList line := by
  obtain ⟨front, rest, hsplit, hline⟩ := @exists_of_mem_stamp [] _ _ _ h
  have htext := flatMap_text_split source.toList
  rw [hsplit, List.flatMap_append, List.flatMap_cons] at htext
  exact ⟨_, _, htext.symm, hline⟩

/-- A token of a scan marks the end, or is spelled by a segment of the text. -/
theorem placed_of_mem_tokens {source : String} {t : Token} (h : t ∈ (scan source).tokens) :
    t = .eof (lineAfter source.toList) ∨ ∃ s : Segment, s.Placed source.toList t.line ∧
      Spells s t.kind t.literal ∧ t.lexeme = String.ofList s.text := by
  rw [scan_eq_after] at h
  rcases List.mem_append.mp h with hmem | hlast
  · obtain ⟨⟨line, s⟩, hstamp, htoken⟩ := List.mem_filterMap.mp hmem
    obtain ⟨kind, hkind, rfl⟩ := Option.map_eq_some_iff.mp htoken
    exact .inr ⟨s, placed_of_mem_stamp hstamp, spells_of_kind? hkind, rfl⟩
  · rw [flatMap_text_split, List.nil_append] at hlast
    exact .inl (List.mem_singleton.mp hlast)

theorem line_problem? {s : Segment} {line : Nat} {p : Problem} (h : s.problem? line = some p) :
    p.line = line := by
  cases s <;> cases h <;> rfl

theorem placed_of_mem_problems {source : String} {p : Problem} (h : p ∈ (scan source).problems) :
    ∃ s : Segment, s.Placed source.toList p.line ∧ s.problem? p.line = some p := by
  rw [scan_eq_after] at h
  obtain ⟨⟨line, s⟩, hstamp, hproblem⟩ := List.mem_filterMap.mp h
  obtain rfl : p.line = line := line_problem? hproblem
  exact ⟨s, placed_of_mem_stamp hstamp, hproblem⟩

theorem Segment.Placed.line_le {s : Segment} {source : List Char} {line : Nat}
    (h : s.Placed source line) : 1 ≤ line ∧ line ≤ lineAfter source := by
  obtain ⟨before, after, rfl, rfl⟩ := h
  simp only [lineAfter, List.count_append]
  omega

theorem line_le_of_mem_tokens {source : String} {t : Token} (h : t ∈ (scan source).tokens) :
    1 ≤ t.line ∧ t.line ≤ lineAfter source.toList := by
  rcases placed_of_mem_tokens h with rfl | ⟨s, hplaced, -, -⟩
  · exact ⟨Nat.le_add_right 1 _, Nat.le_refl _⟩
  · exact hplaced.line_le

theorem line_le_of_mem_problems {source : String} {p : Problem} (h : p ∈ (scan source).problems) :
    1 ≤ p.line ∧ p.line ≤ lineAfter source.toList := by
  obtain ⟨s, hplaced, -⟩ := placed_of_mem_problems h
  exact hplaced.line_le

theorem splitOn_append_of_not_mem {part : List Char} (h : '\n' ∉ part) (after : List Char) :
    (part ++ after).splitOn '\n' = (after.splitOn '\n').modifyHead (part ++ ·) := by
  induction part with
  | nil => exact (congrFun List.modifyHead_id _).symm
  | cons c part ih =>
    obtain ⟨hc, hpart⟩ := not_or.mp (mt List.mem_cons.mpr h)
    rw [List.cons_append, List.splitOn_cons_eq_if_modifyHead, if_neg (by simpa using Ne.symm hc),
      ih hpart, List.modifyHead_modifyHead]
    rfl

/-- A part of a text that holds no line feed is a part of one line. -/
theorem exists_line {part : List Char} (h : '\n' ∉ part) (before after : List Char) :
    ∃ line, ((before ++ (part ++ after)).splitOn '\n')[before.count '\n']? = some line ∧
      part <:+: line := by
  induction before with
  | nil =>
    obtain ⟨rest, more, hafter⟩ := List.exists_cons_of_ne_nil (List.splitOn_ne_nil '\n' after)
    refine ⟨part ++ rest, ?_, (List.prefix_append part rest).isInfix⟩
    rw [List.nil_append, splitOn_append_of_not_mem h, hafter]
    rfl
  | cons c before ih =>
    obtain ⟨line, hline, hpart⟩ := ih
    rw [List.cons_append, List.splitOn_cons_eq_if_modifyHead]
    by_cases hc : c = '\n'
    · rw [hc, List.count_cons_self]
      exact ⟨line, hline, hpart⟩
    · rw [if_neg (by simpa using hc), List.count_cons_of_ne hc, List.getElem?_modifyHead, hline]
      split
      · exact ⟨c :: line, rfl, hpart.trans (List.suffix_cons c line).isInfix⟩
      · exact ⟨line, rfl, hpart⟩

/-! ## Operators -/

/-- The operators of a tree are among the tokens that it is derived from. -/
theorem Grammar.Derives.operator_mem {n : Nonterminal} {p : List Token} {e : Expr}
    (h : Derives n p e) : ∀ m ∈ e.operations, ∀ op ∈ m.operator?, op ∈ p := by
  induction h with
  | tighter _ _ ih => exact ih
  | primary _ ih => exact ih
  | terminal _ => exact nofun
  | @binary _ _ _ p q _ op _ _ _ _ _ ihl ihr =>
    intro m hm op' hop
    simp only [Expr.operations, List.mem_append, List.mem_singleton] at hm
    rcases hm with (hm | hm) | rfl
    · exact List.mem_append_left _ (ihl m hm op' hop)
    · exact List.mem_append_right _ (List.mem_cons_of_mem op (ihr m hm op' hop))
    · obtain rfl : op = op' := Option.some.inj hop
      exact List.mem_append_right _ List.mem_cons_self
  | @signed op p _ _ _ ih =>
    intro m hm op' hop
    rcases List.mem_append.mp hm with hm | hm
    · exact List.mem_cons_of_mem op (ih m hm op' hop)
    · obtain rfl := List.mem_singleton.mp hm
      obtain rfl : op = op' := Option.some.inj hop
      exact List.mem_cons_self
  | group _ _ _ ih =>
    intro m hm op hop
    exact List.mem_append_left _ (List.mem_cons_of_mem _ (ih m hm op hop))

theorem operator_mem_of_parse {ts : List Token} {e : Expr} (h : parse ts = .ok e) :
    ∀ m ∈ e.operations, ∀ op ∈ m.operator?, op ∈ ts := by
  obtain ⟨p, rest, rfl, he⟩ := exists_derives_of_parse h
  intro m hm op hop
  exact List.mem_append_left rest (he.operator_mem m hm op hop)

/-- The kinds of operator that a rule on operands is about. -/
def TypeRule.Fits : TypeRule → TokenKind → Prop
  | operandNumber, kind => kind = .symbol .minus
  | operandsAddable, kind => kind = .symbol .plus
  | operandsNumbers, kind => kind ∈ numericOperators

theorem fits_of_applyUnary {op : Token} {v : Value} {e : RuntimeError}
    (h : applyUnary op v = .error (.runtime e)) : e.rule.Fits op.kind := by
  unfold applyUnary at h
  split at h
  · cases h
  · split at h <;> cases h
    assumption
  · cases h

theorem fits_of_onNumbers {op : Token} {v w : Value} {e : RuntimeError}
    (hop : op.kind ∈ numericOperators) (h : onNumbers op v w = .error (.runtime e)) :
    e.rule.Fits op.kind := by
  unfold onNumbers at h
  split at h
  · split at h <;> cases h
  · cases h
    exact hop

theorem fits_of_applyBinary {op : Token} {v w : Value} {e : RuntimeError}
    (h : applyBinary op v w = .error (.runtime e)) : e.rule.Fits op.kind := by
  unfold applyBinary at h
  split at h
  · unfold add at h
    split at h <;> cases h
    assumption
  · cases h
  · cases h
  iterate 7
    rename_i hk
    exact fits_of_onNumbers (by rw [hk]; decide) h
  · cases h

theorem fits_of_fails {n : Expr} {e : RuntimeError} (h : n.Fails)
    (hfault : n.value = .error (.runtime e)) : e.rule.Fits e.operator.kind := by
  rcases h.cases with ⟨op, _, v, -, -, hv⟩ | ⟨_, op, _, v, w, -, -, -, hv⟩
  · have happly := hv.symm.trans hfault
    obtain rfl : e.operator = op := operator_of_applyUnary happly
    exact fits_of_applyUnary happly
  · have happly := hv.symm.trans hfault
    obtain rfl : e.operator = op := operator_of_applyBinary happly
    exact fits_of_applyBinary happly

theorem TypeRule.Fits.exists_symbol {rule : TypeRule} {kind : TokenKind} (h : rule.Fits kind) :
    ∃ s, kind = .symbol s := by
  cases rule with
  | operandNumber | operandsAddable => exact ⟨_, h⟩
  | operandsNumbers =>
    simp only [Fits, numericOperators, List.mem_cons, List.not_mem_nil, or_false] at h
    rcases h with h | h | h | h | h | h | h <;> exact ⟨_, h⟩

theorem Symbol.lineFeed_not_mem_chars (s : Symbol) : '\n' ∉ s.chars := by
  cases s <;> decide

/-- The text of a symbol is a part of the line that its token names. -/
theorem exists_line_of_symbol {source : String} {t : Token} {symbol : Symbol}
    (h : t ∈ (scan source).tokens) (hk : t.kind = .symbol symbol) :
    ∃ line, (source.toList.splitOn '\n')[t.line - 1]? = some line ∧ t.lexeme.toList <:+: line := by
  rcases placed_of_mem_tokens h with rfl | ⟨s, ⟨before, after, hsource, hline⟩, hspells, hlexeme⟩
  · cases hk
  · generalize t.literal = literal at hspells
    rw [hk] at hspells
    obtain rfl : s = .symbol symbol := by
      cases hspells
      rfl
    have hindex : t.line - 1 = before.count '\n' := by
      rw [hline, lineAfter_append, Segment.lineFeeds, text,
        List.count_eq_zero.mpr symbol.lineFeed_not_mem_chars, Nat.add_zero, lineAfter,
        Nat.add_sub_cancel_left]
    rw [hsource, hindex, hlexeme, String.toList_ofList]
    exact exists_line symbol.lineFeed_not_mem_chars before after

/-! ## Runs -/

/-- A runtime error of a run is a fault of the tree that was read. -/
theorem exists_expr_of_runtime {source : String} {sink : Sink} {e : RuntimeError}
    (h : (run source sink).outcome = .error (.runtime e)) :
    ∃ tree, parse (scan source).tokens = .ok tree ∧ tree.value = .error (.runtime e) := by
  by_cases hp : (Reading.ofSource source).problems = []
  · obtain ⟨tree, htree⟩ := exists_expr_of_clean hp
    rw [(run_of_clean htree hp sink).1] at h
    refine ⟨tree, Reading.expr_ofTokens_iff.mp htree, ?_⟩
    rcases interpret_eq_error h with hwrite | ⟨fault, hv, hfault⟩
    · cases hwrite
    · cases fault <;> cases hfault
      exact hv
  · rw [run_of_reported hp] at h
    cases h

/-- The operation that fails copied its operator from a token of the scan. -/
theorem operator_of_runtime {source : String} {sink : Sink} {e : RuntimeError}
    (h : (run source sink).outcome = .error (.runtime e)) :
    e.operator ∈ (scan source).tokens ∧ e.rule.Fits e.operator.kind := by
  obtain ⟨tree, hparse, hvalue⟩ := exists_expr_of_runtime h
  obtain ⟨before, n, after, hsplit, -, hn, hfault⟩ := Expr.exists_fails hvalue
  have hmem : n ∈ tree.operations := hsplit ▸ List.mem_append_right before List.mem_cons_self
  exact ⟨operator_mem_of_parse hparse n hmem _ (hn.operator? hfault), fits_of_fails hn hfault⟩

/-- A syntax error is about a token of the scan. -/
theorem found_mem_of_parse {source : String} {want : Expectation} {found : Token}
    (h : parse (scan source).tokens = .error (.problem (.expected want found))) :
    found ∈ (scan source).tokens := by
  obtain ⟨front, rest, htokens, -⟩ := (parse_eq_error_iff (marked_scan source)).mp h
  rw [htokens]
  exact List.mem_append_right front List.mem_cons_self

theorem reports_ofSource (source : String) : (Reading.ofSource source).diagnostics.reports =
    ((scan source).problems ++ (Reading.ofTokens (scan source).tokens).problems).map
      (·.diagnostic) :=
  List.nil_append _

/-- The messages of syntax errors. -/
def syntaxMessages : List String :=
  ["Expect expression.", "Expect ')' after expression."]

theorem message_of_mem_problems {source : String} {p : Problem}
    (h : p ∈ (scan source).problems) : p.message ∉ syntaxMessages := by
  obtain ⟨s, -, hproblem⟩ := placed_of_mem_problems h
  generalize p.line = line at hproblem
  cases s <;> cases hproblem
  · exact (by decide : "Unterminated string." ∉ syntaxMessages)
  · exact (by decide : "Unexpected character." ∉ syntaxMessages)

theorem eq_eof_of_mem_tokens {source : String} {t : Token} (h : t ∈ (scan source).tokens)
    (hk : t.kind = .eof) : t = .eof (lineAfter source.toList) := by
  rcases placed_of_mem_tokens h with ht | ⟨s, -, hspells, -⟩
  · exact ht
  · generalize t.literal = literal at hspells
    rw [hk] at hspells
    cases hspells

/-- A syntax error of a run is about a token of the scan, the one that it names. -/
theorem exists_token_of_static {source : String} {sink : Sink} {ds : Diagnostics} {d : Diagnostic}
    (h : (run source sink).outcome = .error (.static ds)) (hlast : ds.reports.getLast? = some d)
    (hmessage : d.message ∈ syntaxMessages) :
    ∃ want, ∃ found ∈ (scan source).tokens, d = (Problem.expected want found).diagnostic := by
  obtain ⟨-, rfl⟩ := run_eq_static_iff.mp h
  rw [reports_ofSource, List.getLast?_map] at hlast
  obtain ⟨p, hp, rfl⟩ := Option.map_eq_some_iff.mp hlast
  rcases (marked_scan source).parse_cases with ⟨e, hparse⟩ | ⟨want, found, hparse⟩
  · rw [Reading.ofTokens_of_ok hparse, List.append_nil] at hp
    exact absurd hmessage (message_of_mem_problems (List.mem_of_getLast? hp))
  · rw [Reading.ofTokens_of_problem hparse, List.getLast?_concat] at hp
    exact ⟨want, found, found_mem_of_parse hparse, by rw [← Option.some.inj hp]⟩

theorem location_eq_at_end_iff {want : Expectation} {found : Token} :
    (Problem.expected want found).location = " at end" ↔ found.kind = .eof := by
  rw [location_expected]
  constructor
  · intro h
    split at h
    · assumption
    · have hchar := congrArg (fun s : String => s.toList[4]?) h
      simp at hchar
  · intro h
    rw [if_pos h]

/-- Errors point into the text. The operator of a runtime error is a token of the scan as it
stands there; its line is one of the text, and on this line its lexeme stands; and the rule
that was broken is one for that operator. A syntax error at the end of the reports names the
line and the text of a token of the scan, and the end on the last line exactly when that token
is the end marker. -/
theorem errors_point_into_text (source : String) (sink : Sink) :
    (∀ e, (run source sink).outcome = .error (.runtime e) →
      e.operator ∈ (scan source).tokens ∧
      1 ≤ e.line ∧ e.line ≤ 1 + source.toList.count '\n' ∧
      (∃ line, (source.toList.splitOn '\n')[e.line - 1]? = some line ∧
        e.operator.lexeme.toList <:+: line) ∧
      e.rule.Fits e.operator.kind) ∧
    ∀ ds d, (run source sink).outcome = .error (.static ds) → ds.reports.getLast? = some d →
      d.message ∈ syntaxMessages →
      ∃ found ∈ (scan source).tokens, d.line = found.line ∧
        d.location = (if found.kind = .eof then " at end" else " at '" ++ found.lexeme ++ "'") ∧
        (d.location = " at end" ∧ d.line = 1 + source.toList.count '\n' ↔ found.kind = .eof) := by
  constructor
  · intro e h
    obtain ⟨hmem, hfits⟩ := operator_of_runtime h
    obtain ⟨symbol, hsymbol⟩ := hfits.exists_symbol
    obtain ⟨hpos, hle⟩ := line_le_of_mem_tokens hmem
    exact ⟨hmem, hpos, hle, exists_line_of_symbol hmem hsymbol, hfits⟩
  · intro ds d h hlast hmessage
    obtain ⟨want, found, hmem, rfl⟩ := exists_token_of_static h hlast hmessage
    refine ⟨found, hmem, rfl, location_expected want found, fun hend => ?_, fun hk => ?_⟩
    · exact (@location_eq_at_end_iff want found).mp hend.1
    · refine ⟨(@location_eq_at_end_iff want found).mpr hk, ?_⟩
      exact congrArg Token.line (eq_eof_of_mem_tokens hmem hk)

/-- Both line feeds, the one in a string too, are above the line of the operator. -/
theorem errors_point_into_text_less :
    ∃ e, (run "\n\"a\nb\" < nil" (.empty none)).outcome = .error (.runtime e) ∧ e.line = 3 ∧
      e.operator ∈ (scan "\n\"a\nb\" < nil").tokens ∧
      ∃ line, ("\n\"a\nb\" < nil".toList.splitOn '\n')[2]? = some line ∧ ['<'] <:+: line := by
  have hexpr : (Reading.ofSource "\n\"a\nb\" < nil").expr =
      some (.binary (.literal (.string "a\nb")) ⟨.symbol .less, "<", none, 3⟩
        (.literal .nil)) := by decide +kernel
  have hclean : (Reading.ofSource "\n\"a\nb\" < nil").problems = [] := by decide +kernel
  have houtcome := (run_of_clean hexpr hclean (.empty none)).1
  obtain ⟨hmem, -, -, hline, -⟩ :=
    (errors_point_into_text "\n\"a\nb\" < nil" (.empty none)).1 _ houtcome
  exact ⟨_, houtcome, rfl, hmem, hline⟩

end Lox
