import Lox.CommandLine
import Lox.Proofs.Accepted
import Lox.Proofs.Session
import Mathlib.Logic.Relation

/-! Operators at their places. The reader puts an operator only where the grammar has it, so
a parsed tree is `Legal`; these are the operators that evaluation knows at each place
(`applyUnary_ne_defect`, `applyBinary_ne_defect`), so a legal tree has a value or
ends in a runtime error. No source text makes the program crash on an operator. -/

namespace Lox
open Grammar

namespace Expr

/-- Each operator of the tree is one that the grammar has at its place. -/
inductive Legal : Expr → Prop
  | literal {v} : Legal (.literal v)
  | group {e} : Legal e → Legal (.group e)
  | unary {op e} : op.kind ∈ [.symbol .bang, .symbol .minus] → Legal e → Legal (.unary op e)
  | binary {l op r} : Legal l → op.kind ∈ binaryOperators → Legal r → Legal (.binary l op r)

end Expr

/-! ## The trees of the reader -/

theorem Grammar.Tier.mem_binaryOperators {n m : Nonterminal} {operators : List Symbol}
    {kind : TokenKind} (h : Tier n operators m) (hk : kind ∈ operators.map .symbol) :
    kind ∈ binaryOperators := by
  revert kind
  cases h <;> decide

theorem Grammar.Derives.legal {n : Nonterminal} {p : List Token} {e : Expr} (h : Derives n p e) :
    e.Legal := by
  induction h with
  | tighter _ _ ih => exact ih
  | primary _ ih => exact ih
  | binary ht _ hop _ ihl ihr => exact .binary ihl (ht.mem_binaryOperators hop) ihr
  | signed hop _ ih => exact .unary hop ih
  | terminal _ => exact .literal
  | group _ _ _ ih => exact .group ih

theorem legal_of_parse {ts : List Token} {e : Expr} (h : parse ts = .ok e) : e.Legal := by
  obtain ⟨p, rest, -, he⟩ := exists_derives_of_parse h
  exact he.legal

/-! ## The operators of the evaluator -/

theorem applyUnary_ne_defect {op : Token} (h : op.kind ∈ [.symbol .bang, .symbol .minus])
    (v : Value) (d : Defect) : applyUnary op v ≠ .error (.defect d) := by
  unfold applyUnary
  rcases (by simpa using h : op.kind = .symbol .bang ∨ op.kind = .symbol .minus) with hk | hk
  · rw [hk]
    exact nofun
  · rw [hk]
    cases v.number? <;> exact nofun

theorem add_ne_defect (op : Token) (v w : Value) (d : Defect) :
    add op v w ≠ .error (.defect d) := by
  unfold add
  split <;> exact nofun

/-- The operators that want numbers on both sides. -/
def numericOperators : List TokenKind :=
  [.symbol .greater, .symbol .greaterEqual, .symbol .less, .symbol .lessEqual, .symbol .minus,
    .symbol .slash, .symbol .star]

/-- Once there are numbers, each of the numeric operators gives a value. -/
theorem onNumbers_ne_defect {op : Token} (h : op.kind ∈ numericOperators) (v w : Value)
    (d : Defect) : onNumbers op v w ≠ .error (.defect d) := by
  unfold onNumbers
  split
  · simp only [numericOperators, List.mem_cons, List.not_mem_nil, or_false] at h
    rcases h with hk | hk | hk | hk | hk | hk | hk <;> rw [hk] <;> exact nofun
  · exact nofun

theorem applyBinary_of_numeric {op : Token} (h : op.kind ∈ numericOperators) (v w : Value) :
    applyBinary op v w = onNumbers op v w := by
  unfold applyBinary
  simp only [numericOperators, List.mem_cons, List.not_mem_nil, or_false] at h
  rcases h with hk | hk | hk | hk | hk | hk | hk <;> rw [hk]

/-- The binary operators that are not numeric. -/
theorem numeric_or_of_binary {kind : TokenKind} (h : kind ∈ binaryOperators) :
    kind ∈ numericOperators ∨ kind = .symbol .plus ∨ kind = .symbol .equalEqual ∨
      kind = .symbol .bangEqual := by
  revert kind
  decide

theorem applyBinary_ne_defect {op : Token} (h : op.kind ∈ binaryOperators) (v w : Value)
    (d : Defect) : applyBinary op v w ≠ .error (.defect d) := by
  rcases numeric_or_of_binary h with hn | hk | hk | hk
  · rw [applyBinary_of_numeric hn]
    exact onNumbers_ne_defect hn v w d
  · unfold applyBinary
    rw [hk]
    exact add_ne_defect op v w d
  · unfold applyBinary
    rw [hk]
    exact nofun
  · unfold applyBinary
    rw [hk]
    exact nofun

/-! ## Evaluation -/

theorem Evaluation.bind_eq_error {m : Evaluation} {f : Value → Evaluation} {fault : Fault}
    (h : (m.bind f).result = .error fault) :
    m.result = .error fault ∨ ∃ v, (f v).result = .error fault := by
  unfold Evaluation.bind at h
  split at h
  · rename_i hm
    exact .inl (hm.trans h)
  · rename_i v hm
    exact .inr ⟨v, h⟩

theorem Expr.Legal.ne_defect {e : Expr} (h : e.Legal) (d : Defect) :
    e.value ≠ .error (.defect d) := by
  induction h with
  | literal => exact nofun
  | group _ ih => exact ih
  | unary hop _ ih =>
    intro hd
    rcases Evaluation.bind_eq_error hd with he | ⟨v, hv⟩
    · exact ih he
    · exact applyUnary_ne_defect hop v d hv
  | binary _ hop _ ihl ihr =>
    intro hd
    rcases Evaluation.bind_eq_error hd with he | ⟨v, hd⟩
    · exact ihl he
    · rcases Evaluation.bind_eq_error hd with he | ⟨w, hw⟩
      · exact ihr he
      · exact applyBinary_ne_defect hop v w d hw

/-! ## Programs -/

theorem interpret_ne_defect {e : Expr} (h : e.Legal) (sink : Sink) (d : Defect) :
    (interpret e sink).outcome ≠ .error (.defect d) := by
  intro hd
  rcases interpret_eq_error hd with hwrite | ⟨fault, hv, hfault⟩
  · cases hwrite
  · cases fault with
    | runtime error => cases hfault
    | defect d' => exact h.ne_defect d' hv

theorem run_ne_defect (source : String) (sink : Sink) (d : Defect) :
    (run source sink).outcome ≠ .error (.defect d) := by
  unfold run
  dsimp only
  split
  · rename_i e he _
    exact interpret_ne_defect (legal_of_parse (Reading.expr_ofTokens_iff.mp he)) sink d
  · exact nofun

namespace CommandLine

variable {σ : Type}

theorem Console.run_ne_defect (c : Console) (source : String) (d : Defect) :
    (c.run source).1 ≠ some (.defect d) := by
  unfold Console.run
  dsimp only
  split
  · exact nofun
  · rename_i failure hfailure
    rintro hd
    obtain rfl : failure = .defect d := Option.some.inj hd
    exact Lox.run_ne_defect source _ d hfailure

theorem code_execute_ne_crashCode (source : String) :
    (execute source).code ≠ Failure.crashCode := by
  unfold execute
  split
  · exact nofun
  · rename_i failure console hrun
    cases failure with
    | static ds | runtime e | write => exact nofun
    | defect d => exact absurd (congrArg Prod.fst hrun) (Console.run_ne_defect _ source d)

/-- By a line, which it also keeps, a reader comes from one state to the next. -/
def Takes (reader : LineReader σ) (s s' : σ) : Prop :=
  ∃ line after, reader.readLine prompt s = (.line line, after) ∧
    reader.addHistory line after = .ok s'

def Crashes (reader : LineReader σ) (s : σ) : Prop :=
  ∃ message after, reader.readLine prompt s = (.crashed message, after)

/-- A line is run on the console as the rounds before have left it. -/
theorem round_of_line {reader : LineReader σ} {s after kept : σ} {line : String}
    (hline : reader.readLine prompt s = (.line line, after))
    (hkept : reader.addHistory line after = .ok kept) (console : Console) :
    round reader s console = .ok (kept, (console.run (lineSource line)).2) := by
  simp only [round, hline, hkept]
  split
  · rename_i d _ hrun
    exact absurd (congrArg Prod.fst hrun) (Console.run_ne_defect _ _ d)
  · rename_i hrun
    rw [hrun]

theorem takes_of_round {reader : LineReader σ} {s : σ} {console : Console} {next : σ × Console}
    (h : round reader s console = .ok next) : Takes reader s next.1 := by
  unfold round at h
  split at h
  · rename_i line after hline
    split at h
    · cases h
    · rename_i kept hkept
      split at h <;> cases h
      exact ⟨line, after, hline, hkept⟩
  all_goals cases h

/-- A round ends the program with the code of a crash only where the reader crashes. -/
theorem code_round_iff {reader : LineReader σ} {s : σ} {console : Console} {report : Report}
    (h : round reader s console = .error report) :
    report.code = Failure.crashCode ↔ Crashes reader s := by
  rcases hread : reader.readLine prompt s with ⟨line | _ | _ | message | message, after⟩
  · cases hkept : reader.addHistory line after with
    | error message =>
      simp only [round, hread, hkept] at h
      cases h
      simp [Crashes, hread, Console.abort, Console.exit, Failure.crashCode]
    | ok kept => cases (round_of_line hread hkept console).symm.trans h
  all_goals
    simp only [round, hread] at h
    cases h
    simp [Crashes, hread, Console.abort, Console.exit, Failure.crashCode]

theorem not_crashes_of_takes {reader : LineReader σ} {s s' : σ} (h : Takes reader s s') :
    ¬ Crashes reader s := by
  rintro ⟨message, after, hcrash⟩
  obtain ⟨line, mid, hline, -⟩ := h
  cases hcrash.symm.trans hline

theorem Takes.unique {reader : LineReader σ} {s t u : σ} (ht : Takes reader s t)
    (hu : Takes reader s u) : t = u := by
  obtain ⟨line, after, hline, hkept⟩ := ht
  obtain ⟨line', after', hline', hkept'⟩ := hu
  cases hline.symm.trans hline'
  exact Except.ok.inj (hkept.symm.trans hkept')

/-- A conversation crashes where its reader comes to a state in which that crashes, and nowhere
else. -/
theorem code_converse_iff {reader : LineReader σ} {s : σ} {console : Console} :
    (converse reader s console).code = Failure.crashCode ↔
      ∃ t, Relation.ReflTransGen (Takes reader) s t ∧ Crashes reader t := by
  fun_induction converse reader s console with
  | case1 s console report hround =>
    rw [code_round_iff hround]
    refine ⟨fun h => ⟨s, .refl, h⟩, fun ⟨t, hreach, hcrash⟩ => ?_⟩
    rcases hreach.cases_head with rfl | ⟨u, ⟨line, after, hline, hkept⟩, -⟩
    · exact hcrash
    · cases (round_of_line hline hkept console).symm.trans hround
  | case2 s console next hround ih =>
    have htakes := takes_of_round hround
    rw [ih]
    refine ⟨fun ⟨t, hreach, hcrash⟩ => ⟨t, hreach.head htakes, hcrash⟩, fun ⟨t, hreach, hcrash⟩ => ?_⟩
    rcases hreach.cases_head with rfl | ⟨u, hu, hreach⟩
    · exact absurd hcrash (not_crashes_of_takes htakes)
    · exact ⟨t, htakes.unique hu ▸ hreach, hcrash⟩

theorem code_interactiveWith_iff {reader : LineReader σ} {input : List UInt8} :
    (interactiveWith reader input).code = Failure.crashCode ↔ ∃ s t, reader.start input = .ok s ∧
      Relation.ReflTransGen (Takes reader) s t ∧ Crashes reader t := by
  cases hstart : reader.start input with
  | error message => simp [interactiveWith, hstart, Console.abort, Console.exit, Failure.crashCode]
  | ok s => simp [interactiveWith, hstart, code_converse_iff]

end CommandLine

/-- No parsed tree holds an operator at an impossible place. Whatever the tokens, a tree that
is parsed of them has a value or ends in a runtime error, by none of the unreachable ends of
the evaluator. So no source text makes a run end in a defect; a script never crashes, and
neither does a conversation, whatever its lines are and whoever reads them, unless the reader
itself crashes on the way. -/
theorem parsed_never_defect :
    (∀ ts e, parse ts = .ok e → (∀ d, e.value ≠ .error (.defect d)) ∧
      ((∃ v, e.value = .ok v) ∨ ∃ error, e.value = .error (.runtime error))) ∧
    (∀ source sink d, (run source sink).outcome ≠ .error (.defect d)) ∧
    (∀ file, (CommandLine.script file).code ≠ Failure.crashCode) ∧
    ∀ (σ : Type) (reader : LineReader σ) (input : List UInt8),
      (CommandLine.interactiveWith reader input).code = Failure.crashCode ↔
        ∃ s t, reader.start input = .ok s ∧
          Relation.ReflTransGen (CommandLine.Takes reader) s t ∧ CommandLine.Crashes reader t := by
  refine ⟨fun ts e h => ?_, run_ne_defect, fun file => ?_, fun _ _ _ =>
    CommandLine.code_interactiveWith_iff⟩
  · have hlegal := legal_of_parse h
    refine ⟨hlegal.ne_defect, ?_⟩
    cases hv : e.value with
    | ok v => exact .inl ⟨v, rfl⟩
    | error fault => cases fault with
      | runtime error => exact .inr ⟨error, rfl⟩
      | defect d => exact absurd hv (hlegal.ne_defect d)
  · unfold CommandLine.script
    split
    · exact nofun
    · split
      · exact nofun
      · exact CommandLine.code_execute_ne_crashCode _

end Lox
