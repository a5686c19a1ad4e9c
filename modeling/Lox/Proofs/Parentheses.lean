import Lox.Proofs.Legal
import Lox.Proofs.PostOrder
import Lox.Proofs.Relocation
import Lox.Proofs.RoundTrip
import Lox.Proofs.StaticGate

/-! Trees of any shape in full parentheses. An operand in parentheses stands wherever the
grammar asks for an operand, so a text with all operands in parentheses is read back, to the
tree that was written but for its groups (`FullyWritten.exists_shaped`). Groups and lines are
nothing to evaluation, and neither changes the order of the operations, so a run of the text
does what the tree does by itself. -/

namespace Lox
open Grammar

namespace Expr

/-- The trees that can be written: the operators are of the grammar's kinds and have the text
of their kind, and the literals are those of some text. -/
inductive Writable : Expr → Prop
  | literal {v piece} : v.Written piece → Writable (.literal v)
  | group {e} : Writable e → Writable (.group e)
  | unary {op e} : op.kind ∈ [.symbol .bang, .symbol .minus] →
      op.kind.fixedText = some op.lexeme → Writable e → Writable (.unary op e)
  | binary {left op right} : op.kind ∈ binaryOperators → op.kind.fixedText = some op.lexeme →
      Writable left → Writable right → Writable (.binary left op right)

/-- A text that a tree has by itself, or one that it has as an operand. -/
inductive Standing where
  | alone
  | operand

/-- The texts of a tree with full parentheses: each operand of an operator, and that of a group,
stands in one pair of parentheses or more. Those of a group are the ones around its operand. -/
inductive FullyWritten : Expr → Standing → List (List Char) → Prop
  | literal {v piece} : v.Written piece → FullyWritten (.literal v) .alone [piece]
  | group {e standing pieces} : FullyWritten e .operand pieces →
      FullyWritten (.group e) standing pieces
  | unary {op e pieces} : FullyWritten e .operand pieces →
      FullyWritten (.unary op e) .alone (op.lexeme.toList :: pieces)
  | binary {left op right pieces others} : FullyWritten left .operand pieces →
      FullyWritten right .operand others →
      FullyWritten (.binary left op right) .alone (pieces ++ op.lexeme.toList :: others)
  | parens {e standing pieces} : FullyWritten e standing pieces →
      FullyWritten e .operand (['('] :: (pieces ++ [[')']]))

/-- The tree without its groups. -/
def bare : Expr → Expr
  | literal v => literal v
  | group e => e.bare
  | unary op e => unary op e.bare
  | binary l op r => binary l.bare op r.bare

/-! ## Reading -/

theorem Writable.exists_fullyWritten {e : Expr} (h : e.Writable) :
    ∃ pieces, e.FullyWritten .alone pieces := by
  induction h with
  | literal hv => exact ⟨_, .literal hv⟩
  | group _ ih =>
    obtain ⟨_, hp⟩ := ih
    exact ⟨_, .group hp.parens⟩
  | unary _ _ _ ih =>
    obtain ⟨_, hp⟩ := ih
    exact ⟨_, .unary hp.parens⟩
  | binary _ _ _ _ ihl ihr =>
    obtain ⟨_, hp⟩ := ihl
    obtain ⟨_, hq⟩ := ihr
    exact ⟨_, .binary hp.parens hq.parens⟩

theorem exists_level_of_binary {kind : TokenKind} (h : kind ∈ binaryOperators) :
    ∃ l : Level, kind ∈ l.symbols.map .symbol := by
  have hlevels : binaryOperators = Level.equality.symbols.map .symbol ++
      (Level.comparison.symbols.map .symbol ++ (Level.term.symbols.map .symbol ++
        Level.factor.symbols.map .symbol)) := rfl
  simp only [hlevels, List.mem_append] at h
  rcases h with h | h | h | h <;> exact ⟨_, h⟩

theorem not_root_group {e : Expr} (l : Level) : ¬ (group e).Root (.level l) := by
  intro h
  cases h

/-- A text in full parentheses is one of a tree that the grammar derives and that differs from
the one written in its groups only; an operand is a group there. -/
theorem FullyWritten.exists_shaped {e : Expr} {standing : Standing} {pieces : List (List Char)}
    (h : e.FullyWritten standing pieces) (hw : e.Writable) :
    ∃ e' : Expr, e'.Shaped ∧ e'.Written pieces ∧ e'.bare = e.bare ∧
      (standing = .operand → ∃ inner, e' = .group inner) := by
  induction h with
  | literal hv => exact ⟨_, .literal hv, .literal hv, rfl, nofun⟩
  | group _ ih =>
    cases hw with
    | group hw =>
      obtain ⟨e', hs, hp, hbare, hgroup⟩ := ih hw
      exact ⟨e', hs, hp, hbare, fun _ => hgroup rfl⟩
  | unary _ ih =>
    cases hw with
    | unary hop hf hw =>
      obtain ⟨e', hs, hp, hbare, hgroup⟩ := ih hw
      obtain ⟨inner, rfl⟩ := hgroup rfl
      exact ⟨_, .unary hop hf not_root_group hs, .unary hp, congrArg (Expr.unary _) hbare, nofun⟩
  | @binary _ op _ _ _ _ _ ihl ihr =>
    cases hw with
    | binary hop hf hl hr =>
      obtain ⟨_, hsl, hpl, hbl, hgl⟩ := ihl hl
      obtain ⟨_, hsr, hpr, hbr, hgr⟩ := ihr hr
      obtain ⟨left, rfl⟩ := hgl rfl
      obtain ⟨right, rfl⟩ := hgr rfl
      obtain ⟨l, hl⟩ := exists_level_of_binary hop
      refine ⟨_, .binary (tier_level l) hl hf (fun k h => absurd h (not_root_group k))
        (fun k h => absurd h (not_root_group k)) hsl hsr, .binary hpl hpr, ?_, nofun⟩
      show Expr.binary (Expr.group left).bare op (Expr.group right).bare = _
      rw [hbl, hbr]
      rfl
  | parens _ ih =>
    obtain ⟨e', hs, hp, hbare, -⟩ := ih hw
    exact ⟨.group e', .group hs, .group hp, hbare, fun _ => ⟨e', rfl⟩⟩

/-! ## Groups and lines in evaluation -/

theorem evaluate_bare (e : Expr) : e.bare.evaluate = e.evaluate := by
  induction e with
  | literal v => rfl
  | group e ih => exact ih
  | unary op e ih => rw [bare, evaluate, evaluate, ih]
  | binary l op r ihl ihr => rw [bare, evaluate, evaluate, ihl, ihr]

theorem operations_bare (e : Expr) : e.bare.operations = e.operations.map bare := by
  induction e with
  | literal v => rfl
  | group e ih => exact ih
  | unary op e ih =>
    rw [bare, operations, operations, ih, List.map_append]
    rfl
  | binary l op r ihl ihr =>
    rw [bare, operations, operations, ihl, ihr, List.map_append, List.map_append]
    rfl

theorem operations_mapOperators (f : Token → Token) (e : Expr) :
    (e.mapOperators f).operations = e.operations.map (mapOperators f) := by
  induction e with
  | literal v => rfl
  | group e ih => exact ih
  | unary op e ih =>
    rw [mapOperators, operations, operations, ih, List.map_append]
    rfl
  | binary l op r ihl ihr =>
    rw [mapOperators, operations, operations, ihl, ihr, List.map_append, List.map_append]
    rfl

theorem bare_mapOperators (f : Token → Token) (e : Expr) :
    (e.mapOperators f).bare = e.bare.mapOperators f := by
  induction e with
  | literal v => rfl
  | group e ih => exact ih
  | unary op e ih => rw [mapOperators, bare, bare, mapOperators, ih]
  | binary l op r ihl ihr => rw [mapOperators, bare, bare, mapOperators, ihl, ihr]

/-- What evaluation sees of a tree: neither its groups nor what a change of its operators that
keeps their spelling does to them. -/
theorem value_bare_mapOperators {f : Token → Token} (h : Respells f) (e : Expr) :
    (e.bare.mapOperators f).value = e.value.mapError (Fault.mapOperator f) := by
  rw [value_move h, value, evaluate_bare]
  rfl

def hasValue (e : Expr) : Bool :=
  e.value.isOk

theorem hasValue_iff {e : Expr} : e.hasValue = true ↔ ∃ v, e.value = .ok v := by
  unfold hasValue
  cases e.value with
  | ok v => exact iff_of_true rfl ⟨v, rfl⟩
  | error fault => exact iff_of_false nofun nofun

theorem hasValue_bare_mapOperators {f : Token → Token} (h : Respells f) (e : Expr) :
    (e.bare.mapOperators f).hasValue = e.hasValue := by
  rw [hasValue, hasValue, value_bare_mapOperators h]
  cases e.value <;> rfl

/-- The operation with this number in post-order is the first that fails, and it is one of the
operator. -/
def FailsAt (e : Expr) (k : Nat) (op : Token) : Prop :=
  ∃ before n after, e.operations = before ++ n :: after ∧ before.length = k ∧
    (∀ m ∈ before, ∃ v, m.value = .ok v) ∧ n.Fails ∧ n.operator? = some op

theorem FailsAt.eq_length {e : Expr} {k : Nat} {op : Token} (h : e.FailsAt k op) :
    k = (e.operations.takeWhile hasValue).length := by
  obtain ⟨before, n, after, hsplit, rfl, hbefore, hn, -⟩ := h
  have hstop : ¬ n.hasValue = true := fun hv => by
    obtain ⟨v, hv⟩ := hasValue_iff.mp hv
    exact not_fails_of_value hv hn
  rw [hsplit, List.takeWhile_append_of_pos fun m hm => hasValue_iff.mpr (hbefore m hm),
    List.takeWhile_cons_of_neg hstop, List.append_nil]

theorem exists_failsAt {e : Expr} {fault : Fault} (h : e.value = .error fault) :
    ∃ k, e.FailsAt k fault.operator := by
  obtain ⟨before, n, after, hsplit, hbefore, hn, hfault⟩ := exists_fails h
  exact ⟨_, before, n, after, hsplit, rfl, hbefore, hn, hn.operator? hfault⟩

/-- Trees that differ in groups and in what no spelling shows of an operator pass as many
operations. -/
theorem length_passed_eq {f g : Token → Token} (hf : Respells f) (hg : Respells g) {e e' : Expr}
    (h : e'.bare.mapOperators f = e.bare.mapOperators g) :
    (e'.operations.takeWhile hasValue).length = (e.operations.takeWhile hasValue).length := by
  have hpassed : ∀ {f : Token → Token}, Respells f → ∀ e : Expr,
      (e.operations.takeWhile hasValue).length =
        ((e.bare.mapOperators f).operations.takeWhile hasValue).length := by
    intro f hf e
    have hsame : hasValue ∘ mapOperators f ∘ bare = hasValue :=
      funext (hasValue_bare_mapOperators hf)
    rw [operations_mapOperators, operations_bare, List.map_map, List.takeWhile_map, hsame,
      List.length_map]
  rw [hpassed hf e', hpassed hg e, h]

end Expr

/-! ## Runs -/

/-- The same outcome of two trees, but for what an operator shows of its place and for its
literal: the second names the operator of the same operation. -/
inductive Agrees (e e' : Expr) : Except Failure Value → Except Failure Value → Prop
  | value (v : Value) : Agrees e e' (.ok v) (.ok v)
  | write : Agrees e e' (.error .write) (.error .write)
  | runtime {error error' k} : error'.rule = error.rule →
      error'.operator.unplaced = error.operator.plain.unplaced → e.FailsAt k error.operator →
      e'.FailsAt k error'.operator →
      Agrees e e' (.error (.runtime error)) (.error (.runtime error'))

theorem Expr.Writable.legal {e : Expr} (h : e.Writable) : e.Legal := by
  induction h with
  | literal _ => exact .literal
  | group _ ih => exact .group ih
  | unary hop _ _ ih => exact .unary hop ih
  | binary hop _ _ _ ihl ihr => exact .binary ihl hop ihr

theorem respells_unplaced : Respells Token.unplaced :=
  ⟨fun _ => rfl, fun _ => rfl⟩

theorem respells_plain_unplaced : Respells fun op => op.plain.unplaced :=
  ⟨fun _ => rfl, fun _ => rfl⟩

theorem eq_ok_of_mapError {α β γ : Type} {f : α → β} {x : Except α γ} {v : γ}
    (h : x.mapError f = .ok v) : x = .ok v := by
  cases x with
  | ok w => exact congrArg Except.ok (Except.ok.inj h)
  | error a => cases h

theorem exists_of_mapError {α β γ : Type} {f : α → β} {x : Except α γ} {b : β}
    (h : x.mapError f = .error b) : ∃ a, x = .error a ∧ f a = b := by
  cases x with
  | ok w => cases h
  | error a => exact ⟨a, rfl, Except.error.inj h⟩

theorem interpret_agrees {e e' : Expr} (hlegal : e.Legal)
    (h : e'.bare.mapOperators Token.unplaced = e.bare.mapOperators fun op => op.plain.unplaced)
    (sink : Sink) :
    Agrees e e' (interpret e sink).outcome (interpret e' sink).outcome ∧
      (interpret e' sink).sink = (interpret e sink).sink := by
  have hvalue : e'.value.mapError (Fault.mapOperator Token.unplaced) =
      e.value.mapError (Fault.mapOperator fun op => op.plain.unplaced) := by
    rw [← Expr.value_bare_mapOperators respells_unplaced, h,
      Expr.value_bare_mapOperators respells_plain_unplaced]
  cases hv : e.value with
  | ok v =>
    rw [hv] at hvalue
    obtain ⟨houtcome, hsink⟩ := interpret_of_value hv sink
    obtain ⟨houtcome', hsink'⟩ := interpret_of_value (eq_ok_of_mapError hvalue) sink
    rw [houtcome, houtcome', hsink, hsink']
    refine ⟨?_, rfl⟩
    split
    · exact .value v
    · exact .write
  | error fault => cases fault with
    | defect d => exact absurd hv (hlegal.ne_defect d)
    | runtime error =>
      rw [hv] at hvalue
      obtain ⟨fault', hv', hfault⟩ := exists_of_mapError hvalue
      cases fault' with
      | defect d => cases hfault
      | runtime error' =>
        obtain ⟨houtcome, hsink⟩ := interpret_of_fault hv sink
        obtain ⟨houtcome', hsink'⟩ := interpret_of_fault hv' sink
        obtain ⟨k, hk⟩ := Expr.exists_failsAt hv
        obtain ⟨k', hk'⟩ := Expr.exists_failsAt hv'
        obtain rfl : k' = k := by
          rw [hk.eq_length, hk'.eq_length]
          exact Expr.length_passed_eq respells_unplaced respells_plain_unplaced h
        obtain ⟨hrule, hop⟩ := RuntimeError.mk.inj (Fault.runtime.inj hfault)
        rw [houtcome, houtcome', hsink, hsink']
        exact ⟨.runtime hrule hop hk hk', rfl⟩

/-- Every tree can be written and means the same. A tree of any shape whose operators and
literals can be written has a text in full parentheses; and each such text is read, without a
report, to the tree but for groups and for the lines and literals of operators. A run of the
text prints what the tree prints by itself, and ends with its value, or with a failure to write
it as the tree does, or with the same runtime error on the operator of the same operation. -/
theorem run_fullyWritten (e : Expr) (h : e.Writable) :
    (∃ pieces, e.FullyWritten .alone pieces) ∧ ∀ pieces, e.FullyWritten .alone pieces →
      ∃ e', (Reading.ofSource (String.ofList ([' '].intercalate pieces))).expr = some e' ∧
        e'.bare.mapOperators Token.unplaced =
          e.bare.mapOperators (fun op => op.plain.unplaced) ∧
        ∀ sink,
          Agrees e e' (interpret e sink).outcome
            (run (String.ofList ([' '].intercalate pieces)) sink).outcome ∧
          (run (String.ofList ([' '].intercalate pieces)) sink).sink = (interpret e sink).sink ∧
          ∀ ds, (run (String.ofList ([' '].intercalate pieces)) sink).outcome ≠
            .error (.static ds) := by
  refine ⟨h.exists_fullyWritten, fun pieces hp => ?_⟩
  obtain ⟨shaped, hshaped, hwritten, hbare, -⟩ := hp.exists_shaped h
  obtain ⟨segments, rfl, hs⟩ := hshaped.exists_spelling pieces hwritten
  obtain ⟨e', hexpr, hclean, he'⟩ := reading_of_spelling hs
  have hsame : e'.bare.mapOperators Token.unplaced =
      e.bare.mapOperators fun op => op.plain.unplaced := by
    rw [← Expr.bare_mapOperators, he', Expr.bare_mapOperators, hbare]
  refine ⟨e', hexpr, hsame, fun sink => ?_⟩
  obtain ⟨houtcome, hsink⟩ := run_of_clean hexpr hclean sink
  obtain ⟨hagrees, hprinted⟩ := interpret_agrees h.legal hsame sink
  rw [houtcome, hsink]
  exact ⟨hagrees, hprinted, interpret_ne_static e' sink⟩

/-- A comparison is the left operand of a product, where no text without parentheses has it. -/
theorem run_fullyWritten_star :
    ∃ line, (run "( ( nil ) == ( true ) ) * ( \"a\" )" (.empty none)).outcome =
      .error (.runtime ⟨.operandsNumbers, ⟨.symbol .star, "*", none, line⟩⟩) := by
  let e : Expr := .binary
    (.binary (.literal .nil) ⟨.symbol .equalEqual, "==", none, 3⟩ (.literal (.bool true)))
    ⟨.symbol .star, "*", none, 2⟩ (.literal (.string "a"))
  have hstring : (Value.string "a").Written ['"', 'a', '"'] := .string (by decide)
  have hwritable : e.Writable :=
    .binary (by decide) rfl (.binary (by decide) rfl (.literal .nil) (.literal .true))
      (.literal hstring)
  have hfully : e.FullyWritten .alone [['('], ['('], ['n', 'i', 'l'], [')'], ['=', '='], ['('],
      ['t', 'r', 'u', 'e'], [')'], [')'], ['*'], ['('], ['"', 'a', '"'], [')']] :=
    .binary (.parens (.binary (.parens (.literal .nil)) (.parens (.literal .true))))
      (.parens (.literal hstring))
  obtain ⟨e', -, -, hrun⟩ := (run_fullyWritten e hwritable).2 _ hfully
  have hagrees := (hrun (.empty none)).1
  have houtcome : (interpret e (.empty none)).outcome =
      .error (.runtime ⟨.operandsNumbers, ⟨.symbol .star, "*", none, 2⟩⟩) := rfl
  rw [houtcome] at hagrees
  have htext : String.ofList ([' '].intercalate [['('], ['('], ['n', 'i', 'l'], [')'], ['=', '='],
      ['('], ['t', 'r', 'u', 'e'], [')'], [')'], ['*'], ['('], ['"', 'a', '"'], [')']]) =
        "( ( nil ) == ( true ) ) * ( \"a\" )" := rfl
  rw [htext] at hagrees
  generalize (run "( ( nil ) == ( true ) ) * ( \"a\" )" (.empty none)).outcome = outcome
    at hagrees ⊢
  cases hagrees with
  | @runtime _ error _ hrule hop _ _ =>
    obtain ⟨rule, kind, lexeme, literal, line⟩ := error
    cases hrule
    cases hop
    exact ⟨line, rfl⟩

/-- The literal of an operator is not written, so the operator at fault has none. -/
theorem run_drops_literal :
    let e : Expr := .unary ⟨.symbol .minus, "-", some (.string "x"), 1⟩ (.literal .nil)
    e.Writable ∧ e.FullyWritten .alone [['-'], ['('], ['n', 'i', 'l'], [')']] ∧
      (interpret e (.empty none)).outcome =
        .error (.runtime ⟨.operandNumber, ⟨.symbol .minus, "-", some (.string "x"), 1⟩⟩) ∧
      ¬ ∃ error, (run "- ( nil )" (.empty none)).outcome = .error (.runtime error) ∧
        error.operator.unplaced = ⟨.symbol .minus, "-", some (.string "x"), 0⟩ := by
  refine ⟨.unary (by decide) rfl (.literal .nil), .unary (.parens (.literal .nil)), rfl, ?_⟩
  rintro ⟨error, herror, hop⟩
  have hexpr : (Reading.ofSource "- ( nil )").expr =
      some (.unary ⟨.symbol .minus, "-", none, 1⟩ (.group (.literal .nil))) := by decide +kernel
  have hclean : (Reading.ofSource "- ( nil )").problems = [] := by decide +kernel
  rw [(run_of_clean hexpr hclean _).1] at herror
  cases herror
  cases hop

end Lox
