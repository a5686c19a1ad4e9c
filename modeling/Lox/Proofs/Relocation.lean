import Lox.Expr.Eval
import Lox.Proofs.CorrectPrefix
import Lox.Proofs.Shift
import Lox.Proofs.Written

/-! Tokens moved to other lines. A change that `Relocates` tokens leaves their kinds, lexemes
and literals. The grammar sees no more than kinds and literals, so what is moved is parsed to
the moved tree or to the moved report (`parse_move`, `parse_move_of_expected`); evaluation
copies an operator into a fault and shows its lexeme, so a moved tree is evaluated alike, with
the operator of a fault moved (`Expr.evaluate_move`). -/

namespace Lox
open Grammar Nonterminal

structure Relocates (f : Token → Token) : Prop where
  kind : ∀ t, (f t).kind = t.kind
  lexeme : ∀ t, (f t).lexeme = t.lexeme
  literal : ∀ t, (f t).literal = t.literal

/-- The replaced token is spelled as it was. -/
structure Respells (f : Token → Token) : Prop where
  kind : ∀ t, (f t).kind = t.kind
  lexeme : ∀ t, (f t).lexeme = t.lexeme

theorem Relocates.respells {f : Token → Token} (h : Relocates f) : Respells f :=
  ⟨h.kind, h.lexeme⟩

theorem relocates_shift (lines : Nat) : Relocates (Token.shift lines) :=
  ⟨fun _ => rfl, fun _ => rfl, fun _ => rfl⟩

section Move

variable {f : Token → Token} (h : Relocates f)
include h

theorem Relocates.isEof (t : Token) : (f t).isEof = t.isEof := by
  rw [Token.isEof, Token.isEof, h.kind]

theorem Relocates.leaf? (t : Token) : (f t).leaf? = t.leaf? := by
  simp only [Token.leaf?, h.kind, h.literal]

/-! ## Parsing -/

theorem Grammar.Terminal.move {t : Token} {v : Value} (ht : Terminal t v) :
    Terminal (f t) v := by
  rw [terminal_iff] at ht ⊢
  rwa [h.leaf?]

theorem Grammar.Derives.move {n : Nonterminal} {p : List Token} {e : Expr} (hd : Derives n p e) :
    Derives n (p.map f) (e.mapOperators f) := by
  induction hd with
  | tighter ht _ ih => exact .tighter ht ih
  | binary ht _ hop _ ihl ihr =>
    rw [List.map_append, List.map_cons]
    exact .binary ht ihl (by rwa [h.kind]) ihr
  | signed hop _ ih => exact .signed (by rwa [h.kind]) ih
  | primary _ ih => exact .primary ih
  | terminal ht => exact .terminal (ht.move h)
  | group ho _ hc ih =>
    rw [List.map_append, List.map_cons]
    exact .group ((h.kind _).trans ho) ih ((h.kind _).trans hc)

theorem Grammar.Begins.move {n : Nonterminal} {p : List Token} {want : Expectation}
    (hb : Begins n p want) : Begins n (p.map f) want := by
  induction hb with
  | start => exact .start
  | tighter ht _ ih => exact .tighter ht ih
  | operand ht hleft hop _ ih =>
    rw [List.map_append, List.map_cons]
    exact .operand ht (hleft.move h) (by rwa [h.kind]) ih
  | signed hop _ ih => exact .signed (by rwa [h.kind]) ih
  | primary _ ih => exact .primary ih
  | inside ho _ ih => exact .inside ((h.kind _).trans ho) ih
  | closing ho he => exact .closing ((h.kind _).trans ho) (he.move h)

theorem Nonterminal.Stops.move {n : Nonterminal} {rest : List Token} (hs : n.Stops rest) :
    n.Stops (rest.map f) := by
  cases rest with
  | nil => exact stops_nil n
  | cons t rest =>
    rw [stops_cons] at hs
    rwa [List.map_cons, stops_cons, h.kind]

theorem Grammar.Refuses.move {want : Expectation} {found : Token} (hr : Refuses want [found]) :
    Refuses want [f found] := by
  cases want with
  | expression =>
    simpa only [Refuses, List.head?_cons, Option.mem_some_iff, forall_eq', h.kind, h.leaf?] using hr
  | closingParen =>
    refine ⟨hr.1.move h, ?_⟩
    simpa only [List.head?_cons, Option.mem_some_iff, forall_eq', h.kind] using hr.2

theorem Cut.move {ts body tail : List Token} {stop : Token} (c : Cut ts body stop tail) :
    Cut (ts.map f) (body.map f) (f stop) (tail.map f) := by
  refine ⟨by rw [c.eq, List.map_append, List.map_cons], fun t ht => ?_, (h.isEof _).trans c.marker⟩
  obtain ⟨u, hu, rfl⟩ := List.mem_map.mp ht
  exact (h.isEof u).trans (c.clear u hu)

theorem Marked.move {ts : List Token} (hm : Marked ts) : Marked (ts.map f) := by
  obtain ⟨front, stop, rfl, hs⟩ := hm
  exact ⟨front.map f, f stop, List.map_append, (h.kind stop).trans hs⟩

theorem parse_move {ts : List Token} (hm : Marked ts) {e : Expr} (hp : parse ts = .ok e) :
    parse (ts.map f) = .ok (e.mapOperators f) := by
  obtain ⟨body, stop, tail, c⟩ := hm.cut
  obtain ⟨rest, ho⟩ := (c.parse_eq_ok_iff hm).mp hp
  obtain ⟨⟨p, rfl, hd⟩, hstops⟩ := outcome_eq_ok_iff.mp ho
  refine ((c.move h).parse_eq_ok_iff (hm.move h)).mpr ⟨rest.map f, outcome_eq_ok_iff.mpr ?_⟩
  exact ⟨⟨p.map f, List.map_append, hd.move h⟩, hstops.move h⟩

theorem parse_move_of_expected {ts : List Token} (hm : Marked ts) {want : Expectation}
    {found : Token} (hp : parse ts = .error (.problem (.expected want found))) :
    parse (ts.map f) = .error (.problem (.expected want (f found))) := by
  obtain ⟨p, rest, rfl, hb, hr⟩ := (parse_eq_error_iff hm).mp hp
  refine (parse_eq_error_iff (hm.move h)).mpr ⟨p.map f, rest.map f, ?_, hb.move h, hr.move h⟩
  rw [List.map_append, List.map_cons]

end Move

/-! ## Evaluation -/

/-- The fault with its operator replaced. -/
def Fault.mapOperator (f : Token → Token) : Fault → Fault
  | .runtime e => .runtime { e with operator := f e.operator }
  | .defect d => .defect { d with operator := f d.operator }

/-- The evaluation with the operator of its fault replaced. -/
def Evaluation.mapOperator (f : Token → Token) (m : Evaluation) : Evaluation :=
  { m with result := m.result.mapError (Fault.mapOperator f) }

theorem Evaluation.bind_mapOperator (f : Token → Token) (m : Evaluation)
    (next : Value → Evaluation) :
    (m.mapOperator f).bind (fun v => (next v).mapOperator f) = (m.bind next).mapOperator f := by
  obtain ⟨result, records⟩ := m
  cases result <;> rfl

theorem add_mapOperator (f : Token → Token) (op : Token) (v w : Value) :
    add (f op) v w = (add op v w).mapError (Fault.mapOperator f) := by
  unfold add
  split <;> rfl

section Move

variable {f : Token → Token} (h : Respells f)
include h

theorem applyUnary_move (op : Token) (v : Value) :
    applyUnary (f op) v = (applyUnary op v).mapError (Fault.mapOperator f) := by
  unfold applyUnary
  rw [h.kind]
  split
  · rfl
  · cases v.number? <;> rfl
  · rfl

theorem onNumbers_move (op : Token) (v w : Value) :
    onNumbers (f op) v w = (onNumbers op v w).mapError (Fault.mapOperator f) := by
  unfold onNumbers
  rw [h.kind]
  split
  · split <;> rfl
  · rfl

theorem applyBinary_move (op : Token) (v w : Value) :
    applyBinary (f op) v w = (applyBinary op v w).mapError (Fault.mapOperator f) := by
  unfold applyBinary
  rw [h.kind]
  split
  · exact add_mapOperator f op v w
  · rfl
  · rfl
  iterate 7 exact onNumbers_move h op v w
  rfl

theorem applicationRecord_move (op : Token) (v w : Value) :
    applicationRecord (f op) v w = applicationRecord op v w := by
  rw [applicationRecord, applicationRecord, h.lexeme]

theorem Expr.evaluate_move (e : Expr) :
    (e.mapOperators f).evaluate = e.evaluate.mapOperator f := by
  induction e with
  | literal => rfl
  | group e ih => exact ih
  | unary op e ih =>
    rw [mapOperators, evaluate, evaluate, ih, ← Evaluation.bind_mapOperator]
    simp only [applyUnary_move h]
    rfl
  | binary l op r ihl ihr =>
    rw [mapOperators, evaluate, evaluate, ihl, ihr, ← Evaluation.bind_mapOperator]
    simp only [← Evaluation.bind_mapOperator, applyBinary_move h, applicationRecord_move h]
    rfl

theorem Expr.value_move (e : Expr) :
    (e.mapOperators f).value = e.value.mapError (Fault.mapOperator f) := by
  rw [value, evaluate_move h]
  rfl

end Move

end Lox
