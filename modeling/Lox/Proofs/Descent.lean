import Lox.Expr.Parse

/-! What the reader of expressions gives, without the bound on its rest, and the
induction that its descent allows. One equation for each production says all that a
reading does; `descent` follows the calls, each of which has fewer tokens before it or
as many and a tighter nonterminal. -/

namespace Lox

/-- A tree with the rest of the tokens, or the place where reading stopped. -/
abbrev Outcome : Type :=
  Except Stuck (Expr × List Token)

namespace Nonterminal

def outcome (n : Nonterminal) (ts : List Token) : Outcome :=
  (n.read ts).map fun r => (r.expr, r.rest)

end Nonterminal

namespace Level

/-- What follows a left operand. -/
def outcome (l : Level) (left : Expr) (ts : List Token) : Outcome :=
  (l.more left ts).map fun r => (r.expr, r.rest)

end Level

theorem bind_eq_ok {ε α β : Type} {x : Except ε α} {f : α → Except ε β} {b : β}
    (h : x.bind f = .ok b) : ∃ a, x = .ok a ∧ f a = .ok b := by
  cases x with
  | error s => cases h
  | ok a => exact ⟨a, rfl, h⟩

theorem map_eq_ok {ε α β : Type} {x : Except ε α} {f : α → β} {b : β}
    (h : x.map f = .ok b) : ∃ a, x = .ok a ∧ f a = b := by
  cases x with
  | error s => cases h
  | ok a => exact ⟨a, rfl, Except.ok.inj h⟩

/-- The parenthesis that a group wants after its expression. -/
def closeGroup (e : Expr) : List Token → Outcome
  | [] => .error ⟨.closingParen, []⟩
  | closing :: after =>
    if closing.kind = .symbol .rightParen then .ok (.group e, after)
    else .error ⟨.closingParen, closing :: after⟩

theorem closeGroup_eq_ok {e f : Expr} {ts rest : List Token}
    (h : closeGroup e ts = .ok (f, rest)) :
    ∃ closing, ts = closing :: rest ∧ closing.kind = .symbol .rightParen ∧ f = .group e := by
  cases ts with
  | nil => cases h
  | cons closing after =>
    simp only [closeGroup] at h
    split at h
    · cases h
      exact ⟨closing, rfl, ‹_›, rfl⟩
    · cases h

namespace Nonterminal

theorem length_lt_of_outcome {n : Nonterminal} {ts rest : List Token} {e : Expr}
    (h : n.outcome ts = .ok (e, rest)) : rest.length < ts.length := by
  obtain ⟨r, _, hr⟩ := map_eq_ok h
  exact (Prod.mk.inj hr).2 ▸ r.length_rest_lt

theorem outcome_level (l : Level) (ts : List Token) :
    (level l).outcome ts = (l.operand.outcome ts).bind fun r => l.outcome r.1 r.2 := by
  unfold outcome Level.outcome
  rw [Nonterminal.read]
  cases l.operand.read ts with
  | error s => rfl
  | ok r =>
    simp only [bind, Except.bind, Except.map]
    cases l.more r.expr r.rest <;> rfl

theorem outcome_unary_nil : unary.outcome [] = .error ⟨.expression, []⟩ := by
  unfold outcome
  rw [Nonterminal.read, Nonterminal.read]
  rfl

theorem outcome_unary_cons (op : Token) (rest : List Token) :
    unary.outcome (op :: rest) =
      if op.kind.isUnaryOperator = true then
        (unary.outcome rest).map fun r => (.unary op r.1, r.2)
      else primary.outcome (op :: rest) := by
  unfold outcome
  rw [Nonterminal.read]
  split
  · cases unary.read rest <;> rfl
  · rfl

theorem outcome_primary_nil : primary.outcome [] = .error ⟨.expression, []⟩ := by
  unfold outcome
  rw [Nonterminal.read]
  rfl

theorem outcome_primary_cons (t : Token) (rest : List Token) :
    primary.outcome (t :: rest) =
      if t.kind = .symbol .leftParen then
        (expression.outcome rest).bind fun r => closeGroup r.1 r.2
      else match t.leaf? with
        | some v => .ok (.literal v, rest)
        | none => .error ⟨.expression, t :: rest⟩ := by
  unfold outcome
  rw [Nonterminal.read]
  split
  · cases expression.read rest with
    | error s => rfl
    | ok r =>
      obtain ⟨e, after, h⟩ := r
      simp only [bind, Except.bind, Except.map]
      cases after with
      | nil => rfl
      | cons closing after =>
        by_cases hc : closing.kind = .symbol .rightParen
        · simp only [closeGroup, if_pos hc]
          rfl
        · simp only [closeGroup, if_neg hc]
          rfl
  · cases t.leaf? <;> rfl

end Nonterminal

namespace Level

theorem outcome_nil (l : Level) (left : Expr) : l.outcome left [] = .ok (left, []) := by
  unfold outcome
  rw [Level.more]
  rfl

theorem outcome_cons (l : Level) (left : Expr) (op : Token) (rest : List Token) :
    l.outcome left (op :: rest) =
      if l.accepts op.kind = true then
        (l.operand.outcome rest).bind fun r => l.outcome (.binary left op r.1) r.2
      else .ok (left, op :: rest) := by
  unfold outcome Nonterminal.outcome
  rw [Level.more]
  split
  · cases l.operand.read rest with
    | error s => rfl
    | ok r =>
      simp only [bind, Except.bind, Except.map]
      cases l.more (.binary left op r.expr) r.rest <;> rfl
  · rfl

end Level

/-- Induction along the calls of the reader. What goes on after an operand, and what
stands behind a sign or a parenthesis, has fewer tokens; an operand has as many. -/
theorem descent {P : Nonterminal → List Token → Prop} {Q : Level → Expr → List Token → Prop}
    (level : ∀ l ts, P l.operand ts → (∀ e rest, rest.length < ts.length → Q l e rest) →
      P (.level l) ts)
    (unary : ∀ ts, (∀ op rest, ts = op :: rest → P .unary rest) → P .primary ts → P .unary ts)
    (primary : ∀ ts, (∀ t rest, ts = t :: rest → P .expression rest) → P .primary ts)
    (more : ∀ l e ts, (∀ op rest, ts = op :: rest → P l.operand rest) →
      (∀ e' rest, rest.length < ts.length → Q l e' rest) → Q l e ts) :
    (∀ n ts, P n ts) ∧ ∀ l e ts, Q l e ts := by
  have both : ∀ k, ∀ ts : List Token, ts.length = k → (∀ n, P n ts) ∧ ∀ l e, Q l e ts := by
    intro k
    induction k using Nat.strongRecOn with
    | ind k ih =>
      intro ts hk
      subst hk
      have shorter : ∀ t rest, ts = t :: rest → ∀ n, P n rest := by
        rintro t rest rfl n
        exact (ih rest.length (by simp) rest rfl).1 n
      have shorterMore : ∀ l e rest, rest.length < ts.length → Q l e rest :=
        fun l e rest h => (ih rest.length h rest rfl).2 l e
      have hprimary : P .primary ts := primary ts fun t rest h => shorter t rest h _
      have hunary : P .unary ts := unary ts (fun op rest h => shorter op rest h _) hprimary
      -- the levels from the tightest up: the operand of each is the one before
      have hfactor : P (.level .factor) ts := level .factor ts hunary (shorterMore _)
      have hterm : P (.level .term) ts := level .term ts hfactor (shorterMore _)
      have hcomparison : P (.level .comparison) ts :=
        level .comparison ts hterm (shorterMore _)
      have hequality : P (.level .equality) ts :=
        level .equality ts hcomparison (shorterMore _)
      refine ⟨fun n => ?_, fun l e => more l e ts (fun op rest h => shorter op rest h _)
        (shorterMore l)⟩
      cases n with
      | level l => cases l <;> assumption
      | unary => exact hunary
      | primary => exact hprimary
  exact ⟨fun n ts => (both _ ts rfl).1 n, fun l e ts => (both _ ts rfl).2 l e⟩

end Lox
