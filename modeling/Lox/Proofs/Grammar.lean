import Lox.Expr.Parse

/-! The grammar of expressions, written apart from the reader.

Four tiers of binary operators group to the left, prefix operators to the right, and
a derivation keeps in its tree each token that was an operator. A nonterminal `Stops`
before a token that could not go on after it: the operators of its own tier and of the
tighter ones are those that could. -/

namespace Lox
namespace Grammar

/-- `Tier n operators m` stands for the two productions `n → m | n operator m`. -/
inductive Tier : Nonterminal → List Symbol → Nonterminal → Prop
  | equality : Tier (.level .equality) [.bangEqual, .equalEqual] (.level .comparison)
  | comparison :
      Tier (.level .comparison) [.greater, .greaterEqual, .less, .lessEqual] (.level .term)
  | term : Tier (.level .term) [.minus, .plus] (.level .factor)
  | factor : Tier (.level .factor) [.slash, .star] .unary

/-- The tokens that are operands by themselves, with their values. A number or a string
without a literal is none. -/
inductive Terminal : Token → Value → Prop
  | nil {t : Token} : t.kind = .keyword .nil → Terminal t .nil
  | true {t : Token} : t.kind = .keyword .true → Terminal t (.bool true)
  | false {t : Token} : t.kind = .keyword .false → Terminal t (.bool false)
  | number {t : Token} {l : Literal} : t.kind = .number → t.literal = some l → Terminal t l.toValue
  | string {t : Token} {l : Literal} : t.kind = .string → t.literal = some l → Terminal t l.toValue

/-- The tokens that a nonterminal derives, with the tree of the derivation. -/
inductive Derives : Nonterminal → List Token → Expr → Prop
  | tighter {n operators m p e} : Tier n operators m → Derives m p e → Derives n p e
  | binary {n operators m p q left op right} : Tier n operators m → Derives n p left →
      op.kind ∈ operators.map .symbol → Derives m q right →
      Derives n (p ++ op :: q) (.binary left op right)
  | signed {op p e} : op.kind ∈ [.symbol .bang, .symbol .minus] → Derives .unary p e →
      Derives .unary (op :: p) (.unary op e)
  | primary {p e} : Derives .primary p e → Derives .unary p e
  | terminal {t v} : Terminal t v → Derives .primary [t] (.literal v)
  | group {opening closing p e} : opening.kind = .symbol .leftParen → Derives .expression p e →
      closing.kind = .symbol .rightParen → Derives .primary (opening :: p ++ [closing]) (.group e)

/-- The operators that stand between two operands. -/
def binaryOperators : List TokenKind :=
  [.symbol .bangEqual, .symbol .equalEqual, .symbol .greater, .symbol .greaterEqual,
    .symbol .less, .symbol .lessEqual, .symbol .minus, .symbol .plus, .symbol .slash,
    .symbol .star]

theorem tier_level (l : Level) : Tier (.level l) l.symbols l.operand := by
  cases l
  · exact .equality
  · exact .comparison
  · exact .term
  · exact .factor

theorem Tier.eq_level {n m : Nonterminal} {operators : List Symbol} (h : Tier n operators m) :
    ∃ l : Level, n = .level l ∧ operators = l.symbols ∧ m = l.operand := by
  cases h
  · exact ⟨.equality, rfl, rfl, rfl⟩
  · exact ⟨.comparison, rfl, rfl, rfl⟩
  · exact ⟨.term, rfl, rfl, rfl⟩
  · exact ⟨.factor, rfl, rfl, rfl⟩

theorem terminal_iff {t : Token} {v : Value} : Terminal t v ↔ t.leaf? = some v := by
  constructor
  · intro h
    cases h <;> simp_all [Token.leaf?]
  · intro h
    unfold Token.leaf? at h
    split at h
    · cases h
      exact .nil ‹_›
    · cases h
      exact .true ‹_›
    · cases h
      exact .false ‹_›
    · obtain ⟨l, hl, rfl⟩ := Option.map_eq_some_iff.mp h
      exact .number ‹_› hl
    · obtain ⟨l, hl, rfl⟩ := Option.map_eq_some_iff.mp h
      exact .string ‹_› hl
    · cases h

theorem Terminal.kind_ne_leftParen {t : Token} {v : Value} (h : Terminal t v) :
    t.kind ≠ .symbol .leftParen := by
  cases h <;> simp [*]

theorem isUnaryOperator_iff {kind : TokenKind} :
    kind.isUnaryOperator = true ↔ kind ∈ [.symbol .bang, .symbol .minus] := by
  simp [TokenKind.isUnaryOperator]

theorem isEof_of_isUnaryOperator {t : Token} (h : t.kind.isUnaryOperator = true) :
    t.isEof = false := by
  rcases Bool.or_eq_true_iff.mp h with h | h <;> simp [Token.isEof, eq_of_beq h]

theorem accepts_iff {l : Level} {kind : TokenKind} :
    l.accepts kind = true ↔ kind ∈ l.symbols.map .symbol := by
  simp only [Level.accepts, List.any_eq_true, beq_iff_eq, List.mem_map]
  exact exists_congr fun s => and_congr_right fun _ => eq_comm

end Grammar

namespace Nonterminal
open Grammar

/-- The operators that go on after an expression of a nonterminal, loosest first. -/
def operators (n : Nonterminal) : List Symbol :=
  ([.equality, .comparison, .term, .factor].filter fun l : Level =>
    decide ((level l).rank ≤ n.rank)).flatMap Level.symbols

/-- No token at the front goes on after an expression of the nonterminal. -/
def Stops (n : Nonterminal) (rest : List Token) : Prop :=
  ∀ t ∈ rest.head?, t.kind ∉ n.operators.map .symbol

theorem operators_level (l : Level) : (level l).operators = l.symbols ++ l.operand.operators := by
  cases l <;> rfl

theorem operators_expression : expression.operators.map .symbol = binaryOperators := rfl

theorem stops_unary (rest : List Token) : unary.Stops rest := by
  intro t _
  exact List.not_mem_nil

theorem stops_primary (rest : List Token) : primary.Stops rest := by
  intro t _
  exact List.not_mem_nil

theorem stops_nil (n : Nonterminal) : n.Stops [] := by
  intro t ht
  cases ht

theorem stops_cons {n : Nonterminal} {t : Token} {rest : List Token} :
    n.Stops (t :: rest) ↔ t.kind ∉ n.operators.map .symbol := by
  simp [Stops]

theorem stops_level {l : Level} {rest : List Token} :
    (level l).Stops rest ↔
      (∀ t ∈ rest.head?, l.accepts t.kind = false) ∧ l.operand.Stops rest := by
  simp only [Stops, operators_level, List.map_append, List.mem_append, not_or,
    ← accepts_iff, Bool.not_eq_true]
  exact ⟨fun h => ⟨fun t ht => (h t ht).1, fun t ht => (h t ht).2⟩,
    fun h t ht => ⟨h.1 t ht, h.2 t ht⟩⟩

/-- An operator belongs to one tier only. -/
theorem stops_operand_of_accepts {l : Level} {op : Token} (h : l.accepts op.kind = true)
    (rest : List Token) : l.operand.Stops (op :: rest) := by
  rw [stops_cons]
  obtain ⟨s, hs, hk⟩ := List.mem_map.mp (accepts_iff.mp h)
  have disjoint : ∀ s ∈ l.symbols, s ∉ l.operand.operators := by cases l <;> decide
  rw [← hk]
  intro hm
  obtain ⟨s', hs', he⟩ := List.mem_map.mp hm
  exact disjoint s hs (TokenKind.symbol.inj he ▸ hs')

end Nonterminal

namespace Grammar

/-- Nothing that is derived holds an end marker. -/
theorem Derives.not_eof {n : Nonterminal} {p : List Token} {e : Expr} (h : Derives n p e) :
    ∀ t ∈ p, t.isEof = false := by
  induction h with
  | tighter _ _ ih => exact ih
  | primary _ ih => exact ih
  | binary _ _ hop _ ihl ihr =>
    obtain ⟨s, _, hs⟩ := List.mem_map.mp hop
    intro t ht
    rcases List.mem_append.mp ht with ht | ht
    · exact ihl t ht
    · rcases List.mem_cons.mp ht with rfl | ht
      · simp [Token.isEof, ← hs]
      · exact ihr t ht
  | signed hop _ ih =>
    intro t ht
    rcases List.mem_cons.mp ht with rfl | ht
    · rw [← isUnaryOperator_iff] at hop
      exact isEof_of_isUnaryOperator hop
    · exact ih t ht
  | terminal ht =>
    intro t hm
    rw [List.mem_singleton.mp hm]
    cases ht <;> simp [Token.isEof, *]
  | group ho _ hc ih =>
    intro t ht
    rcases List.mem_append.mp ht with ht | ht
    · rcases List.mem_cons.mp ht with rfl | ht
      · simp [Token.isEof, ho]
      · exact ih t ht
    · rw [List.mem_singleton.mp ht]
      simp [Token.isEof, hc]

/-- The first token of a primary expression is no sign. -/
theorem Derives.head_primary {p : List Token} {e : Expr} (h : Derives .primary p e) :
    ∃ t rest, p = t :: rest ∧ t.kind.isUnaryOperator = false := by
  cases h with
  | tighter ht _ => cases ht
  | binary ht _ _ _ => cases ht
  | terminal ht =>
    refine ⟨_, [], rfl, ?_⟩
    cases ht <;> simp [TokenKind.isUnaryOperator, *]
  | group ho _ _ => exact ⟨_, _, rfl, by simp [TokenKind.isUnaryOperator, ho]⟩

theorem rank_injective {m n : Nonterminal} (h : m.rank = n.rank) : m = n := by
  revert h
  cases m with
  | level k => cases n with
    | level l => cases k <;> cases l <;> decide
    | unary | primary => cases k <;> decide
  | unary | primary => cases n with
    | level l => cases l <;> decide
    | unary | primary => decide

theorem rank_le_expression (n : Nonterminal) : n.rank ≤ Nonterminal.expression.rank := by
  cases n with
  | level l => cases l <;> decide
  | unary | primary => decide

/-- What a nonterminal derives stands under every looser one. -/
theorem Derives.climb {m : Nonterminal} {p : List Token} {e : Expr} (h : Derives m p e) :
    ∀ n : Nonterminal, m.rank ≤ n.rank → Derives n p e
  | .primary, hr => by
    have hm : m = .primary := rank_injective (Nat.le_zero.mp hr)
    exact hm ▸ h
  | .unary, hr => by
    rcases Nat.lt_or_eq_of_le hr with hlt | heq
    · have hm : m = .primary := rank_injective (Nat.lt_one_iff.mp hlt)
      exact .primary (hm ▸ h)
    · exact rank_injective heq ▸ h
  | .level l, hr => by
    rcases Nat.lt_or_eq_of_le hr with hlt | heq
    · have hstep : (Nonterminal.level l).rank = l.operand.rank + 1 := by cases l <;> rfl
      exact .tighter (tier_level l) (h.climb l.operand (by omega))
    · exact rank_injective heq ▸ h
termination_by n => n.rank
decreasing_by exact Nonterminal.rank_operand_lt l

end Grammar

end Lox
