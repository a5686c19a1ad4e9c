import Lox.Proofs.Grammar

/-! Trees in infix form, and the trees that the infix form fits. `Expr.Written` gives the
texts of the tokens in order, with parentheses for groups and for nothing else; a number
may be written by any numeral that reads as it. A tree is `Shaped` when its operands bind
tighter than the tiers they stand in ask for. -/

namespace Lox

/-- `digit+ (. digit+)?`, with the number that it reads as. -/
inductive Numeral : List Char → Float → Prop
  | whole {digits} : digits ≠ [] → (∀ c ∈ digits, c.isDigit = true) →
      Numeral digits (Decimal.ofNumeral digits []).toFloat
  | point {digits fraction} : digits ≠ [] → (∀ c ∈ digits, c.isDigit = true) →
      fraction ≠ [] → (∀ c ∈ fraction, c.isDigit = true) →
      Numeral (digits ++ '.' :: fraction) (Decimal.ofNumeral digits fraction).toFloat

/-- A value as the text of one token. A number below zero has none, nor has NaN or a string
with a quote in it. -/
inductive Value.Written : Value → List Char → Prop
  | nil : Written .nil "nil".toList
  | true : Written (.bool true) "true".toList
  | false : Written (.bool false) "false".toList
  | string {s : String} : '"' ∉ s.toList → Written (.string s) ('"' :: (s.toList ++ ['"']))
  | number {digits x} : Numeral digits x → Written (.number x) digits

namespace Expr

inductive Written : Expr → List (List Char) → Prop
  | literal {v piece} : v.Written piece → Written (.literal v) [piece]
  | group {e pieces} : Written e pieces → Written (.group e) (['('] :: (pieces ++ [[')']]))
  | unary {op e pieces} : Written e pieces → Written (.unary op e) (op.lexeme.toList :: pieces)
  | binary {left op right pieces others} : Written left pieces → Written right others →
      Written (.binary left op right) (pieces ++ op.lexeme.toList :: others)

/-- The nonterminal whose own production made the root of a tree. -/
inductive Root : Expr → Nonterminal → Prop
  | literal {v} : Root (.literal v) .primary
  | group {e} : Root (.group e) .primary
  | unary {op e} : Root (.unary op e) .unary
  | binary {l operators m left op right} : Grammar.Tier (.level l) operators m →
      op.kind ∈ operators.map .symbol → Root (.binary left op right) (.level l)

end Expr

/-- How tight the operators of a level bind: equality < comparison < term < factor. -/
def Level.tightness : Level → Nat
  | equality => 0
  | comparison => 1
  | term => 2
  | factor => 3

namespace Expr

/-- The trees of the grammar: their literals can be written, their operators are written with
the text of their kind, and no binary node stands bare where only tighter ones can. -/
inductive Shaped : Expr → Prop
  | literal {v piece} : v.Written piece → Shaped (.literal v)
  | group {e} : Shaped e → Shaped (.group e)
  | unary {op e} : op.kind ∈ [.symbol .bang, .symbol .minus] →
      op.kind.fixedText = some op.lexeme → (∀ l, ¬ e.Root (.level l)) → Shaped e →
      Shaped (.unary op e)
  | binary {l operators m left op right} : Grammar.Tier (.level l) operators m →
      op.kind ∈ operators.map .symbol → op.kind.fixedText = some op.lexeme →
      (∀ k, left.Root (.level k) → l.tightness ≤ k.tightness) →
      (∀ k, right.Root (.level k) → l.tightness < k.tightness) → Shaped left → Shaped right →
      Shaped (.binary left op right)

/-- The tree with its operators replaced. -/
def mapOperators (f : Token → Token) : Expr → Expr
  | literal v => literal v
  | group e => group (e.mapOperators f)
  | unary op e => unary (f op) (e.mapOperators f)
  | binary left op right => binary (left.mapOperators f) (f op) (right.mapOperators f)

end Expr

namespace Token

/-- The token without its place in the text. -/
def unplaced (t : Token) : Token :=
  { t with line := 0 }

/-- The token without its literal. -/
def plain (t : Token) : Token :=
  { t with literal := none }

end Token

namespace Expr

theorem exists_written {e : Expr} (h : e.Shaped) : ∃ pieces, e.Written pieces := by
  induction h with
  | literal hv => exact ⟨_, .literal hv⟩
  | group _ ih =>
    obtain ⟨pieces, hp⟩ := ih
    exact ⟨_, .group hp⟩
  | unary _ _ _ _ ih =>
    obtain ⟨pieces, hp⟩ := ih
    exact ⟨_, .unary hp⟩
  | binary _ _ _ _ _ _ _ ihl ihr =>
    obtain ⟨pieces, hp⟩ := ihl
    obtain ⟨others, ho⟩ := ihr
    exact ⟨_, .binary hp ho⟩

/-- A root fits under a tier that is as loose. -/
theorem Root.rank_le {e : Expr} {n : Nonterminal} {l : Level} (h : e.Root n)
    (hl : ∀ k, e.Root (.level k) → l.tightness ≤ k.tightness) :
    n.rank ≤ (Nonterminal.level l).rank := by
  cases n with
  | level k =>
    have hk := hl k h
    revert hk
    cases l <;> cases k <;> decide
  | unary | primary => cases l <;> decide

theorem Root.rank_le_operand {e : Expr} {n : Nonterminal} {l : Level} (h : e.Root n)
    (hl : ∀ k, e.Root (.level k) → l.tightness < k.tightness) : n.rank ≤ l.operand.rank := by
  cases n with
  | level k =>
    have hk := hl k h
    revert hk
    cases l <;> cases k <;> decide
  | unary | primary => cases l <;> decide

end Expr

end Lox
