import Lox.Proofs.FloatBits
import Lox.Proofs.Provenance

/-! Equality of what was read. The equality of trees is that of IEEE on their numbers, so it
is neither reflexive nor does it keep the zeros apart; on the trees of texts it is identity.
These are `Scanned`: a number in them was read from a numeral, which gives neither NaN nor -0,
and an operator is a symbol with its own text and no literal. -/

namespace Lox
open Grammar Segment

/-- A token that a symbol of a text is. -/
structure Token.OfSymbol (t : Token) (s : Symbol) : Prop where
  kind : t.kind = .symbol s
  lexeme : t.lexeme = String.ofList s.chars
  literal : t.literal = none

/-- A value that a text can hold. -/
def Value.Scanned : Value → Prop
  | number x => ∃ d : Decimal, d.toFloat = x
  | _ => True

/-- A tree that a text can hold. -/
inductive Expr.Scanned : Expr → Prop
  | literal {v} : v.Scanned → Scanned (.literal v)
  | group {e} : Scanned e → Scanned (.group e)
  | unary {op s e} : op.OfSymbol s → Scanned e → Scanned (.unary op e)
  | binary {left op s right} : Scanned left → op.OfSymbol s → Scanned right →
      Scanned (.binary left op right)

/-! ## Trees of texts -/

theorem ofSymbol_of_mem_tokens {source : String} {t : Token} {s : Symbol}
    (h : t ∈ (scan source).tokens) (hk : t.kind = .symbol s) : t.OfSymbol s := by
  rcases placed_of_mem_tokens h with rfl | ⟨segment, -, hspells, hlexeme⟩
  · cases hk
  · rw [hk] at hspells
    generalize hliteral : t.literal = literal at hspells
    cases hspells
    exact ⟨hk, hlexeme, hliteral⟩

/-- The literal of a number was read from its digits. -/
theorem scanned_of_mem_tokens {source : String} {t : Token} {l : Literal}
    (h : t ∈ (scan source).tokens) (hl : t.literal = some l) : l.toValue.Scanned := by
  rcases placed_of_mem_tokens h with rfl | ⟨segment, -, hspells, -⟩
  · cases hl
  · rw [hl] at hspells
    generalize t.kind = kind at hspells
    cases hspells with
    | string => trivial
    | number => exact ⟨_, rfl⟩

theorem Grammar.Terminal.scanned {source : String} {t : Token} {v : Value} (h : Terminal t v)
    (ht : t ∈ (scan source).tokens) : v.Scanned := by
  cases h with
  | nil | true | false => trivial
  | number _ hl | string _ hl => exact scanned_of_mem_tokens ht hl

theorem Grammar.Derives.scanned {source : String} {n : Nonterminal} {p : List Token} {e : Expr}
    (h : Derives n p e) (hp : ∀ t ∈ p, t ∈ (scan source).tokens) : e.Scanned := by
  induction h with
  | tighter _ _ ih | primary _ ih => exact ih hp
  | binary _ _ hop _ ihl ihr =>
    obtain ⟨hleft, hrest⟩ := List.forall_mem_append.mp hp
    obtain ⟨hmem, hright⟩ := List.forall_mem_cons.mp hrest
    obtain ⟨s, -, hs⟩ := List.mem_map.mp hop
    exact .binary (ihl hleft) (ofSymbol_of_mem_tokens hmem hs.symm) (ihr hright)
  | @signed op _ _ hop _ ih =>
    obtain ⟨hmem, hoperand⟩ := List.forall_mem_cons.mp hp
    have hop : op.kind ∈ [Symbol.bang, .minus].map .symbol := hop
    obtain ⟨s, -, hs⟩ := List.mem_map.mp hop
    exact .unary (ofSymbol_of_mem_tokens hmem hs.symm) (ih hoperand)
  | terminal ht => exact .literal (ht.scanned (hp _ List.mem_cons_self))
  | group _ _ _ ih =>
    obtain ⟨hfront, -⟩ := List.forall_mem_append.mp hp
    exact .group (ih (List.forall_mem_cons.mp hfront).2)

theorem scanned_of_reading {source : String} {e : Expr}
    (h : (Reading.ofSource source).expr = some e) : e.Scanned := by
  obtain ⟨p, rest, htokens, he⟩ := exists_derives_of_parse (Reading.expr_ofTokens_iff.mp h)
  exact he.scanned fun t ht => htokens ▸ List.mem_append_left rest ht

/-! ## Equality is identity -/

theorem Value.Scanned.equals_self {v : Value} (h : v.Scanned) : v.equals v = true := by
  cases v with
  | nil => rfl
  | bool b => exact beq_self_eq_true b
  | string s => exact beq_self_eq_true s
  | number x =>
    obtain ⟨d, rfl⟩ := h
    exact Binary64.beq_self d.isNaN_toFloat

theorem Value.Scanned.eq_of_equals {v w : Value} (hv : v.Scanned) (hw : w.Scanned)
    (h : v.equals w = true) : v = w := by
  cases v with
  | nil => cases w with
    | nil => rfl
    | _ => cases h
  | bool a => cases w with
    | bool b => exact congrArg bool (eq_of_beq h)
    | _ => cases h
  | string s => cases w with
    | string t => exact congrArg string (eq_of_beq h)
    | _ => cases h
  | number x => cases w with
    | number y =>
      obtain ⟨c, rfl⟩ := hv
      obtain ⟨d, rfl⟩ := hw
      exact congrArg number (Decimal.eq_of_beq_toFloat h)
    | _ => cases h

theorem Token.OfSymbol.equals_self {t : Token} {s : Symbol} (h : t.OfSymbol s) :
    t.equals t = true := by
  simp [Token.equals, h.literal, optionEquals]

theorem Token.OfSymbol.eq_of_equals {t u : Token} {s r : Symbol} (ht : t.OfSymbol s)
    (hu : u.OfSymbol r) (h : t.equals u = true) : t = u := by
  obtain ⟨kind, lexeme, literal, line⟩ := t
  obtain ⟨kind', lexeme', literal', line'⟩ := u
  obtain rfl : literal = none := ht.literal
  obtain rfl : literal' = none := hu.literal
  simpa [Token.equals, optionEquals, and_assoc] using h

namespace Expr

theorem Scanned.equals_self {e : Expr} (h : e.Scanned) : e.equals e = true := by
  induction h with
  | literal hv => exact hv.equals_self
  | group _ ih => exact ih
  | unary hop _ ih => simp only [equals, hop.equals_self, ih, Bool.and_self]
  | binary _ hop _ ihl ihr => simp only [equals, hop.equals_self, ihl, ihr, Bool.and_self]

theorem Scanned.eq_of_equals {e f : Expr} (he : e.Scanned) (hf : f.Scanned)
    (h : e.equals f = true) : e = f := by
  induction he generalizing f with
  | literal hv => cases hf with
    | literal hw => exact congrArg Expr.literal (hv.eq_of_equals hw h)
    | _ => cases h
  | group _ ih => cases hf with
    | group hf => exact congrArg Expr.group (ih hf h)
    | _ => cases h
  | unary hop _ ih => cases hf with
    | unary hop' hf =>
      obtain ⟨hops, hoperands⟩ := Bool.and_eq_true_iff.mp h
      rw [hop.eq_of_equals hop' hops, ih hf hoperands]
    | _ => cases h
  | binary _ hop _ ihl ihr => cases hf with
    | binary hl hop' hr =>
      obtain ⟨hfront, hrights⟩ := Bool.and_eq_true_iff.mp h
      obtain ⟨hlefts, hops⟩ := Bool.and_eq_true_iff.mp hfront
      rw [hop.eq_of_equals hop' hops, ihl hl hlefts, ihr hr hrights]
    | _ => cases h

end Expr

/-- What was read of a text equals itself, and if what was read of two texts is equal, nothing
tells them apart: trees are shown alike and both give the same value, bit by bit, or
the same runtime error at the same operator. -/
theorem equal_readings_alike (a b : String) :
    Expr.equals? (Reading.ofSource a).expr (Reading.ofSource a).expr = true ∧
    (Expr.equals? (Reading.ofSource a).expr (Reading.ofSource b).expr = true →
      (Reading.ofSource a).expr.map Expr.display = (Reading.ofSource b).expr.map Expr.display ∧
      ∀ e f, (Reading.ofSource a).expr = some e → (Reading.ofSource b).expr = some f →
        (∃ v, e.value = .ok v ∧ f.value = .ok v) ∨
        ∃ error, e.value = .error (.runtime error) ∧ f.value = .error (.runtime error)) := by
  generalize hreading : (Reading.ofSource a).expr = left
  generalize hreading' : (Reading.ofSource b).expr = right
  cases left with
  | none => cases right with
    | none => exact ⟨rfl, fun _ => ⟨rfl, nofun⟩⟩
    | some f => exact ⟨rfl, nofun⟩
  | some e =>
    have he := scanned_of_reading hreading
    refine ⟨he.equals_self, fun h => ?_⟩
    cases right with
    | none => cases h
    | some f =>
      obtain rfl : e = f := he.eq_of_equals (scanned_of_reading hreading') h
      refine ⟨rfl, fun e' f' he' hf' => ?_⟩
      obtain rfl : e = e' := Option.some.inj he'
      obtain rfl : e = f' := Option.some.inj hf'
      cases hv : e.value with
      | ok v => exact .inl ⟨v, rfl, rfl⟩
      | error fault => cases fault with
        | runtime error => exact .inr ⟨error, rfl, rfl⟩
        | defect d =>
          have hlegal := legal_of_parse (Reading.expr_ofTokens_iff.mp hreading)
          exact absurd hv (hlegal.ne_defect d)

theorem equal_readings_alike_minus :
    ∃ e f, (Reading.ofSource "-1.50").expr = some e ∧ (Reading.ofSource "- 1.5").expr = some f ∧
      e.display = f.display ∧
      ((∃ v, e.value = .ok v ∧ f.value = .ok v) ∨
        ∃ error, e.value = .error (.runtime error) ∧ f.value = .error (.runtime error)) := by
  obtain ⟨hdisplay, hvalue⟩ := (equal_readings_alike "-1.50" "- 1.5").2 (by decide +kernel)
  have hleft : (Reading.ofSource "-1.50").expr.isSome = true := by decide +kernel
  have hright : (Reading.ofSource "- 1.5").expr.isSome = true := by decide +kernel
  obtain ⟨e, he⟩ := Option.isSome_iff_exists.mp hleft
  obtain ⟨f, hf⟩ := Option.isSome_iff_exists.mp hright
  rw [he, hf] at hdisplay
  exact ⟨e, f, he, hf, Option.some.inj hdisplay, hvalue e f he hf⟩

end Lox
