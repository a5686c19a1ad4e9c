import Lox.Pass
import Lox.Proofs.Accepted
import Lox.Proofs.Refusal

/-! The token that a syntax error names. Parsing fails when the tokens up to some place
begin an expression and the next one is refused (`parse_eq_error_iff`); what stands behind
that one is never looked at. So the place is where success becomes impossible: up to it the
list could still have been a part of an expression, one token further no continuation is
parsed. -/

namespace Lox
open Grammar Nonterminal

/-- The front part `p` of a list of tokens begins an expression, and the token behind it
does not give what is wanted there. -/
def Blames (ts p : List Token) (want : Expectation) (found : Token) : Prop :=
  ∃ rest, ts = p ++ found :: rest ∧ Begins .expression p want ∧ Refuses want [found]

theorem Cut.blames_iff {ts body tail p : List Token} {stop found : Token} {want : Expectation}
    (c : Cut ts body stop tail) :
    Blames ts p want found ↔ ∃ rest, body = p ++ rest ∧ found = rest.headD stop ∧
      expression.outcome body = .error ⟨want, rest⟩ := by
  constructor
  · intro h
    obtain ⟨rest, hts, hp, hr⟩ := h
    obtain ⟨after, rfl, rfl⟩ := c.body_eq_append hts hp.not_eof
    exact ⟨after, rfl, rfl, outcome_of_begins hp after ((refuses_headD c.marker want after).mp hr)⟩
  · intro h
    obtain ⟨rest, hbody, rfl, h⟩ := h
    obtain ⟨q, hq, hp, hr⟩ := (outcome_eq_error_iff (n := expression) nofun).mp h
    obtain rfl : p = q := List.append_cancel_right (hbody.symm.trans hq)
    refine ⟨(rest ++ stop :: tail).tail, ?_, hp, (refuses_headD c.marker want rest).mpr hr⟩
    rw [c.eq, hbody]
    cases rest <;> simp

theorem parse_eq_error_iff {ts : List Token} (h : Marked ts) {want : Expectation} {found : Token} :
    parse ts = .error (.problem (.expected want found)) ↔ ∃ p, Blames ts p want found := by
  obtain ⟨body, stop, tail, c⟩ := h.cut
  rw [c.parse h]
  cases ho : expression.outcome body with
  | ok r => simp [c.blames_iff, ho]
  | error s =>
    obtain ⟨p, hp, -⟩ := (outcome_eq_error_iff (n := expression) nofun).mp ho
    constructor
    · intro he
      cases he
      exact ⟨p, c.blames_iff.mpr ⟨s.rest, hp, rfl, ho⟩⟩
    · intro hblames
      obtain ⟨q, hq⟩ := hblames
      obtain ⟨rest, -, rfl, hr⟩ := c.blames_iff.mp hq
      obtain rfl : s = ⟨want, rest⟩ := Except.error.inj (ho.symm.trans hr)
      rfl

theorem exists_blames {ts : List Token} (h : Marked ts) (hfail : ∀ e, parse ts ≠ .ok e) :
    ∃ p want found, Blames ts p want found := by
  obtain ⟨body, stop, tail, c⟩ := h.cut
  cases ho : expression.outcome body with
  | ok r =>
    have hparse : parse ts = .ok r.1 := by rw [c.parse h, ho]
    exact absurd hparse (hfail r.1)
  | error s =>
    obtain ⟨p, hp, -⟩ := (outcome_eq_error_iff (n := expression) nofun).mp ho
    exact ⟨p, s.expected, _, c.blames_iff.mpr ⟨s.rest, hp, rfl, ho⟩⟩

/-! ## Where success becomes impossible -/

/-- The tokens can go on to a list that is parsed, with a tree that takes up all of them. -/
def Viable (front : List Token) : Prop :=
  ∃ rest p e, Marked (front ++ rest) ∧ parse (front ++ rest) = .ok e ∧
    Accepts (front ++ rest) p e ∧ front <+: p

/-- However the tokens go on, they are not parsed. -/
def Hopeless (front : List Token) : Prop :=
  ∀ rest e, Marked (front ++ rest) → parse (front ++ rest) ≠ .ok e

theorem Hopeless.not_viable {front longer : List Token} (h : Hopeless front)
    (hp : front <+: longer) : ¬ Viable longer := by
  intro hv
  obtain ⟨more, rfl⟩ := hp
  obtain ⟨rest, p, e, hmarked, hparse, -⟩ := hv
  rw [List.append_assoc] at hmarked hparse
  exact h (more ++ rest) e hmarked hparse

/-- The first `k` tokens are viable and one more makes them hopeless. The place is not
behind the first end marker. -/
structure BreaksAt (ts : List Token) (k : Nat) : Prop where
  le_marker : k ≤ ts.findIdx Token.isEof
  viable : Viable (ts.take k)
  hopeless : Hopeless (ts.take (k + 1))

theorem BreaksAt.unique {ts : List Token} {j k : Nat} (hj : BreaksAt ts j) (hk : BreaksAt ts k) :
    j = k := by
  have hle : ∀ {i m : Nat}, BreaksAt ts i → BreaksAt ts m → m ≤ i := by
    intro i m hi hm
    by_cases hlt : i < m
    · exact absurd hm.viable (hi.hopeless.not_viable (List.take_prefix_take_left hlt))
    · omega
  exact Nat.le_antisymm (hle hk hj) (hle hj hk)

theorem Grammar.Begins.viable {p : List Token} {want : Expectation}
    (h : Begins .expression p want) : Viable p := by
  obtain ⟨q, e, he⟩ := h.exists_derives
  have hparse : parse (p ++ q ++ [.eof 1]) = .ok e := parse_eq_ok_of_derives he rfl
  have haccepts : Accepts (p ++ q ++ [.eof 1]) (p ++ q) e := ⟨.eof 1, [], rfl, he, by decide⟩
  have hmarked : Marked (p ++ q ++ [.eof 1]) := ⟨p ++ q, .eof 1, rfl, rfl⟩
  rw [List.append_assoc] at hparse haccepts hmarked
  exact ⟨q ++ [.eof 1], p ++ q, e, hmarked, hparse, haccepts, List.prefix_append p q⟩

namespace Blames

variable {ts p : List Token} {want : Expectation} {found : Token}

/-- What stands behind the token at fault does not matter. -/
theorem of_take_eq (h : Blames ts p want found) {ts' : List Token}
    (ht : ts'.take (p.length + 1) = ts.take (p.length + 1)) : Blames ts' p want found := by
  obtain ⟨rest, rfl, hp, hr⟩ := h
  have hfront : (p ++ found :: rest).take (p.length + 1) = p ++ [found] :=
    List.take_length_add_append 1
  refine ⟨ts'.drop (p.length + 1), ?_, hp, hr⟩
  calc ts' = ts'.take (p.length + 1) ++ ts'.drop (p.length + 1) := (List.take_append_drop ..).symm
    _ = p ++ found :: ts'.drop (p.length + 1) := by rw [ht, hfront]; simp

theorem breaksAt (h : Blames ts p want found) : BreaksAt ts p.length := by
  obtain ⟨rest, rfl, hp, hr⟩ := h
  have hfront : (p ++ found :: rest).take (p.length + 1) = p ++ [found] :=
    List.take_length_add_append 1
  constructor
  · refine List.le_findIdx_of_not (by simp) fun j hj => ?_
    rw [List.getElem_append_left hj]
    exact hp.not_eof _ (List.getElem_mem hj)
  · rw [List.take_left]
    exact hp.viable
  · intro after e hmarked
    rw [hfront] at hmarked ⊢
    have hfails := (parse_eq_error_iff hmarked).mpr ⟨p, after, by simp, hp, hr⟩
    rw [hfails]
    exact nofun

end Blames

/-! ## The diagnostic -/

/-- The token before place `k` is one that an expression can end with. -/
def FollowsExpression (ts : List Token) (k : Nat) : Prop :=
  0 < k ∧ ∃ t, ts[k - 1]? = some t ∧ t.kind ∈ finalKinds

theorem Blames.closingParen_iff {ts p : List Token} {want : Expectation} {found : Token}
    (h : Blames ts p want found) : want = .closingParen ↔ FollowsExpression ts p.length := by
  obtain ⟨rest, rfl, hp, -⟩ := h
  rw [hp.closingParen_iff, Finished, FollowsExpression, List.getLast?_eq_getElem?]
  cases p with
  | nil => simp
  | cons t p =>
    have hlt : (t :: p).length - 1 < (t :: p).length := by simp
    rw [List.getElem?_append_left hlt]
    simp

theorem location_expected (want : Expectation) (found : Token) :
    (Problem.expected want found).location =
      if found.kind = .eof then " at end" else " at '" ++ found.lexeme ++ "'" := by
  rw [Problem.location]
  simp only [Token.isEof_iff]

theorem message_expected_iff {want : Expectation} {found : Token} :
    (Problem.expected want found).message = "Expect ')' after expression." ↔
      want = .closingParen := by
  have hne : "Expect expression." ≠ "Expect ')' after expression." := by decide
  cases want with
  | expression => exact iff_of_false hne nofun
  | closingParen => exact iff_of_true rfl rfl

/-- A syntax error names the first token that makes success impossible. A list that ends
with a marker is not parsed exactly when it breaks at some place. There is one such place,
and any list that agrees with it up to there has the one report that names the token found
there and, by the token before, what was wanted. -/
theorem parse_fails_iff_breaks (ts : List Token) (h : Marked ts) :
    ((∀ e, parse ts ≠ .ok e) ↔ ∃ k, BreaksAt ts k) ∧
    (∀ j k, BreaksAt ts j → BreaksAt ts k → j = k) ∧
    ∀ k, BreaksAt ts k → ∃ found d, ts[k]? = some found ∧
      d.line = found.line ∧
      d.location = (if found.kind = .eof then " at end" else " at '" ++ found.lexeme ++ "'") ∧
      (d.message = "Expect ')' after expression." ↔ FollowsExpression ts k) ∧
      (¬ FollowsExpression ts k → d.message = "Expect expression.") ∧
      ∀ ts', Marked ts' → ts'.take (k + 1) = ts.take (k + 1) →
        ∀ ds, (Pass.parse ts').run ds = (.expr none, ds.report d) := by
  have hfails : ∀ {k}, BreaksAt ts k → ∀ e, parse ts ≠ .ok e := by
    intro k hk e
    have hnot := hk.hopeless (ts.drop (k + 1)) e
    rw [List.take_append_drop] at hnot
    exact hnot h
  refine ⟨⟨fun hfail => ?_, fun hbreaks => ?_⟩, fun j k => BreaksAt.unique, fun k hk => ?_⟩
  · obtain ⟨p, want, found, hb⟩ := exists_blames h hfail
    exact ⟨p.length, hb.breaksAt⟩
  · obtain ⟨k, hk⟩ := hbreaks
    exact hfails hk
  · obtain ⟨p, want, found, hb⟩ := exists_blames h (hfails hk)
    -- the list breaks at one place only, so `k` is where the reader gave up
    obtain rfl : k = p.length := hk.unique hb.breaksAt
    have hwant := hb.closingParen_iff
    refine ⟨found, (Problem.expected want found).diagnostic, ?_, rfl, location_expected want found,
      message_expected_iff.trans hwant, fun hnot => ?_, ?_⟩
    · obtain ⟨rest, rfl, -⟩ := hb
      simp
    · cases want with
      | expression => rfl
      | closingParen => exact absurd (hwant.mp rfl) hnot
    · intro ts' hmarked htake ds
      have hb' : Blames ts' p want found := hb.of_take_eq htake
      exact Pass.run_parse_of_problem ((parse_eq_error_iff hmarked).mpr ⟨p, hb'⟩) ds

theorem parse_fails_in_open_group :
    Marked [⟨.symbol .leftParen, "(", none, 1⟩, ⟨.keyword .nil, "nil", none, 1⟩, .eof 2] ∧
    ∀ ds, (Pass.parse
        [⟨.symbol .leftParen, "(", none, 1⟩, ⟨.keyword .nil, "nil", none, 1⟩, .eof 2]).run ds =
      (.expr none, ds.report ⟨2, " at end", "Expect ')' after expression."⟩) := by
  let opening : Token := ⟨.symbol .leftParen, "(", none, 1⟩
  let operand : Token := ⟨.keyword .nil, "nil", none, 1⟩
  have hmarked : Marked [opening, operand, .eof 2] := ⟨[opening, operand], .eof 2, rfl, rfl⟩
  have hinside : Derives .expression [operand] (.literal .nil) :=
    (Derives.terminal (.nil rfl)).climb _ (rank_le_expression _)
  have hbegins : Begins .expression [opening, operand] .closingParen :=
    .tighter .equality (.tighter .comparison (.tighter .term (.tighter .factor
      (.primary (.closing rfl hinside)))))
  have hb : Blames [opening, operand, .eof 2] [opening, operand] .closingParen (.eof 2) :=
    ⟨[], rfl, hbegins, (refuses_headD rfl .closingParen []).mpr ⟨stops_nil _, nofun⟩⟩
  obtain ⟨-, -, hall⟩ := parse_fails_iff_breaks [opening, operand, .eof 2] hmarked
  obtain ⟨found, ⟨line, location, message⟩, hfound, hline, hlocation, hmessage, -, hrun⟩ :=
    hall 2 hb.breaksAt
  have hfollows : FollowsExpression [opening, operand, .eof 2] 2 :=
    ⟨by decide, operand, rfl, by decide⟩
  obtain rfl : Token.eof 2 = found := Option.some.inj hfound
  obtain rfl : line = 2 := hline
  obtain rfl : location = " at end" := hlocation
  obtain rfl : message = "Expect ')' after expression." := hmessage.mpr hfollows
  exact ⟨hmarked, hrun _ hmarked rfl⟩

end Lox
