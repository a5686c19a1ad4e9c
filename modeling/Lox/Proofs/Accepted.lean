import Lox.Proofs.Reader

/-! Which lists of tokens are parsed, and to what. The reader sees the tokens before the
first end marker (`Marked.split`); a list that ends with a marker is parsed exactly when a
part at its front is an expression that no binary operator follows. -/

namespace Lox
open Grammar Nonterminal

/-- The last token of the list is an end marker. -/
def Marked (ts : List Token) : Prop :=
  ∃ front stop, ts = front ++ [stop] ∧ stop.kind = .eof

/-- A list of tokens, cut at its first end marker. -/
structure Cut (ts body : List Token) (stop : Token) (tail : List Token) : Prop where
  eq : ts = body ++ stop :: tail
  clear : ∀ t ∈ body, t.isEof = false
  marker : stop.isEof = true

theorem cut_iff {ts : List Token} {stop : Token} :
    ts.find? Token.isEof = some stop ↔ ∃ body tail, Cut ts body stop tail := by
  rw [List.find?_eq_some_iff_append]
  constructor
  · intro h
    obtain ⟨hs, body, tail, hts, hb⟩ := h
    exact ⟨body, tail, hts, fun t ht => by simpa using hb t ht, hs⟩
  · intro h
    obtain ⟨body, tail, hts, hb, hs⟩ := h
    exact ⟨hs, body, tail, hts, fun t ht => by simp [hb t ht]⟩

theorem Marked.cut {ts : List Token} (h : Marked ts) : ∃ body stop tail, Cut ts body stop tail := by
  obtain ⟨front, last, rfl, hlast⟩ := h
  have hsome : ((front ++ [last]).find? Token.isEof).isSome = true :=
    List.find?_isSome.mpr ⟨last, by simp, by simp [Token.isEof, hlast]⟩
  obtain ⟨stop, hstop⟩ := Option.isSome_iff_exists.mp hsome
  obtain ⟨body, tail, c⟩ := cut_iff.mp hstop
  exact ⟨body, stop, tail, c⟩

theorem marked_iff {ts : List Token} : Marked ts ↔ ts.getLast?.any Token.isEof = true := by
  simp only [Option.any_eq_true, List.getLast?_eq_some_iff, Token.isEof, beq_iff_eq]
  constructor
  · intro h
    obtain ⟨front, stop, rfl, hs⟩ := h
    exact ⟨stop, ⟨front, rfl⟩, hs⟩
  · intro h
    obtain ⟨stop, ⟨front, rfl⟩, hs⟩ := h
    exact ⟨front, stop, rfl, hs⟩

theorem parse_eq_outcome (ts : List Token) :
    parse ts = match endMarker? ts with
      | none => .error .unmarked
      | some stop => match expression.outcome (ts.takeWhile fun t => !t.isEof) with
        | .ok r => .ok r.1
        | .error s => .error (.problem (.expected s.expected (s.rest.headD stop))) := by
  unfold parse outcome
  cases endMarker? ts with
  | none => rfl
  | some stop => cases expression.read (ts.takeWhile fun t => !t.isEof) <;> rfl

theorem parse_of_not_marked {ts : List Token} (h : ¬ Marked ts) : parse ts = .error .unmarked := by
  rw [marked_iff] at h
  rw [parse_eq_outcome, endMarker?, if_neg h]

/-- A parsed tree is derived from the front of the tokens. -/
theorem exists_derives_of_parse {ts : List Token} {e : Expr} (h : parse ts = .ok e) :
    ∃ p rest, ts = p ++ rest ∧ Derives .expression p e := by
  rw [parse_eq_outcome] at h
  split at h
  · cases h
  · split at h
    · rename_i r hread
      cases h
      obtain ⟨⟨p, hp, he⟩, -⟩ := outcome_eq_ok_iff.mp hread
      have hts := List.takeWhile_append_dropWhile (p := fun t => !t.isEof) (l := ts)
      rw [hp, List.append_assoc] at hts
      exact ⟨p, _, hts.symm, he⟩
    · cases h

namespace Cut

variable {ts body tail : List Token} {stop : Token}

theorem endMarker? (c : Cut ts body stop tail) (h : Marked ts) : Lox.endMarker? ts = some stop := by
  rw [Lox.endMarker?, if_pos (marked_iff.mp h), cut_iff.mpr ⟨body, tail, c⟩]

theorem takeWhile (c : Cut ts body stop tail) : (ts.takeWhile fun t => !t.isEof) = body := by
  rw [c.eq, List.takeWhile_append_of_pos fun t ht => by simp [c.clear t ht]]
  simp [c.marker]

/-- Parsing reads an expression from what stands before the first end marker. -/
theorem parse (c : Cut ts body stop tail) (h : Marked ts) :
    Lox.parse ts = match expression.outcome body with
      | .ok r => .ok r.1
      | .error s => .error (.problem (.expected s.expected (s.rest.headD stop))) := by
  rw [parse_eq_outcome, c.endMarker? h, c.takeWhile]

theorem parse_eq_ok_iff (c : Cut ts body stop tail) (h : Marked ts) {e : Expr} :
    Lox.parse ts = .ok e ↔ ∃ rest, expression.outcome body = .ok (e, rest) := by
  rw [c.parse h]
  cases expression.outcome body with
  | error s => simp
  | ok r =>
    obtain ⟨e', rest⟩ := r
    simp

/-- A part of the list that holds no end marker stands before the first one. -/
theorem body_eq_append (c : Cut ts body stop tail) {p rest : List Token} {t : Token}
    (h : ts = p ++ t :: rest) (hp : ∀ t ∈ p, t.isEof = false) :
    ∃ after, body = p ++ after ∧ t = after.headD stop := by
  rcases List.append_eq_append_iff.mp (c.eq.symm.trans h) with ⟨q, hq, hrest⟩ | ⟨q, hq, hrest⟩
  · cases q with
    | nil =>
      obtain ⟨rfl, _⟩ := List.cons.inj hrest
      exact ⟨[], by simpa using hq.symm, rfl⟩
    | cons s q =>
      have hs : stop = s := (List.cons.inj hrest).1
      have := hp stop (by simp [hq, hs])
      simp [c.marker] at this
  · cases q with
    | nil =>
      obtain ⟨rfl, _⟩ := List.cons.inj hrest
      exact ⟨[], hq, rfl⟩
    | cons s q =>
      obtain ⟨rfl, _⟩ := List.cons.inj hrest
      exact ⟨t :: q, hq, rfl⟩

end Cut

theorem parse_eq_ok_of_derives {p : List Token} {e : Expr} {stop : Token}
    (h : Derives .expression p e) (hs : stop.kind = .eof) : parse (p ++ [stop]) = .ok e := by
  have c : Cut (p ++ [stop]) p stop [] := ⟨rfl, h.not_eof, by simp [Token.isEof, hs]⟩
  have hread : expression.outcome p = .ok (e, []) :=
    outcome_eq_ok_iff.mpr ⟨⟨p, (List.append_nil p).symm, h⟩, stops_nil _⟩
  rw [c.parse ⟨p, stop, rfl, hs⟩, hread]

/-- The front part `p` of a list of tokens is an expression with tree `e`, and the token
behind it is no binary operator. -/
def Accepts (ts p : List Token) (e : Expr) : Prop :=
  ∃ next rest, ts = p ++ next :: rest ∧ Derives .expression p e ∧ next.kind ∉ binaryOperators

theorem stops_expression_iff {stop : Token} (hs : stop.isEof = true) {rest : List Token} :
    expression.Stops rest ↔ (rest.headD stop).kind ∉ binaryOperators := by
  cases rest with
  | nil =>
    have hk : stop.kind = .eof := eq_of_beq hs
    simp [stops_nil, hk, binaryOperators]
  | cons t rest => rw [stops_cons, operators_expression]; rfl

theorem Cut.accepts_iff {ts body tail p : List Token} {stop : Token} {e : Expr}
    (c : Cut ts body stop tail) :
    Accepts ts p e ↔ ∃ rest, body = p ++ rest ∧ expression.outcome body = .ok (e, rest) := by
  constructor
  · intro h
    obtain ⟨next, rest, hts, hp, hnext⟩ := h
    obtain ⟨after, rfl, rfl⟩ := c.body_eq_append hts hp.not_eof
    exact ⟨after, rfl, outcome_eq_ok_iff.mpr
      ⟨⟨p, rfl, hp⟩, (stops_expression_iff c.marker).mpr hnext⟩⟩
  · intro hread
    obtain ⟨rest, rfl, h⟩ := hread
    obtain ⟨⟨q, hq, hp⟩, hstops⟩ := outcome_eq_ok_iff.mp h
    obtain rfl := List.append_cancel_right hq
    refine ⟨rest.headD stop, (rest ++ stop :: tail).tail, ?_, hp,
      (stops_expression_iff c.marker).mp hstops⟩
    rw [c.eq]
    cases rest <;> simp

/-- The parser accepts exactly its grammar. -/
theorem parse_eq_ok_iff_accepts (ts : List Token) :
    (Marked ts → (∀ e, parse ts = .ok e ↔ ∃ p, Accepts ts p e) ∧
      ∀ p q e f, Accepts ts p e → Accepts ts q f → p = q ∧ e = f) ∧
    (¬ Marked ts → ∀ e, parse ts ≠ .ok e) := by
  refine ⟨fun h => ?_, fun h e => by simp [parse_of_not_marked h]⟩
  obtain ⟨body, stop, tail, c⟩ := h.cut
  constructor
  · intro e
    rw [c.parse h]
    cases ho : expression.outcome body with
    | error s => simp [c.accepts_iff, ho]
    | ok r =>
      obtain ⟨⟨p, hp, _⟩, _⟩ := outcome_eq_ok_iff.mp ho
      constructor
      · intro he
        cases he
        exact ⟨p, c.accepts_iff.mpr ⟨r.2, hp, ho⟩⟩
      · intro haccepts
        obtain ⟨q, hq⟩ := haccepts
        obtain ⟨rest, _, hr⟩ := c.accepts_iff.mp hq
        rw [ho] at hr
        cases hr
        rfl
  · intro p q e f hp hq
    obtain ⟨rest, hb, hr⟩ := c.accepts_iff.mp hp
    obtain ⟨rest', hb', hr'⟩ := c.accepts_iff.mp hq
    rw [hr] at hr'
    cases hr'
    exact ⟨List.append_cancel_right (hb.symm.trans hb'), rfl⟩

end Lox
