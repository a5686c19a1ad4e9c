import Lox.Pass
import Lox.Proofs.Machine

/-! The machine does what the reader of expressions does. Called for a nonterminal before some
tokens it gives the tree that the reader reads of them, with the cursor behind, or it stops with
the reader's problem (`follows`, along the reader's own recursion). From its start it therefore
ends with what `parse` gives, having looked at no token behind the first end marker. -/

namespace Lox
namespace Machine
open Nonterminal

/-- The tokens of the list from the position on. -/
def At (body : List Token) (position : Nat) (rest : List Token) : Prop :=
  ∃ front, body = front ++ rest ∧ front.length = position

/-- A part of the descent is done with these tokens, and the machine with the cursor there. -/
def Arrives (ts body : List Token) (stop : Token) (s : State) (frames : List Frame) :
    Outcome → Prop
  | .ok (e, rest) => ∃ position, At body position rest ∧ Reaches ts s ⟨.give e, frames, position⟩
  | .error stuck => ∃ last, Reaches ts s last ∧
      step ts last = .stop (.error (.expected stuck.expected (stuck.rest.headD stop)))

section

variable {ts body tail : List Token} {stop : Token}

theorem At.advance {t : Token} {rest : List Token} {position : Nat}
    (h : At body position (t :: rest)) (ht : t.isEof = false) :
    At body (advance t position) rest := by
  obtain ⟨front, rfl, rfl⟩ := h
  exact ⟨front ++ [t], by simp, by simp [Machine.advance, ht]⟩

theorem At.getElem? (c : Cut ts body stop tail) {rest : List Token} {position : Nat}
    (h : At body position rest) : ts[position]? = some (rest.headD stop) := by
  obtain ⟨front, rfl, rfl⟩ := h
  rw [c.eq]
  cases rest <;> simp

theorem At.look (c : Cut ts body stop tail) {rest : List Token} {position : Nat}
    (h : At body position rest) (f : Token → Move) :
    look ts position f = f (rest.headD stop) := by
  rw [Machine.look, h.getElem? c]

theorem At.isEof (c : Cut ts body stop tail) {t : Token} {rest : List Token} {position : Nat}
    (h : At body position (t :: rest)) : t.isEof = false := by
  obtain ⟨front, rfl, -⟩ := h
  exact c.clear t (by simp)

theorem Arrives.after {s s' : State} {frames : List Frame} {outcome : Outcome}
    (hmove : Moves ts s s') (h : Arrives ts body stop s' frames outcome) :
    Arrives ts body stop s frames outcome := by
  cases outcome with
  | ok r =>
    obtain ⟨position, hat, hreach⟩ := h
    exact ⟨position, hat, .head hmove hreach⟩
  | error stuck =>
    obtain ⟨last, hreach, hstop⟩ := h
    exact ⟨last, .head hmove hreach, hstop⟩

/-- A frame is gone on with when the expression that it waits for has been read. -/
theorem Arrives.bind {s : State} {frames later : List Frame} {outcome : Outcome}
    {f : Expr × List Token → Outcome} (h : Arrives ts body stop s frames outcome)
    (hf : ∀ e rest position, outcome = .ok (e, rest) → At body position rest →
      Arrives ts body stop ⟨.give e, frames, position⟩ later (f (e, rest))) :
    Arrives ts body stop s later (outcome.bind f) := by
  cases outcome with
  | error stuck => exact h
  | ok r =>
    obtain ⟨e, rest⟩ := r
    obtain ⟨position, hat, hreach⟩ := h
    have hnext := hf e rest position rfl hat
    show Arrives ts body stop s later (f (e, rest))
    cases ho : f (e, rest) with
    | ok r =>
      rw [ho] at hnext
      obtain ⟨position', hat', hreach'⟩ := hnext
      exact ⟨position', hat', hreach.trans hreach'⟩
    | error stuck =>
      rw [ho] at hnext
      obtain ⟨last, hreach', hstop⟩ := hnext
      exact ⟨last, hreach.trans hreach', hstop⟩

theorem takes_marker (c : Cut ts body stop tail) (wanted : TokenKind → Bool) :
    takes wanted stop = false := by
  simp [takes, c.marker]

theorem takes_of_clear {t : Token} (h : t.isEof = false) (wanted : TokenKind → Bool) :
    takes wanted t = wanted t.kind := by
  simp [takes, h]

/-- The machine does what the reader does when it is called for a nonterminal before some
tokens of the list. -/
def Follows (ts body : List Token) (stop : Token) (n : Nonterminal) (rest : List Token) : Prop :=
  ∀ position frames, At body position rest →
    Arrives ts body stop ⟨.call (.nonterminal n), frames, position⟩ frames (n.outcome rest)

/-- The same behind a left operand. -/
def FollowsMore (ts body : List Token) (stop : Token) (l : Level) (left : Expr)
    (rest : List Token) : Prop :=
  ∀ position frames, At body position rest →
    Arrives ts body stop ⟨.give left, .left l :: frames, position⟩ frames (l.outcome left rest)

theorem follows_level {l : Level} {rest : List Token} (operand : Follows ts body stop l.operand rest)
    (more : ∀ e after, after.length < rest.length → FollowsMore ts body stop l e after) :
    Follows ts body stop (.level l) rest := by
  intro position frames hat
  have hmove : Moves ts ⟨.call (.nonterminal (.level l)), frames, position⟩
      ⟨.call (.nonterminal l.operand), .left l :: frames, position⟩ := rfl
  rw [outcome_level]
  refine .after hmove ((operand position _ hat).bind fun e after position' ho hat' => ?_)
  exact more e after (length_lt_of_outcome ho) position' frames hat'

theorem follows_unary (c : Cut ts body stop tail) {rest : List Token}
    (operand : ∀ op after, rest = op :: after → Follows ts body stop .unary after)
    (primary : Follows ts body stop .primary rest) : Follows ts body stop .unary rest := by
  intro position frames hat
  have hstep : step ts ⟨.call (.nonterminal .unary), frames, position⟩ = _ := hat.look c _
  cases rest with
  | nil =>
    rw [List.headD_nil, takes_marker c] at hstep
    rw [outcome_unary_nil, ← outcome_primary_nil]
    exact .after hstep (primary position frames hat)
  | cons op rest =>
    have hop := hat.isEof c
    rw [List.headD_cons, takes_of_clear hop] at hstep
    rw [outcome_unary_cons]
    split
    · rename_i hunary
      rw [if_pos hunary] at hstep
      have hinner := operand op rest rfl _ (.sign op :: frames) (hat.advance hop)
      have hmap : (Nonterminal.unary.outcome rest).map (fun r => (Expr.unary op r.1, r.2)) =
          (Nonterminal.unary.outcome rest).bind fun r => .ok (.unary op r.1, r.2) := by
        cases Nonterminal.unary.outcome rest <;> rfl
      rw [hmap]
      refine .after hstep (hinner.bind fun e after position' _ hat' => ?_)
      exact ⟨position', hat', .single rfl⟩
    · rename_i hunary
      rw [if_neg hunary] at hstep
      exact .after hstep (primary position frames hat)

theorem arrives_closeGroup (c : Cut ts body stop tail) (e : Expr) {rest : List Token}
    {position : Nat} (hat : At body position rest) (frames : List Frame) :
    Arrives ts body stop ⟨.give e, .group :: frames, position⟩ frames (closeGroup e rest) := by
  have hstep : step ts ⟨.give e, .group :: frames, position⟩ = _ := hat.look c _
  cases rest with
  | nil =>
    rw [List.headD_nil, takes_marker c] at hstep
    exact ⟨_, .refl, hstep⟩
  | cons closing after =>
    have hclosing := hat.isEof c
    rw [List.headD_cons, takes_of_clear hclosing] at hstep
    rw [closeGroup]
    split
    · rename_i hk
      rw [if_pos (by simp [hk])] at hstep
      exact ⟨_, hat.advance hclosing, .single hstep⟩
    · rename_i hk
      rw [if_neg (by simp [hk])] at hstep
      exact ⟨_, .refl, hstep⟩

/-- Behind its opening parenthesis. -/
theorem arrives_group (c : Cut ts body stop tail) {t : Token} {after : List Token}
    {position : Nat} (hat : At body position (t :: after))
    (inner : Follows ts body stop .expression after) (frames : List Frame) :
    Arrives ts body stop ⟨.call .group, frames, position⟩ frames
      ((Nonterminal.expression.outcome after).bind fun r => closeGroup r.1 r.2) := by
  have hgroup : Moves ts ⟨.call .group, frames, position⟩
      ⟨.call .expression, .group :: frames, Machine.advance t position⟩ := hat.look c _
  have hread := inner _ (.group :: frames) (hat.advance (hat.isEof c))
  refine .after hgroup (.after rfl (hread.bind fun e rest position' _ hat' => ?_))
  exact arrives_closeGroup c e hat' frames

theorem follows_primary (c : Cut ts body stop tail) {rest : List Token}
    (inner : ∀ t after, rest = t :: after → Follows ts body stop .expression after) :
    Follows ts body stop .primary rest := by
  intro position frames hat
  have hstep : step ts ⟨.call (.nonterminal .primary), frames, position⟩ = _ := hat.look c _
  cases rest with
  | nil =>
    have hk : stop.kind = .eof := Token.isEof_iff.mp c.marker
    rw [List.headD_nil, if_neg (by simp [hk])] at hstep
    simp only [Token.leaf?, hk] at hstep
    rw [outcome_primary_nil]
    exact ⟨_, .refl, hstep⟩
  | cons t after =>
    have ht := hat.isEof c
    rw [List.headD_cons] at hstep
    rw [outcome_primary_cons]
    split
    · rename_i hopen
      rw [if_pos hopen] at hstep
      exact .after hstep (arrives_group c hat (inner t after rfl) frames)
    · rename_i hopen
      rw [if_neg hopen] at hstep
      split
      · rename_i v hv
        rw [hv] at hstep
        exact ⟨_, hat.advance ht, .single hstep⟩
      · rename_i hv
        rw [hv] at hstep
        exact ⟨_, .refl, hstep⟩

theorem followsMore (c : Cut ts body stop tail) {l : Level} {left : Expr} {rest : List Token}
    (operand : ∀ op after, rest = op :: after → Follows ts body stop l.operand after)
    (more : ∀ e after, after.length < rest.length → FollowsMore ts body stop l e after) :
    FollowsMore ts body stop l left rest := by
  intro position frames hat
  have hstep : step ts ⟨.give left, .left l :: frames, position⟩ = _ := hat.look c _
  cases rest with
  | nil =>
    rw [List.headD_nil, takes_marker c] at hstep
    rw [Level.outcome_nil]
    exact ⟨_, hat, .single hstep⟩
  | cons op rest =>
    have hop := hat.isEof c
    rw [List.headD_cons, takes_of_clear hop] at hstep
    rw [Level.outcome_cons]
    split
    · rename_i ha
      rw [if_pos ha] at hstep
      have hright := operand op rest rfl _ (.right l left op :: frames) (hat.advance hop)
      refine .after hstep (hright.bind fun e after position' ho hat' => .after rfl ?_)
      have hlt : after.length < (op :: rest).length := Nat.lt_succ_of_lt (length_lt_of_outcome ho)
      exact more _ after hlt position' frames hat'
    · rename_i ha
      rw [if_neg ha] at hstep
      exact ⟨_, hat, .single hstep⟩

theorem follows (c : Cut ts body stop tail) (n : Nonterminal) (rest : List Token) :
    Follows ts body stop n rest :=
  (descent (P := Follows ts body stop) (Q := FollowsMore ts body stop) (fun _ _ => follows_level)
    (fun _ => follows_unary c) (fun _ => follows_primary c) (fun _ _ _ => followsMore c)).1 n rest

/-- The machine ends, with the tree or the problem that parsing gives. -/
theorem reaches_stop (c : Cut ts body stop tail) (h : Marked ts) :
    ∃ last result, Reaches ts start last ∧ step ts last = .stop result ∧
      parse ts = result.mapError ParseFailure.problem := by
  have hread := (follows c .expression body 0 [] ⟨[], rfl, rfl⟩).after (s := start) rfl
  rw [c.parse h]
  cases ho : Nonterminal.expression.outcome body with
  | ok r =>
    rw [ho] at hread
    obtain ⟨position, -, hreach⟩ := hread
    exact ⟨_, .ok r.1, hreach, rfl, rfl⟩
  | error stuck =>
    rw [ho] at hread
    obtain ⟨last, hreach, hstop⟩ := hread
    exact ⟨last, _, hreach, hstop, rfl⟩

end

end Machine

open Machine

namespace Cut

variable {ts body tail : List Token} {stop : Token}

theorem findIdx (c : Cut ts body stop tail) : ts.findIdx Token.isEof = body.length := by
  have hbody : body.findIdx Token.isEof = body.length := List.findIdx_eq_length_of_false c.clear
  rw [c.eq, List.findIdx_append, hbody, if_neg (Nat.lt_irrefl _), List.findIdx_cons, c.marker]
  simp

theorem take (c : Cut ts body stop tail) :
    ts.take (ts.findIdx Token.isEof + 1) = body ++ [stop] := by
  rw [c.findIdx, c.eq, List.take_length_add_append]
  rfl

/-- What stands behind the first end marker is nothing to the parser. -/
theorem parse_take (c : Cut ts body stop tail) (h : Marked ts) :
    Lox.parse (ts.take (ts.findIdx Token.isEof + 1)) = Lox.parse ts := by
  have hmarked : Marked (body ++ [stop]) := ⟨body, stop, rfl, Token.isEof_iff.mp c.marker⟩
  have hcut : Cut (body ++ [stop]) body stop [] := ⟨rfl, c.clear, c.marker⟩
  rw [c.take, hcut.parse hmarked, c.parse h]

end Cut

/-- The report of a reading is what parsing failed with. -/
theorem Reading.parse_eq_of_problems {ts : List Token} {p : Problem}
    (h : (ofTokens ts).problems = [p]) : parse ts = .error (.problem p) := by
  unfold ofTokens at h
  split at h
  · cases h
  · rename_i failure hparse
    cases failure with
    | unmarked => cases h
    | problem q =>
      obtain rfl : q = p := (List.cons.inj h).1
      exact hparse

/-- Nothing behind the first end marker matters, and the cursor stays in bounds. A list that ends
with a marker is parsed as what stands up to its first marker is, to the same tree or report;
the machine ends with that; and in every state that it reaches from its start, the cursor is not
behind the first marker, so there is a token to look at, nor before where it was earlier. -/
theorem cursor_stays_in_bounds (ts : List Token) (h : Marked ts) :
    parse (ts.take (ts.findIdx Token.isEof + 1)) = parse ts ∧
    (∀ ds, (Pass.parse (ts.take (ts.findIdx Token.isEof + 1))).run ds = (Pass.parse ts).run ds) ∧
    (∃ last result, Reaches ts start last ∧ step ts last = .stop result ∧
      parse ts = result.mapError ParseFailure.problem) ∧
    (∀ s, Reaches ts start s → s.position ≤ ts.findIdx Token.isEof ∧
      (∃ t, ts[s.position]? = some t) ∧ step ts s ≠ .outOfRange) ∧
    ∀ s s', Reaches ts start s → Reaches ts s s' → s.position ≤ s'.position := by
  obtain ⟨body, stop, tail, c⟩ := h.cut
  have hparse := c.parse_take h
  refine ⟨hparse, fun ds => ?_, reaches_stop c h, fun s hs => ?_, fun s s' _ hs' => hs'.le_position⟩
  · simp only [Pass.run, Reading.ofTokens, hparse]
  · have hle := hs.position_le (Nat.zero_le _)
    obtain ⟨t, ht⟩ := exists_token h hle
    exact ⟨hle, ⟨t, ht⟩, step_ne_outOfRange ht⟩

/-- A parenthesis is wanted at the first marker; the one behind it is not seen. -/
theorem cursor_stays_in_bounds_open :
    Marked [⟨.symbol .leftParen, "(", none, 1⟩, ⟨.keyword .nil, "nil", none, 1⟩, .eof 1,
      ⟨.symbol .rightParen, ")", none, 1⟩, .eof 2] ∧
    parse [⟨.symbol .leftParen, "(", none, 1⟩, ⟨.keyword .nil, "nil", none, 1⟩, .eof 1,
      ⟨.symbol .rightParen, ")", none, 1⟩, .eof 2] =
        .error (.problem (.expected .closingParen (.eof 1))) ∧
    ∀ s, Reaches [⟨.symbol .leftParen, "(", none, 1⟩, ⟨.keyword .nil, "nil", none, 1⟩, .eof 1,
      ⟨.symbol .rightParen, ")", none, 1⟩, .eof 2] start s → s.position ≤ 2 := by
  have hmarked : Marked [⟨.symbol .leftParen, "(", none, 1⟩, ⟨.keyword .nil, "nil", none, 1⟩,
      .eof 1, ⟨.symbol .rightParen, ")", none, 1⟩, .eof 2] :=
    ⟨[⟨.symbol .leftParen, "(", none, 1⟩, ⟨.keyword .nil, "nil", none, 1⟩, .eof 1,
      ⟨.symbol .rightParen, ")", none, 1⟩], .eof 2, rfl, rfl⟩
  have hfront : parse [⟨.symbol .leftParen, "(", none, 1⟩, ⟨.keyword .nil, "nil", none, 1⟩,
      .eof 1] = .error (.problem (.expected .closingParen (.eof 1))) :=
    Reading.parse_eq_of_problems (by decide +kernel)
  obtain ⟨hparse, -, -, hstates, -⟩ := cursor_stays_in_bounds _ hmarked
  exact ⟨hmarked, hparse.symm.trans hfront, fun s hs => (hstates s hs).1⟩

end Lox
