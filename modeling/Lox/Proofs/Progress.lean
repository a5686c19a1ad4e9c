import Lox.Proofs.Cursor
import Lox.Proofs.Runs
import Mathlib.Data.Prod.Lex

/-! The machine makes progress. A step takes a token, or it goes on where the cursor stands: from
a call to one of a lower rank, from a frame to the frames below it (`Moves.advances`). No call
gives an expression before a token is taken. So whatever is called later is behind the cursor of
a call, or of a lower rank, and the loop of a level comes back to its start two tokens on; what is
left to read with the rank, or with the frames, decreases at each step. -/

namespace Lox
namespace Machine

/-- How far a procedure stands above the group that it may end at. -/
def Procedure.rank : Procedure → Nat
  | expression => 7
  | nonterminal n => n.rank + 1
  | group => 0

/-- The frames that are left to resume. A level that has its right operand becomes one that has
its left operand. -/
def Frame.weight : Frame → Nat
  | right _ _ _ => 2
  | left _ | sign _ | group => 1

def weight : List Frame → Nat
  | [] => 0
  | frame :: frames => frame.weight + weight frames

/-- The procedure for a group is called before an opening parenthesis only. -/
def Called (ts : List Token) (p : Procedure) (position : Nat) : Prop :=
  p = .group → ∃ t, ts[position]? = some t ∧ t.kind = .symbol .leftParen

/-- All that a step does to the cursor and to the work at hand. -/
inductive Advances (ts : List Token) : State → State → Prop
  /-- A call makes another: behind a token, or where it stands and of a lower rank. -/
  | calls {p q frames frames' i j} : (i < j ∨ i = j ∧ q.rank < p.rank) → Called ts q j →
      Advances ts ⟨.call p, frames, i⟩ ⟨.call q, frames', j⟩
  | gives {p e frames frames' i j} : i < j →
      Advances ts ⟨.call p, frames, i⟩ ⟨.give e, frames', j⟩
  | resumes {p e frames frames' i j} : i < j → Called ts p j →
      Advances ts ⟨.give e, frames, i⟩ ⟨.call p, frames', j⟩
  | returns {e e' frames frames' i j} : i ≤ j → weight frames' < weight frames →
      Advances ts ⟨.give e, frames, i⟩ ⟨.give e', frames', j⟩

theorem called_expression (ts : List Token) (position : Nat) : Called ts .expression position := by
  intro h
  cases h

theorem called_nonterminal (ts : List Token) (n : Nonterminal) (position : Nat) :
    Called ts (.nonterminal n) position := by
  intro h
  cases h

theorem look_eq_next {ts : List Token} {position : Nat} {f : Token → Move} {s : State}
    (h : look ts position f = .next s) : ∃ t, ts[position]? = some t ∧ f t = .next s := by
  unfold look at h
  split at h
  · exact ⟨_, ‹_›, h⟩
  · cases h

theorem lt_advance {t : Token} (h : t.isEof = false) (position : Nat) :
    position < advance t position := by
  simp [advance, h]

theorem isEof_of_takes {t : Token} {wanted : TokenKind → Bool} (h : takes wanted t = true) :
    t.isEof = false := by
  have hand : (!t.isEof && wanted t.kind) = true := h
  simp at hand
  exact hand.1

theorem isEof_of_leaf? {t : Token} {v : Value} (h : t.leaf? = some v) : t.isEof = false := by
  rw [Bool.eq_false_iff]
  intro heof
  simp [Token.leaf?, Token.isEof_iff.mp heof] at h

theorem advances_call {ts : List Token} {p : Procedure} {frames : List Frame} {position : Nat}
    {s : State} (h : call ts frames position p = .next s) (hp : Called ts p position) :
    Advances ts ⟨.call p, frames, position⟩ s := by
  cases p with
  | expression =>
    cases h
    exact .calls (.inr ⟨rfl, by decide⟩) (called_nonterminal _ _ _)
  | group =>
    obtain ⟨t, ht, hs⟩ := look_eq_next h
    obtain ⟨t', ht', hopen⟩ := hp rfl
    obtain rfl : t = t' := Option.some.inj (ht.symm.trans ht')
    cases hs
    have hclear : t.isEof = false := by simp [Token.isEof, hopen]
    exact .calls (.inl (lt_advance hclear position)) (called_expression _ _)
  | nonterminal n =>
    cases n with
    | level l =>
      cases h
      exact .calls (.inr ⟨rfl, Nat.succ_lt_succ (Nonterminal.rank_operand_lt l)⟩)
        (called_nonterminal _ _ _)
    | unary =>
      obtain ⟨t, ht, hs⟩ := look_eq_next h
      split at hs
      · cases hs
        exact .calls (.inl (lt_advance (isEof_of_takes ‹_›) position)) (called_nonterminal _ _ _)
      · cases hs
        exact .calls (.inr ⟨rfl, by decide⟩) (called_nonterminal _ _ _)
    | primary =>
      obtain ⟨t, ht, hs⟩ := look_eq_next h
      split at hs
      · cases hs
        exact .calls (.inr ⟨rfl, by decide⟩) fun _ => ⟨t, ht, ‹_›⟩
      · split at hs
        · rename_i hleaf
          cases hs
          exact .gives (lt_advance (isEof_of_leaf? hleaf) position)
        · cases hs

theorem advances_give {ts : List Token} {e : Expr} {frames : List Frame} {position : Nat}
    {s : State} (h : give ts e position frames = .next s) :
    Advances ts ⟨.give e, frames, position⟩ s := by
  cases frames with
  | nil => cases h
  | cons frame frames =>
    cases frame with
    | right l left op =>
      cases h
      exact .returns (Nat.le_refl position) (by simp [weight, Frame.weight])
    | sign op =>
      cases h
      exact .returns (Nat.le_refl position) (by simp [weight, Frame.weight])
    | left l =>
      obtain ⟨t, ht, hs⟩ := look_eq_next h
      split at hs
      · cases hs
        exact .resumes (lt_advance (isEof_of_takes ‹_›) position) (called_nonterminal _ _ _)
      · cases hs
        exact .returns (Nat.le_refl position) (by simp [weight, Frame.weight])
    | group =>
      obtain ⟨t, ht, hs⟩ := look_eq_next h
      split at hs
      · cases hs
        exact .returns (le_advance t position) (by simp [weight, Frame.weight])
      · cases hs

/-- A group that is called next has its parenthesis before it. -/
def Ready (ts : List Token) (s : State) : Prop :=
  ∀ p, s.control = .call p → Called ts p s.position

theorem ready_give {ts : List Token} {e : Expr} {frames : List Frame} {position : Nat} :
    Ready ts ⟨.give e, frames, position⟩ := by
  intro p hp
  cases hp

theorem Moves.advances {ts : List Token} {s s' : State} (h : Moves ts s s') (hs : Ready ts s) :
    Advances ts s s' := by
  obtain ⟨control, frames, position⟩ := s
  cases control with
  | call p => exact advances_call h (hs p rfl)
  | give e => exact advances_give h

theorem Advances.ready {ts : List Token} {s s' : State} (h : Advances ts s s') : Ready ts s' := by
  intro p hp
  cases h with
  | calls _ hq | resumes _ hq =>
    cases hp
    exact hq
  | gives | returns => cases hp

/-! ## Runs -/

variable {ts : List Token}

/-- The cursor is behind a position, or it is there for a call of a lower rank. -/
def Later (p : Procedure) (position : Nat) (s : State) : Prop :=
  position < s.position ∨ position = s.position ∧ ∃ q, s.control = .call q ∧ q.rank < p.rank

theorem Later.advance {p : Procedure} {position : Nat} {s s' : State} (h : Later p position s)
    (hstep : Advances ts s s') : Later p position s' := by
  cases hstep with
  | @calls q r _ _ i j hlater _ =>
    rcases h with h | ⟨rfl, _, hq, hrank⟩
    · exact .inl (by simp only at h ⊢; omega)
    · cases hq
      rcases hlater with hlt | ⟨rfl, hr⟩
      · exact .inl hlt
      · exact .inr ⟨rfl, r, rfl, Nat.lt_trans hr hrank⟩
  | gives hlt =>
    rcases h with h | ⟨rfl, -⟩
    · exact .inl (Nat.lt_trans h hlt)
    · exact .inl hlt
  | resumes hlt | returns hle =>
    rcases h with h | ⟨-, _, hq, -⟩
    · exact .inl (by simp only at h ⊢; omega)
    · cases hq

/-- Whatever is reached from a call is later, and ready. -/
theorem later_of_call {p : Procedure} {frames : List Frame} {position : Nat} {s : State}
    (hp : Called ts p position)
    (h : Relation.TransGen (Moves ts) ⟨.call p, frames, position⟩ s) :
    Later p position s ∧ Ready ts s := by
  induction h with
  | single hmove =>
    have hready : Ready ts ⟨.call p, frames, position⟩ := by
      rintro q hq
      cases hq
      exact hp
    have hstep := hmove.advances hready
    refine ⟨?_, hstep.ready⟩
    cases hstep with
    | @calls _ q _ _ _ _ hlater _ =>
      rcases hlater with hlt | ⟨rfl, hq⟩
      · exact .inl hlt
      · exact .inr ⟨rfl, q, rfl, hq⟩
    | gives hlt => exact .inl hlt
  | tail _ hmove ih =>
    obtain ⟨hlater, hready⟩ := ih
    have hstep := hmove.advances hready
    exact ⟨hlater.advance hstep, hstep.ready⟩

/-- After an expression was given at a position with frames of a weight to resume: as long as
nothing is called, the weight decreases; a call is behind a token; and what comes after a call is
behind a second one. -/
inductive Resumed (n position : Nat) : State → Prop
  | gives {e frames j} : position ≤ j → weight frames < n →
      Resumed n position ⟨.give e, frames, j⟩
  | calls {p frames j} : position < j → Resumed n position ⟨.call p, frames, j⟩
  | behind {s} : position + 2 ≤ s.position → Resumed n position s

theorem Resumed.advance {n position : Nat} {s s' : State} (h : Resumed n position s)
    (hstep : Advances ts s s') : Resumed n position s' := by
  cases h with
  | gives hle hn =>
    cases hstep with
    | resumes hlt _ => exact .calls (Nat.lt_of_le_of_lt hle hlt)
    | returns hle' hn' => exact .gives (Nat.le_trans hle hle') (Nat.lt_trans hn' hn)
  | calls hlt =>
    cases hstep with
    | calls hlater _ => exact .calls (by omega)
    | gives hlt' => exact .behind (by simp only; omega)
  | behind hle =>
    refine .behind (Nat.le_trans hle ?_)
    cases hstep <;> simp only <;> omega

theorem resumed_of_give {e : Expr} {frames : List Frame} {position : Nat} {s : State}
    (h : Relation.TransGen (Moves ts) ⟨.give e, frames, position⟩ s) :
    Resumed (weight frames) position s ∧ Ready ts s := by
  induction h with
  | single hmove =>
    have hstep := hmove.advances ready_give
    refine ⟨?_, hstep.ready⟩
    cases hstep with
    | resumes hlt _ => exact .calls hlt
    | returns hle hn => exact .gives hle hn
  | tail _ hmove ih =>
    obtain ⟨hresumed, hready⟩ := ih
    have hstep := hmove.advances hready
    exact ⟨hresumed.advance hstep, hstep.ready⟩

/-- A loop that comes back to its start has taken an operator and an operand. -/
theorem round_of_loop {left left' : Expr} {frames : List Frame} {i j : Nat}
    (h : Relation.TransGen (Moves ts) ⟨.give left, frames, i⟩ ⟨.give left', frames, j⟩) :
    i + 2 ≤ j := by
  cases (resumed_of_give h).1 with
  | gives _ hn => exact absurd hn (Nat.lt_irrefl _)
  | behind hle => exact hle

/-! ## Ends -/

/-- What is left to do where the cursor stands. -/
def State.level (s : State) : Nat :=
  match s.control with
  | .call p => p.rank
  | .give _ => weight s.frames

theorem Advances.measure_lt {s s' : State} {n : Nat} (h : Advances ts s s')
    (hn : s'.position ≤ n) :
    toLex (n - s'.position, s'.level) < toLex (n - s.position, s.level) := by
  rw [Prod.Lex.toLex_lt_toLex]
  cases h with
  | calls hlater _ =>
    rcases hlater with hlt | ⟨rfl, hrank⟩
    · exact .inl (by simp only at hn ⊢; omega)
    · exact .inr ⟨rfl, hrank⟩
  | gives hlt | resumes hlt => exact .inl (by simp only at hn ⊢; omega)
  | returns hle hweight =>
    rcases Nat.lt_or_eq_of_le hle with hlt | rfl
    · exact .inl (by simp only at hn ⊢; omega)
    · exact .inr ⟨rfl, hweight⟩

/-- What is left of the tokens up to the first end marker. -/
theorem Moves.measure_lt {s s' : State} (h : Moves ts s s')
    (hs : Ready ts s ∧ s.position ≤ ts.findIdx Token.isEof) :
    (Ready ts s' ∧ s'.position ≤ ts.findIdx Token.isEof) ∧
      toLex (ts.findIdx Token.isEof - s'.position, s'.level) <
        toLex (ts.findIdx Token.isEof - s.position, s.level) := by
  obtain ⟨hready, hposition⟩ := hs
  have hstep := h.advances hready
  have hposition' := h.position_le hposition
  exact ⟨⟨hstep.ready, hposition'⟩, hstep.measure_lt hposition'⟩

theorem At.of_le {body : List Token} {position : Nat} (h : position ≤ body.length) :
    At body position (body.drop position) :=
  ⟨body.take position, (List.take_append_drop position body).symm, List.length_take_of_le h⟩

/-- A call among the tokens ends, with an expression or with a problem. -/
theorem exists_arrives {body tail : List Token} {stop : Token} (c : Cut ts body stop tail)
    {p : Procedure} (frames : List Frame) {position : Nat} (hposition : position ≤ body.length)
    (hp : Called ts p position) :
    ∃ outcome, Arrives ts body stop ⟨.call p, frames, position⟩ frames outcome := by
  have hat : At body position (body.drop position) := .of_le hposition
  cases p with
  | expression => exact ⟨_, .after rfl (follows c .expression _ position frames hat)⟩
  | nonterminal n => exact ⟨_, follows c n _ position frames hat⟩
  | group =>
    obtain ⟨t, ht, hopen⟩ := hp rfl
    have hhead := (hat.getElem? c).symm.trans ht
    cases hrest : body.drop position with
    | nil =>
      -- an end marker is no parenthesis
      rw [hrest] at hhead
      obtain rfl : stop = t := Option.some.inj hhead
      cases hopen.symm.trans (Token.isEof_iff.mp c.marker)
    | cons t' after =>
      rw [hrest] at hat
      exact ⟨_, arrives_group c hat (follows c .expression after) frames⟩

end Machine

open Machine

/-- The machine makes progress. Let a procedure be called at a position that is not behind the
first end marker; where it is the one for a group, an opening parenthesis stands there. Then the
call ends, with an expression or with a problem. An expression is only given behind the position.
All that is called from then on is behind the position, or it is there and of a lower rank, so the
number of tokens left with the rank decreases. A loop that comes back to its start has taken two
tokens at least. There is no run without end, and from its start the machine ends with what
parsing gives. -/
theorem calls_make_progress (ts : List Token) (p : Procedure) (frames : List Frame)
    (position : Nat) (h : Marked ts) (hposition : position ≤ ts.findIdx Token.isEof)
    (hp : p = .group → ∃ t, ts[position]? = some t ∧ t.kind = .symbol .leftParen) :
    ((∃ e i, Reaches ts ⟨.call p, frames, position⟩ ⟨.give e, frames, i⟩) ∨
      ∃ last problem, Reaches ts ⟨.call p, frames, position⟩ last ∧
        step ts last = .stop (.error problem)) ∧
    (∀ e frames' i, Reaches ts ⟨.call p, frames, position⟩ ⟨.give e, frames', i⟩ →
      position + 1 ≤ i ∧ i ≤ ts.findIdx Token.isEof) ∧
    (∀ q frames' i,
      Relation.TransGen (Moves ts) ⟨.call p, frames, position⟩ ⟨.call q, frames', i⟩ →
        (position < i ∨ position = i ∧ q.rank < p.rank) ∧
        toLex (ts.length - i, q.rank) < toLex (ts.length - position, p.rank)) ∧
    (∀ l left left' frames' i j,
      Reaches ts ⟨.call p, frames, position⟩ ⟨.give left, .left l :: frames', i⟩ →
      Relation.TransGen (Moves ts) ⟨.give left, .left l :: frames', i⟩
        ⟨.give left', .left l :: frames', j⟩ → i + 2 ≤ j) ∧
    (∀ run : Nat → State, run 0 = ⟨.call p, frames, position⟩ →
      ¬ ∀ n, Moves ts (run n) (run (n + 1))) ∧
    ∃ last result, Reaches ts start last ∧ step ts last = .stop result ∧
      parse ts = result.mapError ParseFailure.problem := by
  obtain ⟨body, stop, tail, c⟩ := h.cut
  have hlength : ts.findIdx Token.isEof < ts.length :=
    List.findIdx_lt_length.mpr ⟨stop, by simp [c.eq], c.marker⟩
  refine ⟨?_, fun e frames' i hreach => ?_, fun q frames' i hcalls => ?_,
    fun l left left' frames' i j _ hround => round_of_loop hround, fun run hstart => ?_,
    reaches_stop c h⟩
  · obtain ⟨outcome, harrives⟩ := exists_arrives c frames (c.findIdx ▸ hposition) hp
    cases outcome with
    | ok r =>
      obtain ⟨i, -, hreach⟩ := harrives
      exact .inl ⟨r.1, i, hreach⟩
    | error stuck =>
      obtain ⟨last, hreach, hstop⟩ := harrives
      exact .inr ⟨last, _, hreach, hstop⟩
  · refine ⟨?_, hreach.position_le hposition⟩
    rcases Relation.reflTransGen_iff_eq_or_transGen.mp hreach with heq | hmoves
    · cases heq
    · rcases (later_of_call hp hmoves).1 with hlt | ⟨-, q, hq, -⟩
      · exact hlt
      · cases hq
  · have hreach : Reaches ts ⟨.call p, frames, position⟩ ⟨.call q, frames', i⟩ :=
      hcalls.to_reflTransGen
    have hle := hreach.position_le hposition
    have hlater : position < i ∨ position = i ∧ q.rank < p.rank := by
      rcases (later_of_call hp hcalls).1 with hlt | ⟨heq, q', hq, hrank⟩
      · exact .inl hlt
      · cases hq
        exact .inr ⟨heq, hrank⟩
    refine ⟨hlater, Prod.Lex.toLex_lt_toLex.mpr ?_⟩
    rcases hlater with hlt | ⟨rfl, hrank⟩
    · exact .inl (by omega)
    · exact .inr ⟨rfl, hrank⟩
  · refine not_forall_moves _ (fun _ _ => Moves.measure_lt) ⟨?_, ?_⟩
    · rw [hstart]
      rintro q hq
      cases hq
      exact hp
    · rw [hstart]
      exact hposition

/-- The group of `- ( nil )`, called where its parenthesis stands: the tokens behind the first end
marker do not make it longer. -/
theorem calls_make_progress_group :
    Marked [⟨.symbol .minus, "-", none, 1⟩, ⟨.symbol .leftParen, "(", none, 1⟩,
      ⟨.keyword .nil, "nil", none, 1⟩, ⟨.symbol .rightParen, ")", none, 1⟩, .eof 1,
      ⟨.symbol .rightParen, ")", none, 1⟩, .eof 2] ∧
    (∀ e frames i, Reaches [⟨.symbol .minus, "-", none, 1⟩, ⟨.symbol .leftParen, "(", none, 1⟩,
      ⟨.keyword .nil, "nil", none, 1⟩, ⟨.symbol .rightParen, ")", none, 1⟩, .eof 1,
      ⟨.symbol .rightParen, ")", none, 1⟩, .eof 2] ⟨.call .group, [], 1⟩ ⟨.give e, frames, i⟩ →
        2 ≤ i ∧ i ≤ 4) := by
  have hmarked : Marked [⟨.symbol .minus, "-", none, 1⟩, ⟨.symbol .leftParen, "(", none, 1⟩,
      ⟨.keyword .nil, "nil", none, 1⟩, ⟨.symbol .rightParen, ")", none, 1⟩, .eof 1,
      ⟨.symbol .rightParen, ")", none, 1⟩, .eof 2] :=
    ⟨[⟨.symbol .minus, "-", none, 1⟩, ⟨.symbol .leftParen, "(", none, 1⟩,
      ⟨.keyword .nil, "nil", none, 1⟩, ⟨.symbol .rightParen, ")", none, 1⟩, .eof 1,
      ⟨.symbol .rightParen, ")", none, 1⟩], .eof 2, rfl, rfl⟩
  obtain ⟨-, hgives, -⟩ := calls_make_progress _ .group [] 1 hmarked (by decide)
    fun _ => ⟨_, rfl, rfl⟩
  exact ⟨hmarked, hgives⟩

end Lox
