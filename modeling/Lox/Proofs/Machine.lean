import Lox.Proofs.Accepted
import Lox.Proofs.Runs

/-! The descent as a machine that moves a cursor over the tokens. A procedure that waits for
another is a frame on a stack, and all that a step sees of the tokens is the one at the cursor,
should there be one. A step leaves the cursor where it is or passes the token there
(`within_step`), but no end marker; so in whatever state is reached the cursor stands among the
tokens, not behind the first end marker and not before where it was. -/

namespace Lox
namespace Machine
open Nonterminal

/-- One procedure for each nonterminal, one for an expression as a whole and one for what an
opening parenthesis begins. -/
inductive Procedure where
  | expression
  | nonterminal (n : Nonterminal)
  | group
  deriving DecidableEq

/-- What a procedure wants the expression for that another reads for it. -/
inductive Frame where
  /-- As the left operand of a level, if one of its operators follows. -/
  | left (level : Level)
  | right (level : Level) (left : Expr) (operator : Token)
  | sign (operator : Token)
  | group
  deriving DecidableEq

inductive Control where
  | call (procedure : Procedure)
  | give (expr : Expr)
  deriving DecidableEq

structure State where
  control : Control
  frames : List Frame
  position : Nat
  deriving DecidableEq

def start : State :=
  ⟨.call .expression, [], 0⟩

inductive Move where
  | next (state : State)
  | stop (result : Except Problem Expr)
  | outOfRange

/-- What is done with the token at the cursor. -/
def look (ts : List Token) (position : Nat) (f : Token → Move) : Move :=
  match ts[position]? with
  | some t => f t
  | none => .outOfRange

/-- Behind the token, unless it is an end marker. -/
def advance (t : Token) (position : Nat) : Nat :=
  if t.isEof then position else position + 1

/-- The token is one of those that are wanted. An end marker never is. -/
def takes (wanted : TokenKind → Bool) (t : Token) : Bool :=
  !t.isEof && wanted t.kind

def call (ts : List Token) (frames : List Frame) (position : Nat) : Procedure → Move
  | .expression => .next ⟨.call (.nonterminal .expression), frames, position⟩
  | .nonterminal (.level l) =>
    .next ⟨.call (.nonterminal l.operand), .left l :: frames, position⟩
  | .nonterminal .unary => look ts position fun t =>
    if takes TokenKind.isUnaryOperator t then
      .next ⟨.call (.nonterminal .unary), .sign t :: frames, advance t position⟩
    else .next ⟨.call (.nonterminal .primary), frames, position⟩
  | .nonterminal .primary => look ts position fun t =>
    if t.kind = .symbol .leftParen then .next ⟨.call .group, frames, position⟩
    else match t.leaf? with
      | some v => .next ⟨.give (.literal v), frames, advance t position⟩
      | none => .stop (.error (.expected .expression t))
  | .group => look ts position fun t =>
    .next ⟨.call .expression, .group :: frames, advance t position⟩

def give (ts : List Token) (e : Expr) (position : Nat) : List Frame → Move
  | [] => .stop (.ok e)
  | .left l :: frames => look ts position fun t =>
    if takes l.accepts t then
      .next ⟨.call (.nonterminal l.operand), .right l e t :: frames, advance t position⟩
    else .next ⟨.give e, frames, position⟩
  | .right l left op :: frames => .next ⟨.give (.binary left op e), .left l :: frames, position⟩
  | .sign op :: frames => .next ⟨.give (.unary op e), frames, position⟩
  | .group :: frames => look ts position fun t =>
    if takes (· == .symbol .rightParen) t then .next ⟨.give (.group e), frames, advance t position⟩
    else .stop (.error (.expected .closingParen t))

def step (ts : List Token) (s : State) : Move :=
  match s.control with
  | .call procedure => call ts s.frames s.position procedure
  | .give e => give ts e s.position s.frames

/-- One step of the machine. -/
def Moves (ts : List Token) (s s' : State) : Prop :=
  step ts s = .next s'

def Reaches (ts : List Token) : State → State → Prop :=
  Relation.ReflTransGen (Moves ts)

/-! ## Where the cursor goes -/

/-- All that a step does to the cursor at a position: it leaves it there or passes the token that
it stands on, and it goes out of range only where there is none. -/
def Move.Within (ts : List Token) (position : Nat) : Move → Prop
  | next s =>
    s.position = position ∨ ∃ t, ts[position]? = some t ∧ s.position = advance t position
  | stop _ => True
  | outOfRange => ts[position]? = none

theorem within_look {ts : List Token} {position : Nat} {f : Token → Move}
    (h : ∀ t, ts[position]? = some t → (f t).Within ts position) :
    (look ts position f).Within ts position := by
  unfold look
  split
  · exact h _ ‹_›
  · assumption

theorem within_call (ts : List Token) (frames : List Frame) (position : Nat)
    (procedure : Procedure) : (call ts frames position procedure).Within ts position := by
  cases procedure with
  | expression => exact .inl rfl
  | group => exact within_look fun t ht => .inr ⟨t, ht, rfl⟩
  | nonterminal n =>
    cases n with
    | level l => exact .inl rfl
    | unary =>
      refine within_look fun t ht => ?_
      split
      · exact .inr ⟨t, ht, rfl⟩
      · exact .inl rfl
    | primary =>
      refine within_look fun t ht => ?_
      split
      · exact .inl rfl
      · split
        · exact .inr ⟨t, ht, rfl⟩
        · trivial

theorem within_give (ts : List Token) (e : Expr) (position : Nat) (frames : List Frame) :
    (give ts e position frames).Within ts position := by
  cases frames with
  | nil => trivial
  | cons frame frames =>
    cases frame with
    | right | sign => exact .inl rfl
    | left l =>
      refine within_look fun t ht => ?_
      split
      · exact .inr ⟨t, ht, rfl⟩
      · exact .inl rfl
    | group =>
      refine within_look fun t ht => ?_
      split
      · exact .inr ⟨t, ht, rfl⟩
      · trivial

theorem within_step (ts : List Token) (s : State) : (step ts s).Within ts s.position := by
  unfold step
  split
  · exact within_call ..
  · exact within_give ..

theorem Moves.within {ts : List Token} {s s' : State} (h : Moves ts s s') :
    s'.position = s.position ∨ ∃ t, ts[s.position]? = some t ∧ s'.position = advance t s.position := by
  have hstep := within_step ts s
  rw [h] at hstep
  exact hstep

theorem le_advance (t : Token) (position : Nat) : position ≤ advance t position := by
  unfold advance
  split <;> omega

theorem Moves.le_position {ts : List Token} {s s' : State} (h : Moves ts s s') :
    s.position ≤ s'.position := by
  rcases h.within with hs | ⟨t, -, hs⟩
  · exact Nat.le_of_eq hs.symm
  · exact hs ▸ le_advance t s.position

/-- No step passes the first end marker. -/
theorem Moves.position_le {ts : List Token} {s s' : State} (h : Moves ts s s')
    (hs : s.position ≤ ts.findIdx Token.isEof) : s'.position ≤ ts.findIdx Token.isEof := by
  rcases h.within with hs' | ⟨t, ht, hs'⟩
  · omega
  · rw [hs', advance]
    split
    · exact hs
    · rename_i hclear
      -- the token at the marker is one, so the cursor stands before it
      have hne : s.position ≠ ts.findIdx Token.isEof := by
        intro he
        obtain ⟨hlt, rfl⟩ := List.getElem?_eq_some_iff.mp ht
        simp only [he] at hlt hclear
        exact hclear (List.findIdx_getElem (w := hlt))
      omega

theorem Reaches.le_position {ts : List Token} {s s' : State} (h : Reaches ts s s') :
    s.position ≤ s'.position := by
  induction h with
  | refl => exact Nat.le_refl _
  | tail _ hmove ih => exact Nat.le_trans ih hmove.le_position

theorem Reaches.position_le {ts : List Token} {s s' : State} (h : Reaches ts s s')
    (hs : s.position ≤ ts.findIdx Token.isEof) : s'.position ≤ ts.findIdx Token.isEof :=
  kept_of_reaches (·.position ≤ ts.findIdx Token.isEof) (fun _ _ => Moves.position_le) h hs

theorem exists_token {ts : List Token} (h : Marked ts) {position : Nat}
    (hp : position ≤ ts.findIdx Token.isEof) : ∃ t, ts[position]? = some t := by
  obtain ⟨front, stop, rfl, hstop⟩ := h
  have hlt : (front ++ [stop]).findIdx Token.isEof < (front ++ [stop]).length :=
    List.findIdx_lt_length.mpr ⟨stop, by simp, Token.isEof_iff.mpr hstop⟩
  exact ⟨_, List.getElem?_eq_getElem (Nat.lt_of_le_of_lt hp hlt)⟩

theorem step_ne_outOfRange {ts : List Token} {s : State} {t : Token}
    (h : ts[s.position]? = some t) : step ts s ≠ .outOfRange := by
  intro hstep
  have hwithin := within_step ts s
  rw [hstep] at hwithin
  cases h.symm.trans hwithin

end Machine
end Lox
