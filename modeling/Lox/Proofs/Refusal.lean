import Lox.Proofs.Reader

/-! Where the reader stops. What it has taken so far begins an expression (`Begins`) and
leaves one thing wanted, an operand or the parenthesis that closes a group; the reader gives
up exactly before tokens that `Refuse` it (`outcome_eq_error_iff`). Whatever begins an
expression can be completed, and its last token tells which of the two is wanted. -/

namespace Lox
open Nonterminal

namespace Grammar

/-- The tokens begin what a nonterminal derives, and the next has to give what is wanted. -/
inductive Begins : Nonterminal → List Token → Expectation → Prop
  | start : Begins .primary [] .expression
  | tighter {n operators m p want} : Tier n operators m → Begins m p want → Begins n p want
  | operand {n operators m p q left op want} : Tier n operators m → Derives n p left →
      op.kind ∈ operators.map .symbol → Begins m q want → Begins n (p ++ op :: q) want
  | signed {op p want} : op.kind ∈ [.symbol .bang, .symbol .minus] → Begins .unary p want →
      Begins .unary (op :: p) want
  | primary {p want} : Begins .primary p want → Begins .unary p want
  | inside {opening p want} : opening.kind = .symbol .leftParen → Begins .expression p want →
      Begins .primary (opening :: p) want
  | closing {opening p e} : opening.kind = .symbol .leftParen → Derives .expression p e →
      Begins .primary (opening :: p) .closingParen

/-- The next token does not give what is wanted. Where a parenthesis is wanted, an operator
would do as well: it goes on with what stands inside. -/
def Refuses : Expectation → List Token → Prop
  | .expression, rest => ∀ t ∈ rest.head?,
      t.kind.isUnaryOperator = false ∧ t.kind ≠ .symbol .leftParen ∧ t.leaf? = none
  | .closingParen, rest => expression.Stops rest ∧ ∀ t ∈ rest.head?, t.kind ≠ .symbol .rightParen

/-- An end marker gives nothing that is wanted, no more than the end of the tokens. -/
theorem refuses_headD {stop : Token} (hs : stop.isEof = true) (want : Expectation)
    (rest : List Token) : Refuses want [rest.headD stop] ↔ Refuses want rest := by
  cases rest with
  | cons t rest => cases want <;> rfl
  | nil =>
    have hk : stop.kind = .eof := eq_of_beq hs
    cases want with
    | expression => simp [Refuses, hk, TokenKind.isUnaryOperator, Token.leaf?]
    | closingParen =>
      simp [Refuses, hk, stops_nil, stops_cons, operators_expression, binaryOperators]

/-! ## What is begun and refused is an error -/

theorem outcome_unary_of_not_signed {ts : List Token}
    (h : ∀ t ∈ ts.head?, t.kind.isUnaryOperator = false) :
    Nonterminal.unary.outcome ts = Nonterminal.primary.outcome ts := by
  cases ts with
  | nil => rw [outcome_unary_nil, outcome_primary_nil]
  | cons t rest =>
    have ht : t.kind.isUnaryOperator = false := h t rfl
    rw [outcome_unary_cons, if_neg (by simp [ht])]

/-- No sign stands before a primary expression that has begun. -/
theorem Begins.not_signed {p rest : List Token} {want : Expectation} (h : Begins .primary p want)
    (hr : Refuses want rest) : ∀ t ∈ (p ++ rest).head?, t.kind.isUnaryOperator = false := by
  intro t ht
  cases h with
  | tighter hn | operand hn => cases hn
  | start => exact (hr t ht).1
  | inside ho | closing ho =>
    obtain rfl : _ = t := Option.some.inj ht
    rw [ho]
    rfl

theorem outcome_of_begins {n : Nonterminal} {p : List Token} {want : Expectation}
    (h : Begins n p want) :
    ∀ rest, Refuses want rest → n.outcome (p ++ rest) = .error ⟨want, rest⟩ := by
  induction h with
  | start =>
    intro rest hr
    cases rest with
    | nil => exact outcome_primary_nil
    | cons t rest =>
      obtain ⟨-, hopen, hleaf⟩ := hr t rfl
      rw [List.nil_append, outcome_primary_cons, if_neg hopen, hleaf]
  | tighter ht _ ih =>
    obtain ⟨l, rfl, rfl, rfl⟩ := ht.eq_level
    intro rest hr
    rw [outcome_level, ih rest hr]
    rfl
  | @operand _ _ _ p q left op want ht hleft hop _ ih =>
    obtain ⟨l, rfl, rfl, rfl⟩ := ht.eq_level
    intro rest hr
    have ha : l.accepts op.kind = true := accepts_iff.mpr hop
    -- `op` stops the operand before it, so the loop of the level comes to it with `left` in hand.
    calc (level l).outcome ((p ++ op :: q) ++ rest)
        = (level l).outcome (p ++ op :: (q ++ rest)) := by simp
      _ = l.outcome left (op :: (q ++ rest)) :=
        outcome_of_derives hleft _ (stops_operand_of_accepts ha _)
      _ = (l.operand.outcome (q ++ rest)).bind fun r => l.outcome (.binary left op r.1) r.2 := by
        rw [Level.outcome_cons, if_pos ha]
      _ = .error ⟨want, rest⟩ := by
        rw [ih rest hr]
        rfl
  | signed hop _ ih =>
    intro rest hr
    rw [List.cons_append, outcome_unary_cons, if_pos (isUnaryOperator_iff.mpr hop), ih rest hr]
    rfl
  | primary hp ih =>
    intro rest hr
    rw [outcome_unary_of_not_signed (hp.not_signed hr), ih rest hr]
  | inside ho _ ih =>
    intro rest hr
    rw [List.cons_append, outcome_primary_cons, if_pos ho, ih rest hr]
    rfl
  | @closing opening p e ho he =>
    intro rest hr
    obtain ⟨hstops, hclose⟩ := hr
    have hread : expression.outcome (p ++ rest) = .ok (e, rest) :=
      outcome_eq_ok_iff.mpr ⟨⟨p, rfl, he⟩, hstops⟩
    rw [List.cons_append, outcome_primary_cons, if_pos ho, hread]
    cases rest with
    | nil => rfl
    | cons t rest => exact if_neg (hclose t rfl)

/-! ## An error is something begun and refused -/

theorem bind_eq_error {ε α β : Type} {x : Except ε α} {f : α → Except ε β} {s : ε}
    (h : x.bind f = .error s) : x = .error s ∨ ∃ a, x = .ok a ∧ f a = .error s := by
  cases x with
  | error s' => exact .inl (congrArg Except.error (Except.error.inj h))
  | ok a => exact .inr ⟨a, rfl, h⟩

theorem map_eq_error {ε α β : Type} {x : Except ε α} {f : α → β} {s : ε}
    (h : x.map f = .error s) : x = .error s := by
  cases x with
  | error s' => exact congrArg Except.error (Except.error.inj h)
  | ok a => cases h

theorem closeGroup_eq_error {e : Expr} {ts : List Token} {s : Stuck}
    (h : closeGroup e ts = .error s) :
    s = ⟨.closingParen, ts⟩ ∧ ∀ t ∈ ts.head?, t.kind ≠ .symbol .rightParen := by
  cases ts with
  | nil =>
    cases h
    exact ⟨rfl, nofun⟩
  | cons t rest =>
    rw [closeGroup] at h
    split at h
    · cases h
    · rename_i hclose
      cases h
      refine ⟨rfl, fun u hu => ?_⟩
      obtain rfl : t = u := Option.some.inj hu
      exact hclose

/-- Signs are taken before the reader looks for a primary expression. -/
def Unsigned (n : Nonterminal) (ts : List Token) : Prop :=
  n = .primary → ∀ t ∈ ts.head?, t.kind.isUnaryOperator = false

/-- Where the reader gives up it has begun something that the next token refuses. -/
def GivesUp (n : Nonterminal) (ts : List Token) : Prop :=
  ∀ s, n.outcome ts = .error s → Unsigned n ts →
    ∃ p, ts = p ++ s.rest ∧ Begins n p s.expected ∧ Refuses s.expected s.rest

def GivesUpAfter (l : Level) (left : Expr) (ts : List Token) : Prop :=
  ∀ s, l.outcome left ts = .error s →
    ∃ q, ts = q ++ s.rest ∧ (∀ p, Derives (.level l) p left → Begins (.level l) (p ++ q) s.expected) ∧
      Refuses s.expected s.rest

theorem operand_ne_primary (l : Level) : l.operand ≠ .primary := by
  cases l <;> exact nofun

theorem givesUp_level {l : Level} {ts : List Token} (operand : GivesUp l.operand ts)
    (more : ∀ e rest, rest.length < ts.length → GivesUpAfter l e rest) : GivesUp (.level l) ts := by
  intro s h _
  rw [outcome_level] at h
  rcases bind_eq_error h with ho | ⟨⟨left, middle⟩, ho, hmore⟩
  · obtain ⟨p, hp, hbegins, hr⟩ := operand s ho fun hl => absurd hl (operand_ne_primary l)
    exact ⟨p, hp, .tighter (tier_level l) hbegins, hr⟩
  · obtain ⟨⟨p, rfl, hleft⟩, -⟩ := outcome_eq_ok_iff.mp ho
    obtain ⟨q, rfl, hgrow, hr⟩ := more left middle (length_lt_of_outcome ho) s hmore
    exact ⟨p ++ q, (List.append_assoc ..).symm, hgrow p (.tighter (tier_level l) hleft), hr⟩

theorem givesUp_unary {ts : List Token}
    (operand : ∀ op rest, ts = op :: rest → GivesUp .unary rest) (primary : GivesUp .primary ts) :
    GivesUp .unary ts := by
  intro s h _
  by_cases hsigned : ∀ t ∈ ts.head?, t.kind.isUnaryOperator = false
  · rw [outcome_unary_of_not_signed hsigned] at h
    obtain ⟨p, hp, hbegins, hr⟩ := primary s h fun _ => hsigned
    exact ⟨p, hp, .primary hbegins, hr⟩
  · cases ts with
    | nil => exact absurd nofun hsigned
    | cons op ts =>
      have hop : op.kind.isUnaryOperator = true := by simpa using hsigned
      rw [outcome_unary_cons, if_pos hop] at h
      obtain ⟨p, rfl, hbegins, hr⟩ := operand op ts rfl s (map_eq_error h) nofun
      exact ⟨op :: p, rfl, .signed (isUnaryOperator_iff.mp hop) hbegins, hr⟩

theorem givesUp_primary {ts : List Token}
    (inner : ∀ t rest, ts = t :: rest → GivesUp .expression rest) : GivesUp .primary ts := by
  intro s h hsigned
  cases ts with
  | nil =>
    rw [outcome_primary_nil] at h
    cases h
    exact ⟨[], rfl, .start, nofun⟩
  | cons t ts =>
    rw [outcome_primary_cons] at h
    split at h
    · rename_i hopen
      rcases bind_eq_error h with ho | ⟨⟨e, after⟩, ho, hend⟩
      · obtain ⟨p, rfl, hbegins, hr⟩ := inner t ts rfl s ho nofun
        exact ⟨t :: p, rfl, .inside hopen hbegins, hr⟩
      · obtain ⟨⟨p, rfl, he⟩, hstops⟩ := outcome_eq_ok_iff.mp ho
        obtain ⟨rfl, hclose⟩ := closeGroup_eq_error hend
        exact ⟨t :: p, rfl, .closing hopen he, hstops, hclose⟩
    · rename_i hopen
      split at h
      · cases h
      · rename_i hleaf
        cases h
        refine ⟨[], rfl, .start, fun u hu => ?_⟩
        obtain rfl : t = u := Option.some.inj hu
        exact ⟨hsigned rfl t rfl, hopen, hleaf⟩

theorem givesUpAfter {l : Level} {left : Expr} {ts : List Token}
    (operand : ∀ op rest, ts = op :: rest → GivesUp l.operand rest)
    (more : ∀ e rest, rest.length < ts.length → GivesUpAfter l e rest) :
    GivesUpAfter l left ts := by
  intro s h
  cases ts with
  | nil =>
    rw [Level.outcome_nil] at h
    cases h
  | cons op ts =>
    rw [Level.outcome_cons] at h
    split at h
    · rename_i ha
      have hop := accepts_iff.mp ha
      rcases bind_eq_error h with ho | ⟨⟨right, after⟩, ho, hmore⟩
      -- it failed in the right operand, or later, with the binary expression as the left one
      · obtain ⟨q, rfl, hbegins, hr⟩ :=
          operand op ts rfl s ho fun hl => absurd hl (operand_ne_primary l)
        exact ⟨op :: q, rfl, fun p hleft => .operand (tier_level l) hleft hop hbegins, hr⟩
      · obtain ⟨⟨q, rfl, hright⟩, -⟩ := outcome_eq_ok_iff.mp ho
        have hlt : after.length < (op :: (q ++ after)).length :=
          Nat.lt_succ_of_lt (length_lt_of_outcome ho)
        obtain ⟨q', rfl, hgrow, hr⟩ := more _ after hlt s hmore
        refine ⟨op :: q ++ q', by simp, fun p hleft => ?_, hr⟩
        have hall := hgrow _ (.binary (tier_level l) hleft hop hright)
        simpa using hall
    · cases h

theorem givesUp (n : Nonterminal) (ts : List Token) : GivesUp n ts :=
  -- along the reader's own recursion: a nonterminal on tokens, a level's loop on fewer of them
  (descent (P := GivesUp) (Q := GivesUpAfter) (fun _ _ => givesUp_level) (fun _ => givesUp_unary)
    (fun _ => givesUp_primary) (fun _ _ _ => givesUpAfter)).1 n ts

/-- A reading fails exactly where something has begun that the next token refuses. -/
theorem outcome_eq_error_iff {n : Nonterminal} {ts : List Token} {s : Stuck} (hn : n ≠ .primary) :
    n.outcome ts = .error s ↔
      ∃ p, ts = p ++ s.rest ∧ Begins n p s.expected ∧ Refuses s.expected s.rest := by
  constructor
  · intro h
    exact givesUp n ts s h fun hp => absurd hp hn
  · intro h
    obtain ⟨p, rfl, hbegins, hr⟩ := h
    exact outcome_of_begins hbegins s.rest hr

/-! ## What has begun can be completed -/

/-- Some way to go on, by operands `nil` and the parentheses that are due. -/
theorem Begins.exists_derives {n : Nonterminal} {p : List Token} {want : Expectation}
    (h : Begins n p want) : ∃ q e, Derives n (p ++ q) e := by
  induction h with
  | start => exact ⟨[⟨.keyword .nil, "nil", none, 1⟩], _, .terminal (.nil rfl)⟩
  | tighter ht _ ih =>
    obtain ⟨q, e, he⟩ := ih
    exact ⟨q, e, .tighter ht he⟩
  | operand ht hleft hop _ ih =>
    obtain ⟨q, e, he⟩ := ih
    exact ⟨q, _, by simpa using Derives.binary ht hleft hop he⟩
  | signed hop _ ih =>
    obtain ⟨q, e, he⟩ := ih
    exact ⟨q, _, .signed hop he⟩
  | primary _ ih =>
    obtain ⟨q, e, he⟩ := ih
    exact ⟨q, e, .primary he⟩
  | @inside opening p _ ho _ ih =>
    obtain ⟨q, e, he⟩ := ih
    have hgroup : Derives .primary (opening :: (p ++ q) ++ [⟨.symbol .rightParen, ")", none, 1⟩])
        (.group e) := .group ho he rfl
    exact ⟨q ++ [⟨.symbol .rightParen, ")", none, 1⟩], _, by simpa using hgroup⟩
  | closing ho he => exact ⟨[⟨.symbol .rightParen, ")", none, 1⟩], _, .group ho he rfl⟩

theorem Begins.not_eof {n : Nonterminal} {p : List Token} {want : Expectation}
    (h : Begins n p want) : ∀ t ∈ p, t.isEof = false := by
  obtain ⟨q, e, he⟩ := h.exists_derives
  exact fun t ht => he.not_eof t (List.mem_append_left q ht)

/-! ## The token before the one at fault -/

/-- The kinds that an expression can end with. -/
def finalKinds : List TokenKind :=
  [.number, .string, .keyword .true, .keyword .false, .keyword .nil, .symbol .rightParen]

/-- The last token can be that of an expression. -/
def Finished (p : List Token) : Prop :=
  ∃ t ∈ p.getLast?, t.kind ∈ finalKinds

theorem finished_append_cons {p q : List Token} {op : Token} (h : op.kind ∉ finalKinds) :
    Finished (p ++ op :: q) ↔ Finished q := by
  rw [Finished, Finished, List.getLast?_append, List.getLast?_cons]
  cases hq : q.getLast? with
  | none => simp [h]
  | some t => simp

theorem not_final_of_operator {l : Level} {kind : TokenKind} (h : kind ∈ l.symbols.map .symbol) :
    kind ∉ finalKinds := by
  revert kind
  cases l <;> decide

theorem not_final_of_opening {kind : TokenKind} (h : kind = .symbol .leftParen) :
    kind ∉ finalKinds := by
  rw [h]
  decide

theorem not_final_of_sign {kind : TokenKind} (h : kind ∈ [.symbol .bang, .symbol .minus]) :
    kind ∉ finalKinds := by
  revert kind
  decide

theorem Derives.finished {n : Nonterminal} {p : List Token} {e : Expr} (h : Derives n p e) :
    Finished p := by
  induction h with
  | tighter _ _ ih => exact ih
  | primary _ ih => exact ih
  | binary ht _ hop _ _ ihr =>
    obtain ⟨l, rfl, rfl, rfl⟩ := ht.eq_level
    exact (finished_append_cons (not_final_of_operator hop)).mpr ihr
  | signed hop _ ih => exact (finished_append_cons (p := []) (not_final_of_sign hop)).mpr ih
  | @terminal t v ht =>
    refine ⟨t, rfl, ?_⟩
    cases ht <;> simp [finalKinds, *]
  | group _ _ hc => exact ⟨_, List.getLast?_concat, by simp [finalKinds, hc]⟩

/-- A closing parenthesis is wanted exactly behind a finished expression. -/
theorem Begins.closingParen_iff {n : Nonterminal} {p : List Token} {want : Expectation}
    (h : Begins n p want) : want = .closingParen ↔ Finished p := by
  induction h with
  | start => simp [Finished]
  | tighter _ _ ih => exact ih
  | primary _ ih => exact ih
  | operand ht _ hop _ ih =>
    obtain ⟨l, rfl, rfl, rfl⟩ := ht.eq_level
    exact ih.trans (finished_append_cons (not_final_of_operator hop)).symm
  | signed hop _ ih => exact ih.trans (finished_append_cons (p := []) (not_final_of_sign hop)).symm
  | inside ho _ ih => exact ih.trans (finished_append_cons (p := []) (not_final_of_opening ho)).symm
  | closing ho he =>
    have hf := (finished_append_cons (p := []) (not_final_of_opening ho)).mpr he.finished
    exact ⟨fun _ => hf, fun _ => rfl⟩

end Grammar

end Lox
