import Lox.Proofs.Descent
import Lox.Proofs.Grammar

/-! The reader against the grammar. What is read is derived and stops where nothing goes
on (`reads`); what is derived and so stopped is read (`outcome_of_derives`), by way of
the left operand that a level goes on after (`resume`). `outcome_eq_ok_iff` has both. -/

namespace Lox
open Grammar

namespace Nonterminal

/-- What an expression already read leads to: a level goes on after it. -/
def resume (n : Nonterminal) (e : Expr) (rest : List Token) : Outcome :=
  match n with
  | level l => l.outcome e rest
  | unary | primary => .ok (e, rest)

/-- A level goes on at nothing that its operand has not stopped before. -/
def Ready (n : Nonterminal) (rest : List Token) : Prop :=
  match n with
  | level l => l.operand.Stops rest
  | unary | primary => True

theorem Stops.ready {n : Nonterminal} {rest : List Token} (h : n.Stops rest) : n.Ready rest := by
  cases n with
  | level l => exact (stops_level.mp h).2
  | unary | primary => trivial

theorem resume_of_stops {n : Nonterminal} {rest : List Token} (h : n.Stops rest) (e : Expr) :
    n.resume e rest = .ok (e, rest) := by
  cases n with
  | unary | primary => rfl
  | level l =>
    obtain ⟨hfirst, _⟩ := stops_level.mp h
    cases rest with
    | nil => exact l.outcome_nil e
    | cons t rest =>
      have ht : l.accepts t.kind = false := hfirst t rfl
      simp [resume, Level.outcome_cons, ht]

end Nonterminal

open Nonterminal

/-- A reading is a derivation of what it took, and goes on as far as it can. -/
def Reads (n : Nonterminal) (ts : List Token) : Prop :=
  ∀ e rest, n.outcome ts = .ok (e, rest) →
    (∃ p, ts = p ++ rest ∧ Derives n p e) ∧ n.Stops rest

/-- Going on after a left operand derives more of the level, as far as it can. -/
def GoesOn (l : Level) (left : Expr) (ts : List Token) : Prop :=
  ∀ e rest, l.outcome left ts = .ok (e, rest) → l.operand.Stops ts →
    (∃ q, ts = q ++ rest ∧ ∀ p, Derives (.level l) p left → Derives (.level l) (p ++ q) e) ∧
      (Nonterminal.level l).Stops rest

theorem reads_level {l : Level} {ts : List Token} (operand : Reads l.operand ts)
    (more : ∀ e rest, rest.length < ts.length → GoesOn l e rest) : Reads (.level l) ts := by
  intro e rest h
  rw [outcome_level] at h
  obtain ⟨⟨left, middle⟩, ho, h⟩ := bind_eq_ok h
  obtain ⟨⟨p, hp, hleft⟩, hstops⟩ := operand left middle ho
  obtain ⟨⟨q, hq, hgrow⟩, hrest⟩ := more left middle (length_lt_of_outcome ho) e rest h hstops
  have hall : Derives (.level l) (p ++ q) e := hgrow p (.tighter (tier_level l) hleft)
  exact ⟨⟨p ++ q, by rw [hp, hq, List.append_assoc], hall⟩, hrest⟩

theorem reads_unary {ts : List Token} (operand : ∀ op rest, ts = op :: rest → Reads .unary rest)
    (primary : Reads .primary ts) : Reads .unary ts := by
  intro e rest h
  refine ⟨?_, stops_unary rest⟩
  cases ts with
  | nil => simp [outcome_unary_nil] at h
  | cons op ts =>
    rw [outcome_unary_cons] at h
    split at h
    · rename_i hop
      obtain ⟨⟨inner, after⟩, ho, h⟩ := map_eq_ok h
      obtain ⟨rfl, rfl⟩ := Prod.mk.inj h
      obtain ⟨⟨p, rfl, hp⟩, _⟩ := operand op ts rfl inner after ho
      exact ⟨op :: p, rfl, .signed (isUnaryOperator_iff.mp hop) hp⟩
    · obtain ⟨⟨p, hp, he⟩, _⟩ := primary e rest h
      exact ⟨p, hp, .primary he⟩

theorem reads_primary {ts : List Token}
    (inner : ∀ t rest, ts = t :: rest → Reads .expression rest) : Reads .primary ts := by
  intro e rest h
  refine ⟨?_, stops_primary rest⟩
  cases ts with
  | nil => simp [outcome_primary_nil] at h
  | cons t ts =>
    rw [outcome_primary_cons] at h
    split at h
    · rename_i hopen
      obtain ⟨⟨e', after⟩, ho, h⟩ := bind_eq_ok h
      obtain ⟨⟨p, hp, he⟩, _⟩ := inner t ts rfl e' after ho
      obtain ⟨closing, rfl, hclose, rfl⟩ := closeGroup_eq_ok h
      exact ⟨t :: p ++ [closing], by simp [hp], .group hopen he hclose⟩
    · split at h
      · rename_i v hv
        cases h
        exact ⟨[t], rfl, .terminal (terminal_iff.mpr hv)⟩
      · cases h

theorem goesOn {l : Level} {left : Expr} {ts : List Token}
    (operand : ∀ op rest, ts = op :: rest → Reads l.operand rest)
    (more : ∀ e rest, rest.length < ts.length → GoesOn l e rest) : GoesOn l left ts := by
  intro e rest h hstops
  cases ts with
  | nil =>
    rw [Level.outcome_nil] at h
    cases h
    exact ⟨⟨[], rfl, by simp⟩, stops_nil _⟩
  | cons op ts =>
    rw [Level.outcome_cons] at h
    split at h
    · rename_i hop
      obtain ⟨⟨right, after⟩, ho, h⟩ := bind_eq_ok h
      obtain ⟨⟨p, hp, hright⟩, hafter⟩ := operand op ts rfl right after ho
      have hlt : after.length < (op :: ts).length := Nat.lt_succ_of_lt (length_lt_of_outcome ho)
      obtain ⟨⟨q, hq, hgrow⟩, hrest⟩ := more _ after hlt e rest h hafter
      refine ⟨⟨op :: p ++ q, by rw [hp, hq]; simp, fun p' hleft => ?_⟩, hrest⟩
      have hall := hgrow _ (.binary (tier_level l) hleft (accepts_iff.mp hop) hright)
      simpa using hall
    · rename_i hop
      cases h
      refine ⟨⟨[], rfl, by simp⟩, stops_level.mpr ⟨?_, hstops⟩⟩
      intro t ht
      cases ht
      simpa using hop

theorem reads (n : Nonterminal) (ts : List Token) : Reads n ts :=
  (descent (P := Reads) (Q := GoesOn) (fun _ _ => reads_level) (fun _ => reads_unary)
    (fun _ => reads_primary) (fun _ _ _ => goesOn)).1 n ts

/-- Reading what is derived leads to what its tree leads to. -/
theorem outcome_of_derives {n : Nonterminal} {p : List Token} {e : Expr} (h : Derives n p e) :
    ∀ rest, n.Ready rest → n.outcome (p ++ rest) = n.resume e rest := by
  induction h with
  | tighter ht _ ih =>
    obtain ⟨l, rfl, rfl, rfl⟩ := ht.eq_level
    intro rest hrest
    rw [outcome_level, ih rest (Stops.ready hrest), resume_of_stops hrest]
    rfl
  | @binary _ _ _ p q left op right ht _ hop _ ihl ihr =>
    obtain ⟨l, rfl, rfl, rfl⟩ := ht.eq_level
    intro rest hrest
    have ha : l.accepts op.kind = true := accepts_iff.mpr hop
    calc (level l).outcome ((p ++ op :: q) ++ rest)
        = (level l).outcome (p ++ op :: (q ++ rest)) := by simp
      _ = l.outcome left (op :: (q ++ rest)) := ihl _ (stops_operand_of_accepts ha _)
      _ = (l.operand.outcome (q ++ rest)).bind fun r => l.outcome (.binary left op r.1) r.2 := by
        rw [Level.outcome_cons, if_pos ha]
      _ = l.outcome (.binary left op right) rest := by
        rw [ihr rest (Stops.ready hrest), resume_of_stops hrest]
        rfl
  | signed hop _ ih =>
    intro rest hrest
    rw [List.cons_append, outcome_unary_cons, if_pos (isUnaryOperator_iff.mpr hop), ih rest trivial]
    rfl
  | primary hp ih =>
    intro rest hrest
    obtain ⟨t, p, rfl, ht⟩ := hp.head_primary
    rw [List.cons_append, outcome_unary_cons, if_neg (by simp [ht])]
    exact ih rest trivial
  | terminal ht =>
    intro rest _
    have hv := terminal_iff.mp ht
    rw [List.singleton_append, outcome_primary_cons, if_neg ht.kind_ne_leftParen, hv]
    rfl
  | @group opening closing p e ho _ hc ih =>
    intro rest _
    have hstops : expression.Stops (closing :: rest) := by
      rw [stops_cons, hc]
      decide
    have hread : expression.outcome (p ++ closing :: rest) = .ok (e, closing :: rest) := by
      rw [ih _ (Stops.ready hstops), resume_of_stops hstops]
    calc primary.outcome ((opening :: p ++ [closing]) ++ rest)
        = primary.outcome (opening :: (p ++ closing :: rest)) := by simp
      _ = closeGroup e (closing :: rest) := by
        rw [outcome_primary_cons, if_pos ho, hread]
        rfl
      _ = .ok (.group e, rest) := by simp [closeGroup, hc]

/-- A nonterminal reads exactly what it derives, as far as nothing goes on. -/
theorem outcome_eq_ok_iff {n : Nonterminal} {ts rest : List Token} {e : Expr} :
    n.outcome ts = .ok (e, rest) ↔ (∃ p, ts = p ++ rest ∧ Derives n p e) ∧ n.Stops rest := by
  constructor
  · exact reads n ts e rest
  · intro h
    obtain ⟨⟨p, rfl, hp⟩, hstops⟩ := h
    rw [outcome_of_derives hp rest hstops.ready, resume_of_stops hstops]

end Lox
