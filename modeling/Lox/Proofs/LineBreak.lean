import Lox.Pass
import Lox.Proofs.Shift

/-! Scanning at line breaks. A line feed goes on with nothing but a string: whatever else ends
a text, be it digits with a point, a word, half of a symbol or a comment, ends before a line
feed as it does at the end (`Closed.lineFeed`). So two texts with a line feed between them are
scanned apart, unless the first leaves a string open. -/

namespace Lox

theorem NoMore.lineFeed {p : Char → Bool} {after : List Char} (h : NoMore p after)
    (hp : p '\n' = false) (more : List Char) : NoMore p (after ++ '\n' :: more) := by
  cases after with
  | nil => exact noMore_cons.mpr hp
  | cons c after => exact noMore_cons.mpr (noMore_cons.mp h)

namespace Segment

theorem head_lineFeed {c : Char} {after : List Char} (h : after.head? ≠ some c) (hc : c ≠ '\n')
    (more : List Char) : (after ++ '\n' :: more).head? ≠ some c := by
  cases after with
  | nil => exact fun he => hc (Option.some.inj he).symm
  | cons d after => exact h

theorem Closed.lineFeed {s : Segment} {after : List Char} (h : s.Closed after)
    (hs : ∀ body, s ≠ openString body) (more : List Char) : s.Closed (after ++ '\n' :: more) := by
  cases s with
  | blank | string | unexpected => trivial
  | comment | word => exact NoMore.lineFeed h rfl more
  | openString body => exact absurd rfl (hs body)
  | number whole fraction =>
    cases fraction with
    | cons => exact NoMore.lineFeed h rfl more
    | nil =>
      refine ⟨h.1.lineFeed rfl more, fun c rest hr => ?_⟩
      rcases after with _ | ⟨d, _ | ⟨e, after⟩⟩
      · cases hr
      -- a point that ends the text has the line feed behind it
      · cases hr
        rfl
      · cases hr
        exact h.2 c after rfl
  | symbol s =>
    exact ⟨fun he => head_lineFeed (h.1 he) (by decide) more,
      fun he => head_lineFeed (h.2 he) (by decide) more⟩

/-- Segments that end a text and leave no string open fit before a line feed. -/
theorem Fitting.lineFeed {segments : List Segment} (h : Fitting [] segments)
    (hopen : ∀ body, openString body ∉ segments) (more : List Char) :
    Fitting ('\n' :: more) segments := by
  induction h with
  | nil => exact .nil
  | @cons s rest hs _ ih =>
    refine .cons ⟨hs.wellFormed, ?_⟩ (ih fun body hm => hopen body (List.mem_cons_of_mem s hm))
    have hclosed : s.Closed (rest.flatMap text) := by simpa using hs.closed
    exact hclosed.lineFeed (fun body he => hopen body (he ▸ List.mem_cons_self)) more

theorem split_lineFeed {s : List Char} (h : ∀ body, openString body ∉ split s) (t : List Char) :
    split (s ++ '\n' :: t) = split s ++ .blank '\n' :: split t := by
  have hs := ((fitting_split s).lineFeed h t).split_append
  have hbreak : (Segment.blank '\n').Fits t := ⟨rfl, trivial⟩
  rw [flatMap_text_split] at hs
  rw [hs, ← split_append hbreak]
  rfl

theorem exists_problem_of_openString {segments : List Segment} {body : List Char}
    (h : openString body ∈ segments) (before : List Char) :
    ∃ line, .unterminatedString line ∈ problemsAfter before segments := by
  induction segments generalizing before with
  | nil => cases h
  | cons s rest ih =>
    rw [problemsAfter_cons]
    rcases List.mem_cons.mp h with rfl | hm
    · exact ⟨_, List.mem_append_left _ (List.mem_singleton.mpr rfl)⟩
    · obtain ⟨line, hl⟩ := ih hm (before ++ s.text)
      exact ⟨line, List.mem_append_right _ hl⟩

end Segment

open Segment

/-- The lines above a text that begins on a line of its own behind another. -/
def linesAbove (s : String) : Nat :=
  1 + s.toList.count '\n'

theorem scan_lineFeed {s : String} (h : ∀ line, .unterminatedString line ∉ (scan s).problems)
    (t : String) :
    (scan (s ++ "\n" ++ t)).tokens =
        tokensIn [] (split s.toList) ++ (scan t).tokens.map (Token.shift (linesAbove s)) ∧
      (scan (s ++ "\n" ++ t)).problems =
        (scan s).problems ++ (scan t).problems.map (Problem.shift (linesAbove s)) := by
  have hopen : ∀ body, openString body ∉ split s.toList := by
    intro body hm
    obtain ⟨line, hl⟩ := exists_problem_of_openString hm []
    refine h line ?_
    rw [scan_eq_after]
    exact hl
  have hsplit : split (s ++ "\n" ++ t).toList =
      (split s.toList ++ [.blank '\n']) ++ split t.toList := by
    simpa using split_lineFeed hopen t.toList
  have hcount :
      ((split s.toList ++ [Segment.blank '\n']).flatMap text).count '\n' = linesAbove s := by
    rw [List.flatMap_append, flatMap_text_split, List.count_append, linesAbove, Nat.add_comm]
    rfl
  have hsilent : ∀ b ∈ [Segment.blank '\n'], b.Silent :=
    List.forall_mem_singleton.mpr (silent_blank _)
  obtain ⟨htokens, hproblems⟩ := scan_of_split hsplit
  rw [tokensIn_append, tokensIn_of_silent hsilent, List.append_nil, hcount] at htokens
  rw [problemsAfter_segments, problemsAfter_eq_nil fun b hb => (hsilent b hb).problem,
    List.append_nil, hcount] at hproblems
  refine ⟨htokens, ?_⟩
  rw [hproblems, scan_eq_after s]

/-- Scanning is a homomorphism at line breaks. A text that leaves no string open, a line feed
and any other text are scanned to the tokens of the first without its end marker and those of
the second, reported after the problems of the first are those of the second, and what comes
from the second is further down by the lines above it, with nothing else changed. -/
theorem scan_splits_at_lineFeed (s t : String)
    (h : ∀ line, .unterminatedString line ∉ (scan s).problems) :
    ∃ front, (scan s).tokens = front ++ [.eof (linesAbove s)] ∧
      ∀ ds, (Pass.scan (s ++ "\n" ++ t)).run ds =
        (.tokens (front ++ (scan t).tokens.map (Token.shift (linesAbove s))),
          ⟨ds.reports ++ (scan s).problems.map (·.diagnostic) ++
            ((scan t).problems.map (·.diagnostic)).map (Diagnostic.shift (linesAbove s))⟩) := by
  obtain ⟨htokens, hproblems⟩ := scan_lineFeed h t
  refine ⟨tokensIn [] (split s.toList), tokens_scan s, fun ds => ?_⟩
  simp only [Pass.run, Diagnostics.reportAll, htokens, hproblems, List.map_append,
    Problem.map_diagnostic_shift, List.append_assoc]

/-- Neither a point nor half of an operator goes on behind the line feed. -/
theorem scan_splits_at_lineFeed_bang :
    (∀ line, .unterminatedString line ∉ (scan "12.\n!").problems) ∧
    ∃ front, (scan "12.\n!").tokens = front ++ [.eof 2] ∧
      ∀ ds, (Pass.scan "12.\n!\n=\"x").run ds =
        (.tokens (front ++ [⟨.symbol .equal, "=", none, 3⟩, .eof 3]),
          ⟨ds.reports ++ [⟨3, "", "Unterminated string."⟩]⟩) := by
  have hs : (scan "12.\n!").problems = [] := by decide +kernel
  have ht : scan "=\"x" = ⟨[⟨.symbol .equal, "=", none, 1⟩, .eof 1], [.unterminatedString 1]⟩ := by
    decide +kernel
  have hclosed : ∀ line, .unterminatedString line ∉ (scan "12.\n!").problems := by
    simp [hs]
  obtain ⟨front, hfront, hrun⟩ := scan_splits_at_lineFeed "12.\n!" "=\"x" hclosed
  refine ⟨hclosed, front, hfront, fun ds => ?_⟩
  have h := hrun ds
  rw [hs, ht, List.map_nil, List.append_nil] at h
  exact h

end Lox
