import Lox.Proofs.Lines

/-! Scans of a text that goes on. What stands behind a segment shows in its first character where
the segment ends, save that a point has to show what follows it too (`Closed.extend`). So the
segments that end two characters before the end of a text are those of every longer text, as are
all that stand before an unexpected character, and their tokens and reports come first there. -/

namespace Lox

def Problem.isUnexpected : Problem → Bool
  | unexpectedCharacter _ _ => true
  | _ => false

namespace Segment

def Site.token? (site : Site) : Option Token :=
  site.segment.token? (lineAfter site.upTo)

/-- The text is enough to see that a segment ends before it, whatever may be appended. A point
alone is not: a digit would make it the point of a fraction. -/
structure Decides (after : List Char) : Prop where
  ne_nil : after ≠ []
  ne_point : after ≠ ['.']

theorem decides_of_length {after : List Char} (h : 2 ≤ after.length) : Decides after := by
  constructor <;> rintro rfl <;> simp at h

theorem Closed.extend {s : Segment} {after : List Char} (h : s.Closed after) (hd : Decides after)
    (more : List Char) : s.Closed (after ++ more) := by
  have hhead : (after ++ more).head? = after.head? := List.head?_append_of_ne_nil _ hd.ne_nil
  have hmore : ∀ p, NoMore p after → NoMore p (after ++ more) := by
    intro p hp
    rwa [NoMore, hhead]
  cases s with
  | blank | string | unexpected => trivial
  | comment | word => exact hmore _ h
  | openString => exact absurd h hd.ne_nil
  | symbol s =>
    simp only [Closed, hhead]
    exact h
  | number whole fraction =>
    cases fraction with
    | cons => exact hmore _ h
    | nil =>
      refine ⟨hmore _ h.1, fun c rest hp => ?_⟩
      rcases after with _ | ⟨point, _ | ⟨d, after⟩⟩
      · exact absurd rfl hd.ne_nil
      · obtain ⟨rfl, -⟩ := List.cons.inj hp
        exact absurd rfl hd.ne_point
      · obtain ⟨rfl, hrest⟩ := List.cons.inj hp
        obtain ⟨rfl, -⟩ := List.cons.inj hrest
        exact h.2 d after rfl

theorem Fits.extend {s : Segment} {after : List Char} (h : s.Fits after) (hd : Decides after)
    (more : List Char) : s.Fits (after ++ more) :=
  ⟨h.wellFormed, h.closed.extend hd more⟩

/-! ## Tokens -/

theorem filter_sites_eq_nil {before : List Char} {n : Nat} (h : n < before.length + 2)
    (segments : List Segment) :
    (sites before segments).filter (fun site => decide (site.upTo.length + 2 ≤ n)) = [] := by
  rw [List.filter_eq_nil_iff]
  intro site hsite
  have hle := (prefix_of_mem_sites hsite).length_le
  simp only [Site.upTo, List.length_append, decide_eq_true_eq]
  omega

/-- Behind a text, the tokens of segments that end two characters before the end come first,
whatever is appended. -/
theorem Fitting.tokens_extend {segments : List Segment} (h : Fitting [] segments)
    (before more : List Char) :
    ((sites before segments).filter fun site =>
        decide (site.upTo.length + 2 ≤ (before ++ segments.flatMap text).length)).filterMap
      Site.token? <+: tokensAfter before (split (segments.flatMap text ++ more)) := by
  induction h generalizing before with
  | nil => exact List.nil_prefix
  | @cons s rest hs _ ih =>
    rw [List.append_nil] at hs
    by_cases hfar : 2 ≤ (rest.flatMap text).length
    · have hrest := ih (before ++ s.text)
      rw [List.append_assoc] at hrest
      have hkept : (Site.mk before s).upTo.length + 2 ≤
          (before ++ (s.text ++ rest.flatMap text)).length := by
        simp only [Site.upTo, List.length_append]
        omega
      rw [List.flatMap_cons, List.append_assoc,
        Segment.split_append (hs.extend (decides_of_length hfar) more), tokensAfter_cons, sites,
        List.filter_cons_of_pos (by simpa using hkept), List.filterMap_cons]
      cases htoken : Site.token? ⟨before, s⟩ with
      | none =>
        have hnone : s.token? (lineAfter (before ++ s.text)) = none := htoken
        simpa [hnone] using hrest
      | some t =>
        have hsome : s.token? (lineAfter (before ++ s.text)) = some t := htoken
        simpa [hsome] using hrest
    · -- this segment ends too late, and so do all behind it
      have hlate : (before ++ (s :: rest).flatMap text).length < (before ++ s.text).length + 2 := by
        simp only [List.flatMap_cons, List.length_append]
        omega
      have hnone : ¬ (Site.mk before s).upTo.length + 2 ≤
          (before ++ (s :: rest).flatMap text).length := by
        simp only [Site.upTo]
        omega
      rw [sites, List.filter_cons_of_neg (by simpa using hnone), filter_sites_eq_nil hlate]
      exact List.nil_prefix

/-! ## Reports -/

theorem Fitting.split_text {segments : List Segment} (h : Fitting [] segments) :
    split (segments.flatMap text) = segments := by
  simpa [split_nil] using h.split_append

theorem problemsAfter_of_not_decides {segments : List Segment} (h : Fitting [] segments)
    (hd : ¬ Decides (segments.flatMap text)) (before : List Char) :
    problemsAfter before segments = [] := by
  have hcases : segments.flatMap text = [] ∨ segments.flatMap text = ['.'] := by
    by_contra hne
    obtain ⟨hnil, hpoint⟩ := not_or.mp hne
    exact hd ⟨hnil, hpoint⟩
  have hsegments := h.split_text
  rcases hcases with htext | htext
  · rw [htext, split_nil] at hsegments
    rw [← hsegments]
    rfl
  · have hpoint : split ['.'] = [symbol .dot] := by decide +kernel
    rw [htext, hpoint] at hsegments
    rw [← hsegments]
    rfl

/-- Behind a text, the unexpected characters of the segments that end it are reported first,
whatever is appended. -/
theorem Fitting.problems_extend {segments : List Segment} (h : Fitting [] segments)
    (before more : List Char) :
    (problemsAfter before segments).filter Problem.isUnexpected <+:
      problemsAfter before (split (segments.flatMap text ++ more)) := by
  induction h generalizing before with
  | nil => exact List.nil_prefix
  | @cons s rest hs hrest ih =>
    rw [List.append_nil] at hs
    rw [problemsAfter_cons, List.filter_append, List.flatMap_cons, List.append_assoc]
    by_cases hstands : s.Fits (rest.flatMap text ++ more)
    · rw [Segment.split_append hstands, problemsAfter_cons]
      cases s with
      | unexpected c => simpa [problem?, Problem.isUnexpected, List.filter_cons] using ih _
      | openString body =>
        have hnil : rest.flatMap text = [] := hs.closed
        have hquiet := problemsAfter_of_not_decides hrest (fun hd => hd.ne_nil hnil)
        simp [problem?, Problem.isUnexpected, hquiet]
      | blank | comment | string | number | word | symbol =>
        simpa [problem?] using ih _
    · -- what is appended goes on with the segment, so nothing behind it is unexpected
      have hquiet := problemsAfter_of_not_decides hrest (fun hd => hstands (hs.extend hd more))
      rw [hquiet]
      cases s with
      | unexpected c => exact absurd ⟨hs.wellFormed, trivial⟩ hstands
      | blank | comment | string | openString | number | word | symbol =>
        simp [problem?, Problem.isUnexpected]

end Segment

open Segment

/-- Scans are stable under appending. The text has one cut into longest matches, whose sites give
the tokens of its scan before the end marker. Those that end two characters before the end of the
text are, unchanged, the first tokens of the scan of any longer text, and the unexpected characters
that a scan of the text reports are the first that is reported there. -/
theorem scan_stable_under_append (s t : String) :
    ∃ segments, (∀ other, Munches s.toList other ↔ other = segments) ∧
      (∀ site ∈ sites [] segments, site.upTo <+: s.toList) ∧
      (scan s).tokens =
        (sites [] segments).filterMap Site.token? ++ [.eof (1 + s.toList.count '\n')] ∧
      ((sites [] segments).filter fun site =>
          decide (site.upTo.length + 2 ≤ s.toList.length)).filterMap Site.token? <+:
        (scan (s ++ t)).tokens ∧
      (scan s).problems.filter Problem.isUnexpected <+: (scan (s ++ t)).problems ∧
      ((scan s).problems.filter Problem.isUnexpected).map (·.diagnostic) <+:
        (scan (s ++ t)).problems.map (·.diagnostic) := by
  have hfitting := fitting_split s.toList
  have htokens := hfitting.tokens_extend [] t.toList
  have hproblems := hfitting.problems_extend [] t.toList
  rw [List.nil_append, flatMap_text_split] at htokens
  rw [flatMap_text_split] at hproblems
  refine ⟨split s.toList, fun other => munches_iff, fun site hsite => ?_, ?_, ?_, ?_, ?_⟩
  · obtain ⟨rest, hsource, -⟩ := fits_of_mem_sites_split hsite
    exact ⟨rest, hsource.symm⟩
  · rw [tokens_scan, tokensIn_eq_filterMap]
    rfl
  · rw [scan_eq_after (s ++ t), String.toList_append]
    exact htokens
  · rw [scan_eq_after s, scan_eq_after (s ++ t), String.toList_append]
    exact hproblems
  · rw [scan_eq_after s, scan_eq_after (s ++ t), String.toList_append]
    exact hproblems.map _

/-- One character is not enough: the point goes to the number when a digit is appended. -/
example : (scan "1.").tokens.map (·.lexeme) = ["1", ".", ""] ∧
    (scan ("1." ++ "5")).tokens.map (·.lexeme) = ["1.5", ""] := by
  decide +kernel

end Lox
