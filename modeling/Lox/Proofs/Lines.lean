import Lox.Proofs.Provenance
import Lox.Proofs.Shift
import Mathlib.Data.List.Forall2

/-! Lines are counted by line feeds. Each segment of a text has its site, the text that stands
before it, and what a scan makes of the segment names the line that the text has come to at
the end of it. So the line of a token or a problem is one more than the line feeds up to there,
wherever these stand: between tokens, inside a string or at the end of a comment. Sites follow
one another, so the lines never go back. -/

namespace Lox
namespace Segment

/-- A segment, with the text that stands before it. -/
structure Site where
  before : List Char
  segment : Segment

/-- The text up to the end of the segment. -/
def Site.upTo (site : Site) : List Char :=
  site.before ++ site.segment.text

/-- The sites of segments that follow one another behind a text. -/
def sites (before : List Char) : List Segment → List Site
  | [] => []
  | s :: rest => ⟨before, s⟩ :: sites (before ++ s.text) rest

def isToken : Segment → Bool
  | string _ | number _ _ | word _ | symbol _ => true
  | _ => false

def isProblem : Segment → Bool
  | openString _ | unexpected _ => true
  | _ => false

/-- The token is the one of the site, on the line on which the segment ends. -/
structure Site.Holds (t : Token) (site : Site) : Prop where
  lexeme : t.lexeme = String.ofList site.segment.text
  line : t.line = 1 + site.upTo.count '\n'

/-- What is reported of a site: an unexpected character on its own line, and a string that is
never closed on the last line of the text. -/
inductive Site.Reports (source : List Char) : Diagnostic → Site → Prop
  | unexpected {before c} :
      Reports source ⟨1 + before.count '\n', "", "Unexpected character."⟩ ⟨before, .unexpected c⟩
  | openString {before body} :
      Reports source ⟨1 + source.count '\n', "", "Unterminated string."⟩ ⟨before, .openString body⟩

/-! ## Sites -/

theorem prefix_of_mem_sites {before : List Char} {segments : List Segment} {site : Site}
    (h : site ∈ sites before segments) : before <+: site.before := by
  induction segments generalizing before with
  | nil => cases h
  | cons s rest ih =>
    rcases List.mem_cons.mp h with rfl | h
    · exact List.prefix_rfl
    · exact (List.prefix_append before s.text).trans (ih h)

theorem pairwise_sites (before : List Char) (segments : List Segment) :
    (sites before segments).Pairwise fun a b => a.upTo <+: b.upTo := by
  induction segments generalizing before with
  | nil => exact .nil
  | cons s rest ih =>
    refine .cons (fun site h => ?_) (ih _)
    exact (prefix_of_mem_sites h).trans (List.prefix_append site.before site.segment.text)

/-- A segment fits before what stands behind its site. -/
theorem Fitting.fits_of_mem_sites {segments : List Segment} {after : List Char}
    (h : Fitting after segments) {before : List Char} {site : Site}
    (hsite : site ∈ sites before segments) :
    ∃ rest, before ++ (segments.flatMap text ++ after) = site.upTo ++ rest ∧
      site.segment.Fits rest := by
  induction h generalizing before with
  | nil => cases hsite
  | @cons s rest hs _ ih =>
    rcases List.mem_cons.mp hsite with rfl | hsite
    · exact ⟨_, by simp [Site.upTo], hs⟩
    · obtain ⟨behind, heq, hfits⟩ := ih hsite
      exact ⟨behind, by simpa using heq, hfits⟩

theorem fits_of_mem_sites_split {source : List Char} {site : Site}
    (h : site ∈ sites [] (split source)) :
    ∃ rest, source = site.upTo ++ rest ∧ site.segment.Fits rest := by
  obtain ⟨rest, heq, hfits⟩ := (fitting_split source).fits_of_mem_sites h
  exact ⟨rest, by simpa [flatMap_text_split] using heq, hfits⟩

theorem lineAfter_le_of_prefix {a b : List Char} (h : a <+: b) : lineAfter a ≤ lineAfter b := by
  obtain ⟨rest, rfl⟩ := h
  simp [lineAfter]

/-! ## Tokens and problems of sites -/

theorem tokensIn_eq_filterMap (before : List Char) (segments : List Segment) :
    tokensIn before segments =
      (sites before segments).filterMap fun site => site.segment.token? (lineAfter site.upTo) := by
  induction segments generalizing before with
  | nil => rfl
  | cons s rest ih =>
    rw [tokensIn, ih, sites, List.filterMap_cons]
    simp only [Site.upTo]
    cases s.token? (lineAfter (before ++ s.text)) <;> rfl

theorem problemsAfter_eq_filterMap (before : List Char) (segments : List Segment) :
    problemsAfter before segments =
      (sites before segments).filterMap fun site => site.segment.problem? (lineAfter site.upTo) := by
  induction segments generalizing before with
  | nil => rfl
  | cons s rest ih =>
    rw [problemsAfter_cons, ih, sites, List.filterMap_cons]
    simp only [Site.upTo]
    cases s.problem? (lineAfter (before ++ s.text)) <;> rfl

theorem isSome_token? (s : Segment) (line : Nat) : (s.token? line).isSome = s.isToken := by
  cases s <;> rfl

theorem isSome_problem? (s : Segment) (line : Nat) : (s.problem? line).isSome = s.isProblem := by
  cases s <;> rfl

theorem forall₂_filterMap {α β : Type} {R : β → α → Prop} {f : α → Option β} {p : α → Bool}
    (hp : ∀ a, (f a).isSome = p a) {l : List α} (h : ∀ a ∈ l, ∀ b, f a = some b → R b a) :
    List.Forall₂ R (l.filterMap f) (l.filter p) := by
  induction l with
  | nil => exact .nil
  | cons a l ih =>
    obtain ⟨ha, hl⟩ := List.forall_mem_cons.mp h
    rw [List.filterMap_cons, List.filter_cons, ← hp a]
    cases hfa : f a with
    | none => simpa using ih hl
    | some b => simpa using ⟨ha b hfa, ih hl⟩

theorem holds_of_token? {site : Site} {t : Token}
    (h : site.segment.token? (lineAfter site.upTo) = some t) : site.Holds t := by
  obtain ⟨kind, -, rfl⟩ := Option.map_eq_some_iff.mp h
  exact ⟨rfl, rfl⟩

/-- An unexpected character is no line feed, and an open string ends with the text. -/
theorem reports_of_problem? {source : List Char} {site : Site} {p : Problem}
    (hsite : site ∈ sites [] (split source))
    (h : site.segment.problem? (lineAfter site.upTo) = some p) :
    site.Reports source p.diagnostic := by
  obtain ⟨rest, hsource, hfits⟩ := fits_of_mem_sites_split hsite
  obtain ⟨before, s⟩ := site
  cases s with
  | openString body =>
    cases h
    obtain rfl : rest = [] := hfits.closed
    rw [List.append_nil] at hsource
    rw [← hsource]
    exact .openString
  | unexpected c =>
    cases h
    have hc : c ≠ '\n' := by
      rintro rfl
      cases hfits.wellFormed.1
    have hline : lineAfter (Site.upTo ⟨before, .unexpected c⟩) = 1 + before.count '\n' := by
      simp [lineAfter, Site.upTo, text, hc]
    rw [hline]
    exact .unexpected
  | blank | comment | string | number | word | symbol => cases h

end Segment

open Segment

theorem pairwise_line_tokens (source : String) :
    ((scan source).tokens.map (·.line)).Pairwise (· ≤ ·) := by
  have hle : ∀ t ∈ tokensIn [] (split source.toList), t.line ≤ lineAfter source.toList := by
    intro t ht
    have hmem : t ∈ (scan source).tokens := by
      rw [tokens_scan]
      exact List.mem_append_left _ ht
    exact (line_le_of_mem_tokens hmem).2
  rw [tokens_scan, List.map_append, List.pairwise_append]
  refine ⟨?_, List.pairwise_singleton .., by simpa [Token.eof] using hle⟩
  rw [tokensIn_eq_filterMap, List.pairwise_map, List.pairwise_filterMap]
  refine (pairwise_sites [] _).imp fun hab t ht u hu => ?_
  rw [(holds_of_token? ht).line, (holds_of_token? hu).line]
  exact lineAfter_le_of_prefix hab

theorem pairwise_line_problems (source : String) :
    ((scan source).problems.map (·.line)).Pairwise (· ≤ ·) := by
  rw [scan_eq_after, problemsAfter_eq_filterMap, List.pairwise_map, List.pairwise_filterMap]
  refine (pairwise_sites [] _).imp fun hab p hp q hq => ?_
  rw [line_problem? hp, line_problem? hq]
  exact lineAfter_le_of_prefix hab

/-- Line numbers count line feeds exactly. In the one cut of a text into longest matches, each
segment that is a token gives a token with its text, on the line that is one more than the line
feeds up to the end of that text; each unexpected character is reported on the line that the
text before it has come to, and a string without an end, as the end marker, on the last line.
In the order of the text the lines never decrease, and none is behind that of the end marker. -/
theorem lines_count_lineFeeds (source : String) :
    ∃ segments, (∀ other, Munches source.toList other ↔ other = segments) ∧
      (∀ site ∈ sites [] segments, site.upTo <+: source.toList) ∧
      (∃ items, (scan source).tokens = items ++ [.eof (1 + source.toList.count '\n')] ∧
        List.Forall₂ Site.Holds items ((sites [] segments).filter (·.segment.isToken))) ∧
      List.Forall₂ (Site.Reports source.toList) ((scan source).problems.map (·.diagnostic))
        ((sites [] segments).filter (·.segment.isProblem)) ∧
      ((scan source).tokens.map (·.line)).Pairwise (· ≤ ·) ∧
      ((scan source).problems.map (·.diagnostic.line)).Pairwise (· ≤ ·) ∧
      (∀ t ∈ (scan source).tokens, t.line ≤ 1 + source.toList.count '\n') ∧
      ∀ p ∈ (scan source).problems, p.diagnostic.line ≤ 1 + source.toList.count '\n' := by
  refine ⟨split source.toList, fun other => munches_iff, fun site h => ?_,
    ⟨tokensIn [] (split source.toList), tokens_scan source, ?_⟩, ?_, pairwise_line_tokens source,
    pairwise_line_problems source, fun t ht => (line_le_of_mem_tokens ht).2,
    fun p hp => (line_le_of_mem_problems hp).2⟩
  · obtain ⟨rest, hsource, -⟩ := fits_of_mem_sites_split h
    exact ⟨rest, hsource.symm⟩
  · rw [tokensIn_eq_filterMap]
    exact forall₂_filterMap (fun site => isSome_token? _ _) fun site _ t => holds_of_token?
  · rw [scan_eq_after, problemsAfter_eq_filterMap, List.map_filterMap]
    refine forall₂_filterMap (fun site => ?_) fun site hsite d hd => ?_
    · simp [isSome_problem?]
    · obtain ⟨p, hp, rfl⟩ := Option.map_eq_some_iff.mp hd
      exact reports_of_problem? hsite hp

end Lox
