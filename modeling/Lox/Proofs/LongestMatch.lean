import Lox.Scan
import Lox.Proofs.Boundary

/-! Scanning as maximal munch. A segment `Matches` at the front of a text when it belongs to
one of the lexical classes, told apart from how segments are split off; `Munches` cuts a
text into segments each of which is the longest match there, and `Yields` gives the tokens
and problems of segments, by what each of them spells. There is one such cut, and scanning
gives what it yields (`scan_yields`) and records it (`scanning_eq`). -/

namespace Lox
namespace Segment

/-- The lexical classes, but for the last. The text behind a segment matters to one of them:
a string that is never closed reaches the end. -/
inductive Regular : Segment → List Char → Prop
  | blank {c after} : c ∈ [' ', '\r', '\t', '\n'] → Regular (.blank c) after
  | comment {body after} : '\n' ∉ body → Regular (.comment body) after
  | string {body after} : '"' ∉ body → Regular (.string body) after
  | openString {body} : '"' ∉ body → Regular (.openString body) []
  | number {whole fraction after} : whole ≠ [] → (∀ c ∈ whole, c.isDigit = true) →
      (∀ c ∈ fraction, c.isDigit = true) → Regular (.number whole fraction) after
  | word {c chars after} : isWordStart c = true → (∀ d ∈ chars, isWordChar d = true) →
      Regular (.word (c :: chars)) after
  | symbol {s after} : Regular (.symbol s) after

/-- The last class has any other character, where no segment of another class begins. -/
inductive Matches : Segment → List Char → Prop
  | regular {s after} : Regular s after → Matches s after
  | unexpected {c after} : (∀ s rest, Regular s rest → s.text ++ rest ≠ c :: after) →
      Matches (.unexpected c) after

structure Longest (source : List Char) (s : Segment) (after : List Char) : Prop where
  split : source = s.text ++ after
  isMatch : s.Matches after
  longest : ∀ (s' : Segment) (after' : List Char), source = s'.text ++ after' →
    s'.Matches after' → s'.text.length ≤ s.text.length

/-- The segments of a text, each the longest match in what is left. -/
inductive Munches : List Char → List Segment → Prop
  | nil : Munches [] []
  | cons {source s after rest} : Longest source s after → Munches after rest →
      Munches source (s :: rest)

/-- The kind and the literal of the token that a segment is. -/
inductive Spells : Segment → TokenKind → Option Literal → Prop
  | string {body} : Spells (.string body) .string (some (.string (String.ofList body)))
  | number {whole fraction} : Spells (.number whole fraction) .number
      (some (.number (Decimal.ofNumeral whole fraction).toFloat))
  | keyword {chars} {k : Keyword} :
      (TokenKind.keyword k).fixedText = some (String.ofList chars) →
      Spells (.word chars) (.keyword k) none
  | identifier {chars} :
      (∀ k : Keyword, (TokenKind.keyword k).fixedText ≠ some (String.ofList chars)) →
      Spells (.word chars) .identifier none
  | symbol {s} : Spells (.symbol s) (.symbol s) none

/-- The line on which a text ends. -/
def lineAfter (before : List Char) : Nat :=
  1 + before.count '\n'

/-- The tokens and the problems of segments that stand behind the text `before`. Each is on
the line on which its segment ends; blanks and comments give nothing, and the end marker
stands on the last line. -/
inductive Yields : List Char → List Segment → List Token → List Problem → Prop
  | done {before} : Yields before [] [.eof (lineAfter before)] []
  | blank {before c rest ts ps} : Yields (before ++ [c]) rest ts ps →
      Yields before (.blank c :: rest) ts ps
  | comment {before body rest ts ps} : Yields (before ++ text (.comment body)) rest ts ps →
      Yields before (.comment body :: rest) ts ps
  | token {before s rest ts ps kind literal} : Spells s kind literal →
      Yields (before ++ s.text) rest ts ps →
      Yields before (s :: rest)
        (⟨kind, String.ofList s.text, literal, lineAfter (before ++ s.text)⟩ :: ts) ps
  | openString {before body rest ts ps} : Yields (before ++ text (.openString body)) rest ts ps →
      Yields before (.openString body :: rest) ts
        (.unterminatedString (lineAfter (before ++ text (.openString body))) :: ps)
  | unexpected {before c rest ts ps} : Yields (before ++ [c]) rest ts ps →
      Yields before (.unexpected c :: rest) ts
        (.unexpectedCharacter (lineAfter (before ++ [c])) c :: ps)

/-! ## The longest match is the first segment -/

theorem isBlank_iff {c : Char} : isBlank c = true ↔ c ∈ [' ', '\r', '\t', '\n'] := by
  simp [isBlank, or_assoc]

theorem Regular.wellFormed {s : Segment} {after : List Char} (h : s.Regular after) :
    s.WellFormed := by
  cases h with
  | blank hc => exact isBlank_iff.mpr hc
  | comment hb | string hb | openString hb => exact hb
  | number hne hw hf => exact ⟨hne, fun c hc => (List.mem_append.mp hc).elim (hw c) (hf c)⟩
  | word hstart hall =>
    refine ⟨by simpa using hstart, fun d hd => ?_⟩
    rcases List.mem_cons.mp hd with rfl | hd
    · exact isWordChar_of_isWordStart hstart
    · exact hall d hd
  | symbol => trivial

theorem Fits.regular {s : Segment} {after : List Char} (h : s.Fits after) :
    s.Regular after ∨ ∃ c, s = unexpected c := by
  obtain ⟨hwf, hcl⟩ := h
  cases s with
  | blank => exact .inl (.blank (isBlank_iff.mp hwf))
  | comment => exact .inl (.comment hwf)
  | string => exact .inl (.string hwf)
  | openString =>
    obtain rfl : after = [] := hcl
    exact .inl (.openString hwf)
  | number =>
    exact .inl (.number hwf.1 (fun c hc => hwf.2 c (List.mem_append_left _ hc))
      fun c hc => hwf.2 c (List.mem_append_right _ hc))
  | word chars =>
    obtain ⟨c, rest, rfl, hstart, hrest⟩ := hwf.exists_word
    exact .inl (.word hstart hrest)
  | symbol => exact .inl .symbol
  | unexpected c => exact .inr ⟨c, rfl⟩

/-- Where an unexpected character stands, nothing regular begins. -/
theorem Regular.ne_of_unexpected {s : Segment} {rest after : List Char} {c : Char}
    (h : s.Regular rest) (hc : (Segment.unexpected c).WellFormed) : s.text ++ rest ≠ c :: after := by
  obtain ⟨hb, hq, hd, hw, hs⟩ := hc
  intro ht
  cases h with
  | blank h =>
    obtain ⟨rfl, _⟩ := List.cons.inj ht
    simp [isBlank_iff.mpr h] at hb
  | comment =>
    obtain ⟨rfl, _⟩ := List.cons.inj ht
    cases hs
  | string | openString => exact hq (List.cons.inj ht).1.symm
  | @number whole fraction _ hne hall _ =>
    obtain ⟨d, ds, rfl⟩ := List.exists_cons_of_ne_nil hne
    have hdc : d = c := by cases fraction <;> exact (List.cons.inj ht).1
    simp [← hdc, hall d] at hd
  | word hstart =>
    obtain ⟨rfl, _⟩ := List.cons.inj ht
    simp [hstart] at hw
  | @symbol s =>
    obtain ⟨d, base, hhead, hbase, _⟩ := s.ofChar?_chars
    obtain ⟨ds, hds⟩ := List.head?_eq_some_iff.mp hhead
    rw [text, hds] at ht
    obtain ⟨rfl, _⟩ := List.cons.inj ht
    simp [hbase] at hs

theorem Matches.wellFormed {s : Segment} {after : List Char} (h : s.Matches after) :
    s.WellFormed := by
  cases h with
  | regular h => exact h.wellFormed
  | @unexpected c after hnone =>
    rcases (fits_first c after).regular with hr | ⟨d, hd⟩
    · exact absurd (text_first c after) (hnone _ _ hr)
    · have htext := text_first c after
      rw [hd] at htext
      obtain ⟨rfl, _⟩ := List.cons.inj htext
      exact hd ▸ (fits_first d after).wellFormed

theorem Fits.isMatch {s : Segment} {after : List Char} (h : s.Fits after) : s.Matches after := by
  rcases h.regular with hr | ⟨c, rfl⟩
  · exact .regular hr
  · exact .unexpected fun s rest hr => hr.ne_of_unexpected h.wellFormed

theorem length_lt_takeWhile {p : Char → Bool} {body after : List Char}
    (hb : ∀ c ∈ body, p c = true) (ha : ¬ NoMore p after) :
    body.length < ((body ++ after).takeWhile p).length := by
  cases after with
  | nil => exact absurd (noMore_nil p) ha
  | cons c after =>
    have hc : p c = true := by simpa [noMore_cons] using ha
    simp [List.takeWhile_append_of_pos hb, hc]

theorem length_le_firstFraction (whole rest : List Char) :
    whole.length ≤ (firstFraction whole rest).1.text.length := by
  unfold firstFraction
  split
  · split <;> simp [text]
  · simp [text]

theorem length_lt_first_number {whole fraction after rest : List Char} {c : Char}
    (h : (number whole fraction).WellFormed) (ht : c :: rest = (number whole fraction).text ++ after)
    (hopen : ¬ (number whole fraction).Closed after) :
    (number whole fraction).text.length < (first c rest).1.text.length := by
  obtain ⟨hne, hd⟩ := h
  obtain ⟨d, ds, rfl⟩ := List.exists_cons_of_ne_nil hne
  have hds : ∀ c ∈ ds, c.isDigit = true := fun c hc => hd c (by simp [hc])
  cases fraction with
  | nil =>
    have htext : c :: rest = d :: (ds ++ after) := ht
    obtain ⟨rfl, rfl⟩ := List.cons.inj htext
    rw [first_digit (hd _ (by simp))]
    by_cases hmore : NoMore Char.isDigit after
    · -- the digits end here, so a point goes on with a fraction
      have hpoint : ¬ ∀ d more, after = '.' :: d :: more → d.isDigit = false :=
        fun hnone => hopen ⟨hmore, hnone⟩
      obtain ⟨d, more, rfl, hdigit⟩ : ∃ d more, after = '.' :: d :: more ∧ d.isDigit = true := by
        simpa using hpoint
      rw [takeWhile_append_of_noMore hds hmore, dropWhile_append_of_noMore hds hmore]
      simp [firstFraction, hdigit, text]
    · have hlt := length_lt_takeWhile hds hmore
      refine Nat.lt_of_lt_of_le ?_ (length_le_firstFraction _ _)
      simpa [text] using hlt
  | cons f fs =>
    have hfs : ∀ c ∈ fs, c.isDigit = true := fun c hc => hd c (by simp [hc])
    have hpoint : NoMore Char.isDigit ('.' :: f :: (fs ++ after)) := noMore_cons.mpr (by decide)
    have htext : c :: rest = d :: (ds ++ '.' :: f :: (fs ++ after)) := by simpa [text] using ht
    obtain ⟨rfl, rfl⟩ := List.cons.inj htext
    rw [first_digit (hd _ (by simp)), takeWhile_append_of_noMore hds hpoint,
      dropWhile_append_of_noMore hds hpoint]
    have hlt := length_lt_takeWhile hfs hopen
    simpa [firstFraction, hd f (by simp), text] using hlt

theorem length_lt_first_symbol {s : Symbol} {after rest : List Char} {c : Char}
    (ht : c :: rest = (symbol s).text ++ after) (hopen : ¬ (symbol s).Closed after) :
    (symbol s).text.length < (first c rest).1.text.length := by
  obtain ⟨d, base, -, hbase, ⟨rfl, hs⟩ | ⟨hequal, -⟩⟩ := s.ofChar?_chars
  · rw [text, hs] at ht ⊢
    obtain ⟨rfl, rfl⟩ := List.cons.inj ht
    by_cases hslash : s = .slash ∧ rest.head? = some '/'
    · obtain ⟨rfl, hr⟩ := hslash
      obtain ⟨after, rfl⟩ := List.head?_eq_some_iff.mp hr
      obtain rfl : '/' = c := (List.cons.inj hs).1
      simp [first_comment, firstComment, text]
    · have hlonger : s.withEqual?.isSome = true ∧ rest.head? = some '=' := by
        by_cases hc : s.withEqual?.isSome = true → rest.head? ≠ some '='
        · exact absurd ⟨hc, fun he hr => hslash ⟨he, hr⟩⟩ hopen
        · simpa using hc
      obtain ⟨hsome, hr⟩ := hlonger
      obtain ⟨longer, hl⟩ := Option.isSome_iff_exists.mp hsome
      obtain ⟨after, rfl⟩ := List.head?_eq_some_iff.mp hr
      rw [first_symbol hbase (by simp), firstSymbol_equal hl]
      simp [text, Symbol.chars_withEqual? hl, hs]
  · exact absurd (closed_of_withEqual hequal after) hopen

/-- A match that goes on is shorter than the first segment. -/
theorem Matches.length_lt_first {s : Segment} {after rest : List Char} {c : Char}
    (h : s.Matches after) (ht : c :: rest = s.text ++ after) (hopen : ¬ s.Closed after) :
    s.text.length < (first c rest).1.text.length := by
  have hwf := h.wellFormed
  cases s with
  | blank | string | unexpected => exact absurd trivial hopen
  | comment body =>
    have htext : c :: rest = '/' :: '/' :: (body ++ after) := ht
    obtain ⟨rfl, rfl⟩ := List.cons.inj htext
    have hlt := length_lt_takeWhile (bne_of_not_mem hwf) hopen
    simpa [first_comment, firstComment, text] using hlt
  | openString body =>
    cases h with
    | regular h =>
      cases h
      exact absurd rfl hopen
  | number whole fraction => exact length_lt_first_number hwf ht hopen
  | word chars =>
    obtain ⟨d, ds, rfl, hstart, hds⟩ := hwf.exists_word
    have htext : c :: rest = d :: (ds ++ after) := ht
    obtain ⟨rfl, rfl⟩ := List.cons.inj htext
    have hlt := length_lt_takeWhile hds hopen
    simpa [first_word hstart, text] using hlt
  | symbol s => exact length_lt_first_symbol ht hopen

/-- The longest match is the first segment. -/
theorem longest_iff {c : Char} {rest after : List Char} {s : Segment} :
    Longest (c :: rest) s after ↔ first c rest = (s, after) := by
  have hfits := fits_first c rest
  constructor
  · intro h
    obtain ⟨ht, hmatch, hlongest⟩ := h
    by_cases hcl : s.Closed after
    · exact first_of_fits ⟨hmatch.wellFormed, hcl⟩ ht
    · have hlt := hmatch.length_lt_first ht hcl
      have hle := hlongest _ _ (text_first c rest).symm hfits.isMatch
      omega
  · intro h
    rw [h] at hfits
    refine ⟨(first_eq_iff.mp h).1, hfits.isMatch, fun s' after' ht' hmatch' => ?_⟩
    by_cases hcl : s'.Closed after'
    · rw [first_of_fits ⟨hmatch'.wellFormed, hcl⟩ ht'] at h
      cases h
      exact Nat.le_refl _
    · have hlt := hmatch'.length_lt_first ht' hcl
      rw [h] at hlt
      exact Nat.le_of_lt hlt

/-- There is one cut into longest matches. -/
theorem munches_iff {source : List Char} {segments : List Segment} :
    Munches source segments ↔ segments = split source := by
  constructor
  · intro h
    induction h with
    | nil => exact split_nil.symm
    | @cons source s after rest hlongest _ ih =>
      cases source with
      | nil =>
        have hnil := (List.append_eq_nil_iff.mp hlongest.split.symm).1
        exact absurd hnil hlongest.isMatch.wellFormed.text_ne_nil
      | cons c source => rw [split_cons, longest_iff.mp hlongest, ih]
  · rintro rfl
    fun_induction split source with
    | case1 => exact .nil
    | case2 c rest ih => exact .cons (longest_iff.mpr rfl) ih

theorem wellFormed_of_mem_split {source : List Char} : ∀ s ∈ split source, s.WellFormed := by
  fun_induction split source with
  | case1 => simp
  | case2 c rest ih =>
    intro s hs
    rcases List.mem_cons.mp hs with rfl | hs
    · exact (fits_first c rest).wellFormed
    · exact ih s hs

/-! ## Tokens and problems -/

theorem fixedText_keyword_eq_iff {k : Keyword} {chars : List Char} :
    (TokenKind.keyword k).fixedText = some (String.ofList chars) ↔
      Keyword.ofText? (String.ofList chars) = some k := by
  rw [Keyword.ofText?_eq_some_iff, TokenKind.fixedText, Option.some_inj]

theorem Spells.eq {s : Segment} {kind : TokenKind} {literal : Option Literal}
    (h : Spells s kind literal) : s.kind? = some kind ∧ s.literal? = literal := by
  cases h with
  | string | number | symbol => exact ⟨rfl, rfl⟩
  | keyword hk => exact ⟨by simp [kind?, fixedText_keyword_eq_iff.mp hk], rfl⟩
  | @identifier chars hnone =>
    have hword : Keyword.ofText? (String.ofList chars) = none :=
      Option.eq_none_iff_forall_ne_some.mpr fun k hk => hnone k (fixedText_keyword_eq_iff.mpr hk)
    exact ⟨by simp [kind?, hword], rfl⟩

theorem spells_of_kind? {s : Segment} {kind : TokenKind} (h : s.kind? = some kind) :
    Spells s kind s.literal? := by
  cases s with
  | blank | comment | openString | unexpected => cases h
  | string | number | symbol =>
    cases h
    constructor
  | word chars =>
    cases hk : Keyword.ofText? (String.ofList chars) with
    | some k =>
      simp only [kind?, hk, Option.some.injEq] at h
      exact h ▸ .keyword (fixedText_keyword_eq_iff.mpr hk)
    | none =>
      simp only [kind?, hk, Option.some.injEq] at h
      refine h ▸ .identifier fun k hk' => ?_
      simp [fixedText_keyword_eq_iff.mp hk'] at hk

theorem problem?_of_kind? {s : Segment} {kind : TokenKind} (h : s.kind? = some kind) (line : Nat) :
    s.problem? line = none := by
  cases s with
  | openString | unexpected => cases h
  | _ => rfl

theorem lineAfter_append (before : List Char) (s : Segment) :
    lineAfter (before ++ s.text) = lineAfter before + s.lineFeeds := by
  simp [lineAfter, lineFeeds, Nat.add_assoc]

/-- Segments with the lines on which they end, when the first begins on `line`. -/
def stamp (line : Nat) : List Segment → List (Nat × Segment)
  | [] => []
  | s :: rest => (line + s.lineFeeds, s) :: stamp (line + s.lineFeeds) rest

/-- The tokens that a scan which has got to the end of `before` still finds. -/
def tokensAfter (before : List Char) (segments : List Segment) : List Token :=
  (stamp (lineAfter before) segments).filterMap (fun p => p.2.token? p.1) ++
    [.eof (lineAfter (before ++ segments.flatMap text))]

def problemsAfter (before : List Char) (segments : List Segment) : List Problem :=
  (stamp (lineAfter before) segments).filterMap fun p => p.2.problem? p.1

theorem tokensAfter_nil (before : List Char) : tokensAfter before [] = [.eof (lineAfter before)] := by
  simp [tokensAfter, stamp]

theorem problemsAfter_nil (before : List Char) : problemsAfter before [] = [] := rfl

theorem tokensAfter_cons (before : List Char) (s : Segment) (rest : List Segment) :
    tokensAfter before (s :: rest) =
      (s.token? (lineAfter (before ++ s.text))).toList ++ tokensAfter (before ++ s.text) rest := by
  simp only [tokensAfter, stamp, lineAfter_append, List.filterMap_cons, List.flatMap_cons,
    List.append_assoc]
  cases s.token? (lineAfter before + s.lineFeeds) <;> rfl

theorem problemsAfter_cons (before : List Char) (s : Segment) (rest : List Segment) :
    problemsAfter before (s :: rest) =
      (s.problem? (lineAfter (before ++ s.text))).toList ++
        problemsAfter (before ++ s.text) rest := by
  simp only [problemsAfter, stamp, lineAfter_append, List.filterMap_cons]
  cases s.problem? (lineAfter before + s.lineFeeds) <;> rfl

theorem Yields.eq {before : List Char} {segments : List Segment} {ts : List Token}
    {ps : List Problem} (h : Yields before segments ts ps) :
    ts = tokensAfter before segments ∧ ps = problemsAfter before segments := by
  induction h with
  | done => simp [tokensAfter, problemsAfter, stamp]
  | blank _ ih | comment _ ih | openString _ ih | unexpected _ ih =>
    rw [tokensAfter_cons, problemsAfter_cons, ih.1, ih.2]
    exact ⟨rfl, rfl⟩
  | @token _ s _ _ _ kind literal hs _ ih =>
    obtain ⟨hkind, hliteral⟩ := hs.eq
    rw [tokensAfter_cons, problemsAfter_cons, problem?_of_kind? hkind, token?, hkind, hliteral,
      ih.1, ih.2]
    exact ⟨rfl, rfl⟩

theorem yields (before : List Char) (segments : List Segment) :
    Yields before segments (tokensAfter before segments) (problemsAfter before segments) := by
  induction segments generalizing before with
  | nil => simpa [tokensAfter, problemsAfter, stamp] using Yields.done
  | cons s rest ih =>
    rw [tokensAfter_cons, problemsAfter_cons]
    cases hkind : s.kind? with
    | some kind =>
      rw [problem?_of_kind? hkind, token?, hkind]
      exact .token (spells_of_kind? hkind) (ih _)
    | none =>
      cases s with
      | blank => exact .blank (ih _)
      | comment => exact .comment (ih _)
      | openString => exact .openString (ih _)
      | unexpected => exact .unexpected (ih _)
      | string | number | word | symbol => cases hkind

end Segment

open Segment

/-- What a scan leaves in the log: the reports of its problems, and the number of its tokens. -/
def Scan.records (s : Scan) : List LogRecord :=
  s.problems.map (·.record) ++
    [⟨.trace, "scanned " ++ toString s.tokens.length ++ " tokens"⟩]

theorem Scanning.ofSegments_eq (before : List Char) (count : Nat) (segments : List Segment) :
    ofSegments (lineAfter before) count segments =
      ⟨⟨tokensAfter before segments, problemsAfter before segments⟩,
        (problemsAfter before segments).map (·.record) ++ [⟨.trace, "scanned " ++
          toString (count + (tokensAfter before segments).length) ++ " tokens"⟩]⟩ := by
  induction segments generalizing before count with
  | nil => rw [tokensAfter_nil, problemsAfter_nil]; rfl
  | cons s rest ih =>
    have hlater := ih (before ++ s.text)
    rw [ofSegments, ← lineAfter_append, tokensAfter_cons, problemsAfter_cons]
    cases hkind : s.kind? with
    | some kind =>
      rw [problem?_of_kind? hkind, token?, hkind, Option.map_some, hlater]
      simp [push, Nat.add_assoc, Nat.add_comm 1]
    | none =>
      rw [token?, hkind, Option.map_none]
      cases s.problem? (lineAfter (before ++ s.text)) with
      | some p => simp [hlater, report]
      | none => simp [hlater]

theorem scan_eq_after (source : String) :
    scan source = ⟨tokensAfter [] (split source.toList), problemsAfter [] (split source.toList)⟩ :=
  congrArg (·.toScan) (Scanning.ofSegments_eq [] 0 _)

theorem scanning_eq (source : String) :
    scanning source = ⟨scan source, (scan source).records⟩ := by
  refine (Scanning.ofSegments_eq [] 0 _).trans ?_
  simp [scan_eq_after, Scan.records]

theorem getLast?_tokens_scan (source : String) :
    (scan source).tokens.getLast? = some (Token.eof (lineAfter source.toList)) := by
  simp [scan_eq_after, tokensAfter, flatMap_text_split]

theorem scan_yields (source : String) :
    Yields [] (split source.toList) (scan source).tokens (scan source).problems := by
  rw [scan_eq_after]
  exact yields [] _

end Lox
