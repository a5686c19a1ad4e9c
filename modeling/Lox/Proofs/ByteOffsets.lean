import Lox.Proofs.ByteScanner
import Lox.Proofs.Runs
import Mathlib.Data.Prod.Lex

/-! The scanner with byte offsets never crashes, and stops with the scan of its text. A state is
`Sound` when its offsets stand for a cut of the text, when its phase may have read what stands
between them, and when its tokens and problems with those that are still to be found make up the
scan. A step keeps that and goes further: it moves the cursor, or it leaves it and comes nearer to
the next character (`keeps_step`). What is left of the text with the rank of the phase therefore
decreases. -/

namespace Lox
namespace ByteScanner
open Segment

/-- The scan of the input has these tokens and problems, and then those that are found in what is
pending. -/
structure Owes (input : List Char) (ts : List Token) (ps : List Problem)
    (before pending : List Char) : Prop where
  tokens : tokensAfter [] (split input) = ts ++ tokensAfter before (split pending)
  problems : problemsAfter [] (split input) = ps ++ problemsAfter before (split pending)

/-- A token is being read: what has been read of it is pending as well. -/
structure Partway (input : List Char) (s : State) (front read rest : List Char) : Prop
    extends Stands input s front read rest where
  owes : Owes input s.tokens s.problems front (read ++ rest)

/-- What may have been read in a phase, before the rest of the text. -/
inductive Reads : Phase → List Char → List Char → Prop
  | token {rest} : rest ≠ [] → Reads .token [] rest
  | comment {body rest} : '\n' ∉ body → Reads .comment ('/' :: '/' :: body) rest
  | string {body rest} : '"' ∉ body → Reads .string ('"' :: body) rest
  | whole {digits rest} : (number digits []).WellFormed → Reads .whole digits rest
  /-- A digit follows the point, if none has been read. -/
  | fraction {digits more rest} : (number digits more).WellFormed →
      (more = [] → ∃ c ∈ rest.head?, c.isDigit = true) → Reads .fraction (digits ++ '.' :: more) rest
  | word {chars rest} : (word chars).WellFormed → Reads .word chars rest

inductive Sound (input : List Char) (s : State) : Prop
  | loop {front read rest} : s.phase = .loop → Stands input s front read rest →
      Owes input s.tokens s.problems (front ++ read) rest → Sound input s
  | partway {front read rest} : Reads s.phase read rest → Partway input s front read rest →
      Sound input s

/-- How far a phase is from the next character, where none is left to pass. -/
def Phase.rank : Phase → Nat
  | token => 0
  | loop => 1
  | comment | string | whole | fraction | word => 2

def Further (s s' : State) : Prop :=
  s.current < s'.current ∨ s.current = s'.current ∧ s'.phase.rank < s.phase.rank

/-- What a step may do. -/
def Move.Keeps (input : List Char) (s : State) : Move → Prop
  | next s' => Sound input s' ∧ Further s s'
  | stop result => result = ⟨tokensAfter [] (split input), problemsAfter [] (split input)⟩
  | crash => False

section

variable {input front read rest : List Char} {s : State}

theorem lineAfter_concat (before : List Char) (c : Char) :
    lineAfter (before ++ [c]) = if c = '\n' then lineAfter before + 1 else lineAfter before := by
  by_cases hc : c = '\n' <;> simp [lineAfter, hc, Nat.add_assoc]

namespace Partway

theorem pass {c : Char} (h : Partway input s front read (c :: rest)) :
    Partway input { s.pass c with line := if c = '\n' then s.line + 1 else s.line }
      front (read ++ [c]) rest where
  text := by simp [h.text]
  start := h.start
  current := by
    rw [← List.append_assoc, byteSize_append, ← h.current]
    rfl
  line := by rw [← List.append_assoc, lineAfter_concat, ← h.line]
  owes := by
    rw [List.append_assoc]
    exact h.owes

theorem pass_of_ne {c : Char} (h : Partway input s front read (c :: rest)) (hc : c ≠ '\n') :
    Partway input (s.pass c) front (read ++ [c]) rest := by
  have hpass := h.pass
  rw [if_neg hc] at hpass
  exact hpass

theorem enter (h : Partway input s front read rest) (phase : Phase) :
    Partway input { s with phase := phase } front read rest :=
  ⟨⟨h.text, h.start, h.current, h.line⟩, h.owes⟩

/-- A segment that fits is done with. -/
theorem finish (segment : Segment) (h : Partway input s front segment.text rest)
    (hfits : segment.Fits rest) :
    Sound input ⟨.loop, s.start, s.current, s.line,
      s.tokens ++ (segment.token? s.line).toList, s.problems ++ (segment.problem? s.line).toList⟩ := by
  refine .loop rfl ⟨h.text, h.start, h.current, h.line⟩ ⟨?_, ?_⟩
  · rw [h.owes.tokens, split_append hfits, tokensAfter_cons, ← h.line, List.append_assoc]
  · rw [h.owes.problems, split_append hfits, problemsAfter_cons, ← h.line, List.append_assoc]

theorem finish_token (segment : Segment) {kind : TokenKind}
    (h : Partway input s front segment.text rest) (hfits : segment.Fits rest)
    (hkind : segment.kind? = some kind) :
    Sound input { s with
      phase := .loop
      tokens := s.tokens ++ [⟨kind, String.ofList segment.text, segment.literal?, s.line⟩] } := by
  have hfinish := h.finish segment hfits
  rw [token?, hkind, problem?_of_kind? hkind, Option.toList_none, List.append_nil] at hfinish
  exact hfinish

/-- A blank or a comment. -/
theorem finish_quiet (segment : Segment) (h : Partway input s front segment.text rest)
    (hfits : segment.Fits rest) (hkind : segment.kind? = none)
    (hproblem : segment.problem? s.line = none) : Sound input { s with phase := .loop } := by
  have hfinish := h.finish segment hfits
  simp only [token?, hkind, hproblem, Option.map_none, Option.toList_none, List.append_nil]
    at hfinish
  exact hfinish

theorem finish_problem (segment : Segment) {p : Problem}
    (h : Partway input s front segment.text rest) (hfits : segment.Fits rest)
    (hkind : segment.kind? = none) (hproblem : segment.problem? s.line = some p) :
    Sound input (s.report p) := by
  have hfinish := h.finish segment hfits
  rw [token?, hkind, hproblem, Option.map_none, Option.toList_none, List.append_nil] at hfinish
  exact hfinish

end Partway

end

/-! ## What a step keeps -/

section

variable {input front read rest : List Char} {s s' : State}

theorem keeps_addToken {segment : Segment} {kind : TokenKind} {literal : Option Literal}
    (h : Partway input s' front segment.text rest) (hfits : segment.Fits rest)
    (hkind : segment.kind? = some kind) (hliteral : segment.literal? = literal)
    (hfurther : Further s { s' with phase := .loop }) :
    (addToken input kind literal s').Keeps input s := by
  subst hliteral
  rw [addToken, h.lexeme]
  exact ⟨h.finish_token segment hfits hkind, hfurther⟩

theorem keeps_readSymbol {c : Char} {base : Symbol} (hbase : Symbol.ofChar? c = some base)
    (h : Partway input s' front [c] rest) (hlt : s.current < s'.current) :
    (readSymbol input base s').Keeps input s := by
  have hchars : base.chars = [c] := Symbol.chars_ofChar? hbase
  have hsymbol : Partway input s' front (symbol base).text rest := by rwa [text, hchars]
  unfold readSymbol
  cases hlonger : base.withEqual? with
  | some longer =>
    have hslash : base ≠ .slash := by
      rintro rfl
      cases hlonger
    simp only [nextIf, h.look]
    split
    · rename_i hequal
      obtain ⟨after, rfl⟩ := List.head?_eq_some_iff.mp hequal
      have hpass : Partway input (s'.pass '=') front (symbol longer).text after := by
        rw [text, Symbol.chars_withEqual? hlonger, hchars]
        exact h.pass_of_ne (by decide)
      exact keeps_addToken hpass ⟨trivial, closed_of_withEqual hlonger after⟩ rfl rfl
        (.inl (Nat.lt_trans hlt (lt_current_pass _ _)))
    · rename_i hequal
      exact keeps_addToken hsymbol ⟨trivial, fun _ => hequal, fun hs => absurd hs hslash⟩ rfl rfl
        (.inl hlt)
  | none =>
    have hopen : base.withEqual?.isSome = true → rest.head? ≠ some '=' := by simp [hlonger]
    simp only
    split
    · rename_i hslash
      subst hslash
      obtain rfl : c = '/' := by simpa [Symbol.chars] using hchars.symm
      simp only [nextIf, h.look]
      split
      · rename_i hnext
        obtain ⟨after, rfl⟩ := List.head?_eq_some_iff.mp hnext
        have hpass := (h.pass_of_ne (by decide)).enter .comment
        exact ⟨.partway (.comment List.not_mem_nil) hpass,
          .inl (Nat.lt_trans hlt (lt_current_pass _ _))⟩
      · rename_i hnext
        exact keeps_addToken hsymbol ⟨trivial, hopen, fun _ => hnext⟩ rfl rfl (.inl hlt)
    · rename_i hslash
      exact keeps_addToken hsymbol ⟨trivial, hopen, fun hs => absurd hs hslash⟩ rfl rfl (.inl hlt)

/-- After the first character. -/
theorem keeps_dispatch {c : Char} (h : Partway input s front [] (c :: rest)) :
    (dispatch input c (s.pass c)).Keeps input s := by
  have hlt : s.current < (s.pass c).current := lt_current_pass c s
  have hline := h.pass
  have hpass := fun hc => h.pass_of_ne (c := c) hc
  rw [List.nil_append] at hline hpass
  unfold dispatch
  cases hbase : Symbol.ofChar? c with
  | some base =>
    have hc : c ≠ '\n' := by
      rintro rfl
      cases hbase
    exact keeps_readSymbol hbase (hpass hc) hlt
  | none =>
    simp only
    split
    · rename_i hblank
      have hc : c ≠ '\n' := by rcases hblank with rfl | rfl | rfl <;> decide
      have hwf : (blank c).WellFormed := by rcases hblank with rfl | rfl | rfl <;> rfl
      exact ⟨(hpass hc).finish_quiet (blank c) ⟨hwf, trivial⟩ rfl rfl, .inl hlt⟩
    split
    · rename_i hfeed
      subst hfeed
      exact ⟨hline.finish_quiet (blank '\n') ⟨rfl, trivial⟩ rfl rfl, .inl hlt⟩
    rename_i hblank hfeed
    have hread := hpass hfeed
    split
    · rename_i hquote
      subst hquote
      exact ⟨.partway (.string List.not_mem_nil) (hread.enter _), .inl hlt⟩
    split
    · rename_i hdigit
      have hwf : (number [c] []).WellFormed := ⟨List.cons_ne_nil _ _, by simpa using hdigit⟩
      exact ⟨.partway (.whole hwf) (hread.enter _), .inl hlt⟩
    split
    · rename_i hstart
      have hwf : (word [c]).WellFormed :=
        ⟨by simpa using hstart, by simpa using isWordChar_of_isWordStart hstart⟩
      exact ⟨.partway (.word hwf) (hread.enter _), .inl hlt⟩
    · rename_i hquote hdigit hstart
      have hwf : (unexpected c).WellFormed :=
        ⟨by simpa [isBlank, hfeed, and_assoc] using hblank, hquote, by simpa using hdigit,
          by simpa using hstart, hbase⟩
      exact ⟨hread.finish_problem (unexpected c) ⟨hwf, trivial⟩ rfl rfl, .inl hlt⟩

theorem keeps_readToken (h : Partway input s front [] rest) (hne : rest ≠ []) :
    (readToken input s).Keeps input s := by
  obtain ⟨c, rest, rfl⟩ := List.exists_cons_of_ne_nil hne
  simp only [readToken, advance, h.look]
  exact keeps_dispatch h

/-- Characters of a class are passed one by one. -/
theorem keeps_skip {p : Char → Bool} {done : Move} (h : Stands input s front read rest)
    (hpass : ∀ c after, rest = c :: after → p c = true → Sound input (s.pass c))
    (hdone : NoMore p rest → done.Keeps input s) : (skip input p s done).Keeps input s := by
  rw [skip, h.look]
  split
  · exact hdone (noMore_nil p)
  · rename_i c after
    split
    · rename_i hp
      exact ⟨hpass c after rfl hp, .inl (lt_current_pass c s)⟩
    · rename_i hp
      exact hdone (noMore_cons.mpr (by simpa using hp))

/-- To be done with a token is to go further, even where the cursor is left. -/
theorem further_of_pending (hrank : s.phase.rank = 2) :
    Further s { s with phase := .loop } :=
  .inr ⟨rfl, hrank ▸ Nat.one_lt_two⟩

theorem keeps_closeString {body : List Char} (hphase : s.phase = .string) (hbody : '"' ∉ body)
    (h : Partway input s front ('"' :: body) rest) (hrest : NoMore (· != '"') rest) :
    (closeString input s).Keeps input s := by
  have hrank : s.phase.rank = 2 := by rw [hphase]; rfl
  unfold closeString
  split
  · rename_i hle
    obtain rfl : rest = [] := h.byteSize_le_iff.mp hle
    exact ⟨h.finish_problem (openString body) ⟨hbody, rfl⟩ rfl rfl,
      further_of_pending hrank⟩
  · -- the text goes on, so the closing quote is at the cursor
    rename_i hlt
    obtain ⟨c, after, rfl⟩ := List.exists_cons_of_ne_nil (mt h.byteSize_le_iff.mpr hlt)
    obtain rfl : c = '"' := by simpa using noMore_cons.mp hrest
    have hpass : Partway input (s.pass '"') front (string body).text after :=
      h.pass_of_ne (by decide)
    simp only [advance, h.look]
    rw [hpass.contents]
    exact keeps_addToken hpass ⟨hbody, trivial⟩ rfl rfl (.inl (lt_current_pass _ _))

theorem keeps_readString {body : List Char} (hphase : s.phase = .string) (hbody : '"' ∉ body)
    (h : Partway input s front ('"' :: body) rest) : (readString input s).Keeps input s := by
  rw [readString, h.look]
  split
  · exact keeps_closeString hphase hbody h (noMore_nil _)
  · rename_i c after
    split
    · rename_i hquote
      exact keeps_closeString hphase hbody h (noMore_cons.mpr (by simp [hquote]))
    · rename_i hquote
      have hmore : '"' ∉ body ++ [c] := by simp [hbody, Ne.symm hquote]
      have hreads : Reads s.phase ('"' :: (body ++ [c])) after := hphase ▸ .string hmore
      exact ⟨.partway hreads h.pass, .inl (lt_current_pass c s)⟩

theorem read?_number {digits more : List Char} (h : (number digits more).WellFormed) :
    Decimal.read? (number digits more).text = some (Decimal.ofNumeral digits more) := by
  obtain ⟨hne, hall⟩ := h
  have hdigits : ∀ c ∈ digits, c.isDigit = true := fun c hc => hall c (List.mem_append_left _ hc)
  cases more with
  | nil =>
    have htake := takeWhile_append_of_noMore hdigits (noMore_nil Char.isDigit)
    have hdrop := dropWhile_append_of_noMore hdigits (noMore_nil Char.isDigit)
    rw [List.append_nil] at htake hdrop
    simp only [Decimal.read?, text, htake, hdrop, if_neg hne]
  | cons d more =>
    have hpoint : NoMore Char.isDigit ('.' :: d :: more) := noMore_cons.mpr (by decide)
    have hmore : (d :: more).all Char.isDigit = true :=
      List.all_eq_true.mpr fun c hc => hall c (List.mem_append_right _ hc)
    simp only [Decimal.read?, text, takeWhile_append_of_noMore hdigits hpoint,
      dropWhile_append_of_noMore hdigits hpoint, hmore]
    simp

theorem keeps_endNumber {digits more : List Char} (hrank : s.phase.rank = 2)
    (h : Partway input s front (number digits more).text rest)
    (hfits : (number digits more).Fits rest) : (endNumber input s).Keeps input s := by
  rw [endNumber, h.lexeme, read?_number hfits.wellFormed]
  exact keeps_addToken h hfits rfl rfl (further_of_pending hrank)

theorem keeps_endWhole {digits : List Char} (hphase : s.phase = .whole)
    (hwf : (number digits []).WellFormed) (h : Partway input s front digits rest)
    (hrest : NoMore Char.isDigit rest) : (endWhole input s).Keeps input s := by
  have hrank : s.phase.rank = 2 := by rw [hphase]; rfl
  rw [endWhole, h.look]
  split
  · rename_i c after
    split
    · rename_i hc
      have hpass := (h.pass_of_ne (by decide)).enter .fraction
      exact ⟨.partway (.fraction hwf fun _ => ⟨c, rfl, hc⟩) hpass, .inl (lt_current_pass _ _)⟩
    · rename_i hc
      refine keeps_endNumber hrank h ⟨hwf, hrest, fun d more hd => ?_⟩
      cases hd
      simpa using hc
  · rename_i hpoint
    exact keeps_endNumber hrank h ⟨hwf, hrest, fun d more hd => absurd hd (hpoint d more)⟩

theorem keeps_endWord {chars : List Char} (hphase : s.phase = .word)
    (hwf : (word chars).WellFormed) (h : Partway input s front chars rest)
    (hrest : NoMore isWordChar rest) : (endWord input s).Keeps input s := by
  have hrank : s.phase.rank = 2 := by rw [hphase]; rfl
  rw [endWord, h.lexeme]
  have hword : Partway input s front (word chars).text rest := h
  exact keeps_addToken hword ⟨hwf, hrest⟩ rfl rfl (further_of_pending hrank)

theorem keeps_loop (hphase : s.phase = .loop) (h : Stands input s front read rest)
    (howes : Owes input s.tokens s.problems (front ++ read) rest) :
    (step input s).Keeps input s := by
  simp only [step, hphase]
  split
  · rename_i hle
    obtain rfl : rest = [] := h.byteSize_le_iff.mp hle
    rw [Move.Keeps, howes.tokens, howes.problems, split_nil, tokensAfter_nil, problemsAfter_nil,
      List.append_nil, ← h.line]
  · -- what was read is done with, and the next token starts at the cursor
    rename_i hlt
    have hne : rest ≠ [] := mt h.byteSize_le_iff.mpr hlt
    have hnext : Partway input { s with phase := .token, start := s.current } (front ++ read) []
        rest := by
      constructor
      · constructor
        · simp [h.text]
        · exact h.current
        · simpa using h.current
        · simpa using h.line
      · exact howes
    have hrank : Phase.token.rank < s.phase.rank := by
      rw [hphase]
      exact Nat.zero_lt_one
    exact ⟨.partway (.token hne) hnext, .inr ⟨rfl, hrank⟩⟩

/-- A step does not crash. It keeps what a state stands for and goes further, or it stops with the
scan. -/
theorem keeps_step (h : Sound input s) : (step input s).Keeps input s := by
  cases h with
  | loop hphase h howes => exact keeps_loop hphase h howes
  | @partway front read rest hreads h =>
    generalize hphase : s.phase = phase at hreads
    have hnext : ∀ c after, rest = c :: after → c ≠ '\n' → Reads phase (read ++ [c]) after →
        Sound input (s.pass c) := by
      rintro c after rfl hc hreads'
      exact .partway (hphase ▸ hreads') (h.pass_of_ne hc)
    cases hreads with
    | token hne =>
      simp only [step, hphase]
      exact keeps_readToken h hne
    | @comment body _ hbody =>
      simp only [step, hphase]
      refine keeps_skip h.toStands (fun c after hrest hc => ?_) fun hrest => ?_
      · have hfeed : c ≠ '\n' := by simpa using hc
        exact hnext c after hrest hfeed (.comment (by simp [hbody, Ne.symm hfeed]))
      · exact ⟨h.finish_quiet (comment body) ⟨hbody, hrest⟩ rfl rfl,
          further_of_pending (by rw [hphase]; rfl)⟩
    | string hbody =>
      simp only [step, hphase]
      exact keeps_readString hphase hbody h
    | whole hwf =>
      simp only [step, hphase]
      refine keeps_skip h.toStands (fun c after hrest hc => ?_) fun hrest => ?_
      · have hfeed : c ≠ '\n' := by rintro rfl; cases hc
        have hdigits := List.forall_mem_append.mpr ⟨hwf.2, List.forall_mem_singleton.mpr hc⟩
        exact hnext c after hrest hfeed (.whole ⟨by simp, by simpa using hdigits⟩)
      · exact keeps_endWhole hphase hwf h hrest
    | @fraction digits more _ hwf hmore =>
      simp only [step, hphase]
      refine keeps_skip h.toStands (fun c after hrest hc => ?_) fun hrest => ?_
      · have hfeed : c ≠ '\n' := by rintro rfl; cases hc
        have hdigits := List.forall_mem_append.mpr ⟨hwf.2, List.forall_mem_singleton.mpr hc⟩
        have hreads : Reads .fraction (digits ++ '.' :: (more ++ [c])) after :=
          .fraction ⟨hwf.1, by simpa using hdigits⟩ (by simp)
        exact hnext c after hrest hfeed (by simpa using hreads)
      · cases more with
        | nil =>
          -- the point was passed because a digit follows it
          obtain ⟨c, hc, hdigit⟩ := hmore rfl
          cases hdigit.symm.trans (hrest c hc)
        | cons d more =>
          have hnumber : Partway input s front (number digits (d :: more)).text rest := h
          exact keeps_endNumber (by rw [hphase]; rfl) hnumber ⟨hwf, hrest⟩
    | word hwf =>
      simp only [step, hphase]
      refine keeps_skip h.toStands (fun c after hrest hc => ?_) fun hrest => ?_
      · have hfeed : c ≠ '\n' := by rintro rfl; revert hc; decide
        have hchars := List.forall_mem_append.mpr ⟨hwf.2, List.forall_mem_singleton.mpr hc⟩
        obtain ⟨d, chars, rfl, hstart, -⟩ := hwf.exists_word
        exact hnext c after hrest hfeed (.word ⟨by simpa using hstart, hchars⟩)
      · exact keeps_endWord hphase hwf h hrest

/-! ## Runs -/

theorem sound_start (input : List Char) : Sound input start := by
  have hstands : Stands input start [] [] input := ⟨rfl, rfl, rfl, rfl⟩
  exact .loop rfl hstands ⟨rfl, rfl⟩

theorem Moves.keeps (h : Moves input s s') (hs : Sound input s) :
    Sound input s' ∧ Further s s' := by
  have hstep := keeps_step hs
  rw [h] at hstep
  exact hstep

theorem Reaches.sound (h : Reaches input s s') (hs : Sound input s) : Sound input s' :=
  kept_of_reaches (Sound input) (fun _ _ hmove hsound => (hmove.keeps hsound).1) h hs

theorem Further.le_current (h : Further s s') : s.current ≤ s'.current := by
  rcases h with hlt | ⟨heq, -⟩
  · exact Nat.le_of_lt hlt
  · exact Nat.le_of_eq heq

theorem Reaches.le_current (h : Reaches input s s') (hs : Sound input s) :
    s.current ≤ s'.current := by
  induction h with
  | refl => exact Nat.le_refl _
  | tail hreach hmove ih =>
    exact Nat.le_trans ih (hmove.keeps (Reaches.sound hreach hs)).2.le_current

/-- Reading a token moves the cursor. -/
theorem lt_current_of_token (hs : Sound input s) (hphase : s.phase = .token)
    (h : Relation.TransGen (Moves input) s s') : s.current < s'.current := by
  obtain ⟨next, hmove, hreach⟩ := Relation.TransGen.head'_iff.mp h
  obtain ⟨hnext, hlt | ⟨-, hrank⟩⟩ := hmove.keeps hs
  · exact Nat.lt_of_lt_of_le hlt (Reaches.le_current hreach hnext)
  · rw [hphase] at hrank
    cases hrank

theorem Sound.stands (h : Sound input s) : ∃ front read rest, Stands input s front read rest := by
  cases h with
  | loop _ h _ => exact ⟨_, _, _, h⟩
  | partway _ h => exact ⟨_, _, _, h.toStands⟩

theorem Sound.current_le (h : Sound input s) : s.current ≤ byteSize input := by
  obtain ⟨front, read, rest, hstands⟩ := h.stands
  rw [hstands.byteSize_eq]
  omega

theorem Sound.bounds {source : String} (h : Sound source.toList s) :
    s.start ≤ s.current ∧ s.current ≤ source.utf8ByteSize ∧
      String.Pos.Raw.IsValid source ⟨s.start⟩ ∧ String.Pos.Raw.IsValid source ⟨s.current⟩ ∧
      s.line ≤ s.current + 1 := by
  obtain ⟨front, read, rest, hstands⟩ := h.stands
  refine ⟨?_, ?_, ?_, ?_, hstands.line_le⟩
  · rw [hstands.start, hstands.current, byteSize_append]
    exact Nat.le_add_right _ _
  · rw [← byteSize_toList]
    exact h.current_le
  · exact isValid_iff.mpr ⟨front, read ++ rest, by simp [hstands.text], hstands.start.symm⟩
  · exact isValid_iff.mpr ⟨front ++ read, rest, hstands.text, hstands.current.symm⟩

/-- What has been read of a string is a slice without its quote. -/
theorem Sound.contents (h : Sound input s) (hphase : s.phase = .string) :
    ∃ body, slice? input (s.start + 1) s.current = some body := by
  cases h with
  | loop hloop => cases hloop.symm.trans hphase
  | @partway front _ rest hreads h =>
    rw [hphase] at hreads
    cases hreads with
    | @string body =>
      have htext : input = front ++ '"' :: (body ++ rest) := by simp [h.text]
      refine ⟨body, ?_⟩
      rw [h.start, h.current, htext]
      exact slice?_behind_quote front body rest

/-- What is left of the text with the rank of the phase. -/
def State.left (input : List Char) (s : State) : Nat ×ₗ Nat :=
  toLex (byteSize input - s.current, s.phase.rank)

theorem Further.left_lt (h : Further s s') (hs' : Sound input s') :
    s'.left input < s.left input := by
  have hle := hs'.current_le
  rw [State.left, State.left, Prod.Lex.toLex_lt_toLex]
  rcases h with hlt | ⟨heq, hrank⟩
  · exact .inl (by simp only; omega)
  · exact .inr ⟨by simp only [heq], hrank⟩

theorem Moves.left_lt (h : Moves input s s') (hs : Sound input s) :
    Sound input s' ∧ s'.left input < s.left input := by
  obtain ⟨hs', hfurther⟩ := h.keeps hs
  exact ⟨hs', hfurther.left_lt hs'⟩

/-- A scanner that goes on as long as it can stops. -/
theorem exists_stop {s : State} (h : Sound input s) :
    ∃ last, Reaches input s last ∧
      step input last = .stop ⟨tokensAfter [] (split input), problemsAfter [] (split input)⟩ := by
  have hkeeps := keeps_step h
  cases hmove : step input s with
  | next s' =>
    obtain ⟨hs', hlt⟩ := Moves.left_lt hmove h
    obtain ⟨last, hreach, hstop⟩ := exists_stop hs'
    exact ⟨last, .head hmove hreach, hstop⟩
  | stop result =>
    rw [hmove] at hkeeps
    exact ⟨s, .refl, hmove.trans (congrArg Move.stop hkeeps)⟩
  | crash =>
    rw [hmove] at hkeeps
    cases hkeeps
termination_by s.left input
decreasing_by exact hlt

end

end ByteScanner

open ByteScanner

/-- Byte offsets stay valid. In every state that the scanner reaches on a text, its token starts
at or before the cursor and the cursor is in the text, both on the boundary of a character, and
the lines are no more than the bytes passed and one. So what has been read of the token is a slice
of the text, as is what has been read of a string without its quote, and no slice that the next
step takes is out of range or cuts through a character. Once a token is begun, the cursor has moved
in whatever state comes after. So there is no run without end, and the scanner stops, with the scan
of the text. -/
theorem byte_offsets_stay_valid (source : String) :
    (∀ s, Reaches source.toList start s →
      s.start ≤ s.current ∧ s.current ≤ source.utf8ByteSize ∧
      String.Pos.Raw.IsValid source ⟨s.start⟩ ∧ String.Pos.Raw.IsValid source ⟨s.current⟩ ∧
      s.line ≤ s.current + 1) ∧
    (∀ s, Reaches source.toList start s →
      (slice? source.toList s.start s.current).isSome ∧
      (s.phase = .string → (slice? source.toList (s.start + 1) s.current).isSome) ∧
      step source.toList s ≠ .crash) ∧
    (∀ s s', Reaches source.toList start s → s.phase = .token →
      Relation.TransGen (Moves source.toList) s s' → s.current < s'.current) ∧
    (∀ run : Nat → State, run 0 = start → ¬ ∀ n, Moves source.toList (run n) (run (n + 1))) ∧
    ∃ last, Reaches source.toList start last ∧ step source.toList last = .stop (scan source) := by
  have hstart := sound_start source.toList
  refine ⟨fun s hreach => (hreach.sound hstart).bounds, fun s hreach => ?_,
    fun s s' hreach hphase hmoves => ?_, fun run hrun => ?_, ?_⟩
  · have hsound := hreach.sound hstart
    obtain ⟨hle, -, hfirst, hcursor, -⟩ := hsound.bounds
    refine ⟨isSome_slice?_iff.mpr ⟨hle, hfirst, hcursor⟩, fun hphase => ?_, fun hcrash => ?_⟩
    · exact Option.isSome_iff_exists.mpr (hsound.contents hphase)
    · have hkeeps := keeps_step hsound
      rw [hcrash] at hkeeps
      exact hkeeps
  · exact lt_current_of_token (hreach.sound hstart) hphase hmoves
  · exact not_forall_moves (State.left _) (fun _ _ => Moves.left_lt) (hrun ▸ hstart)
  · rw [scan_eq_after]
    exact exists_stop hstart

end Lox
