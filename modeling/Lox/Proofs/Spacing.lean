import Lox.Proofs.Shift
import Lox.Proofs.Written
import Mathlib.Data.List.Chain

/-! Tokens written one behind the other, with blanks between them. A segment that is a token
is closed by a blank (`Solid.closed`), and by the text of a token with which it needs no gap
(`Solid.closed_before`): one character of that text tells them apart. So however the blanks are
chosen, the tokens are scanned again (`scan_spaced_tokens`). -/

namespace Lox

/-- The texts that a token of a kind can have. -/
inductive Lexeme : TokenKind → List Char → Prop
  | fixed {kind chars} : kind.fixedText = some (String.ofList chars) → Lexeme kind chars
  | identifier {c chars} : isWordStart c = true → (∀ d ∈ chars, isWordChar d = true) →
      (∀ k : Keyword, (TokenKind.keyword k).fixedText ≠ some (String.ofList (c :: chars))) →
      Lexeme .identifier (c :: chars)
  | string {body} : '"' ∉ body → Lexeme .string ('"' :: (body ++ ['"']))
  | number {digits x} : Numeral digits x → Lexeme .number digits

/-- Between two tokens a gap is due where one is asked for, and on either side of a number. -/
def NeedsGap (left right : TokenKind) : Prop :=
  left.requiresSeparator right = true ∨ left = .number ∨ right = .number

theorem noMore_of_blank {p : Char → Bool} (hp : [' ', '\r', '\t', '\n'].any p = false)
    {after : List Char} (ha : NoMore (!isBlank ·) after) : NoMore p after := by
  intro c hc
  have hblank : isBlank c = true := by simpa using ha c hc
  exact Bool.eq_false_iff.mpr (List.any_eq_false.mp hp c (Segment.isBlank_iff.mp hblank))

namespace Symbol

theorem eq_slash_of_head? {s : Symbol} (h : s.chars.head? = some '/') : s = .slash := by
  revert h
  cases s <;> decide

theorem startsWithEqual_of_head? {s : Symbol} (h : s.chars.head? = some '=') :
    (TokenKind.symbol s).startsWithEqual = true := by
  revert h
  cases s <;> decide

theorem noMore_isWordChar_chars (s : Symbol) (after : List Char) :
    NoMore isWordChar (s.chars ++ after) := by
  cases s <;> exact noMore_cons.mpr (by decide)

end Symbol

namespace Segment

/-- A segment that is a token by itself. -/
structure Solid (s : Segment) : Prop where
  wellFormed : s.WellFormed
  token : s.kind?.isSome = true

theorem solid_symbol (s : Symbol) : (symbol s).Solid := ⟨trivial, rfl⟩

theorem solid_keyword (k : Keyword) : (word k.text.toList).Solid := by
  have hall : k.text.toList.all isWordChar = true := by cases k <;> rfl
  have hhead : k.text.toList.head?.any isWordStart = true := by cases k <;> rfl
  exact ⟨⟨hhead, List.all_eq_true.mp hall⟩, rfl⟩

theorem kind?_keyword (k : Keyword) : (word k.text.toList).kind? = some (.keyword k) := by
  simp [kind?, Keyword.ofText?_text]

theorem isWord_of_word {chars : List Char} {kind : TokenKind}
    (h : (word chars).kind? = some kind) : kind.isWord = true := by
  cases spells_of_kind? h <;> rfl

/-- No token goes on into a blank, and none into the end of the text. -/
theorem Solid.closed {s : Segment} (h : s.Solid) {after : List Char}
    (ha : NoMore (!isBlank ·) after) : s.Closed after := by
  have hhead : ∀ {c}, isBlank c = false → after.head? ≠ some c := by
    intro c hc he
    have := ha c he
    simp [hc] at this
  have htoken := h.token
  cases s with
  | blank | comment | openString | unexpected => cases htoken
  | string => trivial
  | number whole fraction =>
    have hmore : NoMore Char.isDigit after := noMore_of_blank rfl ha
    cases fraction with
    | nil => exact ⟨hmore, fun c rest hr => absurd (congrArg List.head? hr) (hhead rfl)⟩
    | cons => exact hmore
  | word => exact noMore_of_blank rfl ha
  | symbol s => exact ⟨fun _ => hhead rfl, fun _ => hhead rfl⟩

/-- A symbol at the front of the text of a token is that of a symbol, unless it is a number. -/
theorem Solid.eq_symbol_of_head? {s : Segment} (h : s.Solid) (hn : s.kind? ≠ some .number)
    {c : Char} {base : Symbol} (hc : Symbol.ofChar? c = some base) {after : List Char}
    (he : (s.text ++ after).head? = some c) : ∃ t, s = symbol t ∧ t.chars.head? = some c := by
  obtain ⟨-, hq, -, hw⟩ := Symbol.plain_of_ofChar? hc
  obtain ⟨hwf, htoken⟩ := h
  cases s with
  | blank | comment | openString | unexpected => cases htoken
  | number => exact absurd rfl hn
  | string => exact absurd (Option.some.inj he).symm hq
  | word chars =>
    obtain ⟨d, ds, rfl, hstart, -⟩ := hwf.exists_word
    obtain rfl : d = c := Option.some.inj he
    simp [hstart] at hw
  | symbol t =>
    refine ⟨t, rfl, ?_⟩
    rwa [text, List.head?_append_of_ne_nil _ t.chars_ne_nil] at he

/-- No token goes on into the text of one from which it needs no gap. -/
theorem Solid.closed_before {s next : Segment} {left right : TokenKind} (h : next.Solid)
    (hl : s.kind? = some left) (hr : next.kind? = some right) (hgap : ¬ NeedsGap left right)
    (after : List Char) : s.Closed (next.text ++ after) := by
  obtain ⟨hsep, hleft, hright⟩ : ¬ left.requiresSeparator right = true ∧ left ≠ .number ∧
      right ≠ .number := by simpa [NeedsGap] using hgap
  cases s with
  | blank | comment | openString | unexpected => cases hl
  | string => trivial
  | number => exact absurd (Option.some.inj hl).symm hleft
  | word chars =>
    have htoken := h.token
    cases next with
    | blank | comment | openString | unexpected => cases htoken
    | number => exact absurd (Option.some.inj hr).symm hright
    | string => exact noMore_cons.mpr (by decide)
    | word =>
      simp [TokenKind.requiresSeparator, isWord_of_word hl, isWord_of_word hr] at hsep
    | symbol t => exact t.noMore_isWordChar_chars after
  | symbol s =>
    obtain rfl : .symbol s = left := Option.some.inj hl
    have hn : next.kind? ≠ some .number := by simpa [hr] using hright
    refine ⟨fun htakes he => ?_, fun hslash he => ?_⟩
    · have hequal : Symbol.ofChar? '=' = some .equal := rfl
      obtain ⟨t, rfl, ht⟩ := h.eq_symbol_of_head? hn hequal he
      obtain rfl : .symbol t = right := Option.some.inj hr
      simp [TokenKind.requiresSeparator, TokenKind.takesEqual_symbol, htakes,
        Symbol.startsWithEqual_of_head? ht] at hsep
    · have hstroke : Symbol.ofChar? '/' = some .slash := rfl
      obtain ⟨t, rfl, ht⟩ := h.eq_symbol_of_head? hn hstroke he
      obtain rfl : .symbol t = right := Option.some.inj hr
      simp [TokenKind.requiresSeparator, hslash, Symbol.eq_slash_of_head? ht] at hsep

/-- But for the lines, a scan gives the tokens that the segments are. -/
theorem map_unplaced_tokensAfter (before : List Char) (segments : List Segment) :
    (tokensAfter before segments).map Token.unplaced =
      segments.filterMap (token? 0) ++ [.eof 0] := by
  induction segments generalizing before with
  | nil => rfl
  | cons s rest ih =>
    rw [tokensAfter_cons, List.map_append, ih, List.filterMap_cons]
    cases hk : s.kind? <;> simp [token?, hk, Token.unplaced]

/-! ## Blanks -/

theorem flatMap_text_blanks (gap : List Char) : (gap.map blank).flatMap text = gap := by
  induction gap with
  | nil => rfl
  | cons c gap ih => rw [List.map_cons, List.flatMap_cons, ih]; rfl

theorem fitting_blanks {gap : List Char} (h : ∀ c ∈ gap, isBlank c = true) (after : List Char) :
    Fitting after (gap.map blank) := by
  induction gap with
  | nil => exact .nil
  | cons c gap ih =>
    obtain ⟨hc, hgap⟩ := List.forall_mem_cons.mp h
    exact .cons ⟨hc, trivial⟩ (ih hgap)

theorem filterMap_blanks (gap : List Char) (line : Nat) :
    (gap.map blank).filterMap (token? line) = [] := by
  induction gap with
  | nil => rfl
  | cons c gap ih => exact ih

theorem noMore_blanks {gap : List Char} (h : ∀ c ∈ gap, isBlank c = true) (hne : gap ≠ [])
    (after : List Char) : NoMore (!isBlank ·) (gap ++ after) := by
  obtain ⟨c, gap, rfl⟩ := List.exists_cons_of_ne_nil hne
  exact noMore_cons.mpr (by simp [h c List.mem_cons_self])

end Segment

open Segment

/-! ## The segment of a lexeme -/

theorem Numeral.exists_segment {digits : List Char} {x : Float} (h : Numeral digits x) :
    ∃ s : Segment, s.text = digits ∧ s.Solid ∧ s.kind? = some .number ∧
      s.literal? = some (.number x) := by
  cases h with
  | whole hne hd => exact ⟨number digits [], rfl, ⟨⟨hne, by simpa using hd⟩, rfl⟩, rfl, rfl⟩
  | @point whole fraction hne hd hne' hd' =>
    obtain ⟨c, rest, rfl⟩ := List.exists_cons_of_ne_nil hne'
    have hall : ∀ d ∈ whole ++ c :: rest, d.isDigit = true := fun d hm =>
      (List.mem_append.mp hm).elim (hd d) (hd' d)
    exact ⟨number whole (c :: rest), rfl, ⟨⟨hne, hall⟩, rfl⟩, rfl, rfl⟩

theorem Lexeme.exists_segment {kind : TokenKind} {chars : List Char} (h : Lexeme kind chars) :
    ∃ s : Segment, s.text = chars ∧ s.Solid ∧ s.kind? = some kind := by
  cases h with
  | fixed hf =>
    cases kind with
    | identifier | string | number | eof => cases hf
    | symbol s =>
      have hs : s.chars = chars := String.ofList_injective (Option.some.inj hf)
      exact ⟨.symbol s, hs, solid_symbol s, rfl⟩
    | keyword k =>
      have hk : k.text.toList = chars := by
        rw [← String.toList_ofList (l := chars)]
        exact congrArg String.toList (Option.some.inj hf)
      exact ⟨word k.text.toList, hk, solid_keyword k, kind?_keyword k⟩
  | @identifier c chars hstart hall hnone =>
    refine ⟨word (c :: chars), rfl, ⟨⟨by simpa using hstart, fun d hd => ?_⟩, rfl⟩,
      (Spells.identifier hnone).eq.1⟩
    rcases List.mem_cons.mp hd with rfl | hd
    · exact isWordChar_of_isWordStart hstart
    · exact hall d hd
  | @string body hq => exact ⟨.string body, rfl, ⟨hq, rfl⟩, rfl⟩
  | number hx =>
    obtain ⟨s, hs, hsolid, hkind, -⟩ := hx.exists_segment
    exact ⟨s, hs, hsolid, hkind⟩

/-! ## Tokens and gaps -/

/-- A token to be written, with the blanks before it. -/
structure SpacedToken where
  gap : List Char
  kind : TokenKind
  lexeme : List Char

namespace SpacedToken

def text (t : SpacedToken) : List Char :=
  t.gap ++ t.lexeme

structure Valid (t : SpacedToken) : Prop where
  gap : ∀ c ∈ t.gap, c ∈ [' ', '\r', '\t', '\n']
  lexeme : Lexeme t.kind t.lexeme

/-- Where a gap is due between two tokens, the second has one. -/
def Apart (left right : SpacedToken) : Prop :=
  NeedsGap left.kind right.kind → right.gap ≠ []

end SpacedToken

/-- What spaced tokens, and the blanks after them, are split into. -/
structure Spacing (ts : List SpacedToken) (trailing : List Char) (segments : List Segment) :
    Prop where
  text : segments.flatMap text = ts.flatMap SpacedToken.text ++ trailing
  fitting : Fitting [] segments
  quiet : ∀ s ∈ segments, ∀ line, s.problem? line = none
  tokens : (segments.filterMap (token? 0)).map (fun t => (t.kind, t.lexeme)) =
    ts.map fun t => (t.kind, String.ofList t.lexeme)

/-- A token is closed by the tokens that follow it, or by the blanks after the last. -/
theorem Segment.Solid.closed_of_apart {s : Segment} {t : SpacedToken} {ts : List SpacedToken}
    {trailing : List Char} (hs : s.Solid) (hkind : s.kind? = some t.kind)
    (hvalid : ∀ u ∈ ts, u.Valid) (htrailing : ∀ c ∈ trailing, isBlank c = true)
    (hapart : ∀ u ∈ ts.head?, t.Apart u) :
    s.Closed (ts.flatMap SpacedToken.text ++ trailing) := by
  cases ts with
  | nil =>
    refine hs.closed fun c hc => ?_
    simp [htrailing c (List.mem_of_mem_head? hc)]
  | cons u ts =>
    obtain ⟨hgap, hlexeme⟩ := hvalid u List.mem_cons_self
    rw [List.flatMap_cons, SpacedToken.text, List.append_assoc, List.append_assoc]
    by_cases hu : u.gap = []
    · obtain ⟨next, htext, hnext, hkind'⟩ := hlexeme.exists_segment
      rw [hu, List.nil_append, ← htext]
      exact hnext.closed_before hkind hkind' (fun hneeds => hapart u rfl hneeds hu) _
    · exact hs.closed (noMore_blanks (fun c hc => isBlank_iff.mpr (hgap c hc)) hu _)

theorem exists_spacing {ts : List SpacedToken} {trailing : List Char}
    (hvalid : ∀ t ∈ ts, t.Valid) (htrailing : ∀ c ∈ trailing, isBlank c = true)
    (hapart : ts.IsChain SpacedToken.Apart) : ∃ segments, Spacing ts trailing segments := by
  induction ts with
  | nil =>
    refine ⟨trailing.map blank, flatMap_text_blanks _, fitting_blanks htrailing [], ?_, ?_⟩
    · intro s hs
      obtain ⟨c, -, rfl⟩ := List.mem_map.mp hs
      exact (silent_blank c).problem
    · rw [filterMap_blanks]
      rfl
  | cons t ts ih =>
    obtain ⟨ht, hrest⟩ := List.forall_mem_cons.mp hvalid
    obtain ⟨hhead, htail⟩ := List.isChain_cons.mp hapart
    obtain ⟨rest, hspacing⟩ := ih hrest htail
    obtain ⟨s, htext, hs, hkind⟩ := ht.lexeme.exists_segment
    have hgap : ∀ c ∈ t.gap, isBlank c = true := fun c hc => isBlank_iff.mpr (ht.gap c hc)
    have hclosed := hs.closed_of_apart hkind hrest htrailing hhead
    refine ⟨t.gap.map blank ++ s :: rest, ?_, ?_, ?_, ?_⟩
    · rw [List.flatMap_append, flatMap_text_blanks, List.flatMap_cons, htext, hspacing.text]
      simp [SpacedToken.text]
    · refine (fitting_blanks hgap _).append (.cons ⟨hs.wellFormed, ?_⟩ hspacing.fitting)
      rwa [List.append_nil, hspacing.text]
    · intro u hu
      rcases List.mem_append.mp hu with hu | hu
      · obtain ⟨c, -, rfl⟩ := List.mem_map.mp hu
        exact (silent_blank c).problem
      · rcases List.mem_cons.mp hu with rfl | hu
        · exact problem?_of_kind? hkind
        · exact hspacing.quiet u hu
    · rw [List.filterMap_append, filterMap_blanks, List.nil_append, List.filterMap_cons]
      simp [token?, hkind, htext, ← hspacing.tokens]

/-- The separator law. Tokens of any kinds but the end marker, with any blanks before, between
and after them, are scanned to the same kinds and lexemes in the same order and then the end
marker, and nothing is reported, provided that blanks stand between two neighbours that ask for
a separator or one of which is a number. -/
theorem scan_spaced_tokens (ts : List SpacedToken) (trailing : List Char)
    (hvalid : ∀ t ∈ ts, t.Valid) (htrailing : ∀ c ∈ trailing, c ∈ [' ', '\r', '\t', '\n'])
    (hapart : ts.IsChain SpacedToken.Apart) :
    (scan (String.ofList (ts.flatMap SpacedToken.text ++ trailing))).problems = [] ∧
      (scan (String.ofList (ts.flatMap SpacedToken.text ++ trailing))).tokens.map
          (fun t => (t.kind, t.lexeme)) =
        ts.map (fun t => (t.kind, String.ofList t.lexeme)) ++ [(.eof, "")] := by
  obtain ⟨segments, hspacing⟩ :=
    exists_spacing hvalid (fun c hc => isBlank_iff.mpr (htrailing c hc)) hapart
  have hsplit : split (ts.flatMap SpacedToken.text ++ trailing) = segments := by
    rw [← hspacing.text]
    simpa [split_nil] using hspacing.fitting.split_append
  rw [scan_eq_after, String.toList_ofList, hsplit]
  refine ⟨problemsAfter_eq_nil hspacing.quiet [], ?_⟩
  -- kinds and lexemes do not depend on the lines
  calc (tokensAfter [] segments).map (fun t => (t.kind, t.lexeme))
      = ((tokensAfter [] segments).map Token.unplaced).map (fun t => (t.kind, t.lexeme)) := by
        rw [List.map_map]
        rfl
    _ = _ := by
        rw [map_unplaced_tokensAfter, List.map_append, hspacing.tokens]
        rfl

/-- Only `!` and `==`, and the number, need what stands between them and their neighbours. -/
theorem scan_spaced_tokens_tight :
    (scan "if(!\t==\"//\"if_\n1.5\r").problems = [] ∧
      (scan "if(!\t==\"//\"if_\n1.5\r").tokens.map (fun t => (t.kind, t.lexeme)) =
        [(.keyword .if, "if"), (.symbol .leftParen, "("), (.symbol .bang, "!"),
          (.symbol .equalEqual, "=="), (.string, "\"//\""), (.identifier, "if_"),
          (.number, "1.5"), (.eof, "")] := by
  have hidentifier : Lexeme .identifier ['i', 'f', '_'] :=
    .identifier rfl (List.all_eq_true.mp rfl) fun k => by cases k <;> decide
  have hnumber : Lexeme .number ['1', '.', '5'] :=
    .number (@Numeral.point ['1'] ['5'] (List.cons_ne_nil _ _) (List.all_eq_true.mp rfl)
      (List.cons_ne_nil _ _) (List.all_eq_true.mp rfl))
  have hstring : Lexeme .string ['"', '/', '/', '"'] := @Lexeme.string ['/', '/'] (by decide)
  let ts : List SpacedToken :=
    [⟨[], .keyword .if, ['i', 'f']⟩, ⟨[], .symbol .leftParen, ['(']⟩, ⟨[], .symbol .bang, ['!']⟩,
      ⟨['\t'], .symbol .equalEqual, ['=', '=']⟩, ⟨[], .string, ['"', '/', '/', '"']⟩,
      ⟨[], .identifier, ['i', 'f', '_']⟩, ⟨['\n'], .number, ['1', '.', '5']⟩]
  have hvalid : ∀ t ∈ ts, t.Valid := by
    simp only [ts, List.forall_mem_cons]
    exact ⟨⟨nofun, .fixed rfl⟩, ⟨nofun, .fixed rfl⟩, ⟨nofun, .fixed rfl⟩,
      ⟨List.forall_mem_singleton.mpr (by decide), .fixed rfl⟩, ⟨nofun, hstring⟩,
      ⟨nofun, hidentifier⟩, ⟨List.forall_mem_singleton.mpr (by decide), hnumber⟩, nofun⟩
  have hapart : ts.IsChain SpacedToken.Apart := by
    simp [ts, SpacedToken.Apart, NeedsGap, TokenKind.requiresSeparator, TokenKind.isWord,
      TokenKind.takesEqual, TokenKind.startsWithEqual]
  exact scan_spaced_tokens ts ['\r'] hvalid (List.forall_mem_singleton.mpr (by decide)) hapart

end Lox
