import Lox.Proofs.Spacing

/-! Two tokens side by side. They are scanned as these two exactly when the first is closed by
the text of the second (`scansApart_of_closed`, `closed_of_scansApart`), and that is told by the
first character of that text, hence by the two kinds (`Solid.closed_iff`): it is not closed where a
separator is asked for, or where a number stands behind a word or another number. For these last
pairs no separator is asked for, yet they run together. -/

namespace Lox

/-- A number goes on with a word or a number before it. -/
def TokenKind.RunsOn (left right : TokenKind) : Prop :=
  right = .number ∧ (left.isWord = true ∨ left = .number)

/-- Side by side, the two texts are scanned to two tokens of these kinds and the end marker. -/
def ScansApart (left right : TokenKind) (l r : List Char) : Prop :=
  (scan (String.ofList (l ++ r))).tokens.map (fun t => (t.kind, t.lexeme)) =
    [(left, String.ofList l), (right, String.ofList r), (.eof, "")]

/-- What the first character of a token tells of its kind. A point is a token by itself. -/
structure TokenKind.Heads (kind : TokenKind) (c : Char) (rest : List Char) : Prop where
  digit : c.isDigit = true ↔ kind = .number
  wordChar : isWordChar c = true ↔ kind.isWord = true ∨ kind = .number
  equal : c = '=' ↔ kind.startsWithEqual = true
  slash : c = '/' ↔ kind = .symbol .slash
  point : c = '.' → rest = []

theorem isWordChar_of_isDigit {c : Char} (h : c.isDigit = true) : isWordChar c = true := by
  simp [isWordChar, Char.isAlphanum, h]

namespace Segment

theorem Solid.exists_heads {s : Segment} {kind : TokenKind} (h : s.Solid)
    (hk : s.kind? = some kind) : ∃ c rest, s.text = c :: rest ∧ kind.Heads c rest := by
  obtain ⟨hwf, htoken⟩ := h
  cases s with
  | blank | comment | openString | unexpected => cases htoken
  | string body =>
    cases hk
    exact ⟨'"', _, rfl, by decide, by decide, by decide, by decide, by simp⟩
  | number whole fraction =>
    cases hk
    obtain ⟨hne, hdigits⟩ := hwf
    obtain ⟨c, rest, rfl⟩ := List.exists_cons_of_ne_nil hne
    have hc : c.isDigit = true := hdigits c (by simp)
    have hother : ∀ d : Char, d.isDigit = false → c ≠ d := by
      rintro d hd rfl
      simp [hc] at hd
    obtain ⟨more, hmore⟩ : ∃ more, (number (c :: rest) fraction).text = c :: more := by
      cases fraction <;> exact ⟨_, rfl⟩
    refine ⟨c, more, hmore, by simp [hc], by simp [isWordChar_of_isDigit hc], ?_, ?_, ?_⟩
    · simp [hother '=' rfl, TokenKind.startsWithEqual]
    · simp [hother '/' rfl]
    · exact fun hp => absurd hp (hother '.' rfl)
  | word chars =>
    obtain ⟨c, rest, rfl, hstart, -⟩ := hwf.exists_word
    have hword := isWord_of_word hk
    have hne : ∀ other : TokenKind, other.isWord = false → kind ≠ other := by
      rintro other ho rfl
      simp [hword] at ho
    have hother : ∀ d, isWordStart d = false → c ≠ d := by
      rintro d hd rfl
      simp [hstart] at hd
    have hequal : kind.startsWithEqual = false := by cases spells_of_kind? hk <;> rfl
    refine ⟨c, rest, rfl, ?_, ?_, ?_, ?_, ?_⟩
    · simp [isDigit_eq_false_of_isWordStart hstart, hne .number rfl]
    · simp [isWordChar_of_isWordStart hstart, hword]
    · simp [hother '=' rfl, hequal]
    · simp [hother '/' rfl, hne (.symbol .slash) rfl]
    · exact fun hp => absurd hp (hother '.' rfl)
  | symbol t =>
    cases hk
    cases t <;> exact ⟨_, _, rfl, by constructor <;> decide⟩

/-- A token is closed by the text of another, unless their kinds say that it goes on. -/
theorem Solid.closed_iff {s next : Segment} {left right : TokenKind} (h : next.Solid)
    (hl : s.kind? = some left) (hr : next.kind? = some right) :
    s.Closed next.text ↔ ¬ (left.requiresSeparator right = true ∨ left.RunsOn right) := by
  obtain ⟨c, rest, htext, hheads⟩ := h.exists_heads hr
  rw [htext]
  cases s with
  | blank | comment | openString | unexpected => cases hl
  | string =>
    cases hl
    simp [Closed, TokenKind.requiresSeparator, TokenKind.RunsOn, TokenKind.isWord,
      TokenKind.takesEqual]
  | number whole fraction =>
    cases hl
    have hstop : (number whole fraction).Closed (c :: rest) ↔ c.isDigit = false := by
      cases fraction with
      | cons => exact noMore_cons
      | nil =>
        refine ⟨fun h => noMore_cons.mp h.1, fun h => ⟨noMore_cons.mpr h, fun d more hp => ?_⟩⟩
        obtain ⟨rfl, rfl⟩ := List.cons.inj hp
        cases hheads.point rfl
    rw [hstop, ← Bool.not_eq_true, hheads.digit]
    simp [TokenKind.requiresSeparator, TokenKind.RunsOn, TokenKind.isWord, TokenKind.takesEqual]
  | word chars =>
    have hword := isWord_of_word hl
    have htakes : left.takesEqual = false := by cases spells_of_kind? hl <;> rfl
    have hslash : left ≠ .symbol .slash := by
      rintro rfl
      cases hword
    have hstop : (word chars).Closed (c :: rest) ↔ isWordChar c = false := noMore_cons
    rw [hstop, ← Bool.not_eq_true, hheads.wordChar]
    simp [TokenKind.requiresSeparator, TokenKind.RunsOn, hword, htakes, hslash]
  | symbol t =>
    cases hl
    simp only [Closed, List.head?_cons, ne_eq, Option.some.injEq, hheads.equal, hheads.slash]
    simp [TokenKind.requiresSeparator, TokenKind.RunsOn, TokenKind.isWord,
      TokenKind.takesEqual_symbol]

/-- By itself a token is split into one segment. -/
theorem Solid.split_text {s : Segment} (h : s.Solid) : split s.text = [s] := by
  have hfits : s.Fits [] := ⟨h.wellFormed, h.closed (noMore_nil _)⟩
  simpa [split_nil] using split_append hfits

theorem Solid.eq_of_text {s s' : Segment} (h : s.Solid) (h' : s'.Solid)
    (ht : s'.text = s.text) : s' = s := by
  have hsplit := h'.split_text
  rw [ht, h.split_text] at hsplit
  exact (List.cons.inj hsplit).1.symm

end Segment

open Segment

/-- The kinds and lexemes of a scan are those of the segments, in their order. -/
theorem map_tokens_scan (chars : List Char) :
    (scan (String.ofList chars)).tokens.map (fun t => (t.kind, t.lexeme)) =
      (split chars).filterMap (fun s => s.kind?.map (·, String.ofList s.text)) ++ [(.eof, "")] := by
  -- kinds and lexemes do not depend on the lines
  have hlines := congrArg (List.map fun t : Token => (t.kind, t.lexeme))
    (map_unplaced_tokensAfter [] (split chars))
  rw [scan_eq_after, String.toList_ofList]
  simpa [List.map_filterMap, token?, Function.comp_def, Token.unplaced, Token.eof] using hlines

theorem scansApart_of_closed {s next : Segment} {left right : TokenKind} (hs : s.Solid)
    (hn : next.Solid) (hl : s.kind? = some left) (hr : next.kind? = some right)
    (h : s.Closed next.text) : ScansApart left right s.text next.text := by
  have hsplit : split (s.text ++ next.text) = [s, next] := by
    rw [split_append ⟨hs.wellFormed, h⟩, hn.split_text]
  rw [ScansApart, map_tokens_scan, hsplit]
  simp [hl, hr]

/-- The lexemes are the whole text, so nothing stands before the first of them and it is read as
what it is by itself. -/
theorem closed_of_scansApart {s : Segment} {left right : TokenKind} {r : List Char}
    (hs : s.Solid) (h : ScansApart left right s.text r) : s.Closed r := by
  rw [ScansApart, map_tokens_scan] at h
  have htokens : (split (s.text ++ r)).filterMap
      (fun u => u.kind?.map (·, String.ofList u.text)) =
        [(left, String.ofList s.text), (right, String.ofList r)] :=
    List.append_cancel_right h
  obtain ⟨front, first, rest, hsplit, -, hfirst, hrest⟩ := List.filterMap_eq_cons_iff.mp htokens
  obtain ⟨middle, second, last, rfl, -, hsecond, -⟩ := List.filterMap_eq_cons_iff.mp hrest
  obtain ⟨kind, hkind, hpair⟩ := Option.map_eq_some_iff.mp hfirst
  obtain ⟨kind', -, hpair'⟩ := Option.map_eq_some_iff.mp hsecond
  have htext : first.text = s.text := String.ofList_injective (Prod.mk.inj hpair).2
  have htext' : second.text = r := String.ofList_injective (Prod.mk.inj hpair').2
  have hall := flatMap_text_split (s.text ++ r)
  have hfitting := fitting_split (s.text ++ r)
  rw [hsplit] at hall hfitting
  cases front with
  | cons u front =>
    have hmem : u ∈ split (s.text ++ r) := by simp [hsplit]
    have hpos := List.length_pos_iff.mpr (wellFormed_of_mem_split u hmem).text_ne_nil
    have hlength := congrArg List.length hall
    simp only [List.cons_append, List.flatMap_cons, List.flatMap_append, List.length_append, htext,
      htext'] at hlength
    omega
  | nil =>
    cases hfitting with
    | cons hfits _ =>
      have hsolid : first.Solid := ⟨hfits.wellFormed, by simp [hkind]⟩
      obtain rfl := hs.eq_of_text hsolid htext
      have hafter : (middle ++ second :: last).flatMap text = r := List.append_cancel_left hall
      have hclosed := hfits.closed
      rwa [List.append_nil, hafter] at hclosed

theorem Lexeme.scansApart_iff {left right : TokenKind} {l r : List Char} (hl : Lexeme left l)
    (hr : Lexeme right r) :
    ScansApart left right l r ↔
      ¬ (left.requiresSeparator right = true ∨ left.RunsOn right) := by
  obtain ⟨s, rfl, hs, hkind⟩ := hl.exists_segment
  obtain ⟨next, rfl, hnext, hkind'⟩ := hr.exists_segment
  rw [← hnext.closed_iff hkind hkind']
  exact ⟨closed_of_scansApart hs, scansApart_of_closed hs hnext hkind hkind'⟩

theorem TokenKind.RunsOn.requiresSeparator {left right : TokenKind} (h : left.RunsOn right) :
    left.requiresSeparator right = false := by
  obtain ⟨rfl, -⟩ := h
  simp [TokenKind.requiresSeparator, TokenKind.isWord, TokenKind.startsWithEqual]

/-- Two tokens of any texts, one behind the other, are scanned to these two and the end marker
unless their kinds ask for a separator or the second is a number that goes on with the first. So
asking for a separator tells what happens to them, but for those numbers: none is asked for
there. -/
theorem adjacent_tokens_scan (left right : TokenKind) (l r : List Char) (hl : Lexeme left l)
    (hr : Lexeme right r) :
    (ScansApart left right l r ↔
      ¬ (left.requiresSeparator right = true ∨ left.RunsOn right)) ∧
    ((left.requiresSeparator right = true ↔ ¬ ScansApart left right l r) ↔
      ¬ left.RunsOn right) := by
  have hiff := hl.scansApart_iff hr
  refine ⟨hiff, ?_⟩
  rw [hiff, not_not]
  refine ⟨fun h hruns => ?_, fun hruns => ?_⟩
  · have hsep := h.mpr (.inr hruns)
    simp [hruns.requiresSeparator] at hsep
  · simp [hruns]

/-- The equals sign goes to the first, which leaves half of the second. -/
theorem adjacent_tokens_scan_less :
    Lexeme (.symbol .less) ['<'] ∧ Lexeme (.symbol .equalEqual) ['=', '='] ∧
      ¬ ScansApart (.symbol .less) (.symbol .equalEqual) ['<'] ['=', '='] ∧
      (TokenKind.symbol .less).requiresSeparator (.symbol .equalEqual) = true := by
  have hless : Lexeme (.symbol .less) ['<'] := .fixed rfl
  have hequal : Lexeme (.symbol .equalEqual) ['=', '='] := .fixed rfl
  obtain ⟨hapart, -⟩ := adjacent_tokens_scan _ _ _ _ hless hequal
  exact ⟨hless, hequal, fun h => hapart.mp h (.inl rfl), rfl⟩

/-- No separator is asked for between two numbers, but side by side they are one. -/
theorem numbers_run_together :
    Lexeme .number ['1'] ∧ Lexeme .number ['2'] ∧
      ¬ (TokenKind.requiresSeparator .number .number = true ↔
        ¬ ScansApart .number .number ['1'] ['2']) := by
  have hnumber : ∀ c : Char, c.isDigit = true → Lexeme .number [c] := fun c hc =>
    .number (.whole (List.cons_ne_nil _ _) (by simpa using hc))
  have htogether : ¬ ScansApart .number .number ['1'] ['2'] := by
    unfold ScansApart
    decide +kernel
  exact ⟨hnumber '1' rfl, hnumber '2' rfl, fun h => Bool.false_ne_true (h.mpr htogether)⟩

end Lox
