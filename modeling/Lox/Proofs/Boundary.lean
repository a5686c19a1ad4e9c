import Lox.Segment

/-! Where segments begin and end. A segment is `WellFormed` when its text is what its class
says, and `Closed` before a text when nothing at the front of that text would go on with it.
These two say all of `Segment.first` (`first_eq_iff`), so a closed segment can be split off
(`split_append`) and what is split off is closed; segments that are `Fitting` one behind another
are all split off (`Fitting.split_append`). -/

namespace Lox

/-- Nothing more of a class stands at the front of a text. -/
def NoMore (p : Char → Bool) (after : List Char) : Prop :=
  ∀ c ∈ after.head?, p c = false

theorem noMore_nil (p : Char → Bool) : NoMore p [] := by
  intro c hc
  cases hc

theorem noMore_cons {p : Char → Bool} {c : Char} {after : List Char} :
    NoMore p (c :: after) ↔ p c = false := by
  simp [NoMore]

theorem noMore_dropWhile (p : Char → Bool) (text : List Char) : NoMore p (text.dropWhile p) := by
  intro c hc
  have := List.head?_dropWhile_not p text
  simpa [Option.mem_def.mp hc] using this

theorem mem_takeWhile {p : Char → Bool} {text : List Char} :
    ∀ c ∈ text.takeWhile p, p c = true :=
  List.all_eq_true.mp List.all_takeWhile

theorem bne_of_not_mem {q : Char} {body : List Char} (h : q ∉ body) :
    ∀ c ∈ body, (c != q) = true := by
  intro c hc
  have hne : c ≠ q := fun he => h (he ▸ hc)
  simpa using hne

theorem takeWhile_append_of_noMore {p : Char → Bool} {body after : List Char}
    (hb : ∀ c ∈ body, p c = true) (ha : NoMore p after) : (body ++ after).takeWhile p = body := by
  rw [List.takeWhile_append_of_pos hb]
  cases after with
  | nil => simp
  | cons c after => simp [noMore_cons.mp ha]

theorem dropWhile_append_of_noMore {p : Char → Bool} {body after : List Char}
    (hb : ∀ c ∈ body, p c = true) (ha : NoMore p after) : (body ++ after).dropWhile p = after := by
  rw [List.dropWhile_append_of_pos hb]
  cases after with
  | nil => simp
  | cons c after => simp [noMore_cons.mp ha]

theorem isBlank_eq_false_of_isDigit {c : Char} (h : c.isDigit = true) : isBlank c = false := by
  rw [Bool.eq_false_iff]
  intro hb
  simp only [isBlank, Bool.or_eq_true, beq_iff_eq] at hb
  rcases hb with ((rfl | rfl) | rfl) | rfl <;> revert h <;> decide

theorem isDigit_eq_false_of_isWordStart {c : Char} (h : isWordStart c = true) :
    c.isDigit = false := by
  have hw : isWordStart c = (decide (c.val ≥ 'A'.val ∧ c.val ≤ 'Z'.val) ||
      (c.val ≥ 'a'.val && c.val ≤ 'z'.val) || c == '_') := rfl
  simp only [hw, Bool.or_eq_true, Bool.and_eq_true, decide_eq_true_eq, beq_iff_eq] at h
  simp only [Char.isDigit, Bool.and_eq_false_imp, decide_eq_true_eq, decide_eq_false_iff_not]
  rcases h with (h | h) | rfl
  · grind
  · grind
  · decide

theorem isBlank_eq_false_of_isWordStart {c : Char} (h : isWordStart c = true) :
    isBlank c = false := by
  rw [Bool.eq_false_iff]
  intro hb
  simp only [isBlank, Bool.or_eq_true, beq_iff_eq] at hb
  rcases hb with ((rfl | rfl) | rfl) | rfl <;> revert h <;> decide

theorem isWordChar_of_isWordStart {c : Char} (h : isWordStart c = true) : isWordChar c = true := by
  simp only [isWordStart, isWordChar, Char.isAlphanum, Bool.or_eq_true] at *
  exact h.imp_left .inl

/-- The first character of a symbol begins nothing else. -/
theorem Symbol.plain_of_ofChar? {c : Char} {s : Symbol} (h : ofChar? c = some s) :
    isBlank c = false ∧ c ≠ '"' ∧ c.isDigit = false ∧ isWordStart c = false := by
  unfold ofChar? at h
  split at h <;> cases h <;> decide

theorem Symbol.ofChar?_chars (s : Symbol) :
    ∃ c base, s.chars.head? = some c ∧ ofChar? c = some base ∧
      (s = base ∧ s.chars = [c] ∨ base.withEqual? = some s ∧ s.chars = [c, '=']) := by
  cases s <;> exact ⟨_, _, rfl, rfl, by decide⟩

namespace Segment

/-- The text of the segment is of its class. -/
def WellFormed : Segment → Prop
  | blank c => isBlank c = true
  | comment body => '\n' ∉ body
  | string body => '"' ∉ body
  | openString body => '"' ∉ body
  | number whole fraction => whole ≠ [] ∧ ∀ c ∈ whole ++ fraction, c.isDigit = true
  | word chars => chars.head?.any isWordStart = true ∧ ∀ c ∈ chars, isWordChar c = true
  | symbol _ => True
  | unexpected c => isBlank c = false ∧ c ≠ '"' ∧ c.isDigit = false ∧ isWordStart c = false ∧
      Symbol.ofChar? c = none

/-- The segment does not go on into the text behind it. -/
def Closed : Segment → List Char → Prop
  | comment _, after => NoMore (· != '\n') after
  | openString _, after => after = []
  | number _ [], after => NoMore Char.isDigit after ∧
      ∀ c rest, after = '.' :: c :: rest → c.isDigit = false
  | number _ (_ :: _), after => NoMore Char.isDigit after
  | word _, after => NoMore isWordChar after
  | symbol s, after => (s.withEqual?.isSome = true → after.head? ≠ some '=') ∧
      (s = .slash → after.head? ≠ some '/')
  | blank _, _ | string _, _ | unexpected _, _ => True

structure Fits (s : Segment) (after : List Char) : Prop where
  wellFormed : s.WellFormed
  closed : s.Closed after

theorem WellFormed.exists_word {chars : List Char} (h : (word chars).WellFormed) :
    ∃ c rest, chars = c :: rest ∧ isWordStart c = true ∧ ∀ d ∈ rest, isWordChar d = true := by
  obtain ⟨hw, hall⟩ := h
  obtain ⟨c, hc, hstart⟩ := (Option.any_eq_true _ _).mp hw
  obtain ⟨rest, rfl⟩ := List.head?_eq_some_iff.mp hc
  exact ⟨c, rest, rfl, hstart, fun d hd => hall d (List.mem_cons_of_mem c hd)⟩

/-! ## What the first segment is, by the first character -/

theorem first_blank {c : Char} (h : isBlank c = true) (rest : List Char) :
    first c rest = (blank c, rest) := by
  simp [first, h]

theorem first_quote (rest : List Char) : first '"' rest = firstString rest := by
  simp [first, isBlank]

theorem first_digit {c : Char} (h : c.isDigit = true) (rest : List Char) :
    first c rest =
      firstFraction (c :: rest.takeWhile Char.isDigit) (rest.dropWhile Char.isDigit) := by
  have hq : c ≠ '"' := by rintro rfl; revert h; decide
  simp [first, isBlank_eq_false_of_isDigit h, hq, h]

theorem first_word {c : Char} (h : isWordStart c = true) (rest : List Char) :
    first c rest = (word (c :: rest.takeWhile isWordChar), rest.dropWhile isWordChar) := by
  have hq : c ≠ '"' := by rintro rfl; revert h; decide
  simp [first, isBlank_eq_false_of_isWordStart h, hq, isDigit_eq_false_of_isWordStart h, h]

theorem first_comment (rest : List Char) : first '/' ('/' :: rest) = firstComment rest := by
  have hw : isWordStart '/' = false := rfl
  simp [first, isBlank, hw, Char.isDigit]

theorem first_symbol {c : Char} {s : Symbol} (h : Symbol.ofChar? c = some s) {rest : List Char}
    (hc : ¬ (c = '/' ∧ rest.head? = some '/')) : first c rest = firstSymbol s rest := by
  obtain ⟨hb, hq, hd, hw⟩ := Symbol.plain_of_ofChar? h
  simp [first, hb, hq, hd, hw, hc, h]

theorem first_unexpected {c : Char} (h : (unexpected c).WellFormed) (rest : List Char) :
    first c rest = (unexpected c, rest) := by
  obtain ⟨hb, hq, hd, hw, hs⟩ := h
  have hc : c ≠ '/' := by rintro rfl; cases hs
  simp [first, hb, hq, hd, hw, hc, hs]

/-! ## The first segment fits -/

theorem fits_firstString (rest : List Char) : (firstString rest).1.Fits (firstString rest).2 := by
  unfold firstString
  split
  · rename_i hd
    refine ⟨fun hq => ?_, rfl⟩
    have := List.takeWhile_append_dropWhile (p := (· != '"')) (l := rest)
    rw [hd, List.append_nil] at this
    rw [← this] at hq
    simpa using mem_takeWhile '"' hq
  · exact ⟨fun hq => by simpa using mem_takeWhile '"' hq, trivial⟩

theorem fits_firstComment (rest : List Char) :
    (firstComment rest).1.Fits (firstComment rest).2 :=
  ⟨fun hn => by simpa using mem_takeWhile '\n' hn, noMore_dropWhile _ rest⟩

theorem fits_firstFraction {whole rest : List Char} (hne : whole ≠ [])
    (hw : ∀ c ∈ whole, c.isDigit = true) (hr : NoMore Char.isDigit rest) :
    (firstFraction whole rest).1.Fits (firstFraction whole rest).2 := by
  unfold firstFraction
  split
  · rename_i c rest
    split
    · rename_i hc
      refine ⟨⟨hne, fun d hd => ?_⟩, noMore_dropWhile _ rest⟩
      rcases List.mem_append.mp hd with hd | hd
      · exact hw d hd
      · rcases List.mem_cons.mp hd with rfl | hd
        · exact hc
        · exact mem_takeWhile d hd
    · rename_i hc
      refine ⟨⟨hne, by simpa using hw⟩, hr, ?_⟩
      intro d after hd
      cases hd
      simpa using hc
  · rename_i hpoint
    exact ⟨⟨hne, by simpa using hw⟩, hr, fun c after h => absurd h (hpoint c after)⟩

/-- A symbol of two characters does not go on. -/
theorem closed_of_withEqual {base s : Symbol} (h : base.withEqual? = some s) (after : List Char) :
    (symbol s).Closed after := by
  cases base <;> cases h <;> constructor <;> intro h <;> cases h

theorem fits_firstSymbol {s : Symbol} {rest : List Char}
    (hc : s = .slash → rest.head? ≠ some '/') :
    (firstSymbol s rest).1.Fits (firstSymbol s rest).2 := by
  unfold firstSymbol
  split
  · rename_i longer after hl
    exact ⟨trivial, closed_of_withEqual hl after⟩
  · rename_i hlonger
    refine ⟨trivial, fun hs he => ?_, hc⟩
    obtain ⟨longer, hl⟩ := Option.isSome_iff_exists.mp hs
    obtain ⟨after, rfl⟩ := List.head?_eq_some_iff.mp he
    exact hlonger longer after hl rfl

theorem fits_first (c : Char) (rest : List Char) : (first c rest).1.Fits (first c rest).2 := by
  by_cases hb : isBlank c = true
  · rw [first_blank hb]
    exact ⟨hb, trivial⟩
  by_cases hq : c = '"'
  · rw [hq, first_quote]
    exact fits_firstString rest
  by_cases hd : c.isDigit = true
  · rw [first_digit hd]
    refine fits_firstFraction (List.cons_ne_nil _ _) ?_ (noMore_dropWhile _ rest)
    intro d hm
    rcases List.mem_cons.mp hm with rfl | hm
    · exact hd
    · exact mem_takeWhile d hm
  by_cases hw : isWordStart c = true
  · rw [first_word hw]
    refine ⟨⟨by simpa using hw, fun d hm => ?_⟩, noMore_dropWhile _ rest⟩
    rcases List.mem_cons.mp hm with rfl | hm
    · exact isWordChar_of_isWordStart hw
    · exact mem_takeWhile d hm
  by_cases hc : c = '/' ∧ rest.head? = some '/'
  · obtain ⟨rfl, hr⟩ := hc
    obtain ⟨rest, rfl⟩ := List.head?_eq_some_iff.mp hr
    rw [first_comment]
    exact fits_firstComment rest
  cases hs : Symbol.ofChar? c with
  | some s =>
    rw [first_symbol hs hc]
    refine fits_firstSymbol fun he hr => hc ⟨?_, hr⟩
    have := Symbol.chars_ofChar? hs
    simpa [he, Symbol.chars] using this.symm
  | none =>
    have hwf : (unexpected c).WellFormed :=
      ⟨by simpa using hb, hq, by simpa using hd, by simpa using hw, hs⟩
    rw [first_unexpected hwf]
    exact ⟨hwf, trivial⟩

/-! ## What fits is the first segment -/

theorem firstString_append {body after : List Char} (hb : '"' ∉ body) :
    firstString (body ++ '"' :: after) = (string body, after) := by
  have hall := bne_of_not_mem hb
  have hstop : NoMore (· != '"') ('"' :: after) := noMore_cons.mpr (by decide)
  unfold firstString
  rw [dropWhile_append_of_noMore hall hstop, takeWhile_append_of_noMore hall hstop]

theorem firstString_of_not_mem {body : List Char} (hb : '"' ∉ body) :
    firstString body = (openString body, []) := by
  have hall := bne_of_not_mem hb
  have hdrop := dropWhile_append_of_noMore hall (noMore_nil _)
  rw [List.append_nil] at hdrop
  unfold firstString
  rw [hdrop]

theorem firstFraction_whole {whole after : List Char} (h : (number whole []).Closed after) :
    firstFraction whole after = (number whole [], after) := by
  unfold firstFraction
  split
  · rename_i c rest
    rw [if_neg (by simp [h.2 c rest rfl])]
  · rfl

theorem firstFraction_point {whole fraction after : List Char} {c : Char}
    (hf : ∀ d ∈ c :: fraction, d.isDigit = true) (h : NoMore Char.isDigit after) :
    firstFraction whole ('.' :: c :: fraction ++ after) = (number whole (c :: fraction), after) := by
  have hmore : ∀ d ∈ fraction, d.isDigit = true := fun d hd => hf d (List.mem_cons_of_mem c hd)
  simp [firstFraction, hf c (by simp), takeWhile_append_of_noMore hmore h,
    dropWhile_append_of_noMore hmore h]

theorem firstSymbol_of_closed {s : Symbol} {after : List Char} (h : (symbol s).Closed after) :
    firstSymbol s after = (symbol s, after) := by
  unfold firstSymbol
  split
  · rename_i longer rest hl
    exact absurd rfl (h.1 (by simp [hl]))
  · rfl

theorem firstSymbol_equal {base s : Symbol} (h : base.withEqual? = some s) (after : List Char) :
    firstSymbol base ('=' :: after) = (symbol s, after) := by
  simp [firstSymbol, h]

/-- What fits at the front of a text is its first segment. -/
theorem first_of_fits {s : Segment} {after rest : List Char} {c : Char} (h : s.Fits after)
    (ht : c :: rest = s.text ++ after) : first c rest = (s, after) := by
  obtain ⟨hwf, hcl⟩ := h
  cases s with
  | blank b =>
    obtain ⟨rfl, rfl⟩ := List.cons.inj ht
    exact first_blank hwf _
  | comment body =>
    have htext : c :: rest = '/' :: '/' :: (body ++ after) := ht
    obtain ⟨rfl, rfl⟩ := List.cons.inj htext
    have hall := bne_of_not_mem hwf
    rw [first_comment, firstComment, takeWhile_append_of_noMore hall hcl,
      dropWhile_append_of_noMore hall hcl]
  | string body =>
    have htext : c :: rest = '"' :: (body ++ '"' :: after) := by simpa [text] using ht
    obtain ⟨rfl, rfl⟩ := List.cons.inj htext
    rw [first_quote, firstString_append hwf]
  | openString body =>
    obtain rfl : after = [] := hcl
    have htext : c :: rest = '"' :: body := by simpa [text] using ht
    obtain ⟨rfl, rfl⟩ := List.cons.inj htext
    rw [first_quote, firstString_of_not_mem hwf]
  | number whole fraction =>
    obtain ⟨hne, hd⟩ := hwf
    obtain ⟨d, ds, rfl⟩ := List.exists_cons_of_ne_nil hne
    have hds : ∀ c ∈ ds, c.isDigit = true := fun c hc => hd c (by simp [hc])
    cases fraction with
    | nil =>
      have htext : c :: rest = d :: (ds ++ after) := ht
      obtain ⟨rfl, rfl⟩ := List.cons.inj htext
      rw [first_digit (hd _ (by simp)), takeWhile_append_of_noMore hds hcl.1,
        dropWhile_append_of_noMore hds hcl.1, firstFraction_whole hcl]
    | cons f fs =>
      have hpoint : NoMore Char.isDigit ('.' :: f :: fs ++ after) := noMore_cons.mpr (by decide)
      have htext : c :: rest = d :: (ds ++ ('.' :: f :: fs ++ after)) := by
        simpa [text] using ht
      obtain ⟨rfl, rfl⟩ := List.cons.inj htext
      rw [first_digit (hd _ (by simp)), takeWhile_append_of_noMore hds hpoint,
        dropWhile_append_of_noMore hds hpoint,
        firstFraction_point (fun c hc => hd c (by simp [hc])) hcl]
  | word chars =>
    obtain ⟨d, ds, rfl, hstart, hds⟩ := hwf.exists_word
    have htext : c :: rest = d :: (ds ++ after) := ht
    obtain ⟨rfl, rfl⟩ := List.cons.inj htext
    rw [first_word hstart, takeWhile_append_of_noMore hds hcl,
      dropWhile_append_of_noMore hds hcl]
  | symbol s =>
    obtain ⟨d, base, -, hbase, ⟨rfl, hs⟩ | ⟨hequal, hs⟩⟩ := s.ofChar?_chars
    · rw [text, hs] at ht
      obtain ⟨rfl, rfl⟩ := List.cons.inj ht
      rw [first_symbol hbase, firstSymbol_of_closed hcl]
      intro hslash
      obtain ⟨rfl, hr⟩ := hslash
      exact hcl.2 (Option.some.inj hbase).symm hr
    · rw [text, hs] at ht
      obtain ⟨rfl, rfl⟩ := List.cons.inj ht
      rw [first_symbol hbase (by simp)]
      exact firstSymbol_equal hequal after
  | unexpected d =>
    obtain ⟨rfl, rfl⟩ := List.cons.inj ht
    exact first_unexpected hwf _

/-- The first segment is the one that fits. -/
theorem first_eq_iff {c : Char} {rest after : List Char} {s : Segment} :
    first c rest = (s, after) ↔ c :: rest = s.text ++ after ∧ s.Fits after := by
  constructor
  · intro h
    have htext := text_first c rest
    have hfits := fits_first c rest
    rw [h] at htext hfits
    exact ⟨htext.symm, hfits⟩
  · intro hfits
    obtain ⟨ht, h⟩ := hfits
    exact first_of_fits h ht

theorem WellFormed.text_ne_nil {s : Segment} (h : s.WellFormed) : s.text ≠ [] := by
  intro hn
  cases s with
  | number whole fraction =>
    cases fraction with
    | nil => exact h.1 hn
    | cons => simp [text] at hn
  | word chars =>
    rw [text] at hn
    simp [hn, WellFormed] at h
  | symbol s => exact s.chars_ne_nil hn
  | blank | comment | string | openString | unexpected => cases hn

/-- What fits is split off. -/
theorem split_append {s : Segment} {after : List Char} (h : s.Fits after) :
    split (s.text ++ after) = s :: split after := by
  obtain ⟨c, rest, hc⟩ := List.exists_cons_of_ne_nil h.wellFormed.text_ne_nil
  have hfirst : first c (rest ++ after) = (s, after) := first_of_fits h (by rw [hc]; rfl)
  rw [hc, List.cons_append, split_cons, hfirst]

/-! ## Segments one behind another -/

/-- Segments that stand in front of a text, each of which fits before all that follows it. -/
inductive Fitting (after : List Char) : List Segment → Prop
  | nil : Fitting after []
  | cons {s rest} : s.Fits (rest.flatMap text ++ after) → Fitting after rest →
      Fitting after (s :: rest)

/-- Segments that fit are split off one by one. -/
theorem Fitting.split_append {segments : List Segment} {after : List Char}
    (h : Fitting after segments) :
    split (segments.flatMap text ++ after) = segments ++ split after := by
  induction h with
  | nil => rfl
  | cons hs _ ih =>
    rw [List.flatMap_cons, List.append_assoc, Segment.split_append hs, ih, List.cons_append]

theorem Fitting.append {front rest : List Segment} {after : List Char}
    (hf : Fitting (rest.flatMap text ++ after) front) (hr : Fitting after rest) :
    Fitting after (front ++ rest) := by
  induction hf with
  | nil => exact hr
  | cons hs _ ih =>
    refine .cons ?_ ih
    rwa [List.append_eq, List.flatMap_append, List.append_assoc]

/-- The segments of a text fit, with nothing behind them. -/
theorem fitting_split (source : List Char) : Fitting [] (split source) := by
  fun_induction split source with
  | case1 => exact .nil
  | case2 c rest ih =>
    refine .cons ?_ ih
    rw [flatMap_text_split, List.append_nil]
    exact fits_first c rest

end Segment
end Lox
