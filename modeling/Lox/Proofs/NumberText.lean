import Lox.Proofs.Boundary
import Lox.Proofs.Reassembly

/-! The text of a number says which number it is. A `Figure` is a decimal numeral with an
optional exponent, and no text is that of two figures (`Figure.text_injective`). A decimal
is written as a figure of the same value, in exponent form or with its point in place
(`Decimal.exists_figure_write`); the shortest decimal of a number is read as that number, so
the text of any number but NaN is its own. -/

namespace Lox

theorem append_inj_of_noMore {p : Char → Bool} {a b c d : List Char}
    (ha : ∀ x ∈ a, p x = true) (hb : ∀ x ∈ b, p x = true) (hc : NoMore p c) (hd : NoMore p d)
    (h : a ++ c = b ++ d) : a = b ∧ c = d := by
  constructor
  · rw [← takeWhile_append_of_noMore ha hc, h, takeWhile_append_of_noMore hb hd]
  · rw [← dropWhile_append_of_noMore ha hc, h, dropWhile_append_of_noMore hb hd]

/-- A sign can be told from what never begins with one. -/
theorem sign_inj {a b : Prop} [Decidable a] [Decidable b] {u v : List Char}
    (hu : ∀ rest, u ≠ '-' :: rest) (hv : ∀ rest, v ≠ '-' :: rest)
    (h : (if a then '-' :: u else u) = if b then '-' :: v else v) : (a ↔ b) ∧ u = v := by
  split at h <;> rename_i ha <;> split at h <;> rename_i hb
  · exact ⟨iff_of_true ha hb, (List.cons.inj h).2⟩
  · exact absurd h.symm (hv u)
  · exact absurd h (hu v)
  · exact ⟨iff_of_false ha hb, h⟩

/-! ## Figures -/

/-- `-? digit+ (. digit+)? (e sign? digit+)?` in its parts. Without a point `fraction` is
empty, and without an exponent so are the parts of that. -/
@[ext]
structure Figure where
  negative : Bool
  whole : List Char
  fraction : List Char
  exponentSign : List Char
  exponentDigits : List Char
  whole_ne_nil : whole ≠ []
  digits : ∀ c ∈ whole ++ fraction ++ exponentDigits, c.isDigit = true
  signs : exponentSign ∈ [[], ['+'], ['-']]
  bare : exponentDigits = [] → exponentSign = []

namespace Figure

def fractionPart (f : Figure) : List Char :=
  match f.fraction with
  | [] => []
  | digits => '.' :: digits

def exponentPart (f : Figure) : List Char :=
  match f.exponentDigits with
  | [] => []
  | digits => 'e' :: (f.exponentSign ++ digits)

def unsigned (f : Figure) : List Char :=
  f.whole ++ (f.fractionPart ++ f.exponentPart)

def text (f : Figure) : List Char :=
  if f.negative then '-' :: f.unsigned else f.unsigned

/-- The power of ten that the exponent writes. -/
def power (f : Figure) : Int :=
  let n := Nat.ofDigitChars 10 f.exponentDigits 0
  if f.exponentSign = ['-'] then -n else n

/-- The decimal that a figure denotes, but for its sign. -/
def decimal (f : Figure) : Decimal :=
  ⟨Nat.ofDigitChars 10 (f.whole ++ f.fraction) 0, f.power - f.fraction.length⟩

theorem power_eq {f : Figure} {n : Int} (hsign : f.exponentSign = ['-'] ↔ n < 0)
    (hdigits : Nat.ofDigitChars 10 f.exponentDigits 0 = n.natAbs) : f.power = n := by
  simp only [power, hsign, hdigits]
  split <;> omega

/-- The figure of a numeral without an exponent. -/
def plain (negative : Bool) (whole fraction : List Char) (hne : whole ≠ [])
    (hdigits : ∀ c ∈ whole ++ fraction, c.isDigit = true) : Figure :=
  { negative, whole, fraction, exponentSign := [], exponentDigits := [], whole_ne_nil := hne,
    digits := by simpa using hdigits, signs := List.mem_cons_self, bare := fun _ => rfl }

theorem decimal_plain {negative : Bool} {whole fraction : List Char} {hne : whole ≠ []}
    {hdigits : ∀ c ∈ whole ++ fraction, c.isDigit = true} :
    (plain negative whole fraction hne hdigits).decimal = .ofNumeral whole fraction := by
  simp [plain, decimal, power, Decimal.ofNumeral]

theorem unsigned_plain {negative : Bool} {whole fraction : List Char} {hne : whole ≠ []}
    {hdigits : ∀ c ∈ whole ++ fraction, c.isDigit = true} (h : fraction ≠ []) :
    (plain negative whole fraction hne hdigits).unsigned = whole ++ '.' :: fraction := by
  obtain ⟨c, rest, rfl⟩ := List.exists_cons_of_ne_nil h
  exact congrArg (whole ++ '.' :: ·) (List.append_nil _)

/-- A point before the last of some digits. -/
theorem exists_plain_of_places {chars : List Char} {places : Nat} (negative : Bool)
    (hdigits : ∀ c ∈ chars, c.isDigit = true) (hpos : 0 < places) (hlt : places < chars.length) :
    ∃ f : Figure, f.negative = negative ∧
      f.unsigned = chars.take (chars.length - places) ++ '.' :: chars.drop (chars.length - places) ∧
      f.exponentDigits = [] ∧ f.decimal = ⟨Nat.ofDigitChars 10 chars 0, -places⟩ := by
  have hwhole : 0 < (chars.take (chars.length - places)).length := by
    rw [List.length_take]
    omega
  have hfraction : (chars.drop (chars.length - places)).length = places := by
    rw [List.length_drop]
    omega
  have hsplit := List.take_append_drop (chars.length - places) chars
  refine ⟨.plain negative _ _ (List.ne_nil_of_length_pos hwhole) (hsplit.symm ▸ hdigits), rfl,
    unsigned_plain (List.ne_nil_of_length_pos (hpos.trans_eq hfraction.symm)), rfl, ?_⟩
  rw [decimal_plain, Decimal.ofNumeral, hsplit, hfraction]

theorem isDigit_whole (f : Figure) : ∀ c ∈ f.whole, c.isDigit = true :=
  fun c hc => f.digits c (List.mem_append_left _ (List.mem_append_left _ hc))

theorem isDigit_fraction (f : Figure) : ∀ c ∈ f.fraction, c.isDigit = true :=
  fun c hc => f.digits c (List.mem_append_left _ (List.mem_append_right _ hc))

theorem isDigit_exponentDigits (f : Figure) : ∀ c ∈ f.exponentDigits, c.isDigit = true :=
  fun c hc => f.digits c (List.mem_append_right _ hc)

theorem exists_unsigned_eq_cons (f : Figure) :
    ∃ c rest, f.unsigned = c :: rest ∧ c.isDigit = true := by
  obtain ⟨c, rest, hwhole⟩ := List.exists_cons_of_ne_nil f.whole_ne_nil
  refine ⟨c, rest ++ (f.fractionPart ++ f.exponentPart), ?_,
    f.isDigit_whole c (hwhole ▸ List.mem_cons_self)⟩
  rw [unsigned, hwhole, List.cons_append]

theorem unsigned_ne_minus (f : Figure) (rest : List Char) : f.unsigned ≠ '-' :: rest := by
  obtain ⟨c, more, hc, hdigit⟩ := f.exists_unsigned_eq_cons
  rw [hc]
  intro h
  rw [(List.cons.inj h).1] at hdigit
  exact absurd hdigit (by decide)

theorem mem_unsigned (f : Figure) :
    ∀ c ∈ f.unsigned, c.isDigit = true ∨ c ∈ ['.', 'e', '+', '-'] := by
  have hs := f.signs
  intro c hc
  rcases List.mem_append.mp hc with hc | hc
  · exact .inl (f.isDigit_whole c hc)
  · have hfraction := f.isDigit_fraction c
    have hexponent := f.isDigit_exponentDigits c
    simp only [fractionPart, exponentPart] at hc
    grind

theorem noMore_isDigit_rest (f : Figure) :
    NoMore Char.isDigit (f.fractionPart ++ f.exponentPart) := by
  unfold fractionPart exponentPart
  split
  · split
    · exact noMore_nil _
    · exact noMore_cons.mpr rfl
  · exact noMore_cons.mpr rfl

theorem ne_e_of_mem_fractionPart (f : Figure) : ∀ c ∈ f.fractionPart, (c != 'e') = true := by
  refine bne_of_not_mem fun he => ?_
  unfold fractionPart at he
  split at he
  · cases he
  · rcases List.mem_cons.mp he with he | he
    · exact absurd he (by decide)
    · exact absurd (f.isDigit_fraction _ he) (by decide)

theorem noMore_exponentPart (f : Figure) : NoMore (· != 'e') f.exponentPart := by
  unfold exponentPart
  split
  · exact noMore_nil _
  · exact noMore_cons.mpr rfl

theorem not_isDigit_of_mem_exponentSign (f : Figure) :
    ∀ c ∈ f.exponentSign, (!c.isDigit) = true := by
  intro c hc
  have hs := f.signs
  simp only [List.mem_cons, List.not_mem_nil, or_false] at hs
  rcases hs with h | h | h <;> rw [h] at hc
  · cases hc
  · rw [List.mem_singleton.mp hc]
    rfl
  · rw [List.mem_singleton.mp hc]
    rfl

theorem noMore_exponentDigits (f : Figure) : NoMore (!·.isDigit) f.exponentDigits := by
  intro c hc
  exact (Bool.not_eq_false' c.isDigit).mpr (f.isDigit_exponentDigits c (List.mem_of_mem_head? hc))

theorem fraction_eq {f g : Figure} (h : f.fractionPart = g.fractionPart) :
    f.fraction = g.fraction := by
  unfold fractionPart at h
  grind

theorem exponent_eq {f g : Figure} (h : f.exponentPart = g.exponentPart) :
    f.exponentSign = g.exponentSign ∧ f.exponentDigits = g.exponentDigits := by
  unfold exponentPart at h
  split at h
  · rename_i hf
    split at h
    · rename_i hg
      rw [f.bare hf, g.bare hg, hf, hg]
      exact ⟨rfl, rfl⟩
    · cases h
  · split at h
    · cases h
    · exact append_inj_of_noMore f.not_isDigit_of_mem_exponentSign
        g.not_isDigit_of_mem_exponentSign f.noMore_exponentDigits g.noMore_exponentDigits
        (List.cons.inj h).2

/-- No text is that of two figures. -/
theorem text_injective {f g : Figure} (h : f.text = g.text) : f = g := by
  obtain ⟨hsign, hunsigned⟩ := sign_inj f.unsigned_ne_minus g.unsigned_ne_minus h
  have hnegative : f.negative = g.negative := Bool.eq_iff_iff.mpr hsign
  obtain ⟨hwhole, hrest⟩ := append_inj_of_noMore f.isDigit_whole g.isDigit_whole
    f.noMore_isDigit_rest g.noMore_isDigit_rest hunsigned
  obtain ⟨hfraction, hexponent⟩ := append_inj_of_noMore f.ne_e_of_mem_fractionPart
    g.ne_e_of_mem_fractionPart f.noMore_exponentPart g.noMore_exponentPart hrest
  obtain ⟨hsign, hdigits⟩ := exponent_eq hexponent
  exact Figure.ext hnegative hwhole (fraction_eq hfraction) hsign hdigits

end Figure

/-! ## Decimals -/

namespace Decimal

theorem isDigit_of_mem_digitChars (d : Decimal) : ∀ c ∈ d.digitChars, c.isDigit = true :=
  fun _ hc => Nat.isDigit_of_mem_toDigits (by decide) (by decide) hc

theorem digitChars_ne_nil (d : Decimal) : d.digitChars ≠ [] :=
  Nat.toDigits_ne_nil

theorem ofDigitChars_digitChars (d : Decimal) : Nat.ofDigitChars 10 d.digitChars 0 = d.digits :=
  Nat.ofDigitChars_ten_toDigits

theorem isDigit_of_mem_zeros {n : Nat} : ∀ c ∈ List.replicate n '0', c.isDigit = true := by
  intro c hc
  rw [List.eq_of_mem_replicate hc]
  rfl

/-- Zeros before digits count for nothing. -/
theorem ofDigitChars_zeros_append (n : Nat) (digits : List Char) :
    Nat.ofDigitChars 10 (List.replicate n '0' ++ digits) 0 = Nat.ofDigitChars 10 digits 0 := by
  rw [Nat.ofDigitChars_append, Nat.ofDigitChars_replicate_zero, Nat.mul_zero]

/-- With its point in place a decimal is written as a figure without an exponent. -/
theorem exists_figure_positional (d : Decimal) (negative : Bool) :
    ∃ f : Figure, f.negative = negative ∧ f.unsigned = d.positional ∧ f.exponentDigits = [] ∧
      f.decimal.value = d.value := by
  have hdigits := d.isDigit_of_mem_digitChars
  have hzeros := @isDigit_of_mem_zeros
  simp only [positional]
  split
  · rename_i hplaces
    obtain ⟨n, hexponent⟩ := Int.eq_ofNat_of_zero_le (by omega : 0 ≤ d.exponent)
    have hall : ∀ c ∈ d.digitChars ++ List.replicate d.exponent.toNat '0' ++ [],
        c.isDigit = true := by
      rw [List.append_nil]
      exact List.forall_mem_append.mpr ⟨hdigits, hzeros⟩
    refine ⟨.plain negative _ [] (List.append_ne_nil_of_left_ne_nil d.digitChars_ne_nil _) hall,
      rfl, List.append_nil _, rfl, ?_⟩
    rw [Figure.decimal_plain, ofNumeral, List.append_nil, Nat.ofDigitChars_append,
      ofDigitChars_digitChars, Nat.ofDigitChars_replicate_zero, value, value, hexponent]
    simp [mul_comm]
  · rename_i hplaces
    have hexponent : d.exponent.toNat = 0 := by omega
    have hneg : -((-d.exponent).toNat : Int) = d.exponent := by omega
    rw [hexponent, List.replicate_zero, List.append_nil]
    generalize hpadding : (-d.exponent).toNat + 1 - d.digitChars.length = padding
    obtain ⟨f, hnegative, hunsigned, hbare, hdecimal⟩ := Figure.exists_plain_of_places negative
      (List.forall_mem_append.mpr ⟨@hzeros padding, hdigits⟩)
      (Nat.pos_of_ne_zero hplaces) (by rw [List.length_append, List.length_replicate]; omega)
    refine ⟨f, hnegative, hunsigned, hbare, ?_⟩
    rw [hdecimal, ofDigitChars_zeros_append, ofDigitChars_digitChars, hneg]

/-- A mantissa and an exponent are a figure, of the decimal if the exponent is its leading
one. -/
theorem exists_figure_mantissa (d : Decimal) (negative : Bool) {sign digits : List Char}
    (hs : sign ∈ [[], ['+'], ['-']]) (hne : digits ≠ []) (hd : ∀ c ∈ digits, c.isDigit = true) :
    ∃ f : Figure, f.negative = negative ∧ f.unsigned = d.mantissa ++ 'e' :: (sign ++ digits) ∧
      f.whole.length = 1 ∧ f.exponentSign = sign ∧ f.exponentDigits = digits ∧
      (f.power = d.leading → f.decimal = d) := by
  obtain ⟨first, rest, hchars⟩ := List.exists_cons_of_ne_nil d.digitChars_ne_nil
  have hall : ∀ c ∈ [first] ++ rest ++ digits, c.isDigit = true := by
    intro c hc
    rcases List.mem_append.mp hc with hc | hc
    · exact d.isDigit_of_mem_digitChars c (hchars ▸ hc)
    · exact hd c hc
  refine ⟨⟨negative, [first], rest, sign, digits, List.cons_ne_nil _ _, hall, hs,
    fun h => absurd h hne⟩, rfl, ?_, rfl, rfl, rfl, fun hpower => ?_⟩
  · obtain ⟨c, more, rfl⟩ := List.exists_cons_of_ne_nil hne
    rw [mantissa, hchars]
    cases rest <;> simp [Figure.unsigned, Figure.fractionPart, Figure.exponentPart]
  · have hlength : d.leading - rest.length = d.exponent := by
      rw [leading, hchars, List.length_cons]
      omega
    have hdigits : Nat.ofDigitChars 10 (first :: rest) 0 = d.digits :=
      hchars ▸ d.ofDigitChars_digitChars
    rw [Figure.decimal, hpower]
    simp only [List.singleton_append, hlength, hdigits]

theorem exists_figure_exponential (d : Decimal) (negative : Bool) :
    ∃ f : Figure, f.negative = negative ∧ f.unsigned = d.exponential ∧ f.whole.length = 1 ∧
      f.power = d.leading ∧ f.decimal = d := by
  have hs : (if d.leading < 0 then ['-'] else []) ∈ [[], ['+'], ['-']] := by
    split <;> decide
  obtain ⟨f, hnegative, hunsigned, hwhole, hsign, hdigits, hdecimal⟩ :=
    d.exists_figure_mantissa negative hs (Nat.toDigits_ne_nil (n := d.leading.natAbs) (b := 10))
      fun c hc => Nat.isDigit_of_mem_toDigits (by decide) (by decide) hc
  have hpower : f.power = d.leading := by
    refine Figure.power_eq ?_ (hdigits ▸ Nat.ofDigitChars_ten_toDigits)
    rw [hsign]
    split <;> rename_i h <;> simpa using h
  refine ⟨f, hnegative, ?_, hwhole, hpower, hdecimal hpower⟩
  rw [hunsigned, exponential, signedChars]
  split <;> rfl

/-- An exponent that is put together anew is the same one. -/
theorem exists_figure_padded (d : Decimal) (width : Nat) (negative : Bool) :
    ∃ f : Figure, f.negative = negative ∧
      f.unsigned = d.mantissa ++
        'e' :: (if d.leading < 0 then '-' else '+') :: padded width d.leading.natAbs ∧
      f.exponentSign ≠ [] ∧ f.exponentDigits ≠ [] ∧ width ≤ f.exponentDigits.length ∧
      f.decimal = d := by
  have hs : [if d.leading < 0 then '-' else '+'] ∈ [[], ['+'], ['-']] := by
    split <;> decide
  have hne := Nat.toDigits_ne_nil (n := d.leading.natAbs) (b := 10)
  generalize hpadding :
    List.replicate (width - (Nat.toDigits 10 d.leading.natAbs).length) '0' = zeros
  have hall : ∀ c ∈ zeros ++ Nat.toDigits 10 d.leading.natAbs, c.isDigit = true := by
    intro c hc
    rcases List.mem_append.mp hc with hc | hc
    · exact isDigit_of_mem_zeros c (hpadding ▸ hc)
    · exact Nat.isDigit_of_mem_toDigits (by decide) (by decide) hc
  obtain ⟨f, hnegative, hunsigned, -, hsign, hdigits, hdecimal⟩ :=
    d.exists_figure_mantissa negative hs (List.append_ne_nil_of_right_ne_nil zeros hne) hall
  have hpower : f.power = d.leading := by
    refine Figure.power_eq ?_ ?_
    · rw [hsign]
      split <;> rename_i h <;> simpa using h
    · rw [hdigits, ← hpadding, ofDigitChars_zeros_append, Nat.ofDigitChars_ten_toDigits]
  refine ⟨f, hnegative, ?_, ?_, ?_, ?_, hdecimal hpower⟩
  · rw [hunsigned, ← hpadding]
    rfl
  · exact hsign ▸ List.cons_ne_nil _ _
  · exact hdigits ▸ List.append_ne_nil_of_right_ne_nil zeros hne
  · rw [hdigits, ← hpadding, List.length_append, List.length_replicate]
    omega

/-- A decimal is written as a figure of its value, with an exponent where its own is great or
small. -/
theorem exists_figure_write (d : Decimal) (negative : Bool) :
    ∃ f : Figure, f.negative = negative ∧ f.unsigned = d.write ∧ f.decimal.value = d.value ∧
      (f.exponentDigits ≠ [] ↔ ¬ (-4 ≤ d.leading ∧ d.leading < 16)) ∧
      (f.exponentDigits ≠ [] → f.exponentSign ≠ [] ∧ 2 ≤ f.exponentDigits.length) := by
  unfold write
  split
  · rename_i hin
    obtain ⟨f, hnegative, hunsigned, hbare, hvalue⟩ := d.exists_figure_positional negative
    exact ⟨f, hnegative, hunsigned, hvalue, by simp [hbare, hin], fun h => absurd hbare h⟩
  · rename_i hout
    obtain ⟨f, hnegative, hunsigned, hsign, hdigits, hwidth, hdecimal⟩ :=
      d.exists_figure_padded 2 negative
    exact ⟨f, hnegative, hunsigned, congrArg value hdecimal, iff_of_true hdigits hout,
      fun _ => ⟨hsign, hwidth⟩⟩

end Decimal

/-! ## Numbers -/

namespace Binary64

theorem isShortest_decimal {bits : Nat} (hne : bits ≠ 0) (h : bits < infinity) :
    Decimal.IsShortest bits (decimal bits) := by
  rw [decimal, if_neg hne]
  exact Decimal.isShortest_shortest (Nat.pos_of_ne_zero hne) h

/-- The characters of a number behind its sign. -/
def magnitudeChars (bits : Nat) : List Char :=
  if bits = infinity then ['i', 'n', 'f'] else (decimal bits).write

theorem magnitudeChars_of_ne {bits : Nat} (h : bits ≠ infinity) :
    magnitudeChars bits = (decimal bits).write :=
  if_neg h

theorem magnitudeChars_infinity : magnitudeChars infinity = ['i', 'n', 'f'] :=
  if_pos rfl

theorem displayNumber_of_not_nan {x : Float} (h : x.isNaN = false) :
    displayNumber x = String.ofList
      (if Negative x then '-' :: magnitudeChars (magnitude x)
        else magnitudeChars (magnitude x)) := by
  rw [displayNumber]
  rcases (isNaN_eq_false_iff.mp h).lt_or_eq with hlt | heq
  · rw [numberChars_of_finite (isFinite_iff.mpr hlt), magnitudeChars_of_ne hlt.ne]
  · rw [numberChars_of_inf (isInf_iff.mpr heq), heq, magnitudeChars_infinity]

theorem spell_eq_text {x : Float} (h : x.isFinite = true) {form : Decimal → List Char} {f : Figure}
    (hnegative : f.negative = decide (Negative x))
    (hunsigned : f.unsigned = form (decimal (magnitude x))) :
    spell form x.toBits.toNat = f.text := by
  rw [spell_of_finite h, ← hunsigned, Figure.text, hnegative]
  simp only [decide_eq_true_eq]

/-- A finite number is written as a figure. -/
theorem exists_figure {x : Float} (h : x.isFinite = true) : ∃ f : Figure,
    displayNumber x = String.ofList f.text ∧ f.negative = decide (Negative x) ∧
      f.decimal.value = (decimal (magnitude x)).value ∧
      (f.exponentDigits ≠ [] ↔
        ¬ (-4 ≤ (decimal (magnitude x)).leading ∧ (decimal (magnitude x)).leading < 16)) ∧
      (f.exponentDigits ≠ [] → f.exponentSign ≠ [] ∧ 2 ≤ f.exponentDigits.length) := by
  obtain ⟨f, hnegative, hunsigned, hvalue, hexponent, hwidth⟩ :=
    (decimal (magnitude x)).exists_figure_write (decide (Negative x))
  refine ⟨f, ?_, hnegative, hvalue, hexponent, hwidth⟩
  rw [displayNumber, numberChars_of_finite h, ← spell_of_finite h Decimal.write,
    spell_eq_text h hnegative hunsigned]

theorem exists_figure_exponential {x : Float} (h : x.isFinite = true) : ∃ g : Figure,
    exponential x = g.text ∧ g.negative = decide (Negative x) ∧ g.whole.length = 1 ∧
      g.power = (decimal (magnitude x)).leading ∧ g.decimal = decimal (magnitude x) := by
  obtain ⟨g, hnegative, hunsigned, hwhole, hpower, hdecimal⟩ :=
    (decimal (magnitude x)).exists_figure_exponential (decide (Negative x))
  exact ⟨g, spell_eq_text h hnegative hunsigned, hnegative, hwhole, hpower, hdecimal⟩

theorem exists_figure_positional {x : Float} (h : x.isFinite = true) : ∃ p : Figure,
    positional x = p.text ∧ p.negative = decide (Negative x) ∧ p.exponentDigits = [] ∧
      p.decimal.value = (decimal (magnitude x)).value := by
  obtain ⟨p, hnegative, hunsigned, hbare, hvalue⟩ :=
    (decimal (magnitude x)).exists_figure_positional (decide (Negative x))
  exact ⟨p, spell_eq_text h hnegative hunsigned, hnegative, hbare, hvalue⟩

/-- The characters of a number. -/
theorem mem_displayNumber {x : Float} (h : x.isNaN = false) : ∀ c ∈ (displayNumber x).toList,
    c.isDigit = true ∨ c ∈ ['.', 'e', '+', '-', 'i', 'n', 'f'] := by
  have hmagnitude : ∀ c ∈ magnitudeChars (magnitude x),
      c.isDigit = true ∨ c ∈ ['.', 'e', '+', '-', 'i', 'n', 'f'] := by
    by_cases hm : magnitude x = infinity
    · rw [hm, magnitudeChars_infinity]
      exact fun c hc => .inr (List.mem_append_right ['.', 'e', '+', '-'] hc)
    · obtain ⟨f, -, hunsigned, -⟩ := (decimal (magnitude x)).exists_figure_write false
      rw [magnitudeChars_of_ne hm, ← hunsigned]
      exact fun c hc => (f.mem_unsigned c hc).imp_right (List.mem_append_left ['i', 'n', 'f'])
  rw [displayNumber_of_not_nan h, String.toList_ofList]
  split
  · exact List.forall_mem_cons.mpr ⟨.inr (by decide), hmagnitude⟩
  · exact hmagnitude

theorem magnitudeChars_ne_minus (bits : Nat) (rest : List Char) :
    magnitudeChars bits ≠ '-' :: rest := by
  by_cases h : bits = infinity
  · rw [h, magnitudeChars_infinity]
    exact fun heq => absurd (List.cons.inj heq).1 (by decide)
  · obtain ⟨f, -, hunsigned, -⟩ := (decimal bits).exists_figure_write false
    rw [magnitudeChars_of_ne h, ← hunsigned]
    exact f.unsigned_ne_minus rest

theorem magnitudeChars_ne_infinity {bits : Nat} (h : bits ≠ infinity) :
    magnitudeChars bits ≠ magnitudeChars infinity := by
  obtain ⟨f, -, hunsigned, -⟩ := (decimal bits).exists_figure_write false
  obtain ⟨c, rest, hc, hdigit⟩ := f.exists_unsigned_eq_cons
  rw [magnitudeChars_of_ne h, magnitudeChars_infinity, ← hunsigned, hc]
  intro heq
  rw [(List.cons.inj heq).1] at hdigit
  exact absurd hdigit (by decide)

theorem magnitudeChars_injective {m n : Nat} (hm : m ≤ infinity) (hn : n ≤ infinity)
    (h : magnitudeChars m = magnitudeChars n) : m = n := by
  by_cases hmi : m = infinity
  · by_contra hne
    exact magnitudeChars_ne_infinity (fun hni => hne (hmi.trans hni.symm)) (hmi ▸ h.symm)
  · have hni : n ≠ infinity := fun hni => magnitudeChars_ne_infinity hmi (hni ▸ h)
    obtain ⟨f, hf, hfu, hfv, -⟩ := (decimal m).exists_figure_write false
    obtain ⟨g, hg, hgu, hgv, -⟩ := (decimal n).exists_figure_write false
    rw [magnitudeChars_of_ne hmi, magnitudeChars_of_ne hni, ← hfu, ← hgu] at h
    have hfg : f = g := Figure.text_injective (by rw [Figure.text, Figure.text, hf, hg, h])
    have hvalue : (decimal m).value = (decimal n).value := by rw [← hfv, ← hgv, hfg]
    rw [← bits_decimal hm, ← bits_decimal hn, Decimal.bits_eq_of_value_eq hvalue]

theorem toBits_eq_of_displayNumber {x y : Float} (hx : x.isNaN = false) (hy : y.isNaN = false)
    (h : displayNumber x = displayNumber y) : x.toBits = y.toBits := by
  rw [displayNumber_of_not_nan hx, displayNumber_of_not_nan hy, String.ofList_inj] at h
  obtain ⟨hsign, hmagnitude⟩ := sign_inj (magnitudeChars_ne_minus _) (magnitudeChars_ne_minus _) h
  exact toBits_eq_of_parts (magnitudeChars_injective (isNaN_eq_false_iff.mp hx)
    (isNaN_eq_false_iff.mp hy) hmagnitude) hsign

end Binary64

open Binary64

/-- The text of a number loses nothing of it. A finite number has a form with an exponent, `g`,
and one with the point in place, `p`. Both are figures with the sign of the number and of one
value, that of the shortest decimal which is read as the number; behind the first `e` of the one
stands its exponent, which is read. The text is a figure `f` with that sign and that value, and
no other (`Figure.text_injective`). It has an exponent, with a sign and two digits or more, where
the number is not zero and the exponent of `g` is out of range, and only there. -/
theorem displayNumber_denotes (x : Float) :
    (x.isNaN = true ∧ displayNumber x = "nan" ∨
      x.isInf = true ∧ displayNumber x = (if Negative x then "-inf" else "inf") ∨
      x.isFinite = true ∧ ∃ f g p : Figure,
        displayNumber x = String.ofList f.text ∧ exponential x = g.text ∧ positional x = p.text ∧
        f.negative = decide (Negative x) ∧ g.negative = decide (Negative x) ∧
        p.negative = decide (Negative x) ∧ f.decimal.value = g.decimal.value ∧
        p.decimal.value = g.decimal.value ∧ g.decimal.bits = magnitude x ∧
        (magnitude x ≠ 0 → Decimal.IsShortest (magnitude x) g.decimal) ∧ g.whole.length = 1 ∧
        p.exponentDigits = [] ∧
        (∃ mantissa exponent, splitOnce 'e' (exponential x) = some (mantissa, exponent) ∧
          readInt32? exponent = some g.power) ∧
        (f.exponentDigits ≠ [] ↔ magnitude x ≠ 0 ∧ (g.power < -4 ∨ 16 ≤ g.power)) ∧
        (f.exponentDigits ≠ [] → f.exponentSign ≠ [] ∧ 2 ≤ f.exponentDigits.length)) ∧
    ∀ y : Float, x.isNaN = false → y.isNaN = false → displayNumber x = displayNumber y →
      x.toBits = y.toBits := by
  refine ⟨?_, fun y hx hy => toBits_eq_of_displayNumber hx hy⟩
  rcases Nat.lt_trichotomy (magnitude x) infinity with hlt | heq | hgt
  · right; right
    have hfinite : x.isFinite = true := isFinite_iff.mpr hlt
    obtain ⟨f, hf, hfs, hfv, hexponent, hwidth⟩ := exists_figure hfinite
    obtain ⟨g, hg, hgs, hwhole, hpower, hdecimal⟩ := exists_figure_exponential hfinite
    obtain ⟨p, hp, hps, hbare, hpv⟩ := exists_figure_positional hfinite
    have hvalue : (decimal (magnitude x)).value = g.decimal.value :=
      congrArg Decimal.value hdecimal.symm
    refine ⟨hfinite, f, g, p, hf, hg, hp, hfs, hgs, hps, hfv.trans hvalue, hpv.trans hvalue,
      hdecimal ▸ bits_decimal hlt.le, fun hne => hdecimal ▸ isShortest_decimal hne hlt, hwhole,
      hbare, ⟨_, _, splitOnce_exponential hfinite, ?_⟩, ?_, hwidth⟩
    · rw [hpower]
      exact readInt32?_signedChars (leading_decimal_bounds hlt)
    · have hzero : magnitude x = 0 → (decimal (magnitude x)).leading = 0 := fun h => h ▸ rfl
      rw [hexponent, hpower]
      clear hlt
      omega
  · right; left
    refine ⟨isInf_iff.mpr heq, ?_⟩
    rw [displayNumber, numberChars_of_inf (isInf_iff.mpr heq)]
    split <;> rfl
  · left
    have hnan : x.isNaN = true := isNaN_iff.mpr hgt
    exact ⟨hnan, congrArg String.ofList (numberChars_of_nan hnan)⟩

theorem displayNumber_denotes_tiny :
    (∃ f : Figure, displayNumber (Float.ofBits 0xbe8421f5f40d8376) = String.ofList f.text ∧
      f.exponentDigits = ['0', '7'] ∧ f.exponentSign ≠ [] ∧ 2 ≤ f.exponentDigits.length) ∧
    (Float.ofBits 0xbe8421f5f40d8376).toBits =
      (-(Decimal.ofNumeral ['0'] "00000015".toList).toFloat).toBits := by
  obtain ⟨hcases, hinjective⟩ := displayNumber_denotes (Float.ofBits 0xbe8421f5f40d8376)
  refine ⟨?_, hinjective _ (by decide +kernel) (by decide +kernel) (by decide +kernel)⟩
  rcases hcases with ⟨hnan, -⟩ | ⟨hinf, -⟩ | 
      ⟨-, f, g, p, hf, -, -, -, -, -, -, -, -, -, -, -, -, -, hwidth⟩
  · exact absurd hnan (by decide +kernel)
  · exact absurd hinf (by decide +kernel)
  · have hfigure : f = ⟨true, ['1'], ['5'], ['-'], ['0', '7'], by decide,
        List.all_eq_true.mp rfl, by decide, by decide⟩ :=
      Figure.text_injective (String.ofList_injective (hf.symm.trans (by decide +kernel)))
    have hdigits : f.exponentDigits = ['0', '7'] := congrArg Figure.exponentDigits hfigure
    exact ⟨f, hf, hdigits, hwidth (hdigits ▸ List.cons_ne_nil _ _)⟩

end Lox
