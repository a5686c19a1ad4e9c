import Lox.Interpreter.Basic
import Lox.Proofs.NumberText
import Lox.Proofs.Spacing
import Lox.Proofs.StaticGate

/-! Numbers that are fed back. With its point in place, the text of a number is a numeral of
the language behind at most a minus (`Figure.numeral`), so it is scanned and parsed to that
number or to its negation; the shortest decimal is read as the number it was made for and
minus sets the sign, so running the text gives the number and writes the text again. -/

namespace Lox
open Grammar Segment Binary64

/-! ## Numerals -/

/-- A figure without an exponent is a numeral of the language. -/
theorem Figure.numeral {f : Figure} (h : f.exponentDigits = []) :
    Numeral f.unsigned f.decimal.toFloat := by
  have hdecimal : f.decimal = .ofNumeral f.whole f.fraction := by
    simp [decimal, power, h, f.bare h, Decimal.ofNumeral]
  rw [hdecimal, unsigned, exponentPart, h, List.append_nil, fractionPart]
  split
  · rename_i hfraction
    rw [hfraction, List.append_nil]
    exact .whole f.whole_ne_nil f.isDigit_whole
  · rename_i hne
    exact .point f.whole_ne_nil f.isDigit_whole hne f.isDigit_fraction

/-! ## Reading -/

namespace Segment

theorem split_blanks {gap : List Char} (h : ∀ c ∈ gap, isBlank c = true) :
    split gap = gap.map blank := by
  simpa [flatMap_text_blanks, split_nil] using (fitting_blanks h []).split_append

theorem tokensAfter_blanks (before gap : List Char) :
    tokensAfter before (gap.map blank) = [.eof (lineAfter (before ++ gap))] := by
  induction gap generalizing before with
  | nil => simp [tokensAfter, stamp]
  | cons c gap ih =>
    rw [List.map_cons, tokensAfter_cons, ih, List.append_assoc]
    rfl

end Segment

theorem reading_of_derives {source : String} {p : List Token} {e : Expr} {stop : Token}
    (htokens : (scan source).tokens = p ++ [stop]) (hstop : stop.kind = .eof)
    (hproblems : (scan source).problems = []) (h : Derives .expression p e) :
    (Reading.ofSource source).expr = some e ∧ (Reading.ofSource source).problems = [] := by
  have hparse : parse (scan source).tokens = .ok e := htokens ▸ parse_eq_ok_of_derives h hstop
  simp only [Reading.expr_ofSource, Reading.problems_ofSource, Reading.ofTokens_of_ok hparse,
    hproblems, List.append_nil, and_self]

/-- The segment of a numeral, alone in front of blanks. -/
structure Segment.NumberAt (s : Segment) (x : Float) (source gap : List Char) : Prop where
  kind : s.kind? = some .number
  literal : s.literal? = some (.number x)
  split : split source = s :: gap.map blank

theorem Numeral.exists_numberAt {digits gap : List Char} {x : Float} (h : Numeral digits x)
    (hgap : ∀ c ∈ gap, isBlank c = true) : ∃ s : Segment, s.NumberAt x (digits ++ gap) gap := by
  obtain ⟨s, rfl, hs, hkind, hliteral⟩ := h.exists_segment
  have hclosed : s.Closed gap := by
    refine hs.closed fun c hc => ?_
    simp [hgap c (List.mem_of_mem_head? hc)]
  refine ⟨s, hkind, hliteral, ?_⟩
  rw [split_append ⟨hs.wellFormed, hclosed⟩, split_blanks hgap]

namespace Segment.NumberAt

variable {s : Segment} {x : Float} {source gap : List Char}

theorem quiet (h : s.NumberAt x source gap) :
    ∀ u ∈ s :: gap.map blank, ∀ line, u.problem? line = none := by
  refine List.forall_mem_cons.mpr ⟨problem?_of_kind? h.kind, fun u hu => ?_⟩
  obtain ⟨c, -, rfl⟩ := List.mem_map.mp hu
  exact (silent_blank c).problem

theorem tokensAfter_eq (h : s.NumberAt x source gap) (before : List Char) :
    ∃ t stop : Token, tokensAfter before (s :: gap.map blank) = [t, stop] ∧
      Terminal t (.number x) ∧ stop.kind = .eof := by
  refine ⟨⟨.number, String.ofList s.text, some (.number x), lineAfter (before ++ s.text)⟩,
    .eof (lineAfter (before ++ s.text ++ gap)), ?_, @Terminal.number _ (.number x) rfl rfl, rfl⟩
  rw [tokensAfter_cons, tokensAfter_blanks, token?, h.kind, h.literal]
  rfl

theorem reading (h : s.NumberAt x source gap) :
    (Reading.ofSource (String.ofList source)).expr = some (.literal (.number x)) ∧
      (Reading.ofSource (String.ofList source)).problems = [] := by
  obtain ⟨t, stop, htokens, ht, hstop⟩ := h.tokensAfter_eq []
  have hscan := scan_eq_after (String.ofList source)
  rw [String.toList_ofList, h.split, htokens, problemsAfter_eq_nil h.quiet] at hscan
  exact reading_of_derives (p := [t]) (congrArg Scan.tokens hscan) hstop
    (congrArg Scan.problems hscan) ((Derives.terminal ht).climb _ (rank_le_expression .primary))

theorem reading_minus (h : s.NumberAt x source gap) :
    (Reading.ofSource (String.ofList ('-' :: source))).expr =
        some (.unary ⟨.symbol .minus, "-", none, 1⟩ (.literal (.number x))) ∧
      (Reading.ofSource (String.ofList ('-' :: source))).problems = [] := by
  obtain ⟨t, stop, htokens, ht, hstop⟩ := h.tokensAfter_eq ['-']
  have hminus : (symbol .minus).Fits source := ⟨trivial, nofun, nofun⟩
  have hsplit : Segment.split ('-' :: source) = symbol .minus :: s :: gap.map blank := by
    rw [← h.split]
    exact split_append hminus
  have hscan := scan_eq_after (String.ofList ('-' :: source))
  rw [String.toList_ofList, hsplit, tokensAfter_cons,
    problemsAfter_eq_nil (List.forall_mem_cons.mpr ⟨fun _ => rfl, h.quiet⟩)] at hscan
  have hoperand : Derives .unary [t] (.literal (.number x)) := .primary (.terminal ht)
  refine reading_of_derives (p := [⟨.symbol .minus, "-", none, 1⟩, t])
    ((congrArg Scan.tokens hscan).trans ?_) hstop (congrArg Scan.problems hscan)
    ((Derives.signed (by decide) hoperand).climb _ (rank_le_expression .unary))
  rw [show [] ++ (symbol .minus).text = ['-'] from rfl, htokens]
  rfl

end Segment.NumberAt

/-! ## Running -/

namespace Decimal

theorem toFloat_eq {d : Decimal} {x : Float} (h : d.bits = magnitude x) (hx : ¬ Negative x) :
    d.toFloat = x := by
  refine Float.toBits_inj.mp (UInt64.toNat_inj.mp ?_)
  rw [toNat_toBits_toFloat, h]
  exact Nat.mod_eq_of_lt (Nat.not_le.mp hx)

theorem neg_toFloat_eq {d : Decimal} {x : Float} (h : d.bits = magnitude x) (hx : Negative x) :
    -d.toFloat = x := by
  have hlt := x.toBits.toNat_lt
  refine Float.toBits_inj.mp (UInt64.toNat_inj.mp ?_)
  rw [toNat_toBits_neg (toNat_toBits_toFloat d ▸ d.bits_le_infinity), toNat_toBits_toFloat, h]
  simp only [magnitude, Negative, signPlace_eq] at hx ⊢
  omega

end Decimal

theorem run_of_value {source : String} {e : Expr} {v : Value}
    (h : (Reading.ofSource source).expr = some e ∧ (Reading.ofSource source).problems = [])
    (hv : e.value = .ok v) (sink : Sink) :
    (run source sink).outcome = (if sink.fits v.line then .ok v else .error .write) ∧
      (run source sink).sink = sink.write v.line := by
  obtain ⟨houtcome, hsink⟩ := run_of_clean h.1 h.2 sink
  obtain ⟨houtcome', hsink'⟩ := interpret_of_value hv sink
  exact ⟨houtcome.trans houtcome', hsink.trans hsink'⟩

/-- In the range that is written without an exponent, the text of a number is that of a numeral
which is read as its magnitude. -/
theorem exists_numeral_of_range {x : Float} (hfinite : x.isFinite = true)
    (hrange : magnitude x = 0 ∨ ∃ d, Decimal.IsShortest (magnitude x) d ∧
      -4 ≤ d.leading ∧ d.leading < 16) :
    ∃ (digits : List Char) (d : Decimal), Numeral digits d.toFloat ∧ d.bits = magnitude x ∧
      displayNumber x = String.ofList (if Negative x then '-' :: digits else digits) := by
  have hlt : magnitude x < infinity := isFinite_iff.mp hfinite
  obtain ⟨f, htext, hnegative, hvalue, hexponent, -⟩ := exists_figure hfinite
  have hleading : -4 ≤ (decimal (magnitude x)).leading ∧ (decimal (magnitude x)).leading < 16 := by
    unfold decimal
    split
    · decide
    · rename_i hne
      obtain ⟨d, hd, hplace⟩ := hrange.resolve_left hne
      rwa [← (Decimal.isShortest_iff (Nat.pos_of_ne_zero hne) hlt).mp hd]
  have hbare : f.exponentDigits = [] := by
    by_contra hne
    exact hexponent.mp hne hleading
  have hbits : f.decimal.bits = magnitude x :=
    (Decimal.bits_eq_of_value_eq hvalue).trans (bits_decimal hlt.le)
  refine ⟨f.unsigned, f.decimal, f.numeral hbare, hbits, ?_⟩
  rw [htext, Figure.text, hnegative]
  simp only [decide_eq_true_eq]

/-- Printed numbers can be fed back. Where the text of a number has no exponent it is read as
a number or, behind a minus, as the negation of one; its value is the number it was written
for, bit by bit, and running it writes that text again. So does running the line that a run
has written: the blanks behind the text change nothing. -/
theorem run_displayNumber (x : Float) (hfinite : x.isFinite = true)
    (hrange : magnitude x = 0 ∨ ∃ d, Decimal.IsShortest (magnitude x) d ∧
      -4 ≤ d.leading ∧ d.leading < 16)
    (gap : List Char) (hgap : ∀ c ∈ gap, isBlank c = true) (sink : Sink) :
    (∃ y : Float, y.toBits.toNat = magnitude x ∧
      (Reading.ofSource (displayNumber x ++ String.ofList gap)).expr =
        some (if Negative x then .unary ⟨.symbol .minus, "-", none, 1⟩ (.literal (.number y))
          else .literal (.number y))) ∧
    (run (displayNumber x ++ String.ofList gap) sink).outcome =
      (if sink.fits (displayNumber x ++ "\n").toUTF8.data.toList then .ok (.number x)
        else .error .write) ∧
    (run (displayNumber x ++ String.ofList gap) sink).sink =
      sink.write (displayNumber x ++ "\n").toUTF8.data.toList := by
  obtain ⟨digits, d, hnumeral, hbits, htext⟩ := exists_numeral_of_range hfinite hrange
  obtain ⟨s, hs⟩ := hnumeral.exists_numberAt hgap
  have hy : d.toFloat.toBits.toNat = magnitude x := d.toNat_toBits_toFloat.trans hbits
  by_cases hx : Negative x
  · simp only [if_pos hx] at htext ⊢
    have hsource : displayNumber x ++ String.ofList gap =
        String.ofList ('-' :: (digits ++ gap)) := by
      rw [htext, ← String.ofList_append, List.cons_append]
    have hvalue : (Expr.unary ⟨.symbol .minus, "-", none, 1⟩ (.literal (.number d.toFloat))).value =
        .ok (.number x) := by
      rw [← Decimal.neg_toFloat_eq hbits hx]
      rfl
    rw [hsource]
    exact ⟨⟨d.toFloat, hy, hs.reading_minus.1⟩, run_of_value hs.reading_minus hvalue sink⟩
  · simp only [if_neg hx] at htext ⊢
    have hsource : displayNumber x ++ String.ofList gap = String.ofList (digits ++ gap) := by
      rw [htext, ← String.ofList_append]
    have hvalue : (Expr.literal (.number d.toFloat)).value = .ok (.number x) := by
      rw [Decimal.toFloat_eq hbits hx]
      rfl
    rw [hsource]
    exact ⟨⟨d.toFloat, hy, hs.reading.1⟩, run_of_value hs.reading hvalue sink⟩

theorem run_displayNumber_half : (run "-0.5\n" (.empty (some 5))).outcome =
      .ok (.number (Float.ofBits 0xbfe0000000000000)) ∧
    (run "-0.5\n" (.empty (some 5))).sink.written = "-0.5\n".toUTF8.data.toList := by
  have htext : displayNumber (Float.ofBits 0xbfe0000000000000) = "-0.5" := by decide +kernel
  have hshortest : Decimal.IsShortest (magnitude (Float.ofBits 0xbfe0000000000000)) _ :=
    isShortest_decimal (by decide +kernel) (by decide +kernel)
  obtain ⟨-, houtcome, hsink⟩ := run_displayNumber (Float.ofBits 0xbfe0000000000000)
    (by decide +kernel) (.inr ⟨_, hshortest, by decide +kernel⟩) ['\n'] (List.all_eq_true.mp rfl)
    (.empty (some 5))
  rw [htext] at houtcome hsink
  exact ⟨houtcome, congrArg Sink.written hsink⟩

end Lox
