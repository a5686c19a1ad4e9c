import Lox.Pass
import Lox.Proofs.FloatBits
import Lox.Proofs.LongestMatch
import Lox.Proofs.ReadBack

/-! Scanning as a whole. A numeral spells the number `Nearest` to its value
(`Segment.spells_number_iff`), so that what the segments of a text yield is told apart from
how numerals are read; a scan gives what the one cut into longest matches yields. -/

namespace Lox
namespace Binary64

/-- The bits of the number nearest to a value. Other bits lie before them when the value is
above the middle behind these, or in the middle when they are odd; behind the last finite
number lies infinity. -/
structure Nearest (v : Rat) (bits : Nat) : Prop where
  le_infinity : bits ≤ infinity
  lt_iff : ∀ b < infinity, b < bits ↔ middle b < v ∨ middle b = v ∧ b % 2 = 1

theorem Nearest.le {v : Rat} {m n : Nat} (hm : Nearest v m) (hn : Nearest v n) : m ≤ n := by
  by_contra hlt
  rw [Nat.not_le] at hlt
  have hinf : n < infinity := Nat.lt_of_lt_of_le hlt hm.le_infinity
  exact Nat.lt_irrefl n ((hn.lt_iff n hinf).mpr ((hm.lt_iff n hinf).mp hlt))

theorem Nearest.unique {v : Rat} {m n : Nat} (hm : Nearest v m) (hn : Nearest v n) : m = n :=
  Nat.le_antisymm (hm.le hn) (hn.le hm)

end Binary64

open Binary64

namespace Decimal

theorem nearest_bits (d : Decimal) : Nearest d.value d.bits :=
  ⟨nearest_le_infinity _ _, fun _ h => lt_bits_iff h⟩

theorem value_ofNumeral (whole fraction : List Char) : (ofNumeral whole fraction).value =
    Nat.ofDigitChars 10 (whole ++ fraction) 0 / 10 ^ fraction.length := by
  rw [value, ofNumeral, zpow_neg, zpow_natCast, div_eq_mul_inv]

end Decimal

namespace Segment

/-- What a numeral spells: the number nearest to its digits as they stand around the point. -/
theorem spells_number_iff {whole fraction : List Char} {kind : TokenKind}
    {literal : Option Literal} :
    Spells (.number whole fraction) kind literal ↔
      kind = .number ∧ ∃ x, literal = some (.number x) ∧
        Nearest (Nat.ofDigitChars 10 (whole ++ fraction) 0 / 10 ^ fraction.length)
          x.toBits.toNat := by
  have hread := (Decimal.ofNumeral whole fraction).nearest_bits
  rw [Decimal.value_ofNumeral, ← Decimal.toNat_toBits_toFloat] at hread
  constructor
  · intro h
    cases h
    exact ⟨rfl, _, rfl, hread⟩
  · rintro ⟨rfl, x, rfl, hx⟩
    obtain rfl : x = (Decimal.ofNumeral whole fraction).toFloat :=
      Float.toBits_inj.mp (UInt64.toNat_inj.mp (hx.unique hread))
    exact .number

end Segment

open Segment

/-- Scanning is maximal munch: the text has one cut into longest matches, and a scan gives
what the segments of that cut yield, after whatever was reported before. The number that a
numeral spells is the nearest to its value. -/
theorem scan_munches (source : String) (ds : Diagnostics) :
    ∃ segments, (∀ other, Munches source.toList other ↔ other = segments) ∧
      segments.flatMap text = source.toList ∧ (∀ s ∈ segments, s.text ≠ []) ∧
      (∀ whole fraction kind literal, Spells (.number whole fraction) kind literal ↔
        kind = .number ∧ ∃ x, literal = some (.number x) ∧
          Nearest (Nat.ofDigitChars 10 (whole ++ fraction) 0 / 10 ^ fraction.length)
            x.toBits.toNat) ∧
      ∃ tokens problems,
        (∀ ts ps, Yields [] segments ts ps ↔ ts = tokens ∧ ps = problems) ∧
        (Pass.scan source).run ds =
          (.tokens tokens, ⟨ds.reports ++ problems.map (·.diagnostic)⟩) := by
  refine ⟨split source.toList, fun other => munches_iff, flatMap_text_split _,
    fun s hs => (wellFormed_of_mem_split s hs).text_ne_nil,
    fun _ _ _ _ => spells_number_iff, tokensAfter [] _, problemsAfter [] _, fun ts ps => ⟨Yields.eq, ?_⟩, ?_⟩
  · intro h
    obtain ⟨rfl, rfl⟩ := h
    exact yields [] _
  · simp only [Pass.run, scan_eq_after, Diagnostics.reportAll]

end Lox
