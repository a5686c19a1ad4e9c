/-! Sets of characters, given by ranges of code points. The search for a character
stops at the first range above it, and misses none (`CodePoints.contains_eq_true_iff`). -/

namespace Lox.LineEditor

/-- Ranges, both ends included, in ascending order and without overlap. -/
def ascendingFrom (bound : Nat) : List (Nat × Nat) → Bool
  | [] => true
  | (low, high) :: rest => bound ≤ low && low ≤ high && ascendingFrom (high + 1) rest

theorem le_of_mem_of_ascendingFrom {bound : Nat} {ranges : List (Nat × Nat)}
    (h : ascendingFrom bound ranges = true) {r : Nat × Nat} (hr : r ∈ ranges) : bound ≤ r.1 := by
  induction ranges generalizing bound with
  | nil => contradiction
  | cons first rest ih =>
    simp only [ascendingFrom, Bool.and_eq_true, decide_eq_true_eq] at h
    obtain ⟨⟨hb, hl⟩, hrest⟩ := h
    rcases List.mem_cons.mp hr with rfl | hr
    · exact hb
    · have := ih hrest hr
      omega

structure CodePoints where
  ranges : List (Nat × Nat)
  ascending : ascendingFrom 0 ranges = true := by decide +kernel

namespace CodePoints

def search (n : Nat) : List (Nat × Nat) → Bool
  | [] => false
  | (low, high) :: rest => low ≤ n && (n ≤ high || search n rest)

theorem search_eq_true_iff {bound : Nat} {ranges : List (Nat × Nat)} {n : Nat}
    (h : ascendingFrom bound ranges = true) :
    search n ranges = true ↔ ∃ r ∈ ranges, r.1 ≤ n ∧ n ≤ r.2 := by
  induction ranges generalizing bound with
  | nil => simp [search]
  | cons first rest ih =>
    simp only [ascendingFrom, Bool.and_eq_true, decide_eq_true_eq] at h
    obtain ⟨⟨hb, hl⟩, hrest⟩ := h
    simp only [search, Bool.and_eq_true, Bool.or_eq_true, decide_eq_true_eq, ih hrest,
      List.mem_cons, exists_eq_or_imp]
    constructor
    · rintro ⟨hlow, hhigh | hin⟩
      · exact .inl ⟨hlow, hhigh⟩
      · exact .inr hin
    · rintro (⟨hlow, hhigh⟩ | ⟨r, hr, hin⟩)
      · exact ⟨hlow, .inl hhigh⟩
      · have := le_of_mem_of_ascendingFrom hrest hr
        exact ⟨by omega, .inr ⟨r, hr, hin⟩⟩

def contains (set : CodePoints) (c : Char) : Bool :=
  search c.toNat set.ranges

theorem contains_eq_true_iff {set : CodePoints} {c : Char} :
    set.contains c = true ↔ ∃ r ∈ set.ranges, r.1 ≤ c.toNat ∧ c.toNat ≤ r.2 :=
  search_eq_true_iff set.ascending

end CodePoints
end Lox.LineEditor
