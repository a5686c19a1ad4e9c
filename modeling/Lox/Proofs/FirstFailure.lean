import Lox.Proofs.Legal
import Lox.Proofs.PostOrder

/-! The failure that ends an evaluation. To which values an operator does not apply, and with
which fault, is told here by itself (`UnaryMisuse`, `BinaryMisuse`), and the evaluator goes by
it (`applyUnary_eq_error_iff`, `applyBinary_eq_error_iff`). An operation fails when its
operands have values that its operator does not apply to, and a tree has the fault of the
operation that is the first in post-order to fail. -/

namespace Lox
open Grammar

/-! ## Operators and the values they do not apply to -/

/-- A minus wants a number, and none but the two prefix operators of the grammar applies to
anything. -/
inductive UnaryMisuse (op : Token) (v : Value) : Fault → Prop
  | operandNumber : op.kind = .symbol .minus → (∀ x, v ≠ .number x) →
      UnaryMisuse op v (.runtime ⟨.operandNumber, op⟩)
  | misplaced : op.kind ∉ [.symbol .bang, .symbol .minus] →
      UnaryMisuse op v (.defect ⟨.unary, op⟩)

/-- A plus wants two numbers or two strings and a numeric operator two numbers; the two
equalities take all values, and no other operator takes any. -/
inductive BinaryMisuse (op : Token) (v w : Value) : Fault → Prop
  | operandsAddable : op.kind = .symbol .plus → (∀ x y, ¬ (v = .number x ∧ w = .number y)) →
      (∀ s t, ¬ (v = .string s ∧ w = .string t)) →
      BinaryMisuse op v w (.runtime ⟨.operandsAddable, op⟩)
  | operandsNumbers : op.kind ∈ numericOperators → (∀ x y, ¬ (v = .number x ∧ w = .number y)) →
      BinaryMisuse op v w (.runtime ⟨.operandsNumbers, op⟩)
  | misplaced : op.kind ∉ binaryOperators → BinaryMisuse op v w (.defect ⟨.binary, op⟩)

theorem applyUnary_eq_error_iff {op : Token} {v : Value} {fault : Fault} :
    applyUnary op v = .error fault ↔ UnaryMisuse op v fault := by
  constructor
  · intro h
    unfold applyUnary at h
    split at h
    · cases h
    · rename_i hk
      cases v with
      | number x => cases h
      | nil | bool | string =>
        cases h
        exact .operandNumber hk nofun
    · rename_i hbang hminus
      cases h
      exact .misplaced (by simpa using ⟨hbang, hminus⟩)
  · intro h
    cases h with
    | operandNumber hk hv =>
      cases v with
      | number x => exact absurd rfl (hv x)
      | nil | bool | string => simp only [applyUnary, hk, Value.number?]; rfl
    | misplaced hk =>
      unfold applyUnary
      split
      · simp_all
      · simp_all
      · rfl

theorem add_eq_error_iff {op : Token} {v w : Value} {fault : Fault} :
    add op v w = .error fault ↔ (∀ x y, ¬ (v = .number x ∧ w = .number y)) ∧
      (∀ s t, ¬ (v = .string s ∧ w = .string t)) ∧ fault = .runtime ⟨.operandsAddable, op⟩ := by
  unfold add
  split
  · exact iff_of_false nofun fun h => h.1 _ _ ⟨rfl, rfl⟩
  · exact iff_of_false nofun fun h => h.2.1 _ _ ⟨rfl, rfl⟩
  · rename_i hnumbers hstrings
    constructor
    · intro h
      cases h
      exact ⟨fun x y hxy => hnumbers x y hxy.1 hxy.2, fun s t hst => hstrings s t hst.1 hst.2, rfl⟩
    · intro h
      rw [h.2.2]
      rfl

theorem onNumbers_numbers {op : Token} (h : op.kind ∈ numericOperators) (x y : Float) :
    ∃ v, onNumbers op (.number x) (.number y) = .ok v := by
  simp only [numericOperators, List.mem_cons, List.not_mem_nil, or_false] at h
  rcases h with hk | hk | hk | hk | hk | hk | hk <;>
    simp only [onNumbers, Value.number?, hk] <;> exact ⟨_, rfl⟩

theorem onNumbers_eq_error_iff {op : Token} (h : op.kind ∈ numericOperators) {v w : Value}
    {fault : Fault} : onNumbers op v w = .error fault ↔
      (∀ x y, ¬ (v = .number x ∧ w = .number y)) ∧ fault = .runtime ⟨.operandsNumbers, op⟩ := by
  by_cases hnumbers : ∃ x y, v = .number x ∧ w = .number y
  · obtain ⟨x, y, rfl, rfl⟩ := hnumbers
    obtain ⟨u, hu⟩ := onNumbers_numbers h x y
    rw [hu]
    exact iff_of_false nofun fun hnot => hnot.1 x y ⟨rfl, rfl⟩
  · have hfault : onNumbers op v w = .error (.runtime ⟨.operandsNumbers, op⟩) := by
      cases v <;> cases w <;> first | rfl | exact absurd ⟨_, _, rfl, rfl⟩ hnumbers
    rw [hfault]
    constructor
    · intro he
      cases he
      exact ⟨fun x y hxy => hnumbers ⟨x, y, hxy⟩, rfl⟩
    · intro he
      rw [he.2]

theorem applyBinary_eq_error_iff {op : Token} {v w : Value} {fault : Fault} :
    applyBinary op v w = .error fault ↔ BinaryMisuse op v w fault := by
  constructor
  · intro h
    unfold applyBinary at h
    split at h
    · rename_i hk
      obtain ⟨hnumbers, hstrings, rfl⟩ := add_eq_error_iff.mp h
      exact .operandsAddable hk hnumbers hstrings
    · cases h
    · cases h
    iterate 7
      rename_i hk
      have hnumeric : op.kind ∈ numericOperators := by simp [numericOperators, hk]
      obtain ⟨hnumbers, rfl⟩ := (onNumbers_eq_error_iff hnumeric).mp h
      exact .operandsNumbers hnumeric hnumbers
    · cases h
      exact .misplaced (by simp_all [binaryOperators])
  · intro h
    cases h with
    | operandsAddable hk hnumbers hstrings =>
      simp only [applyBinary, hk]
      exact add_eq_error_iff.mpr ⟨hnumbers, hstrings, rfl⟩
    | operandsNumbers hk hnumbers =>
      rw [applyBinary_of_numeric hk]
      exact (onNumbers_eq_error_iff hk).mpr ⟨hnumbers, rfl⟩
    | misplaced hk =>
      unfold applyBinary
      split <;> first | rfl | simp_all [binaryOperators]

/-! ## Operations that fail -/

namespace Expr

/-- The operands have values, to which the operator does not apply. -/
inductive FailsWith : Expr → Fault → Prop
  | unary {op e v fault} : e.value = .ok v → UnaryMisuse op v fault → FailsWith (unary op e) fault
  | binary {l op r v w fault} : l.value = .ok v → r.value = .ok w → BinaryMisuse op v w fault →
      FailsWith (binary l op r) fault

theorem failsWith_iff {n : Expr} {fault : Fault} :
    n.FailsWith fault ↔ n.Fails ∧ n.value = .error fault := by
  constructor
  · intro h
    cases h with
    | @unary op e v fault hv hm =>
      have hn : (Expr.unary op e).value = .error fault :=
        (value_unary hv).trans (applyUnary_eq_error_iff.mpr hm)
      exact ⟨⟨List.forall_mem_singleton.mpr ⟨v, hv⟩, fault, hn⟩, hn⟩
    | @binary l op r v w fault hv hw hm =>
      have hn : (Expr.binary l op r).value = .error fault :=
        (value_binary hv hw).trans (applyBinary_eq_error_iff.mpr hm)
      have hoperands : ∀ e ∈ [l, r], ∃ u, e.value = .ok u :=
        List.forall_mem_cons.mpr ⟨⟨v, hv⟩, List.forall_mem_singleton.mpr ⟨w, hw⟩⟩
      exact ⟨⟨hoperands, fault, hn⟩, hn⟩
  · intro h
    obtain ⟨hfails, hn⟩ := h
    rcases hfails.cases with ⟨op, e, v, rfl, hv, happly⟩ | ⟨l, op, r, v, w, rfl, hv, hw, happly⟩
    · exact .unary hv (applyUnary_eq_error_iff.mp (happly.symm.trans hn))
    · exact .binary hv hw (applyBinary_eq_error_iff.mp (happly.symm.trans hn))

theorem not_failsWith_of_value {n : Expr} {v : Value} (h : n.value = .ok v) (fault : Fault) :
    ¬ n.FailsWith fault :=
  fun hn => not_fails_of_value h (failsWith_iff.mp hn).1

/-- Evaluation passes all operations of a tree that has a value. -/
theorem exists_value_of_mem_operations {e : Expr} {v : Value} (h : e.value = .ok v) :
    ∀ n ∈ e.operations, ∃ w, n.value = .ok w := by
  have hcourse := e.course
  rw [value] at h
  generalize e.evaluate = m at h hcourse
  cases hcourse with
  | passed hall => exact hall
  | stopped => cases h

/-- The operation is the first in post-order that fails, and this is its fault. -/
def FirstFails (e n : Expr) (fault : Fault) : Prop :=
  ∃ before after, e.operations = before ++ n :: after ∧ (∀ m ∈ before, ∀ f, ¬ m.FailsWith f) ∧
    n.FailsWith fault

theorem FirstFails.mem {e n : Expr} {fault : Fault} (h : e.FirstFails n fault) :
    n ∈ e.operations := by
  obtain ⟨before, after, hsplit, -⟩ := h
  simp [hsplit]

theorem FirstFails.failsWith {e n : Expr} {fault : Fault} (h : e.FirstFails n fault) :
    n.FailsWith fault := by
  obtain ⟨before, after, -, -, hfails⟩ := h
  exact hfails

theorem FirstFails.unique {e n n' : Expr} {fault fault' : Fault} (h : e.FirstFails n fault)
    (h' : e.FirstFails n' fault') : n = n' := by
  classical
  have hfind : ∀ {n : Expr} {fault : Fault}, e.FirstFails n fault →
      e.operations.find? (fun m => ∃ f, m.FailsWith f) = some n := by
    intro n fault h
    obtain ⟨before, after, hsplit, hbefore, hn⟩ := h
    refine List.find?_eq_some_iff_append.mpr ⟨?_, before, after, hsplit, fun m hm => ?_⟩
    · simpa using ⟨fault, hn⟩
    · simpa using hbefore m hm
  exact Option.some.inj ((hfind h).symm.trans (hfind h'))

theorem exists_firstFails {e : Expr} {fault : Fault} (h : e.value = .error fault) :
    ∃ n, e.FirstFails n fault := by
  obtain ⟨before, n, after, hsplit, hbefore, hn, hfault⟩ := exists_fails h
  refine ⟨n, before, after, hsplit, fun m hm => ?_, failsWith_iff.mpr ⟨hn, hfault⟩⟩
  obtain ⟨w, hw⟩ := hbefore m hm
  exact not_failsWith_of_value hw

theorem exists_value_iff {e : Expr} :
    (∃ v, e.value = .ok v) ↔ ∀ n ∈ e.operations, ∀ fault, ¬ n.FailsWith fault := by
  constructor
  · intro h n hn
    obtain ⟨v, hv⟩ := h
    obtain ⟨w, hw⟩ := exists_value_of_mem_operations hv n hn
    exact not_failsWith_of_value hw
  · intro h
    cases he : e.value with
    | ok v => exact ⟨v, rfl⟩
    | error fault =>
      obtain ⟨n, hn⟩ := exists_firstFails he
      exact absurd hn.failsWith (h n hn.mem fault)

theorem value_of_firstFails {e n : Expr} {fault : Fault} (h : e.FirstFails n fault) :
    e.value = .error fault := by
  cases he : e.value with
  | ok v => exact absurd h.failsWith (exists_value_iff.mp ⟨v, he⟩ n h.mem fault)
  | error f =>
    -- the tree ends with the fault of its first failure, and there is only one such operation
    obtain ⟨n', h'⟩ := exists_firstFails he
    obtain rfl : n = n' := h.unique h'
    rw [← (failsWith_iff.mp h'.failsWith).2, (failsWith_iff.mp h.failsWith).2]

end Expr

/-- The first failure in post-order wins. A tree has a value exactly if none of its operations
fails; else it ends with the fault of the operation that is the first to fail, which names the
operator of that operation. An operator at an impossible place is no exception: it comes to its
turn behind operations that all have values, and its own operands have them too. -/
theorem value_is_first_failure (e : Expr) :
    ((∃ v, e.value = .ok v) ↔ ∀ n ∈ e.operations, ∀ fault, ¬ n.FailsWith fault) ∧
    (∀ fault, e.value = .error fault ↔ ∃ n, e.FirstFails n fault) ∧
    (∀ n fault, e.FirstFails n fault → n.operator? = some fault.operator) ∧
    ∀ d, e.value = .error (.defect d) → ∃ before n after, e.operations = before ++ n :: after ∧
      n.operator? = some d.operator ∧ (∀ operand ∈ n.operands, ∃ v, operand.value = .ok v) ∧
      ∀ m ∈ before, ∃ w, m.value = .ok w := by
  refine ⟨Expr.exists_value_iff, fun fault => ⟨Expr.exists_firstFails, fun h => ?_⟩,
    fun n fault h => ?_, fun d h => ?_⟩
  · obtain ⟨n, hn⟩ := h
    exact Expr.value_of_firstFails hn
  · obtain ⟨hn, hfault⟩ := Expr.failsWith_iff.mp h.failsWith
    exact hn.operator? hfault
  · obtain ⟨before, n, after, hsplit, hbefore, hn, hfault⟩ := Expr.exists_fails h
    exact ⟨before, n, after, hsplit, hn.operator? hfault, hn.operands, hbefore⟩

/-- The operand on the left breaks a rule before the right one comes to an impossible operator. -/
example : (Expr.binary (.unary ⟨.symbol .minus, "-", none, 1⟩ (.literal .nil))
    ⟨.symbol .comma, ",", none, 1⟩ (.unary ⟨.symbol .star, "*", none, 1⟩ (.literal .nil))).value =
      .error (.runtime ⟨.operandNumber, ⟨.symbol .minus, "-", none, 1⟩⟩) := rfl

end Lox
