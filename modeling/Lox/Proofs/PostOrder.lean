import Lox.Expr.Eval

/-! Operators in the order of their application. The operator nodes of a tree in post-order,
its `operations`, are those that evaluation comes to one by one. It passes each that has a
value and stops at the first that `Fails`, with the fault of that node (`Expr.course`); the
binary ones it came to, the last included, left the records. -/

namespace Lox

/-- The names of the types, as the records have them. -/
inductive Value.HasType : Value → String → Prop
  | nil : HasType nil "nil"
  | bool {b} : HasType (bool b) "bool"
  | number {x} : HasType (number x) "number"
  | string {s} : HasType (string s) "string"

theorem Value.hasType_typeName (v : Value) : v.HasType v.typeName := by
  cases v <;> constructor

namespace Expr

/-- The operator nodes, those of an operand before the node and those of the left one first. -/
def operations : Expr → List Expr
  | literal _ => []
  | group e => e.operations
  | unary op e => e.operations ++ [unary op e]
  | binary l op r => l.operations ++ r.operations ++ [binary l op r]

def operands : Expr → List Expr
  | literal _ => []
  | group e | unary _ e => [e]
  | binary l _ r => [l, r]

/-- The operator at the root. -/
def operator? : Expr → Option Token
  | unary op _ | binary _ op _ => some op
  | literal _ | group _ => none

/-- The operands have values, but the node has none. -/
structure Fails (n : Expr) : Prop where
  operands : ∀ e ∈ n.operands, ∃ v, e.value = .ok v
  fault : ∃ f, n.value = .error f

/-- The operations that evaluation comes to: all, if none fails, and else those up to the
first that does. -/
inductive Reaches (e : Expr) : List Expr → Prop
  | all : (∀ n ∈ e.operations, ¬ n.Fails) → Reaches e e.operations
  | upTo {before n after} : e.operations = before ++ n :: after → (∀ m ∈ before, ¬ m.Fails) →
      n.Fails → Reaches e (before ++ [n])

/-- The records of operations one after another: a binary one leaves the types of its operands
and its operator, a unary one nothing. -/
inductive Traces : List Expr → List LogRecord → Prop
  | nil : Traces [] []
  | unary {op e rest records} : Traces rest records → Traces (unary op e :: rest) records
  | binary {l op r v w left right rest records} : l.value = .ok v → r.value = .ok w →
      v.HasType left → w.HasType right → Traces rest records →
      Traces (binary l op r :: rest)
        (⟨.trace, left ++ " " ++ op.lexeme ++ " " ++ right⟩ :: records)

theorem Traces.append {front rest : List Expr} {records more : List LogRecord}
    (h : Traces front records) (hrest : Traces rest more) :
    Traces (front ++ rest) (records ++ more) := by
  induction h with
  | nil => exact hrest
  | unary _ ih => exact .unary ih
  | binary hv hw hleft hright _ ih => exact .binary hv hw hleft hright ih

theorem not_fails_of_value {n : Expr} {v : Value} (h : n.value = .ok v) : ¬ n.Fails := by
  intro hn
  obtain ⟨f, hf⟩ := hn.fault
  cases h.symm.trans hf

/-- How an evaluation goes through the operations of a tree. -/
inductive Course (e : Expr) : Evaluation → Prop
  | passed {v records} : (∀ n ∈ e.operations, ∃ w, n.value = .ok w) →
      Traces e.operations records → Course e ⟨.ok v, records⟩
  | stopped {before n after fault records} : e.operations = before ++ n :: after →
      (∀ m ∈ before, ∃ w, m.value = .ok w) → n.Fails → n.value = .error fault →
      Traces (before ++ [n]) records → Course e ⟨.error fault, records⟩

/-- A node whose operands have values comes last: it has a value too, or is the first to fail. -/
theorem course_of_operands {n : Expr} {front : List Expr} {records : List LogRecord}
    (hsplit : n.operations = front ++ [n]) (hfront : ∀ m ∈ front, ∃ w, m.value = .ok w)
    (hoperands : ∀ e ∈ n.operands, ∃ v, e.value = .ok v) (htraces : Traces (front ++ [n]) records) :
    n.Course ⟨n.value, records⟩ := by
  cases hn : n.value with
  | ok w =>
    have hlast : ∀ m ∈ [n], ∃ w, m.value = .ok w := List.forall_mem_singleton.mpr ⟨w, hn⟩
    rw [← hsplit] at htraces
    exact .passed (hsplit ▸ List.forall_mem_append.mpr ⟨hfront, hlast⟩) htraces
  | error fault => exact .stopped hsplit hfront ⟨hoperands, fault, hn⟩ hn htraces

/-- A fault of an operand ends the evaluation of the node there. -/
theorem Course.inside {e n : Expr} (front after : List Expr) {fault : Fault}
    {records earlier : List LogRecord} (h : e.Course ⟨.error fault, records⟩)
    (hsplit : n.operations = front ++ (e.operations ++ after))
    (hfront : ∀ m ∈ front, ∃ w, m.value = .ok w) (htraces : Traces front earlier) :
    n.Course ⟨.error fault, earlier ++ records⟩ := by
  cases h with
  | @stopped before m rest _ _ hinner hbefore hm hfault hrecords =>
    have hfirst : n.operations = (front ++ before) ++ m :: (rest ++ after) := by
      rw [hsplit, hinner]
      simp
    refine .stopped hfirst (List.forall_mem_append.mpr ⟨hfront, hbefore⟩) hm hfault ?_
    rw [List.append_assoc]
    exact htraces.append hrecords

/-- A group has the operations of what stands inside. -/
theorem Course.group {e : Expr} {m : Evaluation} (h : e.Course m) : (group e).Course m := by
  cases h with
  | passed hall htraces => exact .passed hall htraces
  | stopped hsplit hbefore hn hfault htraces => exact .stopped hsplit hbefore hn hfault htraces

theorem Course.unary {e : Expr} (h : e.Course e.evaluate) (op : Token) :
    (unary op e).Course (unary op e).evaluate := by
  rcases hm : e.evaluate with ⟨fault | v, records⟩
  · rw [hm] at h
    rw [evaluate, hm]
    exact h.inside [] _ rfl nofun .nil
  · rw [hm] at h
    have hroot : (Expr.unary op e).evaluate = ⟨(Expr.unary op e).value, records ++ []⟩ := by
      rw [value, evaluate, hm]
      rfl
    have hoperand : e.value = .ok v := congrArg Evaluation.result hm
    cases h with
    | passed hall htraces =>
      rw [hroot]
      exact course_of_operands rfl hall (List.forall_mem_singleton.mpr ⟨v, hoperand⟩)
        (htraces.append (.unary .nil))

theorem Course.binary {l r : Expr} (hl : l.Course l.evaluate) (hr : r.Course r.evaluate)
    (op : Token) : (binary l op r).Course (binary l op r).evaluate := by
  rcases hm : l.evaluate with ⟨fault | v, records⟩
  · rw [hm] at hl
    rw [evaluate, hm]
    exact hl.inside [] _ (List.append_assoc ..) nofun .nil
  · rw [hm] at hl
    have hleft : l.value = .ok v := congrArg Evaluation.result hm
    cases hl with
    | passed hall htraces =>
      rcases hm' : r.evaluate with ⟨fault | w, more⟩
      · rw [hm'] at hr
        rw [evaluate, hm, Evaluation.bind, hm']
        exact hr.inside _ _ (List.append_assoc ..) hall htraces
      · rw [hm'] at hr
        have hright : r.value = .ok w := congrArg Evaluation.result hm'
        have hroot : (Expr.binary l op r).evaluate = ⟨(Expr.binary l op r).value,
            records ++ (more ++ [applicationRecord op v w])⟩ := by
          rw [value, evaluate, hm, Evaluation.bind, hm']
          rfl
        cases hr with
        | passed hall' htraces' =>
          rw [hroot, ← List.append_assoc]
          refine course_of_operands rfl (List.forall_mem_append.mpr ⟨hall, hall'⟩) ?_
            ((htraces.append htraces').append
              (.binary hleft hright v.hasType_typeName w.hasType_typeName .nil))
          exact List.forall_mem_cons.mpr ⟨⟨v, hleft⟩, List.forall_mem_singleton.mpr ⟨w, hright⟩⟩

/-- Evaluation goes through the operations in post-order, up to the first that fails. -/
theorem course (e : Expr) : e.Course e.evaluate := by
  induction e with
  | literal v => exact .passed nofun .nil
  | group e ih => exact ih.group
  | unary op e ih => exact ih.unary op
  | binary l op r ihl ihr => exact ihl.binary ihr op

/-- A fault is that of the first operation that fails. -/
theorem exists_fails {e : Expr} {fault : Fault} (h : e.value = .error fault) :
    ∃ before n after, e.operations = before ++ n :: after ∧ (∀ m ∈ before, ∃ w, m.value = .ok w) ∧
      n.Fails ∧ n.value = .error fault := by
  have hcourse := e.course
  rw [value] at h
  generalize e.evaluate = m at h hcourse
  cases hcourse with
  | passed => cases h
  | stopped hsplit hbefore hn hfault _ =>
    cases h
    exact ⟨_, _, _, hsplit, hbefore, hn, hfault⟩

/-- The records of an evaluation are those of the operations it comes to. -/
theorem exists_reaches (e : Expr) : ∃ nodes, e.Reaches nodes ∧ Traces nodes e.evaluate.records := by
  have h := e.course
  generalize e.evaluate = m at h
  cases h with
  | passed hall htraces =>
    refine ⟨_, .all fun n hn => ?_, htraces⟩
    obtain ⟨w, hw⟩ := hall n hn
    exact not_fails_of_value hw
  | stopped hsplit hbefore hn _ htraces =>
    refine ⟨_, .upTo hsplit (fun m hm => ?_) hn, htraces⟩
    obtain ⟨w, hw⟩ := hbefore m hm
    exact not_fails_of_value hw

/-! ## The operator at fault -/

theorem value_unary {op : Token} {e : Expr} {v : Value} (h : e.value = .ok v) :
    (unary op e).value = applyUnary op v := by
  rw [value] at h ⊢
  rw [evaluate, Evaluation.bind, h]

theorem value_binary {op : Token} {l r : Expr} {v w : Value} (hl : l.value = .ok v)
    (hr : r.value = .ok w) : (binary l op r).value = applyBinary op v w := by
  rw [value] at hl hr ⊢
  rw [evaluate, Evaluation.bind, hl]
  dsimp only
  rw [Evaluation.bind, hr]

/-- A node fails in the application of its operator to the values of its operands. -/
theorem Fails.cases {n : Expr} (h : n.Fails) :
    (∃ op e v, n = unary op e ∧ e.value = .ok v ∧ n.value = applyUnary op v) ∨
      ∃ l op r v w, n = binary l op r ∧ l.value = .ok v ∧ r.value = .ok w ∧
        n.value = applyBinary op v w := by
  obtain ⟨hoperands, fault, hfault⟩ := h
  cases n with
  | literal v => cases hfault
  | group e =>
    obtain ⟨v, hv⟩ := hoperands e List.mem_cons_self
    cases hv.symm.trans hfault
  | unary op e =>
    obtain ⟨v, hv⟩ := hoperands e List.mem_cons_self
    exact .inl ⟨op, e, v, rfl, hv, value_unary hv⟩
  | binary l op r =>
    obtain ⟨v, hv⟩ := hoperands l List.mem_cons_self
    obtain ⟨w, hw⟩ := hoperands r (List.mem_cons_of_mem l List.mem_cons_self)
    exact .inr ⟨l, op, r, v, w, rfl, hv, hw, value_binary hv hw⟩

end Expr

/-- The operator that a fault names. -/
def Fault.operator : Fault → Token
  | runtime e => e.operator
  | defect d => d.operator

theorem operator_of_applyUnary {op : Token} {v : Value} {fault : Fault}
    (h : applyUnary op v = .error fault) : fault.operator = op := by
  unfold applyUnary at h
  split at h
  · cases h
  · split at h <;> cases h
    rfl
  · cases h
    rfl

theorem operator_of_onNumbers {op : Token} {v w : Value} {fault : Fault}
    (h : onNumbers op v w = .error fault) : fault.operator = op := by
  unfold onNumbers at h
  split at h
  · split at h <;> cases h
    rfl
  · cases h
    rfl

theorem operator_of_applyBinary {op : Token} {v w : Value} {fault : Fault}
    (h : applyBinary op v w = .error fault) : fault.operator = op := by
  unfold applyBinary at h
  split at h
  · unfold add at h
    split at h <;> cases h
    rfl
  · cases h
  · cases h
  iterate 7 exact operator_of_onNumbers h
  · cases h
    rfl

/-- The fault of a node that fails names the operator of the node. -/
theorem Expr.Fails.operator? {n : Expr} {fault : Fault} (h : n.Fails)
    (hfault : n.value = .error fault) : n.operator? = some fault.operator := by
  rcases h.cases with ⟨op, e, v, rfl, -, hv⟩ | ⟨l, op, r, v, w, rfl, -, -, hv⟩
  · rw [operator_of_applyUnary (hv.symm.trans hfault)]
    rfl
  · rw [operator_of_applyBinary (hv.symm.trans hfault)]
    rfl

end Lox
