import Lox.Expr.Eval

/-! What evaluation depends on. Two trees are `Alike` when they differ in nothing but the
values of their leaves, and there in values of one kind. Every operator takes operands of
the same kinds to results of one kind or to the same fault, so alike trees are evaluated
alike (`evaluation_alike`): neither NaN nor a zero divisor nor what counts as true decides
whether a fault arises, or which. -/

namespace Lox

/-- Values of the same kind. -/
inductive Value.Alike : Value → Value → Prop
  | nil : Alike .nil .nil
  | bool (a b : Bool) : Alike (.bool a) (.bool b)
  | number (x y : Float) : Alike (.number x) (.number y)
  | string (s t : String) : Alike (.string s) (.string t)

/-- Trees with the same nodes and the same operators, and leaves of the same kinds. -/
inductive Expr.Alike : Expr → Expr → Prop
  | literal {v w} : v.Alike w → Alike (.literal v) (.literal w)
  | group {a b} : Alike a b → Alike (.group a) (.group b)
  | unary {op a b} : Alike a b → Alike (.unary op a) (.unary op b)
  | binary {op a b a' b'} : Alike a b → Alike a' b' →
      Alike (.binary a op a') (.binary b op b')

/-- Values of the same kind, or the same fault. -/
inductive AlikeResults : Except Fault Value → Except Fault Value → Prop
  | value {v w} : v.Alike w → AlikeResults (.ok v) (.ok w)
  | fault (f) : AlikeResults (.error f) (.error f)

structure Evaluation.Alike (m n : Evaluation) : Prop where
  result : AlikeResults m.result n.result
  records : m.records = n.records

namespace Value.Alike

variable {v w v' w' : Value}

theorem typeName_eq (h : v.Alike w) : v.typeName = w.typeName := by
  cases h <;> rfl

theorem number?_cases (h : v.Alike w) :
    (∃ x y, v.number? = some x ∧ w.number? = some y) ∨ v.number? = none ∧ w.number? = none := by
  cases h with
  | number x y => exact .inl ⟨x, y, rfl, rfl⟩
  | nil | bool | string => exact .inr ⟨rfl, rfl⟩

/-! ## Operators -/

theorem applyUnary (op : Token) (h : v.Alike w) :
    AlikeResults (applyUnary op v) (applyUnary op w) := by
  unfold Lox.applyUnary
  split
  · exact .value (.bool _ _)
  · rcases h.number?_cases with ⟨x, y, hx, hy⟩ | ⟨hx, hy⟩
    · rw [hx, hy]
      exact .value (.number _ _)
    · rw [hx, hy]
      exact .fault _
  · exact .fault _

theorem add (op : Token) (h : v.Alike w) (h' : v'.Alike w') :
    AlikeResults (add op v v') (add op w w') := by
  cases h <;> cases h'
  case number.number => exact .value (.number _ _)
  case string.string => exact .value (.string _ _)
  all_goals exact .fault _

theorem onNumbers (op : Token) (h : v.Alike w) (h' : v'.Alike w') :
    AlikeResults (onNumbers op v v') (onNumbers op w w') := by
  unfold Lox.onNumbers
  rcases h.number?_cases with ⟨x, y, hx, hy⟩ | ⟨hx, hy⟩
  · rcases h'.number?_cases with ⟨x', y', hx', hy'⟩ | ⟨hx', hy'⟩
    · simp only [hx, hy, hx', hy']
      split
      iterate 4 exact .value (.bool _ _)
      iterate 3 exact .value (.number _ _)
      exact .fault _
    · rw [hx, hy, hx', hy']
      exact .fault _
  · rw [hx, hy]
    exact .fault _

theorem applyBinary (op : Token) (h : v.Alike w) (h' : v'.Alike w') :
    AlikeResults (applyBinary op v v') (applyBinary op w w') := by
  unfold Lox.applyBinary
  split
  · exact h.add op h'
  · exact .value (.bool _ _)
  · exact .value (.bool _ _)
  iterate 7 exact h.onNumbers op h'
  exact .fault _

theorem applicationRecord_eq (op : Token) (h : v.Alike w) (h' : v'.Alike w') :
    applicationRecord op v v' = applicationRecord op w w' := by
  rw [applicationRecord, applicationRecord, h.typeName_eq, h'.typeName_eq]

end Value.Alike

/-! ## Evaluation -/

/-- The second evaluation is entered in both runs or in neither. -/
theorem Evaluation.Alike.bind {m n : Evaluation} {f g : Value → Evaluation} (h : m.Alike n)
    (hfg : ∀ v w, v.Alike w → (f v).Alike (g w)) : (m.bind f).Alike (n.bind g) := by
  obtain ⟨mresult, records⟩ := m
  obtain ⟨nresult, nrecords⟩ := n
  obtain ⟨hresult, hrecords⟩ := h
  obtain rfl : records = nrecords := hrecords
  cases hresult with
  | fault f => exact ⟨.fault f, rfl⟩
  | @value v w hv =>
    obtain ⟨hnext, hmore⟩ := hfg v w hv
    exact ⟨hnext, congrArg (records ++ ·) hmore⟩

theorem Expr.Alike.evaluate {a b : Expr} (h : a.Alike b) : a.evaluate.Alike b.evaluate := by
  induction h with
  | literal hv => exact ⟨.value hv, rfl⟩
  | group _ ih => exact ih
  | @unary op _ _ _ ih => exact ih.bind fun v w hv => ⟨hv.applyUnary op, rfl⟩
  | @binary op _ _ _ _ _ _ ih ih' =>
    exact ih.bind fun v w hv => ih'.bind fun v' w' hv' =>
      ⟨hv.applyBinary op hv', congrArg (fun r => [r]) (hv.applicationRecord_eq op hv')⟩

/-- The kinds of the leaves decide how an evaluation ends and what it records. Two trees
that differ only in the values of their leaves, of one kind at each, both have values, of
one kind, or both end in the same runtime error or in the same defect, at the same
operator. -/
theorem evaluation_alike (a b : Expr) (h : a.Alike b) :
    ((∃ v w, a.value = .ok v ∧ b.value = .ok w ∧ v.Alike w) ∨
      (∃ e, a.value = .error (.runtime e) ∧ b.value = .error (.runtime e)) ∨
      ∃ d, a.value = .error (.defect d) ∧ b.value = .error (.defect d)) ∧
    a.evaluate.records = b.evaluate.records := by
  obtain ⟨hresult, hrecords⟩ := h.evaluate
  refine ⟨?_, hrecords⟩
  rw [Expr.value, Expr.value]
  generalize a.evaluate.result = m at hresult
  generalize b.evaluate.result = n at hresult
  cases hresult with
  | @value v w hv => exact .inl ⟨v, w, rfl, rfl, hv⟩
  | fault f => cases f with
    | runtime e => exact .inr (.inl ⟨e, rfl, rfl⟩)
    | defect d => exact .inr (.inr ⟨d, rfl, rfl⟩)

/-- A quotient and a string do not add up, be the divisor zero or not. -/
theorem evaluation_alike_quotient :
    (Expr.binary (.binary (.literal (.number 1)) ⟨.symbol .slash, "/", none, 1⟩
        (.literal (.number 0))) ⟨.symbol .plus, "+", none, 2⟩ (.literal (.string ""))).Alike
      (.binary (.binary (.literal (.number 3)) ⟨.symbol .slash, "/", none, 1⟩
        (.literal (.number 2))) ⟨.symbol .plus, "+", none, 2⟩ (.literal (.string "x"))) ∧
    (Expr.binary (.binary (.literal (.number 1)) ⟨.symbol .slash, "/", none, 1⟩
        (.literal (.number 0))) ⟨.symbol .plus, "+", none, 2⟩ (.literal (.string ""))).value =
      .error (.runtime ⟨.operandsAddable, ⟨.symbol .plus, "+", none, 2⟩⟩) ∧
    (Expr.binary (.binary (.literal (.number 3)) ⟨.symbol .slash, "/", none, 1⟩
        (.literal (.number 2))) ⟨.symbol .plus, "+", none, 2⟩ (.literal (.string "x"))).value =
      .error (.runtime ⟨.operandsAddable, ⟨.symbol .plus, "+", none, 2⟩⟩) := by
  have halike := @Expr.Alike.binary ⟨.symbol .plus, "+", none, 2⟩ _ _ _ _
    (@Expr.Alike.binary ⟨.symbol .slash, "/", none, 1⟩ _ _ _ _ (.literal (.number 1 3))
      (.literal (.number 0 2))) (.literal (.string "" "x"))
  refine ⟨halike, rfl, ?_⟩
  obtain ⟨⟨v, w, hv, -⟩ | ⟨e, he, he'⟩ | ⟨d, hd, -⟩, -⟩ := evaluation_alike _ _ halike
  · cases hv
  · cases he
    exact he'
  · cases hd

end Lox
