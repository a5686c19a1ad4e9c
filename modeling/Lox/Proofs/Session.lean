import Lox.Interpreter.Basic

/-! Sessions that write to one sink. What a step puts out does not depend on the sink
(`Step.output`), and a step leaves the sink as a write of its output does (`sink_run`), so
a session leaves it as one write of all outputs does (`session_sink`). A step that puts out
nothing is answered as by itself; one with a value is answered by whether its line fits. -/

namespace Lox

theorem Value.line_ne_nil (v : Value) : v.line ≠ [] := by
  intro h
  have hsize : (v.display ++ "\n").toUTF8.data.toList.length = 0 := congrArg List.length h
  have hpos : (v.display ++ "\n").utf8ByteSize = v.display.utf8ByteSize + 1 :=
    String.utf8ByteSize_append
  rw [Array.length_toList] at hsize
  have heq : (v.display ++ "\n").utf8ByteSize = (v.display ++ "\n").toUTF8.data.size := rfl
  omega

/-! ## Sinks -/

namespace Sink

/-- What a sink keeps of the bytes that are written to it. -/
def kept (capacity : Option Nat) (bytes : List UInt8) : List UInt8 :=
  match capacity with
  | none => bytes
  | some n => bytes.take n

/-- There is room for all of the bytes. -/
def Holds (capacity : Option Nat) (bytes : List UInt8) : Prop :=
  ∀ n, capacity = some n → bytes.length ≤ n

theorem Holds.of_append {capacity : Option Nat} {a b : List UInt8}
    (h : Holds capacity (a ++ b)) : Holds capacity a := by
  intro n hn
  have hle := h n hn
  rw [List.length_append] at hle
  omega

theorem Holds.of_append_right {capacity : Option Nat} {a b : List UInt8}
    (h : Holds capacity (a ++ b)) : Holds capacity b := by
  intro n hn
  have hle := h n hn
  rw [List.length_append] at hle
  omega

theorem write_nil (s : Sink) : s.write [] = s := by
  obtain ⟨room, written⟩ := s
  cases room <;> simp [write]

theorem written_write_empty (capacity : Option Nat) (bytes : List UInt8) :
    ((empty capacity).write bytes).written = kept capacity bytes := by
  cases capacity <;> simp [write, empty, kept]

theorem fits_empty_iff {capacity : Option Nat} {bytes : List UInt8} :
    (empty capacity).fits bytes = true ↔ Holds capacity bytes := by
  cases capacity <;> simp [fits, empty, Holds]

theorem fits_append (s : Sink) (a b : List UInt8) :
    s.fits (a ++ b) = (s.fits a && (s.write a).fits b) := by
  obtain ⟨room, written⟩ := s
  cases room with
  | none => simp [fits, write]
  | some n =>
    have hiff : a.length + b.length ≤ n ↔ a.length ≤ n ∧ b.length ≤ n - a.length := by omega
    simp [fits, write, hiff]

/-- Once bytes did not fit, no more do. -/
theorem fits_write_of_not_fits {s : Sink} {a b : List UInt8} (ha : s.fits a = false)
    (hb : b ≠ []) : (s.write a).fits b = false := by
  obtain ⟨room, written⟩ := s
  have hpos := List.length_pos_iff.mpr hb
  cases room with
  | none => simp [fits] at ha
  | some n =>
    have hlt : n < a.length := by simpa [fits] using ha
    have hroom : n - a.length < b.length := by omega
    simpa [fits, write] using hroom

/-- Bytes fit after others exactly when there is room for both. -/
theorem fits_write_iff {capacity : Option Nat} {a b : List UInt8} (hb : b ≠ []) :
    ((empty capacity).write a).fits b = true ↔ Holds capacity (a ++ b) := by
  rw [← fits_empty_iff, fits_append, Bool.and_eq_true]
  constructor
  · intro h
    refine ⟨?_, h⟩
    cases ha : (empty capacity).fits a with
    | true => rfl
    | false => rw [fits_write_of_not_fits ha hb] at h; cases h
  · exact fun h => h.2

/-- Pieces written one after another, up to the first that does not fit; whether all did. -/
def writeEach (s : Sink) : List (List UInt8) → Sink × Bool
  | [] => (s, true)
  | piece :: rest => if s.fits piece then (s.write piece).writeEach rest else (s.write piece, false)

theorem write_append_of_not_fits {s : Sink} {a : List UInt8} (ha : s.fits a = false)
    (b : List UInt8) : s.write (a ++ b) = s.write a := by
  obtain ⟨room, written⟩ := s
  cases room with
  | none => simp [fits] at ha
  | some n =>
    have hlt : n < a.length := by simpa [fits] using ha
    have htake : (a ++ b).take n = a.take n := List.take_append_of_le_length (Nat.le_of_lt hlt)
    have hroom : n - (a ++ b).length = n - a.length := by
      rw [List.length_append]
      omega
    simp only [write, htake, hroom]

/-- To write in pieces and stop where one does not fit is to write at once. -/
theorem writeEach_eq (s : Sink) (pieces : List (List UInt8)) :
    s.writeEach pieces = (s.write pieces.flatten, s.fits pieces.flatten) := by
  induction pieces generalizing s with
  | nil => simp [writeEach, write_nil, fits_nil]
  | cons piece rest ih =>
    rw [writeEach, List.flatten_cons, fits_append]
    cases hp : s.fits piece with
    | true => simp [ih, write_append]
    | false => simp [write_append_of_not_fits hp]

end Sink

/-! ## Steps -/

theorem interpret_of_value {e : Expr} {v : Value} (h : e.value = .ok v) (s : Sink) :
    (interpret e s).outcome = (if s.fits v.line then .ok v else .error .write) ∧
      (interpret e s).sink = s.write v.line := by
  have hresult : e.evaluate.result = .ok v := h
  simp [interpret, hresult]

theorem interpret_of_fault {e : Expr} {fault : Fault} (h : e.value = .error fault) (s : Sink) :
    (interpret e s).outcome = .error (.ofFault fault) ∧ (interpret e s).sink = s := by
  have hresult : e.evaluate.result = .error fault := h
  simp [interpret, hresult]

/-- A run of a tree fails when its line does not fit or its evaluation has a fault. -/
theorem interpret_eq_error {e : Expr} {s : Sink} {failure : Failure}
    (h : (interpret e s).outcome = .error failure) :
    failure = .write ∨ ∃ fault, e.value = .error fault ∧ failure = .ofFault fault := by
  cases hv : e.value with
  | ok v =>
    rw [(interpret_of_value hv s).1] at h
    split at h
    · cases h
    · exact .inl (Except.error.inj h).symm
  | error fault =>
    rw [(interpret_of_fault hv s).1] at h
    exact .inr ⟨fault, rfl, (Except.error.inj h).symm⟩

/-- However the line of the value is cut into pieces for the writer, the run ends as the
writes of these do. -/
theorem interpret_writeEach {e : Expr} {v : Value} (h : e.value = .ok v)
    {pieces : List (List UInt8)} (hp : pieces.flatten = v.line) (s : Sink) :
    (interpret e s).sink = (s.writeEach pieces).1 ∧
      (interpret e s).outcome = (if (s.writeEach pieces).2 then .ok v else .error .write) := by
  obtain ⟨houtcome, hsink⟩ := interpret_of_value h s
  rw [Sink.writeEach_eq, hp]
  exact ⟨hsink, houtcome⟩

theorem run_of_clean {text : String} {e : Expr} (he : (Reading.ofSource text).expr = some e)
    (hp : (Reading.ofSource text).problems = []) (s : Sink) :
    (run text s).outcome = (interpret e s).outcome ∧ (run text s).sink = (interpret e s).sink := by
  simp [run, he, hp]

theorem Failure.ofFault_ne_write (fault : Fault) : ofFault fault ≠ write := by
  cases fault <;> exact nofun

namespace Step

/-- The value of a step, where nothing is reported of its text and no fault ends the
evaluation. -/
def value? : Step → Option Value
  | source text =>
    if (Reading.ofSource text).problems = [] then
      (Reading.ofSource text).expr.bind fun e => e.value.toOption
    else none
  | tree e => e.value.toOption

/-- The line of the value, if there is one. -/
def output (step : Step) : List UInt8 :=
  match step.value? with
  | some v => v.line
  | none => []

theorem output_of_value {step : Step} {v : Value} (h : step.value? = some v) :
    step.output = v.line := by
  simp only [output, h]

theorem output_of_none {step : Step} (h : step.value? = none) : step.output = [] := by
  simp only [output, h]

/-- A step with a value writes it; the step succeeds when the line fits. -/
theorem run_of_value {step : Step} {v : Value} (h : step.value? = some v) (s : Sink) :
    (step.run s).outcome = (if s.fits v.line then .ok v else .error .write) ∧
      (step.run s).sink = s.write v.line := by
  cases step with
  | tree e =>
    cases hv : e.value with
    | ok w =>
      have hw : w = v := by simpa [value?, hv, Except.toOption] using h
      exact hw ▸ interpret_of_value hv s
    | error fault => simp [value?, hv, Except.toOption] at h
  | source text =>
    rw [value?] at h
    split at h
    · rename_i hp
      obtain ⟨e, he, h⟩ := Option.bind_eq_some_iff.mp h
      obtain ⟨houtcome, hsink⟩ := run_of_clean he hp s
      cases hv : e.value with
      | ok w =>
        have hw : w = v := by simpa [hv, Except.toOption] using h
        have hrun := interpret_of_value hv s
        rw [← houtcome, ← hsink, hw] at hrun
        exact hrun
      | error fault => simp [hv, Except.toOption] at h
    · cases h

/-- A step without a value fails in its own way, whatever the sink, and leaves it alone. -/
theorem run_of_none {step : Step} (h : step.value? = none) :
    ∃ failure, failure ≠ .write ∧
      ∀ s, (step.run s).outcome = .error failure ∧ (step.run s).sink = s := by
  cases step with
  | tree e =>
    cases hv : e.value with
    | ok v => simp [value?, hv, Except.toOption] at h
    | error fault => exact ⟨_, Failure.ofFault_ne_write fault, interpret_of_fault hv⟩
  | source text =>
    by_cases hclean : ∃ e, (Reading.ofSource text).expr = some e ∧
        (Reading.ofSource text).problems = []
    · obtain ⟨e, he, hp⟩ := hclean
      cases hv : e.value with
      | ok v => simp [value?, he, hp, hv, Except.toOption] at h
      | error fault =>
        refine ⟨_, Failure.ofFault_ne_write fault, fun s => ?_⟩
        obtain ⟨houtcome, hsink⟩ := run_of_clean he hp s
        obtain ⟨hfault, hsame⟩ := interpret_of_fault hv s
        exact ⟨houtcome.trans hfault, hsink.trans hsame⟩
    · refine ⟨.static (Reading.ofSource text).diagnostics, nofun, fun s => ?_⟩
      simp only [Step.run, Lox.run]
      split
      · rename_i e he hp
        exact absurd ⟨e, he, hp⟩ hclean
      · exact ⟨rfl, rfl⟩

theorem sink_run (step : Step) (s : Sink) : (step.run s).sink = s.write step.output := by
  cases hv : step.value? with
  | some v => rw [output_of_value hv, (run_of_value hv s).2]
  | none =>
    obtain ⟨failure, _, hrun⟩ := run_of_none hv
    rw [output_of_none hv, Sink.write_nil, (hrun s).2]

/-- What a session shows of the step when it begins with the sink. -/
def answer (step : Step) (s : Sink) : Answer :=
  ⟨(step.run s).outcome, (step.run s).sink.written.drop s.written.length⟩

end Step

/-! ## Sessions -/

theorem session_cons (s : Sink) (step : Step) (steps : List Step) :
    session s (step :: steps) = (step.answer s :: (session (s.write step.output) steps).1,
      (session (s.write step.output) steps).2) := by
  rw [← step.sink_run s]
  rfl

/-- A session leaves the sink as one write of all outputs does. -/
theorem session_sink (s : Sink) (steps : List Step) :
    (session s steps).2 = s.write (steps.flatMap Step.output) := by
  induction steps generalizing s with
  | nil => exact s.write_nil.symm
  | cons step steps ih => rw [session_cons, ih, List.flatMap_cons, Sink.write_append]

theorem length_session (s : Sink) (steps : List Step) :
    (session s steps).1.length = steps.length := by
  induction steps generalizing s with
  | nil => rfl
  | cons step steps ih => rw [session_cons, List.length_cons, ih, List.length_cons]

/-- A step finds the sink as the steps before it have left it. -/
theorem answer_session (s : Sink) {steps : List Step} {i : Nat} {step : Step}
    (h : steps[i]? = some step) :
    (session s steps).1[i]? = some (step.answer (s.write ((steps.take i).flatMap Step.output))) := by
  induction steps generalizing s i with
  | nil => cases h
  | cons first steps ih =>
    rw [session_cons]
    cases i with
    | zero =>
      obtain rfl : first = step := Option.some.inj h
      rw [List.take_zero, List.flatMap_nil, Sink.write_nil]
      rfl
    | succ i =>
      rw [List.take_succ_cons, List.flatMap_cons, Sink.write_append]
      exact ih (s.write first.output) h

/-- The answer that a step is due when `before` has been put out: its value if there is
room for its line, and its own failure, the same as at the start of any session, if it has
no value. -/
structure Answer.Settles (answer : Answer) (capacity : Option Nat) (before : List UInt8)
    (step : Step) : Prop where
  ok : ∀ v, step.value? = some v → (answer.outcome = .ok v ↔ Sink.Holds capacity (before ++ v.line))
  write : ∀ v, step.value? = some v → ¬ Sink.Holds capacity (before ++ v.line) →
    answer.outcome = .error .write
  failed : step.value? = none → ∃ failure, failure ≠ .write ∧ answer.outcome = .error failure
  silent : ∀ failure, failure ≠ .write → answer.outcome = .error failure →
    answer.printed = [] ∧ ∀ fresh, (step.run (.empty fresh)).outcome = .error failure
  fresh : ∀ v, answer.outcome = .ok v →
    (step.run (.empty capacity)).outcome = .ok v ∧ (step.run (.empty none)).outcome = .ok v

theorem outcome_answer_of_value {step : Step} {v : Value} (h : step.value? = some v)
    (capacity : Option Nat) (before : List UInt8) :
    (Sink.Holds capacity (before ++ v.line) →
      (step.answer ((Sink.empty capacity).write before)).outcome = .ok v) ∧
    (¬ Sink.Holds capacity (before ++ v.line) →
      (step.answer ((Sink.empty capacity).write before)).outcome = .error .write) := by
  rw [← Sink.fits_write_iff v.line_ne_nil]
  have houtcome := (step.run_of_value h ((Sink.empty capacity).write before)).1
  exact ⟨fun hfits => by rw [Step.answer, houtcome, if_pos hfits],
    fun hfits => by rw [Step.answer, houtcome, if_neg hfits]⟩

theorem settles_of_value {step : Step} {v : Value} (h : step.value? = some v)
    (capacity : Option Nat) (before : List UInt8) :
    (step.answer ((Sink.empty capacity).write before)).Settles capacity before step := by
  obtain ⟨hok, hwrite⟩ := outcome_answer_of_value h capacity before
  have hsame : ∀ w, step.value? = some w → w = v := fun w hw => Option.some.inj (hw.symm.trans h)
  by_cases hholds : Sink.Holds capacity (before ++ v.line)
  · have ho := hok hholds
    constructor
    · intro w hw
      rw [hsame w hw]
      exact ⟨fun _ => hholds, hok⟩
    · intro w hw hnot
      exact absurd (hsame w hw ▸ hholds) hnot
    · intro hnone
      cases h.symm.trans hnone
    · intro failure _ hf
      cases ho.symm.trans hf
    · intro w hw
      obtain rfl : v = w := Except.ok.inj (ho.symm.trans hw)
      have hfresh : ∀ fresh, Sink.Holds fresh v.line → (step.run (.empty fresh)).outcome = .ok v :=
        fun fresh hf => by
          rw [(step.run_of_value h _).1, if_pos (Sink.fits_empty_iff.mpr hf)]
      exact ⟨hfresh capacity hholds.of_append_right, hfresh none nofun⟩
  · have ho := hwrite hholds
    constructor
    · intro w hw
      rw [hsame w hw, ho]
      exact ⟨nofun, fun hh => absurd hh hholds⟩
    · intro w hw _
      exact ho
    · intro hnone
      cases h.symm.trans hnone
    · intro failure hne hf
      exact absurd (Except.error.inj (hf.symm.trans ho)) hne
    · intro w hw
      cases ho.symm.trans hw

theorem settles_of_none {step : Step} (h : step.value? = none) (capacity : Option Nat)
    (before : List UInt8) :
    (step.answer ((Sink.empty capacity).write before)).Settles capacity before step := by
  obtain ⟨failure, hne, hrun⟩ := step.run_of_none h
  obtain ⟨ho, hsink⟩ := hrun ((Sink.empty capacity).write before)
  constructor
  · intro v hv
    cases hv.symm.trans h
  · intro v hv
    cases hv.symm.trans h
  · intro _
    exact ⟨failure, hne, ho⟩
  · intro f _ hf
    obtain rfl : failure = f := Except.error.inj (ho.symm.trans hf)
    refine ⟨?_, fun fresh => (hrun _).1⟩
    rw [Step.answer, hsink]
    exact List.drop_length
  · intro v hv
    cases ho.symm.trans hv

theorem settles (step : Step) (capacity : Option Nat) (before : List UInt8) :
    (step.answer ((Sink.empty capacity).write before)).Settles capacity before step := by
  cases h : step.value? with
  | some v => exact settles_of_value h capacity before
  | none => exact settles_of_none h capacity before

/-- There is room for what was put out before a step and for its line only if there was room
for what was put out up to each step before it. -/
theorem Sink.Holds.earlier {capacity : Option Nat} {steps : List Step} {i j : Nat} {step : Step}
    {line : List UInt8} (hi : steps[i]? = some step) (hij : i < j)
    (h : Holds capacity ((steps.take j).flatMap Step.output ++ line)) :
    Holds capacity ((steps.take i).flatMap Step.output ++ step.output) := by
  obtain ⟨k, rfl⟩ : ∃ k, j = i + 1 + k := ⟨j - (i + 1), by omega⟩
  have htake : (steps.take (i + 1)).flatMap Step.output =
      (steps.take i).flatMap Step.output ++ step.output := by
    rw [List.take_add_one, hi, List.flatMap_append]
    simp
  rw [List.take_add, List.flatMap_append, htake, List.append_assoc] at h
  exact h.of_append

/-- What a session on one bounded sink puts out and answers: the sink keeps the beginning of
all outputs, every step is answered as it is due, and once a line did not fit no later one
does. -/
theorem session_settles (capacity : Option Nat) (steps : List Step) :
    (∀ k, (session (.empty capacity) (steps.take k)).2.written =
      Sink.kept capacity ((steps.take k).flatMap Step.output)) ∧
    (session (.empty capacity) steps).1.length = steps.length ∧
    (∀ (i : Nat) (step : Step) (answer : Answer), steps[i]? = some step →
      (session (.empty capacity) steps).1[i]? = some answer →
      answer.Settles capacity ((steps.take i).flatMap Step.output) step) ∧
    ∀ (i j : Nat) (failed later : Answer) (step : Step) (v : Value), i < j →
      (session (.empty capacity) steps).1[i]? = some failed → failed.outcome = .error .write →
      (session (.empty capacity) steps).1[j]? = some later → steps[j]? = some step →
      step.value? = some v → later.outcome = .error .write := by
  have hsettles : ∀ (i : Nat) (step : Step) (answer : Answer), steps[i]? = some step →
      (session (.empty capacity) steps).1[i]? = some answer →
      answer.Settles capacity ((steps.take i).flatMap Step.output) step := by
    intro i step answer hstep hanswer
    rw [answer_session _ hstep] at hanswer
    exact Option.some.inj hanswer ▸ settles step capacity _
  refine ⟨fun k => ?_, length_session _ steps, hsettles, ?_⟩
  · rw [session_sink, Sink.written_write_empty]
  · intro i j failed later step v hij hfailed hwrite hlater hstep hv
    have hlt : i < steps.length := by
      rw [← length_session (.empty capacity) steps]
      exact (List.getElem?_eq_some_iff.mp hfailed).1
    have hearlier := hsettles i steps[i] failed (List.getElem?_eq_getElem hlt) hfailed
    refine (hsettles j step later hstep hlater).write v hv fun hholds => ?_
    have hroom := hholds.earlier (List.getElem?_eq_getElem hlt) hij
    -- the step that failed to write has a value, for which there was room
    cases hu : steps[i].value? with
    | none =>
      obtain ⟨failure, hne, hf⟩ := hearlier.failed hu
      exact hne (Except.error.inj (hf.symm.trans hwrite))
    | some u =>
      rw [Step.output_of_value hu] at hroom
      cases ((hearlier.ok u hu).mpr hroom).symm.trans hwrite

end Lox
