import Lox.Proofs.LongestMatch

/-! Scans behind other texts. The lines of a scan are counted from where its text begins, so
segments yield behind a text what they yield by themselves, shifted by the line feeds of that
text (`tokensAfter_append`, `problemsAfter_append`). Where a text is split into some segments
and then those of another text, its scan ends with the shifted scan of the other
(`scan_of_split`). -/

namespace Lox

/-- The token as many lines further down. -/
def Token.shift (lines : Nat) (t : Token) : Token :=
  { t with line := t.line + lines }

def Problem.shift (lines : Nat) : Problem → Problem
  | unexpectedCharacter n c => unexpectedCharacter (n + lines) c
  | unterminatedString n => unterminatedString (n + lines)
  | unreadableNumber n text => unreadableNumber (n + lines) text
  | expected what found => expected what (found.shift lines)

def Diagnostic.shift (lines : Nat) (d : Diagnostic) : Diagnostic :=
  { d with line := d.line + lines }

theorem Problem.diagnostic_shift (lines : Nat) (p : Problem) :
    (p.shift lines).diagnostic = p.diagnostic.shift lines := by
  cases p with
  | expected what found => cases what <;> rfl
  | unexpectedCharacter | unterminatedString | unreadableNumber => rfl

theorem Problem.map_diagnostic_shift (lines : Nat) (ps : List Problem) :
    (ps.map (Problem.shift lines)).map (·.diagnostic) =
      (ps.map (·.diagnostic)).map (Diagnostic.shift lines) := by
  rw [List.map_map, List.map_map]
  exact List.map_congr_left fun p _ => p.diagnostic_shift lines

namespace Segment

theorem token?_add (s : Segment) (line lines : Nat) :
    s.token? (line + lines) = (s.token? line).map (Token.shift lines) := by
  rw [token?, token?, Option.map_map]
  rfl

theorem problem?_add (s : Segment) (line lines : Nat) :
    s.problem? (line + lines) = (s.problem? line).map (Problem.shift lines) := by
  cases s <;> rfl

theorem lineAfter_add (before middle : List Char) :
    lineAfter (before ++ middle) = lineAfter middle + before.count '\n' := by
  rw [lineAfter, lineAfter, List.count_append]
  omega

/-! ## Behind another text -/

theorem tokensAfter_append (before middle : List Char) (segments : List Segment) :
    tokensAfter (before ++ middle) segments =
      (tokensAfter middle segments).map (Token.shift (before.count '\n')) := by
  induction segments generalizing middle with
  | nil =>
    simp only [tokensAfter, stamp, List.filterMap_nil, List.nil_append, List.flatMap_nil,
      List.append_nil, List.map_singleton, lineAfter_add]
    rfl
  | cons s rest ih =>
    rw [tokensAfter_cons, tokensAfter_cons, List.map_append, List.append_assoc, ih, lineAfter_add,
      token?_add]
    cases s.token? (lineAfter (middle ++ s.text)) <;> rfl

theorem problemsAfter_append (before middle : List Char) (segments : List Segment) :
    problemsAfter (before ++ middle) segments =
      (problemsAfter middle segments).map (Problem.shift (before.count '\n')) := by
  induction segments generalizing middle with
  | nil => rfl
  | cons s rest ih =>
    rw [problemsAfter_cons, problemsAfter_cons, List.map_append, List.append_assoc, ih,
      lineAfter_add, problem?_add]
    cases s.problem? (lineAfter (middle ++ s.text)) <;> rfl

/-! ## More segments -/

/-- The tokens of segments that stand behind the text `before`, without an end marker. -/
def tokensIn (before : List Char) : List Segment → List Token
  | [] => []
  | s :: rest =>
    (s.token? (lineAfter (before ++ s.text))).toList ++ tokensIn (before ++ s.text) rest

theorem tokensAfter_segments (before : List Char) (front rest : List Segment) :
    tokensAfter before (front ++ rest) =
      tokensIn before front ++ tokensAfter (before ++ front.flatMap text) rest := by
  induction front generalizing before with
  | nil => simp [tokensIn]
  | cons s front ih =>
    rw [List.cons_append, tokensAfter_cons, ih, tokensIn, List.flatMap_cons]
    simp only [List.append_assoc]

theorem problemsAfter_segments (before : List Char) (front rest : List Segment) :
    problemsAfter before (front ++ rest) =
      problemsAfter before front ++ problemsAfter (before ++ front.flatMap text) rest := by
  induction front generalizing before with
  | nil => simp [problemsAfter, stamp]
  | cons s front ih =>
    rw [List.cons_append, problemsAfter_cons, ih, problemsAfter_cons, List.flatMap_cons]
    simp only [List.append_assoc]

theorem tokensIn_append (before : List Char) (front rest : List Segment) :
    tokensIn before (front ++ rest) =
      tokensIn before front ++ tokensIn (before ++ front.flatMap text) rest := by
  induction front generalizing before with
  | nil => simp [tokensIn]
  | cons s front ih =>
    rw [List.cons_append, tokensIn, ih, tokensIn, List.flatMap_cons]
    simp only [List.append_assoc]

/-- The segment gives a scan nothing. -/
structure Silent (s : Segment) : Prop where
  token : s.kind? = none
  problem : ∀ line, s.problem? line = none

theorem silent_blank (c : Char) : (blank c).Silent := ⟨rfl, fun _ => rfl⟩

theorem silent_comment (body : List Char) : (comment body).Silent := ⟨rfl, fun _ => rfl⟩

theorem tokensIn_of_silent {segments : List Segment} (h : ∀ s ∈ segments, s.Silent)
    (before : List Char) : tokensIn before segments = [] := by
  induction segments generalizing before with
  | nil => rfl
  | cons s rest ih =>
    obtain ⟨hs, hrest⟩ := List.forall_mem_cons.mp h
    rw [tokensIn, token?, hs.token, ih hrest]
    rfl

theorem problemsAfter_eq_nil {segments : List Segment}
    (h : ∀ s ∈ segments, ∀ line, s.problem? line = none) (before : List Char) :
    problemsAfter before segments = [] := by
  induction segments generalizing before with
  | nil => rfl
  | cons s rest ih =>
    rw [problemsAfter_cons, h s List.mem_cons_self,
      ih fun t ht => h t (List.mem_cons_of_mem s ht)]
    rfl

end Segment

open Segment

theorem tokens_scan (s : String) :
    (scan s).tokens = tokensIn [] (split s.toList) ++ [.eof (lineAfter s.toList)] := by
  have h := tokensAfter_segments [] (split s.toList) []
  rw [List.append_nil] at h
  rw [scan_eq_after, h]
  simp [tokensAfter, stamp, flatMap_text_split]

/-- What a text is scanned to when its segments are some and then those of another text. -/
theorem scan_of_split {source rest : String} {front : List Segment}
    (h : split source.toList = front ++ split rest.toList) :
    (scan source).tokens = tokensIn [] front ++
        (scan rest).tokens.map (Token.shift ((front.flatMap text).count '\n')) ∧
      (scan source).problems = problemsAfter [] front ++
        (scan rest).problems.map (Problem.shift ((front.flatMap text).count '\n')) := by
  have htokens := tokensAfter_append (front.flatMap text) [] (split rest.toList)
  have hproblems := problemsAfter_append (front.flatMap text) [] (split rest.toList)
  rw [List.append_nil] at htokens hproblems
  simp only [scan_eq_after, h, tokensAfter_segments, problemsAfter_segments, List.nil_append,
    htokens, hproblems, and_self]

end Lox
