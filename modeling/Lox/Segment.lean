import Lox.Diagnostic
import Lox.Number.Decimal

/-! A text is cut into segments, each of them as long as it can be: blanks,
comments, strings, numbers, words, symbols and characters that begin none of
these. `Segment.first` cuts the first segment off; nothing is lost
(`Segment.text_first`), so `Segment.split` ends and its texts join to the input
(`Segment.flatMap_text_split`). -/

namespace Lox

def isBlank (c : Char) : Bool :=
  c == ' ' || c == '\r' || c == '\t' || c == '\n'

/-- Words are ASCII. -/
def isWordStart (c : Char) : Bool :=
  c.isAlpha || c == '_'

def isWordChar (c : Char) : Bool :=
  c.isAlphanum || c == '_'

/-- A string and a comment are given by what stands inside them; `openString` runs
to the end of the text. A number without a fraction has `fraction = []`. -/
inductive Segment where
  | blank (char : Char)
  | comment (body : List Char)
  | string (body : List Char)
  | openString (body : List Char)
  | number (whole fraction : List Char)
  | word (chars : List Char)
  | symbol (symbol : Symbol)
  | unexpected (char : Char)
  deriving DecidableEq, Repr

namespace Segment

def text : Segment → List Char
  | blank c | unexpected c => [c]
  | comment body => '/' :: '/' :: body
  | string body => '"' :: (body ++ ['"'])
  | openString body => '"' :: body
  | number whole [] => whole
  | number whole fraction => whole ++ '.' :: fraction
  | word chars => chars
  | symbol s => s.chars

/-- After an opening quote. -/
def firstString (rest : List Char) : Segment × List Char :=
  match rest.dropWhile (· != '"') with
  | [] => (openString rest, [])
  | _ :: after => (string (rest.takeWhile (· != '"')), after)

/-- After two slashes; the line feed is left. -/
def firstComment (rest : List Char) : Segment × List Char :=
  (comment (rest.takeWhile (· != '\n')), rest.dropWhile (· != '\n'))

/-- After the whole part of a number. A point without a digit behind it is left. -/
def firstFraction (whole : List Char) : List Char → Segment × List Char
  | '.' :: c :: rest =>
    if c.isDigit then (number whole (c :: rest.takeWhile Char.isDigit), rest.dropWhile Char.isDigit)
    else (number whole [], '.' :: c :: rest)
  | rest => (number whole [], rest)

/-- After the first character of a symbol. -/
def firstSymbol (s : Symbol) (rest : List Char) : Segment × List Char :=
  match s.withEqual?, rest with
  | some longer, '=' :: after => (symbol longer, after)
  | _, _ => (symbol s, rest)

/-- The first segment of a text, given by its first character and what follows,
with the rest of the text. -/
def first (c : Char) (rest : List Char) : Segment × List Char :=
  if isBlank c then (blank c, rest)
  else if c = '"' then firstString rest
  else if c.isDigit then
    firstFraction (c :: rest.takeWhile Char.isDigit) (rest.dropWhile Char.isDigit)
  else if isWordStart c then (word (c :: rest.takeWhile isWordChar), rest.dropWhile isWordChar)
  else if c = '/' ∧ rest.head? = some '/' then firstComment rest.tail
  else match Symbol.ofChar? c with
    | some s => firstSymbol s rest
    | none => (unexpected c, rest)

theorem text_firstString (rest : List Char) :
    (firstString rest).1.text ++ (firstString rest).2 = '"' :: rest := by
  have h := List.takeWhile_append_dropWhile (p := (· != '"')) (l := rest)
  unfold firstString
  split
  · simp [text]
  · rename_i c after hd
    have hc : c = '"' := by
      have := List.head?_dropWhile_not (· != '"') rest
      simpa [hd] using this
    rw [hd, hc] at h
    simp [text, h]

theorem text_firstComment (rest : List Char) :
    (firstComment rest).1.text ++ (firstComment rest).2 = '/' :: '/' :: rest := by
  simp [firstComment, text]

theorem text_firstFraction (whole rest : List Char) :
    (firstFraction whole rest).1.text ++ (firstFraction whole rest).2 = whole ++ rest := by
  unfold firstFraction
  split
  · split <;> simp [text]
  · simp [text]

theorem text_firstSymbol {c : Char} {s : Symbol} (rest : List Char)
    (h : Symbol.ofChar? c = some s) :
    (firstSymbol s rest).1.text ++ (firstSymbol s rest).2 = c :: rest := by
  have hs := Symbol.chars_ofChar? h
  unfold firstSymbol
  split
  · rename_i hl
    simp [text, Symbol.chars_withEqual? hl, hs]
  · simp [text, hs]

/-- Nothing is lost between the first segment and the rest. -/
theorem text_first (c : Char) (rest : List Char) :
    (first c rest).1.text ++ (first c rest).2 = c :: rest := by
  unfold first
  split
  · rfl
  split
  · rename_i h
    rw [h, text_firstString]
  split
  · rw [text_firstFraction]
    simp
  split
  · simp [text]
  split
  · rename_i h
    obtain ⟨hc, hr⟩ := h
    obtain ⟨tail, rfl⟩ : ∃ tail, rest = '/' :: tail := by
      cases rest with
      | nil => simp at hr
      | cons d tail => exact ⟨tail, by simpa using hr⟩
    rw [hc, List.tail_cons, text_firstComment]
  split
  · rename_i h
    exact text_firstSymbol rest h
  · rfl

theorem first_text_ne_nil (c : Char) (rest : List Char) : (first c rest).1.text ≠ [] := by
  simp only [first, firstString, firstComment, firstFraction, firstSymbol]
  repeat' split
  all_goals simp [text, Symbol.chars_ne_nil]

theorem length_first_lt (c : Char) (rest : List Char) :
    (first c rest).2.length < (c :: rest).length := by
  have h := congrArg List.length (text_first c rest)
  have := List.length_pos_iff.mpr (first_text_ne_nil c rest)
  rw [List.length_append] at h
  omega

/-- The segments of a text, in order. -/
def split : List Char → List Segment
  | [] => []
  | c :: rest => (first c rest).1 :: split (first c rest).2
termination_by text => text.length
decreasing_by exact length_first_lt c rest

theorem split_nil : split [] = [] := by
  rw [split]

theorem split_cons (c : Char) (rest : List Char) :
    split (c :: rest) = (first c rest).1 :: split (first c rest).2 := by
  rw [split]

/-- Nothing is lost or read twice. -/
theorem flatMap_text_split (source : List Char) : (split source).flatMap text = source := by
  fun_induction split source with
  | case1 => rfl
  | case2 c rest ih => rw [List.flatMap_cons, ih, text_first]

def lineFeeds (s : Segment) : Nat :=
  s.text.count '\n'

/-- The token that a segment is, but for its line. -/
def kind? : Segment → Option TokenKind
  | string _ => some .string
  | number _ _ => some .number
  | word chars =>
    some <| match Keyword.ofText? (String.ofList chars) with
      | some k => .keyword k
      | none => .identifier
  | symbol s => some (.symbol s)
  | _ => none

def literal? : Segment → Option Literal
  | string body => some (.string (String.ofList body))
  | number whole fraction => some (.number (Decimal.ofNumeral whole fraction).toFloat)
  | _ => none

def token? (line : Nat) (s : Segment) : Option Token :=
  s.kind?.map fun kind => ⟨kind, String.ofList s.text, s.literal?, line⟩

def problem? (line : Nat) : Segment → Option Problem
  | openString _ => some (.unterminatedString line)
  | unexpected c => some (.unexpectedCharacter line c)
  | _ => none

end Segment

end Lox
