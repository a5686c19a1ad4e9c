import Lox.Proofs.LongestMatch
import Lox.Proofs.Slice
import Mathlib.Logic.Relation

/-! Scanning with two byte offsets, one where the token at hand starts and one for the cursor. All
that is seen of the text is slices of it, and a slice that is out of range or cuts through a
character is a crash. A state `Stands` for a cut of the text where its offsets are the sizes of
what is done with and of what has been read behind it; there the slices are found, the rest of
the text from the cursor on (`Stands.look`), the text of the token (`Stands.lexeme`) and what
stands between its quotes (`Stands.contents`). -/

namespace Lox

/-- The decimal that a text of digits writes, with at most one point before, among or behind
them. -/
def Decimal.read? (text : List Char) : Option Decimal :=
  let whole := text.takeWhile Char.isDigit
  match text.dropWhile Char.isDigit with
  | [] => if whole = [] then none else some (ofNumeral whole [])
  | point :: fraction =>
    if point = '.' ∧ fraction.all Char.isDigit ∧ whole ++ fraction ≠ [] then
      some (ofNumeral whole fraction)
    else none

namespace ByteScanner
open Segment

/-- Where a scanner is: at the head of its loop, before the first character of a token, or at what
may go on for long. -/
inductive Phase where
  | loop
  | token
  | comment
  | string
  | whole
  | fraction
  | word
  deriving DecidableEq

structure State where
  phase : Phase
  start : Nat
  current : Nat
  line : Nat
  tokens : List Token
  problems : List Problem

def start : State :=
  ⟨.loop, 0, 0, 1, [], []⟩

inductive Move where
  | next (state : State)
  | stop (result : Scan)
  | crash

namespace State

/-- The cursor is moved over a character. -/
def pass (c : Char) (s : State) : State :=
  { s with current := s.current + c.utf8Size }

def report (p : Problem) (s : State) : State :=
  { s with phase := .loop, problems := s.problems ++ [p] }

end State

/-- The text from the cursor on. -/
def look (input : List Char) (s : State) (f : List Char → Move) : Move :=
  match dropBytes s.current input with
  | some rest => f rest
  | none => .crash

def slice (input : List Char) (start stop : Nat) (f : List Char → Move) : Move :=
  match slice? input start stop with
  | some text => f text
  | none => .crash

def lexeme (input : List Char) (s : State) (f : List Char → Move) : Move :=
  slice input s.start s.current f

/-- What stands between two quotes, of one byte each. -/
def contents (input : List Char) (s : State) (f : List Char → Move) : Move :=
  match s.current with
  | 0 => .crash
  | stop + 1 => slice input (s.start + 1) stop f

def addToken (input : List Char) (kind : TokenKind) (literal : Option Literal) (s : State) : Move :=
  lexeme input s fun text => .next
    { s with phase := .loop, tokens := s.tokens ++ [⟨kind, String.ofList text, literal, s.line⟩] }

/-- Passes a character if it is the expected one, and tells whether it was. -/
def nextIf (input : List Char) (expected : Char) (s : State) (f : Bool → State → Move) : Move :=
  look input s fun rest =>
    if rest.head? = some expected then f true (s.pass expected) else f false s

/-- After the first character of a symbol. -/
def readSymbol (input : List Char) (base : Symbol) (s : State) : Move :=
  match base.withEqual? with
  | some longer => nextIf input '=' s fun matched s =>
    addToken input (.symbol (if matched then longer else base)) none s
  | none =>
    if base = .slash then nextIf input '/' s fun matched s =>
      if matched then .next { s with phase := .comment } else addToken input (.symbol base) none s
    else addToken input (.symbol base) none s

/-- After the first character of a token. -/
def dispatch (input : List Char) (c : Char) (s : State) : Move :=
  match Symbol.ofChar? c with
  | some base => readSymbol input base s
  | none =>
    if c = ' ' ∨ c = '\r' ∨ c = '\t' then .next { s with phase := .loop }
    else if c = '\n' then .next { s with phase := .loop, line := s.line + 1 }
    else if c = '"' then .next { s with phase := .string }
    else if c.isDigit then .next { s with phase := .whole }
    else if isWordStart c then .next { s with phase := .word }
    else .next (s.report (.unexpectedCharacter s.line c))

/-- Passes the character at the cursor, should there be one. -/
def advance (input : List Char) (s : State) (f : Option Char → State → Move) : Move :=
  look input s fun rest =>
    match rest with
    | [] => f none s
    | c :: _ => f (some c) (s.pass c)

def readToken (input : List Char) (s : State) : Move :=
  advance input s fun first s =>
    match first with
    | none => .next { s with phase := .loop }
    | some c => dispatch input c s

/-- Passes the character at the cursor if it is of a class, and else is done. -/
def skip (input : List Char) (p : Char → Bool) (s : State) (done : Move) : Move :=
  look input s fun rest =>
    match rest with
    | [] => done
    | c :: _ => if p c then .next (s.pass c) else done

/-- Before the closing quote, or at the end of the text. -/
def closeString (input : List Char) (s : State) : Move :=
  if byteSize input ≤ s.current then .next (s.report (.unterminatedString s.line))
  else advance input s fun _ s =>
    contents input s fun body => addToken input .string (some (.string (String.ofList body))) s

def readString (input : List Char) (s : State) : Move :=
  look input s fun rest =>
    match rest with
    | [] => closeString input s
    | c :: _ =>
      if c = '"' then closeString input s
      else .next { s.pass c with line := if c = '\n' then s.line + 1 else s.line }

def endNumber (input : List Char) (s : State) : Move :=
  lexeme input s fun text =>
    match Decimal.read? text with
    | some d => addToken input .number (some (.number d.toFloat)) s
    | none => .next (s.report (.unreadableNumber s.line (String.ofList text)))

/-- Behind the digits of a whole part. A point is passed if a digit follows. -/
def endWhole (input : List Char) (s : State) : Move :=
  look input s fun rest =>
    match rest with
    | '.' :: c :: _ =>
      if c.isDigit then .next { s.pass '.' with phase := .fraction } else endNumber input s
    | _ => endNumber input s

def endWord (input : List Char) (s : State) : Move :=
  lexeme input s fun text =>
    let kind := match Keyword.ofText? (String.ofList text) with
      | some k => .keyword k
      | none => .identifier
    addToken input kind none s

def step (input : List Char) (s : State) : Move :=
  match s.phase with
  | .loop =>
    if byteSize input ≤ s.current then .stop ⟨s.tokens ++ [.eof s.line], s.problems⟩
    else .next { s with phase := .token, start := s.current }
  | .token => readToken input s
  | .comment => skip input (· != '\n') s (.next { s with phase := .loop })
  | .string => readString input s
  | .whole => skip input Char.isDigit s (endWhole input s)
  | .fraction => skip input Char.isDigit s (endNumber input s)
  | .word => skip input isWordChar s (endWord input s)

/-- One step of the scanner. -/
def Moves (input : List Char) (s s' : State) : Prop :=
  step input s = .next s'

def Reaches (input : List Char) : State → State → Prop :=
  Relation.ReflTransGen (Moves input)

/-! ## What a state stands for -/

/-- The text is cut by the two offsets: into what is done with, what has been read behind it, and
the rest. -/
structure Stands (input : List Char) (s : State) (front read rest : List Char) : Prop where
  text : input = front ++ read ++ rest
  start : s.start = byteSize front
  current : s.current = byteSize (front ++ read)
  line : s.line = lineAfter (front ++ read)

section

variable {input front read rest : List Char} {s : State}

theorem lt_current_pass (c : Char) (s : State) : s.current < (s.pass c).current :=
  Nat.lt_add_of_pos_right c.utf8Size_pos

theorem byteSize_quote : byteSize ['"'] = 1 := by decide

/-- A quote has one byte, so what stands behind it is a slice. -/
theorem slice?_behind_quote (front body after : List Char) :
    slice? (front ++ '"' :: (body ++ after)) (byteSize front + 1)
      (byteSize (front ++ '"' :: body)) = some body := by
  have hquote : byteSize (front ++ ['"']) = byteSize front + 1 := by
    rw [byteSize_append, byteSize_quote]
  exact slice?_eq_some_iff.mpr ⟨front ++ ['"'], after, by simp, hquote, by simp⟩

namespace Stands

theorem look (h : Stands input s front read rest) (f : List Char → Move) :
    look input s f = f rest := by
  have hdrop : dropBytes s.current input = some rest :=
    dropBytes_eq_some_iff.mpr ⟨front ++ read, h.text, h.current.symm⟩
  rw [ByteScanner.look, hdrop]

theorem lexeme (h : Stands input s front read rest) (f : List Char → Move) :
    lexeme input s f = f read := by
  have hslice : slice? input s.start s.current = some read :=
    slice?_eq_some_iff.mpr ⟨front, rest, h.text, h.start.symm, h.current.symm⟩
  rw [ByteScanner.lexeme, slice, hslice]

theorem contents {body : List Char} (h : Stands input s front ('"' :: (body ++ ['"'])) rest)
    (f : List Char → Move) : contents input s f = f body := by
  have htext : input = front ++ '"' :: (body ++ '"' :: rest) := by simp [h.text]
  have hread : front ++ '"' :: (body ++ ['"']) = (front ++ '"' :: body) ++ ['"'] := by simp
  have hcurrent : s.current = byteSize (front ++ '"' :: body) + 1 := by
    rw [h.current, hread, byteSize_append, byteSize_quote]
  rw [ByteScanner.contents, hcurrent]
  simp only [slice, h.start, htext, slice?_behind_quote]

theorem byteSize_eq (h : Stands input s front read rest) :
    byteSize input = s.current + byteSize rest := by
  rw [h.text, h.current, byteSize_append (front ++ read)]

theorem byteSize_le_iff (h : Stands input s front read rest) :
    byteSize input ≤ s.current ↔ rest = [] := by
  rw [h.byteSize_eq]
  constructor
  · intro hle
    cases rest with
    | nil => rfl
    | cons c rest =>
      have hpos := byteSize_pos (List.cons_ne_nil c rest)
      omega
  · rintro rfl
    exact Nat.le_refl _

theorem line_le (h : Stands input s front read rest) : s.line ≤ s.current + 1 := by
  have hcount : (front ++ read).count '\n' ≤ byteSize (front ++ read) :=
    Nat.le_trans List.count_le_length (length_le_byteSize _)
  rw [h.line, h.current, lineAfter]
  omega

end Stands

end

end ByteScanner
end Lox
