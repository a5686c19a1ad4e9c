/-! The kinds of token. A symbol or a keyword has one fixed text; identifiers,
strings and numbers spell themselves; one more kind marks the end of the text.
`TokenKind.requiresSeparator` says which two kinds run together when their texts
stand side by side: two words, a symbol that an equals sign extends, two slashes. -/

namespace Lox

inductive Symbol where
  | leftParen | rightParen | leftBrace | rightBrace
  | comma | dot | minus | plus | semicolon | slash | star
  | bang | bangEqual | equal | equalEqual
  | greater | greaterEqual | less | lessEqual
  deriving DecidableEq, Repr

inductive Keyword where
  | and | «class» | «else» | false | «fun» | «for» | «if» | nil
  | or | print | «return» | super | this | true | var | «while»
  deriving DecidableEq, Repr

inductive TokenKind where
  | symbol (symbol : Symbol)
  | identifier
  | string
  | number
  | keyword (keyword : Keyword)
  | eof
  deriving DecidableEq, Repr

namespace Symbol

def all : List Symbol :=
  [leftParen, rightParen, leftBrace, rightBrace, comma, dot, minus, plus, semicolon, slash,
    star, bang, bangEqual, equal, equalEqual, greater, greaterEqual, less, lessEqual]

theorem mem_all (s : Symbol) : s ∈ all := by cases s <;> decide

/-- The characters of a symbol, one or two. -/
def chars : Symbol → List Char
  | leftParen => ['(']
  | rightParen => [')']
  | leftBrace => ['\x7b']
  | rightBrace => ['\x7d']
  | comma => [',']
  | dot => ['.']
  | minus => ['-']
  | plus => ['+']
  | semicolon => [';']
  | slash => ['/']
  | star => ['*']
  | bang => ['!']
  | bangEqual => ['!', '=']
  | equal => ['=']
  | equalEqual => ['=', '=']
  | greater => ['>']
  | greaterEqual => ['>', '=']
  | less => ['<']
  | lessEqual => ['<', '=']

theorem chars_injective {s t : Symbol} (h : s.chars = t.chars) : s = t := by
  revert h
  cases s <;> cases t <;> decide

theorem chars_ne_nil (s : Symbol) : s.chars ≠ [] := by
  cases s <;> exact List.cons_ne_nil _ _

/-- The symbol that one character spells. -/
def ofChar? : Char → Option Symbol
  | '(' => some leftParen
  | ')' => some rightParen
  | '\x7b' => some leftBrace
  | '\x7d' => some rightBrace
  | ',' => some comma
  | '.' => some dot
  | '-' => some minus
  | '+' => some plus
  | ';' => some semicolon
  | '/' => some slash
  | '*' => some star
  | '!' => some bang
  | '=' => some equal
  | '>' => some greater
  | '<' => some less
  | _ => none

/-- The symbol that an equals sign makes of this one. -/
def withEqual? : Symbol → Option Symbol
  | bang => some bangEqual
  | equal => some equalEqual
  | greater => some greaterEqual
  | less => some lessEqual
  | _ => none

theorem chars_ofChar? {c : Char} {s : Symbol} (h : ofChar? c = some s) : s.chars = [c] := by
  unfold ofChar? at h
  split at h <;> cases h <;> rfl

theorem chars_withEqual? {s t : Symbol} (h : s.withEqual? = some t) :
    t.chars = s.chars ++ ['='] := by
  cases s <;> cases h <;> rfl

/-- The name under which the kind is shown. -/
def name : Symbol → String
  | leftParen => "LRoundParen"
  | rightParen => "RRoundParen"
  | leftBrace => "LPointParen"
  | rightBrace => "RPointParen"
  | comma => "Comma"
  | dot => "Dot"
  | minus => "Minus"
  | plus => "Plus"
  | semicolon => "Semicolon"
  | slash => "Slash"
  | star => "Star"
  | bang => "Bang"
  | bangEqual => "BangEqual"
  | equal => "Equal"
  | equalEqual => "EqualEqual"
  | greater => "Greater"
  | greaterEqual => "GreaterEqual"
  | less => "Less"
  | lessEqual => "LessEqual"

end Symbol

namespace Keyword

def all : List Keyword :=
  [and, «class», «else», false, «fun», «for», «if», nil, or, print, «return», super, this, true,
    var, «while»]

theorem mem_all (k : Keyword) : k ∈ all := by cases k <;> decide

def text : Keyword → String
  | and => "and"
  | «class» => "class"
  | «else» => "else"
  | false => "false"
  | «fun» => "fun"
  | «for» => "for"
  | «if» => "if"
  | nil => "nil"
  | or => "or"
  | print => "print"
  | «return» => "return"
  | super => "super"
  | this => "this"
  | true => "true"
  | var => "var"
  | «while» => "while"

/-- The words that are not free to be identifiers. -/
def reserved : List (String × Keyword) :=
  [("and", and), ("class", «class»), ("else", «else»), ("false", false), ("for", «for»),
    ("fun", «fun»), ("if", «if»), ("nil", nil), ("or", or), ("print", print),
    ("return", «return»), ("super", super), ("this", this), ("true", true), ("var", var),
    ("while", «while»)]

/-- The keyword that a word is reserved for. -/
def ofText? (word : String) : Option Keyword :=
  reserved.lookup word

/-- Each word is reserved for the keyword whose text it is. -/
theorem text_of_mem_reserved : ∀ entry ∈ reserved, entry.2.text = entry.1 := by
  decide

theorem text_of_ofText? {word : String} {k : Keyword} (h : ofText? word = some k) :
    k.text = word := by
  obtain ⟨front, back, hreserved, -⟩ := List.lookup_eq_some_iff.mp h
  exact text_of_mem_reserved (word, k) (by simp [hreserved])

theorem ofText?_text (k : Keyword) : ofText? k.text = some k := by
  cases k <;> decide

/-- The reserved words are the texts of the keywords. -/
theorem ofText?_eq_some_iff {word : String} {k : Keyword} :
    ofText? word = some k ↔ k.text = word :=
  ⟨text_of_ofText?, fun h => h ▸ ofText?_text k⟩

def name (k : Keyword) : String :=
  k.text.capitalize

end Keyword

namespace TokenKind

/-- Every kind once: symbols, self-spelling kinds, keywords, the end. -/
def all : List TokenKind :=
  Symbol.all.map symbol ++ [identifier, string, number] ++ Keyword.all.map keyword ++ [eof]

theorem mem_all (kind : TokenKind) : kind ∈ all := by
  cases kind <;> simp [all, Symbol.mem_all, Keyword.mem_all]

def name : TokenKind → String
  | symbol s => s.name
  | identifier => "Identifier"
  | string => "String"
  | number => "Number"
  | keyword k => k.name
  | eof => "Eof"

def ofName? (name : String) : Option TokenKind :=
  all.find? (·.name == name)

/-- The text that every token of the kind has, where there is one. -/
def fixedText : TokenKind → Option String
  | symbol s => some (String.ofList s.chars)
  | keyword k => some k.text
  | _ => none

def isKeyword : TokenKind → Bool
  | keyword _ => true
  | _ => false

/-- Keywords and identifiers are words. -/
def isWord : TokenKind → Bool
  | keyword _ | identifier => true
  | _ => false

def takesEqual : TokenKind → Bool
  | symbol .bang | symbol .equal | symbol .less | symbol .greater => true
  | _ => false

/-- A following equals sign becomes part of just these symbols. -/
theorem takesEqual_symbol (s : Symbol) : (symbol s).takesEqual = s.withEqual?.isSome := by
  cases s <;> rfl

def startsWithEqual : TokenKind → Bool
  | symbol .equal | symbol .equalEqual => true
  | _ => false

/-- Whether the texts of two tokens merge, or begin a comment, when nothing
stands between them. Numbers and strings never ask for a separator. -/
def requiresSeparator (left right : TokenKind) : Bool :=
  (left.isWord && right.isWord) || (left.takesEqual && right.startsWithEqual)
    || (left == symbol .slash && right == symbol .slash)

end TokenKind

end Lox
