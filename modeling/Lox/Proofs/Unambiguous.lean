import Lox.Proofs.Equality
import Lox.Proofs.NumberText
import Lox.Proofs.Written

/-! The display of a tree without strings says which tree it is. Leaves have neither blanks
nor parentheses in their texts, and an inner node begins with the word behind its parenthesis,
so what is shown of a tree has its end in sight wherever it stands: in a longer text it
determines both the tree, up to the lines of its operators, and the rest
(`Expr.Scanned.display_append_inj`). -/

namespace Lox

/-- No leaf of the tree is a string. -/
def Expr.StringFree : Expr → Prop
  | literal v => ∀ s, v ≠ .string s
  | group e => e.StringFree
  | unary _ e => e.StringFree
  | binary left _ right => left.StringFree ∧ right.StringFree

/-- What can stand behind a tree that is shown as part of another. -/
def Closes (rest : List Char) : Prop :=
  ∀ c ∈ rest.head?, c = ' ' ∨ c = ')'

theorem closes_nil : Closes [] :=
  nofun

theorem closes_space (rest : List Char) : Closes (' ' :: rest) := by
  simp [Closes]

theorem closes_paren (rest : List Char) : Closes (')' :: rest) := by
  simp [Closes]

/-! ## Leaves -/

def isLeafChar (c : Char) : Bool :=
  c != ' ' && c != '(' && c != ')'

theorem Closes.noMore {rest : List Char} (h : Closes rest) : NoMore isLeafChar rest := by
  intro c hc
  rcases h c hc with rfl | rfl <;> decide

namespace Value

theorem isLeafChar_number {x : Float} (h : x.isNaN = false) :
    ∀ c ∈ (displayNumber x).toList, isLeafChar c = true := by
  intro c hc
  have hmem := Binary64.mem_displayNumber h c hc
  simp only [isLeafChar, Bool.and_eq_true, bne_iff_ne]
  refine ⟨⟨?_, ?_⟩, ?_⟩ <;> rintro rfl <;> revert hmem <;> decide

theorem isNaN_of_scanned {x : Float} (h : (number x).Scanned) : x.isNaN = false := by
  obtain ⟨d, rfl⟩ := h
  exact d.isNaN_toFloat

theorem Scanned.isLeafChar {v : Value} (h : v.Scanned) (hs : ∀ s, v ≠ .string s) :
    ∀ c ∈ v.display.toList, isLeafChar c = true := by
  cases v with
  | nil => exact List.all_eq_true.mp rfl
  | bool b => cases b <;> exact List.all_eq_true.mp rfl
  | number x => exact isLeafChar_number (isNaN_of_scanned h)
  | string s => exact absurd rfl (hs s)

/-- No number is shown as a keyword. -/
theorem display_number_ne {x : Float} (h : (number x).Scanned) :
    displayNumber x ≠ "nil" ∧ ∀ b, displayNumber x ≠ (bool b).display := by
  have hmem := Binary64.mem_displayNumber (isNaN_of_scanned h)
  refine ⟨fun hx => ?_, fun b hx => ?_⟩ <;> rw [hx] at hmem
  · exact absurd (hmem 'l' (by decide)) (by decide)
  · cases b with
    | false => exact absurd (hmem 'l' (by decide)) (by decide)
    | true => exact absurd (hmem 't' (by decide)) (by decide)

theorem display_bool_injective : ∀ a b, (bool a).display = (bool b).display → a = b := by
  decide

theorem Scanned.eq_of_display {v w : Value} (hv : v.Scanned) (hw : w.Scanned)
    (hvs : ∀ s, v ≠ .string s) (hws : ∀ s, w ≠ .string s) (h : v.display = w.display) : v = w := by
  cases v with
  | nil => cases w with
    | nil => rfl
    | bool b => cases b <;> exact absurd h (by decide)
    | number y => exact absurd h.symm (display_number_ne hw).1
    | string s => exact absurd rfl (hws s)
  | bool a => cases w with
    | nil => cases a <;> exact absurd h (by decide)
    | bool b => rw [display_bool_injective a b h]
    | number y => exact absurd h.symm ((display_number_ne hw).2 a)
    | string s => exact absurd rfl (hws s)
  | number x => cases w with
    | nil => exact absurd h (display_number_ne hv).1
    | bool b => exact absurd h ((display_number_ne hv).2 b)
    | number y =>
      have hbits : x.toBits = y.toBits :=
        Binary64.toBits_eq_of_displayNumber (isNaN_of_scanned hv) (isNaN_of_scanned hw) h
      exact congrArg number (Float.toBits_inj.mp hbits)
    | string s => exact absurd rfl (hws s)
  | string s => exact absurd rfl (hvs s)

end Value

/-! ## Nodes -/

theorem Token.OfSymbol.unplaced_eq {t u : Token} {s : Symbol} (ht : t.OfSymbol s)
    (hu : u.OfSymbol s) : t.unplaced = u.unplaced := by
  simp only [Token.unplaced, ht.kind, ht.lexeme, ht.literal, hu.kind, hu.lexeme, hu.literal]

/-- Both before a blank, words without blanks are cut off alike. -/
theorem word_append_inj {a b u v : List Char} (ha : ' ' ∉ a) (hb : ' ' ∉ b)
    (h : a ++ ' ' :: u = b ++ ' ' :: v) : a = b ∧ u = v := by
  obtain ⟨hword, hrest⟩ := append_inj_of_noMore (p := (· != ' ')) (bne_of_not_mem ha)
    (bne_of_not_mem hb) (noMore_cons.mpr rfl) (noMore_cons.mpr rfl) h
  exact ⟨hword, (List.cons.inj hrest).2⟩

theorem Symbol.space_not_mem_chars (s : Symbol) : ' ' ∉ s.chars := by
  cases s <;> decide

theorem Symbol.chars_ne_group (s : Symbol) : s.chars ≠ "group".toList := by
  cases s <;> decide

namespace Expr

theorem toList_display_group (e : Expr) (rest : List Char) :
    (group e).display.toList ++ rest =
      '(' :: ("group".toList ++ ' ' :: (e.display.toList ++ ')' :: rest)) := by
  simp [display]

theorem toList_display_unary {op : Token} {s : Symbol} (h : op.OfSymbol s) (e : Expr)
    (rest : List Char) : (unary op e).display.toList ++ rest =
      '(' :: (s.chars ++ ' ' :: (e.display.toList ++ ')' :: rest)) := by
  simp [display, h.lexeme]

theorem toList_display_binary {op : Token} {s : Symbol} (h : op.OfSymbol s) (left right : Expr)
    (rest : List Char) : (binary left op right).display.toList ++ rest =
      '(' :: (s.chars ++ ' ' ::
        (left.display.toList ++ ' ' :: (right.display.toList ++ ')' :: rest))) := by
  simp [display, h.lexeme]

theorem leaf_ne_node {w : Value} (hw : w.Scanned) (hs : ∀ s, w ≠ .string s) {u x : List Char}
    (hu : Closes u) : (literal w).display.toList ++ u ≠ '(' :: x := by
  intro h
  obtain ⟨-, rfl⟩ := append_inj_of_noMore (b := []) (hw.isLeafChar hs) nofun hu.noMore
    (noMore_cons.mpr rfl) h
  rcases hu '(' rfl with hc | hc <;> exact absurd hc (by decide)

/-- What stands behind the word of a node, if there is such a word in both. -/
theorem node_inj {a b x y : List Char} (ha : ' ' ∉ a) (hb : ' ' ∉ b)
    (h : '(' :: (a ++ ' ' :: x) = '(' :: (b ++ ' ' :: y)) : a = b ∧ x = y :=
  word_append_inj ha hb (List.cons.inj h).2

/-- In a longer text, what is shown of a tree determines the tree and the rest. The
induction is on one tree; where the other has another shape, the texts part at the word
of a node or behind its first operand. -/
theorem Scanned.display_append_inj {e f : Expr} {u v : List Char} (he : e.Scanned) (hf : f.Scanned)
    (hes : e.StringFree) (hfs : f.StringFree) (hu : Closes u) (hv : Closes v)
    (h : e.display.toList ++ u = f.display.toList ++ v) :
    e.mapOperators Token.unplaced = f.mapOperators Token.unplaced ∧ u = v := by
  have hgroup : ' ' ∉ "group".toList := by decide
  have hspace := Symbol.space_not_mem_chars
  induction he generalizing f u v with
  | literal hval => cases hf with
    | literal hval' =>
      obtain ⟨htext, hrest⟩ := append_inj_of_noMore (hval.isLeafChar hes) (hval'.isLeafChar hfs)
        hu.noMore hv.noMore h
      rw [hval.eq_of_display hval' hes hfs (String.toList_injective htext)]
      exact ⟨rfl, hrest⟩
    | group _ =>
      rw [toList_display_group] at h
      exact absurd h (leaf_ne_node hval hes hu)
    | unary hop _ =>
      rw [toList_display_unary hop] at h
      exact absurd h (leaf_ne_node hval hes hu)
    | binary _ hop _ =>
      rw [toList_display_binary hop] at h
      exact absurd h (leaf_ne_node hval hes hu)
  | group _ ih =>
    rw [toList_display_group] at h
    cases hf with
    | literal hval' => exact absurd h.symm (leaf_ne_node hval' hfs hv)
    | group hf =>
      rw [toList_display_group] at h
      obtain ⟨hinner, hrest⟩ := ih hf hes hfs (closes_paren u) (closes_paren v)
        (node_inj hgroup hgroup h).2
      exact ⟨congrArg Expr.group hinner, (List.cons.inj hrest).2⟩
    | @unary _ s _ hop _ =>
      rw [toList_display_unary hop] at h
      exact absurd (node_inj hgroup (hspace s) h).1.symm s.chars_ne_group
    | @binary _ _ s _ _ hop _ =>
      rw [toList_display_binary hop] at h
      exact absurd (node_inj hgroup (hspace s) h).1.symm s.chars_ne_group
  | @unary op s e hop _ ih =>
    rw [toList_display_unary hop] at h
    cases hf with
    | literal hval' => exact absurd h.symm (leaf_ne_node hval' hfs hv)
    | group _ =>
      rw [toList_display_group] at h
      exact absurd (node_inj (hspace s) hgroup h).1 s.chars_ne_group
    | @unary op' r _ hop' hf =>
      rw [toList_display_unary hop'] at h
      obtain ⟨hword, hrest⟩ := node_inj (hspace s) (hspace r) h
      obtain rfl : s = r := Symbol.chars_injective hword
      obtain ⟨hoperand, hrest⟩ := ih hf hes hfs (closes_paren u) (closes_paren v) hrest
      refine ⟨?_, (List.cons.inj hrest).2⟩
      rw [mapOperators, mapOperators, hop.unplaced_eq hop', hoperand]
    | @binary left op' r right hl hop' hr =>
      rw [toList_display_binary hop'] at h
      obtain ⟨-, hrest⟩ := node_inj (hspace s) (hspace r) h
      obtain ⟨-, hrest⟩ := ih hl hes hfs.1 (closes_paren u) (closes_space _) hrest
      exact absurd (List.cons.inj hrest).1 (by decide)
  | @binary left op s right _ hop _ ihl ihr =>
    rw [toList_display_binary hop] at h
    cases hf with
    | literal hval' => exact absurd h.symm (leaf_ne_node hval' hfs hv)
    | group _ =>
      rw [toList_display_group] at h
      exact absurd (node_inj (hspace s) hgroup h).1 s.chars_ne_group
    | @unary op' r _ hop' hf =>
      rw [toList_display_unary hop'] at h
      obtain ⟨-, hrest⟩ := node_inj (hspace s) (hspace r) h
      obtain ⟨-, hrest⟩ := ihl hf hes.1 hfs (closes_space _) (closes_paren v) hrest
      exact absurd (List.cons.inj hrest).1 (by decide)
    | @binary left' op' r right' hl hop' hr =>
      rw [toList_display_binary hop'] at h
      obtain ⟨hword, hrest⟩ := node_inj (hspace s) (hspace r) h
      obtain rfl : s = r := Symbol.chars_injective hword
      obtain ⟨hleft, hrest⟩ := ihl hl hes.1 hfs.1 (closes_space _) (closes_space _) hrest
      obtain ⟨hright, hrest⟩ := ihr hr hes.2 hfs.2 (closes_paren u) (closes_paren v)
        (List.cons.inj hrest).2
      refine ⟨?_, (List.cons.inj hrest).2⟩
      rw [mapOperators, mapOperators, hop.unplaced_eq hop', hleft, hright]

theorem display_mapOperators (e : Expr) : (e.mapOperators Token.unplaced).display = e.display := by
  induction e with
  | literal v => rfl
  | group e ih => rw [mapOperators, display, ih, display]
  | unary op e ih => rw [mapOperators, display, ih, display]; rfl
  | binary left op right ihl ihr => rw [mapOperators, display, ihl, ihr, display]; rfl

theorem Scanned.unplaced {e : Expr} (h : e.Scanned) : (e.mapOperators Token.unplaced).Scanned := by
  induction h with
  | literal hv => exact .literal hv
  | group _ ih => exact .group ih
  | unary hop _ ih => exact .unary ⟨hop.kind, hop.lexeme, hop.literal⟩ ih
  | binary _ hop _ ihl ihr => exact .binary ihl ⟨hop.kind, hop.lexeme, hop.literal⟩ ihr

end Expr

/-- Trees of texts without strings are shown alike exactly when they are the same up to the
lines of their operators, be that the equality of the language or identity. -/
theorem display_eq_iff_same_tree (a b : String) (e f : Expr)
    (he : (Reading.ofSource a).expr = some e) (hf : (Reading.ofSource b).expr = some f)
    (hes : e.StringFree) (hfs : f.StringFree) :
    (e.display = f.display ↔ e.mapOperators Token.unplaced = f.mapOperators Token.unplaced) ∧
    (e.display = f.display ↔
      (e.mapOperators Token.unplaced).equals (f.mapOperators Token.unplaced) = true) := by
  have hes' := scanned_of_reading he
  have hfs' := scanned_of_reading hf
  have hiff : e.display = f.display ↔
      e.mapOperators Token.unplaced = f.mapOperators Token.unplaced := by
    refine ⟨fun h => ?_, fun h => ?_⟩
    · exact (hes'.display_append_inj hfs' hes hfs closes_nil closes_nil (by rw [h])).1
    · rw [← e.display_mapOperators, h, f.display_mapOperators]
  refine ⟨hiff, hiff.trans ⟨fun h => ?_, hes'.unplaced.eq_of_equals hfs'.unplaced⟩⟩
  rw [h]
  exact hfs'.unplaced.equals_self

theorem display_eq_iff_same_tree_minus :
    (Expr.unary ⟨.symbol .minus, "-", none, 1⟩
        (.literal (.number (Decimal.ofNumeral ['1'] ['5', '0']).toFloat))).display =
      (Expr.unary ⟨.symbol .minus, "-", none, 2⟩
        (.literal (.number (Decimal.ofNumeral ['1'] ['5']).toFloat))).display := by
  refine (display_eq_iff_same_tree "-1.50" "\n- 1.5" _ _ (by decide +kernel) (by decide +kernel)
    ?_ ?_).2.mpr (by decide +kernel)
  · exact fun _ h => nomatch h
  · exact fun _ h => nomatch h

end Lox
