import Lox.Proofs.Accepted
import Lox.Proofs.Spacing
import Lox.Reading

/-! A tree that is written in infix form is read back. Segments that are tokens come back
from their texts when blanks stand between them (`split_intercalate`), and a `Spelling` of
a tree derives it again from any tokens that differ from the segments in their lines only;
there is one for each node, made of those of its operands. -/

namespace Lox
open Grammar

namespace Segment

theorem split_intercalate {segments : List Segment} (h : ∀ s ∈ segments, s.Solid) :
    split ([' '].intercalate (segments.map text)) = segments.intersperse (.blank ' ') := by
  induction segments with
  | nil => exact split_nil
  | cons s rest ih =>
    have hs : s.Solid := h s List.mem_cons_self
    have ih := ih fun t ht => h t (List.mem_cons_of_mem s ht)
    cases rest with
    | nil =>
      have hfits : s.Fits [] := ⟨hs.wellFormed, hs.closed (noMore_nil _)⟩
      simpa [split_nil] using split_append hfits
    | cons t rest =>
      have hfits : ∀ after, s.Fits (' ' :: after) :=
        fun after => ⟨hs.wellFormed, hs.closed (noMore_cons.mpr rfl)⟩
      have hspace : ∀ after, (Segment.blank ' ').Fits after := fun after => ⟨rfl, trivial⟩
      calc split ([' '].intercalate ((s :: t :: rest).map text))
          = split (s.text ++ ' ' :: [' '].intercalate ((t :: rest).map text)) := by
            simp [List.intercalate_cons_cons]
        _ = s :: split ((Segment.blank ' ').text ++ [' '].intercalate ((t :: rest).map text)) :=
            split_append (hfits _)
        _ = s :: .blank ' ' :: split ([' '].intercalate ((t :: rest).map text)) := by
            rw [split_append (hspace _)]
        _ = (s :: t :: rest).intersperse (.blank ' ') := by
            rw [ih, List.intersperse_cons_cons]

theorem mem_intersperse {sep s : Segment} {segments : List Segment}
    (h : s ∈ segments.intersperse sep) : s = sep ∨ s ∈ segments := by
  induction segments with
  | nil => exact .inr h
  | cons t rest ih =>
    cases rest with
    | nil => exact .inr h
    | cons u rest =>
      rw [List.intersperse_cons_cons] at h
      rcases List.mem_cons.mp h with rfl | h
      · exact .inr List.mem_cons_self
      · rcases List.mem_cons.mp h with rfl | h
        · exact .inl rfl
        · exact (ih h).imp_right (List.mem_cons_of_mem t)

theorem filterMap_intersperse_blank (f : Segment → Option Token) (hf : f (.blank ' ') = none)
    (segments : List Segment) :
    (segments.intersperse (.blank ' ')).filterMap f = segments.filterMap f := by
  induction segments with
  | nil => rfl
  | cons s rest ih =>
    cases rest with
    | nil => rfl
    | cons t rest =>
      rw [List.intersperse_cons_cons, List.filterMap_cons, List.filterMap_cons, hf, ih]
      rfl

end Segment

open Segment

/-- A scan of tokens with blanks between them finds these and reports nothing. -/
theorem scan_intercalate {segments : List Segment} (h : ∀ s ∈ segments, s.Solid) :
    ∃ p stop, (scan (String.ofList ([' '].intercalate (segments.map text)))) = ⟨p ++ [stop], []⟩ ∧
      stop.kind = .eof ∧ p.map Token.unplaced = segments.filterMap (token? 0) := by
  have hlines := map_unplaced_tokensAfter [] (segments.intersperse (.blank ' '))
  rw [filterMap_intersperse_blank _ rfl] at hlines
  obtain ⟨p, last, htokens, hp, hlast⟩ := List.map_eq_append_iff.mp hlines
  obtain ⟨stop, rfl, hstop⟩ := List.map_eq_singleton_iff.mp hlast
  have hquiet : ∀ s ∈ segments.intersperse (.blank ' '), ∀ line, s.problem? line = none := by
    intro s hs line
    rcases mem_intersperse hs with rfl | hs
    · rfl
    · obtain ⟨kind, hkind⟩ := Option.isSome_iff_exists.mp (h s hs).token
      exact problem?_of_kind? hkind line
  refine ⟨p, stop, ?_, congrArg Token.kind hstop, hp⟩
  rw [scan_eq_after, String.toList_ofList, split_intercalate h, htokens,
    problemsAfter_eq_nil hquiet]

namespace Segment

/-- What a token without its line shows of the segment that it is. -/
theorem eq_of_token? {s : Segment} {t : Token} (h : s.token? 0 = some t.unplaced) :
    s.kind? = some t.kind ∧ s.literal? = t.literal := by
  obtain ⟨kind, hkind, ht⟩ := Option.map_eq_some_iff.mp h
  have hk : kind = t.kind := congrArg Token.kind ht
  exact ⟨hk ▸ hkind, congrArg Token.literal ht⟩

theorem kind_eq_of_unplaced {op t : Token} (h : t.unplaced = op.plain.unplaced) :
    t.kind = op.kind := by
  show t.unplaced.kind = op.plain.unplaced.kind
  rw [h]

theorem token?_isSome {s : Segment} (h : s.Solid) : ∃ t, s.token? 0 = some t := by
  obtain ⟨kind, hkind⟩ := Option.isSome_iff_exists.mp h.token
  exact ⟨_, Option.map_eq_some_iff.mpr ⟨kind, hkind, rfl⟩⟩

theorem symbol_of_operator {op : Token} {s : Symbol} (hk : op.kind = .symbol s)
    (hf : op.kind.fixedText = some op.lexeme) :
    (symbol s).text = op.lexeme.toList ∧ (symbol s).token? 0 = some op.plain.unplaced := by
  obtain ⟨kind, lexeme, literal, line⟩ := op
  obtain rfl : kind = .symbol s := hk
  obtain rfl : String.ofList s.chars = lexeme := Option.some.inj hf
  exact ⟨String.toList_ofList.symm, rfl⟩

end Segment

namespace Expr

/-- Segments for a tree: each is a token, and what they are derives the tree again, whatever
its lines are. -/
structure Spelling (e : Expr) (segments : List Segment) : Prop where
  solid : ∀ s ∈ segments, s.Solid
  derives : ∀ p : List Token, p.map Token.unplaced = segments.filterMap (token? 0) →
    ∃ n e', e.Root n ∧ Derives n p e' ∧
      e'.mapOperators Token.unplaced = e.mapOperators fun op => op.plain.unplaced

theorem spelling_literal {v : Value} {s : Segment} (hs : s.Solid)
    (h : ∀ t : Token, s.kind? = some t.kind → s.literal? = t.literal → Terminal t v) :
    (literal v).Spelling [s] := by
  refine ⟨by simpa using hs, fun p hp => ?_⟩
  obtain ⟨t', ht'⟩ := token?_isSome hs
  rw [List.filterMap_cons, ht'] at hp
  obtain ⟨t, rfl, ht⟩ := List.map_eq_singleton_iff.mp hp
  obtain ⟨hkind, hliteral⟩ := eq_of_token? (ht'.trans (congrArg some ht.symm))
  exact ⟨.primary, .literal v, .literal, .terminal (h t hkind hliteral), rfl⟩

theorem spelling_keyword {v : Value} (k : Keyword)
    (h : ∀ t : Token, t.kind = .keyword k → Terminal t v) :
    (literal v).Spelling [word k.text.toList] := by
  refine spelling_literal (solid_keyword k) fun t hkind _ => h t ?_
  rw [kind?_keyword] at hkind
  exact (Option.some.inj hkind).symm

theorem spelling_number {digits : List Char} {x : Float} (h : Numeral digits x) :
    ∃ s : Segment, s.text = digits ∧ (literal (.number x)).Spelling [s] := by
  obtain ⟨s, htext, hs, hnumber, hx⟩ := h.exists_segment
  refine ⟨s, htext, spelling_literal hs fun t hkind hliteral => ?_⟩
  have hk : .number = t.kind := Option.some.inj (hnumber.symm.trans hkind)
  exact .number hk.symm (hliteral.symm.trans hx)

theorem spelling_value {v : Value} {piece : List Char} (h : v.Written piece) :
    ∃ s : Segment, s.text = piece ∧ (literal v).Spelling [s] := by
  cases h with
  | nil => exact ⟨_, rfl, spelling_keyword .nil fun _ => .nil⟩
  | true => exact ⟨_, rfl, spelling_keyword .true fun _ => .true⟩
  | false => exact ⟨_, rfl, spelling_keyword .false fun _ => .false⟩
  | @string s hq =>
    refine ⟨.string s.toList, rfl, spelling_literal ⟨hq, rfl⟩ fun t hkind hliteral => ?_⟩
    refine .string (Option.some.inj hkind).symm (l := .string s) ?_
    rw [← hliteral, literal?, String.ofList_toList]
  | number hx => exact spelling_number hx

theorem Spelling.group {e : Expr} {segments : List Segment} (h : e.Spelling segments) :
    (group e).Spelling (.symbol .leftParen :: (segments ++ [.symbol .rightParen])) := by
  constructor
  · have hclosing : ∀ s ∈ [Segment.symbol .rightParen], s.Solid :=
      List.forall_mem_singleton.mpr (solid_symbol _)
    have hrest := List.forall_mem_append.mpr ⟨h.solid, hclosing⟩
    exact List.forall_mem_cons.mpr ⟨solid_symbol _, hrest⟩
  · intro p hp
    rw [List.filterMap_cons, List.filterMap_append] at hp
    obtain ⟨opening, p, rfl, hopening, hp⟩ := List.map_eq_cons_iff.mp hp
    obtain ⟨inner, last, rfl, hinner, hlast⟩ := List.map_eq_append_iff.mp hp
    obtain ⟨closing, rfl, hclosing⟩ := List.map_eq_singleton_iff.mp hlast
    obtain ⟨n, e', _, hd, he⟩ := h.derives inner hinner
    have hd : Derives .expression inner e' := hd.climb _ (rank_le_expression n)
    exact ⟨.primary, .group e', .group, .group (congrArg Token.kind hopening) hd
      (congrArg Token.kind hclosing), congrArg Expr.group he⟩

theorem Spelling.unary {op : Token} {e : Expr} {segments : List Segment}
    {s : Symbol} (h : e.Spelling segments) (hop : op.kind ∈ [.symbol .bang, .symbol .minus])
    (hs : op.kind = .symbol s) (hf : op.kind.fixedText = some op.lexeme)
    (hbare : ∀ l, ¬ e.Root (.level l)) : (unary op e).Spelling (.symbol s :: segments) := by
  obtain ⟨-, htoken⟩ := symbol_of_operator hs hf
  constructor
  · exact List.forall_mem_cons.mpr ⟨solid_symbol s, h.solid⟩
  · intro p hp
    rw [List.filterMap_cons, htoken] at hp
    obtain ⟨op', p, rfl, hop', hp⟩ := List.map_eq_cons_iff.mp hp
    obtain ⟨n, e', hroot, hd, he⟩ := h.derives p hp
    have hkind : op'.kind = op.kind := kind_eq_of_unplaced hop'
    have hn : n.rank ≤ Nonterminal.unary.rank := by
      cases n with
      | level l => exact absurd hroot (hbare l)
      | unary | primary => decide
    exact ⟨.unary, .unary op' e', .unary, .signed (hkind ▸ hop) (hd.climb _ hn),
      by rw [mapOperators, mapOperators, hop', he]⟩

theorem Spelling.binary {left right : Expr} {op : Token} {segments others : List Segment}
    {l : Level} {operators : List Symbol} {m : Nonterminal} {s : Symbol}
    (hleft : left.Spelling segments) (hright : right.Spelling others)
    (ht : Tier (.level l) operators m) (hop : op.kind ∈ operators.map .symbol)
    (hs : op.kind = .symbol s) (hf : op.kind.fixedText = some op.lexeme)
    (hl : ∀ k, left.Root (.level k) → l.tightness ≤ k.tightness)
    (hr : ∀ k, right.Root (.level k) → l.tightness < k.tightness) :
    (binary left op right).Spelling (segments ++ .symbol s :: others) := by
  obtain ⟨-, htoken⟩ := symbol_of_operator hs hf
  constructor
  · have hrest := List.forall_mem_cons.mpr ⟨solid_symbol s, hright.solid⟩
    exact List.forall_mem_append.mpr ⟨hleft.solid, hrest⟩
  · intro p hp
    rw [List.filterMap_append, List.filterMap_cons, htoken] at hp
    obtain ⟨front, more, rfl, hfront, hmore⟩ := List.map_eq_append_iff.mp hp
    obtain ⟨op', q, rfl, hop', hq⟩ := List.map_eq_cons_iff.mp hmore
    obtain ⟨n, left', hroot, hdl, hel⟩ := hleft.derives front hfront
    obtain ⟨n', right', hroot', hdr, her⟩ := hright.derives q hq
    have hkind : op'.kind = op.kind := kind_eq_of_unplaced hop'
    obtain ⟨l', hll, -, rfl⟩ := ht.eq_level
    obtain rfl : l = l' := Nonterminal.level.inj hll
    have hdl : Derives (.level l) front left' := hdl.climb _ (hroot.rank_le hl)
    have hdr : Derives l.operand q right' := hdr.climb _ (hroot'.rank_le_operand hr)
    exact ⟨.level l, .binary left' op' right', .binary ht hop,
      .binary ht hdl (hkind ▸ hop) hdr, by rw [mapOperators, mapOperators, hop', hel, her]⟩

/-- What is written of a tree of the grammar are the texts of a spelling of it. -/
theorem Shaped.exists_spelling {e : Expr} (h : e.Shaped) :
    ∀ pieces, e.Written pieces → ∃ segments, segments.map text = pieces ∧ e.Spelling segments := by
  induction h with
  | literal _ =>
    intro pieces hpieces
    cases hpieces with
    | literal hv =>
      obtain ⟨s, rfl, hs⟩ := spelling_value hv
      exact ⟨[s], rfl, hs⟩
  | group _ ih =>
    intro pieces hpieces
    cases hpieces with
    | group hp =>
      obtain ⟨segments, rfl, hs⟩ := ih _ hp
      exact ⟨_, by simp [text, Symbol.chars], hs.group⟩
  | @unary op _ hop hf hbare _ ih =>
    intro pieces hpieces
    cases hpieces with
    | unary hp =>
      obtain ⟨segments, rfl, hs⟩ := ih _ hp
      obtain ⟨s, hk⟩ : ∃ s, op.kind = .symbol s := by
        rcases List.mem_cons.mp hop with h | h
        · exact ⟨_, h⟩
        · exact ⟨_, List.mem_singleton.mp h⟩
      exact ⟨_, by simp [(symbol_of_operator hk hf).1], hs.unary hop hk hf hbare⟩
  | @binary l operators m left op right ht hop hf hl hr _ _ ihl ihr =>
    intro pieces hpieces
    cases hpieces with
    | binary hp hq =>
      obtain ⟨segments, rfl, hs⟩ := ihl _ hp
      obtain ⟨others, rfl, ho⟩ := ihr _ hq
      obtain ⟨s, _, hk⟩ := List.mem_map.mp hop
      exact ⟨_, by simp [(symbol_of_operator hk.symm hf).1],
        hs.binary ho ht hop hk.symm hf hl hr⟩

end Expr

theorem reading_of_spelling {e : Expr} {segments : List Segment} (h : e.Spelling segments) :
    ∃ e', (Reading.ofSource (String.ofList ([' '].intercalate (segments.map text)))).expr = some e' ∧
      (Reading.ofSource (String.ofList ([' '].intercalate (segments.map text)))).problems = [] ∧
      e'.mapOperators Token.unplaced = e.mapOperators fun op => op.plain.unplaced := by
  obtain ⟨p, stop, hscan, hstop, hp⟩ := scan_intercalate h.solid
  obtain ⟨n, e', _, hd, he⟩ := h.derives p hp
  have hparse : parse (p ++ [stop]) = .ok e' :=
    parse_eq_ok_of_derives (hd.climb _ (rank_le_expression n)) hstop
  refine ⟨e', ?_, ?_, he⟩
  · rw [Reading.expr_ofSource, hscan, Reading.ofTokens_of_ok hparse]
  · rw [Reading.problems_ofSource, hscan, Reading.ofTokens_of_ok hparse, List.append_nil]

/-- A tree of the grammar can be written, and however it is written it is read back, with
nothing reported. Only the lines of its operators may be others, and a literal that stood on
an operator is gone. -/
theorem reading_of_written (e : Expr) (h : e.Shaped) :
    (∃ pieces, e.Written pieces) ∧ ∀ pieces, e.Written pieces →
      ∃ e', (Reading.ofSource (String.ofList ([' '].intercalate pieces))).expr = some e' ∧
        (Reading.ofSource (String.ofList ([' '].intercalate pieces))).problems = [] ∧
        e'.mapOperators Token.unplaced = e.mapOperators fun op => op.plain.unplaced := by
  refine ⟨Expr.exists_written h, fun pieces hp => ?_⟩
  obtain ⟨segments, rfl, hs⟩ := h.exists_spelling pieces hp
  exact reading_of_spelling hs

theorem reading_of_written_sum :
    ∃ e', (Reading.ofSource "- ( 1.5 + \"//\" )").expr = some e' ∧
      (Reading.ofSource "- ( 1.5 + \"//\" )").problems = [] ∧
      e'.mapOperators Token.unplaced =
        .unary ⟨.symbol .minus, "-", none, 0⟩ (.group (.binary
          (.literal (.number (Decimal.ofNumeral ['1'] ['5']).toFloat)) ⟨.symbol .plus, "+", none, 0⟩
          (.literal (.string "//")))) := by
  have hx : Numeral ['1', '.', '5'] (Decimal.ofNumeral ['1'] ['5']).toFloat :=
    @Numeral.point ['1'] ['5'] (List.cons_ne_nil _ _) (List.all_eq_true.mp rfl)
      (List.cons_ne_nil _ _) (List.all_eq_true.mp rfl)
  have hs : (Value.string "//").Written ['"', '/', '/', '"'] := .string (by decide)
  refine (reading_of_written
    (.unary ⟨.symbol .minus, "-", none, 1⟩ (.group (.binary
      (.literal (.number (Decimal.ofNumeral ['1'] ['5']).toFloat)) ⟨.symbol .plus, "+", none, 1⟩
      (.literal (.string "//"))))) ?_).2
    [['-'], ['('], ['1', '.', '5'], ['+'], ['"', '/', '/', '"'], [')']] ?_
  · exact .unary (by decide) rfl nofun (.group (.binary .term (by decide) rfl nofun nofun
      (.literal (.number hx)) (.literal hs)))
  · exact .unary (.group (.binary (.literal (.number hx)) (.literal hs)))

/-- The literal of an operator is not written, so it does not come back. -/
theorem reading_drops_literal :
    (Expr.unary ⟨.symbol .minus, "-", some (.string "x"), 1⟩ (.literal .nil)).Shaped ∧
    (Expr.unary ⟨.symbol .minus, "-", some (.string "x"), 1⟩ (.literal .nil)).Written
      [['-'], ['n', 'i', 'l']] ∧
    ∀ e', (Reading.ofSource "- nil").expr = some e' → e'.mapOperators Token.unplaced ≠
      (Expr.unary ⟨.symbol .minus, "-", some (.string "x"), 1⟩ (.literal .nil)).mapOperators
        Token.unplaced := by
  have hshaped :
      (Expr.unary ⟨.symbol .minus, "-", some (.string "x"), 1⟩ (.literal .nil)).Shaped :=
    .unary (by decide) rfl nofun (.literal .nil)
  have hwritten :
      (Expr.unary ⟨.symbol .minus, "-", some (.string "x"), 1⟩ (.literal .nil)).Written
        [['-'], ['n', 'i', 'l']] :=
    .unary (.literal .nil)
  refine ⟨hshaped, hwritten, fun e' he' heq => ?_⟩
  obtain ⟨segments, htext, hs⟩ := hshaped.exists_spelling _ hwritten
  obtain ⟨f, hf, -, hplain⟩ := reading_of_spelling hs
  rw [htext] at hf
  obtain rfl : f = e' := Option.some.inj (hf.symm.trans he')
  cases hplain.symm.trans heq

end Lox
