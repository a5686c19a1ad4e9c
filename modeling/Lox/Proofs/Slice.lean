import Lox.Text.Bytes

/-! Slices of a text between byte offsets. There is a slice where both offsets are in range and in
order, and neither falls inside a character (`isSome_slice?_iff`); it is what stands between two
parts of the text that are as long as the offsets say (`slice?_eq_some_iff`). -/

namespace Lox

theorem byteSize_eq (text : List Char) : byteSize text = (String.ofList text).utf8ByteSize := by
  induction text with
  | nil => rfl
  | cons c text ih =>
    rw [byteSize, ih, String.ofList_cons, String.utf8ByteSize_append, String.utf8ByteSize_singleton]

theorem byteSize_toList (source : String) : byteSize source.toList = source.utf8ByteSize := by
  rw [byteSize_eq, String.ofList_toList]

theorem byteSize_pos {text : List Char} (h : text ≠ []) : 0 < byteSize text := by
  cases text with
  | nil => exact absurd rfl h
  | cons c text => exact Nat.add_pos_left c.utf8Size_pos _

theorem length_le_byteSize (text : List Char) : text.length ≤ byteSize text := by
  induction text with
  | nil => exact Nat.le_refl 0
  | cons c text ih =>
    have hpos := c.utf8Size_pos
    rw [List.length_cons, byteSize]
    omega

/-- Bytes are dropped where they are those of a part in front. -/
theorem dropBytes_eq_some_iff {n : Nat} {text rest : List Char} :
    dropBytes n text = some rest ↔ ∃ front, text = front ++ rest ∧ byteSize front = n := by
  constructor
  · intro h
    fun_induction dropBytes n text with
    | case1 text => exact ⟨[], Option.some.inj h, rfl⟩
    | case2 => cases h
    | case3 n c text hc ih =>
      obtain ⟨front, rfl, hsize⟩ := ih h
      exact ⟨c :: front, rfl, by rw [byteSize, hsize]; omega⟩
    | case4 => cases h
  · intro h
    obtain ⟨front, rfl, rfl⟩ := h
    exact dropBytes_append front rest

/-- The text between two byte offsets; `none` unless they are in range and in order, neither of
them inside a character. -/
def slice? (text : List Char) (start stop : Nat) : Option (List Char) :=
  if start ≤ stop then
    (dropBytes start text).bind fun rest =>
      (dropBytes (stop - start) rest).map fun after => rest.take (rest.length - after.length)
  else none

theorem slice?_eq_some_iff {text middle : List Char} {start stop : Nat} :
    slice? text start stop = some middle ↔ ∃ front after, text = front ++ middle ++ after ∧
      byteSize front = start ∧ byteSize (front ++ middle) = stop := by
  constructor
  · intro h
    unfold slice? at h
    split at h
    · rename_i hle
      obtain ⟨rest, hrest, hmap⟩ := Option.bind_eq_some_iff.mp h
      obtain ⟨after, hafter, hmiddle⟩ := Option.map_eq_some_iff.mp hmap
      obtain ⟨front, rfl, hstart⟩ := dropBytes_eq_some_iff.mp hrest
      obtain ⟨inner, rfl, hstop⟩ := dropBytes_eq_some_iff.mp hafter
      obtain rfl : inner = middle := by simpa using hmiddle
      refine ⟨front, after, (List.append_assoc ..).symm, hstart, ?_⟩
      rw [byteSize_append]
      omega
    · cases h
  · intro h
    obtain ⟨front, after, rfl, rfl, rfl⟩ := h
    rw [byteSize_append, slice?, if_pos (Nat.le_add_right _ _), List.append_assoc, dropBytes_append,
      Option.bind_some, Nat.add_sub_cancel_left, dropBytes_append]
    simp

/-- An offset is on a boundary where it is the size of a part in front. -/
theorem isValid_iff {source : String} {n : Nat} :
    String.Pos.Raw.IsValid source ⟨n⟩ ↔
      ∃ front rest, source.toList = front ++ rest ∧ byteSize front = n := by
  rw [String.Pos.Raw.isValid_iff_exists_append]
  constructor
  · intro h
    obtain ⟨front, rest, rfl, hn⟩ := h
    exact ⟨front.toList, rest.toList, String.toList_append,
      (byteSize_toList front).trans (congrArg String.Pos.Raw.byteIdx hn).symm⟩
  · intro h
    obtain ⟨front, rest, hsource, rfl⟩ := h
    refine ⟨String.ofList front, String.ofList rest, ?_, ?_⟩
    · rw [← String.ofList_append, ← hsource, String.ofList_toList]
    · rw [byteSize_eq]
      rfl

/-- Of two parts in front of a text, the one that is not longer stands in front of the other. -/
theorem exists_append_of_byteSize_le {front rest front' rest' : List Char}
    (h : front ++ rest = front' ++ rest') (hle : byteSize front ≤ byteSize front') :
    ∃ middle, front' = front ++ middle := by
  rcases List.append_eq_append_iff.mp h with ⟨middle, hfront, -⟩ | ⟨middle, hfront, -⟩
  · exact ⟨middle, hfront⟩
  · cases middle with
    | nil => exact ⟨[], by simpa using hfront.symm⟩
    | cons c middle =>
      have hpos := byteSize_pos (List.cons_ne_nil c middle)
      rw [hfront, byteSize_append] at hle
      omega

theorem isSome_slice?_iff {source : String} {start stop : Nat} :
    (slice? source.toList start stop).isSome ↔ start ≤ stop ∧
      String.Pos.Raw.IsValid source ⟨start⟩ ∧ String.Pos.Raw.IsValid source ⟨stop⟩ := by
  rw [Option.isSome_iff_exists, isValid_iff, isValid_iff]
  constructor
  · intro h
    obtain ⟨middle, hslice⟩ := h
    obtain ⟨front, after, htext, rfl, rfl⟩ := slice?_eq_some_iff.mp hslice
    refine ⟨by rw [byteSize_append]; omega, ⟨front, middle ++ after, ?_, rfl⟩, ⟨_, after, htext, rfl⟩⟩
    rw [htext, List.append_assoc]
  · intro h
    obtain ⟨hle, ⟨front, rest, htext, rfl⟩, ⟨front', after, htext', rfl⟩⟩ := h
    obtain ⟨middle, rfl⟩ := exists_append_of_byteSize_le (htext.symm.trans htext') hle
    exact ⟨middle, slice?_eq_some_iff.mpr ⟨front, after, htext', rfl, rfl⟩⟩

/-- The second letter has two bytes. -/
example : slice? "aéb".toList 1 3 = some ['é'] ∧ slice? "aéb".toList 2 3 = none := by decide

end Lox
