set_option autoImplicit false

/-!
Texts by the offsets of their bytes: a slice is there exactly if the text divides into what is
before it, the slice and what is after it, and the offsets are the bytes of the first parts
(`slice?_eq_some_iff`).
-/

namespace ListQuery.Text

/-- The text between two byte offsets, if both are in the text and between two characters. -/
def slice? (text : String) (start stop : Nat) : Option String :=
  if bounds : (⟨start⟩ : String.Pos.Raw).IsValid text ∧ (⟨stop⟩ : String.Pos.Raw).IsValid text then
    (text.slice? ⟨⟨start⟩, bounds.1⟩ ⟨⟨stop⟩, bounds.2⟩).map String.Slice.copy
  else none

theorem slice?_eq_some_iff {text part : String} {start stop : Nat} :
    slice? text start stop = some part ↔
      ∃ before after, text = before ++ part ++ after ∧ before.utf8ByteSize = start ∧
        (before ++ part).utf8ByteSize = stop := by
  constructor
  · intro found
    unfold slice? at found
    split at found
    · obtain ⟨slice, sliced, rfl⟩ := Option.map_eq_some_iff.mp found
      unfold String.slice? at sliced
      split at sliced
      · rename_i ordered
        obtain rfl := Option.some.inj sliced
        obtain ⟨before, after, first, second⟩ := String.copy_slice_eq_iff_splits.mp ⟨ordered, rfl⟩
        refine ⟨before, after, second.eq_append, ?_, ?_⟩
        · exact (congrArg String.Pos.Raw.byteIdx first.offset_eq_rawEndPos).symm
        · exact (congrArg String.Pos.Raw.byteIdx second.offset_eq_rawEndPos).symm
      · cases sliced
    · cases found
  · rintro ⟨before, after, rfl, rfl, rfl⟩
    have regrouped : before ++ part ++ after = before ++ (part ++ after) := String.append_assoc ..
    have first : (⟨before.utf8ByteSize⟩ : String.Pos.Raw).IsValid (before ++ part ++ after) :=
      String.Pos.Raw.isValid_iff_exists_append.mpr ⟨before, part ++ after, regrouped, rfl⟩
    have second : (⟨(before ++ part).utf8ByteSize⟩ : String.Pos.Raw).IsValid
        (before ++ part ++ after) :=
      String.Pos.Raw.isValid_iff_exists_append.mpr ⟨before ++ part, after, rfl, rfl⟩
    have left : String.Pos.Splits ⟨_, first⟩ before (part ++ after) := ⟨regrouped, rfl⟩
    have right : String.Pos.Splits ⟨_, second⟩ (before ++ part) after := ⟨rfl, rfl⟩
    obtain ⟨ordered, same⟩ := String.copy_slice_eq_iff_splits.mpr ⟨before, after, left, right⟩
    rw [slice?, dif_pos ⟨first, second⟩, String.slice?, dif_pos ordered, Option.map_some, same]

theorem utf8ByteSize_ofList {letters : List Char} (single : ∀ c ∈ letters, c.utf8Size = 1) :
    (String.ofList letters).utf8ByteSize = letters.length := by
  induction letters with
  | nil => rfl
  | cons c rest ih =>
    have first : (String.ofList [c]).utf8ByteSize = 1 := by
      rw [← String.singleton_eq_ofList, String.utf8ByteSize_singleton]
      exact single c (List.mem_cons_self ..)
    have others : (String.ofList rest).utf8ByteSize = rest.length :=
      ih fun d inside => single d (List.mem_cons_of_mem _ inside)
    have split : String.ofList (c :: rest) = String.ofList [c] ++ String.ofList rest := by
      rw [← String.ofList_append]
      rfl
    rw [split, String.utf8ByteSize_append, first, others, List.length_cons, Nat.add_comm]

end ListQuery.Text
