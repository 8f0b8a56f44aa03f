/-!
# Texts as bytes

Offsets count bytes of the UTF-8 form of a text. `bytes` is that form, `ofBytes?` reads it back.
-/

namespace ConvSweep.Text

/-- The bytes of the UTF-8 form. -/
def bytes (s : String) : List UInt8 := s.toByteArray.data.toList

/-- The text with these bytes, if they are valid UTF-8. -/
def ofBytes? (bs : List UInt8) : Option String := String.fromUTF8? ⟨bs.toArray⟩

theorem ofBytes?_bytes (s : String) : ofBytes? (bytes s) = some s := by
  have h : (⟨(bytes s).toArray⟩ : ByteArray) = s.toByteArray := by simp [bytes]
  simp only [ofBytes?, h, String.fromUTF8?, s.isValidUTF8, dite_true]
  rfl

theorem ofBytes?_eq_some_iff {bs : List UInt8} {s : String} : ofBytes? bs = some s ↔ bytes s = bs := by
  constructor
  · unfold ofBytes? String.fromUTF8?
    split
    · rintro h
      cases h
      simp [bytes, String.fromUTF8]
    · simp
  · rintro rfl
    exact ofBytes?_bytes s

theorem bytes_ofList (cs : List Char) :
    bytes (String.ofList cs) = cs.flatMap String.utf8EncodeChar := by
  unfold bytes
  rw [String.toByteArray_ofList, List.utf8Encode, List.data_toByteArray]

theorem bytes_eq_flatMap (s : String) : bytes s = s.toList.flatMap String.utf8EncodeChar := by
  rw [← bytes_ofList, String.ofList_toList]

@[simp] theorem bytes_append (s t : String) : bytes (s ++ t) = bytes s ++ bytes t := by
  simp [bytes, String.toByteArray_append]

theorem length_bytes (s : String) : (bytes s).length = s.utf8ByteSize := by
  simp [bytes]

/-- The text before a byte offset; all of it where the offset splits a character or lies past
the end. -/
def before (s : String) (offset : Nat) : String := (ofBytes? ((bytes s).take offset)).getD s

/-- The text from a byte offset on, unless the offset splits a character or lies past the end. -/
def drop? (s : String) (offset : Nat) : Option String :=
  if offset ≤ (bytes s).length then ofBytes? ((bytes s).drop offset) else none

end ConvSweep.Text
