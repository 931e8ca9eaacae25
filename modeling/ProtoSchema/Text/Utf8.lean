/-!
# UTF-8

Text as bytes and bytes as text. `decode?_eq_some_iff` says that decoding undoes encoding and
accepts nothing else; `validPrefix` is the text that can be read before the first byte that fits no
character.
-/

namespace ProtoSchema.Utf8

/-- The bytes of a text. -/
def encode (text : List Char) : List UInt8 :=
  text.flatMap String.utf8EncodeChar

/-- The text of which these are the bytes, if there is one. -/
def decode? (bytes : List UInt8) : Option String :=
  String.fromUTF8? bytes.toByteArray

/-- The characters that can be read one after the other from the index on. -/
def validPrefix (bytes : ByteArray) (index : Nat) : List Char :=
  match _h : bytes.utf8DecodeChar? index with
  | none => []
  | some c => c :: validPrefix bytes (index + c.utf8Size)
termination_by bytes.size - index
decreasing_by
  have := ByteArray.le_size_of_utf8DecodeChar?_eq_some _h
  have := c.utf8Size_pos
  omega

@[simp] theorem encode_nil : encode [] = [] := rfl

@[simp] theorem encode_cons (c : Char) (text : List Char) :
    encode (c :: text) = String.utf8EncodeChar c ++ encode text := rfl

@[simp] theorem encode_append (left right : List Char) :
    encode (left ++ right) = encode left ++ encode right := by
  simp [encode]

theorem toByteArray_encode (text : List Char) : (encode text).toByteArray = text.utf8Encode := by
  simp [encode, List.utf8Encode]

theorem decode?_encode (s : String) : decode? (encode s.toList) = some s := by
  have valid : (encode s.toList).toByteArray.IsValidUTF8 := by
    rw [toByteArray_encode]
    exact ByteArray.isValidUTF8_utf8Encode
  simp only [decode?, String.fromUTF8?, valid, dite_true, Option.some.injEq]
  rw [← String.toByteArray_inj]
  simp [String.fromUTF8, toByteArray_encode]

theorem eq_encode_of_decode? {bytes : List UInt8} {s : String} (h : decode? bytes = some s) :
    bytes = encode s.toList := by
  simp only [decode?, String.fromUTF8?] at h
  split at h
  · have same : bytes.toByteArray = (encode s.toList).toByteArray := by
      cases h
      rw [toByteArray_encode, String.utf8Encode_toList]
      simp [String.fromUTF8]
    have := congrArg (fun b => b.data.toList) same
    simpa only [List.toList_data_toByteArray] using this
  · cases h

/-- Decoding accepts exactly the bytes of a text and gives that text. -/
theorem decode?_eq_some_iff {bytes : List UInt8} {s : String} :
    decode? bytes = some s ↔ bytes = encode s.toList :=
  ⟨eq_encode_of_decode?, fun h => h ▸ decode?_encode s⟩

end ProtoSchema.Utf8
