import ReverseRusty.Lib.Bytes

/-!
# ReverseRusty.Lib.Text

Texts in binary layouts: UTF-8 bytes behind a 16-bit length.

The writer narrows the length to its field, so a text of 2¹⁶ bytes or more
is laid down whole behind a length that is too small.
-/

namespace ReverseRusty

open List

/-! ## UTF-8 -/

def utf8 (s : String) : List UInt8 := s.toByteArray.data.toList

/-- The text of some bytes, if they are one. -/
def fromUtf8 (bs : List UInt8) : Option String := String.fromUTF8? ⟨bs.toArray⟩

theorem length_utf8 (s : String) : (utf8 s).length = s.utf8ByteSize := by
  simp [utf8]

theorem utf8_injective {s t : String} (h : utf8 s = utf8 t) : s = t :=
  String.toByteArray_inj.mp (ByteArray.ext (Array.toList_inj.mp h))

@[simp] theorem fromUtf8_utf8 (s : String) : fromUtf8 (utf8 s) = some s := by
  have hbytes : (⟨(utf8 s).toArray⟩ : ByteArray) = s.toByteArray := by simp [utf8]
  rw [fromUtf8, String.fromUTF8?, hbytes, dif_pos s.isValidUTF8]
  rfl

/-! ## texts behind their length -/

/-- A text behind its length, which is narrowed to 16 bits. -/
def encodeText (s : String) : List UInt8 :=
  Codec.u16.enc (UInt16.ofNat s.utf8ByteSize) ++ utf8 s

end ReverseRusty
