/-! Text as UTF-8 bytes. -/

namespace LittleMan

/-- The text of a byte sequence, unless the bytes are not valid UTF-8. -/
def decodeUtf8? (bytes : List UInt8) : Option String := String.fromUTF8? bytes.toByteArray

def encodeUtf8 (text : String) : List UInt8 := text.toUTF8.data.toList

end LittleMan
