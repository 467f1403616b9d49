/-!
# Hashes of texts

Every string object carries the 32-bit FNV-1a hash of its UTF-8 bytes. The hash decides where a
table starts to look for a key, so it is part of what a table shows.
-/

set_option autoImplicit false

namespace Lox.Text

/-- Mixes one byte into a hash. -/
def mixByte (hash : UInt32) (byte : UInt8) : UInt32 :=
  (hash ^^^ byte.toUInt32) * 16777619

/-- The 32-bit FNV-1a hash of the UTF-8 bytes of a text. -/
def hash (text : String) : UInt32 :=
  text.toUTF8.foldl mixByte 2166136261

end Lox.Text
