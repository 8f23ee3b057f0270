/-
  JsonnetLocals.Rename.Naming — the new names of a file's locals.

  A new name is the file's tag, a separator and the old name. The tag is an underscore and the
  eight hexadecimal digits of a 32-bit hash of the file's identity, so it depends on nothing else
  and always starts a name.
-/

import JsonnetLocals.Text.Encoding

namespace JsonnetLocals

namespace Fnv

def offsetBasis : UInt32 := 0x811c9dc5

def prime : UInt32 := 0x01000193

/-- One byte of the hash: first mixed in, then multiplied. -/
def step (h : UInt32) (b : UInt8) : UInt32 := (h ^^^ b.toUInt32) * prime

def hash (bs : Bytes) : UInt32 := bs.foldl step offsetBasis

end Fnv

def tagOf (bs : Bytes) : String := "_" ++ Utf8.hexDigits 8 (Fnv.hash bs).toNat

def fileTag (identity : Text) : Except Unencodable String := identity.encode.map tagOf

def defaultSeparator : Text := "_"

def newName (tag : String) (separator name : Text) : Text := tag ++ separator ++ name

end JsonnetLocals
