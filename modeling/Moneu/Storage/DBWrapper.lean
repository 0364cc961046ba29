/-
# Keys of a database

`storage/db_wrapper.h`: how `DataStream` writes a key, the order an iterator walks the keys in, and
what `DBIterator::GetKey` makes of the key it stands on.

`GetKey<K>` refuses a key whose size is not `sizeof(K)`, the size of the OBJECT in memory.  For a
structure written byte by byte (an outpoint) that is the size of the key.  For a `std::string` it is
not: the object has a fixed size and the written key the size of its text, plus four bytes.
-/
import Mathlib.Data.Finset.Sort
import Mathlib.Data.List.Lex
import Moneu.Lib.Decoder

namespace Moneu

namespace DataStream

/-- `operator<<(const std::string&)`: the length in four bytes, then the text. -/
def putString (str : List UInt8) : List UInt8 := leBytes 4 str.length ++ str

/-- `operator>>(std::string&)`. -/
def getString : Decoder (List UInt8) := do
  Decoder.require 4 "DataStream: read past the end of the record"
  let len ← Decoder.le32
  Decoder.require len.toNat "DataStream: string length exceeds the record"
  Decoder.vec len.toNat

@[simp]
theorem length_putString (str : List UInt8) : (putString str).length = 4 + str.length := by
  rw [putString, List.length_append, length_leBytes]

end DataStream

namespace DBIterator

instance keyTrans : IsTrans (List UInt8) (· ≤ ·) := inferInstance

instance keyAntisymm : Std.Antisymm fun a b : List UInt8 => a ≤ b := inferInstance

instance keyTotal : Std.Total fun a b : List UInt8 => a ≤ b := inferInstance

/-- `sizeof(std::string)`: a pointer, a length and sixteen bytes for short texts. -/
def SIZEOF_STRING : Nat := 32

/-- `Seek`, then `Next` until the end: the keys from the target on, in the order of their bytes. -/
def seek (keys : Finset (List UInt8)) (target : List UInt8) : List (List UInt8) :=
  (keys.filter fun key => target ≤ key).sort (· ≤ ·)

def getKeyString (slKey : List UInt8) : Option (List UInt8) :=
  if slKey.length ≠ SIZEOF_STRING then none
  else
    match DataStream.getString slKey with
    | .ok (key, _) => some key
    | .error _ => none

theorem mem_of_mem_seek {keys : Finset (List UInt8)} {target key : List UInt8}
    (h : key ∈ seek keys target) : key ∈ keys :=
  (Finset.mem_filter.mp ((Finset.mem_sort _).mp h)).1

end DBIterator

end Moneu
