import CryptoBook.Layout

/-! # Formats of packed bytes

The formats of Python's `struct` module, as far as they are without alignment and
little-endian: a format is a list of codes, and unpacking reads one integer for each code that
is not padding.  Unlike a read of a `Layout`, it fails unless the number of bytes is exactly
that of the format.

A format and a layout are two descriptions of the same bytes.  The lemmas below read the image
of one field after the other, so comparing the two is a matter of simplification. -/
namespace Bytes

/-- `Q`, `q`, `I`, `B` and `x`. -/
inductive Code where
  | u64
  | i64
  | u32
  | u8
  | pad
  deriving DecidableEq

namespace Code

def size : Code → Nat
  | .u64 => 8
  | .i64 => 8
  | .u32 => 4
  | .u8 => 1
  | .pad => 1

/-- The integer that the bytes spell; `none` for padding. -/
def value : Code → List UInt8 → Option Int
  | .u64, bs => some (Layout.u64.decode bs).toNat
  | .i64, bs => some (Layout.i64.decode bs).toInt
  | .u32, bs => some (Layout.u32.decode bs).toNat
  | .u8, bs => some (Layout.u8.decode bs).toNat
  | .pad, _ => none

end Code

/-- `struct.calcsize`. -/
def calcsize : List Code → Nat
  | [] => 0
  | c :: fmt => c.size + calcsize fmt

/-- The integers, one code after the other. -/
def fields : List Code → List UInt8 → List Int
  | [], _ => []
  | c :: fmt, bs => (c.value (bs.take c.size)).toList ++ fields fmt (bs.drop c.size)

/-- `struct.unpack`: `none` where it raises `struct.error`. -/
def unpack (fmt : List Code) (bs : List UInt8) : Option (List Int) :=
  if bs.length = calcsize fmt then some (fields fmt bs) else none

theorem fields_cons {c : Code} {fmt : List Code} {front : List UInt8} (h : front.length = c.size)
    (rest : List UInt8) :
    fields (c :: fmt) (front ++ rest) = (c.value front).toList ++ fields fmt rest := by
  rw [fields, List.take_left' h, List.drop_left' h]

section
variable (fmt : List Code) (rest : List UInt8)

@[simp] theorem fields_nil : fields [] rest = [] := rfl

@[simp] theorem fields_u64 (v : UInt64) :
    fields (.u64 :: fmt) (Layout.u64.encode v ++ rest) = (v.toNat : Int) :: fields fmt rest := by
  rw [fields_cons (Layout.u64.length_encode v), Code.value, Layout.u64.decode_encode]
  rfl

@[simp] theorem fields_i64 (v : Int64) :
    fields (.i64 :: fmt) (Layout.i64.encode v ++ rest) = v.toInt :: fields fmt rest := by
  rw [fields_cons (Layout.i64.length_encode v), Code.value, Layout.i64.decode_encode]
  rfl

@[simp] theorem fields_u32 (v : UInt32) :
    fields (.u32 :: fmt) (Layout.u32.encode v ++ rest) = (v.toNat : Int) :: fields fmt rest := by
  rw [fields_cons (Layout.u32.length_encode v), Code.value, Layout.u32.decode_encode]
  rfl

@[simp] theorem fields_u8 (v : UInt8) :
    fields (.u8 :: fmt) (Layout.u8.encode v ++ rest) = (v.toNat : Int) :: fields fmt rest := by
  rw [fields_cons (Layout.u8.length_encode v), Code.value, Layout.u8.decode_encode]
  rfl

@[simp] theorem fields_pad : fields (.pad :: fmt) rest = fields fmt (rest.drop 1) := rfl

end
end Bytes
