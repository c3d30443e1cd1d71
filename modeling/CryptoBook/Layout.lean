import Mathlib.Algebra.Group.Nat.Defs

/-! # Fixed-size byte layouts

The memory image of a trivially copyable record: a fixed number of bytes, written and
read back by copying.  A `Layout` carries its two laws as fields, so that a record built
from layouts by the combinators below needs no proof of its own: what is written has the
stated size, and reading what was written gives the value back.  Words are little-endian.

Reading is total: any bytes of the right number are the image of some value.  Whether
enough bytes are there is for the caller to check. -/
namespace Bytes

/-- The `n` little-endian bytes of a number. -/
def leBytes : Nat → Nat → List UInt8
  | 0, _ => []
  | n + 1, v => UInt8.ofNat v :: leBytes n (v / 256)

/-- The number that little-endian bytes spell. -/
def leValue : List UInt8 → Nat
  | [] => 0
  | b :: bs => b.toNat + 256 * leValue bs

theorem length_leBytes (n v : Nat) : (leBytes n v).length = n := by
  induction n generalizing v with
  | zero => rfl
  | succ n ih => exact congrArg (· + 1) (ih (v / 256))

theorem leValue_leBytes (n v : Nat) : leValue (leBytes n v) = v % 256 ^ n := by
  induction n generalizing v with
  | zero => exact (Nat.mod_one v).symm
  | succ n ih =>
    have hbyte : (UInt8.ofNat v).toNat = v % 256 := UInt8.toNat_ofNat'
    rw [leBytes, leValue, ih, hbyte, Nat.pow_succ', Nat.mod_mul]

theorem length_flatMap_const {α : Type} {encode : α → List UInt8} {size : Nat}
    (hsize : ∀ a, (encode a).length = size) (l : List α) :
    (l.flatMap encode).length = l.length * size := by
  induction l with
  | nil => exact (Nat.zero_mul _).symm
  | cons a l ih =>
    rw [List.flatMap_cons, List.length_append, hsize, ih, List.length_cons, Nat.succ_mul,
      Nat.add_comm]

/-- A fixed-size image of the values of `α`. -/
structure Layout (α : Type) where
  size : Nat
  encode : α → List UInt8
  decode : List UInt8 → α
  length_encode : ∀ a, (encode a).length = size
  decode_encode : ∀ a, decode (encode a) = a

namespace Layout
variable {α β : Type}

/-- A word of `n` bytes, for a type that embeds in the numbers below `256 ^ n`. -/
def word (n : Nat) (toNat : α → Nat) (ofNat : Nat → α)
    (bound : ∀ a, toNat a < 256 ^ n) (inverse : ∀ a, ofNat (toNat a) = a) : Layout α where
  size := n
  encode a := leBytes n (toNat a)
  decode bs := ofNat (leValue bs)
  length_encode a := length_leBytes n (toNat a)
  decode_encode a := by rw [leValue_leBytes, Nat.mod_eq_of_lt (bound a), inverse]

/-- One field after another. -/
def pair (L : Layout α) (M : Layout β) : Layout (α × β) where
  size := L.size + M.size
  encode a := L.encode a.1 ++ M.encode a.2
  decode bs := (L.decode (bs.take L.size), M.decode (bs.drop L.size))
  length_encode a := by rw [List.length_append, L.length_encode, M.length_encode]
  decode_encode a := by
    rw [List.take_left' (L.length_encode a.1), List.drop_left' (L.length_encode a.1),
      L.decode_encode, M.decode_encode]

/-- The same bytes for another type. -/
def iso (L : Layout α) (unpack : β → α) (pack : α → β) (inverse : ∀ b, pack (unpack b) = b) :
    Layout β where
  size := L.size
  encode b := L.encode (unpack b)
  decode bs := pack (L.decode bs)
  length_encode b := L.length_encode (unpack b)
  decode_encode b := by rw [L.decode_encode, inverse]

/-- Padding: written as zeros, ignored when read. -/
def padding (n : Nat) : Layout Unit where
  size := n
  encode _ := List.replicate n 0
  decode _ := ()
  length_encode _ := List.length_replicate
  decode_encode _ := rfl

/-- The `i`-th of equally long pieces. -/
theorem piece_flatMap (L : Layout α) (l : List α) (i : Nat) (hi : i < l.length) :
    ((l.flatMap L.encode).drop (i * L.size)).take L.size = L.encode l[i] := by
  induction l generalizing i with
  | nil => cases hi
  | cons a l ih =>
    cases i with
    | zero =>
      rw [Nat.zero_mul, List.drop_zero, List.flatMap_cons, List.take_left' (L.length_encode a)]
      rfl
    | succ i =>
      rw [List.flatMap_cons, Nat.succ_mul, Nat.add_comm, ← List.drop_drop,
        List.drop_left' (L.length_encode a)]
      exact ih i (Nat.lt_of_succ_lt_succ hi)

/-- An array of `n` elements. -/
def vector (n : Nat) (L : Layout α) : Layout (Vector α n) where
  size := n * L.size
  encode v := v.toList.flatMap L.encode
  decode bs := Vector.ofFn fun i => L.decode ((bs.drop (i * L.size)).take L.size)
  length_encode v := by rw [length_flatMap_const L.length_encode, Vector.length_toList]
  decode_encode v := by
    ext i hi
    rw [Vector.getElem_ofFn, L.piece_flatMap v.toList i (by rwa [Vector.length_toList]),
      L.decode_encode, Vector.getElem_toList]

def u8 : Layout UInt8 :=
  word 1 UInt8.toNat UInt8.ofNat UInt8.toNat_lt fun _ => UInt8.ofNat_toNat

/-- A byte is read from where it stands. -/
theorem u8_decode_take (bs : List UInt8) (i : Nat) :
    u8.decode ((bs.drop i).take 1) = bs.getD i 0 := by
  rw [List.getD_eq_getElem?_getD, ← List.head?_drop]
  cases bs.drop i with
  | nil => rfl
  | cons b rest =>
    show UInt8.ofNat (b.toNat + 256 * 0) = b
    exact UInt8.ofNat_toNat

def u32 : Layout UInt32 :=
  word 4 UInt32.toNat UInt32.ofNat UInt32.toNat_lt fun _ => UInt32.ofNat_toNat

def u64 : Layout UInt64 :=
  word 8 UInt64.toNat UInt64.ofNat UInt64.toNat_lt fun _ => UInt64.ofNat_toNat

def i64 : Layout Int64 := u64.iso Int64.toUInt64 UInt64.toInt64 fun _ => rfl

end Layout

/-- **A truncated sequence of images** is some whole ones, from the first on, and a piece
of the next one. -/
theorem exists_whole_of_isPrefix {α : Type} (encode : α → List UInt8) (l : List α)
    {bytes : List UInt8} (h : bytes <+: l.flatMap encode) :
    ∃ whole torn, bytes = whole.flatMap encode ++ torn ∧ whole <+: l ∧
      ((whole = l ∧ torn = []) ∨
        ∃ a, whole ++ [a] <+: l ∧ torn <+: encode a ∧ torn.length < (encode a).length) := by
  induction l generalizing bytes with
  | nil => exact ⟨[], [], List.prefix_nil.mp h, List.prefix_rfl, Or.inl ⟨rfl, rfl⟩⟩
  | cons a l ih =>
    rw [List.flatMap_cons] at h
    by_cases hlen : bytes.length < (encode a).length
    · refine ⟨[], bytes, rfl, List.nil_prefix, Or.inr ⟨a, ?_, ?_, hlen⟩⟩
      · exact ⟨l, rfl⟩
      · exact List.prefix_of_prefix_length_le h (List.prefix_append ..) (Nat.le_of_lt hlen)
    · -- the whole image of `a` is there
      obtain ⟨rest, rfl⟩ : encode a <+: bytes :=
        List.prefix_of_prefix_length_le (List.prefix_append ..) h (Nat.le_of_not_lt hlen)
      obtain ⟨whole, torn, hrest, hwhole, htorn⟩ := ih ((List.prefix_append_right_inj _).mp h)
      refine ⟨a :: whole, torn, ?_, List.cons_prefix_cons.mpr ⟨rfl, hwhole⟩, ?_⟩
      · rw [hrest, List.flatMap_cons, List.append_assoc]
      · rcases htorn with ⟨rfl, rfl⟩ | ⟨b, hb, hpiece⟩
        · exact Or.inl ⟨rfl, rfl⟩
        · exact Or.inr ⟨b, List.cons_prefix_cons.mpr ⟨rfl, hb⟩, hpiece⟩

end Bytes
