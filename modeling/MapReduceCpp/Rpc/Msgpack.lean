import MapReduceCpp.Rpc.Dispatcher
import Mathlib.Algebra.Order.Ring.Int
import Mathlib.Tactic.NormNum

/-!
# MapReduceCpp.Rpc.Msgpack

The bytes of a msgpack object.

`rpclib` carries its own copy of msgpack. The packer writes an integer in the shortest of
nine formats and a string, a binary, an extension, an array or a map behind its size; a
byte is a `char`, as everywhere in this model, and numbers are written with the highest
byte first. The sizes of an object are `uint32_t` and its integers have 64 bits (`Sized`).
-/

namespace MapReduceCpp.Rpc

/-! ### Bytes

A `char` is one of 256 values here as well, so `byte` and `uchar` take a remainder and are
inverse on bytes. The conversions of `sysdep.h` are written over numbers, the highest byte
first, and a negative number is stored as its two's complement: what `load` reads is the number
modulo the width, and `loadSigned` takes the representative around zero. -/

/-- A `char` with the given value. -/
def byte (n : ℕ) : Char := Char.ofNat (n % 256)

/-- The value of a `char` as an `unsigned char`. -/
def uchar (c : Char) : ℕ := c.toNat % 256

@[simp] theorem uchar_byte (n : ℕ) : uchar (byte n) = n % 256 := by
  have hlt : n % 256 < 256 := Nat.mod_lt _ (by decide)
  have hvalid : (n % 256).isValidChar := .inl (by omega)
  rw [uchar, byte, Char.ofNat, dif_pos hvalid]
  exact Nat.mod_eq_of_lt hlt

theorem uchar_lt (c : Char) : uchar c < 256 := Nat.mod_lt _ (by decide)

/-- The lowest bytes of a number, the highest of them first. -/
def bigEndian : ℕ → ℕ → Str
  | 0, _ => []
  | w + 1, n => byte (n / 256 ^ w) :: bigEndian w n

@[simp] theorem length_bigEndian (w n : ℕ) : (bigEndian w n).length = w := by
  induction w with
  | zero => rfl
  | succ w ih => rw [bigEndian, List.length_cons, ih]

/-- `_msgpack_store16` and the like: the two's complement of a number. -/
def store (w : ℕ) (d : ℤ) : Str := bigEndian w (d % 256 ^ w).toNat

@[simp] theorem length_store (w : ℕ) (d : ℤ) : (store w d).length = w := length_bigEndian _ _

/-- `load` of an unsigned type of as many bytes. -/
def load : Str → ℕ
  | [] => 0
  | c :: cs => uchar c * 256 ^ cs.length + load cs

/-- `load` of a signed type of as many bytes. -/
def loadSigned (bs : Str) : ℤ := Int.bmod (load bs) (256 ^ bs.length)

/-- What is read from so many bytes is a number of so many bytes. -/
theorem load_lt (bs : Str) : load bs < 256 ^ bs.length := by
  induction bs with
  | nil => decide
  | cons c cs ih =>
    have hc := Nat.mul_le_mul_right (256 ^ cs.length) (Nat.le_of_lt_succ (uchar_lt c))
    rw [load, List.length_cons, Nat.pow_succ]
    omega

/-- The bytes of a number give it back, as far as they reach. -/
theorem load_bigEndian (w n : ℕ) : load (bigEndian w n) = n % 256 ^ w := by
  induction w with
  | zero => rw [Nat.pow_zero, Nat.mod_one]; rfl
  | succ w ih =>
    rw [bigEndian, load, ih, uchar_byte, length_bigEndian, Nat.pow_succ, Nat.mod_mul,
      Nat.mul_comm (256 ^ w), Nat.add_comm]

/-- The unsigned reading of a stored number is its remainder, for negative ones too. -/
theorem load_store (w : ℕ) (d : ℤ) : (load (store w d) : ℤ) = d % 256 ^ w := by
  have hpos : (0 : ℤ) < 256 ^ w := by positivity
  have hnonneg := Int.emod_nonneg d hpos.ne'
  have hlt := Int.emod_lt_of_pos d hpos
  have hfits : (d % 256 ^ w).toNat < 256 ^ w :=
    (Int.toNat_lt hnonneg).mpr (by exact_mod_cast hlt)
  rw [store, load_bigEndian, Nat.mod_eq_of_lt hfits, Int.toNat_of_nonneg hnonneg]

/-- An unsigned number that fits is read as it was written. -/
theorem load_store_of_lt {w n : ℕ} (h : n < 256 ^ w) : load (store w n) = n := by
  have := load_store w n
  rw [Int.emod_eq_of_lt (Int.natCast_nonneg n) (by exact_mod_cast h)] at this
  exact_mod_cast this

/-- The signed reading is the number itself as soon as it is in the range of the type. -/
theorem loadSigned_store (w : ℕ) (d : ℤ) : loadSigned (store w d) = Int.bmod d (256 ^ w) := by
  have := Int.emod_bmod d (256 ^ w)
  rw [loadSigned, load_store, length_store]
  exact_mod_cast this

/-! ### The packer

Each format begins with a byte that tells it apart. The functions for the integer types are kept
apart as in `pack.hpp`, where each compares with the bounds of its own type only; that they
agree where their ranges meet is `packInt64_eq`, and everything that follows is then about
`packInt64` alone. -/

/-- `pack_imp_uint8`. -/
def packUint8 (d : ℤ) : Str := if d < 2 ^ 7 then store 1 d else byte 0xcc :: store 1 d

/-- `pack_imp_uint32`. -/
def packUint32 (d : ℤ) : Str :=
  if d < 2 ^ 8 then
    if d < 2 ^ 7 then store 1 d else byte 0xcc :: store 1 d
  else
    if d < 2 ^ 16 then byte 0xcd :: store 2 d else byte 0xce :: store 4 d

/-- `pack_imp_uint64`. -/
def packUint64 (d : ℤ) : Str :=
  if d < 2 ^ 8 then
    if d < 2 ^ 7 then store 1 d else byte 0xcc :: store 1 d
  else
    if d < 2 ^ 16 then byte 0xcd :: store 2 d
    else if d < 2 ^ 32 then byte 0xce :: store 4 d
    else byte 0xcf :: store 8 d

/-- `pack_imp_int32`. -/
def packInt32 (d : ℤ) : Str :=
  if d < -2 ^ 5 then
    if d < -2 ^ 15 then byte 0xd2 :: store 4 d
    else if d < -2 ^ 7 then byte 0xd1 :: store 2 d
    else byte 0xd0 :: store 1 d
  else if d < 2 ^ 7 then store 1 d
  else
    if d < 2 ^ 8 then byte 0xcc :: store 1 d
    else if d < 2 ^ 16 then byte 0xcd :: store 2 d
    else byte 0xce :: store 4 d

/-- `pack_imp_int64`. -/
def packInt64 (d : ℤ) : Str :=
  if d < -2 ^ 5 then
    if d < -2 ^ 15 then
      if d < -2 ^ 31 then byte 0xd3 :: store 8 d else byte 0xd2 :: store 4 d
    else
      if d < -2 ^ 7 then byte 0xd1 :: store 2 d else byte 0xd0 :: store 1 d
  else if d < 2 ^ 7 then store 1 d
  else
    if d < 2 ^ 16 then
      if d < 2 ^ 8 then byte 0xcc :: store 1 d else byte 0xcd :: store 2 d
    else
      if d < 2 ^ 32 then byte 0xce :: store 4 d else byte 0xcf :: store 8 d

/-- A size of two or four bytes behind its code. -/
def packSize (code16 code32 l : ℕ) : Str :=
  if l < 65536 then byte code16 :: store 2 l else byte code32 :: store 4 l

/-- `pack_array`. -/
def packArray (n : ℕ) : Str := if n < 16 then [byte (0x90 + n)] else packSize 0xdc 0xdd n

/-- `pack_map`. -/
def packMap (n : ℕ) : Str := if n < 16 then [byte (0x80 + n)] else packSize 0xde 0xdf n

/-- `pack_str`. -/
def packStr (l : ℕ) : Str :=
  if l < 32 then [byte (0xa0 + l)]
  else if l < 256 then byte 0xd9 :: store 1 l
  else packSize 0xda 0xdb l

/-- `pack_bin`. -/
def packBin (l : ℕ) : Str := if l < 256 then byte 0xc4 :: store 1 l else packSize 0xc5 0xc6 l

/-- `pack_ext`, but for the type. -/
def packExt (l : ℕ) : Str :=
  match l with
  | 1 => [byte 0xd4]
  | 2 => [byte 0xd5]
  | 4 => [byte 0xd6]
  | 8 => [byte 0xd7]
  | 16 => [byte 0xd8]
  | l => if l < 256 then byte 0xc7 :: store 1 l else packSize 0xc8 0xc9 l

mutual

/-- `pack` of an object. -/
def Obj.pack : Obj → Str
  | .nil => [byte 0xc0]
  | .boolean b => [byte (if b then 0xc3 else 0xc2)]
  | .integer n => if 0 ≤ n then packUint64 n else packInt64 n
  | .float32 bits => byte 0xca :: store 4 bits
  | .float64 bits => byte 0xcb :: store 8 bits
  | .str s => packStr s.length ++ s
  | .bin s => packBin s.length ++ s
  | .ext s => packExt (s.length - 1) ++ s
  | .array xs => packArray xs.length ++ Obj.packAll xs
  | .map kvs => packMap kvs.length ++ Obj.packKvs kvs

/-- The elements of an array, one behind the other. -/
def Obj.packAll : List Obj → Str
  | [] => []
  | x :: xs => x.pack ++ Obj.packAll xs

def Obj.packKvs : List (Obj × Obj) → Str
  | [] => []
  | (key, val) :: kvs => key.pack ++ val.pack ++ Obj.packKvs kvs

end

/-- The integers of all types are packed alike: an integer has one representation, whatever type
it came from. -/
theorem packInt64_eq {d : ℤ} : (0 ≤ d → packUint64 d = packInt64 d) ∧
    (0 ≤ d → d < 2 ^ 8 → packUint8 d = packInt64 d) ∧
    (0 ≤ d → d < 2 ^ 32 → packUint32 d = packInt64 d) ∧
    (-2 ^ 31 ≤ d → d < 2 ^ 31 → packInt32 d = packInt64 d) := by
  refine ⟨fun h => ?_, fun h h' => ?_, fun h h' => ?_, fun h h' => ?_⟩
  all_goals
    simp only [packUint64, packUint8, packUint32, packInt32, packInt64]
    grind

/-! ### What fits into an object

A size in an object is a `uint32_t`: a container of more elements never becomes an object,
since `checked_get_container_size` throws before it does. The data of an extension begins with
its type, which its size does not count. The depth is bounded by the unpacker only, which counts
the containers that are open, so the bound is stated over that number. -/

/-- The limit of an unpacker for the depth of an object, as for its sizes. -/
def depthLimit : ℕ := 0xffffffff

mutual

/-- The sizes and numbers of an object are in range, where so many containers are around
it. -/
def Obj.Sized (level : ℕ) : Obj → Prop
  | .nil | .boolean _ => True
  | .integer n => -2 ^ 63 ≤ n ∧ n < 2 ^ 64
  | .float32 bits => bits < 2 ^ 32
  | .float64 bits => bits < 2 ^ 64
  | .str s | .bin s => s.length < 2 ^ 32
  | .ext s => 0 < s.length ∧ s.length ≤ 2 ^ 32
  | .array xs => xs.length < 2 ^ 32 ∧ level < depthLimit ∧ Obj.AllSized (level + 1) xs
  | .map kvs => kvs.length < 2 ^ 32 ∧ level < depthLimit ∧ Obj.KvsSized (level + 1) kvs

def Obj.AllSized (level : ℕ) : List Obj → Prop
  | [] => True
  | x :: xs => x.Sized level ∧ Obj.AllSized level xs

def Obj.KvsSized (level : ℕ) : List (Obj × Obj) → Prop
  | [] => True
  | (key, val) :: kvs => key.Sized level ∧ val.Sized level ∧ Obj.KvsSized level kvs

end

end MapReduceCpp.Rpc
