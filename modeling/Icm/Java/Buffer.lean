import Icm.Lib.Run
import Icm.Stream.Blocks

/-!
# The Java buffer

Class `Buffer` of `icm4j/io/Buffer.java`: a byte array that grows, with a limit, a position and a
mark, after the model of `java.nio.ByteBuffer`.
-/

namespace Icm.Java

open Icm.Lib Icm.Stream List Except

inductive Abrupt
  | bufferUnderflow
  | illegalArgument
  | negativeArraySize
  | arrayIndexOutOfBounds
  | nullPointer
  | io
  | endless
  deriving DecidableEq, Repr

def toInt (n : ℤ) : ℤ := n.bmod (2 ^ 32)

structure Buffer where
  data : List UInt8
  limit : ℕ
  position : ℕ
  mark : Option ℕ
  order : ByteOrder
  size_lt : data.length < 2 ^ 31
  limit_le : limit ≤ data.length
  position_le : position ≤ data.length
  mark_le : ∀ m ∈ mark, m ≤ data.length
  deriving DecidableEq

/-- The loop of `enablePut`, after its first round: the length is shifted until it is enough. A
length of zero stays zero, and every shift drops two of its 32 bits, so that the loop goes on
forever if it has not ended after 17 rounds. -/
def growLoop (position length : ℤ) : ℕ → ℤ → Option ℤ
  | 0, _ => none
  | rounds + 1, newDataLength =>
    if length ≤ toInt (newDataLength - position) then some newDataLength
    else growLoop position length rounds (toInt (newDataLength * 4))

def newArray : Option ℤ → Except Abrupt ℕ
  | none => .error .endless
  | some newDataLength =>
    if newDataLength < 0 then .error .negativeArraySize else .ok newDataLength.toNat

def grown (capacity position length : ℕ) : Except Abrupt ℕ :=
  newArray (growLoop position length 17 (toInt (capacity * 4)))

theorem toInt_lt (n : ℤ) : toInt n < 2 ^ 31 := by
  have := Int.bmod_lt (x := n) (m := 2 ^ 32) (by decide)
  simpa [toInt] using this

theorem growLoop_lt {position length : ℤ} {rounds : ℕ} {n m : ℤ} (hn : n < 2 ^ 31)
    (h : growLoop position length rounds n = some m) : m < 2 ^ 31 := by
  induction rounds generalizing n with
  | zero => cases h
  | succ rounds ih =>
    rw [growLoop] at h
    split_ifs at h
    · exact Option.some.inj h ▸ hn
    · exact ih (toInt_lt _) h

theorem newArray_eq_ok {o : Option ℤ} {n : ℕ} (h : newArray o = .ok n) : o = some (n : ℤ) := by
  cases o with
  | none => cases h
  | some m =>
    rw [newArray] at h
    split_ifs at h with hneg
    have hn := ok.inj h
    rw [← hn, Int.toNat_of_nonneg (not_lt.mp hneg)]

variable {capacity position length n : ℕ}

theorem grown_lt (h : grown capacity position length = .ok n) :
    n < 2 ^ 31 := by
  have hlt := growLoop_lt (toInt_lt _) (newArray_eq_ok h)
  omega

namespace Buffer

def allocate (initialCapacity : ℕ) (h : initialCapacity < 2 ^ 31) (order : ByteOrder) : Buffer where
  data := replicate initialCapacity 0
  limit := initialCapacity
  position := 0
  mark := none
  order := order
  size_lt := by simpa using h
  limit_le := by simp
  position_le := Nat.zero_le _
  mark_le := by simp

variable (b : Buffer)

def remaining : ℤ := (b.limit : ℤ) - b.position

def grow (newDataLength : ℕ) : Except Abrupt Buffer :=
  if h : b.data.length ≤ newDataLength ∧ newDataLength < 2 ^ 31 then
    have hlen : (b.data ++ replicate (newDataLength - b.data.length) 0).length =
        newDataLength := by
      rw [length_append, length_replicate]
      omega
    .ok
      { b with
        data := b.data ++ replicate (newDataLength - b.data.length) 0
        limit := newDataLength
        size_lt := hlen.trans_lt h.2
        limit_le := hlen.ge
        position_le := (b.position_le.trans h.1).trans hlen.ge
        mark_le := fun m hm => ((b.mark_le m hm).trans h.1).trans hlen.ge }
  else .error .arrayIndexOutOfBounds

def enablePut (length : ℕ) : Except Abrupt Buffer :=
  if length ≤ b.remaining then .ok b
  else do b.grow (← grown b.data.length b.position length)

def store (bs : List UInt8) (h : b.position + bs.length ≤ b.data.length) : Buffer :=
  have hlen : (b.data.take b.position ++ bs ++ b.data.drop (b.position + bs.length)).length =
      b.data.length := by
    simp only [length_append, length_take, length_drop]
    omega
  { b with
    data := b.data.take b.position ++ bs ++ b.data.drop (b.position + bs.length)
    position := b.position + bs.length
    size_lt := hlen.trans_lt b.size_lt
    limit_le := hlen ▸ b.limit_le
    position_le := hlen ▸ h
    mark_le := fun m hm => hlen ▸ b.mark_le m hm }

def put (src : List UInt8) : Except Abrupt Buffer := do
  let b ← b.enablePut src.length
  if h : b.position + src.length ≤ b.data.length then .ok (b.store src h)
  else .error .arrayIndexOutOfBounds

def flip : Buffer :=
  { b with
    limit := b.position
    position := 0
    mark := none
    limit_le := b.position_le
    position_le := Nat.zero_le _
    mark_le := by simp }

def clear : Buffer :=
  { b with
    limit := b.data.length
    position := 0
    mark := none
    limit_le := le_rfl
    position_le := Nat.zero_le _
    mark_le := by simp }

def advance (n : ℕ) (h : b.position + n ≤ b.data.length) : Buffer :=
  { b with position := b.position + n, position_le := h }

def next : Except Abrupt (UInt8 × Buffer) :=
  if h : b.position < b.data.length then .ok (b.data[b.position], b.advance 1 h)
  else .error .arrayIndexOutOfBounds

def nexts : ℕ → Buffer → Except Abrupt (List UInt8 × Buffer)
  | 0, b => .ok ([], b)
  | n + 1, b => do
    let r ← b.next
    let rs ← nexts n r.2
    return (r.1 :: rs.1, rs.2)

def get (b : Buffer) : Except Abrupt (UInt8 × Buffer) :=
  if b.limit ≤ b.position then .error .bufferUnderflow else b.next

def getArray (b : Buffer) (dst : List UInt8) : Except Abrupt (List UInt8 × Buffer) :=
  if dst.length = 0 then .error .illegalArgument
  else if b.limit < b.position then .error .arrayIndexOutOfBounds
  else
    let length := min dst.length (b.limit - b.position)
    .ok ((b.data.drop b.position).take length ++ dst.drop length,
      b.advance length (by have := b.limit_le; have := b.position_le; omega))

def inOrder (order : ByteOrder) (bs : List UInt8) : List UInt8 :=
  match order with
  | .big => bs
  | .little => bs.reverse

def lowByte {w : ℕ} (x : BitVec w) : UInt8 := ⟨x.setWidth 8⟩

def word (w : ℕ) (x : UInt8) : BitVec w := x.toBitVec.setWidth w

def putShort (b : Buffer) (value : BitVec 16) : Except Abrupt Buffer :=
  b.put (inOrder b.order
    [lowByte (value.signExtend 32 >>> 8), lowByte (value.signExtend 32)])

def putInt (b : Buffer) (value : BitVec 32) : Except Abrupt Buffer :=
  b.put (inOrder b.order
    [lowByte (value >>> 24), lowByte (value >>> 16), lowByte (value >>> 8), lowByte value])

def putLong (b : Buffer) (value : BitVec 64) : Except Abrupt Buffer :=
  b.put (inOrder b.order
    [lowByte (value >>> 56), lowByte (value >>> 48), lowByte (value >>> 40), lowByte (value >>> 32),
      lowByte (value >>> 24), lowByte (value >>> 16), lowByte (value >>> 8), lowByte value])

def shortOf : List UInt8 → BitVec 16
  | [b1, b2] => ((word 32 b1 <<< 8) + word 32 b2).setWidth 16
  | _ => 0

def intOf : List UInt8 → BitVec 32
  | [b1, b2, b3, b4] =>
    (word 32 b1 <<< 24) + (word 32 b2 <<< 16) + (word 32 b3 <<< 8) + word 32 b4
  | _ => 0

def longOf : List UInt8 → BitVec 64
  | [b1, b2, b3, b4, b5, b6, b7, b8] =>
    (word 64 b1 <<< 56) + (word 64 b2 <<< 48) + (word 64 b3 <<< 40) + (word 64 b4 <<< 32) +
      (word 32 b5 <<< 24).signExtend 64 + (word 32 b6 <<< 16).signExtend 64 +
      (word 32 b7 <<< 8).signExtend 64 + (word 32 b8).signExtend 64
  | _ => 0

def getShort (b : Buffer) : Except Abrupt (BitVec 16 × Buffer) :=
  if b.remaining < 2 then .error .bufferUnderflow
  else do
    let r ← b.nexts 2
    return (shortOf (inOrder b.order r.1), r.2)

def getInt (b : Buffer) : Except Abrupt (BitVec 32 × Buffer) :=
  if b.remaining < 4 then .error .bufferUnderflow
  else do
    let r ← b.nexts 4
    return (intOf (inOrder b.order r.1), r.2)

def getLong (b : Buffer) : Except Abrupt (BitVec 64 × Buffer) := do
  let r ← b.nexts 8
  return (longOf (inOrder b.order r.1), r.2)

def FloatNaN (x : BitVec 32) : Prop := 0x7f800000 < x.toNat % 2 ^ 31

def DoubleNaN (x : BitVec 64) : Prop := 0x7ff0000000000000 < x.toNat % 2 ^ 63

instance (x : BitVec 32) : Decidable (FloatNaN x) := inferInstanceAs (Decidable (_ < _))

instance (x : BitVec 64) : Decidable (DoubleNaN x) := inferInstanceAs (Decidable (_ < _))

def floatToIntBits (x : BitVec 32) : BitVec 32 := if FloatNaN x then 0x7fc00000 else x

def doubleToLongBits (x : BitVec 64) : BitVec 64 := if DoubleNaN x then 0x7ff8000000000000 else x

def putFloat (b : Buffer) (value : BitVec 32) : Except Abrupt Buffer :=
  b.putInt (floatToIntBits value)

def putDouble (b : Buffer) (value : BitVec 64) : Except Abrupt Buffer :=
  b.putLong (doubleToLongBits value)

def putChar (b : Buffer) (value : BitVec 16) : Except Abrupt Buffer := b.putShort value

end Buffer

inductive Put
  | byte (x : UInt8)
  | short (x : BitVec 16)
  | int (x : BitVec 32)
  | long (x : BitVec 64)
  | char (x : BitVec 16)
  | float (x : BitVec 32)
  | double (x : BitVec 64)
  | bytes (xs : List UInt8)
  deriving DecidableEq, Repr

inductive Get
  | byte | short | int | long | char | float | double
  | bytes (n : ℕ)
  deriving DecidableEq, Repr

def Put.get : Put → Get
  | .byte _ => .byte
  | .short _ => .short
  | .int _ => .int
  | .long _ => .long
  | .char _ => .char
  | .float _ => .float
  | .double _ => .double
  | .bytes xs => .bytes xs.length

namespace Buffer

def putOne (b : Buffer) : Put → Except Abrupt Buffer
  | .byte x => b.put [x]
  | .short x => b.putShort x
  | .int x => b.putInt x
  | .long x => b.putLong x
  | .char x => b.putChar x
  | .float x => b.putFloat x
  | .double x => b.putDouble x
  | .bytes xs => b.put xs

def getOne (b : Buffer) : Get → Except Abrupt (Put × Buffer)
  | .byte => return (← b.get).map .byte id
  | .short => return (← b.getShort).map .short id
  | .int => return (← b.getInt).map .int id
  | .long => return (← b.getLong).map .long id
  | .char => return (← b.getShort).map .char id
  | .float => return (← b.getInt).map .float id
  | .double => return (← b.getLong).map .double id
  | .bytes n => return (← b.getArray (replicate n 0)).map .bytes id

def putAll : List Put → Buffer → Except Abrupt Buffer
  | [], b => .ok b
  | p :: ps, b => do putAll ps (← b.putOne p)

def getAll : List Get → Buffer → Except Abrupt (List Put × Buffer)
  | [], b => .ok ([], b)
  | g :: gs, b => do
    let r ← b.getOne g
    let rs ← getAll gs r.2
    return (r.1 :: rs.1, rs.2)

end Buffer

namespace Buffer

theorem lowByte_eq {w : ℕ} (x : BitVec w) : lowByte x = UInt8.ofNat x.toNat := by
  apply UInt8.toNat_inj.mp
  simp [lowByte]

theorem toNat_word {w : ℕ} (x : UInt8) (hw : 8 ≤ w) : (word w x).toNat = x.toNat := by
  have hx : x.toNat < 256 := x.toNat_lt
  have hpow : 2 ^ 8 ≤ 2 ^ w := Nat.pow_le_pow_right (by decide) hw
  simp only [word, BitVec.toNat_setWidth, UInt8.toNat_toBitVec]
  exact Nat.mod_eq_of_lt (by omega)

theorem inOrder_reverse_leBytes (order : ByteOrder) (w x : ℕ) :
    inOrder order (leBytes w x).reverse = order.image w x := by
  cases order <;> simp [inOrder, ByteOrder.image]

theorem inOrder_image (order : ByteOrder) (w x : ℕ) :
    inOrder order (order.image w x) = (leBytes w x).reverse := by
  cases order <;> simp [inOrder, ByteOrder.image]

theorem intBytes_eq (x : BitVec 32) :
    [lowByte (x >>> 24), lowByte (x >>> 16), lowByte (x >>> 8), lowByte x] =
      (leBytes 4 x.toNat).reverse := by
  simp [leBytes, lowByte_eq, Nat.shiftRight_eq_div_pow, Nat.div_div_eq_div_mul]

theorem longBytes_eq (x : BitVec 64) :
    [lowByte (x >>> 56), lowByte (x >>> 48), lowByte (x >>> 40), lowByte (x >>> 32),
      lowByte (x >>> 24), lowByte (x >>> 16), lowByte (x >>> 8), lowByte x] =
      (leBytes 8 x.toNat).reverse := by
  simp [leBytes, lowByte_eq, Nat.shiftRight_eq_div_pow, Nat.div_div_eq_div_mul]

theorem shortBytes_eq (x : BitVec 16) :
    [lowByte (x.signExtend 32 >>> 8), lowByte (x.signExtend 32)] =
      (leBytes 2 x.toNat).reverse := by
  have hx := x.isLt
  have hext : (x.signExtend 32).toNat = x.toNat + if x.msb then 2 ^ 32 - 2 ^ 16 else 0 := by
    rw [BitVec.toNat_signExtend, BitVec.toNat_setWidth, Nat.mod_eq_of_lt (by omega)]
  have hhigh : lowByte (x.signExtend 32 >>> 8) = UInt8.ofNat (x.toNat / 256) := by
    rw [lowByte_eq, BitVec.toNat_ushiftRight, hext, Nat.shiftRight_eq_div_pow]
    apply UInt8.toNat_inj.mp
    simp only [UInt8.toNat_ofNat']
    split_ifs <;> omega
  have hlow : lowByte (x.signExtend 32) = UInt8.ofNat x.toNat := by
    rw [lowByte_eq, hext]
    apply UInt8.toNat_inj.mp
    simp only [UInt8.toNat_ofNat']
    split_ifs <;> omega
  rw [hhigh, hlow]
  rfl

theorem shortOf_bytes (x : BitVec 16) : shortOf (leBytes 2 x.toNat).reverse = x := by
  apply BitVec.eq_of_toNat_eq
  have hx := x.isLt
  simp [leBytes, shortOf, toNat_word, Nat.shiftLeft_eq]
  omega

theorem intOf_bytes (x : BitVec 32) : intOf (leBytes 4 x.toNat).reverse = x := by
  apply BitVec.eq_of_toNat_eq
  have hx := x.isLt
  simp [leBytes, intOf, toNat_word, Nat.shiftLeft_eq]
  omega

theorem toNat_promoted (x : UInt8) {k : ℕ} (hk : k ≤ 24) :
    ((word 32 x <<< k).signExtend 64).toNat =
      x.toNat * 2 ^ k + if 2 ^ 31 ≤ x.toNat * 2 ^ k then 2 ^ 64 - 2 ^ 32 else 0 := by
  have hx : x.toNat < 256 := x.toNat_lt
  have hpow : 2 ^ k ≤ 2 ^ 24 := Nat.pow_le_pow_right (by decide) hk
  have hlt : x.toNat * 2 ^ k < 2 ^ 32 := by nlinarith
  have hshift : (word 32 x <<< k).toNat = x.toNat * 2 ^ k := by
    rw [BitVec.toNat_shiftLeft, toNat_word x (by decide), Nat.shiftLeft_eq, Nat.mod_eq_of_lt hlt]
  have hmsb : (word 32 x <<< k).msb = decide (2 ^ 31 ≤ x.toNat * 2 ^ k) := by
    rw [BitVec.msb_eq_decide, hshift]
  rw [BitVec.toNat_signExtend, BitVec.toNat_setWidth, hshift, hmsb, Nat.mod_eq_of_lt (by omega)]
  simp

theorem toNat_promoted_of_le (x : UInt8) {k : ℕ} (hk : k ≤ 16) :
    ((word 32 x <<< k).signExtend 64).toNat = x.toNat * 2 ^ k := by
  have hx : x.toNat < 256 := x.toNat_lt
  have hpow : 2 ^ k ≤ 2 ^ 16 := Nat.pow_le_pow_right (by decide) hk
  rw [toNat_promoted x (by omega), if_neg (by nlinarith), Nat.add_zero]

theorem toNat_longOf (b1 b2 b3 b4 b5 b6 b7 b8 : UInt8) :
    (longOf [b1, b2, b3, b4, b5, b6, b7, b8]).toNat =
      (b1.toNat * 2 ^ 56 + b2.toNat * 2 ^ 48 + b3.toNat * 2 ^ 40 + b4.toNat * 2 ^ 32 +
        (b5.toNat * 2 ^ 24 + if 2 ^ 31 ≤ b5.toNat * 2 ^ 24 then 2 ^ 64 - 2 ^ 32 else 0) +
        b6.toNat * 2 ^ 16 + b7.toNat * 2 ^ 8 + b8.toNat) % 2 ^ 64 := by
  have hlow : (word 32 b8).signExtend 64 = (word 32 b8 <<< 0).signExtend 64 := by simp
  rw [longOf, hlow]
  simp only [BitVec.toNat_add, toNat_promoted b5 le_rfl, toNat_promoted_of_le b6 le_rfl,
    toNat_promoted_of_le b7 (show 8 ≤ 16 by decide),
    toNat_promoted_of_le b8 (show 0 ≤ 16 by decide), BitVec.toNat_shiftLeft,
    toNat_word _ (show 8 ≤ 64 by decide), Nat.shiftLeft_eq, Nat.mod_add_mod, Nat.add_mod_mod,
    pow_zero, Nat.mul_one]

def longBack (x : BitVec 64) : BitVec 64 :=
  if x.toNat % 2 ^ 32 < 2 ^ 31 then x else x - 0x100000000#64

theorem longOf_bytes (x : BitVec 64) : longOf (leBytes 8 x.toNat).reverse = longBack x := by
  have hx := x.isLt
  have hlist : (leBytes 8 x.toNat).reverse =
      [UInt8.ofNat (x.toNat / 2 ^ 56), UInt8.ofNat (x.toNat / 2 ^ 48),
        UInt8.ofNat (x.toNat / 2 ^ 40), UInt8.ofNat (x.toNat / 2 ^ 32),
        UInt8.ofNat (x.toNat / 2 ^ 24), UInt8.ofNat (x.toNat / 2 ^ 16),
        UInt8.ofNat (x.toNat / 2 ^ 8), UInt8.ofNat x.toNat] := by
    simp [leBytes, Nat.div_div_eq_div_mul]
  apply BitVec.eq_of_toNat_eq
  rw [hlist, toNat_longOf, longBack]
  simp only [UInt8.toNat_ofNat', apply_ite BitVec.toNat, BitVec.toNat_sub, BitVec.toNat_ofNat]
  split_ifs <;> omega

theorem longBack_eq_iff (x : BitVec 64) : longBack x = x ↔ x.toNat % 2 ^ 32 < 2 ^ 31 := by
  unfold longBack
  split_ifs with h
  · exact iff_of_true rfl h
  · refine iff_of_false (fun heq => ?_) h
    have hx := x.isLt
    have hnat := congrArg BitVec.toNat heq
    rw [BitVec.toNat_sub, BitVec.toNat_ofNat] at hnat
    omega

end Buffer

def Put.encode (order : ByteOrder) : Put → List UInt8
  | .byte x => [x]
  | .short x => order.image 2 x.toNat
  | .int x => order.image 4 x.toNat
  | .long x => order.image 8 x.toNat
  | .char x => order.image 2 x.toNat
  | .float x => order.image 4 (Buffer.floatToIntBits x).toNat
  | .double x => order.image 8 (Buffer.doubleToLongBits x).toNat
  | .bytes xs => xs

def Put.size : Put → ℕ
  | .byte _ => 1
  | .short _ => 2
  | .int _ => 4
  | .long _ => 8
  | .char _ => 2
  | .float _ => 4
  | .double _ => 8
  | .bytes xs => xs.length

theorem Put.length_encode (order : ByteOrder) (p : Put) : (p.encode order).length = p.size := by
  cases p <;> simp [encode, size]

def Put.back : Put → Option Put
  | .long x => some (.long (Buffer.longBack x))
  | .float x => some (.float (Buffer.floatToIntBits x))
  | .double x => some (.double (Buffer.longBack (Buffer.doubleToLongBits x)))
  | .bytes xs => if xs = [] then none else some (.bytes xs)
  | p => some p

def Put.NaN : Put → Prop
  | .float x => Buffer.FloatNaN x
  | .double x => Buffer.DoubleNaN x
  | _ => False

def Put.Returned : Put → Prop
  | .long x => x.toNat % 2 ^ 32 < 2 ^ 31
  | .double x => x.toNat % 2 ^ 32 < 2 ^ 31
  | .bytes xs => xs ≠ []
  | _ => True

instance (p : Put) : Decidable p.NaN := by
  unfold Put.NaN
  split <;> infer_instance

instance (p : Put) : Decidable p.Returned := by
  unfold Put.Returned
  split <;> infer_instance

theorem Put.back_eq_iff {p : Put} (h : ¬ p.NaN) : p.back = some p ↔ p.Returned := by
  cases p with
  | long x => simp [back, Returned, Buffer.longBack_eq_iff]
  | float x =>
    have hbits : Buffer.floatToIntBits x = x := if_neg h
    simp [back, Returned, hbits]
  | double x =>
    have hbits : Buffer.doubleToLongBits x = x := if_neg h
    simp [back, Returned, hbits, Buffer.longBack_eq_iff]
  | bytes xs => by_cases hxs : xs = [] <;> simp [back, Returned, hxs]
  | _ => simp [back, Returned]

namespace Buffer

theorem putOne_eq (b : Buffer) (p : Put) : b.putOne p = b.put (p.encode b.order) := by
  cases p with
  | byte x => rfl
  | bytes xs => rfl
  | short x =>
    exact congrArg b.put (by rw [shortBytes_eq, inOrder_reverse_leBytes, Put.encode])
  | char x =>
    exact congrArg b.put (by rw [shortBytes_eq, inOrder_reverse_leBytes, Put.encode])
  | int x => exact congrArg b.put (by rw [intBytes_eq, inOrder_reverse_leBytes, Put.encode])
  | float x => exact congrArg b.put (by rw [intBytes_eq, inOrder_reverse_leBytes, Put.encode])
  | long x => exact congrArg b.put (by rw [longBytes_eq, inOrder_reverse_leBytes, Put.encode])
  | double x => exact congrArg b.put (by rw [longBytes_eq, inOrder_reverse_leBytes, Put.encode])

end Buffer

def shifted (n : ℤ) (k : ℕ) : ℤ := toInt (n * 4 ^ k)

theorem toInt_mul (n m : ℤ) : toInt (toInt n * m) = toInt (n * m) := by
  simp [toInt]

theorem growLoop_eq_none_iff {position length : ℤ} {rounds : ℕ} {n : ℤ} :
    growLoop position length rounds (toInt n) = none ↔
      ∀ k < rounds, ¬ length ≤ toInt (shifted n k - position) := by
  induction rounds generalizing n with
  | zero => simp [growLoop]
  | succ rounds ih =>
    have hshift (k : ℕ) : shifted (n * 4) k = shifted n (k + 1) := by
      rw [shifted, shifted, pow_succ', mul_assoc]
    rw [growLoop, Nat.forall_lt_succ_left, toInt_mul]
    have hzero : shifted n 0 = toInt n := by rw [shifted, pow_zero, mul_one]
    rw [hzero]
    split_ifs with h
    · simp [h]
    · rw [ih]
      simp [h, hshift]

def reserve (capacity position length : ℕ) : Except Abrupt ℕ :=
  if position + length ≤ capacity then .ok capacity else grown capacity position length

def reserveAll : List ℕ → ℕ → ℕ → Except Abrupt ℕ
  | [], capacity, _ => .ok capacity
  | n :: ns, capacity, position => do
    reserveAll ns (← reserve capacity position n) (position + n)

theorem toInt_of_abs_lt {n : ℤ} (hlow : -2 ^ 31 ≤ n) (hhigh : n < 2 ^ 31) : toInt n = n := by
  rw [toInt, Int.bmod_eq_of_le] <;> simp <;> omega

theorem growLoop_fits {position length rounds : ℕ} {n m : ℤ} (hposition : position < 2 ^ 31)
    (hm : 0 ≤ m) (hn : n < 2 ^ 31) (h : growLoop position length rounds n = some m) :
    position + length ≤ m := by
  induction rounds generalizing n with
  | zero => cases h
  | succ rounds ih =>
    rw [growLoop] at h
    split_ifs at h with hfit
    · cases h
      rw [toInt_of_abs_lt (by omega) (by omega)] at hfit
      omega
    · exact ih (toInt_lt _) h

theorem reserve_fits (hposition : position < 2 ^ 31)
    (h : reserve capacity position length = .ok n) : position + length ≤ n ∧ capacity ≤ n := by
  unfold reserve at h
  split_ifs at h with hfit
  · cases h
    exact ⟨hfit, le_rfl⟩
  · have := growLoop_fits hposition (Int.natCast_nonneg n) (toInt_lt _) (newArray_eq_ok h)
    omega

theorem le_mul_four_pow (c k : ℕ) : c ≤ c * 4 ^ k :=
  Nat.le_mul_of_pos_right c (Nat.pow_pos (by decide))

theorem growLoop_reaches {position length rounds k c : ℕ} (hposition : position < 2 ^ 31)
    (hc : c * 4 ^ k < 2 ^ 31) (hfit : position + length ≤ c * 4 ^ k) (hk : k < rounds) :
    ∃ j ≤ k, growLoop position length rounds c = some ((c * 4 ^ j : ℕ) : ℤ) := by
  induction k generalizing c rounds with
  | zero =>
    obtain ⟨rounds, rfl⟩ := Nat.exists_eq_succ_of_ne_zero (Nat.pos_iff_ne_zero.mp hk)
    rw [pow_zero, Nat.mul_one] at hc hfit
    refine ⟨0, le_rfl, ?_⟩
    rw [growLoop, toInt_of_abs_lt (by omega) (by omega), if_pos (by omega), pow_zero, Nat.mul_one]
  | succ k ih =>
    obtain ⟨rounds, rfl⟩ := Nat.exists_eq_succ_of_ne_zero (Nat.ne_zero_of_lt hk)
    rw [growLoop]
    split_ifs with h
    · exact ⟨0, Nat.zero_le _, by rw [pow_zero, Nat.mul_one]⟩
    · rw [pow_succ', ← Nat.mul_assoc] at hc hfit
      have hlt := lt_of_le_of_lt (le_mul_four_pow (c * 4) k) hc
      obtain ⟨j, hj, hloop⟩ := ih hc hfit (Nat.lt_of_succ_lt_succ hk)
      refine ⟨j + 1, Nat.succ_le_succ hj, ?_⟩
      rw [toInt_of_abs_lt (by omega) (by omega)]
      rw [pow_succ', ← Nat.mul_assoc, ← hloop]
      push_cast
      rfl

theorem reserve_of_le {capacity position length k : ℕ} (hpos : 0 < capacity)
    (hk : capacity * 4 ^ k < 2 ^ 31) (hfit : position + length ≤ capacity * 4 ^ k) :
    ∃ j ≤ k, reserve capacity position length = .ok (capacity * 4 ^ j) := by
  unfold reserve
  split_ifs with h
  · exact ⟨0, Nat.zero_le k, by rw [pow_zero, Nat.mul_one]⟩
  · obtain ⟨k, rfl⟩ : ∃ i, k = i + 1 := by
      refine Nat.exists_eq_succ_of_ne_zero fun hzero => h ?_
      rwa [hzero, pow_zero, Nat.mul_one] at hfit
    have hk16 : k < 17 := by
      by_contra hge
      have hpow : 4 ^ 18 ≤ 4 ^ (k + 1) := Nat.pow_le_pow_right (by decide) (by omega)
      have := Nat.le_mul_of_pos_left (4 ^ (k + 1)) hpos
      omega
    rw [pow_succ', ← Nat.mul_assoc] at hk hfit
    have hlt := lt_of_le_of_lt (le_mul_four_pow (capacity * 4) k) hk
    obtain ⟨j, hj, hloop⟩ := growLoop_reaches (by omega) hk hfit hk16
    refine ⟨j + 1, Nat.succ_le_succ hj, ?_⟩
    rw [grown, toInt_of_abs_lt (by omega) (by omega)]
    push_cast at hloop
    rw [hloop, newArray, if_neg (not_lt.mpr (by positivity)), pow_succ', ← Nat.mul_assoc]
    exact congrArg ok (by zify; rw [Int.toNat_of_nonneg (by positivity)])

theorem reserveAll_of_le {ns : List ℕ} {capacity position k : ℕ} (hpos : 0 < capacity)
    (hk : capacity * 4 ^ k < 2 ^ 31)
    (hfit : position + ns.sum ≤ capacity * 4 ^ k) :
    ∃ j ≤ k, reserveAll ns capacity position = .ok (capacity * 4 ^ j) := by
  induction ns generalizing capacity position k with
  | nil => exact ⟨0, Nat.zero_le k, by simp [reserveAll]⟩
  | cons n ns ih =>
    rw [sum_cons, ← Nat.add_assoc] at hfit
    have hlt := lt_of_le_of_lt (le_mul_four_pow capacity k) hk
    obtain ⟨j, hj, hreserve⟩ :=
      reserve_of_le hpos hk (Nat.le_trans (Nat.le_add_right _ _) hfit)
    obtain ⟨-, hle⟩ := reserve_fits (by omega) hreserve
    obtain ⟨i, rfl⟩ := Nat.exists_eq_add_of_le hj
    rw [pow_add, ← Nat.mul_assoc] at hk hfit
    obtain ⟨l, hl, hrest⟩ := ih (Nat.lt_of_lt_of_le hpos hle) hk hfit
    refine ⟨j + l, by omega, bind_eq_ok.mpr ⟨_, hreserve, ?_⟩⟩
    rw [hrest, pow_add, Nat.mul_assoc]

namespace Buffer

structure Filling (b : Buffer) (bs : List UInt8) : Prop where
  limit_eq : b.limit = b.data.length
  written : b.data.take b.position = bs

variable {b : Buffer} {bs : List UInt8}

theorem Filling.position_eq (h : b.Filling bs) :
    b.position = bs.length := by
  rw [← h.written, length_take, Nat.min_eq_left b.position_le]

theorem allocate_filling (initialCapacity : ℕ) (h : initialCapacity < 2 ^ 31) (order : ByteOrder) :
    (allocate initialCapacity h order).Filling [] :=
  ⟨by simp [allocate], rfl⟩

theorem clear_filling (b : Buffer) : b.clear.Filling [] := ⟨rfl, rfl⟩

variable {b : Buffer} {bs : List UInt8}

theorem enablePut_eq (h : b.Filling bs) (n : ℕ) :
    b.enablePut n = if b.position + n ≤ b.data.length then .ok b
      else (grown b.data.length b.position n).bind b.grow := by
  have hiff : (n : ℤ) ≤ b.remaining ↔ b.position + n ≤ b.data.length := by
    rw [remaining, h.limit_eq]
    omega
  simp only [enablePut, hiff]
  rfl

theorem enablePut_of_error (h : b.Filling bs) {n : ℕ} {e : Abrupt}
    (he : reserve b.data.length bs.length n = .error e) : b.enablePut n = .error e := by
  rw [← h.position_eq, reserve] at he
  rw [enablePut_eq h]
  split_ifs at he ⊢
  rw [he]
  rfl

theorem enablePut_of_ok (h : b.Filling bs) {n c : ℕ}
    (hc : reserve b.data.length bs.length n = .ok c) :
    ∃ b', b.enablePut n = .ok b' ∧ b'.Filling bs ∧ b'.data.length = c ∧ b'.order = b.order := by
  rw [← h.position_eq] at hc
  obtain ⟨-, hcap⟩ := reserve_fits (lt_of_le_of_lt b.position_le b.size_lt) hc
  rw [reserve] at hc
  rw [enablePut_eq h]
  split_ifs at hc ⊢
  · cases hc
    exact ⟨b, rfl, h, rfl, rfl⟩
  · have hlen : (b.data ++ replicate (c - b.data.length) 0).length = c := by
      rw [length_append, length_replicate]
      omega
    rw [hc]
    refine ⟨_, dif_pos ⟨hcap, grown_lt hc⟩, ⟨hlen.symm, ?_⟩, hlen, rfl⟩
    rw [take_append_of_le_length b.position_le, h.written]

variable {src : List UInt8}

theorem put_of_error (h : b.Filling bs)
    {e : Abrupt} (he : reserve b.data.length bs.length src.length = .error e) :
    b.put src = .error e := by
  rw [put, enablePut_of_error h he]
  rfl

theorem Filling.store (h : b.Filling bs)
    (hroom : b.position + src.length ≤ b.data.length) :
    (b.store src hroom).Filling (bs ++ src) ∧
      (b.store src hroom).data.length = b.data.length := by
  have hlen : (b.store src hroom).data.length = b.data.length := by
    simp only [Buffer.store, length_append, length_take, length_drop]
    omega
  refine ⟨⟨h.limit_eq.trans hlen.symm, ?_⟩, hlen⟩
  have htake : (b.data.take b.position ++ src).length = b.position + src.length := by
    rw [length_append, length_take, Nat.min_eq_left b.position_le]
  change (b.data.take b.position ++ src ++ _).take (b.position + src.length) = _
  rw [← htake, take_left, h.written]

theorem put_of_ok (h : b.Filling bs) {c : ℕ}
    (hc : reserve b.data.length bs.length src.length = .ok c) :
    ∃ b', b.put src = .ok b' ∧ b'.Filling (bs ++ src) ∧ b'.data.length = c ∧
      b'.order = b.order := by
  obtain ⟨b₁, hput, h₁, hlen, horder⟩ := enablePut_of_ok h hc
  have hfits := (reserve_fits (h.position_eq ▸ lt_of_le_of_lt b.position_le b.size_lt) hc).1
  have hroom : b₁.position + src.length ≤ b₁.data.length := by
    rw [h₁.position_eq, hlen]
    exact hfits
  obtain ⟨hfill, hdata⟩ := h₁.store hroom
  refine ⟨b₁.store src hroom, ?_, hfill, hdata.trans hlen, horder⟩
  rw [put, hput]
  exact dif_pos hroom

variable {ps : List Put}

theorem putAll_of_ok (h : b.Filling bs) {c : ℕ}
    (hc : reserveAll (ps.map fun p => (p.encode b.order).length) b.data.length bs.length = .ok c) :
    ∃ b', putAll ps b = .ok b' ∧ b'.Filling (bs ++ ps.flatMap (Put.encode b.order)) ∧
      b'.data.length = c ∧ b'.order = b.order := by
  induction ps generalizing b bs with
  | nil => exact ⟨b, rfl, by simpa using h, ok.inj hc, rfl⟩
  | cons p ps ih =>
    obtain ⟨c₁, hc₁, hrest⟩ := bind_eq_ok.mp hc
    obtain ⟨b₁, hput, h₁, rfl, horder⟩ := put_of_ok h hc₁
    rw [← length_append] at hrest
    obtain ⟨b', hputs, h', hlen, horder'⟩ := ih h₁ (by rw [horder]; exact hrest)
    refine ⟨b', ?_, ?_, hlen, horder'.trans horder⟩
    · exact bind_eq_ok.mpr ⟨b₁, (putOne_eq b p).trans hput, hputs⟩
    · rwa [append_assoc, horder] at h'

theorem putAll_of_error (h : b.Filling bs)
    {e : Abrupt}
    (he : reserveAll (ps.map fun p => (p.encode b.order).length) b.data.length bs.length =
      .error e) : putAll ps b = .error e := by
  induction ps generalizing b bs with
  | nil => cases he
  | cons p ps ih =>
    rw [putAll, putOne_eq]
    rw [map_cons, reserveAll] at he
    cases hc : reserve b.data.length bs.length (p.encode b.order).length with
    | error e' =>
      rw [hc] at he
      rw [put_of_error h hc]
      exact congrArg error (error.inj he)
    | ok c =>
      rw [hc] at he
      obtain ⟨b₁, hput, h₁, rfl, horder⟩ := put_of_ok h hc
      rw [hput]
      refine ih h₁ ?_
      rw [horder, length_append]
      exact he

structure Reading (b : Buffer) (bs : List UInt8) : Prop where
  ahead : (b.data.take b.limit).drop b.position = bs
  position_le : b.position ≤ b.limit

theorem Filling.flip (h : b.Filling bs) : b.flip.Reading bs :=
  ⟨h.written, Nat.zero_le _⟩

namespace Reading

variable {b : Buffer} {as bs : List UInt8}

theorem limit_eq (h : b.Reading bs) : b.limit = b.position + bs.length := by
  have := h.position_le
  have := b.limit_le
  rw [← h.ahead, length_drop, length_take]
  omega

theorem take_drop (h : b.Reading (as ++ bs)) : (b.data.drop b.position).take as.length = as := by
  have hahead := h.ahead
  rw [drop_take] at hahead
  have htake := congrArg (take as.length) hahead
  have hlimit := h.limit_eq
  rw [length_append] at hlimit
  rwa [take_take, take_left, Nat.min_eq_left (by omega)] at htake

theorem advance (h : b.Reading (as ++ bs)) (hle : b.position + as.length ≤ b.data.length) :
    (b.advance as.length hle).Reading bs := by
  have hlimit := h.limit_eq
  rw [length_append] at hlimit
  refine ⟨?_, by change b.position + as.length ≤ b.limit; omega⟩
  change (b.data.take b.limit).drop (b.position + as.length) = bs
  rw [← drop_drop, h.ahead, drop_left]

theorem next {x : UInt8} (h : b.Reading (x :: bs)) :
    ∃ b', b.next = .ok (x, b') ∧ b'.Reading bs ∧ b'.order = b.order := by
  have hlimit := h.limit_eq
  rw [length_cons] at hlimit
  have hlt : b.position < b.data.length := by have := b.limit_le; omega
  have hx : b.data[b.position] = x := by
    have htake := take_drop (show b.Reading ([x] ++ bs) from h)
    rw [drop_eq_getElem_cons hlt] at htake
    exact head_eq_of_cons_eq htake
  refine ⟨b.advance 1 hlt, ?_, advance (show b.Reading ([x] ++ bs) from h) hlt, rfl⟩
  rw [Buffer.next, dif_pos hlt, hx]

theorem nexts (h : b.Reading (as ++ bs)) :
    ∃ b', b.nexts as.length = .ok (as, b') ∧ b'.Reading bs ∧ b'.order = b.order := by
  induction as generalizing b with
  | nil => exact ⟨b, rfl, h, rfl⟩
  | cons a as ih =>
    obtain ⟨b₁, hnext, h₁, horder₁⟩ := h.next
    obtain ⟨b', hnexts, h', horder'⟩ := ih h₁
    refine ⟨b', bind_eq_ok.mpr ⟨_, hnext, bind_eq_ok.mpr ⟨_, hnexts, rfl⟩⟩, h', ?_⟩
    exact horder'.trans horder₁

theorem get {x : UInt8} (h : b.Reading (x :: bs)) :
    ∃ b', b.get = .ok (x, b') ∧ b'.Reading bs ∧ b'.order = b.order := by
  have hlimit := h.limit_eq
  rw [length_cons] at hlimit
  rw [Buffer.get, if_neg (by omega)]
  exact h.next

theorem remaining_eq (h : b.Reading bs) : b.remaining = bs.length := by
  rw [remaining, h.limit_eq]
  omega

theorem words {w x : ℕ} (h : b.Reading (b.order.image w x ++ bs)) :
    ∃ b', b.nexts w = .ok (b.order.image w x, b') ∧ b'.Reading bs ∧ b'.order = b.order ∧
      inOrder b.order (b.order.image w x) = (leBytes w x).reverse := by
  obtain ⟨b', hnexts, h', horder⟩ := h.nexts
  rw [ByteOrder.length_image] at hnexts
  exact ⟨b', hnexts, h', horder, inOrder_image _ _ _⟩

theorem getShort {x : BitVec 16} (h : b.Reading (b.order.image 2 x.toNat ++ bs)) :
    ∃ b', b.getShort = .ok (x, b') ∧ b'.Reading bs ∧ b'.order = b.order := by
  obtain ⟨b', hnexts, h', horder, hbytes⟩ := h.words
  have hrem := h.remaining_eq
  rw [length_append, ByteOrder.length_image] at hrem
  refine ⟨b', ?_, h', horder⟩
  rw [Buffer.getShort, if_neg (by omega), hnexts]
  exact congrArg (fun y => ok (y, b')) (by rw [hbytes, shortOf_bytes])

theorem getInt {x : BitVec 32} (h : b.Reading (b.order.image 4 x.toNat ++ bs)) :
    ∃ b', b.getInt = .ok (x, b') ∧ b'.Reading bs ∧ b'.order = b.order := by
  obtain ⟨b', hnexts, h', horder, hbytes⟩ := h.words
  have hrem := h.remaining_eq
  rw [length_append, ByteOrder.length_image] at hrem
  refine ⟨b', ?_, h', horder⟩
  rw [Buffer.getInt, if_neg (by omega), hnexts]
  exact congrArg (fun y => ok (y, b')) (by rw [hbytes, intOf_bytes])

theorem getLong {x : BitVec 64} (h : b.Reading (b.order.image 8 x.toNat ++ bs)) :
    ∃ b', b.getLong = .ok (longBack x, b') ∧ b'.Reading bs ∧ b'.order = b.order := by
  obtain ⟨b', hnexts, h', horder, hbytes⟩ := h.words
  refine ⟨b', ?_, h', horder⟩
  rw [Buffer.getLong, hnexts]
  exact congrArg (fun y => ok (y, b')) (by rw [hbytes, longOf_bytes])

theorem getArray {dst : List UInt8} (hlen : dst.length = as.length) (hne : as ≠ [])
    (h : b.Reading (as ++ bs)) :
    ∃ b', b.getArray dst = .ok (as, b') ∧ b'.Reading bs ∧ b'.order = b.order := by
  have hpos := length_pos_iff.mpr hne
  have hlimit := h.limit_eq
  rw [length_append] at hlimit
  have hmin : min dst.length (b.limit - b.position) = as.length := by omega
  have hdrop : dst.drop as.length = [] := drop_of_length_le hlen.le
  have hle : b.position + as.length ≤ b.data.length := by have := b.limit_le; omega
  refine ⟨b.advance as.length hle, ?_, h.advance hle, rfl⟩
  rw [Buffer.getArray, if_neg (by omega), if_neg (by omega)]
  simp only [hmin, h.take_drop, hdrop, append_nil]

end Reading

/-! The gets leave the bytes as they are. -/

theorem data_of_next {r : UInt8 × Buffer} (h : b.next = .ok r) :
    r.2.data = b.data := by
  rw [next] at h
  split_ifs at h
  rw [← ok.inj h]
  rfl

theorem data_of_nexts {n : ℕ} {r : List UInt8 × Buffer} (h : b.nexts n = .ok r) :
    r.2.data = b.data := by
  induction n generalizing b r with
  | zero => exact ok.inj h ▸ rfl
  | succ n ih =>
    obtain ⟨r₁, hnext, h⟩ := bind_eq_ok.mp h
    obtain ⟨rs, hnexts, h⟩ := bind_eq_ok.mp h
    rw [← ok.inj h]
    exact (ih hnexts).trans (data_of_next hnext)

theorem data_of_getInt {r : BitVec 32 × Buffer} (h : b.getInt = .ok r) :
    r.2.data = b.data := by
  rw [getInt] at h
  split_ifs at h
  obtain ⟨rs, hnexts, h⟩ := bind_eq_ok.mp h
  rw [← ok.inj h]
  exact data_of_nexts hnexts

theorem data_of_get {r : UInt8 × Buffer} (h : b.get = .ok r) : r.2.data = b.data := by
  rw [get] at h
  split_ifs at h
  exact data_of_next h

theorem getOne_of_back {p q : Put}
    (h : b.Reading (p.encode b.order ++ bs)) (hq : p.back = some q) :
    ∃ b', b.getOne p.get = .ok (q, b') ∧ b'.Reading bs ∧ b'.order = b.order := by
  have hmap {α : Type} {x : α} {f : α → Put} {r : Except Abrupt (α × Buffer)} (hf : f x = q)
      (hr : ∃ b', r = .ok (x, b') ∧ b'.Reading bs ∧ b'.order = b.order) :
      ∃ b', (do return (← r).map f id) = ok (q, b') ∧ b'.Reading bs ∧
        b'.order = b.order := by
    obtain ⟨b', rfl, h', horder⟩ := hr
    exact ⟨b', by rw [← hf]; rfl, h', horder⟩
  cases p with
  | byte x => exact hmap (Option.some.inj hq) h.get
  | short x => exact hmap (Option.some.inj hq) h.getShort
  | int x => exact hmap (Option.some.inj hq) h.getInt
  | long x => exact hmap (Option.some.inj hq) h.getLong
  | char x => exact hmap (Option.some.inj hq) h.getShort
  | float x => exact hmap (Option.some.inj hq) h.getInt
  | double x => exact hmap (Option.some.inj hq) h.getLong
  | bytes xs =>
    rw [Put.back] at hq
    split_ifs at hq with hxs
    exact hmap (Option.some.inj hq) (h.getArray (by simp) hxs)

theorem getOne_of_back_eq_none {p : Put} (hp : p.back = none) :
    b.getOne p.get = .error .illegalArgument := by
  cases p with
  | bytes xs =>
    rw [Put.back] at hp
    split_ifs at hp with hxs
    rw [hxs]
    rfl
  | _ => cases hp

theorem getAll_eq_iff
    (h : b.Reading (ps.flatMap (Put.encode b.order))) :
    (∃ b', getAll (ps.map Put.get) b = .ok (ps, b')) ↔ ∀ p ∈ ps, p.back = some p := by
  induction ps generalizing b with
  | nil => exact iff_of_true ⟨b, rfl⟩ (forall_mem_nil _)
  | cons p ps ih =>
    rw [flatMap_cons] at h
    rw [forall_mem_cons]
    constructor
    · rintro ⟨b', hall⟩
      obtain ⟨r, hget, hall⟩ := bind_eq_ok.mp hall
      obtain ⟨rs, hgets, hall⟩ := bind_eq_ok.mp hall
      have heq := ok.inj hall
      obtain ⟨hr, hrs⟩ := cons_eq_cons.mp (congrArg Prod.fst heq)
      cases hback : p.back with
      | none =>
        rw [getOne_of_back_eq_none hback] at hget
        cases hget
      | some q =>
        obtain ⟨b₁, hget₁, h₁, horder₁⟩ := getOne_of_back h hback
        obtain rfl := ok.inj (hget.symm.trans hget₁)
        rw [← horder₁] at h₁
        refine ⟨congrArg some hr, (ih h₁).mp ⟨rs.2, ?_⟩⟩
        exact hgets.trans (congrArg ok (Prod.ext hrs rfl))
    · rintro ⟨hp, hps⟩
      obtain ⟨b₁, hget, h₁, horder₁⟩ := getOne_of_back h hp
      rw [← horder₁] at h₁
      obtain ⟨b', hgets⟩ := (ih h₁).mpr hps
      exact ⟨b', bind_eq_ok.mpr ⟨_, hget, bind_eq_ok.mpr ⟨_, hgets, rfl⟩⟩⟩

/-- **When the gets return what was put.** -/
theorem getAll_putAll_iff (initialCapacity : ℕ) (hcapacity : initialCapacity < 2 ^ 31)
    (order : ByteOrder) (ps : List Put) (hps : ∀ p ∈ ps, ¬ p.NaN) :
    (∃ b b', putAll ps (allocate initialCapacity hcapacity order) = .ok b ∧
      getAll (ps.map Put.get) b.flip = .ok (ps, b')) ↔
    (reserveAll (ps.map Put.size) initialCapacity 0).isOk = true ∧ ∀ p ∈ ps, p.Returned := by
  have hfilling := allocate_filling initialCapacity hcapacity order
  have hlen : (allocate initialCapacity hcapacity order).data.length = initialCapacity :=
    length_replicate
  have hreturned : (∀ p ∈ ps, p.back = some p) ↔ ∀ p ∈ ps, p.Returned :=
    forall₂_congr fun p hp => Put.back_eq_iff (hps p hp)
  have hsizes : ps.map (fun p => (p.encode order).length) = ps.map Put.size :=
    map_congr_left fun p _ => p.length_encode order
  cases hroom : reserveAll (ps.map Put.size) initialCapacity 0 with
  | error e =>
    have hput : putAll ps (allocate initialCapacity hcapacity order) = .error e :=
      putAll_of_error hfilling (by rw [hlen]; exact hsizes ▸ hroom)
    refine iff_of_false ?_ (fun h => Bool.false_ne_true h.1)
    rintro ⟨b, b', hb, -⟩
    rw [hput] at hb
    cases hb
  | ok c =>
    obtain ⟨b, hput, hb, -, horder⟩ :=
      putAll_of_ok hfilling (c := c) (by rw [hlen]; exact hsizes ▸ hroom)
    have hflip := hb.flip
    rw [nil_append, ← horder] at hflip
    rw [← hreturned, ← getAll_eq_iff hflip]
    constructor
    · rintro ⟨b₁, b', hput₁, hget⟩
      obtain rfl := ok.inj (hput.symm.trans hput₁)
      exact ⟨rfl, b', hget⟩
    · rintro ⟨-, b', hget⟩
      exact ⟨b, b', hput, hget⟩

theorem getAll_putAll_mixed :
    ∃ b b', putAll [.int 258#32, .bytes [1, 2], .double 0x3ff0000000000000#64, .char 8364#16]
        (allocate 1 (by decide) .little) = .ok b ∧
      getAll [.int, .bytes 2, .double, .char] b.flip =
        .ok ([.int 258#32, .bytes [1, 2], .double 0x3ff0000000000000#64, .char 8364#16], b') :=
  (getAll_putAll_iff 1 (by decide) .little
    [.int 258#32, .bytes [1, 2], .double 0x3ff0000000000000#64, .char 8364#16]
    (by decide +kernel)).mpr (by decide +kernel)

theorem getLong_two_pow_31 :
    (∃ b b', putAll [.long 0x80000000#64] (allocate 8 (by decide) .big) = .ok b ∧
      getAll [.long] b.flip = .ok ([.long 0xffffffff80000000#64], b')) ∧
    Put.long 0xffffffff80000000#64 ≠ Put.long 0x80000000#64 :=
  ⟨⟨_, _, rfl, rfl⟩, by decide⟩

end Buffer

end Icm.Java
