import Icm.Java.Buffer

/-!
# The first Java buffer

Class `DataBuffer` of `io/DataBuffer.java`, the buffer of the release 0.1.5.
-/

namespace Icm.Java

open Icm.Lib Icm.Stream Buffer List ByteOrder

/-- The words with a scratch array of their own: `shortBuffer`, `intBuffer` and `longBuffer`. -/
inductive Width
  | short | int | long
  deriving DecidableEq, Repr

def Width.bytes : Width → ℕ
  | short => 2
  | int => 4
  | long => 8

/-- How a method of `DataBuffer` ends that does not return. -/
inductive DataBuffer.Fail
  | writeFliped
  | readUnfliped
  | endOfData
  | abrupt (e : Abrupt)
  deriving DecidableEq, Repr

/-- `DataBuffer`; the array, the limit, the position and the byte order are as in `Buffer`. -/
structure DataBuffer where
  buffer : Buffer
  fliped : Bool
  scratch : Width → List UInt8
  length_scratch : ∀ w, (scratch w).length = w.bytes

def Bits.get (v : BitVec 64) (i : ℕ) : UInt8 := lowByte (v >>> (i * 8))

def Bits.assemble (bytes : List UInt8) (reverse : Bool) : BitVec 64 :=
  (range bytes.length).foldl (fun value i =>
    value + word 64 (bytes.getD i 0) <<< ((if reverse then bytes.length - 1 - i else i) * 8)) 0

namespace DataBuffer

def new (init : ℕ) (h : init < 2 ^ 31) (byteOrder : ByteOrder) : DataBuffer where
  buffer := allocate init h byteOrder
  fliped := false
  scratch w := replicate w.bytes 0
  length_scratch _ := length_replicate

def flip (b : DataBuffer) : DataBuffer := { b with buffer := b.buffer.flip, fliped := true }

def lift {α : Type} (x : Except Abrupt α) : Except Fail α := x.mapError .abrupt

def double (b : Buffer) : Except Fail Buffer :=
  if 2 ^ 31 ≤ b.data.length * 2 then .error (.abrupt .negativeArraySize)
  else lift (b.grow (b.data.length * 2))

def enableRemaining (remaining : ℕ) : ℕ → Buffer → Except Fail Buffer
  | 0, _ => .error (.abrupt .endless)
  | rounds + 1, b =>
    if b.remaining < remaining then do enableRemaining remaining rounds (← double b) else .ok b

def put (b : DataBuffer) (src : List UInt8) : Except Fail DataBuffer :=
  if b.fliped then .error .writeFliped
  else do
    let buf ← enableRemaining src.length 32 b.buffer
    if h : buf.position + src.length ≤ buf.data.length then
      return { b with buffer := buf.store src h }
    else .error (.abrupt .arrayIndexOutOfBounds)

def setScratch (b : DataBuffer) (w : Width) (bs : List UInt8) (h : bs.length = w.bytes) :
    DataBuffer :=
  { b with
    scratch := Function.update b.scratch w bs
    length_scratch := by
      intro v
      by_cases hv : v = w
      · rw [hv, Function.update_self, h]
      · rw [Function.update_of_ne hv, b.length_scratch] }

def getData (b : DataBuffer) (w : Width) (value : BitVec 64) : DataBuffer :=
  let bytes := (range w.bytes).map (Bits.get value)
  match b.buffer.order with
  | .big => b.setScratch w bytes.reverse (by simp [bytes])
  | .little => b.setScratch w bytes (by simp [bytes])

def putWord (b : DataBuffer) (w : Width) (value : BitVec 64) : Except Fail DataBuffer :=
  if b.fliped then .error .writeFliped
  else do
    let buf ← enableRemaining w.bytes 32 b.buffer
    let b := { b with buffer := buf }.getData w value
    b.put (b.scratch w)

def putShort (b : DataBuffer) (value : BitVec 16) := b.putWord .short (value.signExtend 64)

def putChar (b : DataBuffer) (c : BitVec 16) := b.putShort c

def putInt (b : DataBuffer) (value : BitVec 32) := b.putWord .int (value.signExtend 64)

def putLong (b : DataBuffer) (value : BitVec 64) := b.putWord .long value

def putFloat (b : DataBuffer) (value : BitVec 32) :=
  b.putWord .int ((floatToIntBits value).signExtend 64)

def putDouble (b : DataBuffer) (value : BitVec 64) := b.putWord .long (doubleToLongBits value)

def get (b : DataBuffer) : Except Fail (UInt8 × DataBuffer) :=
  if ¬ b.fliped then .error .readUnfliped
  else if b.buffer.remaining ≤ 0 then .error .endOfData
  else do
    let r ← lift b.buffer.next
    return (r.1, { b with buffer := r.2 })

def getArray (b : DataBuffer) (dest : List UInt8) : Except Fail (List UInt8 × DataBuffer) :=
  if ¬ b.fliped then .error .readUnfliped
  else if b.buffer.remaining = 0 then .error .endOfData
  else if dest = [] then .ok ([], b)
  else do
    let r ← lift (b.buffer.getArray dest)
    return (r.1, { b with buffer := r.2 })

def getWord (b : DataBuffer) (w : Width) : Except Fail (BitVec 64 × DataBuffer) :=
  if ¬ b.fliped then .error .readUnfliped
  else if b.buffer.remaining < w.bytes then .error .endOfData
  else do
    let r ← b.getArray (b.scratch w)
    if h : r.1.length = w.bytes then
      return (Bits.assemble r.1 (b.buffer.order = .big), r.2.setScratch w r.1 h)
    else .error (.abrupt .arrayIndexOutOfBounds)

def getShort (b : DataBuffer) : Except Fail (BitVec 16 × DataBuffer) :=
  return (← b.getWord .short).map (·.setWidth 16) id

def getInt (b : DataBuffer) : Except Fail (BitVec 32 × DataBuffer) :=
  return (← b.getWord .int).map (·.setWidth 32) id

def getLong (b : DataBuffer) : Except Fail (BitVec 64 × DataBuffer) := b.getWord .long

def putOne (b : DataBuffer) : Put → Except Fail DataBuffer
  | .byte x => b.put [x]
  | .short x => b.putShort x
  | .int x => b.putInt x
  | .long x => b.putLong x
  | .char x => b.putChar x
  | .float x => b.putFloat x
  | .double x => b.putDouble x
  | .bytes xs => b.put xs

def getOne (b : DataBuffer) : Get → Except Fail (Put × DataBuffer)
  | .byte => return (← b.get).map .byte id
  | .short => return (← b.getShort).map .short id
  | .int => return (← b.getInt).map .int id
  | .long => return (← b.getLong).map .long id
  | .char => return (← b.getShort).map .char id
  | .float => return (← b.getInt).map .float id
  | .double => return (← b.getLong).map .double id
  | .bytes n => return (← b.getArray (replicate n 0)).map .bytes id

def putAll : List Put → DataBuffer → Except Fail DataBuffer
  | [], b => .ok b
  | p :: ps, b => do putAll ps (← b.putOne p)

def getAll : List Get → DataBuffer → Except Fail (List Put × DataBuffer)
  | [], b => .ok ([], b)
  | g :: gs, b => do
    let r ← b.getOne g
    let rs ← getAll gs r.2
    return (r.1 :: rs.1, rs.2)

end DataBuffer

theorem Bits.map_get (w : Width) (v : BitVec 64) :
    (range w.bytes).map (Bits.get v) = leBytes w.bytes v.toNat := by
  cases w <;> simp [Width.bytes, range_succ, leBytes, Bits.get, lowByte_eq,
    Nat.shiftRight_eq_div_pow, Nat.div_div_eq_div_mul]

theorem Bits.toNat_assemble {w : Width} {bs : List UInt8} (h : bs.length = w.bytes)
    (order : ByteOrder) : (assemble bs (order = .big)).toNat = order.value bs := by
  have hlt (x : UInt8) : x.toNat < 256 := x.toNat_lt
  have hword (x : UInt8) : (word 64 x).toNat = x.toNat := toNat_word x (by decide)
  match w, bs, h with
  | .short, [a, b], _ =>
    have := hlt a
    have := hlt b
    cases order <;> simp [assemble, range_succ, value, leValue, hword, Nat.shiftLeft_eq] <;> omega
  | .int, [a, b, c, d], _ =>
    have := hlt a
    have := hlt b
    have := hlt c
    have := hlt d
    cases order <;> simp [assemble, range_succ, value, leValue, hword, Nat.shiftLeft_eq] <;> omega
  | .long, [a, b, c, d, e, f, g, k], _ =>
    have := hlt a
    have := hlt b
    have := hlt c
    have := hlt d
    have := hlt e
    have := hlt f
    have := hlt g
    have := hlt k
    cases order <;> simp [assemble, range_succ, value, leValue, hword, Nat.shiftLeft_eq] <;> omega

theorem image_signExtend (order : ByteOrder) {w n : ℕ} (x : BitVec n) (hn : 256 ^ w = 2 ^ n)
    (hle : n ≤ 64) : order.image w (x.signExtend 64).toNat = order.image w x.toNat := by
  have hmod (y : ℕ) : order.image w (y % 256 ^ w) = order.image w y := by
    have := order.image_value (order.image w y)
    rwa [length_image, value_image] at this
  have hback : (x.signExtend 64).setWidth n = x := by
    refine BitVec.eq_of_getLsbD_eq fun i hi => ?_
    rw [BitVec.getLsbD_setWidth, BitVec.getLsbD_signExtend, if_pos hi]
    simp [hi, hi.trans_le hle]
  rw [← hmod, hn, ← BitVec.toNat_setWidth, hback]

namespace DataBuffer

theorem lift_eq_ok {α : Type} {x : Except Abrupt α} {r : α} : lift x = .ok r ↔ x = .ok r := by
  cases x <;> simp [lift, Except.mapError]

variable {b : DataBuffer} {buf : Buffer} {as bs : List UInt8}

theorem exists_double (h : buf.Filling bs) (hlt : buf.data.length < 2 ^ 28) :
    ∃ buf', double buf = .ok buf' ∧ buf'.Filling bs ∧ buf'.data.length = buf.data.length * 2 ∧
      buf'.order = buf.order := by
  have hlen : (buf.data ++ replicate (buf.data.length * 2 - buf.data.length) 0).length =
      buf.data.length * 2 := by
    rw [length_append, length_replicate]
    omega
  rw [double, if_neg (by omega), grow, dif_pos (by omega)]
  refine ⟨_, rfl, ⟨hlen.symm, ?_⟩, hlen, rfl⟩
  exact (take_append_of_le_length buf.position_le).trans h.written

theorem exists_enableRemaining {n k : ℕ} (h : buf.Filling bs) (hsize : bs.length + n < 2 ^ 28)
    (hfit : bs.length + n ≤ buf.data.length * 2 ^ k) :
    ∃ buf', enableRemaining n (k + 1) buf = .ok buf' ∧ buf'.Filling bs ∧
      max buf.data.length (bs.length + n) ≤ buf'.data.length ∧ buf'.order = buf.order := by
  have hrem {buf : Buffer} (h : buf.Filling bs) :
      buf.remaining < n ↔ buf.data.length < bs.length + n := by
    rw [remaining, h.limit_eq, h.position_eq]
    omega
  induction k generalizing buf with
  | zero => exact ⟨buf, if_neg (by rw [hrem h]; omega), h, by omega, rfl⟩
  | succ k ih =>
    by_cases hlt : buf.data.length < bs.length + n
    · obtain ⟨buf₁, hdouble, h₁, hlen, horder⟩ := exists_double h (hlt.trans hsize)
      rw [pow_succ', ← Nat.mul_assoc, ← hlen] at hfit
      obtain ⟨buf', henable, h', hroom, horder'⟩ := ih h₁ hfit
      refine ⟨buf', ?_, h', by omega, horder'.trans horder⟩
      rw [enableRemaining, if_pos ((hrem h).mpr hlt), hdouble]
      exact henable
    · exact ⟨buf, if_neg (hlt ∘ (hrem h).mp), h, by omega, rfl⟩

/-- A buffer into which the bytes `bs` were put. -/
structure Filling (b : DataBuffer) (bs : List UInt8) : Prop where
  unfliped : b.fliped = false
  filling : b.buffer.Filling bs
  pos : 0 < b.buffer.data.length

theorem Filling.enough {n : ℕ} (h : b.Filling bs) (hsize : bs.length + n < 2 ^ 28) :
    ∃ buf, enableRemaining n 32 b.buffer = .ok buf ∧ buf.Filling bs ∧
      max b.buffer.data.length (bs.length + n) ≤ buf.data.length ∧
      buf.order = b.buffer.order :=
  exists_enableRemaining h.filling hsize (by have := h.pos; omega)

theorem Filling.put {src : List UInt8} (h : b.Filling bs)
    (hsize : bs.length + src.length < 2 ^ 28) :
    ∃ b', b.put src = .ok b' ∧ b'.Filling (bs ++ src) ∧ b'.buffer.order = b.buffer.order := by
  obtain ⟨buf, henable, hbuf, hle, horder⟩ := h.enough hsize
  have hpos := h.pos
  have hroom : buf.position + src.length ≤ buf.data.length := by
    rw [hbuf.position_eq]
    omega
  obtain ⟨hfill, hlen⟩ := hbuf.store hroom
  refine ⟨{ b with buffer := buf.store src hroom }, ?_, ⟨h.unfliped, hfill, ?_⟩, horder⟩
  · rw [DataBuffer.put, h.unfliped, if_neg Bool.false_ne_true, henable]
    exact dif_pos hroom
  · change 0 < (buf.store src hroom).data.length
    omega

theorem getData_eq (b : DataBuffer) (w : Width) (v : BitVec 64) :
    ∃ h, b.getData w v = b.setScratch w (b.buffer.order.image w.bytes v.toNat) h := by
  refine ⟨length_image _ _ _, ?_⟩
  unfold getData
  cases horder : b.buffer.order <;> simp only [image, Bits.map_get]

theorem Filling.putWord {w : Width} (h : b.Filling bs) (hsize : bs.length + w.bytes < 2 ^ 28)
    (v : BitVec 64) :
    ∃ b', b.putWord w v = .ok b' ∧ b'.Filling (bs ++ b.buffer.order.image w.bytes v.toNat) ∧
      b'.buffer.order = b.buffer.order := by
  obtain ⟨buf, henable, hbuf, hle, horder⟩ := h.enough hsize
  have hpos := h.pos
  obtain ⟨hlen, hdata⟩ := getData_eq { b with buffer := buf } w v
  have h₂ : ({ b with buffer := buf }.getData w v).Filling bs := by
    rw [hdata]
    exact ⟨h.unfliped, hbuf, show 0 < buf.data.length by omega⟩
  have hscratch : ({ b with buffer := buf }.getData w v).scratch w =
      b.buffer.order.image w.bytes v.toNat := by
    rw [hdata, ← horder]
    exact Function.update_self ..
  have hlen' := length_image b.buffer.order w.bytes v.toNat
  obtain ⟨b', hput, h', horder'⟩ := h₂.put (hlen'.symm ▸ hsize)
  refine ⟨b', ?_, h', ?_⟩
  · rw [DataBuffer.putWord, if_neg (by rw [h.unfliped]; decide), henable]
    exact (congrArg (DataBuffer.put _) hscratch).trans hput
  · rw [horder', hdata]
    exact horder

theorem Filling.putOne {p : Put} (h : b.Filling bs) (hsize : bs.length + p.size < 2 ^ 28) :
    ∃ b', b.putOne p = .ok b' ∧ b'.Filling (bs ++ p.encode b.buffer.order) ∧
      b'.buffer.order = b.buffer.order := by
  cases p with
  | byte x => exact h.put hsize
  | bytes xs => exact h.put hsize
  | short x | char x =>
    rw [Put.encode, ← image_signExtend b.buffer.order x rfl (by decide)]
    exact h.putWord (w := .short) hsize _
  | int x =>
    rw [Put.encode, ← image_signExtend b.buffer.order x rfl (by decide)]
    exact h.putWord (w := .int) hsize _
  | float x =>
    rw [Put.encode, ← image_signExtend b.buffer.order (floatToIntBits x) rfl (by decide)]
    exact h.putWord (w := .int) hsize _
  | long x | double x => exact h.putWord (w := .long) hsize _

theorem Filling.putAll {ps : List Put} (h : b.Filling bs)
    (hsize : bs.length + (ps.map Put.size).sum < 2 ^ 28) :
    ∃ b', putAll ps b = .ok b' ∧ b'.Filling (bs ++ ps.flatMap (Put.encode b.buffer.order)) ∧
      b'.buffer.order = b.buffer.order := by
  induction ps generalizing b bs with
  | nil => exact ⟨b, rfl, by simpa using h, rfl⟩
  | cons p ps ih =>
    rw [map_cons, sum_cons, ← Nat.add_assoc] at hsize
    obtain ⟨b₁, hput, h₁, horder⟩ := h.putOne (p := p) (by omega)
    obtain ⟨b', hputs, h', horder'⟩ := ih h₁ (by rwa [length_append, Put.length_encode])
    refine ⟨b', bind_eq_ok.mpr ⟨b₁, hput, hputs⟩, ?_, horder'.trans horder⟩
    rwa [append_assoc, horder] at h'

/-- A buffer from which the bytes `bs` are still to be read. -/
structure Reading (b : DataBuffer) (bs : List UInt8) : Prop where
  fliped : b.fliped = true
  reading : b.buffer.Reading bs

theorem Filling.flip (h : b.Filling bs) : b.flip.Reading bs := ⟨rfl, h.filling.flip⟩

namespace Reading

theorem getArray {dest : List UInt8} (hlen : dest.length = as.length) (hne : as ≠ [])
    (h : b.Reading (as ++ bs)) :
    ∃ b', b.getArray dest = .ok (as, b') ∧ b'.Reading bs ∧
      b'.buffer.order = b.buffer.order := by
  obtain ⟨buf, hget, hbuf, horder⟩ := h.reading.getArray hlen hne
  have hpos := length_pos_iff.mpr hne
  have hrem := h.reading.remaining_eq
  rw [length_append] at hrem
  refine ⟨{ b with buffer := buf }, ?_, ⟨h.fliped, hbuf⟩, horder⟩
  rw [DataBuffer.getArray, h.fliped, if_neg (by decide), if_neg (by omega),
    if_neg (ne_nil_of_length_pos (hlen ▸ hpos))]
  exact bind_eq_ok.mpr ⟨_, lift_eq_ok.mpr hget, rfl⟩

theorem get {x : UInt8} (h : b.Reading (x :: bs)) :
    ∃ b', b.get = .ok (x, b') ∧ b'.Reading bs ∧ b'.buffer.order = b.buffer.order := by
  obtain ⟨buf, hget, hbuf, horder⟩ := h.reading.next
  have hrem := h.reading.remaining_eq
  rw [length_cons] at hrem
  refine ⟨{ b with buffer := buf }, ?_, ⟨h.fliped, hbuf⟩, horder⟩
  rw [DataBuffer.get, h.fliped, if_neg (by decide), if_neg (by omega)]
  exact bind_eq_ok.mpr ⟨_, lift_eq_ok.mpr hget, rfl⟩

theorem getWord {w : Width} {n : ℕ} {x : BitVec n} (hn : 256 ^ w.bytes = 2 ^ n)
    (h : b.Reading (b.buffer.order.image w.bytes x.toNat ++ bs)) :
    ∃ v b', b.getWord w = .ok (v, b') ∧ v.setWidth n = x ∧ b'.Reading bs ∧
      b'.buffer.order = b.buffer.order := by
  have hlen := length_image b.buffer.order w.bytes x.toNat
  have hpos : 0 < w.bytes := by cases w <;> decide
  obtain ⟨b', hget, h', horder⟩ := h.getArray ((b.length_scratch w).trans hlen.symm)
    (ne_nil_of_length_pos (hlen.symm ▸ hpos))
  have hrem := h.reading.remaining_eq
  rw [length_append, hlen] at hrem
  refine ⟨Bits.assemble (b.buffer.order.image w.bytes x.toNat) (b.buffer.order = .big),
    b'.setScratch w _ hlen, ?_, ?_, ⟨h'.fliped, h'.reading⟩, horder⟩
  · rw [DataBuffer.getWord, h.fliped, if_neg (by decide), if_neg (by omega), hget]
    exact dif_pos hlen
  · apply BitVec.eq_of_toNat_eq
    rw [BitVec.toNat_setWidth, Bits.toNat_assemble hlen, value_image, hn, Nat.mod_mod,
      Nat.mod_eq_of_lt x.isLt]

theorem getOne {p : Put} (hnan : ¬ p.NaN) (hne : ∀ xs, p = .bytes xs → xs ≠ [])
    (h : b.Reading (p.encode b.buffer.order ++ bs)) :
    ∃ b', b.getOne p.get = .ok (p, b') ∧ b'.Reading bs ∧ b'.buffer.order = b.buffer.order := by
  cases p with
  | byte x =>
    obtain ⟨b', hget, h', horder⟩ := h.get
    exact ⟨b', bind_eq_ok.mpr ⟨_, hget, rfl⟩, h', horder⟩
  | bytes xs =>
    obtain ⟨b', hget, h', horder⟩ := h.getArray length_replicate (hne xs rfl)
    exact ⟨b', bind_eq_ok.mpr ⟨_, hget, rfl⟩, h', horder⟩
  | short x | char x =>
    obtain ⟨v, b', hget, rfl, h', horder⟩ := getWord (w := .short) rfl h
    exact ⟨b', bind_eq_ok.mpr ⟨_, bind_eq_ok.mpr ⟨_, hget, rfl⟩, rfl⟩, h', horder⟩
  | int x =>
    obtain ⟨v, b', hget, rfl, h', horder⟩ := getWord (w := .int) rfl h
    exact ⟨b', bind_eq_ok.mpr ⟨_, bind_eq_ok.mpr ⟨_, hget, rfl⟩, rfl⟩, h', horder⟩
  | float x =>
    have hbits : floatToIntBits x = x := if_neg hnan
    rw [Put.encode, hbits] at h
    obtain ⟨v, b', hget, rfl, h', horder⟩ := getWord (w := .int) rfl h
    exact ⟨b', bind_eq_ok.mpr ⟨_, bind_eq_ok.mpr ⟨_, hget, rfl⟩, rfl⟩, h', horder⟩
  | long x =>
    obtain ⟨v, b', hget, hv, h', horder⟩ := getWord (w := .long) rfl h
    rw [BitVec.setWidth_eq] at hv
    exact ⟨b', bind_eq_ok.mpr ⟨_, hv ▸ hget, rfl⟩, h', horder⟩
  | double x =>
    have hbits : doubleToLongBits x = x := if_neg hnan
    rw [Put.encode, hbits] at h
    obtain ⟨v, b', hget, hv, h', horder⟩ := getWord (w := .long) rfl h
    rw [BitVec.setWidth_eq] at hv
    exact ⟨b', bind_eq_ok.mpr ⟨_, hv ▸ hget, rfl⟩, h', horder⟩

theorem getAll {ps : List Put} (hnan : ∀ p ∈ ps, ¬ p.NaN) (hne : ∀ xs, .bytes xs ∈ ps → xs ≠ [])
    (h : b.Reading (ps.flatMap (Put.encode b.buffer.order))) :
    ∃ b', getAll (ps.map Put.get) b = .ok (ps, b') ∧ b'.Reading [] := by
  induction ps generalizing b with
  | nil => exact ⟨b, rfl, h⟩
  | cons p ps ih =>
    obtain ⟨b₁, hget, h₁, horder⟩ := getOne (hnan p mem_cons_self)
      (fun xs hxs => hne xs (hxs ▸ mem_cons_self)) h
    obtain ⟨b', hgets, h'⟩ := ih (fun q hq => hnan q (mem_cons_of_mem _ hq))
      (fun xs hxs => hne xs (mem_cons_of_mem _ hxs)) (horder ▸ h₁)
    exact ⟨b', bind_eq_ok.mpr ⟨_, hget, bind_eq_ok.mpr ⟨_, hgets, rfl⟩⟩, h'⟩

theorem getOne_end (h : b.Reading []) (g : Get) : b.getOne g = .error .endOfData := by
  have hrem : b.buffer.remaining = 0 := h.reading.remaining_eq
  have hword (w : Width) : b.getWord w = .error .endOfData := by
    rw [DataBuffer.getWord, h.fliped, if_neg (by decide), hrem, if_pos (by cases w <;> decide)]
  cases g with
  | byte =>
    rw [DataBuffer.getOne, DataBuffer.get, h.fliped, if_neg (by decide), if_pos hrem.le]
    rfl
  | bytes n =>
    rw [DataBuffer.getOne, DataBuffer.getArray, h.fliped, if_neg (by decide), if_pos hrem]
    rfl
  | short | char => rw [DataBuffer.getOne, DataBuffer.getShort, hword]; rfl
  | int | float => rw [DataBuffer.getOne, DataBuffer.getInt, hword]; rfl
  | long | double => rw [DataBuffer.getOne, DataBuffer.getLong, hword]; rfl

end Reading

theorem puts_then_gets (init : ℕ) (hinit : 1 ≤ init) (hint : init < 2 ^ 31) (order : ByteOrder)
    (ps : List Put) (hnan : ∀ p ∈ ps, ¬ p.NaN) (hne : ∀ xs, .bytes xs ∈ ps → xs ≠ [])
    (hsize : (ps.map Put.size).sum < 2 ^ 28) :
    ∃ b, putAll ps (new init hint order) = .ok b ∧
      ∃ b', getAll (ps.map Put.get) b.flip = .ok (ps, b') ∧
        ∀ g, b'.getOne g = .error .endOfData := by
  have hnew : (new init hint order).Filling [] :=
    ⟨rfl, allocate_filling init hint order, by simpa [new, allocate] using Nat.lt_of_succ_le hinit⟩
  obtain ⟨b, hputs, h, horder⟩ := hnew.putAll ((Nat.zero_add _).trans_lt hsize)
  have hread : b.flip.Reading (ps.flatMap (Put.encode b.flip.buffer.order)) := horder ▸ h.flip
  obtain ⟨b', hgets, h'⟩ := hread.getAll hnan hne
  exact ⟨b, hputs, b', hgets, h'.getOne_end⟩

theorem puts_then_gets_long :
    (¬ (Put.long 0x80000000).NaN ∧ ([Put.long 0x80000000, .bytes [7]].map Put.size).sum < 2 ^ 28) ∧
    ∃ b, putAll [.long 0x80000000, .bytes [7]] (new 1 (by decide) .big) = .ok b ∧
      ∃ b', getAll [.long, .bytes 1] b.flip = .ok ([.long 0x80000000, .bytes [7]], b') ∧
        ∀ g, b'.getOne g = .error .endOfData :=
  ⟨by decide, puts_then_gets 1 le_rfl (by decide) .big [.long 0x80000000, .bytes [7]] (by decide)
    (by simp) (by decide)⟩

end DataBuffer

end Icm.Java
