import Icm.Java.Codec
import Icm.Java.DataBuffer

/-!
# The first Java codec

`BufferWriter` and `BufferReader` of the release 0.1.5 write scalars and strings to a `DataBuffer`
and read them, each in a version for Java peers and one for C++ peers.
-/

namespace Icm.Java.FirstCodec

open Icm.Lib Icm.Stream DataBuffer List Put

inductive Peer
  | java
  | cpp
  deriving DecidableEq, Repr

/-- A scalar or a string, which may be `null`. -/
inductive Scalar
  | byte (x : UInt8)
  | short (x : BitVec 16)
  | int (x : BitVec 32)
  | long (x : BitVec 64)
  | char (x : BitVec 16)
  | boolean (x : Bool)
  | float (x : BitVec 32)
  | double (x : BitVec 64)
  | string (value : Option JString)

inductive Kind
  | byte | short | int | long | char | boolean | float | double | string
  deriving DecidableEq, Repr

def Scalar.kind : Scalar → Kind
  | byte _ => .byte
  | short _ => .short
  | int _ => .int
  | long _ => .long
  | char _ => .char
  | boolean _ => .boolean
  | float _ => .float
  | double _ => .double
  | string _ => .string

def Scalar.canonical : Scalar → Scalar
  | float x => .float (Buffer.floatToIntBits x)
  | double x => .double (Buffer.doubleToLongBits x)
  | v => v

variable (peer : Peer) (charset : Charset)

def writeString (b : DataBuffer) : Option JString → Except Fail DataBuffer
  | none => b.putInt (-1)
  | some value =>
    let bytes := charset.encode value
    match peer with
    | .java => do (← b.putInt (.ofNat 32 bytes.length)).put bytes
    | .cpp => do (← (← b.putInt (.ofNat 32 (bytes.length + 1))).put bytes).put [0]

def write (b : DataBuffer) : Scalar → Except Fail DataBuffer
  | .byte x => b.put [x]
  | .short x => b.putShort x
  | .int x => b.putInt x
  | .long x => b.putLong x
  | .char x => b.putInt (x.setWidth 32)
  | .boolean x => b.put [if x then 1 else 0]
  | .float x => b.putFloat x
  | .double x => b.putDouble x
  | .string value => writeString peer charset b value

def readString (b : DataBuffer) : Except Fail (Option JString × DataBuffer) := do
  let length ← b.getInt
  if length.1.toInt < 0 then return (none, length.2)
  else
    let bytes ← length.2.getArray (replicate length.1.toNat 0)
    match peer with
    | .java => return (some (utf8.decode bytes.1), bytes.2)
    | .cpp =>
      if length.1 = 0 then .error (.abrupt .arrayIndexOutOfBounds)
      else return (some (utf8.decode (bytes.1.take (length.1.toNat - 1))), bytes.2)

def read (b : DataBuffer) : Kind → Except Fail (Scalar × DataBuffer)
  | .byte => return (← b.get).map .byte id
  | .short => return (← b.getShort).map .short id
  | .int => return (← b.getInt).map .int id
  | .long => return (← b.getLong).map .long id
  | .char => return (← b.getShort).map .char id
  | .boolean => return (← b.get).map (fun x => .boolean (x ≠ 0)) id
  | .float => return (← b.getInt).map .float id
  | .double => return (← b.getLong).map .double id
  | .string => return (← readString peer b).map .string id

def writeAll : List Scalar → DataBuffer → Except Fail DataBuffer
  | [], b => .ok b
  | v :: vs, b => do writeAll vs (← write peer charset b v)

def readAll : List Kind → DataBuffer → Except Fail (List Scalar × DataBuffer)
  | [], b => .ok ([], b)
  | k :: ks, b => do
    let r ← read peer b k
    let rs ← readAll ks r.2
    return (r.1 :: rs.1, rs.2)

def Scalar.puts : Scalar → List Put
  | byte x => [.byte x]
  | short x => [.short x]
  | int x => [.int x]
  | long x => [.long x]
  | char x => [.int (x.setWidth 32)]
  | boolean x => [.byte (if x then 1 else 0)]
  | float x => [.float x]
  | double x => [.double x]
  | string none => [.int (-1)]
  | string (some value) =>
    let bytes := charset.encode value
    match peer with
    | .java => [.int (.ofNat 32 bytes.length), .bytes bytes]
    | .cpp => [.int (.ofNat 32 (bytes.length + 1)), .bytes bytes, .byte 0]

def Scalar.size (v : Scalar) : ℕ := ((v.puts peer charset).map Put.size).sum

def Scalar.bytes (order : ByteOrder) (v : Scalar) : List UInt8 :=
  (v.puts peer charset).flatMap (encode order)

variable {peer charset} {b : DataBuffer} {bs : List UInt8} {v : Scalar} {vs : List Scalar}

theorem write_eq (b : DataBuffer) (v : Scalar) :
    write peer charset b v = putAll (v.puts peer charset) b := by
  have hpure (x : Except Fail DataBuffer) : (x >>= fun b => .ok b) = x := by cases x <;> rfl
  rcases v with _ | _ | _ | _ | _ | _ | _ | _ | _ | _ <;>
    cases peer <;> simp [write, writeString, Scalar.puts, putAll, putOne, hpure]

theorem write_of_filling (h : b.Filling bs)
    (hsize : bs.length + v.size peer charset < 2 ^ 28) :
    ∃ b', write peer charset b v = .ok b' ∧
      b'.Filling (bs ++ v.bytes peer charset b.buffer.order) ∧
      b'.buffer.order = b.buffer.order := by
  rw [write_eq]
  exact h.putAll hsize

theorem writeAll_of_filling (h : b.Filling bs)
    (hsize : bs.length + (vs.map (Scalar.size peer charset)).sum < 2 ^ 28) :
    ∃ b', writeAll peer charset vs b = .ok b' ∧
      b'.Filling (bs ++ vs.flatMap (Scalar.bytes peer charset b.buffer.order)) ∧
      b'.buffer.order = b.buffer.order := by
  induction vs generalizing b bs with
  | nil => exact ⟨b, rfl, by simpa using h, rfl⟩
  | cons v vs ih =>
    rw [map_cons, sum_cons, ← Nat.add_assoc] at hsize
    obtain ⟨b₁, hwrite, h₁, horder⟩ : ∃ b₁, write peer charset b v = .ok b₁ ∧ _ :=
      write_of_filling h (by omega)
    have hlength : (v.bytes peer charset b.buffer.order).length = v.size peer charset := by
      simp [Scalar.bytes, Scalar.size, length_flatMap, Put.length_encode]
    obtain ⟨b', hwrites, h', horder'⟩ := ih h₁ (by rwa [length_append, hlength])
    refine ⟨b', bind_eq_ok.mpr ⟨b₁, hwrite, hwrites⟩, ?_, horder'.trans horder⟩
    rwa [append_assoc, horder] at h'

def Scalar.Good (peer : Peer) (charset : Charset) : Scalar → Prop
  | char _ => False
  | string (some value) => utf8.decode (charset.encode value) = value ∧
      (peer = .java → charset.encode value ≠ [])
  | _ => True

theorem getInt_of_reading {n : ℕ} (hn : n < 2 ^ 31)
    (h : b.Reading (encode b.buffer.order (.int (.ofNat 32 n)) ++ bs)) :
    ∃ b', b.getInt = .ok (.ofNat 32 n, b') ∧ b'.Reading bs ∧ b'.buffer.order = b.buffer.order ∧
      (BitVec.ofNat 32 n).toNat = n ∧ (BitVec.ofNat 32 n).toInt = n := by
  obtain ⟨v, b', hget, hv, h', horder⟩ := Reading.getWord (w := .int) rfl h
  have hnat : (BitVec.ofNat 32 n).toNat = n := by rw [BitVec.toNat_ofNat]; omega
  refine ⟨b', bind_eq_ok.mpr ⟨_, hget, ?_⟩, h', horder, hnat, ?_⟩
  · rw [← hv]
    rfl
  · rw [BitVec.toInt_eq_toNat_of_lt (by omega), hnat]

def content (peer : Peer) (charset : Charset) (value : JString) : List UInt8 :=
  match peer with
  | .java => charset.encode value
  | .cpp => charset.encode value ++ [0]

theorem bytes_string (order : ByteOrder) (value : JString) :
    Scalar.bytes peer charset order (.string (some value)) =
      encode order (.int (.ofNat 32 (content peer charset value).length)) ++
        content peer charset value := by
  cases peer <;> simp [Scalar.bytes, Scalar.puts, content, encode]

theorem size_string (value : JString) :
    Scalar.size peer charset (.string (some value)) =
      4 + (content peer charset value).length := by
  cases peer <;> simp [Scalar.size, Scalar.puts, content, Put.size]

theorem readString_of_reading {value : JString}
    (hsize : Scalar.size peer charset (.string (some value)) < 2 ^ 31)
    (hne : content peer charset value ≠ [])
    (h : b.Reading (Scalar.bytes peer charset b.buffer.order (.string (some value)) ++ bs)) :
    ∃ b', readString peer b = .ok (some (utf8.decode (charset.encode value)), b') ∧
      b'.Reading bs ∧ b'.buffer.order = b.buffer.order := by
  rw [size_string] at hsize
  rw [bytes_string, append_assoc] at h
  obtain ⟨b₁, hint, h₁, horder₁, hnat, hvalue⟩ := getInt_of_reading (by omega) h
  obtain ⟨b', hget, h', horder⟩ := h₁.getArray length_replicate hne
  refine ⟨b', bind_eq_ok.mpr ⟨_, hint, ?_⟩, h', horder.trans horder₁⟩
  rw [if_neg (by rw [hvalue]; omega), hnat]
  refine bind_eq_ok.mpr ⟨_, hget, ?_⟩
  cases peer with
  | java => rfl
  | cpp =>
    have hlength : (BitVec.ofNat 32 (content .cpp charset value).length) ≠ 0 := by
      intro hzero
      rw [hzero] at hnat
      exact hne (eq_nil_of_length_eq_zero hnat.symm)
    refine (if_neg hlength).trans ?_
    simp [content, pure, Except.pure]

theorem read_of_reading (hgood : v.Good peer charset) (hsize : v.size peer charset < 2 ^ 28)
    (h : b.Reading (v.bytes peer charset b.buffer.order ++ bs)) :
    ∃ b', read peer b v.kind = .ok (v.canonical, b') ∧ b'.Reading bs ∧
      b'.buffer.order = b.buffer.order := by
  have hone {p : Put} (hp : v.puts peer charset = [p]) :
      b.Reading (p.encode b.buffer.order ++ bs) := by
    simpa [Scalar.bytes, hp] using h
  cases v with
  | byte x =>
    obtain ⟨b', hget, h'⟩ := (hone rfl).get
    exact ⟨b', bind_eq_ok.mpr ⟨_, hget, rfl⟩, h'⟩
  | boolean x =>
    obtain ⟨b', hget, h'⟩ := (hone rfl).get
    exact ⟨b', bind_eq_ok.mpr ⟨_, hget, by cases x <;> rfl⟩, h'⟩
  | short x =>
    obtain ⟨v, b', hget, rfl, h'⟩ := Reading.getWord (w := .short) rfl (hone rfl)
    exact ⟨b', bind_eq_ok.mpr ⟨_, bind_eq_ok.mpr ⟨_, hget, rfl⟩, rfl⟩, h'⟩
  | int x =>
    obtain ⟨v, b', hget, rfl, h'⟩ := Reading.getWord (w := .int) rfl (hone rfl)
    exact ⟨b', bind_eq_ok.mpr ⟨_, bind_eq_ok.mpr ⟨_, hget, rfl⟩, rfl⟩, h'⟩
  | float x =>
    obtain ⟨v, b', hget, hv, h'⟩ := Reading.getWord (w := .int) rfl (hone rfl)
    exact ⟨b', bind_eq_ok.mpr ⟨_, bind_eq_ok.mpr ⟨_, hget, rfl⟩,
      congrArg (fun y => Except.ok (Scalar.float y, b')) hv⟩, h'⟩
  | long x =>
    obtain ⟨v, b', hget, hv, h'⟩ := Reading.getWord (w := .long) rfl (hone rfl)
    rw [BitVec.setWidth_eq] at hv
    exact ⟨b', bind_eq_ok.mpr ⟨_, hget, hv ▸ rfl⟩, h'⟩
  | double x =>
    obtain ⟨v, b', hget, hv, h'⟩ := Reading.getWord (w := .long) rfl (hone rfl)
    rw [BitVec.setWidth_eq] at hv
    exact ⟨b', bind_eq_ok.mpr ⟨_, hget, hv ▸ rfl⟩, h'⟩
  | char x => exact hgood.elim
  | string value =>
    cases value with
    | none =>
      obtain ⟨v, b', hget, hv, h'⟩ := Reading.getWord (w := .int) rfl (hone rfl)
      have hint : b.getInt = .ok (-1, b') := bind_eq_ok.mpr ⟨_, hget, hv ▸ rfl⟩
      exact ⟨b', bind_eq_ok.mpr ⟨_, bind_eq_ok.mpr ⟨_, hint, rfl⟩, rfl⟩, h'⟩
    | some value =>
      obtain ⟨hback, hjava⟩ := hgood
      have hne : content peer charset value ≠ [] := by
        cases peer with
        | java => exact hjava rfl
        | cpp => simp [content]
      obtain ⟨b', hread, h'⟩ := readString_of_reading (hsize.trans (by decide)) hne h
      rw [hback] at hread
      exact ⟨b', bind_eq_ok.mpr ⟨_, hread, rfl⟩, h'⟩

theorem readAll_of_reading (hgood : ∀ v ∈ vs, v.Good peer charset)
    (hsize : (vs.map (Scalar.size peer charset)).sum < 2 ^ 28)
    (h : b.Reading (vs.flatMap (Scalar.bytes peer charset b.buffer.order))) :
    ∃ b', readAll peer (vs.map Scalar.kind) b = .ok (vs.map Scalar.canonical, b') := by
  induction vs generalizing b with
  | nil => exact ⟨b, rfl⟩
  | cons v vs ih =>
    rw [map_cons, sum_cons] at hsize
    obtain ⟨hv, hvs⟩ := forall_mem_cons.mp hgood
    obtain ⟨b₁, hread, h₁, horder⟩ := read_of_reading hv (by omega) h
    obtain ⟨b', hreads⟩ := ih hvs (by omega) (horder ▸ h₁)
    exact ⟨b', bind_eq_ok.mpr ⟨_, hread, bind_eq_ok.mpr ⟨_, hreads, rfl⟩⟩⟩

def RoundTrips (peer : Peer) (charset : Charset) (b : DataBuffer) (vs : List Scalar) : Prop :=
  ∃ b₁ b₂, writeAll peer charset vs b = .ok b₁ ∧
    readAll peer (vs.map Scalar.kind) b₁.flip = .ok (vs.map Scalar.canonical, b₂)

variable {init : ℕ} {hint : init < 2 ^ 31} {order : ByteOrder}

theorem new_filling (hinit : 1 ≤ init) : (DataBuffer.new init hint order).Filling [] :=
  ⟨rfl, Buffer.allocate_filling init hint order,
    by simpa [DataBuffer.new, Buffer.allocate] using Nat.lt_of_succ_le hinit⟩

theorem RoundTrips.head {rest : List Scalar} (hinit : 1 ≤ init)
    (hsize : ((v :: rest).map (Scalar.size peer charset)).sum < 2 ^ 28)
    (h : RoundTrips peer charset (.new init hint order) (v :: rest)) :
    ∃ b b', b.buffer.order = order ∧
      b.Reading ((v :: rest).flatMap (Scalar.bytes peer charset order)) ∧
      read peer b v.kind = .ok (v.canonical, b') ∧
      ∃ b'', readAll peer (rest.map Scalar.kind) b' = .ok (rest.map Scalar.canonical, b'') := by
  obtain ⟨b₁, b₂, hwrite, hread⟩ := h
  obtain ⟨b, hb, hfilling, horder⟩ :=
    writeAll_of_filling (new_filling hinit) ((Nat.zero_add _).trans_lt hsize)
  rw [hwrite] at hb
  cases hb
  obtain ⟨⟨x, b'⟩, hx, hreads⟩ := bind_eq_ok.mp hread
  obtain ⟨⟨xs, b''⟩, hxs, heq⟩ := bind_eq_ok.mp hreads
  cases heq
  exact ⟨b₁.flip, b', horder, hfilling.flip, hx, b'', hxs⟩

theorem image_char (order : ByteOrder) (x : BitVec 16) :
    order.image 4 x.toNat = if order = .big then order.image 2 0 ++ order.image 2 x.toNat
      else order.image 2 x.toNat ++ [0, 0] := by
  have hx := x.isLt
  have hhigh : x.toNat / 256 / 256 = 0 := by omega
  cases order <;> simp [ByteOrder.image, leBytes, hhigh]

theorem read_short (peer : Peer) {x : BitVec 16}
    (h : b.Reading (b.buffer.order.image 2 x.toNat ++ bs)) :
    ∃ b', read peer b .char = .ok (.char x, b') ∧ b'.Reading bs := by
  obtain ⟨v, b', hget, rfl, h', -⟩ := Reading.getWord (w := .short) rfl h
  exact ⟨b', bind_eq_ok.mpr ⟨_, bind_eq_ok.mpr ⟨_, hget, rfl⟩, rfl⟩, h'⟩

theorem not_roundTrips_char (hinit : 1 ≤ init) (x : BitVec 16) :
    ¬ RoundTrips peer charset (.new init hint order) [.char x, .byte 1] := by
  intro h
  obtain ⟨b, b', horder, hreading, hread, b'', hrest⟩ :=
    h.head hinit (by simp [Scalar.size, Scalar.puts, Put.size])
  have hx : (x.setWidth 32).toNat = x.toNat := by
    rw [BitVec.toNat_setWidth]
    have := x.isLt
    omega
  have hbytes : b.Reading (b.buffer.order.image 4 x.toNat ++ [1]) := by
    simpa [Scalar.bytes, Scalar.puts, encode, hx, horder] using hreading
  have hnext : b'.Reading [0, 0, 1] := by
    rw [image_char] at hbytes
    split at hbytes
    · rename_i hbig
      rw [append_assoc] at hbytes
      obtain ⟨b₁, hzero, h₁⟩ := read_short peer (x := 0) hbytes
      cases hzero.symm.trans hread
      simpa [hbig, ByteOrder.image, leBytes] using h₁
    · rw [append_assoc] at hbytes
      obtain ⟨b₁, hchar, h₁⟩ := read_short peer hbytes
      cases hchar.symm.trans hread
      exact h₁
  obtain ⟨b₁, hget, -⟩ := hnext.get
  simp [readAll, read, hget, Scalar.kind, bind, Except.bind, pure, Except.pure,
    Scalar.canonical] at hrest

theorem getArray_of_nil (h : b.Reading []) (dest : List UInt8) :
    b.getArray dest = .error .endOfData := by
  have hrem : b.buffer.remaining = 0 := h.reading.remaining_eq
  rw [getArray, h.fliped, if_neg (by decide), if_pos hrem]

theorem readString_end {n : ℕ} (hn : n < 2 ^ 31)
    (h : b.Reading (encode b.buffer.order (.int (.ofNat 32 n)))) :
    readString peer b = .error .endOfData := by
  obtain ⟨b₁, hint, h₁, -, -, hvalue⟩ := getInt_of_reading hn (by rwa [append_nil])
  simp only [readString, hint, bind, Except.bind, getArray_of_nil h₁]
  rw [if_neg (by rw [hvalue]; omega)]

theorem good_of_roundTrips {value : JString} (hinit : 1 ≤ init)
    (hsize : Scalar.size peer charset (.string (some value)) < 2 ^ 28)
    (h : RoundTrips peer charset (.new init hint order) [.string (some value)]) :
    Scalar.Good peer charset (.string (some value)) := by
  obtain ⟨b, b', horder, hreading, hread, -⟩ := h.head hinit (by simpa using hsize)
  rw [flatMap_cons, flatMap_nil, ← horder] at hreading
  obtain ⟨⟨y, b₁⟩, hstring, heq⟩ := bind_eq_ok.mp hread
  cases heq
  by_cases hne : content peer charset value = []
  · rw [bytes_string, hne, append_nil, append_nil] at hreading
    rw [readString_end (by decide) hreading] at hstring
    cases hstring
  · obtain ⟨b₂, hread', -⟩ := readString_of_reading (hsize.trans (by decide)) hne hreading
    have hvalue := hread'.symm.trans hstring
    simp only [Except.ok.injEq, Prod.mk.injEq, Option.some.injEq] at hvalue
    refine ⟨hvalue.1, ?_⟩
    rintro rfl
    exact hne

def readElements {α : Type} (readObject : DataBuffer → Except Fail (α × DataBuffer)) :
    ℕ → DataBuffer → Except Fail (List α × DataBuffer)
  | 0, b => .ok ([], b)
  | n + 1, b => do
    let x ← readObject b
    let xs ← readElements readObject n x.2
    return (x.1 :: xs.1, xs.2)

def readArray (b : DataBuffer) : Except Fail (Option (List UInt8) × DataBuffer) := do
  let long ← b.getLong
  let length := (long.1.setWidth 32).toInt
  if length < 0 then return (none, long.2)
  else return (← readElements get length.toNat long.2).map some id

/-- A string, the bytes of a byte array, or a byte array that `writeArray` wrote. -/
inductive Item
  | string (peer : Peer) (charset : Charset) (value : JString)
  | bytes (xs : List UInt8)
  | array (xs : List UInt8)

def Item.puts : Item → List Put
  | string peer charset value => Scalar.puts peer charset (.string (some value))
  | bytes xs => [.bytes xs]
  | array xs => .long (.ofNat 64 xs.length) :: xs.map .byte

def Item.encoding (order : ByteOrder) (item : Item) : List UInt8 :=
  item.puts.flatMap (encode order)

def Item.Raises (b : DataBuffer) : Item → Prop
  | string peer _ _ => readString peer b = .error .endOfData
  | bytes xs => b.getArray (replicate xs.length 0) = .error .endOfData
  | array _ => readArray b = .error .endOfData

def Item.Caught (k : ℕ) : Item → Prop
  | string .. => k ≤ 4
  | bytes _ => k = 0
  | array _ => True

theorem getWord_of_lt {w : Width} (h : b.Reading bs) (hlt : bs.length < w.bytes) :
    b.getWord w = .error .endOfData := by
  rw [getWord, h.fliped, if_neg (by decide), if_pos (by rw [h.reading.remaining_eq]; omega)]

theorem exists_getArray (h : b.Reading bs) (hne : bs ≠ []) (dest : List UInt8) :
    ∃ r, b.getArray dest = .ok r := by
  have hrem := h.reading.remaining_eq
  have hpos := length_pos_iff.mpr hne
  rw [getArray, h.fliped, if_neg (by decide), if_neg (by omega)]
  split
  · exact ⟨_, rfl⟩
  · rename_i hdest
    have hlimit : ¬ b.buffer.limit < b.buffer.position := by
      rw [Buffer.remaining] at hrem
      omega
    rw [Buffer.getArray, if_neg (mt eq_nil_of_length_eq_zero hdest), if_neg hlimit]
    exact ⟨_, rfl⟩

theorem readString_cut {k : ℕ} (hlt : bs.length < 2 ^ 31) (hk : k < 4 + bs.length)
    (h : b.Reading ((encode b.buffer.order (.int (.ofNat 32 bs.length)) ++ bs).take k)) :
    readString peer b = .error .endOfData ↔ k ≤ 4 := by
  have hfield : (encode b.buffer.order (.int (.ofNat 32 bs.length))).length = 4 :=
    length_encode ..
  rcases Nat.lt_trichotomy k 4 with hcut | rfl | hcut
  · refine iff_of_true ?_ hcut.le
    have hword : b.getWord .int = .error .endOfData :=
      getWord_of_lt h ((length_take_le _ _).trans_lt hcut)
    rw [readString, getInt, hword]
    rfl
  · rw [take_left' hfield] at h
    exact iff_of_true (readString_end hlt h) le_rfl
  · refine iff_of_false ?_ hcut.not_ge
    rw [take_append, hfield, take_of_length_le (hfield.trans_le hcut.le)] at h
    obtain ⟨b₁, hint, h₁, -, hnat, hvalue⟩ := getInt_of_reading hlt h
    have hsome : bs.take (k - 4) ≠ [] := by
      rw [← length_pos_iff, length_take]
      omega
    obtain ⟨r, hget⟩ := exists_getArray h₁ hsome (replicate bs.length 0)
    have hzero : BitVec.ofNat 32 bs.length ≠ 0 := fun heq => by simp [heq] at hnat; omega
    simp only [readString, hint, bind, Except.bind, hnat, hget]
    rw [if_neg (by rw [hvalue]; omega)]
    cases peer with
    | java => exact ok_ne_error
    | cpp =>
      rw [if_neg hzero]
      exact ok_ne_error

theorem readElements_of_lt {n : ℕ} (h : b.Reading bs) (hlt : bs.length < n) :
    readElements get n b = .error .endOfData := by
  induction n generalizing b bs with
  | zero => cases hlt
  | succ n ih =>
    cases bs with
    | nil =>
      have hrem : b.buffer.remaining ≤ 0 := h.reading.remaining_eq.le
      rw [readElements, DataBuffer.get, h.fliped, if_neg (by decide), if_pos hrem]
      rfl
    | cons x xs =>
      obtain ⟨b', hget, h', -⟩ := h.get
      rw [readElements, hget]
      simp only [bind, Except.bind, ih h' (Nat.lt_of_succ_lt_succ hlt)]

theorem readArray_cut {k : ℕ} (hlt : bs.length < 2 ^ 31) (hk : k < 8 + bs.length)
    (h : b.Reading ((encode b.buffer.order (.long (.ofNat 64 bs.length)) ++ bs).take k)) :
    readArray b = .error .endOfData := by
  have hfield : (encode b.buffer.order (.long (.ofNat 64 bs.length))).length = 8 :=
    length_encode ..
  rcases Nat.lt_or_ge k 8 with hcut | hcut
  · have hword : b.getWord .long = .error .endOfData :=
      getWord_of_lt h ((length_take_le _ _).trans_lt hcut)
    rw [readArray, getLong, hword]
    rfl
  · rw [take_append, hfield, take_of_length_le (hfield.trans_le hcut)] at h
    obtain ⟨v, b₁, hget, hv, h₁, -⟩ := Reading.getWord (w := .long) rfl h
    rw [BitVec.setWidth_eq] at hv
    subst hv
    have hint : ((BitVec.ofNat 64 bs.length).setWidth 32).toInt = bs.length := by
      rw [BitVec.toInt_eq_toNat_of_lt] <;> simp <;> omega
    have hloop : readElements get bs.length b₁ = .error .endOfData :=
      readElements_of_lt h₁ (by rw [length_take]; omega)
    simp only [readArray, getLong, hget, bind, Except.bind, hint, Int.toNat_natCast, hloop]
    rw [if_neg (by omega)]

/-- **A cut is noticed** in a string just if it is not behind the length field, in the bytes of an
array just if nothing is left, and in an array with a length always: the bulk read takes what there
is, and the rest of the array stays zero. -/
theorem cut_raises_iff (item : Item) (hsize : (item.encoding b.buffer.order).length < 2 ^ 31)
    {k : ℕ} (hk : k < (item.encoding b.buffer.order).length)
    (h : b.Reading ((item.encoding b.buffer.order).take k)) : item.Raises b ↔ item.Caught k := by
  cases item with
  | string peer charset value =>
    have hencoding : (Item.string peer charset value).encoding b.buffer.order =
        encode b.buffer.order (.int (.ofNat 32 (content peer charset value).length)) ++
          content peer charset value := bytes_string b.buffer.order value
    have hfield : (encode b.buffer.order
        (.int (.ofNat 32 (content peer charset value).length))).length = 4 :=
      length_encode ..
    rw [hencoding, length_append, hfield] at hsize hk
    exact readString_cut (by omega) hk (hencoding ▸ h)
  | bytes xs =>
    have hencoding : (Item.bytes xs).encoding b.buffer.order = xs := by
      simp [Item.encoding, Item.puts, encode]
    rw [hencoding] at hk h
    rcases Nat.eq_zero_or_pos k with rfl | hpos
    · exact iff_of_true (getArray_of_nil h _) rfl
    · obtain ⟨r, hget⟩ := exists_getArray h
        (by rw [← length_pos_iff, length_take]; omega) (replicate xs.length 0)
      refine iff_of_false (fun hraises => ?_) hpos.ne'
      cases hget.symm.trans hraises
  | array xs =>
    have hencoding : (Item.array xs).encoding b.buffer.order =
        encode b.buffer.order (.long (.ofNat 64 xs.length)) ++ xs := by
      simp [Item.encoding, Item.puts, flatMap_map, encode]
    have hfield : (encode b.buffer.order (.long (.ofNat 64 xs.length))).length = 8 :=
      length_encode ..
    rw [hencoding, length_append, hfield] at hsize hk
    exact iff_of_true (readArray_cut (by omega) hk (hencoding ▸ h)) trivial

theorem cut_raises_after_length :
    ∃ b, (DataBuffer.new 16 (by decide) .big).put [0, 0, 0, 2] = .ok b ∧
      (Item.string .java utf8 (.ofUnits [0x61, 0x62])).Raises b.flip := by
  obtain ⟨b, hput, hb, horder⟩ :=
    ((new_filling (by decide) : (DataBuffer.new 16 (by decide) .big).Filling [])).put
      (show [].length + [0, 0, 0, 2].length < 2 ^ 28 by decide)
  have hbig : b.flip.buffer.order = .big := horder
  refine ⟨b, hput, (cut_raises_iff _ ?_ (k := 4) ?_ ?_).mpr le_rfl⟩
  · rw [hbig]
    decide +kernel
  · rw [hbig]
    decide +kernel
  · rw [hbig]
    exact hb.flip

theorem cut_string_returned :
    ((DataBuffer.new 16 (by decide) .big).put
        (((Item.string .java utf8 (.ofUnits [0x61, 0x62])).encoding .big).take 5) >>=
      fun b => readString .java b.flip).toOption.map Prod.fst =
    some (some (.ofUnits [0x61, 0])) := by
  decide +kernel

end Icm.Java.FirstCodec
