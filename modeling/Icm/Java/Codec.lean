import Icm.Java.Buffer

/-!
# The Java codec

Classes `BufferWriter` and `BufferReader` of `icm4j/io`: values of Java types are written to a
buffer and read from it, by recursion over the type.
-/

namespace Icm.Java

open Icm.Lib Icm.Stream List

structure JString where
  units : List (BitVec 16)
  length_lt : units.length < 2 ^ 31
  deriving DecidableEq

namespace JString

def length (s : JString) : ℕ := s.units.length

def empty : JString := ⟨[], by decide⟩

def ofUnits (units : List (BitVec 16)) : JString :=
  ⟨units.take (2 ^ 31 - 1), by rw [length_take]; omega⟩

theorem eq_empty_of_length {s : JString} (h : s.length = 0) : s = empty := by
  obtain ⟨units, hlt⟩ := s
  obtain rfl := eq_nil_of_length_eq_zero h
  rfl

end JString

structure Charset where
  encode : JString → List UInt8
  decode : List UInt8 → JString

def Charset.Encodable (cs : Charset) (s : JString) : Prop := cs.decode (cs.encode s) = s

instance (cs : Charset) (s : JString) : Decidable (cs.Encodable s) :=
  inferInstanceAs (Decidable (_ = _))

namespace Utf8

def encodeUnit (u : BitVec 16) : List UInt8 :=
  let n := u.toNat
  if n < 0x80 then [.ofNat n]
  else if n < 0x800 then [.ofNat (0xc0 + n / 64), .ofNat (0x80 + n % 64)]
  else if 0xd800 ≤ n ∧ n < 0xe000 then [0x3f]
  else [.ofNat (0xe0 + n / 4096), .ofNat (0x80 + n / 64 % 64), .ofNat (0x80 + n % 64)]

def encodePair (high low : BitVec 16) : List UInt8 :=
  let n := 0x10000 + (high.toNat - 0xd800) * 1024 + (low.toNat - 0xdc00)
  [.ofNat (0xf0 + n / 262144), .ofNat (0x80 + n / 4096 % 64), .ofNat (0x80 + n / 64 % 64),
    .ofNat (0x80 + n % 64)]

def encode : List (BitVec 16) → List UInt8
  | [] => []
  | [u] => encodeUnit u
  | u :: v :: us =>
    if 0xd800 ≤ u.toNat ∧ u.toNat < 0xdc00 ∧ 0xdc00 ≤ v.toNat ∧ v.toNat < 0xe000 then
      encodePair u v ++ encode us
    else encodeUnit u ++ encode (v :: us)

def owed (first : ℕ) : Option (ℕ × ℕ × ℕ) :=
  if first < 0x80 then some (0, 0x80, 0xbf)
  else if first < 0xc2 then none
  else if first < 0xe0 then some (1, 0x80, 0xbf)
  else if first < 0xf0 then
    some (2, if first = 0xe0 then 0xa0 else 0x80, if first = 0xed then 0x9f else 0xbf)
  else if first < 0xf5 then
    some (3, if first = 0xf0 then 0x90 else 0x80, if first = 0xf4 then 0x8f else 0xbf)
  else none

def follow : ℕ → ℕ → ℕ → List UInt8 → List UInt8
  | n + 1, least, greatest, b :: bs =>
    if least ≤ b.toNat ∧ b.toNat ≤ greatest then b :: follow n 0x80 0xbf bs else []
  | _, _, _, _ => []

def units (n : ℕ) : List (BitVec 16) :=
  if n < 0x10000 then [.ofNat 16 n]
  else [.ofNat 16 (0xd800 + (n - 0x10000) / 1024), .ofNat 16 (0xdc00 + (n - 0x10000) % 1024)]

def decodeFirst (first : ℕ) (bs : List UInt8) : List (BitVec 16) × ℕ :=
  match owed first with
  | none => ([0xfffd], 0)
  | some (n, least, greatest) =>
    let more := follow n least greatest bs
    let lead := if n = 0 then first else first % 2 ^ (6 - n)
    if more.length = n then (units (more.foldl (fun x b => x * 64 + b.toNat % 64) lead), n)
    else ([0xfffd], more.length)

def decode : ℕ → List UInt8 → List (BitVec 16)
  | rounds + 1, b :: bs =>
    let r := decodeFirst b.toNat bs
    r.1 ++ decode rounds (bs.drop r.2)
  | _, _ => []

end Utf8

def utf8 : Charset where
  encode s := Utf8.encode s.units
  decode bs := .ofUnits (Utf8.decode bs.length bs)

example : utf8.encode (.ofUnits [0x20ac, 0xd83d, 0xde00]) =
      [0xe2, 0x82, 0xac, 0xf0, 0x9f, 0x98, 0x80] ∧
    utf8.decode [0xe2, 0x82, 0xac, 0xf0, 0x9f, 0x98, 0x80] = .ofUnits [0x20ac, 0xd83d, 0xde00] := by
  decide +kernel

inductive Container
  | array
  | list
  | set
  | map
  deriving DecidableEq, Repr

def Container.refusal : Container → Abrupt
  | .array => .negativeArraySize
  | .list | .set | .map => .illegalArgument

/-- The types that are written and read. -/
inductive JType
  | byte
  | short
  | int
  | long
  | boolean
  | char
  | float
  | double
  | string
  | seq (container : Container) (element : JType)
  | unit
  | pair (first rest : JType)
  deriving DecidableEq, Repr

namespace JType

def map (key value : JType) : JType := .seq .map (.pair key value)

def pojo (fields : List JType) : JType := fields.foldr .pair .unit

/-- The values of a type; a `float` or `double` is its bit pattern. -/
@[reducible] def Val : JType → Type
  | byte => UInt8
  | short => BitVec 16
  | int => BitVec 32
  | long => BitVec 64
  | boolean => Bool
  | char => BitVec 16
  | float => BitVec 32
  | double => BitVec 64
  | string => JString
  | seq _ t => List (Val t)
  | unit => Unit
  | pair s t => Val s × Val t

end JType

namespace BufferWriter

variable (cs : Charset)

def writeBoolean (b : Buffer) (value : Bool) : Except Abrupt Buffer :=
  if value then b.put [1] else b.put [0]

def writeString (b : Buffer) (value : JString) : Except Abrupt Buffer := do
  let b ← b.putInt (BitVec.ofNat 32 (value.length + 1))
  let b ← b.put (cs.encode value)
  b.put [0]

def writeObject : (t : JType) → t.Val → Buffer → Except Abrupt Buffer
  | .byte, (x : UInt8), b => b.put [x]
  | .short, x, b => b.putShort x
  | .int, x, b => b.putInt x
  | .long, x, b => b.putLong x
  | .boolean, x, b => writeBoolean b x
  | .char, x, b => b.putChar x
  | .float, x, b => b.putFloat x
  | .double, x, b => b.putDouble x
  | .string, x, b => writeString cs b x
  | .seq _ t, (xs : List t.Val), b => do
    let b ← b.putInt (BitVec.ofNat 32 xs.length)
    xs.foldlM (fun b x => writeObject t x b) b
  | .unit, _, b => .ok b
  | .pair s t, (x : s.Val × t.Val), b => do
    let b ← writeObject s x.1 b
    writeObject t x.2 b

def puts : (t : JType) → t.Val → List Put
  | .byte, x => [.byte x]
  | .short, x => [.short x]
  | .int, x => [.int x]
  | .long, x => [.long x]
  | .boolean, (x : Bool) => [.byte (if x then 1 else 0)]
  | .char, x => [.char x]
  | .float, x => [.float x]
  | .double, x => [.double x]
  | .string, (x : JString) =>
    [.int (BitVec.ofNat 32 (x.length + 1)), .bytes (cs.encode x), .byte 0]
  | .seq _ t, (xs : List t.Val) => .int (BitVec.ofNat 32 xs.length) :: xs.flatMap (puts t)
  | .unit, _ => []
  | .pair s t, (x : s.Val × t.Val) => puts s x.1 ++ puts t x.2

def bytes (order : ByteOrder) (t : JType) (x : t.Val) : List UInt8 :=
  (puts cs t x).flatMap (Put.encode order)

end BufferWriter

namespace BufferReader

variable (cs : Charset)

def readBoolean (b : Buffer) : Except Abrupt (Bool × Buffer) := do
  let r ← b.get
  return (r.1 == 1, r.2)

def readString (b : Buffer) : Except Abrupt (JString × Buffer) := do
  let r ← b.getInt
  if r.1 = 1 then
    let last ← r.2.get
    return (.empty, last.2)
  else if (r.1 - 1).toInt < 0 then .error .negativeArraySize
  else
    let data ← r.2.getArray (replicate (r.1 - 1).toNat 0)
    let last ← data.2.get
    return (cs.decode data.1, last.2)

def readElements {α : Type} (element : Buffer → Except Abrupt (α × Buffer)) :
    ℕ → Buffer → Except Abrupt (List α × Buffer)
  | 0, b => .ok ([], b)
  | n + 1, b => do
    let x ← element b
    let xs ← readElements element n x.2
    return (x.1 :: xs.1, xs.2)

def readObject : (t : JType) → Buffer → Except Abrupt (t.Val × Buffer)
  | .byte, b => b.get
  | .short, b => b.getShort
  | .int, b => b.getInt
  | .long, b => b.getLong
  | .boolean, b => readBoolean b
  | .char, b => b.getShort
  | .float, b => b.getInt
  | .double, b => b.getLong
  | .string, b => readString cs b
  | .seq c t, b => do
    let r ← b.getInt
    if r.1.toInt < 0 then .error c.refusal else readElements (readObject t) r.1.toNat r.2
  | .unit, b => .ok ((), b)
  | .pair s t, b => do
    let x ← readObject s b
    let y ← readObject t x.2
    return ((x.1, y.1), y.2)

end BufferReader

namespace Buffer

theorem putAll_append (ps qs : List Put) (b : Buffer) :
    putAll (ps ++ qs) b = (putAll ps b).bind (putAll qs) := by
  induction ps generalizing b with
  | nil => rfl
  | cons p ps ih =>
    rw [cons_append, putAll, putAll]
    cases b.putOne p with
    | error e => rfl
    | ok b' => exact ih b'

theorem putAll_flatMap {α : Type} (f : α → List Put) (xs : List α) (b : Buffer) :
    putAll (xs.flatMap f) b = xs.foldlM (fun b x => putAll (f x) b) b := by
  induction xs generalizing b with
  | nil => rfl
  | cons x xs ih =>
    rw [flatMap_cons, putAll_append, foldlM_cons]
    cases putAll (f x) b with
    | error e => rfl
    | ok b' => exact ih b'

namespace Reading

variable {b : Buffer} {bs : List UInt8}

theorem getArray_of_le {dst : List UInt8} (hle : bs.length ≤ dst.length) (hne : bs ≠ [])
    (h : b.Reading bs) : ∃ dst' b', b.getArray dst = .ok (dst', b') ∧ b'.Reading [] := by
  have hpos := length_pos_iff.mpr hne
  have hlimit := h.limit_eq
  have hdata : b.position + bs.length ≤ b.data.length := by have := b.limit_le; omega
  have hmin : min dst.length (b.limit - b.position) = bs.length := by omega
  have hall : b.Reading (bs ++ []) := by rwa [append_nil]
  refine ⟨bs ++ dst.drop bs.length, b.advance bs.length hdata, ?_, hall.advance hdata⟩
  rw [Buffer.getArray, if_neg (by omega), if_neg (by omega)]
  simp only [hmin, hall.take_drop]

theorem get_nil (h : b.Reading []) : b.get = .error .bufferUnderflow :=
  if_pos h.limit_eq.le

end Reading

end Buffer

namespace BufferWriter

open Buffer

theorem putAll_singleton (p : Put) (b : Buffer) : putAll [p] b = b.putOne p := by
  rw [putAll]
  cases b.putOne p <;> rfl

theorem writeBoolean_eq (b : Buffer) (value : Bool) :
    writeBoolean b value = b.putOne (.byte (if value then 1 else 0)) := by
  cases value <;> rfl

theorem writeObject_eq (cs : Charset) (t : JType) (x : t.Val) (b : Buffer) :
    writeObject cs t x b = putAll (puts cs t x) b := by
  induction t generalizing b with
  | boolean =>
    exact (writeBoolean_eq b x).trans (putAll_singleton _ b).symm
  | string =>
    change _ = b.putInt _ >>= _
    refine congrArg _ (funext fun b => ?_)
    change _ = b.put _ >>= _
    exact congrArg _ (funext fun b => (putAll_singleton (.byte 0) b).symm)
  | seq c t ih =>
    have hloop : (fun b y => writeObject cs t y b) = fun b y => putAll (puts cs t y) b :=
      funext₂ fun b y => ih y b
    change b.putInt _ >>= (fun b => foldlM (fun b y => writeObject cs t y b) b x) = _
    rw [hloop]
    exact congrArg _ (funext fun b => (putAll_flatMap _ _ b).symm)
  | unit => rfl
  | pair s t ihs iht =>
    change (writeObject cs s x.1 b >>= fun b => writeObject cs t x.2 b) = _
    rw [ihs]
    exact (congrArg _ (funext fun b => iht x.2 b)).trans (putAll_append _ _ b).symm
  | byte => exact (putAll_singleton (.byte x) b).symm
  | short => exact (putAll_singleton (.short x) b).symm
  | int => exact (putAll_singleton (.int x) b).symm
  | long => exact (putAll_singleton (.long x) b).symm
  | char => exact (putAll_singleton (.char x) b).symm
  | float => exact (putAll_singleton (.float x) b).symm
  | double => exact (putAll_singleton (.double x) b).symm

section Bytes

variable {cs : Charset} {order : ByteOrder}

theorem bytes_of_puts {t : JType} {x : t.Val} {p : Put} (h : puts cs t x = [p]) :
    bytes cs order t x = p.encode order := by
  rw [bytes, h, flatMap_singleton]

theorem bytes_string_append (x : JString) (bs : List UInt8) :
    bytes cs order .string x ++ bs =
      order.image 4 (BitVec.ofNat 32 (x.length + 1)).toNat ++ (cs.encode x ++ 0 :: bs) := by
  simp [bytes, puts, Put.encode]

theorem bytes_seq (c : Container) (t : JType) (xs : List t.Val) :
    bytes cs order (.seq c t) xs =
      order.image 4 (BitVec.ofNat 32 xs.length).toNat ++ xs.flatMap (bytes cs order t) := by
  rw [bytes, puts, flatMap_cons, flatMap_assoc]
  rfl

theorem bytes_pair (s t : JType) (x : s.Val × t.Val) :
    bytes cs order (.pair s t) x = bytes cs order s x.1 ++ bytes cs order t x.2 := by
  simp [bytes, puts]

end Bytes

end BufferWriter

open Buffer in
/-- The values that come back: bit 31 of a `long` and of the pattern of a `double` is clear, a
`float` or `double` that is not a number has the one pattern, and a string has one byte for each
unit. -/
def Sound (cs : Charset) : (t : JType) → t.Val → Prop
  | .byte, _ => True
  | .short, _ => True
  | .int, _ => True
  | .long, (x : BitVec 64) => x.toNat % 2 ^ 32 < 2 ^ 31
  | .boolean, _ => True
  | .char, _ => True
  | .float, x => floatToIntBits x = x
  | .double, (x : BitVec 64) => doubleToLongBits x = x ∧ x.toNat % 2 ^ 32 < 2 ^ 31
  | .string, x => cs.Encodable x ∧ (cs.encode x).length = JString.length x
  | .seq _ t, (xs : List t.Val) => xs.length < 2 ^ 31 ∧ ∀ x ∈ xs, Sound cs t x
  | .unit, _ => True
  | .pair s t, (x : s.Val × t.Val) => Sound cs s x.1 ∧ Sound cs t x.2

namespace BufferReader

open Buffer BufferWriter

variable {cs : Charset} {b : Buffer} {as bs : List UInt8}

theorem readBoolean_of_reading {x : Bool} (h : b.Reading ((if x then 1 else 0) :: bs)) :
    ∃ b', readBoolean b = .ok (x, b') ∧ b'.Reading bs ∧ b'.order = b.order := by
  obtain ⟨b', hget, h', horder⟩ := h.get
  refine ⟨b', ?_, h', horder⟩
  rw [readBoolean, hget]
  cases x <;> rfl

theorem ofNat_succ_sub_one {n : ℕ} (hn : n < 2 ^ 31) :
    (BitVec.ofNat 32 (n + 1) - 1).toNat = n ∧ (BitVec.ofNat 32 (n + 1) - 1).toInt = n := by
  have hsub : BitVec.ofNat 32 (n + 1) - 1 = BitVec.ofNat 32 n := by
    apply BitVec.eq_of_toNat_eq
    simp only [BitVec.toNat_sub, BitVec.toNat_ofNat, show (1 : BitVec 32).toNat = 1 from rfl]
    omega
  rw [hsub, BitVec.toInt_eq_toNat_cond, BitVec.toNat_ofNat]
  omega

theorem ofNat_succ_eq_one_iff {n : ℕ} (hn : n < 2 ^ 31) :
    BitVec.ofNat 32 (n + 1) = 1 ↔ n = 0 := by
  rw [← BitVec.toNat_inj, BitVec.toNat_ofNat, show (1 : BitVec 32).toNat = 1 from rfl]
  omega

theorem readString_of_reading {x : UInt8} (hn : as.length < 2 ^ 31)
    (h : b.Reading (b.order.image 4 (BitVec.ofNat 32 (as.length + 1)).toNat ++ (as ++ x :: bs))) :
    ∃ b', readString cs b = .ok (if as = [] then .empty else cs.decode as, b') ∧ b'.Reading bs ∧
      b'.order = b.order := by
  obtain ⟨b₁, hint, h₁, horder₁⟩ := h.getInt
  obtain ⟨htoNat, htoInt⟩ := ofNat_succ_sub_one hn
  rw [readString, hint]
  by_cases hnil : as = []
  · subst hnil
    obtain ⟨b', hget, h', horder'⟩ := h₁.get
    refine ⟨b', ?_, h', horder'.trans horder₁⟩
    change (do let last ← b₁.get; return (JString.empty, last.2)) = _
    rw [hget]
    rfl
  · have hpos := length_pos_iff.mpr hnil
    obtain ⟨b₂, harray, h₂, horder₂⟩ := h₁.getArray (length_replicate (a := 0)) hnil
    obtain ⟨b', hget, h', horder'⟩ := h₂.get
    refine ⟨b', ?_, h', (horder'.trans horder₂).trans horder₁⟩
    refine bind_eq_ok.mpr ⟨_, rfl, ?_⟩
    rw [if_neg (by rw [ofNat_succ_eq_one_iff hn]; omega), if_neg (by rw [htoInt]; omega), htoNat,
      if_neg hnil]
    exact bind_eq_ok.mpr ⟨_, harray, bind_eq_ok.mpr ⟨_, hget, rfl⟩⟩

theorem readString_of_short {n : ℕ} (hn : n < 2 ^ 31) (hlt : bs.length ≤ n) (hne : bs ≠ [])
    (h : b.Reading (b.order.image 4 (BitVec.ofNat 32 (n + 1)).toNat ++ bs)) :
    readString cs b = .error .bufferUnderflow := by
  obtain ⟨b₁, hint, h₁, -⟩ := h.getInt
  obtain ⟨htoNat, htoInt⟩ := ofNat_succ_sub_one hn
  have hpos := length_pos_iff.mpr hne
  obtain ⟨dst, b₂, harray, h₂⟩ := h₁.getArray_of_le
    (hlt.trans (length_replicate (a := 0)).ge) hne
  have hone : BitVec.ofNat 32 (n + 1) ≠ 1 := by rw [ne_eq, ofNat_succ_eq_one_iff hn]; omega
  have hnonneg : ¬ (BitVec.ofNat 32 (n + 1) - 1).toInt < 0 := by omega
  simp only [readString, hint, harray, htoNat, hone, hnonneg, h₂.get_nil, ↓reduceIte,
    Except.bind, bind]

theorem readElements_of_reading {α : Type} {element : Buffer → Except Abrupt (α × Buffer)}
    {bytes : α → List UInt8} {xs : List α} {order : ByteOrder} (horder : b.order = order)
    (helement : ∀ x ∈ xs, ∀ {b : Buffer} {bs : List UInt8}, b.order = order →
      b.Reading (bytes x ++ bs) →
        ∃ b', element b = .ok (x, b') ∧ b'.Reading bs ∧ b'.order = b.order)
    (h : b.Reading (xs.flatMap bytes ++ bs)) :
    ∃ b', readElements element xs.length b = .ok (xs, b') ∧ b'.Reading bs ∧
      b'.order = b.order := by
  induction xs generalizing b with
  | nil => exact ⟨b, rfl, h, rfl⟩
  | cons x xs ih =>
    rw [flatMap_cons, append_assoc] at h
    obtain ⟨hx, hxs⟩ := forall_mem_cons.mp helement
    obtain ⟨b₁, hread, h₁, horder₁⟩ := hx horder h
    obtain ⟨b', hreads, h', horder'⟩ := ih (horder₁.trans horder) hxs h₁
    refine ⟨b', bind_eq_ok.mpr ⟨_, hread, bind_eq_ok.mpr ⟨_, hreads, rfl⟩⟩, h', ?_⟩
    exact horder'.trans horder₁

theorem readObject_of_sound {t : JType} {x : t.Val} (hx : Sound cs t x)
    (h : b.Reading (bytes cs b.order t x ++ bs)) :
    ∃ b', readObject cs t b = .ok (x, b') ∧ b'.Reading bs ∧ b'.order = b.order := by
  induction t generalizing b bs with
  | byte => exact h.get
  | short =>
    rw [bytes_of_puts (p := .short x) rfl] at h
    exact h.getShort
  | int =>
    rw [bytes_of_puts (p := .int x) rfl] at h
    exact h.getInt
  | long =>
    rw [bytes_of_puts (p := .long x) rfl] at h
    have hback : longBack x = x := (longBack_eq_iff x).mpr hx
    obtain ⟨b', hget, hrest⟩ := h.getLong
    exact ⟨b', by rw [hback] at hget; exact hget, hrest⟩
  | boolean =>
    exact readBoolean_of_reading h
  | char =>
    rw [bytes_of_puts (p := .char x) rfl] at h
    exact h.getShort
  | float =>
    rw [bytes_of_puts (p := .float x) rfl] at h
    have hbits : floatToIntBits x = x := hx
    obtain ⟨b', hget, hrest⟩ := h.getInt
    exact ⟨b', by rw [hbits] at hget; exact hget, hrest⟩
  | double =>
    rw [bytes_of_puts (p := .double x) rfl] at h
    have hbits : doubleToLongBits x = x := hx.1
    have hback : longBack x = x := (longBack_eq_iff x).mpr hx.2
    obtain ⟨b', hget, hrest⟩ := h.getLong
    exact ⟨b', by rw [hbits, hback] at hget; exact hget, hrest⟩
  | string =>
    obtain ⟨hencodable, hlength⟩ := hx
    rw [bytes_string_append x bs, ← hlength] at h
    obtain ⟨b', hread, hrest⟩ := readString_of_reading (hlength ▸ JString.length_lt x) h
    refine ⟨b', ?_, hrest⟩
    split_ifs at hread with hnil
    · have hempty : x = JString.empty :=
        JString.eq_empty_of_length (by rw [← hlength, hnil]; rfl)
      rw [hempty]
      exact hread
    · rw [show cs.decode (cs.encode x) = x from hencodable] at hread
      exact hread
  | seq c t ih =>
    obtain ⟨hlt, hxs⟩ := hx
    rw [bytes_seq c t x, append_assoc] at h
    obtain ⟨b₁, hint, h₁, horder₁⟩ := h.getInt
    obtain ⟨b', hread, h', horder'⟩ := readElements_of_reading horder₁
      (fun y hy b bs hb hbs => ih (hxs y hy) (hb ▸ hbs)) h₁
    have hsize : (BitVec.ofNat 32 (length x)).toNat = length x := by
      rw [BitVec.toNat_ofNat, Nat.mod_eq_of_lt (by omega)]
    have hnonneg : ¬ (BitVec.ofNat 32 (length x)).toInt < 0 := by
      rw [BitVec.toInt_eq_toNat_cond, hsize]
      omega
    refine ⟨b', bind_eq_ok.mpr ⟨_, hint, ?_⟩, h', horder'.trans horder₁⟩
    simp only [hnonneg, hsize, ↓reduceIte]
    exact hread
  | unit => exact ⟨b, rfl, h, rfl⟩
  | pair s t ihs iht =>
    rw [bytes_pair s t x, append_assoc] at h
    obtain ⟨b₁, hread, h₁, horder₁⟩ := ihs hx.1 h
    rw [← horder₁] at h₁
    obtain ⟨b', hrest, h', horder'⟩ := iht hx.2 h₁
    refine ⟨b', bind_eq_ok.mpr ⟨_, hread, bind_eq_ok.mpr ⟨_, hrest, rfl⟩⟩, h', ?_⟩
    exact horder'.trans horder₁

theorem writeObject_of_room {c : ℕ} (hc : c < 2 ^ 31) (order : ByteOrder) {t : JType} (x : t.Val)
    (hroom : (reserveAll ((puts cs t x).map Put.size) c 0).isOk = true) :
    ∃ b, writeObject cs t x (allocate c hc order) = .ok b ∧ b.flip.order = order ∧
      b.flip.Reading (bytes cs order t x) := by
  have hsizes : (puts cs t x).map (fun p => (p.encode order).length) =
      (puts cs t x).map Put.size :=
    map_congr_left fun p _ => p.length_encode order
  have hlen : (allocate c hc order).data.length = c := length_replicate
  cases hreserve : reserveAll ((puts cs t x).map Put.size) c 0 with
  | error e =>
    rw [hreserve] at hroom
    cases hroom
  | ok n =>
    obtain ⟨b, hput, hb, -, horder⟩ := putAll_of_ok
      (allocate_filling c hc order) (c := n) (by rw [hlen]; exact hsizes ▸ hreserve)
    exact ⟨b, (writeObject_eq cs t x _).trans hput, horder, hb.flip⟩

theorem room_of_le (cs : Charset) (t : JType) (x : t.Val) {c : ℕ} (hpos : 0 < c) (hc : c < 2 ^ 31)
    (hle : ((puts cs t x).map Put.size).sum ≤ c) :
    (reserveAll ((puts cs t x).map Put.size) c 0).isOk = true := by
  obtain ⟨j, -, hreserve⟩ := reserveAll_of_le (k := 0) hpos (by rwa [pow_zero, Nat.mul_one])
    (by rwa [Nat.zero_add, pow_zero, Nat.mul_one])
  rw [hreserve]
  rfl

theorem exists_eq_append_cons_cons {α : Type} {l : List α} {n : ℕ} (h : n + 2 ≤ l.length) :
    ∃ front first next rest, l = front ++ first :: next :: rest ∧ front.length = n := by
  refine ⟨l.take n, l[n], l[n + 1], l.drop (n + 2), ?_, length_take_of_le (by omega)⟩
  rw [getElem_cons_drop, getElem_cons_drop, take_append_drop]

theorem readObject_of_lt {s : JString} (hlt : (cs.encode s).length < s.length)
    (h : b.Reading (bytes cs b.order (.pair .string (.pojo [])) (s, ()))) :
    readObject cs (.pair .string (.pojo [])) b = .error .bufferUnderflow := by
  rw [bytes_pair, bytes_string_append] at h
  have hread : readString cs b = .error .bufferUnderflow := by
    refine readString_of_short s.length_lt ?_ (by simp) h
    rw [length_append]
    exact hlt
  rw [JType.pojo, foldr_nil, readObject, readObject, hread]
  rfl

theorem readObject_of_gt {s : JString} {first next x : UInt8} {front rest : List UInt8}
    (hfront : front.length = s.length)
    (hbytes : cs.encode s ++ [0] = front ++ first :: next :: rest)
    (h : b.Reading (bytes cs b.order (.pair .string (.pojo [.byte])) (s, (x, ())))) :
    ∃ s' b', readObject cs (.pair .string (.pojo [.byte])) b = .ok ((s', (next, ())), b') := by
  rw [bytes_pair, bytes_string_append, append_cons, hbytes, ← hfront, append_assoc] at h
  obtain ⟨b₁, hstring, h₁, -⟩ := readString_of_reading (hfront ▸ s.length_lt) h
  obtain ⟨b', hget, -, -⟩ := h₁.get
  exact ⟨_, b', bind_eq_ok.mpr ⟨_, hstring, bind_eq_ok.mpr ⟨_, bind_eq_ok.mpr ⟨_, hget, rfl⟩, rfl⟩⟩⟩

end BufferReader

end Icm.Java
