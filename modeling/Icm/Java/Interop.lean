import Icm.Java.Codec
import Icm.Stream.Values

/-!
# The wire between C++ and Java

The bytes that the C++ `OutputStream` and the Java `BufferWriter` emit for the same value, over the
types that both know: scalars, strings and sequences, nested in any depth.
-/

namespace Icm.Java

open Icm.Lib Icm.Stream Buffer BufferWriter List

inductive WireType
  | boolean
  | byte
  | short
  | int
  | long
  | float
  | double
  | string
  | seq (container : Container) (element : WireType)
  deriving DecidableEq, Repr

namespace WireType

@[reducible] def toJava : WireType → JType
  | boolean => .boolean
  | byte => .byte
  | short => .short
  | int => .int
  | long => .long
  | float => .float
  | double => .double
  | string => .string
  | seq c t => .seq c t.toJava

abbrev Val (t : WireType) : Type := t.toJava.Val

end WireType

variable (cs : Charset)

def marshal : (t : WireType) → t.Val → List Stream.Value
  | .boolean, x => [.boolean x]
  | .byte, x => [.octet x]
  | .short, x => [.short x]
  | .int, x => [.int x]
  | .long, x => [.long x]
  | .float, x => [.float x]
  | .double, x => [.double x]
  | .string, x => [.string (cs.encode x)]
  | .seq _ .boolean, xs => [.boolSeq xs]
  | .seq _ .byte, xs => [.byteSeq xs]
  | .seq _ .short, xs => [.shortSeq xs]
  | .seq _ .int, xs => [.intSeq xs]
  | .seq _ .long, xs => [.longSeq xs]
  | .seq _ .float, xs => [.floatSeq xs]
  | .seq _ .double, xs => [.doubleSeq xs]
  | .seq _ .string, xs => [.stringSeq (xs.map cs.encode)]
  | .seq _ (.seq c t), xs =>
    .uint (BitVec.ofNat 32 xs.length) :: xs.flatMap (marshal (.seq c t))

inductive Place
  | alone
  | element
  deriving DecidableEq, Repr

def Place.order : Place → ByteOrder
  | .alone => .little
  | .element => .big

def cppBytes (place : Place) : (t : WireType) → t.Val → List UInt8
  | .boolean, x => [encodeBool x]
  | .byte, x => [x]
  | .short, x => wire 2 x.toNat
  | .int, x => wire 4 x.toNat
  | .long, x => wire 8 x.toNat
  | .float, x => place.order.image 4 x.toNat
  | .double, x => place.order.image 8 x.toNat
  | .string, x => encodeString (cs.encode x)
  | .seq _ t, xs => wire 4 xs.length ++ xs.flatMap (cppBytes .element t)

def Plain : (t : WireType) → t.Val → Prop
  | .string, x => (cs.encode x).length = JString.length x
  | .seq _ t, xs => length xs < 2 ^ 31 ∧ ∀ x ∈ xs, Plain t x
  | _, _ => True

/-- The values on which the two sides agree. -/
def Agrees : Place → (t : WireType) → t.Val → Prop
  | .alone, .float, x =>
    (leBytes 4 (BitVec.toNat x)).reverse = leBytes 4 (BitVec.toNat x) ∧ ¬ FloatNaN x
  | .alone, .double, x =>
    (leBytes 8 (BitVec.toNat x)).reverse = leBytes 8 (BitVec.toNat x) ∧ ¬ DoubleNaN x
  | .element, .float, x => floatToIntBits x = x
  | .element, .double, x => doubleToLongBits x = x
  | _, .seq _ t, xs => ∀ x ∈ xs, Agrees .element t x
  | _, _, _ => True

variable {cs}

theorem encodeSeq_map {α : Type} (f : α → List UInt8) (xs : List α) :
    encodeSeq (xs.map f) = wire 4 xs.length ++ xs.flatMap f := by
  rw [encodeSeq, length_map, flatMap_def]

variable {t : WireType} {x : t.Val}

theorem flatMap_marshal (hx : Plain cs t x) :
    (marshal cs t x).flatMap (Stream.Value.encode .little) = cppBytes cs .alone t x := by
  induction t with
  | seq c t ih =>
    cases t with
    | boolean =>
      have hmap : singletons (map encodeBool x) = map (fun y => [encodeBool y]) x :=
        map_map
      rw [marshal, flatMap_singleton, Stream.Value.encode, hmap, encodeSeq_map]
      rfl
    | byte => exact (flatMap_singleton ..).trans (encodeSeq_map _ x)
    | string =>
      rw [marshal, flatMap_singleton, Stream.Value.encode, map_map, encodeSeq_map]
      rfl
    | seq c t =>
      obtain ⟨hlen, hxs⟩ := hx
      have hcount : (BitVec.ofNat 32 (length x)).toNat = length x := by
        rw [BitVec.toNat_ofNat, Nat.mod_eq_of_lt (by omega)]
      rw [marshal, flatMap_cons, flatMap_assoc, Stream.Value.encode, hcount]
      exact congrArg _ (flatMap_congr fun y hy => ih (hxs y hy))
    | _ => exact (flatMap_singleton ..).trans (encodeSeq_map _ x)
  | _ => exact flatMap_singleton ..

theorem flatMap_eq_flatMap_iff {α : Type} {f g : α → List UInt8} {xs : List α}
    (h : ∀ x ∈ xs, (f x).length = (g x).length) :
    xs.flatMap f = xs.flatMap g ↔ ∀ x ∈ xs, f x = g x := by
  induction xs with
  | nil => simp
  | cons x xs ih =>
    obtain ⟨hx, hxs⟩ := forall_mem_cons.mp h
    rw [flatMap_cons, flatMap_cons, forall_mem_cons, ← ih hxs]
    exact ⟨fun heq => append_inj heq hx, fun ⟨h₁, h₂⟩ => by rw [h₁, h₂]⟩

theorem leBytes_inj {n w : ℕ} (hw : 2 ^ n = 256 ^ w) {x y : BitVec n} :
    leBytes w x.toNat = leBytes w y.toNat ↔ x = y := by
  refine ⟨fun h => ?_, fun h => by rw [h]⟩
  have hvalue := congrArg (ByteOrder.value .little) h
  have hx := ByteOrder.value_image .little w x.toNat
  have hy := ByteOrder.value_image .little w y.toNat
  rw [← hw, Nat.mod_eq_of_lt (BitVec.isLt _)] at hx hy
  exact BitVec.eq_of_toNat_eq (hx.symm.trans (hvalue.trans hy))

theorem bytes_string (x : JString) (hx : Plain cs .string x) :
    bytes cs .big .string x = encodeString (cs.encode x) := by
  have hcount : (BitVec.ofNat 32 (x.length + 1)).toNat = (cs.encode x).length + 1 := by
    have := x.length_lt
    have hlen : (cs.encode x).length = x.length := hx
    rw [BitVec.toNat_ofNat, hlen, Nat.mod_eq_of_lt (by rw [JString.length]; omega)]
  have happend : bytes cs .big .string x ++ [] = _ := bytes_string_append x []
  rw [append_nil, hcount] at happend
  exact happend

theorem bytes_list {c : Container} {xs : List t.Val} (hxs : xs.length < 2 ^ 31) :
    bytes cs .big (WireType.seq c t).toJava xs =
      wire 4 xs.length ++ xs.flatMap (bytes cs .big t.toJava) := by
  have hcount : (BitVec.ofNat 32 xs.length).toNat = xs.length := by
    rw [BitVec.toNat_ofNat, Nat.mod_eq_of_lt (by omega)]
  rw [bytes_seq, hcount]
  rfl

theorem sum_sizes (order : ByteOrder) (t : JType) (x : t.Val) :
    ((puts cs t x).map Put.size).sum = (bytes cs order t x).length := by
  rw [bytes, length_flatMap]
  exact congrArg sum (map_congr_left fun p _ => (p.length_encode order).symm)

theorem length_bytes {place : Place} (hx : Plain cs t x) :
    (bytes cs .big t.toJava x).length = (cppBytes cs place t x).length := by
  induction t generalizing place with
  | string => rw [bytes_string x hx]; rfl
  | seq c t ih =>
    obtain ⟨hlen, hxs⟩ := hx
    rw [bytes_list hlen, cppBytes, length_append, length_append, length_flatMap,
      length_flatMap]
    rw [map_congr_left fun y hy => ih (hxs y hy)]
  | _ => simp [bytes, puts, cppBytes, Put.encode]

theorem wire_eq_leBytes_iff {n w : ℕ} (hw : 2 ^ n = 256 ^ w) {NaN : BitVec n → Prop}
    [DecidablePred NaN] {q r : BitVec n} (hq : wire w q.toNat = leBytes w r.toNat)
    (hr : ¬ NaN r) (x : BitVec n) :
    wire w (if NaN x then q else x).toNat = leBytes w x.toNat ↔
      (leBytes w x.toNat).reverse = leBytes w x.toNat ∧ ¬ NaN x := by
  split_ifs with hnan
  · refine iff_of_false (fun h => ?_) (fun h => h.2 hnan)
    have hx := (leBytes_inj hw).mp (hq.symm.trans h)
    exact hr (hx ▸ hnan)
  · exact (and_iff_left hnan).symm

theorem wire_inj {n w : ℕ} (hw : 2 ^ n = 256 ^ w) {x y : BitVec n} :
    wire w x.toNat = wire w y.toNat ↔ x = y :=
  reverse_inj.trans (leBytes_inj hw)

theorem bytes_eq_cppBytes_iff {place : Place} (hx : Plain cs t x) :
    bytes cs .big t.toJava x = cppBytes cs place t x ↔ Agrees place t x := by
  induction t generalizing place with
  | float =>
    rw [bytes_of_puts (p := .float x) rfl]
    cases place with
    | alone =>
      exact wire_eq_leBytes_iff (r := 0xc07f#32) (by decide) (by decide) (by decide +kernel) x
    | element => exact wire_inj (by decide)
  | double =>
    rw [bytes_of_puts (p := .double x) rfl]
    cases place with
    | alone =>
      exact wire_eq_leBytes_iff (r := 0xf87f#64) (by decide) (by decide) (by decide +kernel) x
    | element => exact wire_inj (by decide)
  | string => cases place <;> exact iff_of_true (bytes_string x hx) trivial
  | seq c t ih =>
    obtain ⟨hlen, hxs⟩ := hx
    rw [bytes_list hlen, cppBytes, append_right_inj,
      flatMap_eq_flatMap_iff fun y hy => length_bytes (hxs y hy)]
    have hall : (∀ y ∈ x, bytes cs .big t.toJava y = cppBytes cs .element t y) ↔
        ∀ y ∈ x, Agrees .element t y :=
      forall₂_congr fun y hy => ih (hxs y hy)
    cases place <;> exact hall
  | boolean => cases place <;> exact iff_of_true rfl trivial
  | byte => cases place <;> exact iff_of_true rfl trivial
  | short => cases place <;> exact iff_of_true (bytes_of_puts (p := .short x) rfl) trivial
  | int => cases place <;> exact iff_of_true (bytes_of_puts (p := .int x) rfl) trivial
  | long => cases place <;> exact iff_of_true (bytes_of_puts (p := .long x) rfl) trivial

theorem marshal_fits (hx : Plain cs t x) :
    ∀ v ∈ marshal cs t x, v.Fits := by
  have hstring {s : JString} (hs : Plain cs .string s) : StringFits (cs.encode s) := by
    have := s.length_lt
    have hlen : (cs.encode s).length = s.length := hs
    rw [StringFits, hlen, JString.length]
    omega
  induction t with
  | string => exact forall_mem_singleton.mpr (hstring hx)
  | seq c t ih =>
    obtain ⟨hlen, hxs⟩ := hx
    have hcount : length x < 2 ^ 32 := by omega
    cases t with
    | string =>
      refine forall_mem_singleton.mpr ⟨by rwa [length_map], ?_⟩
      exact forall_mem_map.mpr fun s hs => hstring (hxs s hs)
    | seq c t =>
      refine forall_mem_cons.mpr ⟨trivial, fun v hv => ?_⟩
      obtain ⟨y, hy, hv⟩ := mem_flatMap.mp hv
      exact ih (hxs y hy) v hv
    | _ => exact forall_mem_singleton.mpr hcount
  | _ => exact forall_mem_singleton.mpr trivial

theorem reserveAll_of_lt {ns : List ℕ} (hns : ns.sum < 2 ^ 20) {c : ℕ} (hpos : 0 < c)
    (hc : c < 2 ^ 31) : (reserveAll ns c 0).isOk = true := by
  have hreach : ∃ k, 2 ^ 20 ≤ c * 4 ^ k := ⟨10, by omega⟩
  obtain ⟨k, hle, hlt⟩ : ∃ k, 2 ^ 20 ≤ c * 4 ^ k ∧ c * 4 ^ k < 2 ^ 31 := by
    refine ⟨Nat.find hreach, Nat.find_spec hreach, ?_⟩
    -- the capacity is large enough at once, or quadrupled for the last time below `2 ^ 20`
    cases hk : Nat.find hreach with
    | zero => omega
    | succ j =>
      have hmin := Nat.find_min hreach (m := j) (by omega)
      rw [pow_succ, ← Nat.mul_assoc]
      omega
  have hfit : 0 + ns.sum ≤ c * 4 ^ k := by omega
  obtain ⟨j, -, hreserve⟩ := reserveAll_of_le hpos hlt hfit
  rw [hreserve]
  rfl

/-- **When C++ and Java write the same.** -/
theorem writeObject_eq_marshal_iff (cs : Charset) (heap : ℕ → Chunk) (c : ℕ) (hpos : 0 < c)
    (hc : c < 2 ^ 31) (t : WireType) (x : t.Val) (hx : Plain cs t x) (os : OutputStream)
    (h : OutputStream.writeValues .little (marshal cs t x) (.create .little heap) = some os) :
    (∃ b, writeObject cs t.toJava x (allocate c hc .big) = .ok b ∧
      b.data.take b.position = os.bytes) ↔ Agrees .alone t x := by
  have hwrote := OutputStream.writeValues_spec (OutputStream.create_wf .little heap)
    (OutputStream.create_doByteSwap .little heap) (marshal_fits hx) h
  have hbytes : os.bytes = cppBytes cs .alone t x := by
    rw [hwrote.bytes_eq, flatMap_marshal hx]
    simp
  have hlen : (bytes cs .big t.toJava x).length < 2 ^ 20 := by
    rw [length_bytes hx, ← hbytes, os.length_bytes]
    exact OutputStream.totalLength_lt hwrote.wf
  have hroom := reserveAll_of_lt (by rwa [sum_sizes]) hpos hc
  obtain ⟨b, hwrite, -, hb⟩ := BufferReader.writeObject_of_room hc .big x hroom
  rw [← bytes_eq_cppBytes_iff hx, ← hbytes]
  have hdata : b.data.take b.position = bytes cs .big t.toJava x := hb.ahead
  constructor
  · rintro ⟨b', hwrite', hb'⟩
    obtain rfl := Except.ok.inj (hwrite.symm.trans hwrite')
    exact hdata.symm.trans hb'
  · intro heq
    exact ⟨b, hwrite, hdata.trans heq⟩

theorem writeObject_eq_marshal_mixed :
    ∃ os b, OutputStream.writeValues .little
        (marshal utf8 (.seq .list (.seq .array .double)) [[0x3ff0000000000000#64, 0#64], []])
        (.create .little fun _ => zeroChunk) = some os ∧
      writeObject utf8 (.seq .list (.seq .array .double)) [[0x3ff0000000000000#64, 0#64], []]
        (allocate 1 (by decide) .big) = .ok b ∧
      b.data.take b.position = os.bytes := by
  obtain ⟨os, hos⟩ := Option.isSome_iff_exists.mp (show (OutputStream.writeValues .little
    (marshal utf8 (.seq .list (.seq .array .double)) [[0x3ff0000000000000#64, 0#64], []])
    (.create .little fun _ => zeroChunk)).isSome = true by decide +kernel)
  obtain ⟨b, hb⟩ := (writeObject_eq_marshal_iff utf8 (fun _ => zeroChunk) 1 (by decide) (by decide)
    (.seq .list (.seq .array .double)) [[0x3ff0000000000000#64, 0#64], []]
    (by simp [Plain]) os hos).mpr (by simp [Agrees]; decide)
  exact ⟨os, b, hos, hb⟩

theorem float_one_differs :
    (∃ os, OutputStream.writeValues .little (marshal utf8 .float 0x3f800000#32)
        (.create .little fun _ => zeroChunk) = some os ∧ os.bytes = [0x00, 0x00, 0x80, 0x3f]) ∧
    ∃ b, writeObject utf8 .float 0x3f800000#32 (allocate 4 (by decide) .big) = .ok b ∧
      b.data.take b.position = [0x3f, 0x80, 0x00, 0x00] :=
  ⟨⟨_, rfl, by decide +kernel⟩, _, rfl, by decide +kernel⟩

end Icm.Java
