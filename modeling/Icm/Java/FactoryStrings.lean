import Icm.Java.FirstCodec

/-!
# The strings of the reader and writer factory

The writers of `ReaderWriterFactory` put the number of UTF-16 units of a string before its bytes in
UTF-8, and the readers take that many bytes.
-/

namespace Icm.Java.FactoryStrings

open Icm.Stream Lib FirstCodec List

variable (peer : Peer) (order : ByteOrder)

/-- `writeString` of the default and of the C/C++ writer, as the bytes that are put. -/
def writeString (value : Option JString) : List UInt8 :=
  match peer, value with
  | .java, some s => order.image 4 s.length ++ utf8.encode s
  | .java, none => order.image 4 (2 ^ 32 - 1)
  | .cpp, some s => order.image 4 (s.length + 1) ++ (utf8.encode s ++ [0])
  | .cpp, none => order.image 4 1 ++ [0]

/-- `get` of a byte buffer into a new array. -/
def getBytes (length : BitVec 32) (bs : List UInt8) : Except Abrupt (List UInt8 × List UInt8) :=
  if length.toInt < 0 then .error .negativeArraySize
  else if bs.length < length.toNat then .error .bufferUnderflow
  else .ok (bs.take length.toNat, bs.drop length.toNat)

/-- `readString` of the default and of the C/C++ reader, with the bytes that are left. -/
def readString (bs : List UInt8) : Except Abrupt (Option JString × List UInt8) := do
  let int ← getBytes 4 bs
  let length := BitVec.ofNat 32 (order.value int.1)
  match peer with
  | .java =>
    if length = -1 then return (none, int.2)
    else
      let r ← getBytes length int.2
      return (some (utf8.decode r.1), r.2)
  | .cpp =>
    let r ← getBytes (length - 1) int.2
    let last ← getBytes 1 r.2
    return (some (utf8.decode r.1), last.2)

variable {peer order} {s : JString} {bs data : List UInt8}

theorem getBytes_append {n : BitVec 32} (data : List UInt8) (hn : 0 ≤ n.toInt)
    (h : bs.length = n.toNat) : getBytes n (bs ++ data) = .ok (bs, data) := by
  rw [getBytes, if_neg hn.not_gt, if_neg (by rw [length_append]; omega), ← h, take_left, drop_left]

/-- What has been read are the first bytes. -/
theorem append_of_getBytes {n : BitVec 32} {r : List UInt8 × List UInt8}
    (h : getBytes n bs = .ok r) : r.1.length = n.toNat ∧ bs = r.1 ++ r.2 := by
  unfold getBytes at h
  split_ifs at h with hneg hshort
  cases Except.ok.inj h
  exact ⟨length_take_of_le (not_lt.mp hshort), (take_append_drop _ _).symm⟩

/-- The reader has read the number of units, and takes that many bytes and, for a C/C++ peer, one
more. -/
theorem readString_writeString (data : List UInt8) :
    readString peer order (writeString peer order (some s) ++ data) =
      match peer with
      | .java => do
        let r ← getBytes (.ofNat 32 s.length) (utf8.encode s ++ data)
        return (some (utf8.decode r.1), r.2)
      | .cpp => do
        let r ← getBytes (.ofNat 32 s.length) (utf8.encode s ++ [0] ++ data)
        let last ← getBytes 1 r.2
        return (some (utf8.decode r.1), last.2) := by
  have hlt := s.length_lt
  have hvalue (n : ℕ) : BitVec.ofNat 32 (order.value (order.image 4 n)) = BitVec.ofNat 32 n := by
    apply BitVec.eq_of_toNat_eq
    simp [ByteOrder.value_image]
  cases peer with
  | java =>
    have hint := getBytes_append (n := 4) (utf8.encode s ++ data) (by decide)
      (order.length_image 4 s.length)
    have hne : BitVec.ofNat 32 s.length ≠ -1 := by
      intro heq
      have := congrArg BitVec.toNat heq
      simp [JString.length] at this
      omega
    simp only [readString, writeString, append_assoc, hint, bind, Except.bind, hvalue, if_neg hne]
  | cpp =>
    have hint := getBytes_append (n := 4) (utf8.encode s ++ ([0] ++ data)) (by decide)
      (order.length_image 4 (s.length + 1))
    have hsub : BitVec.ofNat 32 (s.length + 1) - 1 = BitVec.ofNat 32 s.length := by
      rw [BitVec.ofNat_add]
      exact BitVec.add_sub_cancel _ _
    simp only [readString, writeString, append_assoc, hint, bind, Except.bind, hvalue, hsub]

/-- **A string comes back with any data behind it just if** UTF-8 has as many bytes for it as it has
units, and it is encodable. -/
theorem string_comes_back_iff (peer : Peer) (order : ByteOrder) (s : JString) :
    (∀ data, readString peer order (writeString peer order (some s) ++ data) =
      .ok (some s, data)) ↔ (utf8.encode s).length = s.length ∧ utf8.Encodable s := by
  have hlt : s.length < 2 ^ 31 := s.length_lt
  have hnat : (BitVec.ofNat 32 s.length).toNat = s.length := by
    rw [BitVec.toNat_ofNat]
    omega
  have hint : 0 ≤ (BitVec.ofNat 32 s.length).toInt := by
    rw [BitVec.toInt_eq_toNat_of_lt (by omega)]
    omega
  simp only [readString_writeString]
  constructor
  · intro h
    replace h := h []
    cases peer with
    | java =>
      obtain ⟨r, hr, h⟩ := bind_eq_ok.mp h
      obtain ⟨hlength, happend⟩ := append_of_getBytes hr
      have hpair := Prod.mk.inj (Except.ok.inj h)
      rw [hpair.2, append_nil, append_nil] at happend
      rw [Charset.Encodable, happend]
      exact ⟨hlength.trans hnat, Option.some.inj hpair.1⟩
    | cpp =>
      obtain ⟨r, hr, h⟩ := bind_eq_ok.mp h
      obtain ⟨last, hlast, h⟩ := bind_eq_ok.mp h
      obtain ⟨hlength, happend⟩ := append_of_getBytes hr
      obtain ⟨hone, hrest⟩ := append_of_getBytes hlast
      have hpair := Prod.mk.inj (Except.ok.inj h)
      rw [hrest, hpair.2, append_nil, append_nil] at happend
      have heq := (append_inj' happend hone.symm).1
      rw [Charset.Encodable, heq]
      exact ⟨hlength.trans hnat, Option.some.inj hpair.1⟩
  · rintro ⟨hlength, hback⟩ data
    have hread (rest : List UInt8) := getBytes_append rest hint (hlength.trans hnat.symm)
    cases peer with
    | java =>
      rw [hread]
      exact congrArg (fun s => Except.ok (some s, data)) hback
    | cpp =>
      have hlast : getBytes 1 ([0] ++ data) = .ok ([0], data) :=
        getBytes_append data (by decide) rfl
      simp only [append_assoc, hread, bind, Except.bind, hlast]
      exact congrArg (fun s => Except.ok (some s, data)) hback

/-- The string has one unit and two bytes. -/
theorem string_cut :
    (readString .java .big
      (writeString .java .big (some (.ofUnits [0xe9])))).toOption.map Prod.snd = some [0xa9] := by
  decide +kernel

end Icm.Java.FactoryStrings
