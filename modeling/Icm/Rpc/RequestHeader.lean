import Icm.Rpc.History
import Icm.Rpc.Proxy

/-!
# The header of a request

`IcmProtocol::writeRequestHeader` (`icm/IcmProtocol.cpp`) and `ServerRequest::parseHeader`
(`icm/ServerRequest.cpp`).
-/

namespace Icm.Stream.InputStream.Starts

variable {is : InputStream} {as bs : List UInt8}

theorem append (h : is.Starts as) (h' : (is.skip as.length).Starts bs) :
    is.Starts (as ++ bs) := by
  have hend := h'.1
  have hbytes : is.start.bytesAt (is.rdPtr + as.length) bs.length = bs := h'.2
  rw [skip_rdPtr, skip_endPtr] at hend
  refine ⟨by rw [List.length_append]; omega, ?_⟩
  rw [List.length_append, MessageBlock.bytesAt_add, h.2, hbytes]

theorem unique (h : is.Starts as) (h' : is.Starts bs) (hlen : as.length = bs.length) : as = bs := by
  rw [← h.2, ← h'.2, hlen]

theorem of_le {n : ℕ} (h : is.rdPtr + n ≤ is.endPtr) :
    is.Starts (is.start.bytesAt is.rdPtr n) := by
  refine ⟨by simpa using h, ?_⟩
  rw [MessageBlock.length_bytesAt]

theorem eq_take (h : is.Starts as) (h' : is.Starts bs) (hle : as.length ≤ bs.length) :
    as = bs.take as.length := by
  obtain ⟨k, hk⟩ := Nat.exists_eq_add_of_le hle
  have hbytes := h'.2
  rw [hk, MessageBlock.bytesAt_add, h.2] at hbytes
  rw [← hbytes, List.take_left]

end Icm.Stream.InputStream.Starts

namespace Icm.Rpc

open Icm.Lib Icm.Stream

theorem exists_eq_wire {bs : List UInt8} (h : bs.length = 4) :
    ∃ x : BitVec 32, bs = wire 4 x.toNat := by
  have hlt : leValue bs.reverse < 2 ^ 32 := by
    have := leValue_lt bs.reverse
    rwa [List.length_reverse, h] at this
  refine ⟨BitVec.ofNat 32 (leValue bs.reverse), ?_⟩
  have hbytes := leBytes_leValue bs.reverse
  rw [List.length_reverse, h] at hbytes
  rw [BitVec.toNat_ofNat, Nat.mod_eq_of_lt hlt, wire, hbytes, List.reverse_reverse]

section Reads

variable {host : ByteOrder} {is : InputStream} (hhost : is.doByteSwap = host.aceCdrByteOrder)

include hhost in
theorem readUint_cases (old : ℕ) :
    (∃ x : BitVec 32, is.Starts (wire 4 x.toNat) ∧
      is.readUint host old = ⟨true, x.toNat, is.skip 4⟩) ∨
    (is.readUint host old).stream.goodBit = false := by
  by_cases hle : is.rdPtr + 4 ≤ is.endPtr
  · obtain ⟨x, hx⟩ := exists_eq_wire (is.start.length_bytesAt is.rdPtr 4)
    have hstarts := InputStream.Starts.of_le hle
    rw [hx] at hstarts
    exact Or.inl ⟨x, hstarts, InputStream.readCount_spec hhost x.isLt hstarts old⟩
  · right
    simp [InputStream.readUint, InputStream.readN, InputStream.adjust, hle, InputStream.fail]

theorem readOctet_cases (old : UInt8) :
    (∃ x, is.Starts [x] ∧ is.readOctet old = ⟨true, x, is.skip 1⟩) ∨
    (is.readOctet old).stream.goodBit = false := by
  by_cases hlt : is.rdPtr < is.endPtr
  · have hstarts := InputStream.Starts.of_le (show is.rdPtr + 1 ≤ is.endPtr from hlt)
    obtain ⟨x, hx⟩ := List.length_eq_one_iff.mp (is.start.length_bytesAt is.rdPtr 1)
    rw [hx] at hstarts
    exact Or.inl ⟨x, hstarts, InputStream.read1_spec hstarts old⟩
  · right
    simp [InputStream.readOctet, InputStream.read1, hlt, InputStream.fail]

theorem readArray_fails {n : ℕ} (h : is.goodBit = false ∨ is.endPtr < is.rdPtr + n) :
    (is.readArray 1 n).ok = false ∧ (is.readArray 1 n).stream.goodBit = false := by
  by_cases hle : is.rdPtr + 1 * n ≤ is.endPtr
  · have hbad : is.goodBit = false := by
      rcases h with hbad | hlt
      · exact hbad
      · omega
    simp only [InputStream.readArray, InputStream.adjust, hle, if_true]
    exact ⟨hbad, hbad⟩
  · simp only [InputStream.readArray, InputStream.adjust, hle, if_false]
    exact ⟨trivial, rfl⟩

theorem readString_fails {r : Reading ℕ} {junk : ℕ} (hr : is.readUint host junk = r)
    (h : r.stream.goodBit = false ∨ r.stream.endPtr < r.stream.rdPtr + r.val ∧ 0 < r.val) :
    (is.readString host junk).ok = false ∧ (is.readString host junk).stream.goodBit = false := by
  have harray := readArray_fails (h.imp_right And.left)
  by_cases hpos : 0 < r.val
  · simp only [InputStream.readString, hr, hpos, if_true, harray.1]
    exact ⟨trivial, harray.2⟩
  · simp only [InputStream.readString, hr, hpos, if_false]
    rcases h with hbad | ⟨-, hval⟩
    · exact ⟨trivial, hbad⟩
    · exact absurd hval hpos

include hhost in
theorem readString_cases (hgood : is.goodBit = true) (junk : ℕ) :
    (∃ s : List UInt8, s.length < 2 ^ 32 ∧ is.Starts (counted s) ∧
      is.readString host junk = ⟨decide (s ≠ []), cString s, is.skip (counted s).length⟩) ∨
    (is.readString host junk).ok = false ∧ (is.readString host junk).stream.goodBit = false := by
  rcases readUint_cases hhost junk with ⟨x, hstarts, hread⟩ | hbad
  · have hend := hstarts.1
    rw [length_wire] at hend
    by_cases hle : (is.skip 4).rdPtr + x.toNat ≤ (is.skip 4).endPtr
    · have hchars := InputStream.Starts.of_le hle
      have hlen := (is.skip 4).start.length_bytesAt (is.skip 4).rdPtr x.toNat
      generalize (is.skip 4).start.bytesAt (is.skip 4).rdPtr x.toNat = s at hchars hlen
      rw [← hlen] at hstarts
      have hboth : is.Starts (counted s) :=
        hstarts.append (by rw [length_wire]; exact hchars)
      have hlt : s.length < 2 ^ 32 := hlen ▸ x.isLt
      exact Or.inl ⟨s, hlt, hboth, InputStream.readString_counted hhost hlt hgood hboth junk⟩
    · refine Or.inr (readString_fails hread (Or.inr ?_))
      dsimp only [InputStream.skip_rdPtr, InputStream.skip_endPtr] at hle ⊢
      omega
  · exact Or.inr (readString_fails rfl (Or.inl hbad))

theorem readUint_of_not_good (hbad : is.goodBit = false) (old : ℕ) :
    (is.readUint host old).stream.goodBit = false := by
  simp only [InputStream.readUint, InputStream.readN, InputStream.adjust]
  split_ifs
  · exact hbad
  · rfl

theorem readOctet_of_not_good (hbad : is.goodBit = false) (old : UInt8) :
    (is.readOctet old).stream.goodBit = false := by
  simp only [InputStream.readOctet, InputStream.read1]
  split_ifs
  · exact hbad
  · rfl

theorem readString_of_not_good (hbad : is.goodBit = false) (junk : ℕ) :
    (is.readString host junk).ok = false ∧ (is.readString host junk).stream.goodBit = false :=
  readString_fails rfl (Or.inl (readUint_of_not_good hbad junk))

end Reads

structure WireHeader where
  requestId : BitVec 32
  responseFlags : UInt8
  name : List UInt8
  category : List UInt8
  operation : List UInt8
  name_lt : name.length < 2 ^ 32
  category_lt : category.length < 2 ^ 32
  operation_lt : operation.length < 2 ^ 32

namespace WireHeader

def bytes (h : WireHeader) : List UInt8 :=
  wire 4 h.requestId.toNat ++ ([h.responseFlags] ++
    (counted h.name ++ (counted h.category ++ counted h.operation)))

def header (h : WireHeader) : RequestHeader :=
  ⟨h.requestId.toNat, h.responseFlags ≠ 0, cString h.name, cString h.category,
    cString h.operation, h.operation ≠ []⟩

end WireHeader

section Parse

variable {host : ByteOrder} {is : InputStream}

theorem counted_unique {s t : List UInt8} (h : is.Starts (counted s)) (h' : is.Starts (counted t))
    (hs : s.length < 2 ^ 32) (ht : t.length < 2 ^ 32)
    (hhost : is.doByteSwap = host.aceCdrByteOrder) : s = t := by
  have hcount := (InputStream.readCount_spec hhost hs h.left 0).symm.trans
    (InputStream.readCount_spec hhost ht h'.left 0)
  have hlen : s.length = t.length := congrArg Reading.val hcount
  have hright := h'.right
  rw [length_wire, ← length_wire 4 s.length] at hright
  exact h.right.unique hright hlen

theorem parseHeader_spec (hhost : is.doByteSwap = host.aceCdrByteOrder)
    (hgood : is.goodBit = true) {h : WireHeader} (hstarts : is.Starts h.bytes) (junk : ℕ) :
    ServerRequest.parseHeader host junk is = (h.header, is.skip h.bytes.length) := by
  have hid := InputStream.readCount_spec hhost h.requestId.isLt hstarts.left 0
  have hflags := hstarts.right
  rw [length_wire] at hflags
  have hoctet := InputStream.read1_spec hflags.left (.ofNat junk)
  have hname := hflags.right
  have hcategory := hname.right
  have hstring {is' : InputStream} {s : List UInt8} (hs : is'.Starts (counted s))
      (hlt : s.length < 2 ^ 32) (hhost' : is'.doByteSwap = host.aceCdrByteOrder)
      (hgood' : is'.goodBit = true) := InputStream.readString_counted hhost' hlt hgood' hs junk
  have hfst := hstring hname.left h.name_lt hhost hgood
  have hsnd := hstring hcategory.left h.category_lt hhost hgood
  have hthd := hstring hcategory.right h.operation_lt hhost hgood
  rw [List.length_singleton] at hfst hsnd hthd
  simp only [ServerRequest.parseHeader, InputStream.readOctet, hid, hoctet, hfst, hsnd, hthd]
  simp only [WireHeader.header, WireHeader.bytes, InputStream.skip_skip, List.length_append,
    length_wire, List.length_singleton, Nat.add_assoc]

theorem operation_fails (hbad : is.goodBit = false) (junk : ℕ) :
    ((((is.readString host junk).stream.readString host junk).stream).readString host junk).ok =
      false :=
  (readString_of_not_good (readString_of_not_good (readString_of_not_good hbad junk).2 junk).2
    junk).1

theorem hdrStatus_iff (hhost : is.doByteSwap = host.aceCdrByteOrder) (hgood : is.goodBit = true)
    (junk : ℕ) :
    (ServerRequest.parseHeader host junk is).1.hdrStatus = true ↔
      ∃ h : WireHeader, is.Starts h.bytes ∧ h.operation ≠ [] := by
  constructor
  · intro hstatus
    simp only [ServerRequest.parseHeader] at hstatus
    -- a read that fails leaves the stream not good, and then the last one fails too
    rcases readUint_cases hhost 0 with ⟨x, hid, hread⟩ | hbad
    swap
    · rw [operation_fails (readOctet_of_not_good hbad _)] at hstatus
      cases hstatus
    rw [hread] at hstatus
    rcases readOctet_cases (.ofNat junk) with ⟨flags, hflags, hread⟩ | hbad
    swap
    · rw [operation_fails hbad] at hstatus
      cases hstatus
    rw [hread] at hstatus
    rcases readString_cases (show ((is.skip 4).skip 1).doByteSwap = _ from hhost) hgood junk with
      ⟨name, hnamelt, hname, hread⟩ | ⟨-, hbad⟩
    swap
    · rw [(readString_of_not_good (readString_of_not_good hbad junk).2 junk).1] at hstatus
      cases hstatus
    rw [hread] at hstatus
    rcases readString_cases (show (((is.skip 4).skip 1).skip (counted name).length).doByteSwap = _
      from hhost) hgood junk with ⟨category, hcategorylt, hcategory, hread⟩ | ⟨-, hbad⟩
    swap
    · rw [(readString_of_not_good hbad junk).1] at hstatus
      cases hstatus
    rw [hread] at hstatus
    rcases readString_cases (show ((((is.skip 4).skip 1).skip (counted name).length).skip
      (counted category).length).doByteSwap = _ from hhost) hgood junk with
      ⟨operation, hoperationlt, hoperation, hread⟩ | ⟨hfail, -⟩
    swap
    · rw [hfail] at hstatus
      cases hstatus
    rw [hread] at hstatus
    refine ⟨⟨x, flags, name, category, operation, hnamelt, hcategorylt, hoperationlt⟩, ?_,
      of_decide_eq_true hstatus⟩
    refine hid.append ?_
    rw [length_wire]
    exact hflags.append (hname.append (hcategory.append hoperation))
  · rintro ⟨h, hstarts, hoperation⟩
    rw [parseHeader_spec hhost hgood hstarts]
    exact decide_eq_true hoperation

theorem WireHeader.unique (hhost : is.doByteSwap = host.aceCdrByteOrder) {a b : WireHeader}
    (ha : is.Starts a.bytes) (hb : is.Starts b.bytes) : a = b := by
  have hid := (InputStream.readCount_spec hhost a.requestId.isLt ha.left 0).symm.trans
    (InputStream.readCount_spec hhost b.requestId.isLt hb.left 0)
  have hid' : a.requestId = b.requestId := BitVec.eq_of_toNat_eq (congrArg Reading.val hid)
  have hflags := ha.right
  have hflags' := hb.right
  rw [length_wire] at hflags hflags'
  have hflag : [a.responseFlags] = [b.responseFlags] := hflags.left.unique hflags'.left rfl
  have hname := counted_unique hflags.right.left hflags'.right.left a.name_lt b.name_lt hhost
  have hcategory := hflags.right.right
  have hcategory' := hflags'.right.right
  rw [hname] at hcategory
  have hcat := counted_unique hcategory.left hcategory'.left a.category_lt b.category_lt hhost
  have hoperation := hcategory.right
  rw [hcat] at hoperation
  have hop := counted_unique hoperation hcategory'.right a.operation_lt b.operation_lt hhost
  cases a
  cases b
  simp_all

end Parse

def HasHeader (body : List UInt8) : Prop :=
  ∃ h : WireHeader, h.name ≠ [] ∧ h.category ≠ [] ∧ h.operation ≠ [] ∧ h.bytes <+: body

def Tidy (is : InputStream) (body : List UInt8) : Prop :=
  ∀ h : WireHeader, is.Starts h.bytes → h.operation ≠ [] →
    h.name ≠ [] ∧ h.category ≠ [] ∧ h.bytes.length ≤ body.length

theorem hdrStatus_right_iff {host : ByteOrder} {is : InputStream} {body : List UInt8}
    (hhost : is.doByteSwap = host.aceCdrByteOrder) (hgood : is.goodBit = true)
    (hbody : is.Starts body) (junk : ℕ) :
    ((ServerRequest.parseHeader host junk is).1.hdrStatus = true ↔ HasHeader body) ↔
      Tidy is body := by
  rw [hdrStatus_iff hhost hgood]
  constructor
  · intro hiff h hstarts hoperation
    obtain ⟨h', hname, hcategory, -, rest, rfl⟩ := hiff.mp ⟨h, hstarts, hoperation⟩
    rw [WireHeader.unique hhost hstarts hbody.left]
    exact ⟨hname, hcategory, by simp⟩
  · intro htidy
    constructor
    · rintro ⟨h, hstarts, hoperation⟩
      obtain ⟨hname, hcategory, hle⟩ := htidy h hstarts hoperation
      exact ⟨h, hname, hcategory, hoperation,
        List.prefix_iff_eq_take.mpr (hstarts.eq_take hbody hle)⟩
    · rintro ⟨h, -, -, hoperation, rest, rfl⟩
      exact ⟨h, hbody.left, hoperation⟩

def IcmProtocol.writeRequestHeader (host : ByteOrder) (requestId : BitVec 32)
    (responseFlags : UInt8) (ident : Identity) (opname : List UInt8) (msg : OutputStream) :
    Option OutputStream := do
  let msg ← msg.writeUint host requestId.toNat
  let msg ← msg.write1 responseFlags
  let msg ← msg.writeString host ident.name
  let msg ← msg.writeString host ident.category
  msg.writeString host opname

section Write

variable {host : ByteOrder} {os os' : OutputStream}

theorem writeString_heard (hw : os.Wf) (hhost : os.doByteSwap = host.aceCdrByteOrder)
    {s : List UInt8} (hnul : 0 ∉ s) (h : os.writeString host s = some os') :
    ∃ t : List UInt8, t.length < 2 ^ 32 ∧ os.Wrote os' (counted t) ∧
      (cString t = s ↔ StringFits s) ∧ (StringFits s → t ≠ []) := by
  by_cases hfits : StringFits s
  · have hwrote := OutputStream.writeString_spec hw hhost hfits h
    rw [encodeString_eq_counted] at hwrote
    exact ⟨s ++ [0], by rwa [List.length_append], hwrote,
      iff_of_true (cString_append_nul hnul []) hfits, fun _ => by simp⟩
  · obtain ⟨t, hlen, hwrote⟩ := OutputStream.writeString_counted hw hhost hfits h
    exact ⟨t, hlen ▸ stringCount_lt s, hwrote,
      iff_of_false (cString_ne_of_length_lt (hlen ▸ stringCount_lt_length hfits)) hfits,
      fun h => absurd h hfits⟩

theorem writeRequestHeader_spec (hw : os.Wf) (hhost : os.doByteSwap = host.aceCdrByteOrder)
    {requestId : BitVec 32} {responseFlags : UInt8} {ident : Identity} {opname : List UInt8}
    (hname : 0 ∉ ident.name) (hcategory : 0 ∉ ident.category) (hopname : 0 ∉ opname)
    (h : IcmProtocol.writeRequestHeader host requestId responseFlags ident opname os = some os') :
    ∃ header : WireHeader, os.Wrote os' header.bytes ∧
      (header.header =
          ⟨requestId.toNat, responseFlags ≠ 0, ident.name, ident.category, opname, true⟩ ↔
        StringFits ident.name ∧ StringFits ident.category ∧ StringFits opname) := by
  obtain ⟨os₁, h₁, h⟩ := Option.bind_eq_some_iff.mp h
  obtain ⟨os₂, h₂, h⟩ := Option.bind_eq_some_iff.mp h
  obtain ⟨os₃, h₃, h⟩ := Option.bind_eq_some_iff.mp h
  obtain ⟨os₄, h₄, h₅⟩ := Option.bind_eq_some_iff.mp h
  have hw₁ := OutputStream.writeCount_spec hw hhost requestId.isLt h₁
  have hw₂ := hw₁.trans (OutputStream.write1_spec hw₁.wf h₂)
  obtain ⟨name, hlt₃, hwrote₃, heard₃, -⟩ :=
    writeString_heard hw₂.wf (hw₂.swap_eq.trans hhost) hname h₃
  have hw₃ := hw₂.trans hwrote₃
  obtain ⟨category, hlt₄, hwrote₄, heard₄, -⟩ :=
    writeString_heard hw₃.wf (hw₃.swap_eq.trans hhost) hcategory h₄
  have hw₄ := hw₃.trans hwrote₄
  obtain ⟨operation, hlt₅, hwrote₅, heard₅, hne⟩ :=
    writeString_heard hw₄.wf (hw₄.swap_eq.trans hhost) hopname h₅
  refine ⟨⟨requestId, responseFlags, name, category, operation, hlt₃, hlt₄, hlt₅⟩, ?_, ?_⟩
  · have hwrote := hw₄.trans hwrote₅
    simp only [List.append_assoc] at hwrote
    exact hwrote
  · simp only [WireHeader.header, RequestHeader.mk.injEq, true_and, heard₃, heard₄, heard₅,
      decide_eq_true_eq]
    exact ⟨fun h => ⟨h.1, h.2.1, h.2.2.1⟩, fun h => ⟨h.1, h.2.1, h.2.2, hne h.2.2⟩⟩

end Write

end Icm.Rpc
