import Icm.Messaging.Receive

/-!
# The room for the body of a message

When the header of a message is complete, `MsgProtocol::parse` makes room for as many bytes as the
length field of the header says, and then asks the socket for the body, in one call or in several.
-/

namespace Icm.Messaging

open Icm.Lib Icm.Stream MsgProtocol InputStream OutputStream

def headerBytes (size : BitVec 32) (type : UInt8) : List UInt8 := wire 4 size.toNat ++ [type]

def bodyRoom (msg : Msg) : ℕ := msg.is.endPtr - (msg.is.rdPtr + (msg.currentOffset - headerLen))

def arrived (msg : Msg) (bs : List UInt8) : Msg :=
  { msg with
    is := msg.is.fill (msg.is.rdPtr + (msg.currentOffset - headerLen)) bs
    currentOffset := toUInt (msg.currentOffset + bs.length) }

section Calls

variable (host : ByteOrder) (junk : ℕ) (fresh : Fresh)

/-- The messages on which `parse` asks for the rest of a body, behind a given header: the first time
with the header complete, and again as long as less has arrived than it asked for. -/
inductive BodyCall (header : List UInt8) : Msg → Prop
  | first : BodyCall header
      (openBody host fresh.heap (headedMsg host junk fresh header headerLen))
  | next {msg : Msg} {bs : List UInt8} (h : BodyCall header msg) (hbs : bs ≠ [])
      (hhalf : (bs.length : ℤ) < bytesToRead msg) : BodyCall header (arrived msg bs)

variable {host junk fresh} {header : List UInt8} {msg msg' : Msg}

end Calls

section Sizes

structure RoomFor (size : BitVec 32) (msg : Msg) : Prop where
  messageSize_eq : msg.messageSize = size.toNat
  rdPtr_eq : msg.is.rdPtr = headerLen
  le_endPtr : toUInt (headerLen + size.toNat) + maxAlignment ≤ msg.is.endPtr
  endPtr_lt : msg.is.endPtr < 2 ^ 34

variable (host : ByteOrder) (junk : ℕ) (fresh : Fresh) (size : BitVec 32) (type : UInt8)

theorem roomFor_openBody : RoomFor size
    (openBody host fresh.heap (headedMsg host junk fresh (headerBytes size type) headerLen)) := by
  rw [headerBytes, openBody_headedMsg host junk fresh size.isLt type]
  refine ⟨rfl, ?_, le_grow_endPtr _ _ _ _, ?_⟩
  · rw [skip_rdPtr, grow_rdPtr, Nat.zero_add]
  · have hheader : (headerStream host junk fresh).endPtr ≤ 512 :=
      grow_endPtr_le (newMsg host junk fresh).is (fresh.heap 0) (fresh.heap 1) headerLen
    have hgrown := grow_endPtr_le
      (((headerStream host junk fresh).fill 0 (wire 4 size.toNat ++ [type])).skip 4) (fresh.heap 2)
      (fresh.heap 3) (toUInt (headerLen + size.toNat))
    have hfirst := firstSize_le_two_mul
      (toUInt (headerLen + size.toNat) + maxAlignment)
    have huint : toUInt (headerLen + size.toNat) < 2 ^ 32 := Nat.mod_lt _ (by decide)
    rw [skip_endPtr, fill_endPtr] at hgrown
    rw [skip_endPtr]
    simp only [defaultBufsize, maxAlignment] at hfirst hgrown
    omega

variable {host junk fresh size type} {msg : Msg}

theorem BodyCall.roomFor (hsize : size.toNat < 2 ^ 31)
    (h : BodyCall host junk fresh (headerBytes size type) msg) :
    RoomFor size msg ∧ headerLen ≤ msg.currentOffset ∧
      msg.currentOffset ≤ headerLen + size.toNat := by
  induction h with
  | first =>
    refine ⟨roomFor_openBody host junk fresh size type, ?_⟩
    rw [headerBytes, openBody_headedMsg host junk fresh size.isLt type]
    exact ⟨le_rfl, Nat.le_add_right _ _⟩
  | @next msg bs _ hbs hhalf ih =>
    obtain ⟨⟨hmsg, hrd, hle, hlt⟩, hoffset, hoffset'⟩ := ih
    rw [bytesToRead_of_lt (by rwa [hmsg]), hmsg] at hhalf
    have hsum : msg.currentOffset + bs.length ≤ headerLen + size.toNat := by omega
    have huint : (arrived msg bs).currentOffset = msg.currentOffset + bs.length :=
      toUInt_of_lt (by rw [headerLen] at hsum; omega)
    exact ⟨⟨hmsg, hrd, hle, hlt⟩, by omega, by omega⟩

theorem le_sizeT_of_le (host : ByteOrder) (junk : ℕ) (fresh : Fresh) (size : BitVec 32)
    (type : UInt8) (hsize : 2 ^ 31 ≤ size.toNat) : 2 ^ 34 ≤ sizeT (bytesToRead (openBody
      host fresh.heap (headedMsg host junk fresh (headerBytes size type) headerLen))) := by
  have hneg : size.toInt < 0 := by
    rw [BitVec.toInt_eq_toNat_cond, if_neg (by omega)]
    omega
  have hmin := size.le_toInt
  rw [headerBytes, openBody_headedMsg host junk fresh size.isLt type, bytesToRead]
  simp only [Nat.sub_self, Nat.sub_zero, BitVec.ofNat_toNat, BitVec.setWidth_eq]
  rw [sizeT]
  omega

/-- **The bytes that `parse` asks the socket for fit in the buffer exactly if the length field is
not negative as an `int`.** -/
theorem bodyCall_fits_iff (host : ByteOrder) (junk : ℕ) (fresh : Fresh) (size : BitVec 32)
    (type : UInt8) :
    (∀ msg, BodyCall host junk fresh (headerBytes size type) msg →
      sizeT (bytesToRead msg) ≤ bodyRoom msg) ↔ size.toNat < 2 ^ 31 := by
  constructor
  · intro h
    by_contra hsize
    have hfirst := h _ .first
    have hasked := le_sizeT_of_le host junk fresh size type (not_lt.mp hsize)
    have hlt := (roomFor_openBody host junk fresh size type).endPtr_lt
    rw [bodyRoom] at hfirst
    omega
  · intro hsize msg h
    obtain ⟨⟨hmsg, hrd, hle, -⟩, hoffset, hoffset'⟩ := h.roomFor hsize
    rw [toUInt_of_lt (by rw [headerLen]; omega)] at hle
    rw [bytesToRead_of_lt (by rwa [hmsg]), sizeT_natCast (by omega), bodyRoom, hrd, hmsg]
    omega

theorem bodyCall_beyond : ∃ msg, BodyCall .little 0 zeroFresh (headerBytes (2 ^ 31) 4) msg ∧
    bodyRoom msg < sizeT (bytesToRead msg) := by
  refine ⟨_, .first, ?_⟩
  have hasked := le_sizeT_of_le .little 0 zeroFresh (2 ^ 31) 4 (by decide)
  have hlt := (roomFor_openBody .little 0 zeroFresh (2 ^ 31) 4).endPtr_lt
  rw [bodyRoom]
  omega

end Sizes

end Icm.Messaging
