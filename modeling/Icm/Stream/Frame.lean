import Icm.Stream.Bounds

/-!
# Frames

The format that the RPC protocol (`icm/IcmProtocol.cpp`) and the message protocol
(`msg/MsgProtocol.cpp`) share: a header of five bytes, which are the length of the body in network
order and a type, and the body.
-/

namespace Icm.Stream

open Icm.Lib OutputStream MessageBlock

def headerLen : ℕ := 5

def messageTypeOffset : ℕ := 4

def frame (type : UInt8) (body : List UInt8) : List UInt8 :=
  wire 4 body.length ++ type :: body

@[simp] theorem length_frame (type : UInt8) (body : List UInt8) :
    (frame type body).length = headerLen + body.length := by
  simp only [frame, List.length_append, length_wire, List.length_cons, headerLen]
  omega

variable (host : ByteOrder)

def startFrame (type : UInt8) (os : OutputStream) : Option OutputStream := do
  let os ← os.writeUint host 0
  os.writeOctet type

def patchLength (os : OutputStream) : OutputStream :=
  let bodyLen := toUInt (os.totalLength - headerLen)
  let image := swapCopy os.doByteSwap (host.image 4 bodyLen)
  match os.done with
  | [] => { os with current := os.current.poke os.current.rdPtr image }
  | b :: bs => { os with done := b.poke b.rdPtr image :: bs }

theorem patchLength_blocks (os : OutputStream) :
    (patchLength host os).blocks =
      os.beginBlock.poke os.beginBlock.rdPtr
        (swapCopy os.doByteSwap (host.image 4 (toUInt (os.totalLength - headerLen))))
        :: os.blocks.tail := by
  rcases hd : os.done with _ | ⟨b, bs⟩ <;>
    simp [patchLength, hd, blocks, beginBlock]

structure Framed (host : ByteOrder) (type : UInt8) (os : OutputStream) (body : List UInt8) :
    Prop where
  wf : os.Wf
  swap : os.doByteSwap = host.aceCdrByteOrder
  begin_le : headerLen ≤ os.beginBlock.length
  filled : os.Filled
  bytes : os.bytes = wire 4 0 ++ type :: body

theorem startFrame_framed (type : UInt8) (heap : ℕ → Chunk) :
    ∃ os, startFrame host type (.create host heap) = some os ∧ Framed host type os [] := by
  have hw := create_wf host heap
  have hwr : (create host heap).current.wrPtr = 0 := mbAlign_wrPtr _
  have hend : (create host heap).current.endPtr = defaultBufsize + maxAlignment := rfl
  have hsize : (defaultBufsize + maxAlignment : ℕ) = 520 := rfl
  have h₁ := writeN_of_fits (x := host.image 4 (toUInt 0)) hw.rest_nil
    (by rw [hwr, hend, host.length_image]; omega)
  have hspec₁ := writeUint_spec hw rfl h₁
  have h₂ := write1_of_fits (x := type) hspec₁.wf.rest_nil (by
    change (create host heap).current.wrPtr + _ + 1 ≤
      (create host heap).current.endPtr
    rw [hwr, hend, length_swapCopy, host.length_image]
    omega)
  have hspec := hspec₁.trans (write1_spec hspec₁.wf h₂)
  have hlen : ∀ b ∈ [((create host heap).current.append (swapCopy
      (create host heap).doByteSwap (host.image 4 (toUInt 0)))).append
      [type]], b.length = headerLen := by
    intro b hb
    obtain rfl := List.mem_singleton.mp hb
    simp [length, create, headerLen]
  refine ⟨_, Option.bind_eq_some_iff.mpr ⟨_, h₁, h₂⟩, hspec.wf, hspec.swap_eq, ?_, ?_, ?_⟩
  · exact (hlen _ List.mem_cons_self).ge
  · intro b hb
    rw [hlen b hb]
    decide
  · rw [hspec.bytes_eq, create_bytes]
    rfl

namespace Framed

variable {host : ByteOrder} {type : UInt8} {os os' : OutputStream} {body bs : List UInt8}

section

variable (h : Framed host type os body)
include h

theorem wrote (hw : os.Wrote os' bs) :
    Framed host type os' (body ++ bs) where
  wf := hw.wf
  swap := hw.swap_eq.trans h.swap
  begin_le := h.begin_le.trans hw.begin_le
  filled := hw.filled h.filled
  bytes := by rw [hw.bytes_eq, h.bytes]; simp

theorem totalLength :
    os.totalLength = headerLen + body.length := by
  rw [← os.length_bytes, h.bytes]
  simp only [List.length_append, length_wire, List.length_cons, headerLen]
  omega

theorem length_body_lt : body.length < 2 ^ 32 := by
  have hlt := totalLength_lt h.wf
  have htotal := h.totalLength
  omega

theorem patchLength_bytes :
    (patchLength host os).bytes = frame type body := by
  have hlen : toUInt (os.totalLength - headerLen) = body.length := by
    rw [h.totalLength, Nat.add_sub_cancel_left]
    exact toUInt_of_lt h.length_body_lt
  have hword : swapCopy os.doByteSwap (host.image 4 body.length) = wire 4 body.length := by
    rw [h.swap, swapCopy_image]
    rfl
  have hfour : (wire 4 body.length).length ≤ os.beginBlock.length := by
    rw [length_wire]
    exact le_trans (by decide) h.begin_le
  -- the bytes behind the length stay: in the first block, and in the blocks after it
  have hpoke : (os.beginBlock.poke os.beginBlock.rdPtr (wire 4 body.length)).contents =
      wire 4 body.length ++ os.beginBlock.contents.drop 4 := by
    have hslice := Mem.slice_splice_of_length_le os.beginBlock.dataBlock.mem os.beginBlock.rdPtr
      (wire 4 body.length) hfour
    rw [length_wire] at hslice
    have hdrop := Mem.drop_slice os.beginBlock.dataBlock.mem os.beginBlock.rdPtr
      os.beginBlock.length 4
    exact hslice.trans (congrArg _ hdrop.symm)
  have hbytes : os.bytes.drop 4 =
      os.beginBlock.contents.drop 4 ++ os.blocks.tail.flatMap contents := by
    have hlen4 : 4 ≤ os.beginBlock.contents.length := by
      rw [length_contents]
      exact le_trans (by decide) h.begin_le
    rw [OutputStream.bytes, os.blocks_eq_cons, List.flatMap_cons, List.tail_cons,
      List.drop_append_of_le_length hlen4]
  have hbody : os.bytes.drop 4 = type :: body := by
    rw [h.bytes, List.drop_left' (length_wire _ _)]
  rw [OutputStream.bytes, patchLength_blocks, hlen, hword, List.flatMap_cons, hpoke,
    List.append_assoc, ← hbytes, hbody]
  rfl

end

end Framed

namespace InputStream

def fill (is : InputStream) (buf : ℕ) (bs : List UInt8) : InputStream :=
  { is with start := is.start.poke buf bs }

variable (is : InputStream) (buf : ℕ) (bs : List UInt8)

@[simp] theorem fill_rdPtr : (is.fill buf bs).rdPtr = is.rdPtr := rfl

@[simp] theorem fill_wrPtr : (is.fill buf bs).start.wrPtr = is.start.wrPtr := rfl

@[simp] theorem fill_endPtr : (is.fill buf bs).endPtr = is.endPtr := rfl

@[simp] theorem fill_size : (is.fill buf bs).start.size = is.start.size := rfl

@[simp] theorem fill_doByteSwap : (is.fill buf bs).doByteSwap = is.doByteSwap := rfl

@[simp] theorem fill_goodBit : (is.fill buf bs).goodBit = is.goodBit := rfl

theorem fill_nil : is.fill buf [] = is := by
  simp [fill, MessageBlock.poke]

theorem fill_fill (as : List UInt8) :
    (is.fill buf as).fill (buf + as.length) bs = is.fill buf (as ++ bs) := by
  simp only [fill, MessageBlock.poke, Mem.splice_splice]

theorem bytesAt_fill : (is.fill buf bs).start.bytesAt buf bs.length = bs :=
  bytesAt_poke_self _ _ _ rfl

theorem bytesAt_fill_append {i k : ℕ} (h : i + k = buf) :
    (is.fill buf bs).start.bytesAt i (k + bs.length) = is.start.bytesAt i k ++ bs := by
  rw [bytesAt_add, h, bytesAt_fill]
  exact congrArg (· ++ bs) (is.start.bytesAt_poke_of_le bs h.le)

theorem fill_starts {is : InputStream} {bs : List UInt8} (h : is.rdPtr + bs.length ≤ is.endPtr) :
    (is.fill is.rdPtr bs).Starts bs :=
  ⟨h, is.bytesAt_fill is.rdPtr bs⟩

theorem read_header {host : ByteOrder} {is : InputStream} (hrd : is.rdPtr = 0)
    (hend : headerLen ≤ is.endPtr) (hswap : is.doByteSwap = host.aceCdrByteOrder) {n : ℕ}
    (hn : n < 2 ^ 32) (type : UInt8) (old : ℕ) :
    (is.fill 0 (wire 4 n ++ [type])).readUint host old =
        ⟨true, n, (is.fill 0 (wire 4 n ++ [type])).skip 4⟩ ∧
      (is.fill 0 (wire 4 n ++ [type])).start.dataBlock.mem messageTypeOffset = type := by
  have hlen : (wire 4 n ++ [type]).length = headerLen := by simp [headerLen]
  have hbytes := bytesAt_fill is 0 (wire 4 n ++ [type])
  have hstarts : (is.fill 0 (wire 4 n ++ [type])).Starts (wire 4 n ++ [type]) := by
    rw [← hrd]
    exact fill_starts (by rw [hrd, hlen, Nat.zero_add]; exact hend)
  have hfill : (is.fill 0 (wire 4 n ++ [type])).doByteSwap = host.aceCdrByteOrder := hswap
  refine ⟨readUint_spec hfill hn hstarts.left old, ?_⟩
  have hget := congrArg (·[4]?) hbytes
  simp only [bytesAt, Mem.getElem?_slice, hlen] at hget
  simpa [headerLen, messageTypeOffset, wire, leBytes] using hget

end InputStream

end Icm.Stream
