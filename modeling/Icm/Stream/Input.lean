import Icm.Stream.Output

/-!
# The input stream

Class `InputStream` of `icm/IcmStream.cpp`: one message block that is read from its read offset on.
-/

namespace Icm.Stream

open Icm.Lib List

structure InputStream where
  start : MessageBlock
  doByteSwap : Bool
  goodBit : Bool

structure Reading (α : Type) where
  ok : Bool
  val : α
  stream : InputStream

def Reading.map {α β : Type} (f : α → β) (r : Reading α) : Reading β :=
  ⟨r.ok, f r.val, r.stream⟩

namespace InputStream

def create (host : ByteOrder) (c : Chunk) (bufsiz : ℕ) : InputStream where
  start := MessageBlock.alloc c bufsiz
  doByteSwap := host.aceCdrByteOrder
  goodBit := true

def ofOutput (host : ByteOrder) (c : Chunk) (os : OutputStream) : InputStream where
  start := os.blocks.foldl (fun mb b => mb.copy b.contents)
    (MessageBlock.alloc c (os.totalLength + maxAlignment)).mbAlign
  doByteSwap := host.aceCdrByteOrder
  goodBit := true

def grow (is : InputStream) (c₁ c₂ : Chunk) (newsize : ℕ) : InputStream :=
  let mb := (is.start.grow c₁ c₂ newsize).mbAlign
  { is with start := { mb with wrPtr := mb.wrPtr + newsize } }

def rdPtr (is : InputStream) : ℕ := is.start.rdPtr

def endPtr (is : InputStream) : ℕ := is.start.endPtr

def resetByteOrder (is : InputStream) (host : ByteOrder) : InputStream :=
  { is with doByteSwap := host.aceCdrByteOrder }

def transferContents (is : InputStream) (host : ByteOrder) (c : Chunk) :
    InputStream × InputStream :=
  ({ start := is.start, doByteSwap := host.aceCdrByteOrder, goodBit := true },
    { is with start := MessageBlock.ofDataBlock (is.start.dataBlock.cloneNoCopy c) })

def stealFrom (is cdr : InputStream) (host : ByteOrder) (c : Chunk) : InputStream × InputStream :=
  ({ is with start := cdr.start, doByteSwap := host.aceCdrByteOrder },
    { cdr with start := MessageBlock.ofDataBlock (cdr.start.dataBlock.cloneNoCopy c) })

theorem transferContents_eq {host : ByteOrder} {is : InputStream}
    (hswap : is.doByteSwap = host.aceCdrByteOrder) (hgood : is.goodBit = true) (c : Chunk) :
    (is.transferContents host c).1 = is := by
  rw [transferContents, ← hswap, ← hgood]

theorem stealFrom_eq {host : ByteOrder} {is cdr : InputStream}
    (hswap : cdr.doByteSwap = host.aceCdrByteOrder) (hcdr : cdr.goodBit = true)
    (hgood : is.goodBit = true) (c : Chunk) : (is.stealFrom cdr host c).1 = cdr := by
  rw [stealFrom, ← hswap, hgood, ← hcdr]

def skip (is : InputStream) (n : ℕ) : InputStream :=
  { is with start := { is.start with rdPtr := is.start.rdPtr + n } }

def fail (is : InputStream) : InputStream :=
  { is with goodBit := false }

def adjust (is : InputStream) (size : ℕ) : Option ℕ × InputStream :=
  if is.rdPtr + size ≤ is.endPtr then (some is.rdPtr, is.skip size) else (none, is.fail)

def readN (is : InputStream) (n : ℕ) (old : List UInt8) : Reading (List UInt8) :=
  match is.adjust n with
  | (some buf, is') => ⟨true, swapCopy is.doByteSwap (is.start.bytesAt buf n), is'⟩
  | (none, is') => ⟨false, old, is'⟩

def read1 (is : InputStream) (old : UInt8) : Reading UInt8 :=
  if is.rdPtr < is.endPtr then ⟨true, is.start.dataBlock.mem is.rdPtr, is.skip 1⟩
  else ⟨false, old, is.fail⟩

def copyElems (is : InputStream) (size : ℕ) : ℕ → ℕ → List (List UInt8)
  | 0, _ => []
  | length + 1, buf =>
    swapCopy is.doByteSwap (is.start.bytesAt buf size) :: copyElems is size length (buf + size)

def readArray (is : InputStream) (size length : ℕ) : Reading (Option (List (List UInt8))) :=
  match is.adjust (size * length) with
  | (some buf, is') => ⟨is.goodBit, some (is.copyElems size length buf), is'⟩
  | (none, is') => ⟨false, none, is'⟩

def skipBytes (is : InputStream) (len : ℕ) : Bool × InputStream :=
  if is.rdPtr + len ≤ is.endPtr then (true, is.skip len) else (false, is.fail)

section Typed

variable (host : ByteOrder) (is : InputStream)

def readOctet (old : UInt8) : Reading UInt8 := is.read1 old

def readChar (old : UInt8) : Reading UInt8 := is.read1 old

def readBoolean (junk : UInt8) : Reading Bool :=
  let r := is.readOctet junk
  ⟨r.stream.goodBit, r.val ≠ 0, r.stream⟩

def readWord (w : ℕ) (old : BitVec (8 * w)) : Reading (BitVec (8 * w)) :=
  let r := is.readN w (host.image w old.toNat)
  ⟨r.ok, BitVec.ofNat _ (host.value r.val), r.stream⟩

def readShort (old : BitVec 16) : Reading (BitVec 16) := is.readWord host 2 old

def readUshort (old : BitVec 16) : Reading (BitVec 16) := is.readWord host 2 old

def readInt (old : BitVec 32) : Reading (BitVec 32) := is.readWord host 4 old

def readUint (old : ℕ) : Reading ℕ :=
  let r := is.readN 4 (host.image 4 old)
  ⟨r.ok, host.value r.val, r.stream⟩

def readLong (old : BitVec 64) : Reading (BitVec 64) := is.readWord host 8 old

def readUlong (old : BitVec 64) : Reading (BitVec 64) := is.readWord host 8 old

def readUnswapped (w : ℕ) (old : BitVec (8 * w)) : Reading (BitVec (8 * w)) :=
  let r := ({ is with doByteSwap := false } : InputStream).readWord host w old
  ⟨r.ok, r.val, { r.stream with doByteSwap := is.doByteSwap }⟩

def readFloat (old : BitVec 32) : Reading (BitVec 32) := is.readUnswapped host 4 old

def readDouble (old : BitVec 64) : Reading (BitVec 64) := is.readUnswapped host 8 old

def readString (junk : ℕ) : Reading (List UInt8) :=
  let r := is.readUint host junk
  if 0 < r.val then
    let a := r.stream.readArray 1 r.val
    match a.ok, a.val with
    | true, some data => ⟨true, cString data.flatten, a.stream⟩
    | _, _ => ⟨false, [], a.stream⟩
  else ⟨false, [], r.stream⟩

def resize {α : Type} (v : List α) (n : ℕ) (zero : α) : List α :=
  v.take n ++ replicate (n - v.length) zero

def readSeq (size sz : ℕ) {α : Type} (elem : List UInt8 → α) (zero : α) (v : List α) :
    Reading (List α) :=
  let r := is.readUint host sz
  if 0 < r.val then
    let a := r.stream.readArray size r.val
    ⟨false, (a.val.map (map elem)).getD (resize v r.val zero), a.stream⟩
  else ⟨false, v, r.stream⟩

def word (w : ℕ) (bs : List UInt8) : BitVec (8 * w) := BitVec.ofNat _ (host.value bs)

def readByteSeq (junk : ℕ) (v : List UInt8) : Reading (List UInt8) :=
  is.readSeq host 1 junk (fun bs => bs.headD 0) 0 v

def readBooleanArray (junk : UInt8) : ℕ → InputStream → List Bool → Reading (List Bool)
  | 0, is, v => ⟨is.goodBit, v, is⟩
  | length + 1, is, v =>
    if is.goodBit then
      let r := is.readBoolean junk
      readBooleanArray junk length r.stream (v ++ [r.val])
    else ⟨is.goodBit, v, is⟩

def readBoolSeq (junk : ℕ) (v : List Bool) : Reading (List Bool) :=
  let r := is.readUint host junk
  if 0 < r.val then
    let a := readBooleanArray (UInt8.ofNat junk) r.val r.stream v
    ⟨false, a.val, a.stream⟩
  else ⟨false, v, r.stream⟩

def readShortSeq (v : List (BitVec 16)) : Reading (List (BitVec 16)) :=
  is.readSeq host 2 0 (word host 2) 0 v

def readIntSeq (v : List (BitVec 32)) : Reading (List (BitVec 32)) :=
  is.readSeq host 4 0 (word host 4) 0 v

def readLongSeq (v : List (BitVec 64)) : Reading (List (BitVec 64)) :=
  is.readSeq host 8 0 (word host 8) 0 v

def readFloatSeq (v : List (BitVec 32)) : Reading (List (BitVec 32)) :=
  is.readSeq host 4 0 (word host 4) 0 v

def readDoubleSeq (v : List (BitVec 64)) : Reading (List (BitVec 64)) :=
  is.readSeq host 8 0 (word host 8) 0 v

def readStrings (junk : ℕ) : ℕ → InputStream → List (List UInt8) → Reading (List (List UInt8))
  | 0, is, v => ⟨false, v, is⟩
  | sz + 1, is, v =>
    let r := is.readString host junk
    readStrings junk sz r.stream (v ++ [r.val])

def readStringSeq (junk : ℕ) (v : List (List UInt8)) : Reading (List (List UInt8)) :=
  let r := is.readUint host 0
  if 0 < r.val then readStrings host junk r.val r.stream []
  else ⟨false, v, r.stream⟩

end Typed

variable (is : InputStream)

@[simp] theorem skip_rdPtr (n : ℕ) : (is.skip n).rdPtr = is.rdPtr + n := rfl

@[simp] theorem skip_endPtr (n : ℕ) : (is.skip n).endPtr = is.endPtr := rfl

@[simp] theorem skip_doByteSwap (n : ℕ) :
    (is.skip n).doByteSwap = is.doByteSwap := rfl

@[simp] theorem skip_goodBit (n : ℕ) : (is.skip n).goodBit = is.goodBit := rfl

@[simp] theorem skip_zero : is.skip 0 = is := rfl

theorem skip_skip (a b : ℕ) : (is.skip a).skip b = is.skip (a + b) := by
  simp only [skip, Nat.add_assoc]

def Starts (bs : List UInt8) : Prop :=
  is.rdPtr + bs.length ≤ is.endPtr ∧ is.start.bytesAt is.rdPtr bs.length = bs

namespace Starts

variable {is : InputStream} {as bs : List UInt8}

theorem left (h : is.Starts (as ++ bs)) : is.Starts as := by
  obtain ⟨hle, hbytes⟩ := h
  rw [length_append] at hle
  refine ⟨by omega, ?_⟩
  rw [length_append, MessageBlock.bytesAt_add] at hbytes
  exact (append_inj hbytes (by simp)).1

theorem right (h : is.Starts (as ++ bs)) : (is.skip as.length).Starts bs := by
  obtain ⟨hle, hbytes⟩ := h
  rw [length_append] at hle
  refine ⟨by simp only [skip_rdPtr, skip_endPtr]; omega, ?_⟩
  rw [length_append, MessageBlock.bytesAt_add] at hbytes
  exact (append_inj hbytes (by simp)).2

theorem adjust_eq (h : is.Starts as) {n : ℕ} (hn : as.length = n) :
    is.adjust n = (some is.rdPtr, is.skip n) := by
  rw [adjust, ← hn, if_pos h.1]

theorem skipBytes_eq (h : is.Starts as) {n : ℕ} (hn : as.length = n) :
    is.skipBytes n = (true, is.skip n) := by
  rw [skipBytes, ← hn, if_pos h.1]

end Starts

section Spec

variable {is : InputStream} {as bs : List UInt8}

theorem readN_spec (h : is.Starts as) {n : ℕ} (hn : as.length = n) (old : List UInt8) :
    is.readN n old = ⟨true, swapCopy is.doByteSwap as, is.skip n⟩ := by
  have hbytes := h.2
  rw [hn] at hbytes
  simp only [readN, h.adjust_eq hn, hbytes]

theorem read1_spec {x : UInt8} (h : is.Starts [x]) (old : UInt8) :
    is.read1 old = ⟨true, x, is.skip 1⟩ := by
  have hlt : is.rdPtr < is.endPtr := h.1
  have hmem : is.start.dataBlock.mem is.rdPtr = x := head_eq_of_cons_eq h.2
  simp only [read1, hlt, ↓reduceIte, hmem]

theorem copyElems_spec {size : ℕ} (xs : List (List UInt8)) (hxs : ∀ x ∈ xs, x.length = size)
    (is : InputStream) (buf : ℕ)
    (h : is.start.bytesAt buf xs.flatten.length = xs.flatten) :
    is.copyElems size xs.length buf = xs.map (swapCopy is.doByteSwap) := by
  induction xs generalizing buf with
  | nil => rfl
  | cons x xs ih =>
    have hx : x.length = size := hxs x mem_cons_self
    rw [flatten_cons, length_append, MessageBlock.bytesAt_add] at h
    obtain ⟨hhead, htail⟩ := append_inj h (by simp)
    rw [hx] at hhead htail
    rw [length_cons, copyElems, map_cons, hhead,
      ih (fun y hy => hxs y (mem_cons_of_mem x hy)) _ htail]

theorem length_flatten_of_forall {size : ℕ} {xs : List (List UInt8)}
    (hxs : ∀ x ∈ xs, x.length = size) : xs.flatten.length = size * xs.length := by
  rw [length_flatten, map_congr_left hxs]
  simp [Nat.mul_comm]

theorem readArray_spec {size : ℕ} {xs : List (List UInt8)} (hxs : ∀ x ∈ xs, x.length = size)
    (h : is.Starts xs.flatten) {n : ℕ} (hn : xs.length = n) :
    is.readArray size n =
      ⟨is.goodBit, some (xs.map (swapCopy is.doByteSwap)), is.skip xs.flatten.length⟩ := by
  subst hn
  have hlen := length_flatten_of_forall hxs
  rw [readArray, h.adjust_eq hlen, hlen]
  simp only [copyElems_spec xs hxs is is.rdPtr h.2]

theorem readUint_spec {host : ByteOrder} (hhost : is.doByteSwap = host.aceCdrByteOrder) {x : ℕ}
    (hx : x < 2 ^ 32) (h : is.Starts (leBytes 4 x).reverse) (old : ℕ) :
    is.readUint host old = ⟨true, x, is.skip 4⟩ := by
  have hN := readN_spec h (n := 4) (by simp) (host.image 4 old)
  rw [hhost, ← swapCopy_image host, swapCopy_swapCopy] at hN
  simp only [readUint, hN, host.value_image]
  congr 1
  exact Nat.mod_eq_of_lt (by simpa using hx)

end Spec

private theorem foldl_copy_spec (bs : List MessageBlock) (mb : MessageBlock)
    (hord : mb.rdPtr ≤ mb.wrPtr)
    (hroom : mb.wrPtr + (bs.map MessageBlock.length).sum ≤ mb.endPtr) :
    (bs.foldl (fun mb b => mb.copy b.contents) mb).rdPtr = mb.rdPtr ∧
    (bs.foldl (fun mb b => mb.copy b.contents) mb).endPtr = mb.endPtr ∧
    (bs.foldl (fun mb b => mb.copy b.contents) mb).contents =
      mb.contents ++ bs.flatMap MessageBlock.contents := by
  induction bs generalizing mb with
  | nil => simp
  | cons b bs ih =>
    rw [map_cons, sum_cons] at hroom
    have hcopy : mb.copy b.contents = mb.append b.contents :=
      MessageBlock.copy_eq (by rw [MessageBlock.length_contents]; omega)
    obtain ⟨hrd, hend, hcont⟩ := ih (mb.append b.contents)
      (by simp only [MessageBlock.append_rdPtr, MessageBlock.append_wrPtr]; omega)
      (by
        simp only [MessageBlock.append_wrPtr, MessageBlock.append_endPtr,
          MessageBlock.length_contents]
        omega)
    rw [foldl_cons, hcopy]
    refine ⟨hrd, hend, ?_⟩
    rw [hcont, MessageBlock.contents_append hord, flatMap_cons, append_assoc]

theorem starts_ofOutput (host : ByteOrder) (c : Chunk) (os : OutputStream) :
    (ofOutput host c os).Starts os.bytes := by
  obtain ⟨hrd, hend, hcont⟩ := foldl_copy_spec os.blocks
    (MessageBlock.alloc c (os.totalLength + maxAlignment)).mbAlign (by simp)
    (by
      rw [MessageBlock.mbAlign_wrPtr, Nat.zero_add]
      exact Nat.le_add_right _ _)
  rw [MessageBlock.mbAlign_rdPtr] at hrd
  have hnil : (MessageBlock.alloc c (os.totalLength + maxAlignment)).mbAlign.contents = [] := by
    simp [MessageBlock.contents, MessageBlock.length]
  rw [hnil, nil_append] at hcont
  have hlen := congrArg length hcont
  rw [MessageBlock.length_contents] at hlen
  refine ⟨?_, ?_⟩
  · change (ofOutput host c os).start.rdPtr + _ ≤ (ofOutput host c os).start.endPtr
    rw [show (ofOutput host c os).start.rdPtr = 0 from hrd,
      show (ofOutput host c os).start.endPtr = _ from hend, os.length_bytes, Nat.zero_add]
    exact Nat.le_add_right _ _
  · rw [OutputStream.bytes, ← hlen]
    exact hcont

end InputStream

end Icm.Stream
