import Icm.Stream.Blocks

/-!
# The output stream

Class `OutputStream` of `icm/IcmStream.cpp`: a chain of message blocks that grows as values are
written.
-/

namespace Icm.Stream

open Icm.Lib List MessageBlock

structure OutputStream where
  done : List MessageBlock
  current : MessageBlock
  rest : List MessageBlock
  doByteSwap : Bool
  goodBit : Bool
  heap : ℕ → Chunk

namespace OutputStream

def create (host : ByteOrder) (heap : ℕ → Chunk) : OutputStream where
  done := []
  current := (alloc (heap 0) (defaultBufsize + maxAlignment)).mbAlign
  rest := []
  doByteSwap := host.aceCdrByteOrder
  goodBit := true
  heap := fun i => heap (i + 1)

variable (os : OutputStream)

def blocks : List MessageBlock := os.done ++ [os.current]

def beginBlock : MessageBlock := os.done.headD os.current

theorem blocks_eq_cons : os.blocks = os.beginBlock :: os.blocks.tail := by
  obtain ⟨done, _, _, _, _, _⟩ := os
  cases done <;> rfl

def bytes : List UInt8 := os.blocks.flatMap contents

def totalLength : ℕ := (os.blocks.map MessageBlock.length).sum

theorem length_bytes : os.bytes.length = os.totalLength := by
  simp only [bytes, totalLength, length_flatMap, MessageBlock.length_contents]

def maxBlockSize : ℕ := 100000

def take (os : OutputStream) (size : ℕ) : ℕ × OutputStream :=
  (os.current.wrPtr,
    { os with current := { os.current with wrPtr := os.current.wrPtr + size } })

def newBlockSize (current : MessageBlock) (rest : List MessageBlock) (size : ℕ) : ℕ :=
  let cursize := (rest.head?.getD current).size
  let minsize := size + maxAlignment
  nextSize (if minsize < cursize then cursize else minsize)

def growAndAdjust (os : OutputStream) (rest : List MessageBlock) (size : ℕ) :
    Option (ℕ × OutputStream) :=
  let newsize := newBlockSize os.current rest size
  if newsize ≤ maxBlockSize then
    let tmp := alloc (os.heap 0) newsize
    some (({ os with
      done := os.done ++ [os.current]
      current := tmp
      rest := rest
      goodBit := true
      heap := fun i => os.heap (i + 1) } : OutputStream).take size)
  else none

def adjustFrom (size : ℕ) : List MessageBlock → OutputStream → Option (ℕ × OutputStream)
  | rest, os =>
    if os.current.wrPtr + size ≤ os.current.endPtr then
      some (({ os with rest := rest } : OutputStream).take size)
    else
      match rest with
      | [] => os.growAndAdjust [] size
      | next :: rest =>
        if next.size < size + maxAlignment then os.growAndAdjust (next :: rest) size
        else adjustFrom size rest { os with done := os.done ++ [os.current], current := next }

def adjust (os : OutputStream) (size : ℕ) : Option (ℕ × OutputStream) :=
  adjustFrom size os.rest os

def poke (os : OutputStream) (buf : ℕ) (bs : List UInt8) : OutputStream :=
  { os with current := os.current.poke buf bs }

def writeN (os : OutputStream) (x : List UInt8) : Option OutputStream := do
  let (buf, os) ← os.adjust x.length
  return os.poke buf (swapCopy os.doByteSwap x)

def write1 (os : OutputStream) (x : UInt8) : Option OutputStream := do
  let (buf, os) ← os.adjust 1
  return os.poke buf [x]

def copyElems (size : ℕ) : List (List UInt8) → ℕ → OutputStream → OutputStream
  | [], _, os => os
  | x :: xs, buf, os => copyElems size xs (buf + size) (os.poke buf (swapCopy os.doByteSwap x))

def writeArray (os : OutputStream) (size : ℕ) (x : List (List UInt8)) : Option OutputStream := do
  let (buf, os) ← os.adjust (size * x.length)
  return copyElems size x buf os

def toUInt (n : ℕ) : ℕ := n % 2 ^ 32

section Typed

variable (host : ByteOrder) (os : OutputStream)

def writeOctet (x : UInt8) : Option OutputStream := os.write1 x

def writeBoolean (x : Bool) : Option OutputStream := os.writeOctet (if x then 1 else 0)

def writeChar (x : UInt8) : Option OutputStream := os.write1 x

def writeShort (x : BitVec 16) : Option OutputStream := os.writeN (host.image 2 x.toNat)

def writeUshort (x : BitVec 16) : Option OutputStream := os.writeN (host.image 2 x.toNat)

def writeInt (x : BitVec 32) : Option OutputStream := os.writeN (host.image 4 x.toNat)

def writeUint (x : ℕ) : Option OutputStream := os.writeN (host.image 4 (toUInt x))

def writeLong (x : BitVec 64) : Option OutputStream := os.writeN (host.image 8 x.toNat)

def writeUlong (x : BitVec 64) : Option OutputStream := os.writeN (host.image 8 x.toNat)

def writeUnswapped (x : List UInt8) : Option OutputStream := do
  let os' ← ({ os with doByteSwap := false } : OutputStream).writeN x
  return { os' with doByteSwap := os.doByteSwap }

def writeFloat (x : BitVec 32) : Option OutputStream := os.writeUnswapped (host.image 4 x.toNat)

def writeDouble (x : BitVec 64) : Option OutputStream := os.writeUnswapped (host.image 8 x.toNat)

def writeCharArray (x : List UInt8) (length : ℕ) : Option OutputStream :=
  os.writeArray 1 ((x.take length).map fun c => [c])

def writeString (x : List UInt8) : Option OutputStream :=
  let len := toUInt x.length
  if len ≠ 0 then do
    let os ← os.writeUint host (toUInt (len + 1))
    os.writeCharArray (x ++ [0]) (toUInt (len + 1))
  else do
    let os ← os.writeUint host 1
    os.writeChar 0

def writeSeq (size : ℕ) (v : List (List UInt8)) : Option OutputStream := do
  let os ← os.writeUint host v.length
  if 0 < v.length then os.writeArray size (v.take (toUInt v.length)) else return os

def writeByteSeq (v : List UInt8) : Option OutputStream :=
  os.writeSeq host 1 (v.map fun x => [x])

def writeBooleanArray : List Bool → OutputStream → Option OutputStream
  | [], os => some os
  | b :: v, os => if os.goodBit then (os.writeBoolean b).bind (writeBooleanArray v) else some os

def writeBoolSeq (v : List Bool) : Option OutputStream := do
  let os ← os.writeUint host v.length
  if 0 < v.length then writeBooleanArray (v.take (toUInt v.length)) os else return os

def writeShortSeq (v : List (BitVec 16)) : Option OutputStream :=
  os.writeSeq host 2 (v.map fun x => host.image 2 x.toNat)

def writeIntSeq (v : List (BitVec 32)) : Option OutputStream :=
  os.writeSeq host 4 (v.map fun x => host.image 4 x.toNat)

def writeLongSeq (v : List (BitVec 64)) : Option OutputStream :=
  os.writeSeq host 8 (v.map fun x => host.image 8 x.toNat)

def writeFloatSeq (v : List (BitVec 32)) : Option OutputStream :=
  os.writeSeq host 4 (v.map fun x => host.image 4 x.toNat)

def writeDoubleSeq (v : List (BitVec 64)) : Option OutputStream :=
  os.writeSeq host 8 (v.map fun x => host.image 8 x.toNat)

def writeStrings : List (List UInt8) → OutputStream → Option OutputStream
  | [], os => some os
  | s :: v, os => (os.writeString host s).bind (writeStrings v)

def writeStringSeq (v : List (List UInt8)) : Option OutputStream := do
  let os ← os.writeUint host v.length
  if 0 < v.length then writeStrings host v os else return os

end Typed

/-- What holds of a stream that was only written to: the current block is the last one, and every
block is filled from its start, within its capacity. -/
structure Wf (os : OutputStream) : Prop where
  rest_nil : os.rest = []
  good : os.goodBit = true
  ordered : ∀ b ∈ os.blocks, b.rdPtr = 0 ∧ b.wrPtr ≤ b.endPtr
  bounded : ∀ b ∈ os.blocks, b.endPtr ≤ maxBlockSize
  doubled : 2 ^ (8 + os.blocks.length) ≤ os.current.size

def Filled (os : OutputStream) : Prop := ∀ b ∈ os.blocks, 0 < b.length

variable (host : ByteOrder) (heap : ℕ → Chunk)

theorem create_wf : (create host heap).Wf where
  rest_nil := rfl
  good := rfl
  ordered := by simp [create, blocks]
  bounded := by
    simp [create, blocks, endPtr, alloc, ofDataBlock,
      DataBlock.alloc, defaultBufsize, maxAlignment, maxBlockSize]
  doubled := by
    simp [create, blocks, size, alloc, ofDataBlock,
      DataBlock.alloc, defaultBufsize, maxAlignment]

@[simp] theorem create_bytes :
    (create host heap).bytes = [] := by
  simp [create, bytes, blocks, MessageBlock.contents, MessageBlock.length]

@[simp] theorem create_doByteSwap :
    (create host heap).doByteSwap = host.aceCdrByteOrder := rfl

theorem le_newBlockSize (current : MessageBlock) (rest : List MessageBlock) (size : ℕ) :
    size + maxAlignment < newBlockSize current rest size := by
  refine lt_of_le_of_lt ?_ (lt_nextSize _)
  split_ifs with h
  · exact h.le
  · exact le_rfl

theorem current_size_lt_newBlockSize (current : MessageBlock) (size : ℕ) :
    current.size < newBlockSize current [] size := by
  have hle : current.size ≤
      (if size + maxAlignment < current.size then current.size else size + maxAlignment) := by
    split_ifs with h
    · exact le_rfl
    · exact Nat.not_lt.mp h
  exact lt_of_le_of_lt hle (lt_nextSize _)

theorem adjust_cases {os os' : OutputStream} {size buf : ℕ} (hrest : os.rest = [])
    (h : os.adjust size = some (buf, os')) :
    (os.current.wrPtr + size ≤ os.current.endPtr ∧ os.take size = (buf, os')) ∨
    (os.current.endPtr < os.current.wrPtr + size ∧
      newBlockSize os.current [] size ≤ maxBlockSize ∧
      ({ os with
        done := os.done ++ [os.current]
        current := alloc (os.heap 0) (newBlockSize os.current [] size)
        rest := []
        goodBit := true
        heap := fun i => os.heap (i + 1) } : OutputStream).take size = (buf, os')) := by
  rw [adjust, hrest, adjustFrom] at h
  split_ifs at h with hfit
  · have hos : ({ os with rest := [] } : OutputStream) = os := by rw [← hrest]
    rw [hos] at h
    exact Or.inl ⟨hfit, Option.some.inj h⟩
  · simp only [growAndAdjust] at h
    split_ifs at h with hsize
    exact Or.inr ⟨Nat.not_le.mp hfit, hsize, Option.some.inj h⟩

theorem take_poke (os : OutputStream) (bs : List UInt8) :
    (os.take bs.length).2.poke (os.take bs.length).1 bs =
      { os with current := os.current.append bs } := rfl

variable {os : OutputStream}

theorem append_current (hw : os.Wf) (bs : List UInt8)
    (hfit : os.current.wrPtr + bs.length ≤ os.current.endPtr) :
    ({ os with current := os.current.append bs } : OutputStream).Wf ∧
      ({ os with current := os.current.append bs } : OutputStream).bytes = os.bytes ++ bs := by
  have hcur := hw.ordered os.current (by simp [blocks])
  refine ⟨⟨hw.rest_nil, hw.good, ?_, ?_, ?_⟩, ?_⟩
  · intro b hb
    rcases mem_append.mp hb with hb | hb
    · exact hw.ordered b (mem_append_left _ hb)
    · obtain rfl := mem_singleton.mp hb
      exact ⟨hcur.1, hfit⟩
  · intro b hb
    rcases mem_append.mp hb with hb | hb
    · exact hw.bounded b (mem_append_left _ hb)
    · obtain rfl := mem_singleton.mp hb
      exact hw.bounded os.current (by simp [blocks])
  · simpa [blocks] using hw.doubled
  · simp only [bytes, blocks, flatMap_append, flatMap_singleton,
      contents_append (hcur.1.trans_le (Nat.zero_le _)), append_assoc]

theorem begin_append_current (os : OutputStream) (bs : List UInt8) :
    os.beginBlock.length ≤
      ({ os with current := os.current.append bs } : OutputStream).beginBlock.length := by
  obtain ⟨done, _, _, _, _, _⟩ := os
  cases done with
  | nil =>
    simp only [beginBlock, headD_nil, MessageBlock.length, MessageBlock.append_rdPtr,
      MessageBlock.append_wrPtr]
    omega
  | cons b done => exact le_rfl

theorem begin_newBlock (os : OutputStream) (mb : MessageBlock) (heap : ℕ → Chunk) :
    ({ os with
      done := os.done ++ [os.current]
      current := mb
      rest := []
      goodBit := true
      heap := heap } : OutputStream).beginBlock.length = os.beginBlock.length := by
  obtain ⟨done, _, _, _, _, _⟩ := os
  cases done <;> rfl

theorem newBlock_wf (hw : os.Wf) (size : ℕ)
    (hsize : newBlockSize os.current [] size ≤ maxBlockSize) :
    ({ os with
      done := os.done ++ [os.current]
      current := alloc (os.heap 0) (newBlockSize os.current [] size)
      rest := []
      goodBit := true
      heap := fun i => os.heap (i + 1) } : OutputStream).Wf := by
  refine ⟨rfl, rfl, ?_, ?_, ?_⟩
  · intro b hb
    rcases mem_append.mp hb with hb | hb
    · exact hw.ordered b hb
    · obtain rfl := mem_singleton.mp hb
      exact ⟨rfl, Nat.zero_le _⟩
  · intro b hb
    rcases mem_append.mp hb with hb | hb
    · exact hw.bounded b hb
    · obtain rfl := mem_singleton.mp hb
      exact hsize
  · -- both sizes are powers of two, up to the first block, and the new one is larger
    obtain ⟨k, hk⟩ := (scheduleSize_nextSize _).eq_two_pow
      (lt_of_le_of_lt hsize (by decide) :
        newBlockSize os.current [] size < 2 * linearGrowthChunk)
    have hlt := lt_of_le_of_lt hw.doubled (current_size_lt_newBlockSize os.current size)
    have hexp : 8 + os.blocks.length < k := by
      rw [newBlockSize, hk] at hlt
      exact (Nat.pow_lt_pow_iff_right (by decide)).mp hlt
    have hle : 2 ^ (8 + os.blocks.length + 1) ≤ newBlockSize os.current [] size := by
      rw [newBlockSize, hk]
      exact Nat.pow_le_pow_right (by decide) hexp
    change 2 ^ (8 + (os.blocks ++ [_]).length) ≤ newBlockSize os.current [] size
    simpa [Nat.add_assoc] using hle

theorem adjust_spec {os os' : OutputStream} {size buf : ℕ} (hw : os.Wf)
    (h : os.adjust size = some (buf, os')) :
    os'.doByteSwap = os.doByteSwap ∧
      ∀ bs : List UInt8, bs.length = size →
        (os'.poke buf bs).Wf ∧ (os'.poke buf bs).bytes = os.bytes ++ bs ∧
          (os.Filled → (os'.poke buf bs).Filled) ∧
          os.beginBlock.length ≤ (os'.poke buf bs).beginBlock.length := by
  have hcur := hw.ordered os.current (by simp [blocks])
  rcases adjust_cases hw.rest_nil h with ⟨hfit, htake⟩ | ⟨hfit, hsize, htake⟩
  · refine ⟨by rw [← (Prod.mk.inj htake).2], ?_⟩
    rintro bs rfl
    obtain ⟨hwf, hbytes⟩ := append_current hw bs hfit
    have hpoke := take_poke os bs
    rw [htake] at hpoke
    rw [hpoke]
    refine ⟨hwf, hbytes, fun hfill b hb => ?_, begin_append_current os bs⟩
    rcases mem_append.mp hb with hb | hb
    · exact hfill b (mem_append_left _ hb)
    · obtain rfl := mem_singleton.mp hb
      have := hfill os.current (by simp [blocks])
      simp only [MessageBlock.length, MessageBlock.append_rdPtr,
        MessageBlock.append_wrPtr] at this ⊢
      omega
  · refine ⟨by rw [← (Prod.mk.inj htake).2], ?_⟩
    rintro bs rfl
    have hnew := newBlock_wf hw bs.length hsize
    have hroom := le_newBlockSize os.current [] bs.length
    have hpoke := take_poke ({ os with
      done := os.done ++ [os.current]
      current := alloc (os.heap 0) (newBlockSize os.current [] bs.length)
      rest := []
      goodBit := true
      heap := fun i => os.heap (i + 1) } : OutputStream) bs
    rw [htake] at hpoke
    rw [hpoke]
    have hcap : (alloc (os.heap 0) (newBlockSize os.current [] bs.length)).endPtr =
        newBlockSize os.current [] bs.length := rfl
    obtain ⟨hwf, hbytes⟩ := append_current hnew bs (by
      change 0 + bs.length ≤ endPtr _
      rw [hcap]
      omega)
    refine ⟨hwf, ?_, fun hfill b hb => ?_, (begin_newBlock os _ _).ge⟩
    · rw [hbytes]
      congr 1
      simp [bytes, blocks, MessageBlock.contents, MessageBlock.length, MessageBlock.alloc,
        MessageBlock.ofDataBlock]
    · rcases mem_append.mp hb with hb | hb
      · exact hfill b hb
      · obtain rfl := mem_singleton.mp hb
        change 0 < 0 + bs.length - 0
        omega

structure Wrote (os os' : OutputStream) (bs : List UInt8) : Prop where
  wf : os'.Wf
  bytes_eq : os'.bytes = os.bytes ++ bs
  swap_eq : os'.doByteSwap = os.doByteSwap
  filled : os.Filled → os'.Filled
  begin_le : os.beginBlock.length ≤ os'.beginBlock.length

theorem Wrote.trans {os₁ os₂ os₃ : OutputStream} {as bs : List UInt8} (h₁ : Wrote os₁ os₂ as)
    (h₂ : Wrote os₂ os₃ bs) : Wrote os₁ os₃ (as ++ bs) where
  wf := h₂.wf
  bytes_eq := by rw [h₂.bytes_eq, h₁.bytes_eq, append_assoc]
  swap_eq := h₂.swap_eq.trans h₁.swap_eq
  filled := fun h => h₂.filled (h₁.filled h)
  begin_le := h₁.begin_le.trans h₂.begin_le

theorem Wrote.refl (hw : os.Wf) : Wrote os os [] :=
  ⟨hw, by simp, rfl, id, le_rfl⟩

section Spec

variable {os os' : OutputStream} (hw : os.Wf)

include hw

theorem adjust_wrote {size buf : ℕ} (h : os.adjust size = some (buf, os')) (bs : List UInt8)
    (hbs : bs.length = size) : Wrote os (os'.poke buf bs) bs := by
  obtain ⟨hswap, hspec⟩ := adjust_spec hw h
  obtain ⟨hwf, hbytes, hfilled, hbegin⟩ := hspec bs hbs
  exact ⟨hwf, hbytes, hswap, hfilled, hbegin⟩

variable {size : ℕ}

omit hw in
theorem adjust_of_fits (hrest : os.rest = [])
    (hfit : os.current.wrPtr + size ≤ os.current.endPtr) :
    os.adjust size = some (os.take size) := by
  have hos : ({ os with rest := [] } : OutputStream) = os := by rw [← hrest]
  rw [adjust, hrest, adjustFrom, if_pos hfit, hos]

variable {x : List UInt8}

omit hw in
theorem writeN_of_fits (hrest : os.rest = [])
    (hfit : os.current.wrPtr + x.length ≤ os.current.endPtr) :
    os.writeN x = some { os with current := os.current.append (swapCopy os.doByteSwap x) } := by
  have hpoke := take_poke os (swapCopy os.doByteSwap x)
  rw [length_swapCopy] at hpoke
  rw [writeN, adjust_of_fits hrest hfit]
  exact congrArg some hpoke

omit hw in
theorem write1_of_fits {x : UInt8} (hrest : os.rest = [])
    (hfit : os.current.wrPtr + 1 ≤ os.current.endPtr) :
    os.write1 x = some { os with current := os.current.append [x] } := by
  rw [write1, adjust_of_fits hrest hfit]
  exact congrArg some (take_poke os [x])

theorem exists_adjust (h : os.totalLength + size + maxAlignment < expGrowthMax) :
    ∃ r, os.adjust size = some r := by
  by_cases hfit : os.current.wrPtr + size ≤ os.current.endPtr
  · exact ⟨_, adjust_of_fits hw.rest_nil hfit⟩
  · have hcur := hw.ordered os.current (by simp [blocks])
    have hlen : os.current.length ≤ os.totalLength := by
      rw [totalLength, blocks, map_append, sum_append, map_singleton,
        sum_singleton]
      exact Nat.le_add_left _ _
    have hwr : os.current.length = os.current.wrPtr := by rw [MessageBlock.length, hcur.1]; rfl
    have hsize : os.current.size ≤ os.current.endPtr := os.current.dataBlock.cur_le
    have hnew : newBlockSize os.current [] size ≤ maxBlockSize := by
      refine (nextSize_le ?_).trans (by decide : expGrowthMax ≤ maxBlockSize)
      change (if size + maxAlignment < os.current.size then os.current.size
        else size + maxAlignment) < expGrowthMax
      split_ifs <;> omega
    rw [adjust, hw.rest_nil, adjustFrom, if_neg hfit]
    exact ⟨_, if_pos hnew⟩

theorem write1_spec {x : UInt8} (h : os.write1 x = some os') : Wrote os os' [x] := by
  obtain ⟨⟨buf, os₁⟩, hadj, hos'⟩ := Option.bind_eq_some_iff.mp h
  cases hos'
  exact adjust_wrote hw hadj [x] rfl

theorem writeN_spec (h : os.writeN x = some os') :
    Wrote os os' (swapCopy os.doByteSwap x) := by
  obtain ⟨⟨buf, os₁⟩, hadj, hos'⟩ := Option.bind_eq_some_iff.mp h
  cases hos'
  rw [← (adjust_spec hw hadj).1]
  exact adjust_wrote hw hadj _ (length_swapCopy _ _)

omit hw in
theorem copyElems_eq (xs : List (List UInt8)) (hxs : ∀ x ∈ xs, x.length = size)
    (buf : ℕ) (os : OutputStream) :
    copyElems size xs buf os = os.poke buf (xs.flatMap (swapCopy os.doByteSwap)) := by
  induction xs generalizing buf os with
  | nil => simp [copyElems, poke, MessageBlock.poke]
  | cons x xs ih =>
    have hx : (swapCopy os.doByteSwap x).length = size := by
      rw [length_swapCopy, hxs x mem_cons_self]
    rw [copyElems, ih fun y hy => hxs y (mem_cons_of_mem x hy), flatMap_cons]
    simp only [poke, MessageBlock.poke, ← hx, Mem.splice_splice]

theorem writeArray_spec {xs : List (List UInt8)} (hxs : ∀ x ∈ xs, x.length = size)
    (h : os.writeArray size xs = some os') :
    Wrote os os' (xs.flatMap (swapCopy os.doByteSwap)) := by
  obtain ⟨⟨buf, os₁⟩, hadj, hos'⟩ := Option.bind_eq_some_iff.mp h
  cases hos'
  have hlen : (xs.flatMap (swapCopy os.doByteSwap)).length = size * xs.length := by
    rw [length_flatMap, map_congr_left fun x hx =>
      (length_swapCopy os.doByteSwap x).trans (hxs x hx)]
    simp [Nat.mul_comm]
  rw [copyElems_eq xs hxs, (adjust_spec hw hadj).1]
  exact adjust_wrote hw hadj _ hlen

theorem writeUnswapped_spec (h : os.writeUnswapped x = some os') :
    Wrote os os' x := by
  obtain ⟨os₁, hwrite, hos'⟩ := Option.bind_eq_some_iff.mp h
  cases hos'
  have hw₀ : ({ os with doByteSwap := false } : OutputStream).Wf :=
    ⟨hw.rest_nil, hw.good, hw.ordered, hw.bounded, hw.doubled⟩
  have hspec := writeN_spec hw₀ hwrite
  exact ⟨⟨hspec.wf.rest_nil, hspec.wf.good, hspec.wf.ordered, hspec.wf.bounded,
    hspec.wf.doubled⟩, hspec.bytes_eq, rfl, hspec.filled, hspec.begin_le⟩

theorem writeUint_spec {host : ByteOrder} (hhost : os.doByteSwap = host.aceCdrByteOrder) {x : ℕ}
    (h : os.writeUint host x = some os') : Wrote os os' (leBytes 4 (toUInt x)).reverse := by
  have hspec := writeN_spec hw h
  rwa [hhost, swapCopy_image] at hspec

end Spec

theorem totalLength_lt (hw : os.Wf) : os.totalLength < 2 ^ 20 := by
  have hcur : os.current.size ≤ maxBlockSize :=
    os.current.dataBlock.cur_le.trans (hw.bounded os.current (by simp [blocks]))
  have hcount : os.blocks.length < 9 := by
    have h17 : 2 ^ (8 + os.blocks.length) < 2 ^ 17 :=
      lt_of_le_of_lt (hw.doubled.trans hcur) (by decide)
    have := (Nat.pow_lt_pow_iff_right (by decide)).mp h17
    omega
  have hsum : os.totalLength ≤ os.blocks.length * maxBlockSize := by
    have hle : ∀ n ∈ os.blocks.map MessageBlock.length, n ≤ maxBlockSize := by
      intro n hn
      obtain ⟨b, hb, rfl⟩ := mem_map.mp hn
      exact (Nat.sub_le _ _).trans ((hw.ordered b hb).2.trans (hw.bounded b hb))
    simpa [totalLength] using sum_le_card_nsmul _ _ hle
  calc os.totalLength ≤ os.blocks.length * maxBlockSize := hsum
    _ ≤ 8 * maxBlockSize := Nat.mul_le_mul_right _ (by omega)
    _ < 2 ^ 20 := by decide

end OutputStream

end Icm.Stream
