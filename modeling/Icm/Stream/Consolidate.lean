import Icm.Lib.Run
import Icm.Stream.Values

/-!
# Consolidating a chain into one block

`ACE_CDR::consolidate` of `icm/IcmStream.cpp`, which `InputStream::reset` calls to copy a chain of
message blocks into the block of the stream.
-/

namespace Icm.Stream

open Icm.Lib List

structure AnyBlock where
  base : ℕ
  rdPtr : ℕ
  wrPtr : ℕ
  curSize : ℕ
  maxSize : ℕ
  mem : Mem

structure Chain where
  rdAddr : ℕ
  blocks : List (List UInt8)

def Chain.bytes (src : Chain) : List UInt8 := src.blocks.flatten

def Chain.totalLength (src : Chain) : ℕ := (src.blocks.map length).sum

theorem Chain.length_bytes (src : Chain) : src.bytes.length = src.totalLength :=
  length_flatten

def MessageBlock.chain (mb : MessageBlock) (cont : List MessageBlock) : Chain where
  rdAddr := mb.dataBlock.base + mb.rdPtr
  blocks := (mb :: cont).map MessageBlock.contents

def MessageBlock.any (mb : MessageBlock) : AnyBlock where
  base := mb.dataBlock.base
  rdPtr := mb.rdPtr
  wrPtr := mb.wrPtr
  curSize := mb.dataBlock.curSize
  maxSize := mb.dataBlock.maxSize
  mem := mb.dataBlock.mem

namespace AnyBlock

def contents (mb : AnyBlock) : List UInt8 := mb.mem.slice mb.rdPtr (mb.wrPtr - mb.rdPtr)

def resize (mb : AnyBlock) (c : Chunk) (length : ℕ) : AnyBlock :=
  if length ≤ mb.maxSize then { mb with curSize := length }
  else
    { mb with
      base := c.addr
      curSize := length
      maxSize := length
      mem := c.junk.splice 0 (mb.mem.slice 0 mb.curSize) }

def append (mb : AnyBlock) (bs : List UInt8) : AnyBlock :=
  { mb with wrPtr := mb.wrPtr + bs.length, mem := mb.mem.splice mb.wrPtr bs }

def copy (mb : AnyBlock) (bs : List UInt8) : Option AnyBlock :=
  if mb.wrPtr ≤ mb.maxSize ∧ mb.maxSize - mb.wrPtr < bs.length then some mb
  else if bs = [] ∨ mb.wrPtr + bs.length ≤ mb.maxSize then some (mb.append bs)
  else none

def copyAll : List (List UInt8) → AnyBlock → Option AnyBlock
  | [], mb => some mb
  | bs :: blocks, mb => (mb.copy bs).bind (copyAll blocks)

def alignOffset (src dst : ℕ) : ℕ :=
  let srcalign := src % maxAlignment
  let dstalign := dst % maxAlignment
  if srcalign < dstalign then srcalign + maxAlignment - dstalign else srcalign - dstalign

def prepare (dst : AnyBlock) (c : Chunk) (src : Chain) : AnyBlock :=
  let dst := dst.resize c (firstSize src.totalLength)
  let start := dst.rdPtr + alignOffset src.rdAddr (dst.base + dst.rdPtr)
  { dst with rdPtr := start, wrPtr := start }

def consolidate (dst : AnyBlock) (c : Chunk) (src : Chain) : Option AnyBlock :=
  copyAll src.blocks (dst.prepare c src)

theorem any_resize (mb : MessageBlock) (c : Chunk) (length : ℕ) :
    mb.any.resize c length = ({ mb with dataBlock := mb.dataBlock.resize c length }).any := by
  by_cases h : length ≤ mb.dataBlock.maxSize
  · simp [resize, h, DataBlock.resize, MessageBlock.any]
  · simp [resize, h, DataBlock.resize, MessageBlock.any, DataBlock.alloc]

theorem any_copy {mb : MessageBlock} (h : mb.wrPtr ≤ mb.endPtr) (bs : List UInt8) :
    mb.any.copy bs = some (mb.copy bs).any := by
  have hle : mb.any.wrPtr ≤ mb.any.maxSize := h
  by_cases hroom : mb.endPtr - mb.wrPtr < bs.length
  · rw [copy, if_pos ⟨hle, hroom⟩, MessageBlock.copy, if_pos hroom]
  · have hfit : mb.any.wrPtr + bs.length ≤ mb.any.maxSize := by
      have hroom' : ¬ mb.any.maxSize - mb.any.wrPtr < bs.length := hroom
      omega
    rw [copy, if_neg (fun h => hroom h.2), if_pos (Or.inr hfit), MessageBlock.copy, if_neg hroom]
    rfl

variable {mb mb' : AnyBlock} {blocks : List (List UInt8)}

theorem copy_nil (mb : AnyBlock) : mb.copy [] = some mb := by
  simp [copy, append]

theorem copy_of_le {bs : List UInt8} (h : mb.wrPtr + bs.length ≤ mb.maxSize) :
    mb.copy bs = some (mb.append bs) := by
  have hroom : ¬ (mb.wrPtr ≤ mb.maxSize ∧ mb.maxSize - mb.wrPtr < bs.length) := by omega
  rw [copy, if_neg hroom, if_pos (Or.inr h)]

theorem contents_append (h : mb.rdPtr ≤ mb.wrPtr) (bs : List UInt8) :
    (mb.append bs).contents = mb.contents ++ bs := by
  have hlen : mb.wrPtr + bs.length - mb.rdPtr = (mb.wrPtr - mb.rdPtr) + bs.length := by omega
  have hend : mb.rdPtr + (mb.wrPtr - mb.rdPtr) = mb.wrPtr := by omega
  simp only [contents, append, hlen, Mem.slice_add, hend, Mem.slice_splice_self,
    Mem.slice_splice_of_le _ _ hend.le]

theorem copyAll_of_le (hord : mb.rdPtr ≤ mb.wrPtr)
    (h : mb.wrPtr + (blocks.map length).sum ≤ mb.maxSize) :
    ∃ mb', copyAll blocks mb = some mb' ∧ mb'.contents = mb.contents ++ blocks.flatten := by
  induction blocks generalizing mb with
  | nil => exact ⟨mb, rfl, (append_nil _).symm⟩
  | cons bs blocks ih =>
    rw [map_cons, sum_cons] at h
    have hord' : (mb.append bs).rdPtr ≤ (mb.append bs).wrPtr := hord.trans (Nat.le_add_right _ _)
    obtain ⟨mb', hcopy, hcont⟩ := ih hord' (by simp only [append]; omega)
    refine ⟨mb', ?_, ?_⟩
    · rw [copyAll, copy_of_le (by omega), Option.bind_some, hcopy]
    · rw [hcont, contents_append hord, flatten_cons, append_assoc]

theorem copyAll_of_sum_eq_zero (h : (blocks.map length).sum = 0) (mb : AnyBlock) :
    copyAll blocks mb = some mb := by
  induction blocks with
  | nil => rfl
  | cons bs blocks ih =>
    rw [map_cons, sum_cons] at h
    obtain rfl := length_eq_zero_iff.mp (Nat.eq_zero_of_add_eq_zero_right h)
    rw [copyAll, copy_nil, Option.bind_some, ih (Nat.eq_zero_of_add_eq_zero_left h)]

theorem copyAll_bounded (hle : mb.wrPtr ≤ mb.maxSize) (h : copyAll blocks mb = some mb') :
    mb'.rdPtr = mb.rdPtr ∧ mb'.wrPtr ≤ mb.maxSize := by
  induction blocks generalizing mb with
  | nil =>
    cases h
    exact ⟨rfl, hle⟩
  | cons bs blocks ih =>
    rw [copyAll, copy] at h
    split_ifs at h with hroom hfit
    · exact ih hle h
    · have hbound : (mb.append bs).wrPtr ≤ (mb.append bs).maxSize := by
        rcases hfit with rfl | hfit
        · exact hle
        · exact hfit
      have hrest := ih hbound h
      exact hrest
    · exact absurd h (by simp)

theorem copyAll_of_lt (hlt : mb.maxSize < mb.wrPtr) (hpos : 0 < (blocks.map length).sum) :
    copyAll blocks mb = none := by
  induction blocks with
  | nil => exact absurd hpos (lt_irrefl 0)
  | cons bs blocks ih =>
    rcases eq_or_ne bs [] with rfl | hne
    · rw [copyAll, copy_nil, Option.bind_some]
      exact ih (by simpa using hpos)
    · have hroom : ¬ (mb.wrPtr ≤ mb.maxSize ∧ mb.maxSize - mb.wrPtr < bs.length) :=
        fun h => absurd h.1 (Nat.not_le.mpr hlt)
      have hfit : ¬ (bs = [] ∨ mb.wrPtr + bs.length ≤ mb.maxSize) := by
        rintro (h | h)
        · exact hne h
        · omega
      rw [copyAll, copy, if_neg hroom, if_neg hfit]
      rfl

variable (dst : AnyBlock) (c : Chunk) (src : Chain)

def Room : Prop :=
  src.totalLength = 0 ∨
    dst.rdPtr +
        alignOffset src.rdAddr
          ((if firstSize src.totalLength ≤ dst.maxSize then dst.base else c.addr) + dst.rdPtr) +
        src.totalLength ≤
      max dst.maxSize (firstSize src.totalLength)

instance (dst : AnyBlock) (c : Chunk) (src : Chain) : Decidable (Room dst c src) :=
  inferInstanceAs (Decidable (_ ∨ _))

theorem room_iff :
    Room dst c src ↔ src.totalLength = 0 ∨
      (dst.prepare c src).wrPtr + src.totalLength ≤ (dst.prepare c src).maxSize := by
  unfold Room prepare resize
  split_ifs with h
  · simp only [max_eq_left h]
  · simp only [max_eq_right (Nat.not_le.mp h).le]

theorem consolidate_iff :
    (∃ dst', dst.consolidate c src = some dst' ∧ dst'.contents = src.bytes) ↔ Room dst c src := by
  rw [room_iff, consolidate]
  have hstart : (dst.prepare c src).rdPtr = (dst.prepare c src).wrPtr := rfl
  generalize dst.prepare c src = mb at hstart
  have hnil : mb.contents = [] := by
    rw [contents, hstart, Nat.sub_self]
    rfl
  constructor
  · rintro ⟨dst', hcopy, hcont⟩
    by_contra hroom
    obtain ⟨hne, hlt⟩ := not_or.mp hroom
    rcases Nat.lt_or_ge mb.maxSize mb.wrPtr with hout | hin
    · rw [copyAll_of_lt hout (Nat.pos_of_ne_zero hne)] at hcopy
      exact absurd hcopy (by simp)
    · obtain ⟨hrd, hwr⟩ := copyAll_bounded hin hcopy
      have hlen := congrArg length hcont
      rw [src.length_bytes, contents, Mem.length_slice] at hlen
      omega
  · rintro (hzero | hfit)
    · refine ⟨mb, copyAll_of_sum_eq_zero hzero mb, ?_⟩
      rw [hnil, eq_comm, ← length_eq_zero_iff, src.length_bytes, hzero]
    · obtain ⟨mb', hcopy, hcont⟩ := copyAll_of_le hstart.le hfit
      exact ⟨mb', hcopy, by rw [hcont, hnil]; rfl⟩

/-- What happens to the block of an input stream: `InputStream::reset` with a chain, or reads that
move the read pointer if the block has the bytes. -/
inductive ResetEvent
  | reset (c : Chunk) (src : Chain)
  | read (n : ℕ)

def step (mb : AnyBlock) : ResetEvent → Except Unit AnyBlock
  | .reset c src =>
    match mb.consolidate c src with
    | some mb' => .ok mb'
    | none => .error ()
  | .read n => .ok (if mb.rdPtr + n ≤ mb.maxSize then { mb with rdPtr := mb.rdPtr + n } else mb)

def ResetRight (mb : AnyBlock) : ResetEvent → Prop
  | .reset c src => ∃ mb', step mb (.reset c src) = .ok mb' ∧ mb'.contents = src.bytes
  | .read _ => True

def ResetRoom (mb : AnyBlock) : ResetEvent → Prop
  | .reset c src => Room mb c src
  | .read _ => True

instance (mb : AnyBlock) : ∀ e, Decidable (ResetRoom mb e)
  | .reset c src => inferInstanceAs (Decidable (Room mb c src))
  | .read _ => .isTrue trivial

theorem resetRight_iff (mb : AnyBlock) (e : ResetEvent) : ResetRight mb e ↔ ResetRoom mb e := by
  cases e with
  | read n => exact Iff.rfl
  | reset c src =>
    rw [ResetRoom, ← consolidate_iff, ResetRight, step]
    cases mb.consolidate c src <;> simp

/-- **When every reset of a stream leaves exactly the bytes of its chain readable**, whatever block
the stream has and however it is read between the resets: exactly if at every reset there is room
for the chain. -/
theorem resets_right_iff (mb : AnyBlock) (events : List ResetEvent) :
    EachStep step ResetRight mb events ↔ EachStep step ResetRoom mb events := by
  have hsame : ResetRight = ResetRoom := by
    funext mb e
    exact propext (resetRight_iff mb e)
  rw [hsame]

def smallBlock : AnyBlock := ⟨0, 0, 0, 512, 512, fun _ => 0⟩

theorem reset_loses_chain :
    (smallBlock.consolidate zeroChunk ⟨4, [replicate 512 1]⟩).map contents = some [] ∧
    (runSteps step smallBlock [.reset zeroChunk ⟨0, [replicate 300 1]⟩, .read 300,
      .reset zeroChunk ⟨0, [replicate 300 2]⟩]).map contents = .ok [] := by
  constructor <;> decide +kernel

end AnyBlock

end Icm.Stream
