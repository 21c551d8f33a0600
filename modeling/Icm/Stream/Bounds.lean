import Icm.Stream.Reads

/-!
# Reads and the end of the message

A received message lies between the read and the write offset of its stream, and
`InputStream::length` is the number of its bytes that are left.
-/

namespace Icm.Stream

open Icm.Lib

namespace InputStream

structure Received (is : InputStream) : Prop where
  rd_le_wr : is.rdPtr ≤ is.start.wrPtr
  wr_le_end : is.start.wrPtr ≤ is.endPtr

def length (is : InputStream) : ℕ := is.start.length

section Grow

variable (is : InputStream) (c₁ c₂ : Chunk) (newsize : ℕ)

@[simp] theorem grow_rdPtr : (is.grow c₁ c₂ newsize).rdPtr = 0 := by
  simp [grow, rdPtr]

@[simp] theorem grow_wrPtr : (is.grow c₁ c₂ newsize).start.wrPtr = newsize := by
  simp [grow]

@[simp] theorem grow_doByteSwap : (is.grow c₁ c₂ newsize).doByteSwap = is.doByteSwap := rfl

@[simp] theorem grow_goodBit : (is.grow c₁ c₂ newsize).goodBit = is.goodBit := rfl

theorem firstSize_le_grow_endPtr :
    firstSize (newsize + maxAlignment) ≤ (is.grow c₁ c₂ newsize).endPtr :=
  (is.start.firstSize_le_grow_size c₁ c₂ newsize).trans
    (is.start.grow c₁ c₂ newsize).dataBlock.cur_le

theorem le_grow_endPtr : newsize + maxAlignment ≤ (is.grow c₁ c₂ newsize).endPtr :=
  (le_firstSize _).trans (is.firstSize_le_grow_endPtr c₁ c₂ newsize)

theorem grow_endPtr_le : (is.grow c₁ c₂ newsize).endPtr ≤
    max is.endPtr (firstSize (newsize + maxAlignment)) :=
  is.start.grow_endPtr_le c₁ c₂ newsize

theorem grow_received : (is.grow c₁ c₂ newsize).Received where
  rd_le_wr := by simp
  wr_le_end := by
    have := le_grow_endPtr is c₁ c₂ newsize
    rw [grow_wrPtr]
    omega

end Grow

def InBounds (is : InputStream) (n : ℕ) : Prop :=
  ((is.fetch n).1.1.isSome ↔ n ≤ is.length) ∧
    ∀ bs, (is.fetch n).1.1 = some bs → bs <+: is.start.contents

def Bounded (is : InputStream) : Prop := is.rdPtr ≤ is.endPtr ∧ is.start.wrPtr ≤ is.endPtr

variable {is : InputStream}

theorem Received.bounded (h : is.Received) : is.Bounded :=
  ⟨h.rd_le_wr.trans h.wr_le_end, h.wr_le_end⟩

theorem Bounded.fetch (h : is.Bounded) (n : ℕ) : (is.fetch n).2.Bounded := by
  rcases Nat.lt_or_ge is.endPtr (is.rdPtr + n) with hn | hn
  · rw [fetch_of_lt hn]
    exact h
  · rw [fetch_of_le hn]
    exact ⟨hn, h.2⟩

theorem contents_eq_append {n : ℕ} (h : n ≤ is.length) :
    is.start.contents =
      is.start.bytesAt is.rdPtr n ++ is.start.bytesAt (is.rdPtr + n) (is.length - n) := by
  rw [← MessageBlock.bytesAt_add, Nat.add_sub_of_le h]
  rfl

theorem inBounds_iff (hb : is.Bounded) (n : ℕ) :
    is.InBounds n ↔ n ≤ is.length ∨ is.endPtr < is.rdPtr + n := by
  obtain ⟨hrd, hwr⟩ := hb
  rcases Nat.lt_or_ge is.endPtr (is.rdPtr + n) with hlt | hle
  · have hlong : ¬ n ≤ is.length := by
      have hlen : is.length = is.start.wrPtr - is.rdPtr := rfl
      omega
    simp [InBounds, fetch_of_lt hlt, hlt, hlong]
  · rw [InBounds, fetch_of_le hle]
    constructor
    · exact fun h => Or.inl (h.1.mp rfl)
    · intro h
      have hn : n ≤ is.length := h.resolve_right (Nat.not_lt.mpr hle)
      refine ⟨⟨fun _ => hn, fun _ => rfl⟩, ?_⟩
      rintro bs ⟨⟩
      exact ⟨_, (contents_eq_append hn).symm⟩

theorem Bounded.asks (h : is.Bounded) {α : Type} (p : Query ℕ Fetched α) :
    ∀ x ∈ p.asks InputStream.fetch is, x.1.Bounded :=
  p.asks_invariant (fun n _ hs => hs.fetch n) h

def shortMessage : InputStream :=
  (create .little zeroChunk defaultBufsize).grow zeroChunk zeroChunk 6

end InputStream

end Icm.Stream
