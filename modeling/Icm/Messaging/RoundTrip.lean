import Icm.Messaging.PublishClient
import Icm.Stream.Chain

/-!
# Messages as strings

`MsgProtocol::toString` makes a string of a stream, block by block, and `MsgProtocol::fromString` a
stream of one block of a string.
-/

namespace Icm.Messaging

open Icm.Lib Icm.Stream OutputStream

namespace MsgProtocol

def scratch (host : ByteOrder) (heap : ℕ → Chunk) : InputStream :=
  (InputStream.create host (heap 0) defaultBufsize).grow (heap 1) (heap 2) (1024 * 64)

theorem le_endPtr_scratch (host : ByteOrder) (heap : ℕ → Chunk) :
    131072 ≤ (scratch host heap).endPtr := by
  have hfirst : 131072 ≤ firstSize (1024 * 64 + maxAlignment) := by
    -- a smaller size of the schedule is a power of two
    by_contra hlt
    obtain ⟨k, hk⟩ := (scheduleSize_firstSize _).eq_two_pow (Nat.not_le.mp hlt)
    have hlarge : 2 ^ 16 < 2 ^ k :=
      hk ▸ lt_of_lt_of_le (by decide) (le_firstSize (1024 * 64 + maxAlignment))
    have hexp : 17 ≤ k := (Nat.pow_lt_pow_iff_right (by decide)).mp hlarge
    have hpow : 2 ^ 17 ≤ 2 ^ k := Nat.pow_le_pow_right (by decide) hexp
    rw [hk] at hlt
    exact hlt hpow
  exact hfirst.trans (InputStream.firstSize_le_grow_endPtr ..)

theorem toString_eq_ok_iff {os : OutputStream} {str : List UInt8} :
    toString os = .ok str ↔ os.Filled ∧ str = os.bytes := by
  have hne : (∀ b ∈ os.blocks, b.length ≠ 0) ↔ os.Filled :=
    forall₂_congr fun _ _ => Nat.pos_iff_ne_zero.symm
  constructor
  · intro h
    have hfilled := forall_length_of_appendBlocks h
    rw [toString, appendBlocks_eq hfilled] at h
    exact ⟨hne.mp hfilled, (Except.ok.inj h).symm⟩
  · rintro ⟨hfilled, rfl⟩
    exact appendBlocks_eq (hne.mpr hfilled)

/-- **Messages as strings.** -/
theorem fromString_toString_iff (host : ByteOrder) (heap : ℕ → Chunk) (ps : List Put)
    (os : OutputStream) (h : putAll ps (.create host heap) = some os) :
    ((∃ str, toString os = .ok str ∧ ∀ heap', (fromString host heap' str).bytes = os.bytes) ↔
      Put.Leading ps) ∧
    ∀ heap', (scratch host heap').rdPtr + os.bytes.length ≤ (scratch host heap').endPtr := by
  have hwf := create_wf host heap
  refine ⟨?_, fun heap' => ?_⟩
  · rw [← filled_iff_leading (create_blank host heap) hwf h]
    constructor
    · rintro ⟨str, hstr, -⟩
      exact (toString_eq_ok_iff.mp hstr).1
    · intro hfilled
      exact ⟨os.bytes, toString_eq_ok_iff.mpr ⟨hfilled, rfl⟩,
        fun heap' => PublishClient.fromString_bytes host heap' os.bytes⟩
  · obtain ⟨bs, hwrote⟩ := putAll_wrote hwf h
    have hsummed := (create_summed host heap).putAll hwf h
    have htotal := totalLength_le hwrote.wf hsummed
    have hroom := le_endPtr_scratch host heap'
    rw [scratch, InputStream.grow_rdPtr, ← scratch, os.length_bytes]
    omega

theorem fromString_toString_event :
    ∃ os, writeValues .little
        [.uint 0, .octet 4, .string [116], .byteSeq (List.replicate 600 7)]
        (.create .little fun _ => zeroChunk) = some os ∧
      (∃ str, toString os = .ok str ∧
        ∀ heap', (fromString .little heap' str).bytes = os.bytes) ∧
      ∀ heap', (scratch .little heap').rdPtr + os.bytes.length ≤
        (scratch .little heap').endPtr := by
  obtain ⟨os, hos⟩ := Option.isSome_iff_exists.mp (by decide +kernel :
    (writeValues .little
      [.uint 0, .octet 4, .string [116], .byteSeq (List.replicate 600 7)]
      (.create .little fun _ => zeroChunk)).isSome = true)
  have hputs := hos
  rw [writeValues_eq_putAll (create_wf _ _)] at hputs
  have hmain := fromString_toString_iff .little (fun _ => zeroChunk) _ os hputs
  exact ⟨os, hos, hmain.1.mpr (Value.leading_puts .little (.uint 0) _), hmain.2⟩

theorem toString_empty_block :
    toString (.create .little fun _ => zeroChunk) = .error .blockLength ∧
    ∃ os, writeCharArray (.create .little fun _ => zeroChunk)
        (List.replicate 600 7) 600 = some os ∧
      os.bytes.length = 600 ∧ toString os = .error .blockLength := by
  refine ⟨by decide +kernel, ?_⟩
  obtain ⟨os, hos, hr⟩ := Option.map_eq_some_iff.mp (by decide +kernel :
    (writeCharArray (.create .little fun _ => zeroChunk)
      (List.replicate 600 7) 600).map (fun os => (os.bytes.length, toString os)) =
        some (600, .error .blockLength))
  exact ⟨os, hos, congrArg Prod.fst hr, congrArg Prod.snd hr⟩

end MsgProtocol

end Icm.Messaging
