import Icm.Stream.Values

/-!
# Sequences read into a vector

The functions `read_byte_seq` to `read_string_seq` of `icm/IcmStream.cpp` read a sequence into a
vector of the caller, which may hold elements from before.
-/

namespace Icm.Stream

open Icm.Lib List OutputStream

inductive SeqKind
  | byte | bool | short | int | long | float | double | string
  deriving DecidableEq

namespace SeqKind

abbrev Elem : SeqKind → Type
  | byte => UInt8
  | bool => Bool
  | short => BitVec 16
  | int => BitVec 32
  | long => BitVec 64
  | float => BitVec 32
  | double => BitVec 64
  | string => List UInt8

def value : (k : SeqKind) → List k.Elem → Value
  | byte, v => .byteSeq v
  | bool, v => .boolSeq v
  | short, v => .shortSeq v
  | int, v => .intSeq v
  | long, v => .longSeq v
  | float, v => .floatSeq v
  | double, v => .doubleSeq v
  | string, v => .stringSeq v

def heard : (k : SeqKind) → k.Elem → k.Elem
  | string, s => cString (s ++ [0])
  | byte, x | bool, x | short, x | int, x | long, x | float, x | double, x => x

def keep : (k : SeqKind) → List k.Elem → List k.Elem
  | bool, old => old
  | byte, _ | short, _ | int, _ | long, _ | float, _ | double, _ | string, _ => []

end SeqKind

namespace InputStream

def readVector (host : ByteOrder) (is : InputStream) (junk : ℕ) :
    (k : SeqKind) → List k.Elem → Reading (List k.Elem)
  | .byte, v => is.readByteSeq host junk v
  | .bool, v => is.readBoolSeq host junk v
  | .short, v => is.readShortSeq host v
  | .int, v => is.readIntSeq host v
  | .long, v => is.readLongSeq host v
  | .float, v => is.readFloatSeq host v
  | .double, v => is.readDoubleSeq host v
  | .string, v => is.readStringSeq host junk v

end InputStream

namespace SeqKind

theorem keep_eq_nil_iff (k : SeqKind) (old : List k.Elem) :
    k.keep old = [] ↔ old = [] ∨ k ≠ .bool := by
  cases k <;> simp [keep]

theorem map_heard_eq_iff (k : SeqKind) (v : List k.Elem) :
    v.map k.heard = v ↔ (k.value v).NulFree := by
  cases k with
  | string =>
    refine ⟨fun h s hs => ?_, map_cString_of_nulFree⟩
    rw [← h] at hs
    obtain ⟨t, -, rfl⟩ := mem_map.mp hs
    exact zero_notMem_cString _
  | _ => exact iff_of_true (map_id v) trivial

end SeqKind

namespace InputStream

variable {host : ByteOrder} {is : InputStream} {k : SeqKind}

theorem readVector_val (hhost : is.doByteSwap = host.aceCdrByteOrder) (hgood : is.goodBit = true)
    {v : List k.Elem} (hv : (k.value v).Fits) (h : is.Starts ((k.value v).encode host)) (junk : ℕ)
    (old : List k.Elem) :
    (is.readVector host junk k old).val =
      if v = [] then old else k.keep old ++ v.map k.heard := by
  have words {w : ℕ} {v old : List (BitVec (8 * w))} (hlen : v.length < 2 ^ 32)
      (h : is.Starts (encodeWords w v)) (zero : BitVec (8 * w)) :
      (is.readSeq host w 0 (word host w) zero old).val =
        if v = [] then old else [] ++ v.map id := by
    rw [readWords_spec hhost hlen h, nil_append, map_id]
  cases k with
  | byte =>
    refine (congrArg Reading.val (readByteSeq_spec hhost hv h junk old)).trans ?_
    exact congrArg (fun w => if v = [] then old else w) (map_id v).symm
  | bool =>
    refine (congrArg Reading.val (readBoolSeq_spec hhost hv hgood h junk old)).trans ?_
    split_ifs with hnil
    · rw [hnil, append_nil]
    · exact congrArg (old ++ ·) (map_id v).symm
  | short => exact words (w := 2) hv h 0
  | int => exact words (w := 4) hv h 0
  | long => exact words (w := 8) hv h 0
  | float => exact words (w := 4) hv h 0
  | double => exact words (w := 8) hv h 0
  | string => exact congrArg Reading.val (readStringSeq_cString hhost hv.1 hv.2 hgood h junk old)

/-- **When the vector holds exactly the encoded elements**, whatever the position of the sequence in
the stream: it was empty before, or the sequence is not empty and not one of booleans; and the
strings of a sequence of strings hold no NUL. -/
theorem readVector_val_eq_iff (hhost : is.doByteSwap = host.aceCdrByteOrder)
    (hgood : is.goodBit = true) {v : List k.Elem} (hv : (k.value v).Fits)
    (h : is.Starts ((k.value v).encode host)) (junk : ℕ) (old : List k.Elem) :
    (is.readVector host junk k old).val = v ↔
      (old = [] ∨ v ≠ [] ∧ k ≠ .bool) ∧ (k.value v).NulFree := by
  rw [readVector_val hhost hgood hv h, ← SeqKind.map_heard_eq_iff]
  split_ifs with hnil
  · subst hnil
    simp
  · constructor
    · intro heq
      have hlen := congrArg List.length heq
      rw [length_append, length_map] at hlen
      have hkeep : k.keep old = [] := length_eq_zero_iff.mp (by omega)
      rw [hkeep, nil_append] at heq
      refine ⟨?_, heq⟩
      exact ((k.keep_eq_nil_iff old).mp hkeep).imp_right fun hk => ⟨hnil, hk⟩
    · rintro ⟨hold, hheard⟩
      rw [hheard, (k.keep_eq_nil_iff old).mpr (hold.imp_right And.right), nil_append]

theorem readVector_val_eq_iff_shorts :
    ∃ os, writeValues .little [.shortSeq [258#16, 3#16]]
        (.create .little fun _ => zeroChunk) = some os ∧
      ((ofOutput .little zeroChunk os).readVector .little 0 .short [1#16, 2#16, 9#16]).val =
        [258#16, 3#16] := by
  obtain ⟨os, hos⟩ := Option.isSome_iff_exists.mp (show (writeValues .little
    [.shortSeq [258#16, 3#16]] (.create .little fun _ => zeroChunk)).isSome = true by
      decide +kernel)
  have hfits : (SeqKind.short.value [258#16, 3#16]).Fits := by
    norm_num [SeqKind.value, Value.Fits]
  have hstarts := starts_ofOutput .little zeroChunk os
  rw [(writeValues_spec (create_wf _ _)
    (create_doByteSwap _ _)
    (fun v hv => mem_singleton.mp hv ▸ hfits) hos).bytes_eq,
    create_bytes, nil_append, flatMap_singleton] at hstarts
  exact ⟨os, hos, (readVector_val_eq_iff (k := .short) rfl rfl hfits hstarts 0 _).mpr
    ⟨Or.inr ⟨by decide, by decide⟩, trivial⟩⟩

theorem readVector_keeps_content :
    ∃ os, writeValues .little [.boolSeq [false], .shortSeq []]
        (.create .little fun _ => zeroChunk) = some os ∧
      ((ofOutput .little zeroChunk os).readVector .little 0 .bool [true]).val = [true, false] ∧
      (((ofOutput .little zeroChunk os).readVector .little 0 .bool [true]).stream.readVector
        .little 0 .short [1#16]).val = [1#16] := by
  obtain ⟨os, hos, hread⟩ := Option.map_eq_some_iff.mp (show (writeValues .little
    [.boolSeq [false], .shortSeq []] (.create .little fun _ => zeroChunk)).map (fun os =>
      let r := (ofOutput .little zeroChunk os).readVector .little 0 .bool [true]
      (r.val, (r.stream.readVector .little 0 .short [1#16]).val)) =
        some ([true, false], [1#16]) by decide +kernel)
  obtain ⟨hbool, hshort⟩ := Prod.mk.inj hread
  exact ⟨os, hos, hbool, hshort⟩

end InputStream

end Icm.Stream
