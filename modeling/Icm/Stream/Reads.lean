import Icm.Lib.Query
import Icm.Stream.Values

/-!
# Reads as query programs

Every typed read and every skip of an input stream touches its block only through elementary reads:
ask for the next `n` bytes, and get them if the block has them.
-/

namespace Icm.Stream

open Icm.Lib Reading Query

abbrev Fetched := Option (List UInt8) × Bool

abbrev ReadProgram (α : Type) := Query ℕ Fetched (Bool × α)

def Reading.ofRun {α : Type} (r : (Bool × α) × InputStream) : Reading α := ⟨r.1.1, r.1.2, r.2⟩

namespace InputStream

def fetch (n : ℕ) (is : InputStream) : Fetched × InputStream :=
  (((is.adjust n).1.map fun buf => is.start.bytesAt buf n, (is.adjust n).2.goodBit),
    (is.adjust n).2)

theorem fetch_of_le {is : InputStream} {n : ℕ} (h : is.rdPtr + n ≤ is.endPtr) :
    is.fetch n = ((some (is.start.bytesAt is.rdPtr n), is.goodBit), is.skip n) := by
  simp only [fetch, adjust, h, ↓reduceIte, Option.map_some, skip_goodBit]

theorem fetch_of_lt {is : InputStream} {n : ℕ} (h : is.endPtr < is.rdPtr + n) :
    is.fetch n = ((none, false), is.fail) := by
  simp only [fetch, adjust, Nat.not_le.mpr h, ↓reduceIte, Option.map_none]
  rfl

theorem fetch_doByteSwap (n : ℕ) (is : InputStream) :
    (is.fetch n).2.doByteSwap = is.doByteSwap := by
  rcases Nat.lt_or_ge is.endPtr (is.rdPtr + n) with h | h
  · rw [fetch_of_lt h]
    rfl
  · rw [fetch_of_le h]
    rfl

@[simp] theorem run_fetch_doByteSwap {α : Type} (p : Query ℕ Fetched α) (is : InputStream) :
    (p.run fetch is).2.doByteSwap = is.doByteSwap :=
  p.run_invariant (I := fun s => s.doByteSwap = is.doByteSwap)
    (fun n s hs => (fetch_doByteSwap n s).trans hs) rfl

end InputStream

def splitElems (swap : Bool) (size : ℕ) : ℕ → List UInt8 → List (List UInt8)
  | 0, _ => []
  | n + 1, bs => swapCopy swap (bs.take size) :: splitElems swap size n (bs.drop size)

namespace ReadProgram

def octet (old : UInt8) : ReadProgram UInt8 :=
  .ask 1 fun r => .done (r.1.isSome, (r.1.getD []).headD old)

def bytes (swap : Bool) (n : ℕ) (old : List UInt8) : ReadProgram (List UInt8) :=
  .ask n fun r => .done (r.1.isSome, (r.1.map (swapCopy swap)).getD old)

def array (swap : Bool) (size length : ℕ) : ReadProgram (Option (List (List UInt8))) :=
  .ask (size * length) fun r => .done (r.1.isSome && r.2, r.1.map (splitElems swap size length))

def boolean (junk : UInt8) : ReadProgram Bool :=
  .ask 1 fun r => .done (r.2, (r.1.getD []).headD junk ≠ 0)

def booleans (junk : UInt8) : ℕ → Bool → List Bool → ReadProgram (List Bool)
  | 0, good, v => .done (good, v)
  | n + 1, good, v =>
    if good then
      .ask 1 fun r => booleans junk n r.2 (v ++ [decide ((r.1.getD []).headD junk ≠ 0)])
    else .done (good, v)

section Words

variable (host : ByteOrder) (swap : Bool)

def word (w : ℕ) (old : BitVec (8 * w)) : ReadProgram (BitVec (8 * w)) :=
  (bytes swap w (host.image w old.toNat)).bind fun r =>
    .done (r.1, BitVec.ofNat _ (host.value r.2))

def uint (old : ℕ) : ReadProgram ℕ :=
  (bytes swap 4 (host.image 4 old)).bind fun r => .done (r.1, host.value r.2)

def string (junk : ℕ) : ReadProgram (List UInt8) :=
  (uint host swap junk).bind fun r =>
    if 0 < r.2 then
      (array swap 1 r.2).bind fun a =>
        match a with
        | (true, some data) => .done (true, cString data.flatten)
        | _ => .done (false, [])
    else .done (false, [])

def seq (size sz : ℕ) {α : Type} (elem : List UInt8 → α) (zero : α) (v : List α) :
    ReadProgram (List α) :=
  (uint host swap sz).bind fun r =>
    if 0 < r.2 then
      (array swap size r.2).bind fun a =>
        .done (false, (a.2.map (List.map elem)).getD (InputStream.resize v r.2 zero))
    else .done (false, v)

def boolSeq (junk : ℕ) (v : List Bool) : ReadProgram (List Bool) :=
  .ask 4 fun r =>
    let sz := host.value ((r.1.map (swapCopy swap)).getD (host.image 4 junk))
    if 0 < sz then (booleans (UInt8.ofNat junk) sz r.2 v).bind fun a => .done (false, a.2)
    else .done (false, v)

def strings (junk : ℕ) : ℕ → List (List UInt8) → ReadProgram (List (List UInt8))
  | 0, v => .done (false, v)
  | n + 1, v => (string host swap junk).bind fun s => strings junk n (v ++ [s.2])

def stringSeq (junk : ℕ) (v : List (List UInt8)) : ReadProgram (List (List UInt8)) :=
  (uint host swap 0).bind fun r =>
    if 0 < r.2 then strings host swap junk r.2 [] else .done (false, v)

def skipString (junk : ℕ) : ReadProgram Unit :=
  (uint host swap junk).bind fun r =>
    if r.1 then .ask r.2 fun a => .done (a.1.isSome, ()) else .done (false, ())

def value (junk : ℕ) : Kind → ReadProgram Value
  | .octet => (octet (.ofNat junk)).bind fun r => .done (r.1, .octet r.2)
  | .boolean => (boolean (.ofNat junk)).bind fun r => .done (r.1, .boolean r.2)
  | .char => (octet (.ofNat junk)).bind fun r => .done (r.1, .char r.2)
  | .short => (word host swap 2 (.ofNat _ junk)).bind fun r => .done (r.1, .short r.2)
  | .ushort => (word host swap 2 (.ofNat _ junk)).bind fun r => .done (r.1, .ushort r.2)
  | .int => (word host swap 4 (.ofNat _ junk)).bind fun r => .done (r.1, .int r.2)
  | .uint => (uint host swap junk).bind fun r => .done (r.1, .uint (.ofNat _ r.2))
  | .long => (word host swap 8 (.ofNat _ junk)).bind fun r => .done (r.1, .long r.2)
  | .ulong => (word host swap 8 (.ofNat _ junk)).bind fun r => .done (r.1, .ulong r.2)
  | .float => (word host false 4 (.ofNat _ junk)).bind fun r => .done (r.1, .float r.2)
  | .double => (word host false 8 (.ofNat _ junk)).bind fun r => .done (r.1, .double r.2)
  | .string => (string host swap junk).bind fun r => .done (r.1, .string r.2)
  | .byteSeq => (seq host swap 1 junk (fun bs => bs.headD 0) 0 []).bind fun r =>
      .done (r.1, .byteSeq r.2)
  | .boolSeq => (boolSeq host swap junk []).bind fun r => .done (r.1, .boolSeq r.2)
  | .shortSeq => (seq host swap 2 0 (InputStream.word host 2) 0 []).bind fun r =>
      .done (r.1, .shortSeq r.2)
  | .intSeq => (seq host swap 4 0 (InputStream.word host 4) 0 []).bind fun r =>
      .done (r.1, .intSeq r.2)
  | .longSeq => (seq host swap 8 0 (InputStream.word host 8) 0 []).bind fun r =>
      .done (r.1, .longSeq r.2)
  | .floatSeq => (seq host swap 4 0 (InputStream.word host 4) 0 []).bind fun r =>
      .done (r.1, .floatSeq r.2)
  | .doubleSeq => (seq host swap 8 0 (InputStream.word host 8) 0 []).bind fun r =>
      .done (r.1, .doubleSeq r.2)
  | .stringSeq => (stringSeq host swap junk []).bind fun r => .done (r.1, .stringSeq r.2)

end Words

end ReadProgram

namespace InputStream

open ReadProgram

section Eq

variable (host : ByteOrder) (is : InputStream)

theorem read1_eq (old : UInt8) : is.read1 old = .ofRun ((octet old).run fetch is) := by
  rcases Nat.lt_or_ge is.endPtr (is.rdPtr + 1) with h | h
  · have hnot : ¬ is.rdPtr < is.endPtr := by omega
    simp [read1, hnot, octet, fetch_of_lt h, ofRun]
  · have hlt : is.rdPtr < is.endPtr := by omega
    simp [read1, hlt, octet, fetch_of_le h, ofRun, MessageBlock.bytesAt, Mem.slice]

theorem readN_eq (n : ℕ) (old : List UInt8) :
    is.readN n old = .ofRun ((bytes is.doByteSwap n old).run fetch is) := by
  rcases Nat.lt_or_ge is.endPtr (is.rdPtr + n) with h | h
  · simp [readN, adjust, Nat.not_le.mpr h, bytes, fetch_of_lt h, ofRun]
  · simp [readN, adjust, h, bytes, fetch_of_le h, ofRun]

theorem copyElems_eq_splitElems (size n buf : ℕ) :
    is.copyElems size n buf =
      splitElems is.doByteSwap size n (is.start.bytesAt buf (size * n)) := by
  induction n generalizing buf with
  | zero => rfl
  | succ n ih =>
    have hsplit : is.start.bytesAt buf (size * (n + 1)) =
        is.start.bytesAt buf size ++ is.start.bytesAt (buf + size) (size * n) := by
      rw [Nat.mul_succ, Nat.add_comm, MessageBlock.bytesAt_add]
    rw [copyElems, splitElems, hsplit, List.take_left' (by simp), List.drop_left' (by simp), ih]

theorem readArray_eq (size length : ℕ) :
    is.readArray size length = .ofRun ((array is.doByteSwap size length).run fetch is) := by
  rcases Nat.lt_or_ge is.endPtr (is.rdPtr + size * length) with h | h
  · simp [readArray, adjust, Nat.not_le.mpr h, array, fetch_of_lt h, ofRun]
  · simp [readArray, adjust, h, array, fetch_of_le h, ofRun, copyElems_eq_splitElems]

theorem readBoolean_eq (junk : UInt8) :
    is.readBoolean junk = .ofRun ((boolean junk).run fetch is) := by
  rw [readBoolean, readOctet, read1_eq]
  rcases Nat.lt_or_ge is.endPtr (is.rdPtr + 1) with h | h
  · simp [boolean, octet, fetch_of_lt h, ofRun, fail]
  · simp [boolean, octet, fetch_of_le h, ofRun]

theorem readWord_eq (w : ℕ) (old : BitVec (8 * w)) :
    is.readWord host w old = .ofRun ((ReadProgram.word host is.doByteSwap w old).run fetch is) := by
  simp only [readWord, readN_eq, ReadProgram.word, run_bind, run_done, ofRun]

theorem readUint_eq (old : ℕ) :
    is.readUint host old = .ofRun ((uint host is.doByteSwap old).run fetch is) := by
  simp only [readUint, readN_eq, uint, run_bind, run_done, ofRun]

theorem readUnswapped_eq (w : ℕ) (old : BitVec (8 * w)) :
    is.readUnswapped host w old = .ofRun ((ReadProgram.word host false w old).run fetch is) := by
  rcases Nat.lt_or_ge is.endPtr (is.rdPtr + w) with h | h
  · have h' : ({ is with doByteSwap := false } : InputStream).endPtr <
        ({ is with doByteSwap := false } : InputStream).rdPtr + w := h
    simp [readUnswapped, readWord_eq, ReadProgram.word, bytes, fetch_of_lt h, fetch_of_lt h',
      ofRun, fail]
  · have h' : ({ is with doByteSwap := false } : InputStream).rdPtr + w ≤
        ({ is with doByteSwap := false } : InputStream).endPtr := h
    simp [readUnswapped, readWord_eq, ReadProgram.word, bytes, fetch_of_le h, fetch_of_le h',
      ofRun, skip, rdPtr]

theorem readString_eq (junk : ℕ) :
    is.readString host junk = .ofRun ((string host is.doByteSwap junk).run fetch is) := by
  simp only [readString, readUint_eq, readArray_eq, string, run_bind, ofRun,
    run_fetch_doByteSwap]
  split_ifs
  · rw [run_bind]
    rcases ((array is.doByteSwap 1 _).run fetch _).1 with ⟨_ | _, _ | data⟩ <;> rfl
  · rfl

theorem readSeq_eq (size sz : ℕ) {α : Type} (elem : List UInt8 → α) (zero : α) (v : List α) :
    is.readSeq host size sz elem zero v =
      .ofRun ((seq host is.doByteSwap size sz elem zero v).run fetch is) := by
  simp only [readSeq, readUint_eq, readArray_eq, seq, run_bind, ofRun,
    run_fetch_doByteSwap]
  split_ifs
  · simp only [run_bind, run_done]
  · rfl

theorem readBooleanArray_eq (junk : UInt8) (n : ℕ) (v : List Bool) :
    readBooleanArray junk n is v = .ofRun ((booleans junk n is.goodBit v).run fetch is) := by
  induction n generalizing is v with
  | zero => rfl
  | succ n ih =>
    rw [readBooleanArray, booleans]
    split_ifs with hgood
    · rw [ih, readBoolean_eq]
      simp only [boolean, run_ask, run_done, ofRun]
      rfl
    · rfl

theorem readBoolSeq_eq (junk : ℕ) (v : List Bool) :
    is.readBoolSeq host junk v = .ofRun ((boolSeq host is.doByteSwap junk v).run fetch is) := by
  simp only [readBoolSeq, readUint_eq, uint, bytes, boolSeq, run_bind, run_ask,
    run_done, ofRun]
  split_ifs
  · rw [readBooleanArray_eq]
    simp only [run_bind, run_done, ofRun]
    rfl
  · rfl

theorem readStrings_eq (junk n : ℕ) (v : List (List UInt8)) :
    readStrings host junk n is v =
      .ofRun ((strings host is.doByteSwap junk n v).run fetch is) := by
  induction n generalizing is v with
  | zero => rfl
  | succ n ih =>
    rw [readStrings, strings]
    simp only [ih, readString_eq, run_bind, ofRun, run_fetch_doByteSwap]

theorem readStringSeq_eq (junk : ℕ) (v : List (List UInt8)) :
    is.readStringSeq host junk v =
      .ofRun ((stringSeq host is.doByteSwap junk v).run fetch is) := by
  simp only [readStringSeq, readUint_eq, stringSeq, run_bind, ofRun]
  split_ifs
  · rw [readStrings_eq, run_fetch_doByteSwap]
    rfl
  · rfl

theorem skipBytes_eq (len : ℕ) :
    is.skipBytes len = ((is.fetch len).1.1.isSome, (is.fetch len).2) := by
  rcases Nat.lt_or_ge is.endPtr (is.rdPtr + len) with h | h
  · simp [skipBytes, Nat.not_le.mpr h, fetch_of_lt h]
  · simp [skipBytes, h, fetch_of_le h]

theorem readValue_eq (junk : ℕ) (k : Kind) :
    is.readValue host junk k = .ofRun ((value host is.doByteSwap junk k).run fetch is) := by
  cases k <;>
  simp only [readValue, value, run_bind, run_done, ofRun, map,
    readOctet, readChar, readShort, readUshort, readInt, readLong, readUlong, readFloat,
    readDouble, readByteSeq, readShortSeq, readIntSeq, readLongSeq, readFloatSeq, readDoubleSeq,
    read1_eq, readBoolean_eq, readWord_eq, readUint_eq, readUnswapped_eq, readString_eq,
    readSeq_eq, readBoolSeq_eq, readStringSeq_eq]

end Eq

end InputStream

inductive Op
  | read (k : Kind) (junk : ℕ)
  | skipBytes (len : ℕ)
  | skipString (junk : ℕ)

def Op.program (host : ByteOrder) (swap : Bool) : Op → ReadProgram (Option Value)
  | .read k junk => (ReadProgram.value host swap junk k).bind fun r => .done (r.1, some r.2)
  | .skipBytes len => .ask len fun r => .done (r.1.isSome, none)
  | .skipString junk => (ReadProgram.skipString host swap junk).bind fun r => .done (r.1, none)

def program (host : ByteOrder) (swap : Bool) :
    List Op → Query ℕ Fetched (List (Bool × Option Value))
  | [] => .done []
  | op :: ops => (op.program host swap).bind fun r =>
      (program host swap ops).bind fun rs => .done (r :: rs)

namespace InputStream

def skipString (host : ByteOrder) (is : InputStream) (junk : ℕ) : Bool × InputStream :=
  let r := is.readUint host junk
  if r.ok then r.stream.skipBytes r.val else (false, r.stream)

def runOp (host : ByteOrder) (is : InputStream) : Op → (Bool × Option Value) × InputStream
  | .read k junk =>
    let r := is.readValue host junk k
    ((r.ok, some r.val), r.stream)
  | .skipBytes len =>
    let r := is.skipBytes len
    ((r.1, none), r.2)
  | .skipString junk =>
    let r := is.skipString host junk
    ((r.1, none), r.2)

def runOps (host : ByteOrder) :
    List Op → InputStream → List (Bool × Option Value) × InputStream
  | [], is => ([], is)
  | op :: ops, is =>
    let r := is.runOp host op
    let rs := runOps host ops r.2
    (r.1 :: rs.1, rs.2)

theorem runOp_eq (host : ByteOrder) (is : InputStream) (op : Op) :
    is.runOp host op = (op.program host is.doByteSwap).run fetch is := by
  cases op with
  | read k junk =>
    simp only [runOp, readValue_eq, Op.program, run_bind, run_done, ofRun]
  | skipBytes len => simp only [runOp, skipBytes_eq, Op.program, run_ask, run_done]
  | skipString junk =>
    simp only [runOp, skipString, readUint_eq, Op.program, ReadProgram.skipString, run_bind,
      run_done, ofRun]
    split_ifs
    · rw [skipBytes_eq]
      rfl
    · rfl

end InputStream

end Icm.Stream
