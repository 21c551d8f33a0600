import Icm.Messaging.Protocol

/-!
# The buffer file of a publisher

A publisher that has lost its connection appends its messages to a buffer file, and sends them when
the connection is back (`publishToBuffer_i` and `publishFromBuffer` of `msg/PublishClient.cpp`).
-/

namespace Icm.Messaging

open Icm.Lib Icm.Stream List MsgProtocol OutputStream

structure Record where
  pubTime : BitVec 64
  data : List UInt8
  deriving DecidableEq

namespace Record

def encode (host : ByteOrder) (r : Record) : List UInt8 :=
  host.image 8 r.pubTime.toNat ++ host.image 4 r.data.length ++ r.data

def wire (host : ByteOrder) (r : Record) : List UInt8 :=
  (swapCopy host.aceCdrByteOrder
    (host.image 4 (toUInt (r.data.length - headerLen))) ++ r.data.drop 4).take
      r.data.length

def Sized (r : Record) : Prop := 0 < r.data.length ∧ r.data.length < 2 ^ 31

def Live (r : Record) (now : BitVec 64) : Prop := (now - r.pubTime).toInt ≤ 300

instance (r : Record) (now : BitVec 64) : Decidable (r.Live now) :=
  inferInstanceAs (Decidable (_ ≤ _))

theorem encode_ne_nil (host : ByteOrder) (r : Record) : r.encode host ≠ [] := by
  rw [← length_pos_iff]
  simp only [encode, length_append, ByteOrder.length_image]
  omega

theorem length_wire (host : ByteOrder) (r : Record) : (r.wire host).length = r.data.length := by
  simp only [wire, length_take, length_append, length_swapCopy, ByteOrder.length_image,
    length_drop]
  omega

theorem Sized.wire_ne_nil {r : Record} (h : r.Sized) (host : ByteOrder) : r.wire host ≠ [] := by
  rw [← length_pos_iff, length_wire]
  exact h.1

end Record

/-- A call of `publishToBuffer_i`: whether the file can be opened, the time, the memory in which
the message is checked, and the message, whose size is an `int`. -/
structure BufferCall where
  opens : Bool
  now : BitVec 64
  heap : ℕ → Chunk
  junk : ℕ
  os : OutputStream
  length_lt : os.totalLength < 2 ^ 31

def BufferCall.record (call : BufferCall) : List Record :=
  if call.opens then [⟨call.now, call.os.bytes⟩] else []

namespace PublishClient

def publishToBuffer_i (host : ByteOrder) (file : List UInt8) (call : BufferCall) :
    Except Assertion (List UInt8) :=
  if call.opens then do
    let osStr ← toString call.os
    checkString host call.heap call.junk osStr
    let dataLength := osStr.length
    return file ++ (host.image 8 call.now.toNat ++ host.image 4 dataLength ++ osStr)
  else .ok file

theorem publishToBuffer_i_eq {host : ByteOrder} {file file' : List UInt8} {call : BufferCall}
    (h : publishToBuffer_i host file call = .ok file') :
    file' = file ++ call.record.flatMap (Record.encode host) ∧ ∀ r ∈ call.record, r.Sized := by
  unfold publishToBuffer_i at h
  unfold BufferCall.record
  split_ifs at h ⊢ with hopens
  · obtain ⟨osStr, hstr, h⟩ := bind_eq_ok.mp h
    obtain ⟨⟨⟩, -, h⟩ := bind_eq_ok.mp h
    cases h
    have hblocks := forall_length_of_appendBlocks hstr
    have hbytes : osStr = call.os.bytes := by
      rw [MsgProtocol.toString, MsgProtocol.appendBlocks_eq hblocks] at hstr
      exact (Except.ok.inj hstr).symm
    subst hbytes
    refine ⟨by simp [Record.encode], fun r hr => ?_⟩
    obtain rfl := mem_singleton.mp hr
    have hpos : 0 < call.os.bytes.length := by
      have hb := hblocks _ (call.os.blocks_eq_cons ▸ mem_cons_self)
      rw [bytes, call.os.blocks_eq_cons, flatMap_cons, length_append,
        MessageBlock.length_contents]
      omega
    exact ⟨hpos, call.os.length_bytes ▸ call.length_lt⟩
  · cases h
    simp

def records (calls : List BufferCall) : List Record := calls.flatMap BufferCall.record

theorem runSteps_publishToBuffer_i {host : ByteOrder} {calls : List BufferCall}
    {file file' : List UInt8}
    (h : runSteps (publishToBuffer_i host) file calls = .ok file') :
    file' = file ++ (records calls).flatMap (Record.encode host) ∧
      ∀ r ∈ records calls, r.Sized := by
  induction calls generalizing file with
  | nil =>
    cases h
    simp [records]
  | cons call calls ih =>
    obtain ⟨file₁, hcall, hrest⟩ := runSteps_cons_eq_ok.mp h
    obtain ⟨rfl, hsized⟩ := publishToBuffer_i_eq hcall
    obtain ⟨rfl, hsizeds⟩ := ih hrest
    refine ⟨by simp [records], fun r hr => ?_⟩
    rw [records, flatMap_cons, mem_append] at hr
    exact hr.elim (hsized r) (hsizeds r)

end PublishClient

structure Fread where
  bytes : List UInt8
  rest : List UInt8
  eof : Bool

def fread (old file : List UInt8) : Fread where
  bytes := file.take old.length ++ old.drop file.length
  rest := file.drop old.length
  eof := file.length < old.length

theorem fread_append {old bs : List UInt8} (h : bs.length = old.length) (file : List UInt8) :
    fread old (bs ++ file) = ⟨bs, file, false⟩ := by
  have hdrop : old.drop (bs.length + file.length) = [] := drop_of_length_le (by omega)
  simp [fread, ← h, hdrop]

structure RecordTurn where
  now : BitVec 64
  data : Mem
  stream : ℕ → Chunk
  heap₁ : ℕ → Chunk
  heap₂ : ℕ → Chunk
  junk : ℕ

def unexpired : List Record → (ℕ → RecordTurn) → List Record
  | [], _ => []
  | r :: rs, turns =>
    if r.Live (turns 0).now then r :: unexpired rs fun i => turns (i + 1)
    else unexpired rs fun i => turns (i + 1)

def MsgProtocol.fromString (host : ByteOrder) (heap : ℕ → Chunk) (str : List UInt8) :
    OutputStream where
  done := []
  current :=
    let mb := ((MessageBlock.alloc (heap 0) str.length).poke 0 str).mbAlign
    { mb with wrPtr := mb.wrPtr + str.length }
  rest := []
  doByteSwap := host.aceCdrByteOrder
  goodBit := true
  heap := fun i => heap (i + 1)

structure PublishClient where
  connectionErrorPending : Bool
  bufferFile : List UInt8
  deriving DecidableEq

namespace PublishClient

/-- A call of `publishFromBuffer`: whether the file can be opened, what the client finds at each
record, and the results of the send calls. -/
structure Flush where
  opens : Bool
  turns : ℕ → RecordTurn
  sends : ℕ → SendResult

def sendRecord (host : ByteOrder) (turn : RecordTurn) (rs : ℕ → SendResult) (pubData : List UInt8) :
    Except Assertion (Bool × List UInt8) := do
  let os := fromString host turn.stream pubData
  check host turn.heap₁ turn.junk os
  send host turn.heap₂ turn.junk rs os

def publishLoop (host : ByteOrder) : ℕ → (ℕ → RecordTurn) → (ℕ → SendResult) → Fread →
    Except Assertion (Bool × List UInt8)
  | 0, _, _, _ => .ok (false, [])
  | rounds + 1, turns, rs, time =>
    let pubTime := BitVec.ofNat 64 (host.value time.bytes)
    if time.eof = false ∧ pubTime ≠ 0 then do
      let size := fread (host.image 4 0) time.rest
      let dataSize := (BitVec.ofNat 32 (host.value size.bytes)).toInt
      require .dataSize (0 < dataSize)
      let data := fread ((turns 0).data.slice 0 dataSize.toNat) size.rest
      let next := fread (host.image 8 0) data.rest
      if (⟨pubTime, data.bytes⟩ : Record).Live (turns 0).now then do
        let sent ← sendRecord host (turns 0) rs data.bytes
        if sent.1 then do
          let r ← publishLoop host rounds (fun i => turns (i + 1)) (fun i => rs (i + 1)) next
          return (r.1, sent.2 ++ r.2)
        else return (true, sent.2)
      else publishLoop host rounds (fun i => turns (i + 1)) rs next
    else .ok (false, [])

def publishFromBuffer (host : ByteOrder) (fl : Flush) (c : PublishClient) :
    Except Assertion (Bool × PublishClient × List UInt8) :=
  if c.connectionErrorPending then .ok (false, c, [])
  else if fl.opens then do
    let r ← publishLoop host (c.bufferFile.length + 1) fl.turns fl.sends
      (fread (host.image 8 0) c.bufferFile)
    return (true, ⟨r.1, []⟩, r.2)
  else .ok (true, c, [])

section fromString

variable (host : ByteOrder) (heap : ℕ → Chunk) (str : List UInt8)

@[simp] theorem fromString_blocks :
    (fromString host heap str).blocks =
      [⟨0, str.length, ((MessageBlock.alloc (heap 0) str.length).poke 0 str).dataBlock⟩] := by
  simp [fromString, blocks]

theorem fromString_bytes : (fromString host heap str).bytes = str := by
  rw [bytes, fromString_blocks, flatMap_singleton]
  exact Mem.slice_splice_self _ 0 str

theorem toString_fromString (h : str ≠ []) :
    MsgProtocol.toString (MsgProtocol.fromString host heap str) = .ok str := by
  rw [MsgProtocol.toString, MsgProtocol.appendBlocks_eq]
  · exact congrArg _ (fromString_bytes host heap str)
  · rw [fromString_blocks]
    exact forall_mem_singleton.mpr (length_pos_iff.mpr h).ne'

theorem sentBlocks_fromString {r : Record} (h : r.Sized) :
    Rpc.IcmProtocol.sentBlocks host (fromString host heap r.data) = [r.wire host] := by
  have htotal : (fromString host heap r.data).totalLength = r.data.length := by
    simp [totalLength, MessageBlock.length]
  have hblocks : ∀ b ∈ (fromString host heap r.data).blocks, b.length ≠ 0 := by
    rw [fromString_blocks]
    exact forall_mem_singleton.mpr h.1.ne'
  rw [sentBlocks_eq hblocks, patchLength_blocks, htotal, fromString_blocks]
  refine congrArg (· :: []) ?_
  have hrest : ((heap 0).junk.splice 0 r.data).slice 4 (r.data.length - 4) = r.data.drop 4 := by
    rw [← Nat.zero_add 4, ← Mem.drop_slice, Mem.slice_splice_self, Nat.zero_add]
  have hslice := Mem.slice_splice_eq_take ((heap 0).junk.splice 0 r.data) 0 r.data.length
    (swapCopy host.aceCdrByteOrder
      (host.image 4 (toUInt (r.data.length - headerLen))))
  rw [length_swapCopy, ByteOrder.length_image, Nat.zero_add, hrest] at hslice
  simpa [beginBlock, fromString, MessageBlock.contents,
    MessageBlock.length, MessageBlock.bytesAt, MessageBlock.poke, MessageBlock.alloc,
    MessageBlock.ofDataBlock, DataBlock.alloc, Record.wire] using hslice

end fromString

theorem check_fromString {r : Record} (h : r.Sized) (host : ByteOrder) (stream heap : ℕ → Chunk)
    (junk : ℕ) :
    check host heap junk (fromString host stream r.data) =
      checkString host heap junk r.data := by
  rw [check, toString_fromString host stream r.data (length_pos_iff.mp h.1)]
  rfl

variable {host : ByteOrder}

theorem sendRecord_eq {turn : RecordTurn} {rs : ℕ → SendResult} {r : Record}
    (h : r.Sized) {sent : Bool × List UInt8}
    (hsend : sendRecord host turn rs r.data = .ok sent) : sent = sendEach [r.wire host] rs := by
  obtain ⟨⟨⟩, -, hsend⟩ := bind_eq_ok.mp hsend
  have hcheck : check host turn.heap₂ turn.junk
      (fromString host turn.stream r.data) = .ok () :=
    (bind_eq_ok.mp hsend).choose_spec.1
  rw [send_eq hcheck, sentBlocks_fromString host turn.stream h] at hsend
  exact (Except.ok.inj hsend).symm

theorem exists_sendRecord {r : Record} (h : r.Sized)
    (hcheck : ∀ heap junk, checkString host heap junk r.data = .ok ())
    (turn : RecordTurn) (rs : ℕ → SendResult) :
    ∃ sent, sendRecord host turn rs r.data = .ok sent := by
  have hcheck' (heap : ℕ → Chunk) : check host heap turn.junk
      (fromString host turn.stream r.data) = .ok () :=
    (check_fromString h host turn.stream heap turn.junk).trans (hcheck heap turn.junk)
  exact ⟨_, bind_eq_ok.mpr ⟨(), hcheck' _, send_eq (hcheck' _) rs⟩⟩

section loop

variable {host : ByteOrder}

theorem publishLoop_nil (rounds : ℕ) (turns : ℕ → RecordTurn) (rs : ℕ → SendResult) :
    publishLoop host rounds turns rs (fread (host.image 8 0) []) = .ok (false, []) := by
  cases rounds with
  | zero => rfl
  | succ rounds => simp [publishLoop, fread]

theorem publishLoop_cons {r : Record} (h : r.Sized) (rounds : ℕ) (turns : ℕ → RecordTurn)
    (rs : ℕ → SendResult) (file : List UInt8) :
    publishLoop host (rounds + 1) turns rs (fread (host.image 8 0) (r.encode host ++ file)) =
      if r.pubTime = 0 then .ok (false, [])
      else if r.Live (turns 0).now then do
        let sent ← sendRecord host (turns 0) rs r.data
        if sent.1 then do
          let s ← publishLoop host rounds (fun i => turns (i + 1)) (fun i => rs (i + 1))
            (fread (host.image 8 0) file)
          return (s.1, sent.2 ++ s.2)
        else return (true, sent.2)
      else publishLoop host rounds (fun i => turns (i + 1)) rs (fread (host.image 8 0) file) := by
  obtain ⟨hpos, hlt⟩ := h
  have htime : BitVec.ofNat 64 (host.value (host.image 8 r.pubTime.toNat)) = r.pubTime := by
    rw [host.value_image, Nat.mod_eq_of_lt (by have := r.pubTime.isLt; omega), BitVec.ofNat_toNat,
      BitVec.setWidth_eq]
  have hsize : (BitVec.ofNat 32 (host.value (host.image 4 r.data.length))).toInt =
      r.data.length := by
    rw [host.value_image, Nat.mod_eq_of_lt (by omega), BitVec.toInt_eq_toNat_cond,
      BitVec.toNat_ofNat, Nat.mod_eq_of_lt (by omega), if_pos (by omega)]
  have hread : fread (host.image 8 0) (r.encode host ++ file) =
      ⟨host.image 8 r.pubTime.toNat, host.image 4 r.data.length ++ (r.data ++ file), false⟩ := by
    rw [Record.encode, append_assoc, append_assoc, fread_append (by simp)]
  have hdata : fread ((turns 0).data.slice 0 (r.data.length : ℤ).toNat) (r.data ++ file) =
      ⟨r.data, file, false⟩ := fread_append (by simp) file
  rw [hread, publishLoop]
  simp only [htime, fread_append (show (host.image 4 r.data.length).length =
    (host.image 4 0).length by simp), hsize, hdata, require_bind]
  simp [hpos]

theorem length_le_flatMap_encode (host : ByteOrder) (records : List Record) :
    records.length ≤ (records.flatMap (Record.encode host)).length := by
  induction records with
  | nil => exact Nat.zero_le _
  | cons r records ih =>
    have := length_pos_iff.mpr (r.encode_ne_nil host)
    rw [flatMap_cons, length_append, length_cons]
    omega

def readable (records : List Record) : List Record := records.takeWhile fun r => r.pubTime ≠ 0

theorem publishLoop_eq {records : List Record} (hsized : ∀ r ∈ records, r.Sized) {rounds : ℕ}
    (hrounds : records.length ≤ rounds) {turns : ℕ → RecordTurn} {rs : ℕ → SendResult}
    {s : Bool × List UInt8}
    (h : publishLoop host rounds turns rs
      (fread (host.image 8 0) (records.flatMap (Record.encode host))) = .ok s) :
    (!s.1, s.2) = sendEach ((unexpired (readable records) turns).map (Record.wire host)) rs := by
  induction records generalizing rounds turns rs s with
  | nil =>
    rw [flatMap_nil, publishLoop_nil] at h
    cases h
    rfl
  | cons r records ih =>
    obtain ⟨rounds, rfl⟩ := Nat.exists_eq_add_of_le' (Nat.le_trans (Nat.le_add_left 1 _) hrounds)
    obtain ⟨hr, hsized⟩ := forall_mem_cons.mp hsized
    have hrounds' : records.length ≤ rounds := Nat.le_of_add_le_add_right hrounds
    rw [flatMap_cons, publishLoop_cons hr] at h
    by_cases hzero : r.pubTime = 0
    · rw [if_pos hzero] at h
      cases h
      simp [readable, hzero, unexpired, sendEach]
    · have hreadable : readable (r :: records) = r :: readable records :=
        takeWhile_cons_of_pos (by simpa using hzero)
      rw [if_neg hzero] at h
      rw [hreadable, unexpired]
      split_ifs at h ⊢ with hlive
      · obtain ⟨sent, hsent, h⟩ := bind_eq_ok.mp h
        obtain rfl := sendRecord_eq hr hsent
        cases hres : rs 0 with
        | failed =>
          simp only [sendEach, hres] at h
          cases h
          simp [sendEach, hres]
        | accepted room =>
          simp only [sendEach, hres, ↓reduceIte] at h
          obtain ⟨s', hloop, h⟩ := bind_eq_ok.mp h
          cases h
          have hrest := ih hsized hrounds' hloop
          simp only [map_cons, sendEach, hres, ← hrest, append_nil]
      · exact ih hsized hrounds' h

theorem exists_publishLoop {records : List Record} (hsized : ∀ r ∈ records, r.Sized)
    (hcheck : ∀ r ∈ records, ∀ heap junk,
      checkString host heap junk r.data = .ok ()) {rounds : ℕ}
    (hrounds : records.length ≤ rounds) (turns : ℕ → RecordTurn) (rs : ℕ → SendResult) :
    ∃ s, publishLoop host rounds turns rs
      (fread (host.image 8 0) (records.flatMap (Record.encode host))) = .ok s := by
  induction records generalizing rounds turns rs with
  | nil => exact ⟨_, publishLoop_nil rounds turns rs⟩
  | cons r records ih =>
    obtain ⟨rounds, rfl⟩ := Nat.exists_eq_add_of_le' (Nat.le_trans (Nat.le_add_left 1 _) hrounds)
    obtain ⟨hr, hsized⟩ := forall_mem_cons.mp hsized
    obtain ⟨hcr, hcheck⟩ := forall_mem_cons.mp hcheck
    have hrest := ih hsized hcheck (Nat.le_of_add_le_add_right hrounds) fun i => turns (i + 1)
    rw [flatMap_cons, publishLoop_cons hr]
    split_ifs with hzero hlive
    · exact ⟨_, rfl⟩
    · obtain ⟨sent, hsent⟩ := exists_sendRecord hr hcr (turns 0) rs
      obtain ⟨s, hs⟩ := hrest fun i => rs (i + 1)
      rcases hok : sent.1 with _ | _
      · refine ⟨(true, sent.2), bind_eq_ok.mpr ⟨sent, hsent, ?_⟩⟩
        rw [hok]
        rfl
      · refine ⟨(s.1, sent.2 ++ s.2), bind_eq_ok.mpr ⟨sent, hsent, ?_⟩⟩
        rw [hok, if_pos rfl]
        exact bind_eq_ok.mpr ⟨s, hs, rfl⟩
    · exact hrest rs

end loop

def Kept (host : ByteOrder) (due : List Record) (handed bufferFile : List UInt8) : Prop :=
  ∃ marked : List (Record × Bool),
    marked.map Prod.fst = due ∧
    handed = ((marked.filter Prod.snd).map fun p => p.1.wire host).flatten ∧
    ∃ remaining : List Record,
      bufferFile = remaining.flatMap (Record.encode host) ∧
      ((marked.filter fun p => !p.2).map Prod.fst).Sublist remaining

theorem kept_nil_iff {due : List Record} {handed : List UInt8} :
    Kept host due handed [] ↔ handed = (due.map (Record.wire host)).flatten := by
  constructor
  · rintro ⟨marked, rfl, rfl, remaining, hfile, hsub⟩
    have hremaining : remaining = [] := by
      cases remaining with
      | nil => rfl
      | cons r rest =>
        rw [flatMap_cons] at hfile
        exact absurd (append_eq_nil_iff.mp hfile.symm).1 (r.encode_ne_nil host)
    subst hremaining
    have hnone := map_eq_nil_iff.mp (sublist_nil.mp hsub)
    have hall : marked.filter Prod.snd = marked :=
      filter_eq_self.mpr fun p hp => by simpa using filter_eq_nil_iff.mp hnone p hp
    rw [hall, map_map]
    rfl
  · rintro rfl
    exact ⟨due.map fun r => (r, true), by simp [Function.comp_def],
      by simp [filter_map, Function.comp_def], [], rfl, by simp [filter_map,
        Function.comp_def]⟩

theorem unexpired_sublist (records : List Record) (turns : ℕ → RecordTurn) :
    (unexpired records turns).Sublist records := by
  induction records generalizing turns with
  | nil => exact .slnil
  | cons r records ih =>
    rw [unexpired]
    split_ifs
    · exact (ih _).cons_cons r
    · exact (ih _).cons r

theorem kept_of_unchanged (host : ByteOrder) (records : List Record) (turns : ℕ → RecordTurn) :
    Kept host (unexpired records turns) [] (records.flatMap (Record.encode host)) :=
  ⟨(unexpired records turns).map fun r => (r, false), by simp [Function.comp_def],
    by simp [filter_map, Function.comp_def], records, rfl,
    by simpa [filter_map, Function.comp_def] using unexpired_sublist records turns⟩

theorem unexpired_append (as bs : List Record) (turns : ℕ → RecordTurn) :
    unexpired (as ++ bs) turns =
      unexpired as turns ++ unexpired bs fun i => turns (i + as.length) := by
  induction as generalizing turns with
  | nil => rfl
  | cons r as ih =>
    rw [cons_append, unexpired, unexpired, ih]
    split_ifs <;> simp [Nat.add_assoc]

def Delivered (host : ByteOrder) (fl : Flush) (records : List Record) : Prop :=
  unexpired (readable records) fl.turns = unexpired records fl.turns ∧
    ∀ p ∈ offers ((unexpired records fl.turns).map (Record.wire host)) fl.sends, p.2.Covers p.1

instance (host : ByteOrder) (fl : Flush) (records : List Record) :
    Decidable (Delivered host fl records) :=
  inferInstanceAs (Decidable (_ ∧ _))

theorem sendEach_unexpired_iff (fl : Flush) {records : List Record}
    (hsized : ∀ r ∈ records, r.Sized) :
    (sendEach ((unexpired (readable records) fl.turns).map (Record.wire host)) fl.sends).2 =
      ((unexpired records fl.turns).map (Record.wire host)).flatten ↔
    Delivered host fl records := by
  obtain ⟨later, hlater⟩ : ∃ later, unexpired records fl.turns =
      unexpired (readable records) fl.turns ++ later := by
    conv => enter [1, later, 1]; rw [← takeWhile_append_dropWhile (l := records)
      (p := fun r => r.pubTime ≠ 0)]
    exact ⟨_, unexpired_append _ _ _⟩
  have hne : ∀ b ∈ (unexpired records fl.turns).map (Record.wire host), b ≠ [] := by
    rw [forall_mem_map]
    exact fun r hr => (hsized r ((unexpired_sublist _ _).subset hr)).wire_ne_nil host
  have hiff := @sendEach_eq_flatten_iff_of_ne_nil _ hne fl.sends
  constructor
  · intro heq
    have hnil : later = [] := by
      have hle := length_sendEach_le
        ((unexpired (readable records) fl.turns).map (Record.wire host)) fl.sends
      rw [heq, hlater, map_append, flatten_append, length_append] at hle
      have hzero := length_eq_zero_iff.mp (Nat.le_zero.mp (by omega :
        ((later.map (Record.wire host)).flatten).length ≤ 0))
      cases later with
      | nil => rfl
      | cons r later =>
        have := append_eq_nil_iff.mp hzero
        refine absurd this.1 (hne _ (mem_map_of_mem ?_))
        rw [hlater]
        exact mem_append_right _ mem_cons_self
    rw [hnil, append_nil] at hlater
    rw [← hlater] at heq
    exact ⟨hlater.symm, hiff.mp heq⟩
  · rintro ⟨hreadable, hcovers⟩
    rw [hreadable]
    exact hiff.mpr hcovers

/-- **No unexpired record is lost.** -/
theorem publishFromBuffer_kept_iff (host : ByteOrder) (calls : List BufferCall)
    (bufferFile : List UInt8)
    (hfile : runSteps (publishToBuffer_i host) [] calls = .ok bufferFile) (pending : Bool)
    (fl : Flush) :
    (∀ ok c handed, publishFromBuffer host fl ⟨pending, bufferFile⟩ = .ok (ok, c, handed) →
      (Kept host (unexpired (records calls) fl.turns) handed c.bufferFile ↔
        pending = true ∨ fl.opens = false ∨ Delivered host fl (records calls))) ∧
    ((∀ r ∈ records calls, ∀ heap junk,
        checkString host heap junk r.data = .ok ()) →
      ∃ r, publishFromBuffer host fl ⟨pending, bufferFile⟩ = .ok r) := by
  obtain ⟨hbuffer, hsized⟩ := runSteps_publishToBuffer_i hfile
  rw [nil_append] at hbuffer
  have hrounds := (length_le_flatMap_encode host (records calls)).trans (Nat.le_succ _)
  subst hbuffer
  cases pending with
  | true =>
    refine ⟨fun ok c handed h => ?_, fun _ => ⟨_, rfl⟩⟩
    obtain ⟨-, rfl, rfl⟩ : _ ∧ _ ∧ _ := by simpa [publishFromBuffer] using h
    exact iff_of_true (kept_of_unchanged host _ _) (Or.inl rfl)
  | false =>
    rw [publishFromBuffer, if_neg Bool.false_ne_true]
    cases hopens : fl.opens with
    | false =>
      refine ⟨fun ok c handed h => ?_, fun _ => ⟨_, rfl⟩⟩
      obtain ⟨-, rfl, rfl⟩ : _ ∧ _ ∧ _ := by simpa using h
      exact iff_of_true (kept_of_unchanged host _ _) (Or.inr (Or.inl rfl))
    | true =>
      rw [if_pos rfl]
      refine ⟨fun ok c handed h => ?_, fun hcheck => ?_⟩
      · obtain ⟨s, hloop, h⟩ := bind_eq_ok.mp h
        obtain ⟨-, rfl, rfl⟩ : _ ∧ _ ∧ _ := by simpa [pure, Except.pure] using h
        rw [kept_nil_iff, congrArg Prod.snd (publishLoop_eq hsized hrounds hloop),
          sendEach_unexpired_iff fl hsized]
        simp
      · obtain ⟨s, hloop⟩ := exists_publishLoop hsized hcheck hrounds fl.turns fl.sends
        exact ⟨_, bind_eq_ok.mpr ⟨s, hloop, rfl⟩⟩

def topicCall : BufferCall where
  opens := true
  now := 1000
  heap := fun _ => zeroChunk
  junk := 0
  os := Option.get ((start .little .event (.create .little fun _ => zeroChunk)).bind
    fun os => os.writeString .little [116]) (by decide +kernel)
  length_lt := by decide +kernel

def minuteFlush (r : SendResult) : Flush where
  opens := true
  turns := fun _ =>
    ⟨1060, fun _ => 0, fun _ => zeroChunk, fun _ => zeroChunk, fun _ => zeroChunk, 0⟩
  sends := fun _ => r

theorem publishFromBuffer_two_events :
    ∃ bufferFile c handed,
      runSteps (publishToBuffer_i .little) [] [topicCall, topicCall] = .ok bufferFile ∧
      publishFromBuffer .little (minuteFlush (.accepted 100)) ⟨false, bufferFile⟩ =
        .ok (true, c, handed) ∧
      Kept .little (unexpired (records [topicCall, topicCall])
        (minuteFlush (.accepted 100)).turns) handed c.bufferFile := by
  have hfile : runSteps (publishToBuffer_i .little) [] [topicCall, topicCall] =
      .ok ((records [topicCall, topicCall]).flatMap (Record.encode .little)) := by
    decide +kernel
  obtain ⟨c, handed, hflush⟩ : ∃ c handed,
      publishFromBuffer .little (minuteFlush (.accepted 100))
        ⟨false, (records [topicCall, topicCall]).flatMap (Record.encode .little)⟩ =
          .ok (true, c, handed) :=
    ⟨⟨false, []⟩, (records [topicCall, topicCall]).flatMap (Record.wire .little),
      by decide +kernel⟩
  exact ⟨_, c, handed, hfile, hflush,
    ((publishFromBuffer_kept_iff .little _ _ hfile false _).1 _ _ _ hflush).mpr
      (Or.inr (Or.inr (by decide +kernel)))⟩

theorem lost_after_failed_send :
    runSteps (publishToBuffer_i .little) [] [topicCall, topicCall] =
        .ok ((records [topicCall, topicCall]).flatMap (Record.encode .little)) ∧
      publishFromBuffer .little (minuteFlush .failed)
          ⟨false, (records [topicCall, topicCall]).flatMap (Record.encode .little)⟩ =
        .ok (true, ⟨true, []⟩, []) ∧
      ¬ Kept .little (unexpired (records [topicCall, topicCall]) (minuteFlush .failed).turns)
        [] [] := by
  rw [kept_nil_iff]
  decide +kernel

end PublishClient

end Icm.Messaging
