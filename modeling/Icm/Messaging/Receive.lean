import Icm.Messaging.Protocol

/-!
# Receiving a sequence of messages

`SubscriberHandler::handleInput` and `PublisherHandler::handleInput` call `MsgProtocol::parse` on
the message that the connection holds, or on a new one, and drop it when `parse` reports it
complete; an error ends the connection.
-/

namespace Icm.Messaging

open Icm.Lib Icm.Stream MsgProtocol List Arrival InputStream OutputStream

def intMax : ℕ := 2 ^ 31 - 1

structure Fresh where
  heap : ℕ → Chunk
  now : ℤ

/-- A reported message: its type, the bytes of its body, and the number of bytes received. -/
structure Report where
  messageType : UInt8
  body : List UInt8
  currentOffset : ℕ
  deriving DecidableEq, Repr

def Msg.report (msg : Msg) : Report where
  messageType := msg.messageType
  body := msg.is.start.bytesAt headerLen msg.messageSize
  currentOffset := msg.currentOffset

section Calls

variable (host : ByteOrder) (junk : ℕ)

def newMsg (fresh : Fresh) : Msg := .create host (fresh.heap 4) junk fresh.now

def parseAll : (ℕ → Fresh) → ℕ → Option Msg → List Arrival → List Report
  | _, 0, _, _ => []
  | fresh, calls + 1, tmpMsg, s =>
    match parse host (recv intMax) (fresh 0).heap junk
      (tmpMsg.getD (newMsg host junk (fresh 0))) s with
    | .error _ => []
    | .ok ((.error, _), _) => []
    | .ok ((.half, msg), s') => parseAll fresh calls (some msg) s'
    | .ok ((.complete, msg), s') =>
      msg.report :: parseAll (fun i => fresh (i + 1)) calls none s'

def proceed (fresh : ℕ → Fresh) (calls : ℕ) : (Step × Msg) × List Arrival → List Report
  | ((.error, _), _) => []
  | ((.half, msg), s) => parseAll host junk fresh calls (some msg) s
  | ((.headerOverrun, _), _) => []
  | ((.blocked, msg), s) => msg.report :: parseAll host junk (fun i => fresh (i + 1)) calls none s
  | ((.whole, msg), s) =>
    if msg.currentOffset = toUInt (headerLen + msg.messageSize) ∧
        (msg.messageType = MsgType.event.toOctet → (msg.is.readString host junk).val ≠ []) then
      msg.report :: parseAll host junk (fun i => fresh (i + 1)) calls none s
    else []

end Calls

theorem run_fetch_start {α : Type} (p : Query ℕ Fetched α) (is : InputStream) (rdPtr : ℕ) :
    ({ (p.run fetch is).2.start with rdPtr := rdPtr } : MessageBlock) =
      { is.start with rdPtr := rdPtr } := by
  refine p.run_invariant (I := fun s : InputStream =>
    ({ s.start with rdPtr := rdPtr } : MessageBlock) = { is.start with rdPtr := rdPtr }) ?_ rfl
  intro n s hs
  rcases Nat.lt_or_ge s.endPtr (s.rdPtr + n) with h | h
  · rw [fetch_of_lt h]
    exact hs
  · rw [fetch_of_le h]
    exact hs

theorem run_fetch_dataBlock {α : Type} (p : Query ℕ Fetched α) (is : InputStream) :
    (p.run fetch is).2.start.dataBlock = is.start.dataBlock := by
  have hstart := congrArg MessageBlock.dataBlock (run_fetch_start p is 0)
  exact hstart

theorem decode_spec (host : ByteOrder) (junk : ℕ) (msg : Msg) :
    (decode host junk msg).messageType = msg.messageType ∧
      (decode host junk msg).topic = (msg.is.readString host junk).val ∧
      (decode host junk msg).report = msg.report := by
  simp only [decode, Msg.report, MessageBlock.bytesAt]
  split_ifs <;>
    simp only [readString_eq, readInt, readWord_eq,
      readBoolean_eq, Reading.ofRun, run_fetch_dataBlock, and_self]

theorem parseAll_succ (host : ByteOrder) (junk : ℕ) (fresh : ℕ → Fresh) (calls : ℕ)
    (tmpMsg : Option Msg) (s : List Arrival) :
    parseAll host junk fresh (calls + 1) tmpMsg s =
      proceed host junk fresh calls (receive host (recv intMax) (fresh 0).heap
        (tmpMsg.getD (newMsg host junk (fresh 0))) s) := by
  rw [parseAll, parse]
  rcases receive host (recv intMax) (fresh 0).heap
    (tmpMsg.getD (newMsg host junk (fresh 0))) s with ⟨⟨_ | _ | _ | _ | _, msg⟩, s'⟩
  case whole =>
    obtain ⟨htype, htopic, hreport⟩ := decode_spec host junk msg
    simp only [proceed, require_bind, htype, htopic]
    by_cases hoffset : msg.currentOffset = toUInt (headerLen + msg.messageSize)
    · by_cases hevent : msg.messageType = MsgType.event.toOctet →
          (msg.is.readString host junk).val ≠ []
      · rw [if_pos hoffset, if_pos hevent, if_pos ⟨hoffset, hevent⟩, ← hreport]
        rfl
      · rw [if_pos hoffset, if_neg hevent, if_neg fun h => hevent h.2]
    · rw [if_neg hoffset, if_neg fun h => hoffset h.1]
  all_goals rfl

structure Frame where
  type : UInt8
  body : List UInt8
  body_pos : 0 < body.length
  body_lt : body.length < 2 ^ 32

namespace Frame

variable (f : Frame)

def bytes : List UInt8 := frame f.type f.body

def header : List UInt8 := wire 4 f.body.length ++ [f.type]

def report : Report := ⟨f.type, f.body, headerLen + f.body.length⟩

theorem length_header : f.header.length = headerLen := by simp [header, headerLen]

theorem bytes_eq : f.bytes = f.header ++ f.body := by simp [bytes, header, frame]

theorem length_bytes : f.bytes.length = headerLen + f.body.length := length_frame _ _

end Frame

section Receiving

variable (host : ByteOrder) (junk : ℕ) (fresh : Fresh) (f : Frame)

def headerStream : InputStream :=
  (newMsg host junk fresh).is.grow (fresh.heap 0) (fresh.heap 1) headerLen

def headedMsg (header : List UInt8) (k : ℕ) : Msg :=
  { newMsg host junk fresh with
    is := (headerStream host junk fresh).fill 0 (header.take k)
    currentOffset := k }

def headerMsg (k : ℕ) : Msg :=
  { newMsg host junk fresh with
    is := (headerStream host junk fresh).fill 0 (f.header.take k)
    currentOffset := k }

def bodyStream : InputStream :=
  ((((headerStream host junk fresh).fill 0 f.header).skip 4).grow (fresh.heap 2) (fresh.heap 3)
    (toUInt (headerLen + f.body.length))).skip headerLen

def bodyMsg (k : ℕ) : Msg :=
  { newMsg host junk fresh with
    messageType := f.type
    messageSize := f.body.length
    currentOffset := headerLen + k
    is := (bodyStream host junk fresh f).fill headerLen (f.body.take k) }

def Frame.topic : List UInt8 :=
  (((bodyStream host junk fresh f).fill headerLen f.body).readString host junk).val

def Frame.Good : Prop :=
  f.body.length < 2 ^ 31 ∧
    (f.type = MsgType.event.toOctet → f.topic host junk fresh ≠ [])

theorem makeRoom_newMsg :
    makeRoom fresh.heap (newMsg host junk fresh) = headerMsg host junk fresh f 0 := by
  rw [headerMsg, take_zero, fill_nil]
  rfl

theorem makeRoom_headerMsg {k : ℕ} (hk : 0 < k) :
    makeRoom fresh.heap (headerMsg host junk fresh f k) = headerMsg host junk fresh f k :=
  if_neg hk.ne'

theorem makeRoom_bodyMsg (k : ℕ) :
    makeRoom fresh.heap (bodyMsg host junk fresh f k) = bodyMsg host junk fresh f k :=
  if_neg (by simp [bodyMsg, headerLen])

theorem receiveHeader_bodyMsg (k : ℕ) (s : List Arrival) :
    receiveHeader host (recv intMax) fresh.heap (bodyMsg host junk fresh f k) s =
      receiveBody (recv intMax) (bodyMsg host junk fresh f k) s :=
  if_neg (Nat.not_lt.mpr (Nat.le_add_right _ _))

theorem openBody_headedMsg {n : ℕ} (hn : n < 2 ^ 32) (type : UInt8) :
    openBody host fresh.heap (headedMsg host junk fresh (wire 4 n ++ [type]) headerLen) =
      { newMsg host junk fresh with
        messageType := type
        messageSize := n
        currentOffset := headerLen
        is := ((((headerStream host junk fresh).fill 0 (wire 4 n ++ [type])).skip 4).grow
          (fresh.heap 2) (fresh.heap 3) (toUInt (headerLen + n))).skip headerLen } := by
  have hrd : (headerStream host junk fresh).rdPtr = 0 := grow_rdPtr _ _ _ _
  have hend : headerLen ≤ (headerStream host junk fresh).endPtr :=
    le_of_add_le_left (le_grow_endPtr _ _ _ _)
  obtain ⟨hread, htype⟩ := read_header hrd hend rfl hn type
    (newMsg host junk fresh).messageSize
  have htake : (wire 4 n ++ [type]).take headerLen = wire 4 n ++ [type] :=
    take_of_length_le (by simp [headerLen])
  -- eight bytes are always allocated behind those asked for, so `skip_bytes` does not fail
  have hskip (is : InputStream) : (is.grow (fresh.heap 2) (fresh.heap 3)
      (toUInt (headerLen + n))).skipBytes headerLen =
      (true, (is.grow (fresh.heap 2) (fresh.heap 3)
        (toUInt (headerLen + n))).skip headerLen) := by
    have hroom := le_grow_endPtr is (fresh.heap 2) (fresh.heap 3)
      (toUInt (headerLen + n))
    have hlen : headerLen ≤ maxAlignment := by decide
    rw [skipBytes, grow_rdPtr, if_pos (by omega)]
  rw [openBody]
  simp only [headedMsg, htake, fill_rdPtr, hrd, Nat.zero_add]
  rw [hread, htype]
  simp only [hskip]

theorem openBody_headerMsg :
    openBody host fresh.heap (headerMsg host junk fresh f headerLen) =
      bodyMsg host junk fresh f 0 := by
  rw [bodyMsg, take_zero, fill_nil]
  exact openBody_headedMsg host junk fresh f.body_lt f.type

end Receiving

section OneFrame

variable (host : ByteOrder) (junk : ℕ) (fresh : ℕ → Fresh) (f : Frame)

instance : Decidable (f.Good host junk (fresh 0)) := inferInstanceAs (Decidable (_ ∧ _))

def afterFrame (s : List Arrival) (calls : ℕ) : List Report :=
  if f.Good host junk (fresh 0) then
    f.report :: parseAll host junk (fun i => fresh (i + 1)) calls none s
  else []

def Reads (n : ℕ) (s : List Arrival) (out : ℕ → List Report) : Prop :=
  (∃ s' calls₀, deliver n s = some s' ∧
    ∀ calls, out calls =
      if calls < calls₀ then [] else afterFrame host junk fresh f s' (calls - calls₀)) ∨
  ((deliver n s = none ∨ ¬ f.Good host junk (fresh 0)) ∧
    ∀ calls, (out calls).head? ≠ some f.report)

variable {host junk fresh f}

variable {s s' : List Arrival}

theorem Reads.step {n n' : ℕ} {out out' : ℕ → List Report}
    (h : Reads host junk fresh f n' s' out')
    (hdeliver : deliver n s = deliver n' s') (hzero : out 0 = [])
    (hsucc : ∀ calls, out (calls + 1) = out' calls) : Reads host junk fresh f n s out := by
  rcases h with ⟨s'', calls₀, hs'', hout⟩ | ⟨hbad, hout⟩
  · refine Or.inl ⟨s'', calls₀ + 1, hdeliver.trans hs'', ?_⟩
    rintro (_ | calls)
    · rw [hzero, if_pos calls₀.succ_pos]
    · rw [hsucc, hout, Nat.add_sub_add_right]
      simp only [Nat.add_lt_add_iff_right]
  · refine Or.inr ⟨by rwa [hdeliver], ?_⟩
    rintro (_ | calls)
    · rw [hzero]
      exact nofun
    · rw [hsucc]
      exact hout calls

theorem bodyMsg_length_report :
    (bodyMsg host junk (fresh 0) f f.body.length).report = f.report := by
  simp only [Msg.report, bodyMsg, take_length, bytesAt_fill, Frame.report]

theorem bytesToRead_of_lt {msg : Msg} (h : msg.messageSize < 2 ^ 31) :
    bytesToRead msg = (msg.messageSize - (msg.currentOffset - headerLen) : ℕ) := by
  rw [bytesToRead, BitVec.toInt_eq_toNat_of_lt] <;>
    rw [BitVec.toNat_ofNat, Nat.mod_eq_of_lt] <;> omega

theorem bytesToRead_bodyMsg {fresh : Fresh} (hlt : f.body.length < 2 ^ 31) (k : ℕ) :
    bytesToRead (bodyMsg host junk fresh f k) = (f.body.length - k : ℕ) := by
  rw [bytesToRead_of_lt (show (bodyMsg host junk fresh f k).messageSize < 2 ^ 31 from hlt)]
  simp only [bodyMsg, Nat.add_sub_cancel_left]

theorem sizeT_natCast {n : ℕ} (h : n < 2 ^ 64) : sizeT n = n := by
  rw [sizeT]
  omega

variable {k : ℕ} {bs rest : List UInt8}

theorem receiveBody_bodyMsg (host : ByteOrder) (junk : ℕ) (fresh : Fresh) (f : Frame)
    (hlt : f.body.length < 2 ^ 31)
    (hrecv : recv intMax (f.body.length - k) s = (.bytes bs, s'))
    (hne : bs ≠ []) (hk : k + bs.length ≤ f.body.length) (hbs : f.body.drop k = bs ++ rest) :
    receiveBody (recv intMax) (bodyMsg host junk fresh f k) s =
      ((if k + bs.length < f.body.length then .half else .whole,
        bodyMsg host junk fresh f (k + bs.length)), s') := by
  have hasked : sizeT (bytesToRead (bodyMsg host junk fresh f k)) = f.body.length - k := by
    rw [bytesToRead_bodyMsg hlt, sizeT_natCast (by omega)]
  have hoffset : toUInt (headerLen + k + bs.length) = headerLen + (k + bs.length) := by
    rw [Nat.add_assoc]
    exact toUInt_of_lt (by simp only [headerLen]; omega)
  have hfill : ((bodyStream host junk fresh f).fill headerLen (f.body.take k)).fill
      (headerLen + k) bs =
      (bodyStream host junk fresh f).fill headerLen (f.body.take (k + bs.length)) := by
    have hlen : (f.body.take k).length = k := by rw [length_take]; omega
    have htake : f.body.take (k + bs.length) = f.body.take k ++ bs := by
      rw [take_add, hbs, take_left]
    rw [htake, ← fill_fill, hlen]
  have hrd : ((bodyStream host junk fresh f).fill headerLen (f.body.take k)).rdPtr =
      headerLen := by
    rw [fill_rdPtr, bodyStream, skip_rdPtr, grow_rdPtr,
      Nat.zero_add]
  have hcond : ((bs.length : ℤ) < (f.body.length - k : ℕ)) ↔ k + bs.length < f.body.length := by
    omega
  rw [receiveBody, hasked, hrecv]
  simp only [hne, ↓reduceIte, bytesToRead_bodyMsg hlt, hcond]
  simp only [bodyMsg, Nat.add_sub_cancel_left, hrd, hfill, hoffset]

theorem proceed_whole (hlt : f.body.length < 2 ^ 31) (s : List Arrival) (calls : ℕ) :
    proceed host junk fresh calls
        ((.whole, bodyMsg host junk (fresh 0) f f.body.length), s) =
      afterFrame host junk fresh f s calls := by
  have hoffset : headerLen + f.body.length = toUInt (headerLen + f.body.length) :=
    (toUInt_of_lt (by simp only [headerLen]; omega)).symm
  have hstream : (bodyMsg host junk (fresh 0) f f.body.length).is =
      (bodyStream host junk (fresh 0) f).fill headerLen f.body := by
    simp only [bodyMsg, take_length]
  have hgood : ((bodyMsg host junk (fresh 0) f f.body.length).currentOffset =
        toUInt
          (headerLen + (bodyMsg host junk (fresh 0) f f.body.length).messageSize) ∧
      ((bodyMsg host junk (fresh 0) f f.body.length).messageType = MsgType.event.toOctet →
        ((bodyMsg host junk (fresh 0) f f.body.length).is.readString host junk).val ≠ [])) ↔
      f.Good host junk (fresh 0) := by
    rw [hstream]
    exact and_congr_left' ⟨fun _ => hlt, fun _ => hoffset⟩
  simp only [proceed, hgood, afterFrame, bodyMsg_length_report]

variable {tail : List UInt8}

theorem reads_body (hlt : f.body.length < 2 ^ 31) (hk : k < f.body.length)
    (s : List Arrival) (hs : bytes s = f.body.drop k ++ tail) :
    Reads host junk fresh f (f.body.length - k) s fun calls =>
      proceed host junk fresh calls
        (receiveBody (recv intMax) (bodyMsg host junk (fresh 0) f k) s) := by
  induction hm : f.body.length - k using Nat.strong_induction_on generalizing k s with
  | _ m ih =>
    subst hm
    have hcap : f.body.length - k ≤ intMax := by simp only [intMax]; omega
    rcases recv_cases s (Nat.sub_pos_of_lt hk) hcap le_rfl with
      ⟨⟨s', hrecv⟩, hnone⟩ | ⟨bs, s', hrecv, hne, hle, hbytes, hdeliver⟩
    · refine Or.inr ⟨Or.inl hnone, fun calls hhead => ?_⟩
      have hblocked : receiveBody (recv intMax) (bodyMsg host junk (fresh 0) f k) s =
          ((.blocked, bodyMsg host junk (fresh 0) f k), s') := by
        rw [receiveBody, bytesToRead_bodyMsg hlt, sizeT_natCast (by omega), hrecv]
      simp only [hblocked, proceed, head?_cons, Option.some.injEq] at hhead
      have hoffset : headerLen + k = headerLen + f.body.length :=
        congrArg Report.currentOffset hhead
      omega
    · have hpos := length_pos_iff.mpr hne
      obtain ⟨rest, hrest⟩ : bs <+: f.body.drop k :=
        prefix_of_prefix_length_le ⟨_, hbytes.symm⟩ ⟨tail, hs.symm⟩
          (by rw [length_drop]; exact hle)
      have hcall := receiveBody_bodyMsg host junk (fresh 0) f hlt hrecv hne (by omega) hrest.symm
      have htail : bytes s' = f.body.drop (k + bs.length) ++ tail := by
        rw [hs, ← hrest, append_assoc] at hbytes
        rw [← append_cancel_left hbytes, ← drop_drop, ← hrest, drop_left]
      by_cases hlast : k + bs.length < f.body.length
      · rw [if_pos hlast] at hcall
        refine Reads.step (ih _ (by omega) hlast s' htail rfl) ?_ ?_ ?_
        · rw [hdeliver, Nat.sub_sub]
        · simp only [hcall, proceed, parseAll]
        · intro calls
          simp only [hcall, proceed, parseAll_succ, Option.getD_some, receive, makeRoom_bodyMsg,
            receiveHeader_bodyMsg]
      · obtain hall : k + bs.length = f.body.length := by omega
        rw [if_neg hlast, hall] at hcall
        have hzero : f.body.length - k - bs.length = 0 := by omega
        refine Or.inl ⟨s', 0, ?_, fun calls => ?_⟩
        · rw [hdeliver, hzero]
          cases s' <;> rfl
        · simp only [hcall, proceed_whole hlt, Nat.not_lt_zero, ↓reduceIte, Nat.sub_zero]

theorem reads_body_of_le (hle : 2 ^ 31 ≤ f.body.length) (n : ℕ) (s : List Arrival) :
    Reads host junk fresh f n s fun calls =>
      proceed host junk fresh calls
        (receiveBody (recv intMax) (bodyMsg host junk (fresh 0) f 0) s) := by
  have hlt := f.body_lt
  refine Or.inr ⟨Or.inr fun hgood => absurd hgood.1 (Nat.not_lt.mpr hle), fun calls => ?_⟩
  have hneg : bytesToRead (bodyMsg host junk (fresh 0) f 0) = (f.body.length : ℤ) - 2 ^ 32 := by
    simp only [bytesToRead, bodyMsg, Nat.add_sub_cancel_left, Nat.sub_zero]
    rw [BitVec.toInt_eq_toNat_cond, BitVec.toNat_ofNat, Nat.mod_eq_of_lt hlt, if_neg (by omega)]
    rfl
  have hasked : 0 < sizeT (bytesToRead (bodyMsg host junk (fresh 0) f 0)) := by
    rw [hneg, sizeT]
    omega
  have hblocked (s' : List Arrival) : (proceed host junk fresh calls
      ((.blocked, bodyMsg host junk (fresh 0) f 0), s')).head? ≠ some f.report := by
    intro hhead
    simp only [proceed, head?_cons, Option.some.injEq] at hhead
    have hoffset : headerLen + 0 = headerLen + f.body.length :=
      congrArg Report.currentOffset hhead
    omega
  rw [receiveBody]
  set asked := sizeT (bytesToRead (bodyMsg host junk (fresh 0) f 0))
  rcases s with _ | ⟨⟨b, bs⟩ | _, s⟩
  · exact hblocked []
  · set m := min asked intMax with hm
    have hmpos : 0 < m := lt_min hasked (by decide)
    have hmle : m ≤ intMax := min_le_right _ _
    have hne : (b :: bs).take m ≠ [] := by
      rw [← length_pos_iff, length_take, length_cons]
      omega
    have hlen : ((b :: bs).take m).length ≤ intMax := (length_take_le _ _).trans hmle
    have hpos := length_pos_iff.mpr hne
    have hnotlt : ¬ ((((b :: bs).take m).length : ℤ) < (f.body.length : ℤ) - 2 ^ 32) := by omega
    have hoffset : toUInt (headerLen + 0 + ((b :: bs).take m).length) ≠
        toUInt (headerLen + f.body.length) := by
      simp only [toUInt, headerLen, intMax] at hlen ⊢
      omega
    simp only [recv, ← hm, hne, ↓reduceIte, hneg, hnotlt, proceed]
    rw [if_neg fun h => hoffset h.1]
    simp
  · exact hblocked s

theorem receiveHeader_headedMsg {σ : Type} (host : ByteOrder) (junk : ℕ) (fresh : Fresh)
    {header : List UInt8} (hheader : header.length = headerLen) (recv : ℕ → σ → Recv × σ)
    (hk : k < headerLen) {s s' : σ}
    (hrecv : recv (headerLen - k) s = (.bytes bs, s')) (hne : bs ≠ [])
    (hle : k + bs.length ≤ headerLen) (hbs : header.drop k = bs ++ rest) :
    receiveHeader host recv fresh.heap (headedMsg host junk fresh header k) s =
      if k + bs.length < headerLen then
        ((.half, headedMsg host junk fresh header (k + bs.length)), s')
      else
        receiveBody recv
          (openBody host fresh.heap (headedMsg host junk fresh header headerLen)) s' := by
  have hlen : (header.take k).length = k := by
    rw [length_take, hheader]
    omega
  have htake : header.take (k + bs.length) = header.take k ++ bs := by
    rw [take_add, hbs, take_left]
  have hoffset : toUInt (k + bs.length) = k + bs.length :=
    toUInt_of_lt (hle.trans_lt (by decide))
  have hmsg : ({ headedMsg host junk fresh header k with
      is := (headedMsg host junk fresh header k).is.fill
        ((headedMsg host junk fresh header k).is.rdPtr + k) bs
      currentOffset := k + bs.length } : Msg) =
        headedMsg host junk fresh header (k + bs.length) := by
    have hrd : (headedMsg host junk fresh header k).is.rdPtr = 0 := grow_rdPtr _ _ _ _
    have hfill := fill_fill (headerStream host junk fresh) 0 bs (header.take k)
    rw [hlen, ← htake] at hfill
    rw [hrd]
    simp only [headedMsg, hfill]
  rw [receiveHeader, show (headedMsg host junk fresh header k).currentOffset = k from rfl,
    if_pos hk, hrecv]
  simp only [hne, ↓reduceIte, hoffset, hmsg]
  split_ifs with hhalf hover
  · rfl
  · exact absurd (show k + bs.length = headerLen by omega) hover
  · rw [show k + bs.length = headerLen by omega]

theorem receiveHeader_headerMsg (host : ByteOrder) (junk : ℕ) (fresh : Fresh) (f : Frame)
    (hk : k < headerLen)
    (hrecv : recv intMax (headerLen - k) s = (.bytes bs, s')) (hne : bs ≠ [])
    (hle : k + bs.length ≤ headerLen) (hbs : f.header.drop k = bs ++ rest) :
    receiveHeader host (recv intMax) fresh.heap (headerMsg host junk fresh f k) s =
      if k + bs.length < headerLen then
        ((.half, headerMsg host junk fresh f (k + bs.length)), s')
      else receiveBody (recv intMax) (bodyMsg host junk fresh f 0) s' := by
  rw [← openBody_headerMsg]
  exact receiveHeader_headedMsg host junk fresh f.length_header _ hk hrecv hne hle hbs

theorem reads_header (hk : k < headerLen) (s : List Arrival)
    (hs : bytes s = f.header.drop k ++ (f.body ++ tail)) :
    Reads host junk fresh f (headerLen - k + f.body.length) s fun calls =>
      proceed host junk fresh calls (receiveHeader host (recv intMax) (fresh 0).heap
        (headerMsg host junk (fresh 0) f k) s) := by
  induction hm : headerLen - k using Nat.strong_induction_on generalizing k s with
  | _ m ih =>
    subst hm
    have hcap : headerLen - k ≤ intMax := (Nat.sub_le _ _).trans (by decide)
    rcases recv_cases s (Nat.sub_pos_of_lt hk) hcap
        (Nat.le_add_right (headerLen - k) f.body.length) with
      ⟨⟨s', hrecv⟩, hnone⟩ | ⟨bs, s', hrecv, hne, hle, hbytes, hdeliver⟩
    · refine Or.inr ⟨Or.inl hnone, fun calls => ?_⟩
      rw [receiveHeader, show (headerMsg host junk (fresh 0) f k).currentOffset = k from rfl,
        if_pos hk, hrecv]
      exact nofun
    · have hpos := length_pos_iff.mpr hne
      obtain ⟨rest, hrest⟩ : bs <+: f.header.drop k :=
        prefix_of_prefix_length_le ⟨_, hbytes.symm⟩ ⟨f.body ++ tail, hs.symm⟩
          (by rw [length_drop, f.length_header]; exact hle)
      have hcall := receiveHeader_headerMsg host junk (fresh 0) f hk hrecv hne (by omega) hrest.symm
      have htail : bytes s' = f.header.drop (k + bs.length) ++ (f.body ++ tail) := by
        rw [hs, ← hrest, append_assoc] at hbytes
        rw [← append_cancel_left hbytes, ← drop_drop, ← hrest, drop_left]
      by_cases hhalf : k + bs.length < headerLen
      · rw [if_pos hhalf] at hcall
        refine Reads.step (ih _ (by omega) hhalf s' htail rfl) ?_ ?_ ?_
        · rw [hdeliver]
          congr 1
          omega
        · simp only [hcall, proceed, parseAll]
        · intro calls
          simp only [hcall, proceed, parseAll_succ, Option.getD_some, receive]
          rw [makeRoom_headerMsg _ _ _ _ (Nat.add_pos_right k hpos)]
      · rw [if_neg hhalf] at hcall
        have hall : k + bs.length = headerLen := by omega
        have hmissing : headerLen - k + f.body.length - bs.length = f.body.length := by omega
        have hbody : bytes s' = f.body.drop 0 ++ tail := by
          rw [htail, hall, ← f.length_header, drop_length, nil_append, drop_zero]
        simp only [hcall, Reads, hdeliver, hmissing]
        rcases Nat.lt_or_ge f.body.length (2 ^ 31) with hlt | hge
        · exact reads_body hlt f.body_pos s' hbody
        · exact reads_body_of_le hge f.body.length s'

theorem parseAll_reads (s : List Arrival)
    (hs : bytes s = f.bytes ++ tail) :
    Reads host junk fresh f (headerLen + f.body.length) s fun calls =>
      parseAll host junk fresh calls none s := by
  have hheader : bytes s = f.header.drop 0 ++ (f.body ++ tail) := by
    rw [hs, f.bytes_eq, append_assoc, drop_zero]
  refine Reads.step (reads_header (by decide) s hheader) rfl rfl fun calls => ?_
  rw [parseAll_succ, Option.getD_none, receive, makeRoom_newMsg]

end OneFrame

section Frames

variable (host : ByteOrder) (junk : ℕ) (fresh : ℕ → Fresh)

theorem parseAll_of_bytes_eq_nil {s : List Arrival} (h : bytes s = []) (calls : ℕ) :
    parseAll host junk fresh calls none s = [] := by
  cases calls with
  | zero => rfl
  | succ calls =>
    obtain ⟨s', hrecv⟩ : ∃ s', recv intMax headerLen s = (.wouldBlock, s') :=
      ⟨_, Prod.ext (recv_of_bytes_eq_nil h _ _) rfl⟩
    have hroom : (makeRoom (fresh 0).heap (newMsg host junk (fresh 0))).currentOffset = 0 := rfl
    rw [parseAll_succ, Option.getD_none, receive, receiveHeader, hroom, if_pos (by decide),
      Nat.sub_zero, hrecv]
    rfl

theorem forall_good_cons (f : Frame) (frames : List Frame) :
    (∀ i, (hi : i < (f :: frames).length) → (f :: frames)[i].Good host junk (fresh i)) ↔
      f.Good host junk (fresh 0) ∧
        ∀ i, (hi : i < frames.length) → frames[i].Good host junk (fresh (i + 1)) := by
  constructor
  · exact fun h => ⟨h 0 (Nat.succ_pos _), fun i hi => h (i + 1) (Nat.succ_lt_succ hi)⟩
  · rintro ⟨hzero, hsucc⟩ (_ | i) hi
    · exact hzero
    · exact hsucc i (Nat.lt_of_succ_lt_succ hi)

theorem parseAll_cons_iff {f : Frame} {s s' : List Arrival} {calls₀ : ℕ} {reports : List Report}
    (hnext : ∀ calls, parseAll host junk fresh (calls₀ + calls) none s =
      f.report :: parseAll host junk (fun i => fresh (i + 1)) calls none s') :
    (∃ n, ∀ calls, n ≤ calls → parseAll host junk fresh calls none s = f.report :: reports) ↔
      ∃ n, ∀ calls, n ≤ calls →
        parseAll host junk (fun i => fresh (i + 1)) calls none s' = reports := by
  constructor
  · rintro ⟨n, hn⟩
    refine ⟨n, fun calls hcalls => ?_⟩
    exact (cons.inj ((hnext calls).symm.trans (hn (calls₀ + calls) (by omega)))).2
  · rintro ⟨n, hn⟩
    refine ⟨calls₀ + n, fun calls hcalls => ?_⟩
    obtain ⟨m, rfl⟩ := Nat.exists_eq_add_of_le (le_of_add_le_left hcalls)
    rw [hnext, hn m (by omega)]

end Frames

/-- **When the messages reported are the frames that were sent.** -/
theorem parseAll_eq_iff (host : ByteOrder) (junk : ℕ) (fresh : ℕ → Fresh) (frames : List Frame)
    (s : List Arrival) (hs : bytes s = frames.flatMap Frame.bytes) :
    (∃ calls₀, ∀ calls, calls₀ ≤ calls →
        parseAll host junk fresh calls none s = frames.map Frame.report) ↔
      uninterrupted s = true ∧
        ∀ i, (hi : i < frames.length) → frames[i].Good host junk (fresh i) := by
  induction frames generalizing fresh s with
  | nil =>
    have hempty : bytes s = [] := hs
    exact ⟨fun _ => ⟨uninterrupted_of_bytes_eq_nil hempty, nofun⟩,
      fun _ => ⟨0, fun calls _ => parseAll_of_bytes_eq_nil host junk fresh hempty calls⟩⟩
  | cons f frames ih =>
    have hsplit : bytes s = f.bytes ++ frames.flatMap Frame.bytes := hs
    have hlen : headerLen + f.body.length ≤ (bytes s).length := by
      rw [hsplit, length_append, f.length_bytes]
      exact Nat.le_add_right _ _
    rw [uninterrupted_iff_deliver s hlen, forall_good_cons]
    have hreads : Reads host junk fresh f _ s _ := parseAll_reads s hsplit
    rcases hreads with ⟨s', calls₀, hs', hout⟩ | ⟨hbad, hout⟩ <;> beta_reduce at hout
    · have htail : bytes s' = frames.flatMap Frame.bytes := by
        rw [bytes_of_deliver hs', hsplit, ← f.length_bytes, drop_left]
      by_cases hf : f.Good host junk (fresh 0)
      · have hnext (calls : ℕ) : parseAll host junk fresh (calls₀ + calls) none s =
            f.report :: parseAll host junk (fun i => fresh (i + 1)) calls none s' := by
          rw [hout, if_neg (Nat.not_lt.mpr (Nat.le_add_right _ _)), Nat.add_sub_cancel_left,
            afterFrame, if_pos hf]
        rw [map_cons, parseAll_cons_iff host junk fresh hnext, ih _ s' htail]
        simp [hs', hf]
      · -- the message is dropped, and so is the connection
        refine iff_of_false ?_ fun h => hf h.2.1
        rintro ⟨n, hn⟩
        have hnil := hout n
        rw [afterFrame, if_neg hf, ite_self, hn n le_rfl] at hnil
        cases hnil
    · refine iff_of_false ?_ ?_
      · rintro ⟨n, hn⟩
        refine absurd ?_ (hout n)
        rw [hn n le_rfl]
        rfl
      · rintro ⟨⟨s', hs', -⟩, hf, -⟩
        rcases hbad with hnone | hnot
        · rw [hs'] at hnone
          cases hnone
        · exact absurd hf hnot

def probeFrame : Frame := ⟨MsgType.keepAliveProbe.toOctet, [7], by decide, by decide⟩

def zeroFresh : Fresh := ⟨fun _ => zeroChunk, 0⟩

theorem parseAll_eq_iff_probe :
    ∃ calls₀, ∀ calls, calls₀ ≤ calls →
      parseAll .little 0 (fun _ => zeroFresh) calls none
        [.segment 0 [0], .segment 0 [1, 8, 7]] = [probeFrame].map Frame.report := by
  refine (parseAll_eq_iff .little 0 (fun _ => zeroFresh) [probeFrame]
    [.segment 0 [0], .segment 0 [1, 8, 7]] (by decide)).mpr ⟨by decide, ?_⟩
  rintro i hi
  obtain rfl : i = 0 := Nat.lt_one_iff.mp hi
  have htype : probeFrame.type ≠ MsgType.event.toOctet := by decide
  exact ⟨(by decide : probeFrame.body.length < 2 ^ 31), fun h => absurd h htype⟩

theorem parseAll_body_after_header :
    (parseAll .little 0 (fun _ => zeroFresh) 1 none
      [.segment 0 [0, 0, 1, 8], .pause, .segment 7 []] = [⟨8, [0], headerLen⟩]) ∧
    ¬ ∃ calls₀, ∀ calls, calls₀ ≤ calls →
      parseAll .little 0 (fun _ => zeroFresh) calls none
        [.segment 0 [0, 0, 1, 8], .pause, .segment 7 []] = [probeFrame].map Frame.report := by
  refine ⟨by decide +kernel, ?_⟩
  rintro ⟨n, hn⟩
  have hreads : Reads .little 0 (fun _ => zeroFresh) probeFrame _ _ _ :=
    parseAll_reads [.segment 0 [0, 0, 1, 8], .pause, .segment 7 []]
      (show _ = probeFrame.bytes ++ [] by decide)
  rcases hreads with ⟨s', calls₀, hs', -⟩ | ⟨-, hout⟩
  · cases hs'
  · exact hout n (congrArg head? (hn n le_rfl))

end Icm.Messaging
