import Icm.Lib.Run
import Icm.Rpc.Protocol

/-!
# The message protocol

Class `MsgProtocol` of `msg/MsgProtocol.cpp`, on which the message broker and its clients talk: the
resumable parser of one incoming message, and the sender.
-/

namespace Icm.Messaging

open Icm.Lib Icm.Stream

variable {σ : Type}

inductive MsgType
  | subscribe
  | unSubscribe
  | subscribeOK
  | unSubscribeOK
  | event
  | unknow
  | publish
  | publishOK
  | keepAliveProbe
  | keepAliveACK
  | publishBufferFull
  deriving DecidableEq, Repr

def MsgType.toOctet : MsgType → UInt8
  | subscribe => 0
  | unSubscribe => 1
  | subscribeOK => 2
  | unSubscribeOK => 3
  | event => 4
  | unknow => 5
  | publish => 6
  | publishOK => 7
  | keepAliveProbe => 8
  | keepAliveACK => 9
  | publishBufferFull => 10

inductive Assertion
  /-- `newsize <= 100000` in `OutputStream::grow_and_adjust`. -/
  | blockSize
  /-- `i->length() != 0` in `MsgProtocol::toString` and `MsgProtocol::send`. -/
  | blockLength
  /-- `topic != ""` in `MsgProtocol::check`. -/
  | checkTopic
  /-- `msg->currentOffset == MSG_HEADER_LEN` in `MsgProtocol::parse`. -/
  | headerOffset
  /-- `msg->currentOffset == MSG_HEADER_LEN + msg->messageSize` in `MsgProtocol::parse`. -/
  | bodyOffset
  /-- `msg->topic != ""` in `MsgProtocol::parse`. -/
  | eventTopic
  /-- `id != ""` in `SubscriberHandler::handleInput`. -/
  | subscriberId
  /-- `id.size() == 1` in `SubscriberHandler::handleInput`. -/
  | allocatedId
  /-- `this->id == msg->subscriberId` in `SubscriberHandler::handleInput`. -/
  | sameId
  /-- `assert(false)` in `SubscriberHandler::handleInput`. -/
  | subscriberType
  /-- `tmpMsg == 0` in `SubscriberHandler::~SubscriberHandler`. -/
  | subscriberTmpMsg
  /-- `id != ""` in `SubscriberHandler::sendMessage`. -/
  | sendId
  /-- `getHandlerOfClient_(id) == this` in `SubscriberHandler::sendMessage`. -/
  | sendHandler
  /-- `msg->messageType == Msg_Event` in `PublisherHandler::handleInput`. -/
  | publisherType
  /-- `msg->topic != ""` in `PublisherHandler::handleInput`. -/
  | publisherTopic
  /-- `msg == 0` in `PublisherHandler::~PublisherHandler`. -/
  | publisherMsg
  /-- `topic != ""` in `TopicManager::addSubscription_` and `TopicManager::addSubscription`. -/
  | subscriptionTopic
  /-- `subscriberId != ""` in `TopicManager::addSubscription_` and `TopicManager::addMessage_`. -/
  | subscriptionId
  /-- `clientId != ""` in `getHandlerOfClient_` and `getClientMessages_`. -/
  | clientId
  /-- `dataSize > 0` in `PublishClient::publishFromBuffer`. -/
  | dataSize
  /-- `brokerIp != ""` in `PublishClient::publish`. -/
  | brokerIp
  /-- `connectionErrorPending == false` in `PublishClient::sendKeepAliveProbe`. -/
  | probeConnection
  /-- `getConnectionError() == true` in `PublishClient::svc`. -/
  | svcConnection
  /-- `this->getConnectionError() == true` in
  `PublishClient::reestablishConnectionAndPublishFromBuffer`. -/
  | reestablishConnection
  /-- `handler != 0` in `PublishClient::reestablishConnectionAndPublishFromBuffer`. -/
  | reestablishHandler
  /-- `reactor != NULL` in `PublishClient::disableKeepAlive`. -/
  | keepAliveReactor
  /-- `publishClient != 0` in `PublishClientHandler::handleInput`. -/
  | handlerClient
  /-- `result == 0` in `PublishClientHandler::handleInput`. -/
  | handlerResult
  /-- `!ifs.eof()` in `TopicManager::TopicManager`. -/
  | reloadEof
  deriving DecidableEq, Repr

def written {α : Type} : Option α → Except Assertion α
  | some x => .ok x
  | none => .error .blockSize

structure Msg where
  messageType : UInt8
  messageSize : ℕ
  currentOffset : ℕ
  is : InputStream
  topic : List UInt8
  subscriberId : List UInt8
  creatTime : ℤ
  keepAliveTryTimes : BitVec 32
  keepAliveTimeSpan : BitVec 32
  enableBuffering : Bool

def Msg.create (host : ByteOrder) (c : Chunk) (junk : ℕ) (now : ℤ) : Msg where
  messageType := MsgType.unknow.toOctet
  messageSize := 0
  currentOffset := 0
  is := .create host c defaultBufsize
  topic := []
  subscriberId := []
  creatTime := now
  keepAliveTryTimes := .ofNat _ junk
  keepAliveTimeSpan := .ofNat _ junk
  enableBuffering := junk % 2 = 1

inductive ParseResult
  | error
  | complete
  | half
  deriving DecidableEq, Repr

namespace MsgProtocol

inductive Step
  | error
  | half
  | blocked
  | whole
  | headerOverrun
  deriving DecidableEq, Repr

def bytesToRead (msg : Msg) : ℤ :=
  (BitVec.ofNat 32 (msg.messageSize - (msg.currentOffset - headerLen))).toInt

def sizeT (n : ℤ) : ℕ := (n % 2 ^ 64).toNat

def receiveBody (recv : ℕ → σ → Recv × σ) (msg : Msg) (s : σ) : (Step × Msg) × σ :=
  match recv (sizeT (bytesToRead msg)) s with
  | (.wouldBlock, s') => ((.blocked, msg), s')
  | (.error, s') => ((.error, msg), s')
  | (.bytes bs, s') =>
    if bs = [] then ((.error, msg), s')
    else
      let msg' := { msg with
        is := msg.is.fill (msg.is.rdPtr + (msg.currentOffset - headerLen)) bs
        currentOffset := OutputStream.toUInt (msg.currentOffset + bs.length) }
      ((if (bs.length : ℤ) < bytesToRead msg then .half else .whole, msg'), s')

def openBody (host : ByteOrder) (heap : ℕ → Chunk) (msg : Msg) : Msg :=
  let r := msg.is.readUint host msg.messageSize
  let is := r.stream.grow (heap 2) (heap 3) (OutputStream.toUInt (headerLen + r.val))
  { msg with
    messageType := msg.is.start.dataBlock.mem (msg.is.rdPtr + messageTypeOffset)
    messageSize := r.val
    is := (is.skipBytes headerLen).2 }

def makeRoom (heap : ℕ → Chunk) (msg : Msg) : Msg :=
  if msg.currentOffset = 0 then { msg with is := msg.is.grow (heap 0) (heap 1) headerLen } else msg

variable (host : ByteOrder)

def receiveHeader (recv : ℕ → σ → Recv × σ) (heap : ℕ → Chunk) (msg : Msg)
    (s : σ) : (Step × Msg) × σ :=
  if msg.currentOffset < headerLen then
    match recv (headerLen - msg.currentOffset) s with
    | (.bytes bs, s') =>
      if bs = [] then ((.error, msg), s')
      else
        let msg := { msg with
          is := msg.is.fill (msg.is.rdPtr + msg.currentOffset) bs
          currentOffset := OutputStream.toUInt (msg.currentOffset + bs.length) }
        if msg.currentOffset < headerLen then ((.half, msg), s')
        else if msg.currentOffset ≠ headerLen then ((.headerOverrun, msg), s')
        else receiveBody recv (openBody host heap msg) s'
    | (_, s') => ((.error, msg), s')
  else receiveBody recv msg s

def receive (recv : ℕ → σ → Recv × σ) (heap : ℕ → Chunk) (msg : Msg) (s : σ) :
    (Step × Msg) × σ :=
  receiveHeader host recv heap (makeRoom heap msg) s

def decode (junk : ℕ) (msg : Msg) : Msg :=
  let t := msg.is.readString host junk
  let msg := { msg with topic := t.val, is := t.stream }
  if msg.messageType = MsgType.subscribe.toOctet ∨ msg.messageType = MsgType.unSubscribe.toOctet ∨
      msg.messageType = MsgType.subscribeOK.toOctet then
    let i := msg.is.readString host junk
    let msg := { msg with subscriberId := i.val, is := i.stream }
    if msg.messageType = MsgType.subscribeOK.toOctet then
      let a := msg.is.readInt host msg.keepAliveTryTimes
      let b := a.stream.readInt host msg.keepAliveTimeSpan
      { msg with keepAliveTryTimes := a.val, keepAliveTimeSpan := b.val, is := b.stream }
    else msg
  else if msg.messageType = MsgType.publishOK.toOctet then
    let a := msg.is.readInt host msg.keepAliveTryTimes
    let b := a.stream.readInt host msg.keepAliveTimeSpan
    let c := b.stream.readBoolean (.ofNat junk)
    { msg with
      keepAliveTryTimes := a.val
      keepAliveTimeSpan := b.val
      enableBuffering := c.val
      is := c.stream }
  else msg

def parse (recv : ℕ → σ → Recv × σ) (heap : ℕ → Chunk) (junk : ℕ) (msg : Msg)
    (s : σ) : Except Assertion ((ParseResult × Msg) × σ) :=
  match receive host recv heap msg s with
  | ((.error, msg), s') => .ok ((.error, msg), s')
  | ((.half, msg), s') => .ok ((.half, msg), s')
  | ((.headerOverrun, _), _) => .error .headerOffset
  | ((.blocked, msg), s') => .ok ((.complete, msg), s')
  | ((.whole, msg), s') => do
    require .bodyOffset (msg.currentOffset = OutputStream.toUInt (headerLen + msg.messageSize))
    let msg := decode host junk msg
    require .eventTopic (msg.messageType = MsgType.event.toOctet → msg.topic ≠ [])
    return ((.complete, msg), s')

def start (type : MsgType) (os : OutputStream) : Option OutputStream :=
  startFrame host type.toOctet os

def appendBlocks : List MessageBlock → Except Assertion (List UInt8)
  | [] => .ok []
  | i :: rest => do
    require .blockLength (i.length ≠ 0)
    return i.contents ++ (← appendBlocks rest)

def toString (os : OutputStream) : Except Assertion (List UInt8) := appendBlocks os.blocks

def checkString (host : ByteOrder) (heap : ℕ → Chunk) (junk : ℕ) (osStr : List UInt8) :
    Except Assertion Unit :=
  if osStr.getD messageTypeOffset 0 ≠ MsgType.event.toOctet then .ok ()
  else
    let is := (InputStream.create host (heap 0) defaultBufsize).grow (heap 1) (heap 2) (1024 * 64)
    let is := ((is.fill is.rdPtr osStr).skipBytes headerLen).2
    require .checkTopic ((is.readString host junk).val ≠ [])

def check (host : ByteOrder) (heap : ℕ → Chunk) (junk : ℕ) (os : OutputStream) :
    Except Assertion Unit := do
  checkString host heap junk (← toString os)

def sendLoop : List MessageBlock → (ℕ → SendResult) → Except Assertion (Bool × List UInt8)
  | [], _ => .ok (true, [])
  | i :: rest, rs => do
    require .blockLength (i.length ≠ 0)
    match rs 0 with
    | .failed => return (false, [])
    | .accepted room =>
      let r ← sendLoop rest fun i => rs (i + 1)
      return (r.1, i.contents.take room ++ r.2)

def send (host : ByteOrder) (heap : ℕ → Chunk) (junk : ℕ) (rs : ℕ → SendResult)
    (os : OutputStream) : Except Assertion (Bool × List UInt8) := do
  check host heap junk os
  sendLoop (patchLength host os).blocks rs

variable {bs : List MessageBlock}

theorem forall_length_of_appendBlocks {str : List UInt8}
    (h : appendBlocks bs = .ok str) : ∀ b ∈ bs, b.length ≠ 0 := by
  induction bs generalizing str with
  | nil => exact List.forall_mem_nil _
  | cons b bs ih =>
    by_cases hb : b.length = 0
    · simp [appendBlocks, require, hb, bind, Except.bind] at h
    · cases hrest : appendBlocks bs with
      | error a => simp [appendBlocks, require, hb, hrest, bind, Except.bind] at h
      | ok rest => exact List.forall_mem_cons.mpr ⟨hb, ih hrest⟩

theorem appendBlocks_eq (h : ∀ b ∈ bs, b.length ≠ 0) :
    appendBlocks bs = .ok (bs.flatMap MessageBlock.contents) := by
  induction bs with
  | nil => rfl
  | cons b bs ih =>
    obtain ⟨hb, hbs⟩ := List.forall_mem_cons.mp h
    simp [appendBlocks, require, hb, ih hbs, bind, Except.bind, pure, Except.pure]

theorem sendLoop_eq (h : ∀ b ∈ bs, b.length ≠ 0) (rs : ℕ → SendResult) :
    sendLoop bs rs = .ok (sendEach (bs.map MessageBlock.contents) rs) := by
  induction bs generalizing rs with
  | nil => rfl
  | cons b bs ih =>
    obtain ⟨hb, hbs⟩ := List.forall_mem_cons.mp h
    cases hr : rs 0 with
    | failed =>
      simp [sendLoop, require, hb, hr, sendEach, bind, Except.bind, pure, Except.pure]
    | accepted room =>
      simp [sendLoop, require, hb, hr, ih hbs, sendEach, bind, Except.bind, pure, Except.pure]

variable {os : OutputStream}

theorem forall_length_patchLength (h : ∀ b ∈ os.blocks, b.length ≠ 0)
    (host : ByteOrder) : ∀ b ∈ (patchLength host os).blocks, b.length ≠ 0 := by
  rw [os.blocks_eq_cons] at h
  obtain ⟨hbegin, htail⟩ := List.forall_mem_cons.mp h
  rw [patchLength_blocks]
  exact List.forall_mem_cons.mpr ⟨hbegin, htail⟩

theorem sentBlocks_eq (h : ∀ b ∈ os.blocks, b.length ≠ 0) (host : ByteOrder) :
    Rpc.IcmProtocol.sentBlocks host os =
      (patchLength host os).blocks.map MessageBlock.contents := by
  have hfilter : (patchLength host os).blocks.filter (fun b => b.length ≠ 0) =
      (patchLength host os).blocks :=
    List.filter_eq_self.mpr fun b hb => by simpa using forall_length_patchLength h host b hb
  rw [Rpc.IcmProtocol.sentBlocks, hfilter]

theorem send_eq {host : ByteOrder} {heap : ℕ → Chunk} {junk : ℕ}
    (h : check host heap junk os = .ok ()) (rs : ℕ → SendResult) :
    send host heap junk rs os = .ok (sendEach (Rpc.IcmProtocol.sentBlocks host os) rs) := by
  have hblocks : ∀ b ∈ os.blocks, b.length ≠ 0 := by
    cases hstr : toString os with
    | error a => simp [check, hstr, bind, Except.bind] at h
    | ok str => exact forall_length_of_appendBlocks hstr
  rw [send, h, sentBlocks_eq hblocks]
  exact sendLoop_eq (forall_length_patchLength hblocks host) rs

/-- **When a reported success is a complete message.** -/
theorem send_complete_iff (host : ByteOrder) (heap : ℕ → Chunk) (junk : ℕ) (os : OutputStream)
    (rs : ℕ → SendResult) :
    ((∀ bytes, Rpc.IcmProtocol.sendMessage host (some rs) os = (true, bytes) →
        bytes = (patchLength host os).bytes) ↔
      (∃ p ∈ offers (Rpc.IcmProtocol.sentBlocks host os) rs, p.2 = .failed) ∨
        ∀ p ∈ offers (Rpc.IcmProtocol.sentBlocks host os) rs, p.2.Covers p.1) ∧
    ((∀ bytes, send host heap junk rs os = .ok (true, bytes) →
        bytes = (patchLength host os).bytes) ↔
      (∃ a, check host heap junk os = .error a) ∨
        (∃ p ∈ offers (Rpc.IcmProtocol.sentBlocks host os) rs, p.2 = .failed) ∨
        ∀ p ∈ offers (Rpc.IcmProtocol.sentBlocks host os) rs, p.2.Covers p.1) := by
  have hiff := sendEach_complete_iff (Rpc.IcmProtocol.sentBlocks host os) rs
  rw [Rpc.IcmProtocol.flatten_sentBlocks] at hiff
  have hsend : (∀ bytes, sendEach (Rpc.IcmProtocol.sentBlocks host os) rs = (true, bytes) →
      bytes = (patchLength host os).bytes) ↔
      ((sendEach (Rpc.IcmProtocol.sentBlocks host os) rs).1 = true →
        (sendEach (Rpc.IcmProtocol.sentBlocks host os) rs).2 = (patchLength host os).bytes) := by
    constructor
    · exact fun h hok => h _ (Prod.ext hok rfl)
    · rintro h bytes heq
      rw [heq] at h
      exact h rfl
  rw [Rpc.IcmProtocol.sendMessage_eq, hsend, ← hiff]
  refine ⟨Iff.rfl, ?_⟩
  cases hcheck : check host heap junk os with
  | error a =>
    have hnone : ∀ bytes, send host heap junk rs os ≠ .ok (true, bytes) := by
      simp [send, hcheck, bind, Except.bind]
    simp [hnone]
  | ok u =>
    rw [send_eq hcheck, ← hsend]
    simp

def octetMessage : OutputStream :=
  Option.get ((startFrame .little MsgType.keepAliveProbe.toOctet
    (.create .little fun _ => zeroChunk)).bind fun os => os.writeOctet 7) (by decide +kernel)

theorem short_write_reports_success :
    Rpc.IcmProtocol.sendMessage .little (some fun _ => .accepted 1) octetMessage = (true, [0]) ∧
      send .little (fun _ => zeroChunk) 0 (fun _ => .accepted 1) octetMessage = .ok (true, [0]) ∧
      [0] ≠ (patchLength .little octetMessage).bytes := by
  decide +kernel

end MsgProtocol

end Icm.Messaging
