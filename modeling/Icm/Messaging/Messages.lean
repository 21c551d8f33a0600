import Icm.Messaging.Safety
import Icm.Stream.Growth

/-!
# The messages and their fields

The messages that the broker and its clients build, each with the fields that are written into it:
`SubscribeClient::realSubTopic` and `realUnSubTopic`, `PublishClient::registerToBroker`,
`sendKeepAliveProbe` of both clients, `SubscriberHandler::handleInput`,
`PublisherHandler::handleInput`, and the events of a publisher.
-/

namespace Icm.Messaging

open Icm.Lib Icm.Stream MsgProtocol List InputStream Arrival MsgProtocol MsgType

theorem MsgType.toOctet_injective : Function.Injective toOctet := by
  intro a b h
  cases a <;> cases b <;> first | rfl | exact absurd h (by decide)

inductive Message
  | subscribe (topic : Topic) (id : ClientId)
  | unSubscribe (topic : Topic) (id : ClientId)
  | subscribeOK (topic : Topic) (id : ClientId) (keepAliveTryTimes keepAliveTimeSpan : BitVec 32)
  | unSubscribeOK (topic : Topic)
  | event (topic : Topic) (payload : List Value)
  | publish
  | publishOK (keepAliveTryTimes keepAliveTimeSpan : BitVec 32) (enableBuffering : Bool)
  | keepAliveProbe
  | keepAliveACK

namespace Message

def type : Message → MsgType
  | subscribe _ _ => .subscribe
  | unSubscribe _ _ => .unSubscribe
  | subscribeOK _ _ _ _ => .subscribeOK
  | unSubscribeOK _ => .unSubscribeOK
  | event _ _ => .event
  | publish => .publish
  | publishOK _ _ _ => .publishOK
  | keepAliveProbe => .keepAliveProbe
  | keepAliveACK => .keepAliveACK

def topic : Message → Topic
  | subscribe topic _ | unSubscribe topic _ | subscribeOK topic _ _ _ | unSubscribeOK topic
  | event topic _ => topic
  | publish => ascii "registerPublisher"
  | publishOK _ _ _ => ascii "publishOK"
  | keepAliveProbe | keepAliveACK => ascii "keepAlive"

def subscriberId : Message → Option ClientId
  | subscribe _ id | unSubscribe _ id | subscribeOK _ id _ _ => some id
  | _ => none

def keepAlive : Message → Option (BitVec 32 × BitVec 32)
  | subscribeOK _ _ tryTimes timeSpan | publishOK tryTimes timeSpan _ => some (tryTimes, timeSpan)
  | _ => none

def enableBuffering : Message → Option Bool
  | publishOK _ _ flag => some flag
  | _ => none

def rest : Message → List Value
  | subscribe _ id | unSubscribe _ id => [.string id]
  | subscribeOK _ id tryTimes timeSpan => [.string id, .int tryTimes, .int timeSpan]
  | publishOK tryTimes timeSpan flag => [.int tryTimes, .int timeSpan, .boolean flag]
  | event _ payload => payload
  | unSubscribeOK _ | publish | keepAliveProbe | keepAliveACK => []

def fields (m : Message) : List Value := .string m.topic :: m.rest

def body (host : ByteOrder) (m : Message) : List UInt8 := m.fields.flatMap (Value.encode host)

def build (host : ByteOrder) (heap : ℕ → Chunk) (m : Message) : Option OutputStream :=
  (start host m.type (.create host heap)).bind (OutputStream.writeValues host m.fields)

structure Proper (m : Message) : Prop where
  topic : 0 ∉ m.topic
  subscriberId : ∀ id ∈ m.subscriberId, 0 ∉ id
  event : m.type = .event → m.topic ≠ []

structure Decoded (m : Message) (msg : Msg) : Prop where
  messageType : msg.messageType = m.type.toOctet
  topic : msg.topic = m.topic
  subscriberId : ∀ id ∈ m.subscriberId, msg.subscriberId = id
  keepAlive : ∀ p ∈ m.keepAlive, msg.keepAliveTryTimes = p.1 ∧ msg.keepAliveTimeSpan = p.2
  enableBuffering : ∀ flag ∈ m.enableBuffering, msg.enableBuffering = flag

section Decode

variable {host host' : ByteOrder} {junk : ℕ} {m : Message} {msg : Msg}

theorem body_eq (host : ByteOrder) (m : Message) :
    m.body host = encodeString m.topic ++ m.rest.flatMap (Value.encode host) := rfl

theorem readInt_eq {is : InputStream} {x : BitVec 32} {bs : List UInt8}
    (h : is.Starts (wire 4 x.toNat ++ bs)) (hswap : is.doByteSwap = host'.aceCdrByteOrder)
    (old : BitVec 32) :
    is.readInt host' old = ⟨true, x, is.skip 4⟩ ∧ (is.skip 4).Starts bs := by
  have hnext := h.right
  rw [length_wire] at hnext
  exact ⟨readWord_spec hswap h.left old, hnext⟩

theorem decode_decoded (hm : m.Proper) (hfits : ∀ v ∈ m.fields, v.Fits)
    (htype : msg.messageType = m.type.toOctet)
    (hswap : msg.is.doByteSwap = host'.aceCdrByteOrder) (hgood : msg.is.goodBit = true)
    (hstarts : msg.is.Starts (m.body host)) : m.Decoded (decode host' junk msg) := by
  obtain ⟨htopic, hrest⟩ := forall_mem_cons.mp hfits
  rw [body_eq] at hstarts
  have hread := readString_spec hswap hm.topic htopic hgood hstarts.left junk
  have hnext := hstarts.right
  obtain ⟨is, his⟩ : ∃ is, is = msg.is.skip (encodeString m.topic).length := ⟨_, rfl⟩
  have hswap' : is.doByteSwap = host'.aceCdrByteOrder := by rw [his]; exact hswap
  have hgood' : is.goodBit = true := by rw [his]; exact hgood
  rw [← his] at hread hnext
  have hid {id : ClientId} {bs : List UInt8} (hsome : m.subscriberId = some id)
      (hfit : StringFits id) (h : is.Starts (encodeString id ++ bs)) :
      is.readString host' junk = ⟨true, id, is.skip (encodeString id).length⟩ ∧
        (is.skip (encodeString id).length).Starts bs :=
    ⟨readString_spec hswap' (hm.subscriberId id hsome) hfit hgood' h.left junk,
      h.right⟩
  cases m with
  | subscribe topic id =>
    obtain ⟨hid, -⟩ := hid rfl (hrest _ mem_cons_self) hnext
    constructor <;> simp [decode, hread, htype, hid, type, toOctet, Message.topic,
      subscriberId, keepAlive, enableBuffering]
  | unSubscribe topic id =>
    obtain ⟨hid, -⟩ := hid rfl (hrest _ mem_cons_self) hnext
    constructor <;> simp [decode, hread, htype, hid, type, toOctet, Message.topic,
      subscriberId, keepAlive, enableBuffering]
  | subscribeOK topic id tryTimes timeSpan =>
    obtain ⟨hid, hnext⟩ := hid rfl (hrest _ mem_cons_self) hnext
    obtain ⟨htry, hnext⟩ := readInt_eq hnext hswap' msg.keepAliveTryTimes
    obtain ⟨hspan, -⟩ := readInt_eq hnext hswap' msg.keepAliveTimeSpan
    constructor <;> simp [decode, hread, htype, hid, htry, hspan, type, toOctet,
      Message.topic, subscriberId, keepAlive, enableBuffering]
  | publishOK tryTimes timeSpan flag =>
    obtain ⟨htry, hnext⟩ := readInt_eq hnext hswap' msg.keepAliveTryTimes
    obtain ⟨hspan, hnext⟩ := readInt_eq hnext hswap' msg.keepAliveTimeSpan
    have hflag := readBoolean_spec (by exact hgood') hnext.left (.ofNat junk)
    constructor <;> simp [decode, hread, htype, htry, hspan, hflag, type, toOctet,
      Message.topic, subscriberId, keepAlive, enableBuffering]
  | unSubscribeOK _ | event _ _ | publish | keepAliveProbe | keepAliveACK =>
    constructor <;> simp [decode, hread, htype, type, toOctet,
      Message.topic, subscriberId, keepAlive, enableBuffering]

end Decode

end Message

theorem MsgProtocol.check_event {host : ByteOrder} {os : OutputStream} {topic bs : List UInt8}
    (h : Framed host event.toOctet os (encodeString topic ++ bs)) (hnul : 0 ∉ topic)
    (hne : topic ≠ []) (hlen : os.totalLength ≤ 1024 * 64) (heap : ℕ → Chunk) (junk : ℕ) :
    check host heap junk os = .ok () := by
  obtain ⟨hcheck, hget⟩ := check_eq h heap junk
  have hfits : StringFits topic := by
    have hbody := h.length_body_lt
    rw [length_append] at hbody
    exact stringFits_of_length_lt (by omega)
  -- the buffer of the check, with the message in it
  obtain ⟨is, his⟩ : ∃ is, is = (create host (heap 0) defaultBufsize).grow (heap 1)
    (heap 2) (1024 * 64) := ⟨_, rfl⟩
  have hrd : is.rdPtr = 0 := by rw [his, grow_rdPtr]
  have hroom : 1024 * 64 + maxAlignment ≤ is.endPtr := by
    rw [his]
    exact le_grow_endPtr _ _ _ _
  have hswap : ((is.fill is.rdPtr os.bytes).skip headerLen).doByteSwap = host.aceCdrByteOrder := by
    rw [his]
    rfl
  have hgood : ((is.fill is.rdPtr os.bytes).skip headerLen).goodBit = true := by
    rw [his]
    rfl
  have hstarts : (is.fill is.rdPtr os.bytes).Starts
      ((wire 4 0 ++ [event.toOctet]) ++ (encodeString topic ++ bs)) := by
    have hfill : (is.fill is.rdPtr os.bytes).Starts os.bytes :=
      fill_starts (by rw [os.length_bytes, hrd]; omega)
    rwa [append_assoc, singleton_append, ← h.bytes]
  have hheader : (wire 4 0 ++ [event.toOctet]).length = headerLen := by simp [headerLen]
  have hskip := hstarts.left.skipBytes_eq hheader
  have hbody := hstarts.right.left
  rw [hheader] at hbody
  have hread := readString_spec hswap hnul hfits hgood hbody junk
  rw [hcheck, checkString, hget, if_neg (by simp), ← his]
  simp only [hskip, hread]
  exact require_eq_ok.mpr hne

variable (host : ByteOrder) (junk : ℕ) (fresh : Fresh) (f : Frame)

section

variable (hlt : f.body.length < 2 ^ 31)
include hlt

theorem MsgProtocol.receive_frame (tail : List UInt8) (as : List Arrival) :
    receive host (recv intMax) fresh.heap (newMsg host junk fresh)
        (remainder (f.bytes ++ tail) as) =
      ((.whole, bodyMsg host junk fresh f f.body.length), remainder tail as) := by
  have hint : intMax = 2 ^ 31 - 1 := rfl
  have hfive : headerLen = 5 := rfl
  have hpos := f.body_pos
  have hbytes : f.bytes ++ tail = f.header ++ (f.body ++ tail) := by
    rw [f.bytes_eq, append_assoc]
  have hheader : recv intMax (headerLen - 0) (remainder (f.bytes ++ tail) as) =
      (.bytes f.header, remainder (f.body ++ tail) as) := by
    rw [hbytes, recv_remainder (by simp [Frame.header]), Nat.sub_zero,
      min_eq_left (by omega), ← f.length_header, take_left, drop_left]
  have hbody : recv intMax (f.body.length - 0) (remainder (f.body ++ tail) as) =
      (.bytes f.body, remainder tail as) := by
    rw [recv_remainder (by simp [ne_nil_of_length_pos hpos]), Nat.sub_zero,
      min_eq_left (by omega), take_left, drop_left]
  rw [receive, makeRoom_newMsg host junk fresh f,
    receiveHeader_headerMsg host junk fresh f (by decide) hheader (by simp [Frame.header])
      (by rw [f.length_header, Nat.zero_add]) (append_nil _).symm,
    if_neg (by rw [f.length_header]; omega),
    receiveBody_bodyMsg host junk fresh f hlt hbody (ne_nil_of_length_pos hpos)
      (Nat.zero_add _).le (append_nil _).symm, if_neg (by omega), Nat.zero_add]

theorem MsgProtocol.parse_frame (htopic : f.type = event.toOctet →
      (decode host junk (bodyMsg host junk fresh f f.body.length)).topic ≠ [])
    (tail : List UInt8) (as : List Arrival) :
    parse host (recv intMax) fresh.heap junk (newMsg host junk fresh)
        (remainder (f.bytes ++ tail) as) =
      .ok ((.complete, decode host junk (bodyMsg host junk fresh f f.body.length)),
        remainder tail as) := by
  have hoffset : headerLen + f.body.length = OutputStream.toUInt (headerLen + f.body.length) :=
    (OutputStream.toUInt_of_lt (by simp only [headerLen]; omega)).symm
  have htype := (decode_spec host junk (bodyMsg host junk fresh f f.body.length)).1
  rw [parse, receive_frame host junk fresh f hlt]
  refine bind_eq_ok.mpr ⟨(), require_eq_ok.mpr hoffset, bind_eq_ok.mpr
    ⟨(), require_eq_ok.mpr fun hevent => htopic ?_, rfl⟩⟩
  exact htype.symm.trans hevent

theorem bodyMsg_starts :
    (bodyMsg host junk fresh f f.body.length).is.Starts f.body := by
  have hrd : (bodyStream host junk fresh f).rdPtr = headerLen := by
    rw [bodyStream, skip_rdPtr, grow_rdPtr, Nat.zero_add]
  have hroom : headerLen + f.body.length ≤ (bodyStream host junk fresh f).endPtr := by
    rw [bodyStream, skip_endPtr,
      OutputStream.toUInt_of_lt (by simp only [headerLen]; omega)]
    exact le_of_add_le_left (le_grow_endPtr _ _ _ _)
  simp only [bodyMsg, take_length]
  rw [← hrd]
  exact fill_starts (by rw [hrd]; exact hroom)

end

namespace Message

variable {host host' : ByteOrder} {m : Message} {os : OutputStream}

theorem framed {heap : ℕ → Chunk} (hlen : (m.body host).length < 2 ^ 32)
    (h : m.build host heap = some os) : Framed host m.type.toOctet os (m.body host) := by
  obtain ⟨os₀, hstart, hframed⟩ := startFrame_framed host m.type.toOctet heap
  obtain ⟨os₁, hstart', hwrite⟩ := Option.bind_eq_some_iff.mp h
  obtain rfl := Option.some.inj (hstart.symm.trans hstart')
  have hwrote := OutputStream.writeValues_spec hframed.wf hframed.swap
    (fits_of_length_encode_lt hlen) hwrite
  exact hframed.wrote hwrote

theorem check_build {heap : ℕ → Chunk} (hm : m.Proper)
    (hlen : headerLen + (m.body host).length ≤ 65536) (h : m.build host heap = some os)
    (checkHeap : ℕ → Chunk) (junk : ℕ) : check host checkHeap junk os = .ok () := by
  have hframed := framed (by omega) h
  by_cases htype : m.type = .event
  · rw [htype, body_eq] at hframed
    refine check_event hframed hm.topic (hm.event htype) ?_ checkHeap junk
    rwa [hframed.totalLength, ← body_eq]
  · have hoctet : m.type.toOctet ≠ MsgType.event.toOctet :=
      fun heq => htype (MsgType.toOctet_injective heq)
    exact check_ok hframed hoctet checkHeap junk

/-- **The fields of a message survive the way to the receiver.** -/
theorem parse_send (hm : m.Proper) (heap : ℕ → Chunk)
    (hlen : headerLen + (m.body host).length ≤ 65536) (hbuild : m.build host heap = some os)
    (checkHeap : ℕ → Chunk) (junk : ℕ) (rs : ℕ → SendResult)
    (hrs : ∀ p ∈ offers (Rpc.IcmProtocol.sentBlocks host os) rs, p.2.Covers p.1)
    (host' : ByteOrder) (junk' : ℕ) (fresh : Fresh) (tail : List UInt8) (as : List Arrival) :
    ∃ bytes msg, send host checkHeap junk rs os = .ok (true, bytes) ∧
      bytes.length = headerLen + (m.body host).length ∧
      parse host' (recv intMax) fresh.heap junk' (newMsg host' junk' fresh)
        (remainder (bytes ++ tail) as) =
          .ok ((.complete, msg), remainder tail as) ∧
      m.Decoded msg := by
  have hframed := framed (by omega) hbuild
  have hpos : 0 < (m.body host).length := by simp [body_eq, encodeString]
  have hlt : (m.body host).length < 2 ^ 31 := by omega
  have hsend := send_eq (check_build hm hlen hbuild checkHeap junk) rs
  rw [sendEach_of_covers hrs, Rpc.IcmProtocol.flatten_sentBlocks,
    hframed.patchLength_bytes] at hsend
  let f : Frame := ⟨m.type.toOctet, m.body host, hpos, by omega⟩
  have hdecoded : m.Decoded (decode host' junk' (bodyMsg host' junk' fresh f f.body.length)) :=
    decode_decoded hm (fits_of_length_encode_lt (hlt.trans (by decide))) rfl rfl rfl
      (bodyMsg_starts host' junk' fresh f hlt)
  refine ⟨_, _, hsend, length_frame _ _, parse_frame host' junk' fresh f hlt ?_ tail as,
    hdecoded⟩
  intro hevent
  rw [hdecoded.topic]
  exact hm.event (toOctet_injective hevent)

theorem parse_send_subscribe : ∃ os bytes msg,
    build .little (fun _ => zeroChunk) (subscribe (ascii "t") (ascii "1")) = some os ∧
      send .little (fun _ => zeroChunk) 0 (fun _ => .accepted 520) os =
        .ok (true, bytes) ∧
      parse .big (recv intMax) (fun _ => zeroChunk) 7
        (newMsg .big 7 ⟨fun _ => zeroChunk, 0⟩) (remainder bytes []) =
          .ok ((.complete, msg), []) ∧
      Decoded (subscribe (ascii "t") (ascii "1")) msg := by
  obtain ⟨os, hos⟩ := Option.isSome_iff_exists.mp (show (build .little (fun _ => zeroChunk)
    (subscribe (ascii "t") (ascii "1"))).isSome = true by decide +kernel)
  have hm : Proper (subscribe (ascii "t") (ascii "1")) :=
    ⟨by decide, by simp [subscriberId, ascii], nofun⟩
  have hcovers : (build .little (fun _ => zeroChunk) (subscribe (ascii "t") (ascii "1"))).all
      (fun os => decide (∀ p ∈ offers (Rpc.IcmProtocol.sentBlocks .little os)
        (fun _ => .accepted 520), p.2.Covers p.1)) = true := by
    decide +kernel
  rw [hos] at hcovers
  obtain ⟨bytes, msg, hsend, -, hparse, hmsg⟩ := parse_send hm (fun _ => zeroChunk) (by decide) hos
    (fun _ => zeroChunk) 0 (fun _ => .accepted 520) (of_decide_eq_true hcovers) .big 7
    ⟨fun _ => zeroChunk, 0⟩ [] []
  rw [append_nil] at hparse
  exact ⟨os, bytes, msg, hos, hsend, hparse, hmsg⟩

end Message

end Icm.Messaging
