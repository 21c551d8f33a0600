import Icm.Lib.Socket
import Icm.Stream.Frame

/-!
# The RPC protocol

Class `IcmProtocol` of `icm/IcmProtocol.cpp`: sending a message as one send call for each block of
its chain, and receiving the messages of a connection, header first, into the input stream of the
connection.
-/

namespace Icm.Rpc

open Icm.Lib Icm.Stream List

variable {σ : Type}

inductive MessageType
  | request
  | reply
  | cancelRequest
  | error
  deriving DecidableEq, Repr

def MessageType.toOctet : MessageType → UInt8
  | request => 0
  | reply => 1
  | cancelRequest => 2
  | error => 3

namespace IcmProtocol

def startMessage (host : ByteOrder) (t : MessageType) (msg : OutputStream) : Option OutputStream :=
  startFrame host t.toOctet msg

def sendLoop : List MessageBlock → (ℕ → SendResult) → Bool × List UInt8
  | [], _ => (true, [])
  | i :: rest, rs =>
    if i.length = 0 then sendLoop rest rs
    else
      match rs 0 with
      | .failed => (false, [])
      | .accepted room =>
        let r := sendLoop rest fun i => rs (i + 1)
        (r.1, i.contents.take room ++ r.2)

/-- `IcmProtocol::sendMessage` on a transport that answers the send calls with `transport`, or on
none: whether it returns `1`, and the bytes the transport took. -/
def sendMessage (host : ByteOrder) (transport : Option (ℕ → SendResult)) (stream : OutputStream) :
    Bool × List UInt8 :=
  match transport with
  | none => (false, [])
  | some rs => sendLoop (patchLength host stream).blocks rs

def sentBlocks (host : ByteOrder) (stream : OutputStream) : List (List UInt8) :=
  ((patchLength host stream).blocks.filter fun b => b.length ≠ 0).map MessageBlock.contents

theorem sendLoop_eq (bs : List MessageBlock) (rs : ℕ → SendResult) :
    sendLoop bs rs =
      sendEach ((bs.filter fun b => b.length ≠ 0).map MessageBlock.contents) rs := by
  induction bs generalizing rs with
  | nil => rfl
  | cons b bs ih =>
    by_cases hb : b.length = 0
    · simp only [sendLoop, hb, ↓reduceIte, ih, ne_eq, not_true_eq_false, decide_false,
        Bool.false_eq_true, not_false_eq_true, filter_cons_of_neg]
    · have hfilter : (b :: bs).filter (fun b => b.length ≠ 0) =
          b :: bs.filter fun b => b.length ≠ 0 := filter_cons_of_pos (by simpa using hb)
      rw [hfilter, map_cons, sendLoop, sendEach, if_neg hb]
      cases rs 0 with
      | failed => rfl
      | accepted room => simp only [ih]

theorem sendMessage_eq (host : ByteOrder) (rs : ℕ → SendResult) (stream : OutputStream) :
    sendMessage host (some rs) stream = sendEach (sentBlocks host stream) rs :=
  sendLoop_eq _ _

theorem flatten_sentBlocks (host : ByteOrder) (stream : OutputStream) :
    (sentBlocks host stream).flatten = (patchLength host stream).bytes := by
  rw [sentBlocks, OutputStream.bytes]
  induction (patchLength host stream).blocks with
  | nil => rfl
  | cons b bs ih =>
    by_cases hb : b.length = 0
    · have hnil : b.contents = [] := length_eq_zero_iff.mp (by simpa using hb)
      rw [filter_cons_of_neg (by simpa using hb), ih, flatMap_cons, hnil,
        nil_append]
    · rw [filter_cons_of_pos (by simpa using hb), map_cons, flatten_cons, ih,
        flatMap_cons]

end IcmProtocol

def recvN (recv : ℕ → σ → Recv × σ) : ℕ → ℕ → List UInt8 → σ → Recv × σ
  | _, 0, bt, s => (.bytes bt, s)
  | 0, _ + 1, _, s => (.error, s)
  | rounds + 1, len + 1, bt, s =>
    match recv (len + 1) s with
    | (.bytes bs, s') =>
      if bs = [] then (.bytes [], s')
      else recvN recv rounds (len + 1 - bs.length) (bt ++ bs) s'
    | (.wouldBlock, s') => recvN recv rounds (len + 1) bt s'
    | (.error, s') => (.error, s')

theorem recvN_spec (src : ByteSource σ) {rounds len : ℕ} (hlen : len ≤ rounds) (bt : List UInt8)
    (s : σ) {as tail : List UInt8} (has : as.length = len) (hs : src.rest s = as ++ tail) :
    ∃ s', recvN src.recv rounds len bt s = (.bytes (bt ++ as), s') ∧ src.rest s' = tail := by
  induction rounds generalizing len bt s as with
  | zero =>
    obtain rfl : len = 0 := Nat.le_zero.mp hlen
    obtain rfl := length_eq_zero_iff.mp has
    exact ⟨s, by rw [recvN, append_nil], hs⟩
  | succ rounds ih =>
    cases len with
    | zero =>
      obtain rfl := length_eq_zero_iff.mp has
      exact ⟨s, by rw [recvN, append_nil], hs⟩
    | succ len =>
      obtain ⟨bs, as', s₁, hrecv, hne, rfl, hrest⟩ := src.serves_part s
        (length_pos_iff.mp (has ▸ len.succ_pos)) hs
      rw [has] at hrecv
      have hpos := length_pos_iff.mpr hne
      rw [length_append] at has
      obtain ⟨s', hrun, hs'⟩ := ih (by omega : len + 1 - bs.length ≤ rounds) (bt ++ bs) s₁
        (by omega) hrest
      exact ⟨s', by simp only [recvN, hrecv, hne, ↓reduceIte, hrun, append_assoc], hs'⟩

def tcpTransport (src : ByteSource σ) : ByteSource σ where
  recv n s := recvN src.recv n n [] s
  rest := src.rest
  serves := by
    intro n s hn hlen
    have htake : ((src.rest s).take n).length = n := by rw [length_take]; omega
    obtain ⟨s', hrun, hs'⟩ := recvN_spec src le_rfl [] s htake (take_append_drop _ _).symm
    rw [nil_append] at hrun
    refine ⟨_, s', hrun, ?_, length_take_le _ _, ?_⟩
    · rw [← length_pos_iff, length_take]
      omega
    · rw [hs', take_append_drop]

structure IcmMessageState where
  messageType : UInt8
  messageSize : ℕ
  currentOffset : ℕ
  stream : InputStream

namespace IcmMessageState

def create (host : ByteOrder) (c : Chunk) : IcmMessageState where
  messageType := MessageType.error.toOctet
  messageSize := 0
  currentOffset := 0
  stream := .create host c defaultBufsize

def reset (st : IcmMessageState) : IcmMessageState :=
  { st with messageSize := 0, currentOffset := 0 }

def body (st : IcmMessageState) : List UInt8 :=
  st.stream.start.bytesAt st.stream.rdPtr st.messageSize

end IcmMessageState

inductive Progress
  | error
  | incomplete
  | complete
  deriving DecidableEq, Repr

namespace IcmProtocol

def parseHeader (host : ByteOrder) (state : IcmMessageState) : IcmMessageState :=
  let buf := state.stream.rdPtr
  let r := (state.stream.resetByteOrder host).readUint host state.messageSize
  { state with
    messageType := state.stream.start.dataBlock.mem (buf + messageTypeOffset)
    messageSize := r.val
    stream := r.stream }

def recvHeader (recv : ℕ → σ → Recv × σ) :
    ℕ → ℕ → ℕ → InputStream → σ → (Bool × InputStream) × σ
  | _, 0, _, input, s => ((true, input), s)
  | 0, _ + 1, _, input, s => ((false, input), s)
  | rounds + 1, t + 1, buf, input, s =>
    match recv (t + 1) s with
    | (.bytes bs, s') =>
      if bs = [] then ((false, input), s')
      else recvHeader recv rounds (t + 1 - bs.length) (buf + bs.length) (input.fill buf bs) s'
    | (_, s') => ((false, input), s')

def readHeader (host : ByteOrder) (recv : ℕ → σ → Recv × σ) (heap : ℕ → Chunk)
    (state : IcmMessageState) (s : σ) : (Bool × IcmMessageState) × σ :=
  let input := state.stream.grow (heap 0) (heap 1) headerLen
  match recvHeader recv headerLen headerLen input.rdPtr input s with
  | ((true, input), s') => ((true, parseHeader host { state with stream := input }), s')
  | ((false, input), s') => ((false, { state with stream := input }), s')

def handleHeader (host : ByteOrder) (recv : ℕ → σ → Recv × σ) (heap : ℕ → Chunk)
    (state : IcmMessageState) (s : σ) : (Bool × IcmMessageState) × σ :=
  if state.messageSize = 0 then
    match readHeader host recv heap state s with
    | ((true, state), s') =>
      let stream := state.stream.grow (heap 2) (heap 3) (headerLen + state.messageSize)
      ((true, { state with stream := (stream.skipBytes headerLen).2 }), s')
    | r => r
  else ((true, state), s)

def receiveBody (recv : ℕ → σ → Recv × σ) (state : IcmMessageState) (s : σ) :
    (Progress × IcmMessageState) × σ :=
  let missingData := state.messageSize - state.currentOffset
  let first := recv missingData s
  let n := if first.1 = .wouldBlock then recv missingData first.2 else first
  match n with
  | (.bytes bs, s') =>
    if bs = [] then ((.error, state), s')
    else
      let state := { state with
        stream := state.stream.fill (state.stream.rdPtr + state.currentOffset) bs
        currentOffset := state.currentOffset + bs.length }
      ((if state.messageSize = state.currentOffset then .complete else .incomplete, state), s')
  | (_, s') => ((.error, state), s')

def handleInput (host : ByteOrder) (recv : ℕ → σ → Recv × σ) (heap : ℕ → Chunk)
    (state : IcmMessageState) (s : σ) : (Progress × IcmMessageState) × σ :=
  match handleHeader host recv heap state s with
  | ((true, state), s') => receiveBody recv state s'
  | ((false, state), s') => ((.error, state), s')

def receive (host : ByteOrder) (recv : ℕ → σ → Recv × σ) (heap : ℕ → ℕ → Chunk) :
    ℕ → IcmMessageState → σ → List (UInt8 × List UInt8) × IcmMessageState × σ
  | 0, state, s => ([], state, s)
  | calls + 1, state, s =>
    let later := receive host recv (fun i => heap (i + 1)) calls
    match handleInput host recv (heap 0) state s with
    | ((.error, state), s') => ([], state, s')
    | ((.incomplete, state), s') => later state s'
    | ((.complete, state), s') =>
      let r := later state.reset s'
      ((state.messageType, state.body) :: r.1, r.2)

structure Holding (host : ByteOrder) (state : IcmMessageState) (type : UInt8)
    (body : List UInt8) (k : ℕ) (good : Bool) : Prop where
  type_eq : state.messageType = type
  size_eq : state.messageSize = body.length
  offset_eq : state.currentOffset = k
  rd_eq : state.stream.rdPtr = headerLen
  wr_eq : state.stream.start.wrPtr = headerLen + body.length
  end_le : headerLen + body.length + maxAlignment ≤ state.stream.endPtr
  swap_eq : state.stream.doByteSwap = host.aceCdrByteOrder
  good_eq : state.stream.goodBit = good
  bytes_eq : state.stream.start.bytesAt headerLen k = body.take k

theorem Holding.body_eq {host : ByteOrder} {state : IcmMessageState} {type : UInt8}
    {body : List UInt8} {good : Bool} (h : Holding host state type body body.length good) :
    state.body = body := by
  rw [IcmMessageState.body, h.rd_eq, h.size_eq, h.bytes_eq, take_length]

section Source

variable (src : ByteSource σ)

theorem recvHeader_spec {rounds t : ℕ} (ht : t ≤ rounds) (buf : ℕ) (input : InputStream) (s : σ)
    {header tail : List UInt8} (hlen : header.length = t) (hs : src.rest s = header ++ tail) :
    ∃ s', recvHeader src.recv rounds t buf input s = ((true, input.fill buf header), s') ∧
      src.rest s' = tail := by
  induction rounds generalizing t buf input s header with
  | zero =>
    obtain rfl : t = 0 := Nat.le_zero.mp ht
    obtain rfl := length_eq_zero_iff.mp hlen
    exact ⟨s, by rw [recvHeader, InputStream.fill_nil], hs⟩
  | succ rounds ih =>
    cases t with
    | zero =>
      obtain rfl := length_eq_zero_iff.mp hlen
      exact ⟨s, by rw [recvHeader, InputStream.fill_nil], hs⟩
    | succ t =>
      obtain ⟨bs, header', s₁, hrecv, hne, rfl, htail⟩ := src.serves_part s
        (length_pos_iff.mp (hlen ▸ t.succ_pos)) hs
      rw [hlen] at hrecv
      have hpos := length_pos_iff.mpr hne
      rw [length_append] at hlen
      obtain ⟨s', hrun, hs'⟩ := ih (t := t + 1 - bs.length) (by omega) (buf + bs.length)
        (input.fill buf bs) s₁ (by omega) htail
      refine ⟨s', ?_, hs'⟩
      simp only [recvHeader, hrecv, hne, ↓reduceIte, hrun, InputStream.fill_fill]

variable {type : UInt8} {body tail : List UInt8}

theorem handleHeader_spec (host : ByteOrder) (heap : ℕ → Chunk) (state : IcmMessageState) (s : σ)
    (hsize : state.messageSize = 0)
    (hoff : state.currentOffset = 0) (hbody : body.length < 2 ^ 32)
    (hs : src.rest s = frame type body ++ tail) :
    ∃ state' s', handleHeader host src.recv heap state s = ((true, state'), s') ∧
      Holding host state' type body 0 state.stream.goodBit ∧ src.rest s' = body ++ tail := by
  have hframe : frame type body ++ tail = (wire 4 body.length ++ [type]) ++ (body ++ tail) := by
    simp [frame]
  rw [hframe] at hs
  have hlen : (wire 4 body.length ++ [type]).length = headerLen := by simp [headerLen]
  set input := state.stream.grow (heap 0) (heap 1) headerLen with hinput
  obtain ⟨s', hrun, hrest⟩ := recvHeader_spec src le_rfl input.rdPtr input s hlen hs
  have hrd : input.rdPtr = 0 := InputStream.grow_rdPtr _ _ _ _
  rw [hrd] at hrun
  have hcap : headerLen + maxAlignment ≤ input.endPtr := InputStream.le_grow_endPtr _ _ _ _
  obtain ⟨hread, htype⟩ := InputStream.read_header
    (show (input.resetByteOrder host).rdPtr = 0 from hrd) (le_of_add_le_left hcap) rfl hbody type
    state.messageSize
  set filled := input.fill 0 (wire 4 body.length ++ [type]) with hfilled
  replace hread : (filled.resetByteOrder host).readUint host state.messageSize =
      ⟨true, body.length, (filled.resetByteOrder host).skip 4⟩ := hread
  have hmem : filled.start.dataBlock.mem (filled.rdPtr + messageTypeOffset) = type := by
    rw [show filled.rdPtr = 0 from hrd, Nat.zero_add]
    exact htype
  have hroom := InputStream.le_grow_endPtr ((filled.resetByteOrder host).skip 4) (heap 2) (heap 3)
    (headerLen + body.length)
  refine ⟨{ state with
    messageType := filled.start.dataBlock.mem (filled.rdPtr + messageTypeOffset)
    messageSize := body.length
    stream := (((filled.resetByteOrder host).skip 4).grow (heap 2) (heap 3)
      (headerLen + body.length)).skip headerLen }, s', ?_,
    ⟨hmem, rfl, hoff, ?_, ?_, ?_, ?_, ?_, rfl⟩, hrest⟩
  · have hskip : headerLen ≤ (((filled.resetByteOrder host).skip 4).grow (heap 2) (heap 3)
        (headerLen + body.length)).endPtr := by omega
    simp only [handleHeader, hsize, ↓reduceIte, readHeader, ← hinput, hrd, hrun, parseHeader]
    rw [← hsize, hread]
    simp only [InputStream.skipBytes, InputStream.grow_rdPtr, Nat.zero_add, hskip, ↓reduceIte]
  · rw [InputStream.skip_rdPtr, InputStream.grow_rdPtr, Nat.zero_add]
  · exact InputStream.grow_wrPtr _ _ _ _
  · exact hroom
  · rfl
  · rfl

variable {host : ByteOrder} {state : IcmMessageState}

omit src in
theorem receiveBody_of_recv {recv : ℕ → σ → Recv × σ}
    {body bs as : List UInt8} {k : ℕ} {good : Bool} {s s' : σ}
    (h : Holding host state type body k good)
    (hrecv : recv (body.length - k) s = (.bytes bs, s')) (hne : bs ≠ [])
    (hbody : body.drop k = bs ++ as) :
    ∃ state', receiveBody recv state s =
        ((if body.length = k + bs.length then .complete else .incomplete, state'), s') ∧
      Holding host state' type body (k + bs.length) good := by
  have hbs : (body.drop k).take bs.length = bs := by rw [hbody, take_left]
  have hrun : receiveBody recv state s =
      ((if body.length = k + bs.length then .complete else .incomplete,
        { state with
          stream := state.stream.fill (headerLen + k) bs
          currentOffset := k + bs.length }), s') := by
    simp only [receiveBody, hrecv, reduceCtorEq, hne, ↓reduceIte, h.size_eq,
      h.offset_eq, h.rd_eq]
  refine ⟨_, hrun, h.type_eq, h.size_eq, rfl, h.rd_eq, h.wr_eq, h.end_le, h.swap_eq, h.good_eq, ?_⟩
  change (state.stream.fill (headerLen + k) bs).start.bytesAt headerLen (k + bs.length) = _
  rw [InputStream.bytesAt_fill_append _ _ _ rfl, h.bytes_eq, take_add, hbs]

theorem receiveBody_spec
    {k : ℕ} {good : Bool} (h : Holding host state type body k good)
    (hk : k < body.length) (s : σ) (hs : src.rest s = body.drop k ++ tail) :
    ∃ m state' s', 0 < m ∧ k + m ≤ body.length ∧
      receiveBody src.recv state s =
        ((if body.length = k + m then .complete else .incomplete, state'), s') ∧
      Holding host state' type body (k + m) good ∧ src.rest s' = body.drop (k + m) ++ tail := by
  obtain ⟨bs, as, s', hrecv, hne, hbody, hrest⟩ := src.serves_part s
    (length_pos_iff.mp (by rw [length_drop]; omega)) hs
  rw [length_drop] at hrecv
  have hpos := length_pos_iff.mpr hne
  have hlen := congrArg length hbody
  rw [length_drop, length_append] at hlen
  have htail : src.rest s' = body.drop (k + bs.length) ++ tail := by
    rw [hrest, ← drop_drop, hbody, drop_left]
  obtain ⟨state', hrun, hhold⟩ := receiveBody_of_recv h hrecv hne hbody
  exact ⟨bs.length, state', s', hpos, by omega, hrun, hhold, htail⟩

theorem receive_body {good : Bool}
    (r : ℕ) {k : ℕ} (hr : k + r = body.length) (hpos : 0 < r) (heap : ℕ → ℕ → Chunk)
    (h : Holding host state type body k good) (s : σ)
    (hs : src.rest s = body.drop k ++ tail)
    {state₀ : IcmMessageState} {s₀ : σ}
    (hcall : handleInput host src.recv (heap 0) state₀ s₀ = receiveBody src.recv state s) :
    ∃ calls state' s', Holding host state' type body body.length good ∧ src.rest s' = tail ∧
      ∀ n, receive host src.recv heap (calls + n) state₀ s₀ =
        ((type, body) :: (receive host src.recv (fun i => heap (i + calls)) n state'.reset s').1,
          (receive host src.recv (fun i => heap (i + calls)) n state'.reset s').2) := by
  induction r using Nat.strong_induction_on generalizing k heap state s state₀ s₀ with
  | _ r ih =>
    obtain ⟨m, state₁, s₁, hm, hkm, hrun, hhold, hrest⟩ :=
      receiveBody_spec src h (by omega) s hs
    by_cases hdone : body.length = k + m
    · rw [← hdone] at hhold hrest
      rw [if_pos hdone] at hrun
      rw [drop_length, nil_append] at hrest
      refine ⟨1, state₁, s₁, hhold, hrest, fun n => ?_⟩
      rw [Nat.add_comm 1 n, receive, hcall, hrun]
      simp only [hhold.type_eq, hhold.body_eq]
    · rw [if_neg hdone] at hrun
      -- the next call has its header and goes on with the body
      have hsize : state₁.messageSize ≠ 0 := by
        rw [hhold.size_eq]
        omega
      have hnext : handleInput host src.recv (heap 1) state₁ s₁ =
          receiveBody src.recv state₁ s₁ := by
        simp only [handleInput, handleHeader, hsize, ↓reduceIte]
      obtain ⟨calls, state', s', hhold', hrest', hcalls⟩ := ih (r - m) (by omega) (by omega)
        (by omega) (fun i => heap (i + 1)) hhold s₁ hrest hnext
      refine ⟨calls + 1, state', s', hhold', hrest', fun n => ?_⟩
      have hshift : (fun i => heap (i + calls + 1)) = fun i => heap (i + (calls + 1)) := rfl
      rw [Nat.add_right_comm, receive, hcall, hrun]
      exact hcalls n

theorem receive_frame (host : ByteOrder) (heap : ℕ → ℕ → Chunk) (state : IcmMessageState) (s : σ)
    (hsize : state.messageSize = 0)
    (hoff : state.currentOffset = 0) (hpos : 0 < body.length) (hbody : body.length < 2 ^ 32)
    (hs : src.rest s = frame type body ++ tail) :
    ∃ calls state' s', Holding host state' type body body.length state.stream.goodBit ∧
      src.rest s' = tail ∧
      ∀ n, receive host src.recv heap (calls + n) state s =
        ((type, body) :: (receive host src.recv (fun i => heap (i + calls)) n state'.reset s').1,
          (receive host src.recv (fun i => heap (i + calls)) n state'.reset s').2) := by
  obtain ⟨state₁, s₁, hrun, hhold, hrest⟩ :=
    handleHeader_spec src host (heap 0) state s hsize hoff hbody hs
  have hcall : handleInput host src.recv (heap 0) state s = receiveBody src.recv state₁ s₁ := by
    simp only [handleInput, hrun]
  exact receive_body src body.length (Nat.zero_add _) hpos heap hhold s₁ (by simpa using hrest)
    hcall

theorem receive_frames (host : ByteOrder) (heap : ℕ → ℕ → Chunk)
    (msgs : List (UInt8 × List UInt8)) (state : IcmMessageState) (s : σ) {tail : List UInt8}
    (hsize : state.messageSize = 0) (hoff : state.currentOffset = 0)
    (hmsgs : ∀ m ∈ msgs, 0 < m.2.length ∧ m.2.length < 2 ^ 32)
    (hs : src.rest s = msgs.flatMap (fun m => frame m.1 m.2) ++ tail) :
    ∃ calls, (receive host src.recv heap calls state s).1 = msgs ∧
      src.rest (receive host src.recv heap calls state s).2.2 = tail := by
  induction msgs generalizing heap state s with
  | nil => exact ⟨0, rfl, hs⟩
  | cons m msgs ih =>
    obtain ⟨hm, hmsgs⟩ := forall_mem_cons.mp hmsgs
    rw [flatMap_cons, append_assoc] at hs
    obtain ⟨calls, state', s', -, hrest, hcalls⟩ :=
      receive_frame src host heap state s hsize hoff hm.1 hm.2 hs
    obtain ⟨n, hlist, htail⟩ := ih (fun i => heap (i + calls)) state'.reset s' rfl rfl hmsgs hrest
    refine ⟨calls + n, ?_, ?_⟩
    · rw [hcalls n, hlist]
    · rw [hcalls n]
      exact htail

end Source

/-- A message on its way: built by `startMessage` and typed writes, with a body that is not empty,
and handed to a socket that takes all of every block it is offered. -/
structure Outgoing where
  host : ByteOrder
  heap : ℕ → Chunk
  type : MessageType
  values : List Value
  stream : OutputStream
  results : ℕ → SendResult
  built : (startMessage host type (.create host heap)).bind
    (OutputStream.writeValues host values) = some stream
  nonempty : headerLen < stream.totalLength
  accepted : ∀ p ∈ offers (sentBlocks host stream) results, p.2.Covers p.1

namespace Outgoing

variable (m : Outgoing)

def body : List UInt8 := m.stream.bytes.drop headerLen

def sent : List UInt8 := (sendMessage m.host (some m.results) m.stream).2

theorem framed : Framed m.host m.type.toOctet m.stream m.body := by
  obtain ⟨os, hstart, hvalues⟩ := Option.bind_eq_some_iff.mp m.built
  obtain ⟨os', hstart', hframed⟩ := startFrame_framed m.host m.type.toOctet m.heap
  obtain rfl : os = os' := Option.some.inj (hstart.symm.trans hstart')
  obtain ⟨bs, hwrote⟩ := OutputStream.exists_wrote_values hframed.wf hvalues
  have hfinal := hframed.wrote hwrote
  have hbody : m.body = [] ++ bs := by
    have hlen : (wire 4 0 ++ [m.type.toOctet]).length = headerLen := by simp [headerLen]
    have hsplit : wire 4 0 ++ m.type.toOctet :: ([] ++ bs) =
        (wire 4 0 ++ [m.type.toOctet]) ++ ([] ++ bs) := by simp
    rw [body, hfinal.bytes, hsplit, drop_left' hlen]
  rw [hbody]
  exact hfinal

theorem body_pos : 0 < m.body.length := by
  have := m.nonempty
  rw [m.framed.totalLength] at this
  omega

theorem sendMessage_eq_frame :
    sendMessage m.host (some m.results) m.stream = (true, frame m.type.toOctet m.body) := by
  rw [sendMessage_eq, sendEach_of_covers m.accepted, flatten_sentBlocks,
    m.framed.patchLength_bytes]

end Outgoing

/-- **The messages sent are the messages received**: however the socket cuts the bytes of the
messages, calling `handleInput` again and again, with a reset after each complete message, yields
their types and bodies in order, and takes their bytes and no more. -/
theorem receive_sendMessage (host : ByteOrder) (src : ByteSource σ) (heap : ℕ → ℕ → Chunk)
    (c : Chunk) (msgs : List Outgoing) (s : σ) (tail : List UInt8)
    (hs : src.rest s = msgs.flatMap Outgoing.sent ++ tail) :
    ∃ calls,
      (receive host src.recv heap calls (.create host c) s).1 =
        msgs.map (fun m => (m.type.toOctet, m.body)) ∧
      src.rest (receive host src.recv heap calls (.create host c) s).2.2 = tail := by
  refine receive_frames src host heap _ (.create host c) s rfl rfl ?_ ?_
  · intro p hp
    obtain ⟨m, -, rfl⟩ := mem_map.mp hp
    exact ⟨m.body_pos, m.framed.length_body_lt⟩
  · rw [hs, flatMap_map]
    congr 1
    refine flatMap_congr fun m _ => ?_
    rw [Outgoing.sent, m.sendMessage_eq_frame]

def octetRequest : Outgoing where
  host := .little
  heap := fun _ => zeroChunk
  type := .request
  values := [.octet 7]
  stream := Option.get ((startMessage .little .request (.create .little fun _ => zeroChunk)).bind
    (OutputStream.writeValues .little [.octet 7])) (by decide +kernel)
  results := fun _ => .accepted 512
  built := (Option.some_get _).symm
  nonempty := by decide +kernel
  accepted := by decide +kernel

theorem receive_sendMessage_octetRequest :
    ∃ calls,
      (receive .little ByteSource.cut.recv (fun _ _ => zeroChunk) calls (.create .little zeroChunk)
        ⟨octetRequest.sent, fun _ => 1⟩).1 = [(0, octetRequest.body)] ∧
      (receive .little ByteSource.cut.recv (fun _ _ => zeroChunk) calls (.create .little zeroChunk)
        ⟨octetRequest.sent, fun _ => 1⟩).2.2.pending = [] :=
  receive_sendMessage .little ByteSource.cut (fun _ _ => zeroChunk) zeroChunk [octetRequest]
    ⟨octetRequest.sent, fun _ => 1⟩ [] (by simp [ByteSource.cut])

end IcmProtocol

end Icm.Rpc
