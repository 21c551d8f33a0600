import Icm.Rpc.Protocol
import Icm.Stream.OwnBytes

/-!
# Decoding and the history of a connection

What `IcmTransport::handleInputI` (`icm/Pluggable.cpp`) makes of a message.
-/

namespace Icm.Rpc

open Icm.Lib Icm.Stream InputStream ReadProgram MessageType Query IcmProtocol

variable {σ τ : Type}

/-- The fields of a `ServerRequest` that `parseHeader` reads, and whether it returns `0`. -/
structure RequestHeader where
  requestId : ℕ
  responseExpected : Bool
  name : List UInt8
  category : List UInt8
  operation : List UInt8
  hdrStatus : Bool
  deriving DecidableEq

/-- The dispatcher of a reply, with the reads of the results for each reply status. -/
inductive Dispatcher
  | synch (reads : ℕ → Script)
  | asynch (reads : ℕ → Script)

def Dispatcher.reads : Dispatcher → ℕ → Script
  | synch reads => reads
  | asynch reads => reads

/-- What the application does with a message: the reads of the object that a request is for, if
there is one, and the dispatcher that waits for the reply to a request, if there is one. -/
structure App where
  find : RequestHeader → Option Script
  dispatcher : ℕ → Option Dispatcher

/-- What was read from a message: the fields of its header, and what each read of its arguments
returned, with its value. -/
inductive Decoded
  | nothing
  | request (header : RequestHeader) (arguments : Option (List (Bool × Option Value)))
  | reply (requestId replyStatus : ℕ) (arguments : Option (List (Bool × Option Value)))
  deriving DecidableEq

/-- What one call of `handleInputI` finds: the application, whether the answer to a request is sent,
the memory for buffers, and the content of uninitialised variables. An operation that answers later
(`DispatchAsync`) counts as answered. -/
structure Turn where
  app : App
  sent : Bool
  heap : ℕ → Chunk
  fresh : Chunk
  clone : Chunk
  junk : ℕ

def ServerRequest.parseHeader (host : ByteOrder) (junk : ℕ) (input : InputStream) :
    RequestHeader × InputStream :=
  let requestId := input.readUint host 0
  let responseFlags := requestId.stream.readOctet (.ofNat junk)
  let name := responseFlags.stream.readString host junk
  let category := name.stream.readString host junk
  let operation := category.stream.readString host junk
  (⟨requestId.val, responseFlags.val ≠ 0, name.val, category.val, operation.val, operation.ok⟩,
    operation.stream)

namespace IcmProtocol

def processServerRequest (host : ByteOrder) (turn : Turn) (input : InputStream) :
    Decoded × Bool :=
  let (header, input) := ServerRequest.parseHeader host turn.junk input
  if header.hdrStatus then
    match turn.app.find header with
    | none => (.request header none, false)
    | some reads =>
      (.request header (some (runScript host turn.junk reads input).1),
        !header.responseExpected || turn.sent)
  else (.request header none, true)

def parseReply (host : ByteOrder) (junk : ℕ) (stream : InputStream) :
    Option (ℕ × ℕ) × InputStream :=
  let requestId := stream.readUint host junk
  if requestId.ok then
    let replyStatus := requestId.stream.readUint host junk
    (if replyStatus.ok then some (requestId.val, replyStatus.val) else none, replyStatus.stream)
  else (none, requestId.stream)

end IcmProtocol

namespace IcmTransport

def processReply (host : ByteOrder) (turn : Turn) (stream : InputStream) :
    (Decoded × Bool) × InputStream :=
  match parseReply host turn.junk stream with
  | (none, stream) => ((.nothing, false), stream)
  | (some (requestId, replyStatus), stream) =>
    match turn.app.dispatcher requestId with
    | none => ((.reply requestId replyStatus none, false), stream)
    | some (.synch reads) =>
      let (own, stream) :=
        (create host turn.fresh defaultBufsize).stealFrom stream host turn.clone
      ((.reply requestId replyStatus
        (some (runScript host turn.junk (reads replyStatus) own).1), true), stream)
    | some (.asynch reads) =>
      let r := runScript host turn.junk (reads replyStatus) stream
      ((.reply requestId replyStatus (some r.1), true), r.2)

def processMessage (host : ByteOrder) (turn : Turn) (state : IcmMessageState) :
    (Decoded × Bool) × IcmMessageState :=
  if state.messageType = request.toOctet then
    let (input, stream) := state.stream.transferContents host turn.clone
    (processServerRequest host turn input,
      ({ state with stream := stream } : IcmMessageState).reset)
  else if state.messageType = reply.toOctet then
    let r := processReply host turn state.stream
    (r.1, ({ state with stream := r.2 } : IcmMessageState).reset)
  else if state.messageType = error.toOctet then ((.nothing, false), state)
  else ((.nothing, true), state)

def handleInputI (host : ByteOrder) (recv : ℕ → σ → Recv × σ) (turn : Turn)
    (state : IcmMessageState) (s : σ) : ((Decoded × Bool) × IcmMessageState) × σ :=
  match handleInput host recv turn.heap state s with
  | ((.error, state), s') => (((.nothing, false), state), s')
  | ((.incomplete, state), s') => (((.nothing, true), state), s')
  | ((.complete, state), s') => (processMessage host turn state, s')

def receiveAll (host : ByteOrder) (recv : ℕ → σ → Recv × σ) :
    List Turn → IcmMessageState → σ → Option (IcmMessageState × σ)
  | [], state, s => some (state, s)
  | turn :: turns, state, s =>
    match handleInputI host recv turn state s with
    | (((_, true), state), s') => receiveAll host recv turns state s'
    | (((_, false), _), _) => none

def decodedAfter (host : ByteOrder) (recv : ℕ → σ → Recv × σ) (c : Chunk) (history : List Turn)
    (turn : Turn) (s : σ) : Option Decoded :=
  (receiveAll host recv history (.create host c) s).map fun r =>
    (handleInputI host recv turn r.1 r.2).1.1.1

end IcmTransport

section Programs

variable (host : ByteOrder) (swap : Bool) (junk : ℕ) (app : App)

def headerProgram : Query ℕ Fetched RequestHeader :=
  (uint host swap 0).bind fun requestId =>
    (octet (.ofNat junk)).bind fun responseFlags =>
      (string host swap junk).bind fun name =>
        (string host swap junk).bind fun category =>
          (string host swap junk).bind fun operation =>
            .done ⟨requestId.2, responseFlags.2 ≠ 0, name.2, category.2, operation.2, operation.1⟩

def requestProgram : Query ℕ Fetched Decoded :=
  (headerProgram host swap junk).bind fun header =>
    if header.hdrStatus then
      match app.find header with
      | none => .done (.request header none)
      | some reads => (Script.program host swap junk reads).bind fun rs =>
          .done (.request header (some rs))
    else .done (.request header none)

def replyHeader : Query ℕ Fetched (Option (ℕ × ℕ)) :=
  (uint host swap junk).bind fun requestId =>
    if requestId.1 then
      (uint host swap junk).bind fun replyStatus =>
        .done (if replyStatus.1 then some (requestId.2, replyStatus.2) else none)
    else .done none

def replyBody : Option (ℕ × ℕ) → Query ℕ Fetched Decoded
  | none => .done .nothing
  | some (requestId, replyStatus) =>
    match app.dispatcher requestId with
    | none => .done (.reply requestId replyStatus none)
    | some d => (Script.program host swap junk (d.reads replyStatus)).bind fun rs =>
        .done (.reply requestId replyStatus (some rs))

def replyProgram : Query ℕ Fetched Decoded :=
  (replyHeader host swap junk).bind (replyBody host swap junk app)

theorem alike_requestProgram (junk' : ℕ) :
    Query.Alike Full (requestProgram host swap junk app) (requestProgram host swap junk' app) := by
  have hheader : Query.Alike Full (headerProgram host swap junk) (headerProgram host swap junk') :=
    (Query.Alike.refl _).bind fun _ => (alike_octet _ _).bind fun _ =>
      (alike_string host swap _ _).bind fun _ =>
        (alike_string host swap _ _).bind fun _ =>
          (alike_string host swap _ _).bind fun _ => .refl _
  refine hheader.bind fun header => ?_
  split_ifs
  · cases app.find header with
    | none => exact .refl _
    | some reads => exact (Script.alike_program host swap _ _ reads).bind fun _ => .refl _
  · exact .refl _

theorem alike_replyProgram (junk' : ℕ) :
    Query.Alike Full (replyProgram host swap junk app) (replyProgram host swap junk' app) := by
  refine .bind (.bind (alike_uint host swap _ _) fun requestId => ?_) fun r => ?_
  · split_ifs
    · exact (alike_uint host swap _ _).bind fun _ => .refl _
    · exact .refl _
  · rcases r with _ | ⟨requestId, replyStatus⟩
    · exact .refl _
    · simp only [replyBody]
      cases app.dispatcher requestId with
      | none => exact .refl _
      | some d => exact (Script.alike_program host swap _ _ _).bind fun _ => .refl _

theorem parseHeader_eq (input : InputStream) :
    ServerRequest.parseHeader host junk input =
      (headerProgram host input.doByteSwap junk).run fetch input := by
  simp only [ServerRequest.parseHeader, headerProgram, readOctet,
    readUint_eq, read1_eq, readString_eq, Reading.ofRun,
    run_bind, run_done, run_fetch_doByteSwap]

theorem processServerRequest_eq (turn : Turn) (input : InputStream) :
    (processServerRequest host turn input).1 =
      ((requestProgram host input.doByteSwap turn.junk turn.app).run
        fetch input).1 := by
  have hswap :=
    run_fetch_doByteSwap (headerProgram host input.doByteSwap turn.junk) input
  rw [processServerRequest, parseHeader_eq, requestProgram, run_bind]
  generalize (headerProgram host input.doByteSwap turn.junk).run fetch input = r
    at hswap ⊢
  obtain ⟨header, is⟩ := r
  simp only at hswap ⊢
  split_ifs
  · cases turn.app.find header with
    | none => rfl
    | some reads =>
      simp only [runScript_eq, run_bind, run_done, hswap]
  · rfl

theorem parseReply_eq (stream : InputStream) :
    parseReply host junk stream =
      (replyHeader host stream.doByteSwap junk).run fetch stream := by
  simp only [parseReply, replyHeader, readUint_eq, Reading.ofRun,
    run_bind, run_fetch_doByteSwap]
  by_cases h : ((uint host stream.doByteSwap junk).run fetch stream).1.1
  · simp only [h, ↓reduceIte, run_bind, run_done]
  · simp only [h, Bool.false_eq_true, ↓reduceIte, run_done]

end Programs

structure Message where
  type : UInt8
  body : List UInt8
  length_lt : body.length < 2 ^ 32

namespace Message

def bytes (m : Message) : List UInt8 := frame m.type m.body

def decoded (host : ByteOrder) (app : App) (m : Message) : Decoded :=
  if m.body = [] then .nothing
  else if m.type = request.toOctet then
    ((requestProgram host host.aceCdrByteOrder 0 app).run takeBytes m.body).1
  else if m.type = reply.toOctet then
    ((replyProgram host host.aceCdrByteOrder 0 app).run takeBytes m.body).1
  else .nothing

def Keeps (host : ByteOrder) (app : App) (m : Message) : Prop :=
  (m.type = request.toOctet →
    Within (requestProgram host host.aceCdrByteOrder 0 app) m.body) ∧
  (m.type = reply.toOctet →
    Within (replyProgram host host.aceCdrByteOrder 0 app) m.body)

instance (host : ByteOrder) (app : App) (m : Message) : Decidable (m.Keeps host app) :=
  inferInstanceAs (Decidable (_ ∧ _))

def replyId (host : ByteOrder) (m : Message) : ℕ :=
  ((uint host host.aceCdrByteOrder 0).run takeBytes m.body).1.2

end Message

structure Delivery where
  message : Message
  turn : Turn

/-- The message does no harm to those after it: it is a request, or a reply that keeps to its bytes
if an asynchronous call may take it. The id of a reply that has one is not in doubt. -/
def Delivery.Clean (host : ByteOrder) (d : Delivery) : Prop :=
  d.message.type = request.toOctet ∨
    d.message.type = reply.toOctet ∧
      ∀ id reads, d.turn.app.dispatcher id = some (.asynch reads) →
        (4 ≤ d.message.body.length → id = d.message.replyId host) →
          Within (replyProgram host host.aceCdrByteOrder 0 d.turn.app) d.message.body

namespace IcmTransport

open IcmProtocol

structure Ready (state : IcmMessageState) : Prop where
  size_eq : state.messageSize = 0
  offset_eq : state.currentOffset = 0
  good_eq : state.stream.goodBit = true

section Received

variable {host : ByteOrder} {state : IcmMessageState} {m : Message}

theorem starts_of_holding (h : Holding host state m.type m.body m.body.length true) :
    state.stream.Starts m.body := by
  have hend := h.end_le
  refine ⟨?_, ?_⟩
  · rw [h.rd_eq]
    omega
  · rw [h.rd_eq, h.bytes_eq, List.take_length]

theorem run_of_holding {α : Type} {p p' : Query ℕ Fetched α}
    (h : Holding host state m.type m.body m.body.length true) (hp : Within p m.body)
    (halike : Query.Alike Full p p') :
    (p'.run fetch state.stream).1 = (p.run takeBytes m.body).1 ∧
      (p'.run fetch state.stream).2.goodBit = true := by
  obtain ⟨hp', hrun⟩ := hp.alike halike
  obtain ⟨hres, -, hgood⟩ := hp'.run_fetch (starts_of_holding h) h.good_eq
  exact ⟨hres.trans (congrArg Prod.fst hrun), hgood⟩

theorem parseReply_of_holding (h : Holding host state m.type m.body m.body.length true)
    (junk : ℕ) : ∃ id status stream,
      parseReply host junk state.stream = (some (id, status), stream) ∧
      stream.goodBit = true ∧ stream.doByteSwap = host.aceCdrByteOrder ∧
      (4 ≤ m.body.length → id = m.replyId host) := by
  have hend := h.end_le
  have halign : maxAlignment = 8 := rfl
  have hrd := h.rd_eq
  have hread (is : InputStream) (hle : is.rdPtr + 4 ≤ is.endPtr) :
      ∃ v, is.readUint host junk = ⟨true, v, is.skip 4⟩ := by
    simp only [readUint, readN, adjust, hle, ↓reduceIte]
    exact ⟨_, rfl⟩
  obtain ⟨id, hid⟩ := hread state.stream (by omega)
  obtain ⟨status, hstatus⟩ := hread (state.stream.skip 4)
    (show state.stream.rdPtr + 4 + 4 ≤ state.stream.endPtr by omega)
  refine ⟨id, status, (state.stream.skip 4).skip 4, ?_, h.good_eq, h.swap_eq, fun hlen => ?_⟩
  · simp only [parseReply, hid, hstatus, ↓reduceIte]
  · have hwithin : Within (uint host host.aceCdrByteOrder 0) m.body :=
      List.forall_mem_singleton.mpr hlen
    have hrun := (run_of_holding h hwithin (alike_uint host _ 0 junk)).1
    have hval := congrArg Reading.val (readUint_eq host state.stream junk)
    rw [hid, h.swap_eq] at hval
    exact hval.trans (congrArg Prod.snd hrun)

variable {turn : Turn}

section

variable (h : Holding host state m.type m.body m.body.length true)
include h

theorem processReply_of_within
    (hm : Within (replyProgram host host.aceCdrByteOrder 0 turn.app) m.body) :
    (processReply host turn state.stream).1.1 =
        ((replyProgram host host.aceCdrByteOrder 0 turn.app).run takeBytes m.body).1 ∧
      (processReply host turn state.stream).2.goodBit = true := by
  obtain ⟨hres, hgood⟩ := run_of_holding h hm (alike_replyProgram host _ 0 turn.app turn.junk)
  obtain ⟨id, status, stream, hparse, hgood', hswap, -⟩ := parseReply_of_holding h turn.junk
  have hheader := parseReply_eq host turn.junk state.stream
  rw [hparse, h.swap_eq] at hheader
  rw [replyProgram, run_bind, ← hheader] at hres hgood
  rw [← hres]
  rw [processReply, hparse]
  simp only [replyBody] at hgood ⊢
  rcases hd : turn.app.dispatcher id with _ | reads | reads
  · exact ⟨rfl, hgood'⟩
  · -- the stream of the dispatcher differs from that of the connection in nothing
    have hown : ((create host turn.fresh defaultBufsize).stealFrom stream host
        turn.clone).1 = stream := stealFrom_eq hswap hgood' rfl _
    refine ⟨?_, hgood'⟩
    simp only [hown, runScript_eq, hswap, run_bind, run_done]
    rfl
  · simp only [hd, Dispatcher.reads, run_bind, run_done] at hgood
    simp only [runScript_eq, hswap, run_bind, run_done]
    exact ⟨rfl, hgood⟩

theorem processReply_goodBit (hclean : ∀ id reads, turn.app.dispatcher id = some (.asynch reads) →
      (4 ≤ m.body.length → id = m.replyId host) →
        Within (replyProgram host host.aceCdrByteOrder 0 turn.app) m.body) :
    (processReply host turn state.stream).2.goodBit = true := by
  obtain ⟨id, status, stream, hparse, hgood, -, hid⟩ := parseReply_of_holding h turn.junk
  rcases hd : turn.app.dispatcher id with _ | reads | reads
  · simp only [processReply, hparse, hd]
    exact hgood
  · simp only [processReply, hparse, hd]
    exact hgood
  · exact (processReply_of_within h (hclean id reads hd hid)).2

theorem processMessage_ready (hclean : (⟨m, turn⟩ : Delivery).Clean host) :
    Ready (processMessage host turn state).2 := by
  obtain hreq | ⟨hrep, hasynch⟩ := hclean
  · rw [processMessage, if_pos (h.type_eq.trans hreq)]
    exact ⟨rfl, rfl, h.good_eq⟩
  · have hne : state.messageType ≠ request.toOctet := by
      rw [h.type_eq.trans hrep]
      decide
    rw [processMessage, if_neg hne, if_pos (h.type_eq.trans hrep)]
    exact ⟨rfl, rfl, processReply_goodBit h hasynch⟩

theorem processMessage_decoded (hne : m.body ≠ []) (hm : m.Keeps host turn.app) :
    (processMessage host turn state).1.1 = m.decoded host turn.app := by
  rw [processMessage, Message.decoded, if_neg hne, h.type_eq]
  split_ifs with hreq hrep herr
  · have hrun := (run_of_holding h (hm.1 hreq)
      (alike_requestProgram host _ 0 turn.app turn.junk)).1
    rw [← hrun]
    -- the new stream is that of the connection, as the flag of this one is set
    have hown : (state.stream.transferContents host turn.clone).1 = state.stream :=
      transferContents_eq h.swap_eq h.good_eq _
    have hrequest := processServerRequest_eq host turn state.stream
    rw [h.swap_eq] at hrequest
    exact (congrArg (fun input => (processServerRequest host turn input).1) hown).trans hrequest
  · exact (processReply_of_within h (hm.2 hrep)).1
  · rfl
  · rfl

end

end Received

section Connection

variable (host : ByteOrder) (src : ByteSource σ)

variable {state : IcmMessageState} {tail : List UInt8}

theorem handleInput_frame (heap : ℕ → Chunk) (hready : Ready state)
    (s : σ) {m : Message} (hs : src.rest s = m.bytes ++ tail) :
    (m.body = [] ∧
      (handleInput host (tcpTransport src).recv heap state s).1.1 = .error) ∨
    m.body ≠ [] ∧ ∃ state' s', handleInput host (tcpTransport src).recv heap state s =
        ((.complete, state'), s') ∧
      Holding host state' m.type m.body m.body.length true ∧ src.rest s' = tail := by
  obtain ⟨state₁, s₁, hrun, hhold, hrest⟩ := handleHeader_spec (tcpTransport src) host heap
    state s hready.size_eq hready.offset_eq m.length_lt hs
  rw [hready.good_eq] at hhold
  obtain ⟨s', hrecv, hs'⟩ := recvN_spec src le_rfl [] s₁ rfl hrest
  replace hrecv : (tcpTransport src).recv (m.body.length - 0) s₁ = (.bytes m.body, s') := hrecv
  have hcall : handleInput host (tcpTransport src).recv heap state s =
      receiveBody (tcpTransport src).recv state₁ s₁ := by
    simp only [handleInput, hrun]
  by_cases hbody : m.body = []
  · refine Or.inl ⟨hbody, ?_⟩
    have hmissing : state₁.messageSize - state₁.currentOffset = 0 := by
      rw [hhold.size_eq, hbody, List.length_nil, Nat.zero_sub]
    rw [hcall]
    simp only [receiveBody, hmissing, tcpTransport, recvN, reduceCtorEq, ↓reduceIte]
  · have hall : m.body.drop 0 = m.body ++ [] := (List.append_nil _).symm
    obtain ⟨state', hbodyrun, hhold'⟩ := receiveBody_of_recv hhold hrecv hbody hall
    rw [Nat.zero_add] at hbodyrun hhold'
    refine Or.inr ⟨hbody, state', s', ?_, hhold', hs'⟩
    rw [hcall, hbodyrun, if_pos rfl]

theorem handleInputI_frame (turn : Turn) (hready : Ready state) (s : σ)
    {m : Message} (hs : src.rest s = m.bytes ++ tail) :
    (m.body = [] ∧
      (handleInputI host (tcpTransport src).recv turn state s).1.1 = (.nothing, false)) ∨
    m.body ≠ [] ∧ ∃ state' s', handleInputI host (tcpTransport src).recv turn state s =
        (processMessage host turn state', s') ∧
      Holding host state' m.type m.body m.body.length true ∧ src.rest s' = tail := by
  obtain ⟨hbody, herror⟩ | ⟨hbody, state', s', hcall, hhold, hrest⟩ :=
    handleInput_frame host src turn.heap hready s hs
  · refine Or.inl ⟨hbody, ?_⟩
    rcases hcall : handleInput host (tcpTransport src).recv turn.heap state s with
      ⟨⟨progress, state'⟩, s'⟩
    rw [hcall] at herror
    obtain rfl : progress = .error := herror
    simp only [handleInputI, hcall]
  · refine Or.inr ⟨hbody, state', s', ?_, hhold, hrest⟩
    simp only [handleInputI, hcall]

theorem receiveAll_ready (history : List Delivery) (hready : Ready state)
    {s : σ}
    (hs : src.rest s = history.flatMap (fun d => d.message.bytes) ++ tail)
    (hclean : ∀ d ∈ history, d.Clean host) {r : IcmMessageState × σ}
    (hr : receiveAll host (tcpTransport src).recv (history.map Delivery.turn) state s = some r) :
    Ready r.1 ∧ src.rest r.2 = tail := by
  induction history generalizing state s with
  | nil =>
    cases hr
    exact ⟨hready, hs⟩
  | cons d history ih =>
    obtain ⟨hd, hclean⟩ := List.forall_mem_cons.mp hclean
    rw [List.flatMap_cons, List.append_assoc] at hs
    rw [List.map_cons, receiveAll] at hr
    obtain ⟨-, hclosed⟩ | ⟨-, state', s', hcall, hhold, hrest⟩ :=
      handleInputI_frame host src d.turn hready s hs
    · rcases hcall : handleInputI host (tcpTransport src).recv d.turn state s with
        ⟨⟨⟨decoded, isOpen⟩, state'⟩, s'⟩
      rw [hcall] at hr hclosed
      obtain rfl : isOpen = false := (Prod.mk.inj hclosed).2
      cases hr
    · have hnext := processMessage_ready hhold hd
      rcases hproc : processMessage host d.turn state' with ⟨⟨decoded, isOpen⟩, state''⟩
      rw [hproc] at hcall hnext
      rw [hcall] at hr
      cases isOpen with
      | false => cases hr
      | true => exact ih hnext hrest hclean hr

theorem decodedAfter_eq (c : Chunk) (history : List Delivery) (turn : Turn) {m : Message} {s : σ}
    (hs : src.rest s = history.flatMap (fun d => d.message.bytes) ++ (m.bytes ++ tail))
    (hopen : (receiveAll host (tcpTransport src).recv (history.map Delivery.turn)
      (.create host c) s).isSome)
    (hclean : ∀ d ∈ history, d.Clean host) (hm : m.Keeps host turn.app) :
    decodedAfter host (tcpTransport src).recv c (history.map Delivery.turn) turn s =
      some (m.decoded host turn.app) := by
  obtain ⟨r, hr⟩ := Option.isSome_iff_exists.mp hopen
  obtain ⟨hready, hrest⟩ := receiveAll_ready host src history ⟨rfl, rfl, rfl⟩ hs hclean hr
  rw [decodedAfter, hr, Option.map_some]
  obtain ⟨hbody, hclosed⟩ | ⟨hbody, state', s', hcall, hhold, -⟩ :=
    handleInputI_frame host src turn hready r.2 hrest
  · rw [hclosed, Message.decoded, if_pos hbody]
  · rw [hcall, processMessage_decoded hhold hbody hm]

end Connection

def stringApp : App where
  find _ := none
  dispatcher id := if id = 1 ∨ id = 2 then
    some (.asynch fun _ => .ask (.value .string) fun _ => .done ()) else none

def stringTurn : Turn := ⟨stringApp, true, fun _ => zeroChunk, zeroChunk, zeroChunk, 0⟩

def stringReply : Message where
  type := reply.toOctet
  body := wire 4 2 ++ wire 4 0 ++ wire 4 2 ++ [97, 0]
  length_lt := by decide

def badReply : Message where
  type := reply.toOctet
  body := wire 4 1 ++ wire 4 0 ++ wire 4 5000
  length_lt := by decide

def badRequest : Message where
  type := request.toOctet
  body := wire 4 1
  length_lt := by decide

end IcmTransport

end Icm.Rpc
