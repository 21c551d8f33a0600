import Icm.Messaging.Publish

/-!
# The thread of a publisher

A publisher runs a thread of its own (`PublishClient::svc`), which dispatches the input of the
connection and the keep-alive timer, and replaces a connection that is marked as failed.
-/

namespace Icm.Messaging

open Icm.Lib Icm.Stream Publisher MsgProtocol

/-- Where the publisher's thread is: before `onConnOk`, before the flush that follows, before the
look at the mark, in `handleEvents`, in `handleTimeout` before the probe or after one that failed,
before `handleClose`, before the assertion of `svc`, before `onConnError`, and in
`reestablishConnectionAndPublishFromBuffer` before the assertion, before the handler is dropped,
before a call of `connect`, before the mark is removed, and before the flush; and before `svc`
removes the mark. -/
inductive PublisherPoint
  | connOk
  | firstFlush
  | look
  | events
  | probe
  | probeFailed
  | close
  | down
  | connError
  | reestablish
  | drop
  | connect
  | connected
  | flush
  | reestablished
  deriving DecidableEq

structure PublishClientHandler where
  publishClient : Bool
  deriving DecidableEq

/-- `PublishClient` with its thread. -/
structure PublisherProcess extends Publisher where
  thread : PublisherPoint
  reactor : Bool
  handler : Option PublishClientHandler
  timer : Bool
  keepAliveEnabled : Bool
  keepAliveTryTimes : ℤ
  unackedKeepAliveProbes : ℤ
  connection : ℕ
  faulted : Option ℕ
  deriving DecidableEq

inductive Dispatch
  | idle
  | timeout
  | input (result : ParseResult) (messageType : UInt8)
  deriving DecidableEq

inductive ConnectResult
  | refused
  | notActivated
  | connected
  deriving DecidableEq

structure ProbeCall where
  stream : ℕ → Chunk
  heap : ℕ → Chunk
  junk : ℕ
  sends : ℕ → SendResult

structure ThreadTurn where
  schedules : Bool
  subscriberTryTimes : ℤ
  dispatch : Dispatch
  probe : ProbeCall
  connect : ConnectResult
  flush : PublishClient.Flush

inductive PublisherEvent
  | publish (call : PublishCall)
  | turn (t : ThreadTurn)

def PublishClientHandler.handleInput (h : PublishClientHandler) (result : ParseResult)
    (messageType : UInt8) : Except Assertion Bool := do
  require .handlerClient (h.publishClient = true)
  if result = .error then return false
  else if result = .half then return false
  else do
    require .handlerResult (result = .complete)
    return messageType = MsgType.keepAliveACK.toOctet

def keepAliveText : List UInt8 := [107, 101, 101, 112, 65, 108, 105, 118, 101]

namespace PublisherProcess

def setConnectionError (s : PublisherProcess) (arg : Bool) : PublisherProcess :=
  { s with
    connectionErrorPending := arg
    faulted := if arg then some s.connection else s.faulted }

def withPublisher (s : PublisherProcess) (c : Publisher) : PublisherProcess :=
  { s with
    toPublisher := c
    faulted := if s.connectionErrorPending = false ∧ c.connectionErrorPending = true
      then some s.connection else s.faulted }

def publish (host : ByteOrder) (call : PublishCall) (s : PublisherProcess) :
    Except Assertion PublisherProcess := do
  let p ← s.toPublisher.publish host call
  return s.withPublisher p.publisher

def publishFromBuffer (host : ByteOrder) (fl : PublishClient.Flush) (s : PublisherProcess) :
    Except Assertion (Bool × PublisherProcess) := do
  let r ← PublishClient.publishFromBuffer host fl s.toPublishClient
  return (r.1, s.withPublisher { s.toPublisher with toPublishClient := r.2.1 })

def enableKeepAlive (t : ThreadTurn) (s : PublisherProcess) : PublisherProcess :=
  let s := { s with keepAliveTryTimes := t.subscriberTryTimes }
  if s.reactor = false then s
  else if s.keepAliveEnabled = true then s
  else if t.schedules = false then s
  else { s with timer := true, keepAliveEnabled := true }

def disableKeepAlive (s : PublisherProcess) : Except Assertion PublisherProcess := do
  require .keepAliveReactor (s.reactor = true)
  return { s with timer := false, keepAliveEnabled := false }

def sendKeepAliveProbe (host : ByteOrder) (call : ProbeCall) (s : PublisherProcess) :
    Except Assertion (Bool × PublisherProcess) := do
  require .probeConnection (s.connectionErrorPending = false)
  let s := { s with unackedKeepAliveProbes := s.unackedKeepAliveProbes + 1 }
  if s.unackedKeepAliveProbes > s.keepAliveTryTimes then return (false, s)
  else do
    let os ← written (start host .keepAliveProbe (.create host call.stream))
    let os ← written (os.writeString host keepAliveText)
    let sent ← send host call.heap call.junk call.sends os
    return (sent.1, s)

def dispatch (s : PublisherProcess) : Dispatch → Except Assertion PublisherProcess
  | .idle => .ok { s with thread := .look }
  | .timeout =>
    .ok (if s.timer = true ∧ s.connectionErrorPending = false then { s with thread := .probe }
      else s)
  | .input result messageType =>
    match s.handler with
    | none => .ok s
    | some h => do
      let ok ← h.handleInput result messageType
      return { s with unackedKeepAliveProbes := 0, thread := if ok then .events else .close }

def newConnection (s : PublisherProcess) : PublisherProcess :=
  { s with handler := some ⟨true⟩, connection := s.connection + 1 }

def connect (s : PublisherProcess) : ConnectResult → Except Assertion PublisherProcess
  | .refused => .ok { s with handler := none }
  | .notActivated => .ok s.newConnection
  | .connected => do
    require .reestablishHandler (s.newConnection.handler ≠ none)
    return { s.newConnection with thread := .connected }

def turn (host : ByteOrder) (t : ThreadTurn) (s : PublisherProcess) :
    Except Assertion PublisherProcess :=
  match s.thread with
  | .connOk => .ok { s.enableKeepAlive t with thread := .firstFlush }
  | .firstFlush =>
    if s.enableBuffering then do
      let r ← s.publishFromBuffer host t.flush
      return { r.2 with thread := .look }
    else .ok { s with thread := .look }
  | .look => .ok { s with thread := if s.connectionErrorPending then .down else .events }
  | .events => s.dispatch t.dispatch
  | .probe => do
    let r ← s.sendKeepAliveProbe host t.probe
    return { r.2 with thread := if r.1 then .events else .probeFailed }
  -- the timer queue cancels a timer whose handler returns `-1`
  | .probeFailed => .ok { s.setConnectionError true with timer := false, thread := .events }
  -- `SvcHandler::handleClose` deletes the handler
  | .close => .ok { s.setConnectionError true with handler := none, thread := .events }
  | .down => do
    require .svcConnection (s.connectionErrorPending = true)
    return { s with thread := .connError }
  | .connError => do
    let s ← s.disableKeepAlive
    return { s with thread := .reestablish }
  | .reestablish => do
    require .reestablishConnection (s.connectionErrorPending = true)
    return { s with unackedKeepAliveProbes := 0, thread := .drop }
  -- `removeHandler` closes the handler
  | .drop =>
    .ok { (if s.handler = none then s else s.setConnectionError true) with
      handler := none, thread := .connect }
  | .connect => s.connect t.connect
  | .connected => .ok { s.setConnectionError false with thread := .flush }
  | .flush =>
    if s.enableBuffering then do
      let r ← s.publishFromBuffer host t.flush
      return { r.2 with thread := if r.1 then .reestablished else .reestablish }
    else .ok { s with thread := .reestablished }
  | .reestablished => .ok { s.setConnectionError false with thread := .connOk }

def step (host : ByteOrder) (s : PublisherProcess) :
    PublisherEvent → Except Assertion PublisherProcess
  | .publish call => s.publish host call
  | .turn t => s.turn host t

def activated (brokerIp : List UInt8) (enableBuffering : Bool) (bufferFile : List UInt8) :
    PublisherProcess where
  connectionErrorPending := false
  bufferFile := bufferFile
  brokerIp := brokerIp
  enableBuffering := enableBuffering
  thread := .connOk
  reactor := true
  handler := some ⟨true⟩
  timer := false
  keepAliveEnabled := false
  keepAliveTryTimes := 3
  unackedKeepAliveProbes := 0
  connection := 0
  faulted := none

end PublisherProcess

def Assertion.ofPublishClient : Assertion → Bool
  | dataSize | brokerIp | probeConnection | svcConnection | reestablishConnection
  | reestablishHandler | keepAliveReactor | handlerClient | handlerResult => true
  | _ => false

section ofPublishClient

variable {a : Assertion} {host : ByteOrder}

theorem ne_of_ofPublishClient (ha : a.ofPublishClient = true) {b : Assertion}
    (hb : b.ofPublishClient = false) : b ≠ a := by
  rintro rfl
  exact Bool.false_ne_true (hb.symm.trans ha)

theorem written_ne_error {α : Type} (ha : a.ofPublishClient = true) (x : Option α) :
    written x ≠ .error a := by
  cases x with
  | none => exact fun h => ne_of_ofPublishClient ha rfl (Except.error.inj h)
  | some x => exact nofun

namespace MsgProtocol

section

variable (ha : a.ofPublishClient = true)
include ha

theorem appendBlocks_ne_error (bs : List MessageBlock) :
    appendBlocks bs ≠ .error a := by
  induction bs with
  | nil => exact nofun
  | cons b bs ih =>
    refine bind_ne_error (require_ne_error (ne_of_ofPublishClient ha rfl)) fun _ _ => ?_
    exact bind_ne_error ih fun _ _ => nofun

theorem checkString_ne_error (heap : ℕ → Chunk) (junk : ℕ)
    (osStr : List UInt8) : checkString host heap junk osStr ≠ .error a := by
  unfold checkString
  split_ifs
  · exact ok_ne_error
  · exact require_ne_error (ne_of_ofPublishClient ha rfl)

theorem check_ne_error (heap : ℕ → Chunk) (junk : ℕ)
    (os : OutputStream) : check host heap junk os ≠ .error a :=
  bind_ne_error (appendBlocks_ne_error ha _) fun _ _ => checkString_ne_error ha heap junk _

theorem send_ne_error (heap : ℕ → Chunk) (junk : ℕ)
    (rs : ℕ → SendResult) (os : OutputStream) : send host heap junk rs os ≠ .error a := by
  cases hcheck : check host heap junk os with
  | error b =>
    intro h
    rw [send, hcheck] at h
    exact check_ne_error ha heap junk os (hcheck.trans (congrArg _ (Except.error.inj h)))
  | ok =>
    rw [send_eq hcheck]
    exact ok_ne_error

end

end MsgProtocol

def Recorded (host : ByteOrder) (bufferFile : List UInt8) : Prop :=
  ∃ records : List Record, (∀ r ∈ records, r.Sized) ∧
    bufferFile = records.flatMap (Record.encode host)

theorem recorded_nil (host : ByteOrder) : Recorded host [] := ⟨[], List.forall_mem_nil _, rfl⟩

theorem Recorded.append {file : List UInt8} (h : Recorded host file) {records : List Record}
    (hsized : ∀ r ∈ records, r.Sized) :
    Recorded host (file ++ records.flatMap (Record.encode host)) := by
  obtain ⟨earlier, hearlier, rfl⟩ := h
  exact ⟨earlier ++ records, List.forall_mem_append.mpr ⟨hearlier, hsized⟩, by simp⟩

namespace PublishClient

theorem publishLoop_ne_error (ha : a.ofPublishClient = true) {records : List Record}
    (hsized : ∀ r ∈ records, r.Sized) (rounds : ℕ) (turns : ℕ → RecordTurn)
    (rs : ℕ → SendResult) :
    publishLoop host rounds turns rs
      (fread (host.image 8 0) (records.flatMap (Record.encode host))) ≠ .error a := by
  induction records generalizing rounds turns rs with
  | nil =>
    rw [List.flatMap_nil, publishLoop_nil]
    exact nofun
  | cons r records ih =>
    obtain ⟨hr, hsized⟩ := List.forall_mem_cons.mp hsized
    cases rounds with
    | zero => exact nofun
    | succ rounds =>
      rw [List.flatMap_cons, publishLoop_cons hr]
      split_ifs
      · exact nofun
      · refine bind_ne_error ?_ fun sent _ => ?_
        · exact bind_ne_error (check_ne_error ha _ _ _) fun _ _ =>
            send_ne_error ha _ _ _ _
        · split_ifs
          · exact bind_ne_error (ih hsized _ _ _) fun _ _ => nofun
          · exact nofun
      · exact ih hsized _ _ _

theorem publishFromBuffer_ne_error (ha : a.ofPublishClient = true) {c : PublishClient}
    (hfile : Recorded host c.bufferFile) (fl : Flush) :
    publishFromBuffer host fl c ≠ .error a := by
  obtain ⟨records, hsized, hfile⟩ := hfile
  unfold publishFromBuffer
  split_ifs
  · exact nofun
  · rw [hfile]
    exact bind_ne_error (publishLoop_ne_error ha hsized _ _ _) fun _ _ => nofun
  · exact nofun

def Flush.Fails (host : ByteOrder) (fl : Flush) (bufferFile : List UInt8) : Prop :=
  ∃ records : List Record, (∀ r ∈ records, r.Sized) ∧
    bufferFile = records.flatMap (Record.encode host) ∧
    ∃ o ∈ offers ((unexpired (readable records) fl.turns).map (Record.wire host)) fl.sends,
      o.2 = .failed

theorem publishFromBuffer_cases {c : PublishClient} {fl : Flush}
    (hfile : Recorded host c.bufferFile) {r : Bool × PublishClient × List UInt8}
    (h : publishFromBuffer host fl c = .ok r) :
    (c.connectionErrorPending = true ∧ r.1 = false ∧ r.2.1 = c) ∨
    (c.connectionErrorPending = false ∧ r.1 = true ∧ Recorded host r.2.1.bufferFile ∧
      (r.2.1.connectionErrorPending = true → fl.Fails host c.bufferFile)) := by
  obtain ⟨records, hsized, hrecords⟩ := hfile
  unfold publishFromBuffer at h
  cases hpending : c.connectionErrorPending with
  | true =>
    rw [hpending, if_pos rfl] at h
    cases h
    exact Or.inl ⟨rfl, rfl, rfl⟩
  | false =>
    rw [hpending, if_neg Bool.false_ne_true] at h
    refine Or.inr ⟨rfl, ?_⟩
    split_ifs at h with hopens
    · obtain ⟨s, hloop, h⟩ := bind_eq_ok.mp h
      cases h
      refine ⟨rfl, recorded_nil host, fun hfailed => ⟨records, hsized, hrecords, ?_⟩⟩
      rw [hrecords] at hloop
      have hrounds := (length_le_flatMap_encode host records).trans (Nat.le_succ _)
      have hsent : _ = (sendEach _ _).1 := congrArg Prod.fst (publishLoop_eq hsized hrounds hloop)
      have hnot : ¬ (sendEach ((unexpired (readable records) fl.turns).map (Record.wire host))
          fl.sends).1 = true := by
        rw [← hsent]
        simpa using hfailed
      rw [sendEach_ok_iff] at hnot
      push Not at hnot
      exact hnot
    · cases h
      refine ⟨rfl, ⟨records, hsized, hrecords⟩, fun hmark => ?_⟩
      exact absurd (hpending.symm.trans hmark) Bool.false_ne_true

end PublishClient

namespace Publisher

variable {c : Publisher} {call : PublishCall}

theorem publish_ne_error (ha : a.ofPublishClient = true) (hip : c.brokerIp ≠ []) :
    publish host call c ≠ .error a := by
  refine bind_ne_error ?_ fun _ _ => ?_
  · rw [require_eq_ok.mpr hip]
    exact nofun
  refine bind_ne_error (check_ne_error ha _ _ _) fun _ _ => ?_
  refine bind_ne_error ?_ fun sent _ => ?_
  · unfold trySend
    split_ifs
    · exact send_ne_error ha _ _ _ _
    · exact nofun
  · dsimp only
    split_ifs
    · refine bind_ne_error ?_ fun _ _ => nofun
      unfold PublishClient.publishToBuffer_i
      split_ifs
      · refine bind_ne_error (appendBlocks_ne_error ha _) fun _ _ => ?_
        exact bind_ne_error (checkString_ne_error ha _ _ _) fun _ _ => nofun
      · exact nofun
    · exact nofun

theorem publish_frame {p : Published} (h : publish host call c = .ok p) :
    ∃ records : List Record, (∀ r ∈ records, r.Sized) ∧
      p.publisher = { c with
        connectionErrorPending := !(attempt host call c).1
        bufferFile := c.bufferFile ++ records.flatMap (Record.encode host) } := by
  obtain ⟨-, rfl⟩ | ⟨-, hfailed, hsized, rfl⟩ := publish_cases h
  · exact ⟨[], List.forall_mem_nil _, by simp⟩
  · exact ⟨_, hsized, by rw [hfailed]; rfl⟩

end Publisher

end ofPublishClient

namespace PublisherProcess

/-- The invariant that does not depend on where the thread is: an unmarked connection has a handler,
the file holds records, and errors were raised on connections that were made. -/
structure Guarded (host : ByteOrder) (s : PublisherProcess) : Prop where
  brokerIp : s.brokerIp ≠ []
  reactor : s.reactor = true
  recorded : Recorded host s.bufferFile
  knows : ∀ h, s.handler = some h → h.publishClient = true
  handler : s.connectionErrorPending = false → s.handler ≠ none
  faulted : ∀ k, s.faulted = some k → k ≤ s.connection

def Relies (s : PublisherProcess) : Prop :=
  match s.thread with
  | .connOk | .firstFlush | .look | .events | .probeFailed | .close => True
  | .probe => s.connectionErrorPending = false
  | .down | .connError | .reestablish | .drop | .connect => s.connectionErrorPending = true
  | .connected =>
    s.connectionErrorPending = true ∧ s.faulted ≠ some s.connection ∧ s.handler ≠ none
  | .flush => (s.enableBuffering = false → s.connectionErrorPending = false) ∧ s.handler ≠ none
  | .reestablished => s.connectionErrorPending = false ∧ s.handler ≠ none

def Exposed (s : PublisherProcess) : Prop :=
  s.thread = .probe ∨ s.thread = .reestablished ∨ (s.thread = .flush ∧ s.enableBuffering = false)

instance (s : PublisherProcess) : Decidable s.Exposed := inferInstanceAs (Decidable (_ ∨ _ ∨ _))

def Undisturbed (host : ByteOrder) (s : PublisherProcess) : PublisherEvent → Prop
  | .publish call =>
    s.Exposed → s.connectionErrorPending = false → ∀ o ∈ call.offered host, o.2 ≠ .failed
  | .turn t =>
    s.thread = .flush → s.enableBuffering = true → s.connectionErrorPending = false →
      ¬ t.flush.Fails host s.bufferFile

def KeepsError (host : ByteOrder) (s : PublisherProcess) (e : PublisherEvent) : Prop :=
  ∀ s', s.step host e = .ok s' → s.connectionErrorPending = true →
    s'.connectionErrorPending = false → s.faulted ≠ some s.connection

/-- What is to be shown of a step `x` from the state `s`: it fails no assertion of the publisher,
keeps the invariant, and does not remove the mark for an error on the connection that was made
last. -/
structure Advances (host : ByteOrder) (s : PublisherProcess)
    (x : Except Assertion PublisherProcess) : Prop where
  ne_error : ∀ a, a.ofPublishClient = true → x ≠ .error a
  guarded : ∀ s', x = .ok s' → Guarded host s' ∧ s'.Relies
  keeps : ∀ s', x = .ok s' → s.connectionErrorPending = true →
    s'.connectionErrorPending = false → s.faulted ≠ some s.connection

variable {host : ByteOrder} {s s' : PublisherProcess}

namespace Advances

theorem ok (hg : Guarded host s') (hr : s'.Relies)
    (hk : s.connectionErrorPending = true → s'.connectionErrorPending = false →
      s.faulted ≠ some s.connection) : Advances host s (.ok s') where
  ne_error := fun _ _ => nofun
  guarded := by
    rintro _ ⟨⟩
    exact ⟨hg, hr⟩
  keeps := by
    rintro _ ⟨⟩
    exact hk

theorem of_marked (hg : Guarded host s') (hr : s'.Relies)
    (hk : s.connectionErrorPending = true → s'.connectionErrorPending = true) :
    Advances host s (.ok s') :=
  ok hg hr fun hmark hclear => nomatch (hk hmark).symm.trans hclear

theorem require {a : Assertion} {p : Prop} [Decidable p] (hp : p)
    {f : Unit → Except Assertion PublisherProcess} (h : Advances host s (f ())) :
    Advances host s (require a p >>= f) := by
  rw [require_bind, if_pos hp]
  exact h

theorem bind {β : Type} {x : Except Assertion β} {f : β → Except Assertion PublisherProcess}
    (hx : ∀ a, a.ofPublishClient = true → x ≠ .error a)
    (hf : ∀ r, x = .ok r → Advances host s (f r)) : Advances host s (x >>= f) where
  ne_error := fun a ha => bind_ne_error (hx a ha) fun r hr => (hf r hr).ne_error a ha
  guarded := by
    intro s' h
    obtain ⟨r, hr, h⟩ := bind_eq_ok.mp h
    exact (hf r hr).guarded s' h
  keeps := by
    intro s' h
    obtain ⟨r, hr, h⟩ := bind_eq_ok.mp h
    exact (hf r hr).keeps s' h

end Advances

namespace Guarded

section

variable (h : Guarded host s)
include h

theorem of_keepAlive (thread : PublisherPoint) (timer enabled : Bool)
    (tryTimes unacked : ℤ) :
    Guarded host { s with
      thread := thread, timer := timer, keepAliveEnabled := enabled,
      keepAliveTryTimes := tryTimes, unackedKeepAliveProbes := unacked } :=
  ⟨h.brokerIp, h.reactor, h.recorded, h.knows, h.handler, h.faulted⟩

theorem goto (thread : PublisherPoint) :
    Guarded host { s with thread := thread } :=
  h.of_keepAlive thread s.timer s.keepAliveEnabled s.keepAliveTryTimes s.unackedKeepAliveProbes

theorem drop (hmark : s.connectionErrorPending = true) :
    Guarded host { s with handler := none } :=
  ⟨h.brokerIp, h.reactor, h.recorded, nofun,
    fun hclear => (nomatch hmark.symm.trans hclear), h.faulted⟩

theorem setConnectionError (arg : Bool)
    (hhandler : arg = false → s.handler ≠ none) : Guarded host (s.setConnectionError arg) where
  brokerIp := h.brokerIp
  reactor := h.reactor
  recorded := h.recorded
  knows := h.knows
  handler := hhandler
  faulted := by
    intro k hk
    unfold PublisherProcess.setConnectionError at hk
    split_ifs at hk with harg
    · exact (Option.some.inj hk).ge
    · exact h.faulted k hk

theorem newConnection : Guarded host s.newConnection where
  brokerIp := h.brokerIp
  reactor := h.reactor
  recorded := h.recorded
  knows := by
    rintro _ ⟨⟩
    rfl
  handler := fun _ => nofun
  faulted := fun k hk => (h.faulted k hk).trans (Nat.le_succ _)

theorem withPublisher {c : Publisher} (hip : c.brokerIp ≠ [])
    (hfile : Recorded host c.bufferFile)
    (hmarked : s.connectionErrorPending = true → c.connectionErrorPending = true) :
    Guarded host (s.withPublisher c) where
  brokerIp := hip
  reactor := h.reactor
  recorded := hfile
  knows := h.knows
  handler := by
    intro hclear
    refine h.handler ?_
    by_contra hmark
    rw [Bool.not_eq_false] at hmark
    exact Bool.false_ne_true (hclear.symm.trans (hmarked hmark))
  faulted := by
    intro k hk
    unfold PublisherProcess.withPublisher at hk
    split_ifs at hk with hnew
    · exact (Option.some.inj hk).ge
    · exact h.faulted k hk

end

end Guarded

theorem withPublisher_faulted {c : Publisher} (h : s.connectionErrorPending = true) :
    (s.withPublisher c).faulted = s.faulted := by
  unfold withPublisher
  rw [h, if_neg (by simp)]

theorem Relies.of_other (h : s.Relies) (hthread : s'.thread = s.thread)
    (hbuffering : s'.enableBuffering = s.enableBuffering) (hhandler : s'.handler = s.handler)
    (hconnection : s'.connection = s.connection)
    (hmarked : s.connectionErrorPending = true →
      s'.connectionErrorPending = true ∧ s'.faulted = s.faulted)
    (hexposed : s.Exposed → s.connectionErrorPending = false →
      s'.connectionErrorPending = false) : s'.Relies := by
  unfold Relies at h ⊢
  unfold Exposed at hexposed
  rw [hthread, hbuffering, hhandler, hconnection]
  cases hpoint : s.thread <;> rw [hpoint] at h
  case connOk | firstFlush | look | events | probeFailed | close => trivial
  case probe => exact hexposed (by simp [hpoint]) h
  case reestablished => exact ⟨hexposed (by simp [hpoint]) h.1, h.2⟩
  case down | connError | reestablish | drop | connect => exact (hmarked h).1
  case connected =>
    obtain ⟨hpending, hfaulted, hhandler⟩ := h
    exact ⟨(hmarked hpending).1, (hmarked hpending).2 ▸ hfaulted, hhandler⟩
  case flush =>
    exact ⟨fun hoff => hexposed (by simp [hpoint, hoff]) (h.1 hoff), h.2⟩

theorem publish_advances {call : PublishCall} (h : Guarded host s) (hr : s.Relies)
    (hu : s.Undisturbed host (.publish call)) : Advances host s (s.publish host call) := by
  refine .bind (fun a ha => publish_ne_error ha h.brokerIp) fun p hp => ?_
  obtain ⟨records, hsized, hframe⟩ := publish_frame hp
  have hpending : p.publisher.connectionErrorPending =
      !(attempt host call s.toPublisher).1 := by rw [hframe]
  have hmarked (hmark : s.connectionErrorPending = true) :
      p.publisher.connectionErrorPending = true := by
    rw [hpending, attempt_failed_iff.mpr (Or.inl hmark)]
    rfl
  have hexposed (hex : s.Exposed) (hmark : s.connectionErrorPending = false) :
      p.publisher.connectionErrorPending = false := by
    have hnot : ¬ (attempt host call s.toPublisher).1 = false := by
      rw [attempt_failed_iff]
      rintro (hpending | ⟨o, ho, hfailed⟩)
      · exact Bool.false_ne_true (hmark.symm.trans hpending)
      · exact hu hex hmark o ho hfailed
    rw [hpending]
    simpa using hnot
  refine .of_marked (h.withPublisher ?_ ?_ hmarked) (hr.of_other rfl ?_ rfl rfl ?_ hexposed) hmarked
  · rw [hframe]
    exact h.brokerIp
  · rw [hframe]
    exact h.recorded.append hsized
  · change p.publisher.enableBuffering = s.enableBuffering
    rw [hframe]
  · exact fun hmark => ⟨hmarked hmark, withPublisher_faulted hmark⟩

theorem Guarded.publishFromBuffer {fl : PublishClient.Flush} (h : Guarded host s)
    {r : Bool × PublisherProcess} (hs : s.publishFromBuffer host fl = .ok r) :
    Guarded host r.2 ∧ r.1 = !s.connectionErrorPending ∧ r.2.handler = s.handler ∧
      (s.connectionErrorPending = true → r.2.connectionErrorPending = true) ∧
      (s.connectionErrorPending = false → r.2.connectionErrorPending = true →
        fl.Fails host s.bufferFile) := by
  obtain ⟨r', hr', hs⟩ := bind_eq_ok.mp hs
  cases hs
  obtain ⟨hmark, hfalse, hsame⟩ | ⟨hmark, htrue, hrecorded, hfails⟩ :=
    PublishClient.publishFromBuffer_cases h.recorded hr'
  · have hmarked : r'.2.1.connectionErrorPending = true := hsame ▸ hmark
    refine ⟨h.withPublisher h.brokerIp ?_ fun _ => hmarked, ?_, rfl, fun _ => hmarked, ?_⟩
    · exact hsame ▸ h.recorded
    · rw [hmark, hfalse]
      rfl
    · exact fun hclear => nomatch hclear.symm.trans hmark
  · have hmarked {P : Prop} (hmark' : s.connectionErrorPending = true) : P :=
      nomatch hmark.symm.trans hmark'
    refine ⟨h.withPublisher h.brokerIp hrecorded hmarked, ?_, rfl, hmarked, fun _ => hfails⟩
    rw [hmark, htrue]
    rfl

theorem publishFromBuffer_ne_error (h : Guarded host s) (fl : PublishClient.Flush) (a : Assertion)
    (ha : a.ofPublishClient = true) : s.publishFromBuffer host fl ≠ .error a :=
  bind_ne_error (PublishClient.publishFromBuffer_ne_error ha h.recorded fl) fun _ _ => nofun

theorem Guarded.enableKeepAlive (h : Guarded host s) (t : ThreadTurn) :
    Guarded host (s.enableKeepAlive t) := by
  unfold PublisherProcess.enableKeepAlive
  dsimp only
  split_ifs
  all_goals exact h.of_keepAlive ..

theorem connectionErrorPending_enableKeepAlive (t : ThreadTurn) :
    (s.enableKeepAlive t).connectionErrorPending = s.connectionErrorPending := by
  unfold enableKeepAlive
  dsimp only
  split_ifs <;> rfl

theorem sendKeepAliveProbe_ne_error (hclear : s.connectionErrorPending = false) (call : ProbeCall)
    (a : Assertion) (ha : a.ofPublishClient = true) :
    s.sendKeepAliveProbe host call ≠ .error a := by
  refine bind_ne_error ?_ fun _ _ => ?_
  · rw [require_eq_ok.mpr hclear]
    exact nofun
  · dsimp only
    split_ifs
    · exact nofun
    · refine bind_ne_error (written_ne_error ha _) fun _ _ => ?_
      refine bind_ne_error (written_ne_error ha _) fun _ _ => ?_
      exact bind_ne_error (send_ne_error ha _ _ _ _) fun _ _ => nofun

theorem snd_of_sendKeepAliveProbe {call : ProbeCall} {r : Bool × PublisherProcess}
    (h : s.sendKeepAliveProbe host call = .ok r) :
    r.2 = { s with unackedKeepAliveProbes := s.unackedKeepAliveProbes + 1 } := by
  obtain ⟨-, -, h⟩ := bind_eq_ok.mp h
  dsimp only at h
  split_ifs at h
  · cases h
    rfl
  · obtain ⟨_, -, h⟩ := bind_eq_ok.mp h
    obtain ⟨_, -, h⟩ := bind_eq_ok.mp h
    obtain ⟨_, -, h⟩ := bind_eq_ok.mp h
    cases h
    rfl

theorem handleInput_ne_error {h : PublishClientHandler} (hknows : h.publishClient = true)
    (result : ParseResult) (messageType : UInt8) (a : Assertion) :
    h.handleInput result messageType ≠ .error a := by
  unfold PublishClientHandler.handleInput
  cases result <;> simp [require, hknows, bind, Except.bind, pure, Except.pure]

theorem dispatch_advances (h : Guarded host s) (hr : s.Relies) (d : Dispatch) :
    Advances host s (s.dispatch d) := by
  cases d with
  | idle => exact .of_marked (h.goto .look) trivial id
  | timeout =>
    unfold dispatch
    split_ifs with htimer
    · exact .of_marked (h.goto .probe) htimer.2 id
    · exact .of_marked h hr id
  | input result messageType =>
    rw [dispatch]
    split
    · exact .of_marked h hr id
    · next handler hhandler =>
      refine .bind (fun a _ => ?_) fun ok _ => ?_
      · exact handleInput_ne_error (h.knows handler hhandler) result messageType a
      · refine .of_marked (h.of_keepAlive ..) ?_ id
        cases ok <;> trivial

theorem connect_advances (h : Guarded host s) (hpoint : s.thread = .connect)
    (hmark : s.connectionErrorPending = true) (c : ConnectResult) :
    Advances host s (s.connect c) := by
  have hrelies {s' : PublisherProcess} (hpoint : s'.thread = .connect)
      (hmark : s'.connectionErrorPending = true) : s'.Relies := by
    unfold Relies
    rw [hpoint]
    exact hmark
  cases c with
  | refused => exact .of_marked (h.drop hmark) (hrelies hpoint hmark) id
  | notActivated => exact .of_marked h.newConnection (hrelies hpoint hmark) id
  | connected =>
    refine .require nofun (.of_marked (h.newConnection.goto .connected) ⟨hmark, ?_, nofun⟩ id)
    -- the errors so far were raised on earlier connections
    intro hfaulted
    exact absurd (h.faulted _ hfaulted) (Nat.not_succ_le_self _)

theorem turn_advances {t : ThreadTurn} (h : Guarded host s) (hr : s.Relies)
    (hu : s.Undisturbed host (.turn t)) : Advances host s (s.turn host t) := by
  unfold Relies at hr
  unfold turn
  cases hpoint : s.thread <;> rw [hpoint] at hr <;> dsimp only at hr ⊢
  case connOk =>
    refine .of_marked ((h.enableKeepAlive t).goto .firstFlush) trivial fun hmark => ?_
    exact (connectionErrorPending_enableKeepAlive t).trans hmark
  case firstFlush =>
    split_ifs with hbuffering
    · refine .bind (publishFromBuffer_ne_error h t.flush) fun r hs => ?_
      obtain ⟨hg, -, -, hmarked, -⟩ := h.publishFromBuffer hs
      exact .of_marked (hg.goto .look) trivial hmarked
    · exact .of_marked (h.goto .look) trivial id
  case look =>
    split_ifs with hmark
    · exact .of_marked (h.goto .down) hmark id
    · exact .of_marked (h.goto .events) trivial id
  case events => exact dispatch_advances h (by unfold Relies; rw [hpoint]; trivial) t.dispatch
  case probe =>
    refine .bind (sendKeepAliveProbe_ne_error hr t.probe) fun r hs => ?_
    rw [snd_of_sendKeepAliveProbe hs]
    refine .of_marked (h.of_keepAlive ..) ?_ id
    cases r.1 <;> trivial
  case probeFailed =>
    exact .of_marked ((h.setConnectionError true nofun).of_keepAlive ..) trivial fun _ => rfl
  case close =>
    exact .of_marked (((h.setConnectionError true nofun).drop rfl).goto .events) trivial
      fun _ => rfl
  case down => exact .require hr (.of_marked (h.goto .connError) hr id)
  case connError =>
    unfold disableKeepAlive
    rw [require_bind, if_pos h.reactor]
    exact .of_marked (h.of_keepAlive ..) hr id
  case reestablish => exact .require hr (.of_marked (h.of_keepAlive ..) hr id)
  case drop =>
    split_ifs
    · exact .of_marked ((h.drop hr).goto .connect) hr id
    · exact .of_marked (((h.setConnectionError true nofun).drop rfl).goto .connect) rfl fun _ => rfl
  case connect => exact connect_advances h hpoint hr t.connect
  case connected =>
    obtain ⟨-, hfaulted, hhandler⟩ := hr
    refine .ok ((h.setConnectionError false fun _ => hhandler).goto .flush) ?_ fun _ _ => hfaulted
    exact ⟨fun _ => rfl, hhandler⟩
  case flush =>
    split_ifs with hbuffering
    · refine .bind (publishFromBuffer_ne_error h t.flush) fun r hs => ?_
      obtain ⟨hg, hreturn, hhandler, hmarked, hfails⟩ := h.publishFromBuffer hs
      refine .of_marked (hg.goto _) ?_ hmarked
      rw [hreturn]
      cases hmark : s.connectionErrorPending with
      | true => exact hmarked hmark
      | false =>
        refine ⟨?_, hhandler ▸ hr.2⟩
        by_contra hnot
        rw [Bool.not_eq_false] at hnot
        exact hu hpoint hbuffering hmark (hfails hmark hnot)
    · rw [Bool.not_eq_true] at hbuffering
      exact .of_marked (h.goto .reestablished) ⟨hr.1 hbuffering, hr.2⟩ id
  case reestablished =>
    refine .ok ((h.setConnectionError false fun _ => hr.2).goto .connOk) trivial fun hmark => ?_
    exact nomatch hr.1.symm.trans hmark

theorem step_advances {e : PublisherEvent} (h : Guarded host s) (hr : s.Relies)
    (hu : s.Undisturbed host e) : Advances host s (s.step host e) := by
  cases e with
  | publish call => exact publish_advances h hr hu
  | turn t => exact turn_advances h hr hu

theorem guarded_activated {brokerIp : List UInt8} (hip : brokerIp ≠ []) (enableBuffering : Bool)
    {bufferFile : List UInt8} (hfile : Recorded host bufferFile) :
    Guarded host (activated brokerIp enableBuffering bufferFile) where
  brokerIp := hip
  reactor := rfl
  recorded := hfile
  knows := by
    rintro _ ⟨⟩
    rfl
  handler := fun _ => nofun
  faulted := nofun

/-- **The threads of a publisher.** -/
theorem run_of_undisturbed (host : ByteOrder) (brokerIp : List UInt8) (hip : brokerIp ≠ [])
    (enableBuffering : Bool) (bufferFile : List UInt8) (hfile : Recorded host bufferFile)
    (es : List PublisherEvent)
    (h : EachStep (step host) (Undisturbed host)
      (activated brokerIp enableBuffering bufferFile) es) :
    (∀ a, a.ofPublishClient = true →
      runSteps (step host) (activated brokerIp enableBuffering bufferFile) es ≠ .error a) ∧
    EachStep (step host) (KeepsError host) (activated brokerIp enableBuffering bufferFile) es := by
  have hstart : Guarded host (activated brokerIp enableBuffering bufferFile) ∧
      (activated brokerIp enableBuffering bufferFile).Relies :=
    ⟨guarded_activated hip enableBuffering hfile, trivial⟩
  have hstep (s : PublisherProcess) (e : PublisherEvent) (s' : PublisherProcess)
      (hI : Guarded host s ∧ s.Relies) (hu : s.Undisturbed host e) (hs : s.step host e = .ok s') :
      Guarded host s' ∧ s'.Relies := (step_advances hI.1 hI.2 hu).guarded s' hs
  refine ⟨fun a ha => ?_, ?_⟩
  · exact runSteps_ne_error (I := fun s => Guarded host s ∧ s.Relies) hstep
      (fun s e hI hu => (step_advances hI.1 hI.2 hu).ne_error a ha) hstart h
  · exact EachStep.of_invariant (I := fun s => Guarded host s ∧ s.Relies) hstep
      (fun s e hI hu => (step_advances hI.1 hI.2 hu).keeps) hstart h

def calmTurn (d : Dispatch) : ThreadTurn where
  schedules := true
  subscriberTryTimes := 3
  dispatch := d
  probe := ⟨fun _ => zeroChunk, fun _ => zeroChunk, 0, fun _ => .accepted 100⟩
  connect := .connected
  flush := PublishClient.minuteFlush (.accepted 100)

def toEvents : List PublisherEvent := List.replicate 3 (.turn (calmTurn .idle))

def toFlush : List PublisherEvent :=
  .turn (calmTurn (.input .error 0)) :: List.replicate 9 (.turn (calmTurn .idle))

def calmRun : List PublisherEvent :=
  toEvents ++
    .turn (calmTurn .timeout) :: .publish (topicPublish (.accepted 100)) ::
    .turn (calmTurn .idle) :: toFlush ++
    [.publish (topicPublish (.accepted 100)), .turn (calmTurn .idle),
      .turn (calmTurn .idle)]

def probeRace : List PublisherEvent :=
  toEvents ++
    [.turn (calmTurn .timeout), .publish (topicPublish .failed), .turn (calmTurn .idle)]

def removalRace : List PublisherEvent :=
  toEvents ++ toFlush ++ [.publish (topicPublish .failed), .turn (calmTurn .idle)]

theorem undisturbed_calmTurn (d : Dispatch) (s : PublisherProcess) :
    s.Undisturbed .little (.turn (calmTurn d)) := by
  rintro - - - ⟨records, -, -, o, ho, hfailed⟩
  have hsends {bs : List (List UInt8)} {o : List UInt8 × SendResult}
      (ho : o ∈ offers bs (calmTurn d).flush.sends) : o.2 = .accepted 100 := by
    induction bs with
    | nil => exact absurd ho List.not_mem_nil
    | cons b bs ih =>
      obtain rfl | ho := List.mem_cons.mp ho
      · rfl
      · exact ih ho
  exact absurd ((hsends ho).symm.trans hfailed) nofun

theorem run_of_undisturbed_reconnected :
    (∃ s, runSteps (step .little) (activated [49] true []) calmRun = .ok s ∧
      (s.thread, s.connection, s.connectionErrorPending) = (.connOk, 1, false)) ∧
    EachStep (step .little) (KeepsError .little) (activated [49] true []) calmRun := by
  refine ⟨map_eq_ok.mp (by decide +kernel), ?_⟩
  refine (run_of_undisturbed .little [49] (by decide) true [] (recorded_nil _) calmRun ?_).2
  have hoffered : ∀ o ∈ (topicPublish (.accepted 100)).offered .little,
      o.2 ≠ .failed := by decide +kernel
  have hpublish (s : PublisherProcess) :
      s.Undisturbed .little (.publish (topicPublish (.accepted 100))) :=
    fun _ _ => hoffered
  refine eachStep_of_forall_mem ?_ _
  simp [calmRun, toEvents, toFlush, undisturbed_calmTurn, hpublish]

theorem publish_races_thread :
    runSteps (step .little) (activated [49] false []) probeRace = .error .probeConnection ∧
    ∃ s s', runSteps (step .little) (activated [49] false []) removalRace = .ok s ∧
      s.step .little (.turn (calmTurn .idle)) = .ok s' ∧
      s.connectionErrorPending = true ∧ s'.connectionErrorPending = false ∧
      s.faulted = some s.connection := by
  refine ⟨by decide +kernel, ?_⟩
  obtain ⟨s, hrun, hs⟩ := map_eq_ok.mp (by decide +kernel :
    (runSteps (step .little) (activated [49] false []) removalRace).map
      (fun s => (s.thread, s.connectionErrorPending, s.faulted, s.connection)) =
        .ok (.reestablished, true, some 1, 1))
  obtain ⟨hthread, hpending, hfaulted, hconnection⟩ : _ ∧ _ ∧ _ ∧ _ := by
    simpa only [Prod.mk.injEq] using hs
  refine ⟨s, { s.setConnectionError false with thread := .connOk }, hrun, ?_, hpending, rfl,
    hfaulted.trans (congrArg some hconnection.symm)⟩
  rw [step, turn, hthread]

end PublisherProcess

end Icm.Messaging
