import Icm.Messaging.PublishClient

/-!
# Publishing a message

`PublishClient::publish` (`msg/PublishClient.cpp`) checks the message and then, under the mutex,
sends it, unless the connection is marked as failed.
-/

namespace Icm.Messaging

open Icm.Lib Icm.Stream

/-- A call of `publish`: the message, whose size is an `int`, the results of the send calls, whether
the buffer file can be opened, the time, and the memory in which the message is checked, three
times. -/
structure PublishCall where
  os : OutputStream
  length_lt : os.totalLength < 2 ^ 31
  sends : ℕ → SendResult
  opens : Bool
  now : BitVec 64
  heap₁ : ℕ → Chunk
  heap₂ : ℕ → Chunk
  heap₃ : ℕ → Chunk
  junk : ℕ

theorem totalLength_patchLength (host : ByteOrder) (os : OutputStream) :
    (patchLength host os).totalLength = os.totalLength := by
  rw [OutputStream.totalLength, OutputStream.totalLength, patchLength_blocks, os.blocks_eq_cons]
  rfl

namespace PublishCall

variable (host : ByteOrder) (call : PublishCall)

def message (tried : Bool) : OutputStream :=
  if tried then patchLength host call.os else call.os

def bufferCall (tried : Bool) : BufferCall where
  opens := call.opens
  now := call.now
  heap := call.heap₃
  junk := call.junk
  os := call.message host tried
  length_lt := by
    unfold message
    split_ifs
    · exact totalLength_patchLength host call.os ▸ call.length_lt
    · exact call.length_lt

def offered : List (List UInt8 × SendResult) :=
  offers (Rpc.IcmProtocol.sentBlocks host call.os) call.sends

end PublishCall

/-- `PublishClient` with what `publish` reads besides the buffer file and the mark on the
connection. -/
structure Publisher extends PublishClient where
  brokerIp : List UInt8
  enableBuffering : Bool
  deriving DecidableEq

/-- What a call of `publish` returned, the publisher afterwards, and the bytes that the socket
took. -/
structure Published where
  result : ℤ
  publisher : Publisher
  handed : List UInt8
  deriving DecidableEq

namespace Publisher

variable (host : ByteOrder) (call : PublishCall) (c : Publisher)

def trySend :
    Except Assertion (Bool × List UInt8) :=
  if c.connectionErrorPending = false then
    MsgProtocol.send host call.heap₂ call.junk call.sends call.os
  else .ok (false, [])

def publish :
    Except Assertion Published := do
  require .brokerIp (c.brokerIp ≠ [])
  MsgProtocol.check host call.heap₁ call.junk call.os
  let sent ← trySend host call c
  let connectionErrorPending := !sent.1
  if c.enableBuffering = true ∧ connectionErrorPending = true then do
    let bufferFile ← PublishClient.publishToBuffer_i host c.bufferFile
      (call.bufferCall host !c.connectionErrorPending)
    return ⟨-1, { c with
      connectionErrorPending := connectionErrorPending, bufferFile := bufferFile }, sent.2⟩
  else
    return ⟨0, { c with connectionErrorPending := connectionErrorPending }, sent.2⟩

def attempt : Bool × List UInt8 :=
  if c.connectionErrorPending then (false, [])
  else sendEach (Rpc.IcmProtocol.sentBlocks host call.os) call.sends

variable {host : ByteOrder} {call : PublishCall} {c : Publisher} {p : Published}

theorem trySend_eq {sent : Bool × List UInt8} (h : trySend host call c = .ok sent) :
    sent = attempt host call c := by
  unfold trySend at h
  unfold attempt
  cases hpending : c.connectionErrorPending with
  | true =>
    rw [hpending, if_neg (by decide)] at h
    exact (Except.ok.inj h).symm
  | false =>
    rw [hpending, if_pos rfl] at h
    have hcheck : MsgProtocol.check host call.heap₂ call.junk call.os = .ok () :=
      (bind_eq_ok.mp h).choose_spec.1
    rw [MsgProtocol.send_eq hcheck] at h
    exact (Except.ok.inj h).symm

theorem publish_cases (h : publish host call c = .ok p) :
    (¬ (c.enableBuffering = true ∧ (attempt host call c).1 = false) ∧
      p = ⟨0, { c with connectionErrorPending := !(attempt host call c).1 },
        (attempt host call c).2⟩) ∨
    (c.enableBuffering = true ∧ (attempt host call c).1 = false ∧
      (∀ r ∈ (call.bufferCall host !c.connectionErrorPending).record, r.Sized) ∧
      p = ⟨-1, { c with
          connectionErrorPending := true
          bufferFile := c.bufferFile ++
            (call.bufferCall host !c.connectionErrorPending).record.flatMap (Record.encode host) },
        (attempt host call c).2⟩) := by
  obtain ⟨-, -, h⟩ := bind_eq_ok.mp h
  obtain ⟨-, -, h⟩ := bind_eq_ok.mp h
  obtain ⟨sent, hsent, h⟩ := bind_eq_ok.mp h
  obtain rfl := trySend_eq hsent
  simp only [Bool.not_eq_true'] at h
  split_ifs at h with hbuffer
  · obtain ⟨bufferFile, hfile, h⟩ := bind_eq_ok.mp h
    obtain ⟨rfl, hsized⟩ := PublishClient.publishToBuffer_i_eq hfile
    refine Or.inr ⟨hbuffer.1, hbuffer.2, hsized, ?_⟩
    rw [← Except.ok.inj h, hbuffer.2]
    rfl
  · exact Or.inl ⟨hbuffer, (Except.ok.inj h).symm⟩

end Publisher

namespace Published

variable (host : ByteOrder) (call : PublishCall) (c : Publisher) (p : Published)

def Handed : Prop :=
  c.connectionErrorPending = false ∧ p.handed = (patchLength host call.os).bytes

def Appended : Prop :=
  ∃ tried, p.publisher.bufferFile =
    c.bufferFile ++ (⟨call.now, (call.message host tried).bytes⟩ : Record).encode host

def Honest : Prop :=
  (p.result = 0 ∧ p.Handed host call c) ∨
    (p.result = -1 ∧ (c.enableBuffering = true → p.Appended host call c))

end Published

namespace PublishCall

def Served (host : ByteOrder) (call : PublishCall) (c : Publisher) : Prop :=
  (c.connectionErrorPending = false ∧ ∀ o ∈ call.offered host, o.2.Covers o.1) ∨
    (c.enableBuffering = true ∧ call.opens = true ∧
      (c.connectionErrorPending = true ∨ ∃ o ∈ call.offered host, o.2 = .failed))

instance (host : ByteOrder) (call : PublishCall) (c : Publisher) :
    Decidable (call.Served host c) :=
  inferInstanceAs (Decidable (_ ∨ _))

end PublishCall

namespace Publisher

variable {host : ByteOrder} {call : PublishCall} {c : Publisher} {p : Published}

theorem attempt_failed_iff :
    (attempt host call c).1 = false ↔
      c.connectionErrorPending = true ∨ ∃ o ∈ call.offered host, o.2 = .failed := by
  unfold attempt
  split_ifs with hpending
  · exact iff_of_true rfl (Or.inl hpending)
  · rw [or_iff_right hpending, ← Bool.not_eq_true, sendEach_ok_iff]
    push Not
    rfl

theorem attempt_eq_bytes_iff (hpending : c.connectionErrorPending = false) :
    (attempt host call c).2 = (patchLength host call.os).bytes ↔
      ∀ o ∈ call.offered host, o.2.Covers o.1 := by
  have hne : ∀ b ∈ Rpc.IcmProtocol.sentBlocks host call.os, b ≠ [] := by
    intro b hb
    obtain ⟨block, hblock, rfl⟩ := List.mem_map.mp hb
    rw [← List.length_pos_iff, MessageBlock.length_contents]
    have := of_decide_eq_true (List.mem_filter.mp hblock).2
    omega
  rw [attempt, if_neg (by simp [hpending]), ← Rpc.IcmProtocol.flatten_sentBlocks,
    sendEach_eq_flatten_iff_of_ne_nil hne]
  rfl

theorem attempt_of_covers (hpending : c.connectionErrorPending = false)
    (h : ∀ o ∈ call.offered host, o.2.Covers o.1) : (attempt host call c).1 = true := by
  rw [attempt, if_neg (by simp [hpending]), sendEach_of_covers h]

theorem appended_iff {handed : List UInt8} (tried pending : Bool) :
    Published.Appended host call c ⟨-1, { c with
        connectionErrorPending := pending
        bufferFile := c.bufferFile ++
          (call.bufferCall host tried).record.flatMap (Record.encode host) }, handed⟩ ↔
      call.opens = true := by
  cases hopens : call.opens with
  | false =>
    have hrecord : (call.bufferCall host tried).record = [] := by
      simp [BufferCall.record, PublishCall.bufferCall, hopens]
    refine iff_of_false ?_ Bool.false_ne_true
    rintro ⟨tried', happend⟩
    refine Record.encode_ne_nil host _ (List.append_cancel_left (happend.symm.trans ?_))
    rw [hrecord]
    rfl
  | true =>
    refine iff_of_true ⟨tried, ?_⟩ rfl
    simp [BufferCall.record, PublishCall.bufferCall, hopens]

theorem honest_iff_served (h : publish host call c = .ok p) :
    p.Honest host call c ↔ call.Served host c := by
  unfold Published.Honest PublishCall.Served
  obtain ⟨hzero, rfl⟩ | ⟨hbuffering, hfailed, -, rfl⟩ := publish_cases h
  · -- it returned `0`: the message went out, or it went nowhere
    have hnot : ¬ (c.enableBuffering = true ∧ call.opens = true ∧
        (c.connectionErrorPending = true ∨ ∃ o ∈ call.offered host, o.2 = .failed)) :=
      fun hserved => hzero ⟨hserved.1, attempt_failed_iff.mpr hserved.2.2⟩
    rw [or_iff_left hnot, or_iff_left (by simp)]
    refine ⟨fun hhanded => ⟨hhanded.2.1, ?_⟩, fun hcovers => ⟨rfl, hcovers.1, ?_⟩⟩
    · exact (attempt_eq_bytes_iff hhanded.2.1).mp hhanded.2.2
    · exact (attempt_eq_bytes_iff hcovers.1).mpr hcovers.2
  · -- it returned `-1`: the attempt failed
    have hnot : ¬ (c.connectionErrorPending = false ∧
        ∀ o ∈ call.offered host, o.2.Covers o.1) := fun hcovers =>
      Bool.false_ne_true (hfailed.symm.trans (attempt_of_covers hcovers.1 hcovers.2))
    rw [or_iff_right hnot, or_iff_right (by simp), appended_iff]
    refine ⟨fun h => ⟨hbuffering, h.2 hbuffering, attempt_failed_iff.mp hfailed⟩, fun h => ?_⟩
    exact ⟨rfl, fun _ => h.2.1⟩

end Publisher

/-- A call of `publish`, or the mark that a failure of the connection sets and a new connection
removes. -/
inductive PublishEvent
  | publish (call : PublishCall)
  | setConnectionError (arg : Bool)

namespace Publisher

def step (host : ByteOrder) (c : Publisher) : PublishEvent → Except Assertion Publisher
  | .publish call => (publish host call c).map Published.publisher
  | .setConnectionError arg => .ok { c with connectionErrorPending := arg }

end Publisher

namespace PublishEvent

def Honest (host : ByteOrder) (c : Publisher) : PublishEvent → Prop
  | publish call => ∀ p, c.publish host call = .ok p → p.Honest host call c
  | setConnectionError _ => True

def Served (host : ByteOrder) (c : Publisher) : PublishEvent → Prop
  | publish call => call.Served host c
  | setConnectionError _ => True

instance (host : ByteOrder) (c : Publisher) (e : PublishEvent) : Decidable (e.Served host c) :=
  match e with
  | publish call => inferInstanceAs (Decidable (call.Served host c))
  | setConnectionError _ => inferInstanceAs (Decidable True)

end PublishEvent

namespace Publisher

/-- **What `publish` returns.** -/
theorem publish_honest_iff (host : ByteOrder) (c c' : Publisher) (es : List PublishEvent)
    (hrun : runSteps (step host) c es = .ok c') :
    EachStep (step host) (PublishEvent.Honest host) c es ↔
      EachStep (step host) (PublishEvent.Served host) c es := by
  refine eachStep_congr (fun c e c' hstep => ?_) hrun
  cases e with
  | setConnectionError arg => exact Iff.rfl
  | publish call =>
    obtain ⟨p, hp, -⟩ := map_eq_ok.mp hstep
    rw [PublishEvent.Served, ← honest_iff_served hp, PublishEvent.Honest, hp]
    exact ⟨fun h => h p rfl, fun h p' hp' => Except.ok.inj hp' ▸ h⟩

def topicPublish (r : SendResult) : PublishCall where
  os := PublishClient.topicCall.os
  length_lt := PublishClient.topicCall.length_lt
  sends := fun _ => r
  opens := true
  now := 1000
  heap₁ := fun _ => zeroChunk
  heap₂ := fun _ => zeroChunk
  heap₃ := fun _ => zeroChunk
  junk := 0

theorem publish_honest_buffered :
    EachStep (step .little) (PublishEvent.Honest .little) ⟨⟨false, []⟩, [49], true⟩
      [.publish (topicPublish (.accepted 100)), .publish (topicPublish .failed),
        .publish (topicPublish (.accepted 100))] := by
  obtain ⟨c', hrun, -⟩ := map_eq_ok.mp (by decide +kernel :
    (runSteps (step .little) ⟨⟨false, []⟩, [49], true⟩
      [.publish (topicPublish (.accepted 100)), .publish (topicPublish .failed),
        .publish (topicPublish (.accepted 100))]).map
          (fun c => c.connectionErrorPending) = .ok true)
  exact (publish_honest_iff .little _ c' _ hrun).mpr (by decide +kernel)

theorem publish_lost_unbuffered :
    ∃ c : Publisher,
      publish .little (topicPublish .failed) ⟨⟨false, []⟩, [49], false⟩ = .ok ⟨0, c, []⟩ ∧
      publish .little (topicPublish (.accepted 100)) c = .ok ⟨0, c, []⟩ ∧
      ¬ Published.Honest .little (topicPublish .failed) ⟨⟨false, []⟩, [49], false⟩ ⟨0, c, []⟩ ∧
      ¬ Published.Honest .little (topicPublish (.accepted 100)) c ⟨0, c, []⟩ := by
  refine ⟨⟨⟨true, []⟩, [49], false⟩, by decide +kernel, by decide +kernel, ?_, ?_⟩
  · rw [honest_iff_served (by decide +kernel)]
    decide +kernel
  · rw [honest_iff_served (by decide +kernel)]
    decide +kernel

end Publisher

end Icm.Messaging
