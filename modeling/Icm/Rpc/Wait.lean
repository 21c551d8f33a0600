import Icm.Rpc.History
import Icm.Rpc.Mux

/-!
# Waiting for a reply

Class `WaitOnRead` of `icm/WaitStrategy.cpp` on a connection with a `MuxedTms`, together with
`IcmTransport::handleInputI` (`icm/Pluggable.cpp`) and the dispatchers of `icm/ReplyDispatcher.cpp`.
-/

namespace Icm.Rpc

open Icm.Lib Icm.Stream IcmProtocol

variable {σ : Type}

def Dispatcher.isSynch : Dispatcher → Bool
  | synch _ => true
  | asynch _ => false

/-- A connection: the message that it is receiving, the dispatchers of the outstanding requests,
the member `mReplyReceived` of each synchronous dispatcher, and the socket. -/
structure ClientTransport (σ : Type) where
  messageState : IcmMessageState
  tms : MuxedTms
  replyReceived : DispatcherPtr → Bool
  socket : σ

inductive WaitResult
  | failed
  | returned
  | assertionFailed
  deriving DecidableEq, Repr

inductive Incoming
  | failure
  | part
  | request (answered : Bool)
  | reply (requestId replyStatus : ℕ)
  | other
  deriving DecidableEq, Repr

section Calls

variable (host : ByteOrder) (recv : ℕ → σ → Recv × σ) (kind : DispatcherPtr → Dispatcher)

namespace ClientTransport

def tabled (t : ClientTransport σ) (turn : Turn) : Turn :=
  { turn with
    app := { turn.app with
      dispatcher := fun requestId => (t.tms.dispatcherTable (.ofNat requestId)).map kind } }

def dispatched (t : ClientTransport σ) : Decoded → ClientTransport σ
  | .reply requestId replyStatus (some _) =>
    match t.tms.dispatchReply (.ofNat requestId) (.ofNat replyStatus) with
    | (some (rd, _), tms) =>
      { t with
        tms := tms
        replyReceived :=
          if (kind rd).isSynch then Function.update t.replyReceived rd true else t.replyReceived }
    | (none, _) => t
  | _ => t

def handleInputI (t : ClientTransport σ) (turn : Turn) : Bool × ClientTransport σ :=
  let r := IcmTransport.handleInputI host recv (t.tabled kind turn) t.messageState t.socket
  (r.1.1.2, { t.dispatched kind r.1.1.1 with messageState := r.1.2, socket := r.2 })

def incoming (t : ClientTransport σ) (turn : Turn) : Incoming :=
  match handleInput host recv turn.heap t.messageState t.socket with
  | ((.error, _), _) => .failure
  | ((.incomplete, _), _) => .part
  | ((.complete, state), _) =>
    if state.messageType = MessageType.request.toOctet then
      .request (processServerRequest host turn
        (state.stream.transferContents host turn.clone).1).2
    else if state.messageType = MessageType.reply.toOctet then
      match (parseReply host turn.junk state.stream).1 with
      | none => .failure
      | some (requestId, replyStatus) => .reply requestId replyStatus
    else if state.messageType = MessageType.error.toOctet then .failure
    else .other

end ClientTransport

def WaitOnRead.wait (t : ClientTransport σ) (turn : Turn) (rd : DispatcherPtr) :
    WaitResult × ClientTransport σ :=
  let (replyComplete, t) := t.handleInputI host recv kind turn
  if replyComplete then (if t.replyReceived rd then .returned else .assertionFailed, t)
  else (.failed, t)

namespace ClientTransport

variable (t : ClientTransport σ)

def GoesOn : Incoming → Prop
  | .failure => False
  | .part => True
  | .request answered => answered = true
  | .reply requestId _ => (t.tms.dispatcherTable (.ofNat requestId)).isSome
  | .other => True

def Answers (rd : DispatcherPtr) : Incoming → Prop
  | .reply requestId _ => t.tms.dispatcherTable (.ofNat requestId) = some rd
  | _ => False

variable {t}

variable {rd : DispatcherPtr}

theorem dispatched_reply {requestId replyStatus : ℕ} {arguments : List (Bool × Option Value)}
    (hrd : (kind rd).isSynch = true) :
    (t.dispatched kind (.reply requestId replyStatus (some arguments))).replyReceived rd = true ↔
      t.replyReceived rd = true ∨ t.tms.dispatcherTable (.ofNat requestId) = some rd := by
  cases htable : t.tms.dispatcherTable (.ofNat requestId) with
  | none => simp [dispatched, MuxedTms.dispatchReply, htable]
  | some rd' =>
    simp only [dispatched, MuxedTms.dispatchReply, htable, Option.some.injEq]
    by_cases hsame : rd' = rd
    · subst hsame
      simp [hrd]
    · split_ifs
      · simp [Function.update_of_ne (Ne.symm hsame), hsame]
      · simp [hsame]

theorem processReply_tabled (t : ClientTransport σ) {turn : Turn} {stream : InputStream}
    {requestId replyStatus : ℕ}
    (hparse : (parseReply host turn.junk stream).1 = some (requestId, replyStatus)) :
    ∃ arguments, (IcmTransport.processReply host (t.tabled kind turn) stream).1 =
        (.reply requestId replyStatus arguments, arguments.isSome) ∧
      arguments.isSome = (t.tms.dispatcherTable (.ofNat requestId)).isSome := by
  rcases hp : parseReply host turn.junk stream with ⟨header, stream'⟩
  rw [hp] at hparse
  obtain rfl : header = some (requestId, replyStatus) := hparse
  simp only [IcmTransport.processReply, tabled, hp]
  cases t.tms.dispatcherTable (.ofNat requestId) with
  | none => exact ⟨none, rfl, rfl⟩
  | some rd =>
    cases hkind : kind rd with
    | synch reads => exact ⟨some _, by simp only [Option.map_some, hkind]; rfl, rfl⟩
    | asynch reads => exact ⟨some _, by simp only [Option.map_some, hkind]; rfl, rfl⟩

theorem dispatched_request (turn : Turn) (input : InputStream) :
    t.dispatched kind (processServerRequest host turn input).1 = t := by
  simp only [processServerRequest]
  split_ifs
  · cases turn.app.find (ServerRequest.parseHeader host turn.junk input).1 with
    | none => rfl
    | some reads => rfl
  · rfl

theorem handleInputI_spec (t : ClientTransport σ) (turn : Turn)
    (hrd : (kind rd).isSynch = true) :
    ((t.handleInputI host recv kind turn).1 = true ↔ t.GoesOn (t.incoming host recv turn)) ∧
      ((t.handleInputI host recv kind turn).2.replyReceived rd = true ↔
          t.replyReceived rd = true ∨ t.Answers rd (t.incoming host recv turn)) := by
  rcases hin : handleInput host recv turn.heap t.messageState t.socket with
    ⟨⟨progress, state⟩, s'⟩
  have hin' : handleInput host recv (t.tabled kind turn).heap t.messageState t.socket =
    ((progress, state), s') := hin
  simp only [handleInputI, incoming, IcmTransport.handleInputI, hin, hin']
  cases progress with
  | error => simp [GoesOn, Answers, dispatched]
  | incomplete => simp [GoesOn, Answers, dispatched]
  | complete =>
    simp only [IcmTransport.processMessage]
    split_ifs with hrequest hreply herror
    · have hserve : processServerRequest host (t.tabled kind turn) =
          processServerRequest host turn := rfl
      have hclone : (t.tabled kind turn).clone = turn.clone := rfl
      simp only [hserve, hclone, dispatched_request]
      simp [GoesOn, Answers]
    · rcases hparse : (parseReply host turn.junk state.stream).1 with _ | ⟨id, status⟩
      · have hproc : (IcmTransport.processReply host (t.tabled kind turn) state.stream).1 =
            (.nothing, false) := by
          rcases hp : parseReply host turn.junk state.stream with ⟨header, stream⟩
          rw [hp] at hparse
          obtain rfl : header = none := hparse
          simp only [IcmTransport.processReply, tabled, hp]
        simp [hproc, GoesOn, Answers, dispatched]
      · obtain ⟨arguments, hproc, hsome⟩ := processReply_tabled host kind t hparse
        simp only [hproc, hsome, GoesOn, Answers]
        refine ⟨trivial, ?_⟩
        cases arguments with
        | some arguments => exact dispatched_reply kind hrd
        | none =>
          have hnone : t.tms.dispatcherTable (.ofNat id) = none :=
            Option.isSome_eq_false_iff.mp hsome.symm |> Option.isNone_iff_eq_none.mp
          simp [dispatched, hnone]
    · simp [GoesOn, Answers, dispatched]
    · simp [GoesOn, Answers, dispatched]

def Right (t : ClientTransport σ) (turn : Turn) (rd : DispatcherPtr) : Prop :=
  let r := WaitOnRead.wait host recv kind t turn rd
  r.1 ≠ .assertionFailed ∧ (r.1 = .returned ↔ r.2.replyReceived rd = true)

def Suits (t : ClientTransport σ) (rd : DispatcherPtr) : Incoming → Prop
  | .failure => t.replyReceived rd = false
  | .part => t.replyReceived rd = true
  | .request answered => t.replyReceived rd = answered
  | .reply requestId _ =>
    match t.tms.dispatcherTable (.ofNat requestId) with
    | none => t.replyReceived rd = false
    | some rd' => rd' = rd ∨ t.replyReceived rd = true
  | .other => t.replyReceived rd = true

theorem suits_iff (incoming : Incoming) :
    t.Suits rd incoming ↔
      (t.GoesOn incoming ↔ t.replyReceived rd = true ∨ t.Answers rd incoming) := by
  cases incoming with
  | reply requestId replyStatus =>
    simp only [Suits, GoesOn, Answers]
    cases t.tms.dispatcherTable (.ofNat requestId) with
    | none => simp
    | some rd' => simp [or_comm]
  | request answered => cases answered <;> simp [Suits, GoesOn, Answers]
  | failure | part | other => simp [Suits, GoesOn, Answers]

theorem right_iff {turn : Turn} (hrd : (kind rd).isSynch = true) :
    t.Right host recv kind turn rd ↔ t.Suits rd (t.incoming host recv turn) := by
  obtain ⟨hgoes, hreceived⟩ := t.handleInputI_spec host recv kind turn hrd
  rw [suits_iff, ← hgoes, ← hreceived, Right, WaitOnRead.wait]
  rcases t.handleInputI host recv kind turn with ⟨replyComplete, t'⟩
  cases replyComplete <;> cases hr : t'.replyReceived rd <;> simp [hr]

end ClientTransport

end Calls

/-- What happens on a connection: an invocation with a new dispatcher takes an id and binds it, a
dispatcher is unbound when its invocation ends, the reactor calls `handleInputI`, and a synchronous
invocation calls `wait`. -/
inductive ClientEvent (kind : DispatcherPtr → Dispatcher)
  | invoke (rd : DispatcherPtr)
  | unbind (rd : DispatcherPtr)
  | upcall (turn : Turn)
  | wait (turn : Turn) (rd : {rd : DispatcherPtr // (kind rd).isSynch = true})

namespace ClientTransport

section Runs

variable (host : ByteOrder) (recv : ℕ → σ → Recv × σ) {kind : DispatcherPtr → Dispatcher}

variable (t : ClientTransport σ)

def step : ClientEvent kind → ClientTransport σ
  | .invoke rd =>
    { t with
      tms := (t.tms.requestId.2.bindDispatcher t.tms.requestId.1 rd).2
      replyReceived := Function.update t.replyReceived rd false }
  | .unbind rd => { t with tms := (t.tms.unbindDispatcher rd).2 }
  | .upcall turn => (t.handleInputI host recv kind turn).2
  | .wait turn rd => (WaitOnRead.wait host recv kind t turn rd).2

def RightAt : ClientEvent kind → Prop
  | .wait turn rd => t.Right host recv kind turn rd
  | _ => True

def SuitsAt : ClientEvent kind → Prop
  | .wait turn rd => t.Suits rd (t.incoming host recv turn)
  | _ => True

/-- **When waiting works.** -/
theorem waits_right_iff (es : List (ClientEvent kind)) :
    (∀ before e after, es = before ++ e :: after →
        (before.foldl (step host recv) t).RightAt host recv e) ↔
      EachStep (total (step host recv)) (SuitsAt host recv) t es := by
  refine forall_steps_iff (g := fun (_ : Unit) _ => ()) (R := fun _ _ => True)
    (Q := fun t _ e => RightAt host recv t e) (t := ()) ?_ ?_ trivial
  · intro t _ e _ _
    cases e with
    | wait turn rd => exact right_iff host recv kind rd.2
    | invoke | unbind | upcall => exact Iff.rfl
  · intro _ _ _ _ _ _
    trivial

end Runs

def replyTo (id status : BitVec 32) (results : List UInt8)
    (h : results.length + 8 < 2 ^ 32) : Message where
  type := MessageType.reply.toOctet
  body := wire 4 id.toNat ++ (wire 4 status.toNat ++ results)
  length_lt := by
    rw [List.length_append, List.length_append, length_wire, length_wire]
    omega

def plain (_ : DispatcherPtr) : Dispatcher := .synch fun _ => .done ()

def crossed : ClientTransport Cut where
  messageState := .create .little zeroChunk
  tms := .create
  replyReceived _ := false
  socket := ⟨(replyTo 1 0 [] (by decide)).bytes ++ (replyTo 0 0 [] (by decide)).bytes, fun _ => 64⟩

def zeroTurn : Turn :=
  ⟨⟨fun _ => none, fun _ => none⟩, true, fun _ => zeroChunk, zeroChunk, zeroChunk, 0⟩

theorem wait_crossed :
    (WaitOnRead.wait .little (tcpTransport .cut).recv plain
      ([(.invoke 0 : ClientEvent plain), .invoke 1].foldl
        (step .little (tcpTransport .cut).recv) crossed) zeroTurn 0).1 =
      .assertionFailed := by
  decide +kernel

end ClientTransport

end Icm.Rpc
