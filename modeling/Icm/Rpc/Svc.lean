import Icm.Lib.Run
import Icm.Rpc.History

/-!
# A thread that serves a connection

`TcpConnectionHandler::svc` (`icm/TcpConnection.cpp`) calls `handleInputI` until it returns `-1` for
another reason than a timeout.
-/

namespace Icm.Rpc

open Icm.Lib Icm.Stream

variable {σ : Type}

inductive Errno
  | zero
  | again
  | time
  | other
  deriving DecidableEq, Repr

inductive SelectAnswer
  | ready
  | timeout
  | failed (errno : Errno)
  deriving DecidableEq, Repr

/-- What a round of `recv_n` meets: bytes, the end of the connection, or a failure, after which
`select` may be asked. -/
inductive SocketAnswer
  | bytes (b : UInt8) (bs : List UInt8)
  | closed
  | failed (errno : Errno) (select : SelectAnswer)
  deriving DecidableEq, Repr

inductive RoundEnd
  | copied (bs : List UInt8)
  | again
  | closed
  | failed
  deriving DecidableEq, Repr

def SocketStream.recvRound (room : ℕ) (errno : Errno) : SocketAnswer → RoundEnd × Errno
  | .bytes b bs => (.copied ((b :: bs).take room), errno)
  | .closed => (.closed, errno)
  | .failed errno select =>
    if errno = .again ∨ errno = .zero then
      match select with
      | .ready => (.again, errno)
      | .timeout => (.failed, .time)
      | .failed errno => (.failed, errno)
    else (.failed, errno)

/-- The calls of `recv_n`: in `readHeader`, and the two of `readBuffer` in `handleInput`. -/
inductive RecvSite
  | header
  | body
  | retry
  deriving DecidableEq, Repr

/-- The thread in a call of `recv_n`: the message that is received, the place of the call, the bytes
that it has copied, `errno`, all bytes that the socket has returned, those of the calls that
returned all their bytes, and whether `svc` has not returned. -/
structure SvcState where
  state : IcmMessageState
  site : RecvSite
  bt : List UInt8
  errno : Errno
  taken : List UInt8
  delivered : List UInt8
  serving : Bool

/-- An answer of the socket. -/
structure SvcEvent where
  answer : SocketAnswer
  turn : Turn
  errno : Errno

namespace SvcState

variable (host : ByteOrder)

variable (c : SvcState)

def len : ℕ :=
  match c.site with
  | .header => headerLen
  | .body | .retry => c.state.messageSize - c.state.currentOffset

def buf : ℕ :=
  match c.site with
  | .header => c.state.stream.rdPtr
  | .body | .retry => c.state.stream.rdPtr + c.state.currentOffset

def nextInput (turn : Turn) : SvcState :=
  if c.state.messageSize = 0 then
    { c with
      state := { c.state with stream := c.state.stream.grow (turn.heap 0) (turn.heap 1) headerLen }
      site := .header
      bt := [] }
  else
    { c with
      site := .body
      bt := []
      serving := c.serving &&
        (c.state.messageSize - c.state.currentOffset ≠ 0 || c.errno = .time) }

def failed (turn : Turn) : SvcState :=
  if c.errno = .time then c.nextInput turn else { c with serving := false }

def returned (e : SvcEvent) : SvcState :=
  let c := { c with delivered := c.delivered ++ c.bt }
  match c.site with
  | .header =>
    let state := IcmProtocol.parseHeader host c.state
    let stream := state.stream.grow (e.turn.heap 2) (e.turn.heap 3) (headerLen + state.messageSize)
    let c := { c with
      state := { state with stream := (stream.skipBytes headerLen).2 }
      site := .body
      bt := [] }
    -- `recv_n` returns `0` when it is asked for nothing
    if c.len = 0 then c.failed e.turn else c
  | .body | .retry =>
    let state := { c.state with currentOffset := c.state.currentOffset + c.bt.length }
    if state.messageSize = state.currentOffset then
      let r := IcmTransport.processMessage host e.turn state
      let c := { c with state := r.2, errno := e.errno }
      if r.1.2 then c.nextInput e.turn else c.failed e.turn
    else { c with state := state }.nextInput e.turn

def recvFailed (turn : Turn) : SvcState :=
  if c.site = .body ∧ c.errno = .again then { c with site := .retry, bt := [] }
  else c.failed turn

def step (e : SvcEvent) : SvcState :=
  if c.serving = true ∧ c.len ≠ 0 then
    match SocketStream.recvRound (c.len - c.bt.length) c.errno e.answer with
    | (.copied bs, errno) =>
      let c' := { c with
        state := { c.state with stream := c.state.stream.fill (c.buf + c.bt.length) bs }
        bt := c.bt ++ bs
        errno := errno
        taken := c.taken ++ bs }
      if c'.bt.length = c.len then c'.returned host e else c'
    | (.again, errno) => { c with errno := errno }
    | (.closed, errno) => { c with errno := errno }.failed e.turn
    | (.failed, errno) => { c with errno := errno }.recvFailed e.turn
  else c

def start (c : Chunk) (errno : Errno) (turn : Turn) : SvcState :=
  nextInput ⟨.create host c, .header, [], errno, [], [], true⟩ turn

/-- While the connection is served, the call that is going on has started at the first byte that was
not delivered: the bytes that the socket has returned are those that were delivered and those that
the call has copied. -/
def Continues (c : SvcState) : Prop := c.serving = true → c.taken = c.delivered ++ c.bt

def Interrupts (c : SvcState) : SocketAnswer → Prop
  | .bytes _ _ => False
  | .closed => c.errno = .time
  | .failed errno select =>
    if errno = .again ∨ errno = .zero then
      match select with
      | .ready => False
      | .timeout => True
      | .failed errno => errno = .time ∨ c.site = .body ∧ errno = .again
    else errno = .time

def Spared (c : SvcState) (e : SvcEvent) : Prop :=
  c.serving = true ∧ c.len ≠ 0 ∧ c.Interrupts e.answer → c.bt = []

variable {host} {c : SvcState} {turn : Turn}

structure NewCall (c c' : SvcState) : Prop where
  taken_eq : c'.taken = c.taken
  delivered_eq : c'.delivered = c.delivered
  bt_eq : c'.serving = true → c'.bt = []

variable {c' : SvcState}

theorem NewCall.continues (h : NewCall c c') (hbytes : c.taken = c.delivered) :
    c'.Continues := by
  intro hserving
  rw [h.taken_eq, h.delivered_eq, h.bt_eq hserving, List.append_nil, hbytes]

theorem NewCall.continues_iff_nil (h : NewCall c c')
    (hbytes : c.taken = c.delivered ++ c.bt) :
    c'.Continues ↔ (c'.serving = true → c.bt = []) := by
  refine forall_congr' fun hserving => ?_
  rw [h.taken_eq, h.delivered_eq, h.bt_eq hserving, List.append_nil, hbytes]
  exact List.append_right_eq_self

theorem NewCall.of_errno {errno : Errno}
    (h : NewCall { c with errno := errno } c') : NewCall c c' :=
  ⟨h.taken_eq, h.delivered_eq, h.bt_eq⟩

theorem newCall_nextInput : NewCall c (c.nextInput turn) := by
  rw [nextInput]
  split_ifs <;> exact ⟨rfl, rfl, fun _ => rfl⟩

theorem newCall_failed : NewCall c (c.failed turn) := by
  rw [failed]
  split_ifs
  · exact newCall_nextInput
  · exact ⟨rfl, rfl, nofun⟩

theorem newCall_recvFailed : NewCall c (c.recvFailed turn) := by
  rw [recvFailed]
  split_ifs
  · exact ⟨rfl, rfl, fun _ => rfl⟩
  · exact newCall_failed

theorem serving_failed (h : c.serving = true) :
    (c.failed turn).serving = true ↔ c.errno = .time := by
  rw [failed]
  split_ifs with htime
  · rw [nextInput]
    split_ifs <;> simp [h, htime]
  · simp [htime]

theorem serving_recvFailed (h : c.serving = true) :
    (c.recvFailed turn).serving = true ↔ c.errno = .time ∨ c.site = .body ∧ c.errno = .again := by
  rw [recvFailed]
  split_ifs with hagain
  · simp [h, hagain]
  · rw [serving_failed h]
    simp [hagain]

theorem continues_returned (hbytes : c.taken = c.delivered ++ c.bt) (e : SvcEvent) :
    (c.returned host e).Continues := by
  cases hsite : c.site with
  | header =>
    simp only [returned, hsite]
    split_ifs
    · exact newCall_failed.continues hbytes
    · intro _
      rw [List.append_nil]
      exact hbytes
  | body | retry =>
    simp only [returned, hsite]
    split_ifs
    · exact newCall_nextInput.continues hbytes
    · exact newCall_failed.continues hbytes
    · exact newCall_nextInput.continues hbytes

theorem continues_step_iff (h : c.Continues) (e : SvcEvent) :
    (c.step host e).Continues ↔ c.Spared e := by
  by_cases hcall : c.serving = true ∧ c.len ≠ 0
  swap
  · rw [step, if_neg hcall]
    exact iff_of_true h fun hspared => absurd ⟨hspared.1, hspared.2.1⟩ hcall
  have hbytes := h hcall.1
  -- a call that ends without all its bytes
  have hended {c' : SvcState} (hnew : NewCall c c') {p : Prop} (hserving : c'.serving = true ↔ p)
      (hp : p ↔ c.Interrupts e.answer) : c'.Continues ↔ c.Spared e := by
    rw [hnew.continues_iff_nil hbytes, hserving, hp, Spared]
    exact ⟨fun h hspared => h hspared.2.2, fun h hinterrupts => h ⟨hcall.1, hcall.2, hinterrupts⟩⟩
  have hidle (hnot : ¬ c.Interrupts e.answer) : c.Spared e := fun hspared =>
    absurd hspared.2.2 hnot
  rw [step, if_pos hcall]
  rcases hanswer : e.answer with ⟨b, bs⟩ | _ | ⟨errno, select⟩ <;> rw [hanswer] at hended hidle
  · have hmore (new : List UInt8) : c.taken ++ new = c.delivered ++ (c.bt ++ new) := by
      rw [hbytes, List.append_assoc]
    simp only [SocketStream.recvRound]
    refine iff_of_true ?_ (hidle id)
    split_ifs
    · exact continues_returned (hmore _) e
    · exact fun _ => hmore _
  · exact hended newCall_failed (serving_failed hcall.1) Iff.rfl
  · have hfailed {errno' : Errno}
        (hp : errno' = .time ∨ c.site = .body ∧ errno' = .again ↔
          c.Interrupts (.failed errno select)) :
        ({ c with errno := errno' }.recvFailed e.turn).Continues ↔ c.Spared e :=
      hended newCall_recvFailed.of_errno (serving_recvFailed hcall.1) hp
    simp only [SocketStream.recvRound]
    by_cases hblock : errno = .again ∨ errno = .zero
    · simp only [Interrupts, hblock, if_true] at hfailed hidle ⊢
      cases select with
      | ready => exact iff_of_true (fun _ => hbytes) (hidle id)
      | timeout => exact hfailed (iff_of_true (Or.inl rfl) trivial)
      | failed errno => exact hfailed Iff.rfl
    · simp only [Interrupts, hblock, if_false] at hfailed ⊢
      exact hfailed (or_iff_left fun hagain => hblock (Or.inl hagain.2))

/-- **When nothing is lost.** -/
theorem continues_iff (host : ByteOrder) (chunk : Chunk) (errno : Errno) (turn : Turn)
    (es : List SvcEvent) :
    (∀ before e after, es = before ++ e :: after →
        ((before.foldl (step host) (start host chunk errno turn)).step host e).Continues) ↔
      EachStep (total (step host)) Spared (start host chunk errno turn) es := by
  refine forall_steps_iff (g := fun (_ : Unit) _ => ()) (R := fun c _ => Continues c)
    (Q := fun c _ e => (step host c e).Continues) (t := ()) ?_ ?_ ?_
  · intro c _ e _ h
    exact continues_step_iff h e
  · intro c _ e _ h hspared
    exact (continues_step_iff h e).mpr hspared
  · exact newCall_nextInput.continues rfl

def answered (errno : Errno) (answers : List SocketAnswer) : SvcState :=
  let turn : Turn :=
    ⟨⟨fun _ => none, fun _ => none⟩, true, fun _ => zeroChunk, zeroChunk, zeroChunk, 0⟩
  answers.foldl (fun c answer => c.step .little ⟨answer, turn, .zero⟩)
    (start .little zeroChunk errno turn)

theorem header_interrupted :
    let timedOut := answered .zero [.bytes 0 [0], .failed .again .timeout]
    let closed := answered .time [.bytes 0 [0], .closed]
    (timedOut.serving = true ∧ timedOut.site = .header ∧ timedOut.bt = [] ∧
        timedOut.taken = [0, 0] ∧ timedOut.delivered = []) ∧
      (closed.serving = true ∧ closed.site = .header ∧ closed.bt = [] ∧
        closed.taken = [0, 0] ∧ closed.delivered = []) := by
  decide +kernel

end SvcState

end Icm.Rpc
