import Icm.Java.Buffer

/-!
# Writing to a channel

The `write` handlers of the Java clients and servers. A thread offers a message, a buffer that was
flipped, to the queue of a channel.
-/

namespace Icm.Java

open Icm.Lib List

def bufferSize : ℕ := 4 * 1024

namespace Buffer

def hasRemaining (b : Buffer) : Bool := decide (b.position < b.limit)

def setMark (b : Buffer) : Buffer :=
  { b with mark := some b.position, mark_le := by rintro m ⟨⟩; exact b.position_le }

def reset (b : Buffer) : Except Abrupt Buffer :=
  match h : b.mark with
  | none => .error .illegalArgument
  | some m => .ok { b with position := m, position_le := b.mark_le m h }

def getInto (b : Buffer) (space : ℕ) : Except Abrupt (List UInt8 × Buffer) :=
  if h : b.position ≤ b.limit then
    let length := min space (b.limit - b.position)
    .ok ((b.data.drop b.position).take length,
      b.advance length (by have := b.limit_le; omega))
  else .error .arrayIndexOutOfBounds

def unread (b : Buffer) : List UInt8 := (b.data.take b.limit).drop b.position

variable {b : Buffer}

theorem reading_unread (h : b.position ≤ b.limit) : b.Reading b.unread := ⟨rfl, h⟩

theorem length_unread (h : b.position ≤ b.limit) :
    b.unread.length = b.limit - b.position := by
  have := (reading_unread h).limit_eq
  omega

theorem Reading.unread_eq {bs : List UInt8} (h : b.Reading bs) : b.unread = bs :=
  h.ahead

theorem Reading.hasRemaining_iff {bs : List UInt8} (h : b.Reading bs) :
    b.hasRemaining = true ↔ bs ≠ [] := by
  rw [hasRemaining, decide_eq_true_iff, h.limit_eq, ← length_pos_iff]
  omega

theorem getInto_eq (h : b.position ≤ b.limit) (space : ℕ) :
    ∃ b', b.getInto space = .ok (b.unread.take space, b') ∧ b'.Reading (b.unread.drop space) ∧
      b'.data = b.data ∧ b'.limit = b.limit ∧ b'.mark = b.mark := by
  have hreading : b.Reading (b.unread.take space ++ b.unread.drop space) := by
    rw [take_append_drop]
    exact reading_unread h
  have hlength : (b.unread.take space).length = min space (b.limit - b.position) := by
    rw [length_take, length_unread h]
  have hle : b.position + (b.unread.take space).length ≤ b.data.length := by
    have := b.limit_le
    omega
  refine ⟨b.advance _ hle, ?_, hreading.advance hle, rfl, rfl, rfl⟩
  rw [getInto, dif_pos h]
  simp only [← hlength, hreading.take_drop]

end Buffer

inductive WriteResult
  | wrote (room : ℕ)
  | failed
  deriving DecidableEq, Repr

/-- The side of a channel that writes: the request context of a client or the response context of a
server, the queue, whether the key is interested in `OP_WRITE`, and what the channel took. -/
structure Outbound where
  context : Option Buffer
  contextQueue : List Buffer
  opWrite : Bool
  written : List UInt8
  deriving DecidableEq

namespace Outbound

def new : Outbound := ⟨none, [], false, []⟩

def poll (c : Outbound) : Option (Buffer × List Buffer) :=
  match c.context, c.contextQueue with
  | some b, queue => some (b, queue)
  | none, b :: queue => some (b, queue)
  | none, [] => none

def messages (c : Outbound) : List Buffer := c.context.toList ++ c.contextQueue

def pending (c : Outbound) : List UInt8 := c.messages.flatMap Buffer.unread

def Idle (c : Outbound) : Prop := c.messages = []

instance (c : Outbound) : Decidable c.Idle := inferInstanceAs (Decidable (_ = _))

end Outbound

inductive Client
  | tcp
  | muti
  deriving DecidableEq, Repr

/-- `write` of `IcmTcpClient` and `IcmMutiClient`. -/
def Client.write (client : Client) (c : Outbound) (result : WriteResult) :
    Except Abrupt Outbound :=
  match c.poll with
  | none => .ok { c with opWrite := false }
  | some (context, queue) => do
    let r ← context.setMark.getInto bufferSize
    match result with
    | .wrote room =>
      let c := { c with contextQueue := queue, written := c.written ++ r.1.take room }
      if r.2.hasRemaining then return { c with context := c.context.map fun _ => r.2 }
      else return { c with context := none, opWrite := !queue.isEmpty }
    | .failed =>
      let buffer ← r.2.reset
      return ⟨none, queue ++ [buffer], decide (client = .tcp), []⟩

def Server.write (c : Outbound) (result : WriteResult) : Except Abrupt Outbound :=
  match c.poll with
  | none => .ok { c with opWrite := false }
  | some (context, queue) => do
    let r ← context.getInto bufferSize
    match result with
    | .wrote room =>
      let c := { c with contextQueue := queue, written := c.written ++ r.1.take room }
      if r.2.hasRemaining then return { c with context := some r.2 }
      else return { c with context := none, opWrite := if queue.isEmpty then false else c.opWrite }
    | .failed => return { c with context := some r.2, contextQueue := queue, opWrite := false }

structure Message where
  buffer : Buffer
  position_le : buffer.position ≤ buffer.limit
  deriving DecidableEq

def Message.zeros (n : ℕ) (h : n < 2 ^ 31) : Message := ⟨.allocate n h .big, Nat.zero_le _⟩

/-- What can happen to a channel: a message is offered, or the channel is writable and takes what it
has room for. -/
inductive WriteEvent
  | offer (message : Message)
  | writable (room : ℕ)
  deriving DecidableEq

def WriteEvent.offered : WriteEvent → List UInt8
  | .offer message => message.buffer.unread
  | .writable _ => []

namespace Outbound

def step (write : Outbound → WriteResult → Except Abrupt Outbound) (c : Outbound) :
    WriteEvent → Except Abrupt Outbound
  | .offer message =>
    .ok { c with contextQueue := c.contextQueue ++ [message.buffer], opWrite := true }
  | .writable room => if c.opWrite then write c (.wrote room) else .ok c

structure Wf (c : Outbound) : Prop where
  flipped : ∀ b ∈ c.messages, b.position ≤ b.limit
  interested : c.messages ≠ [] → c.opWrite = true

theorem new_wf : new.Wf := ⟨by simp [new, messages], fun h => absurd rfl h⟩

variable {c : Outbound}

theorem flipped_offer (h : ∀ b ∈ c.messages, b.position ≤ b.limit)
    (message : Message) :
    ∀ b ∈ c.context.toList ++ (c.contextQueue ++ [message.buffer]), b.position ≤ b.limit := by
  intro b hb
  rw [← append_assoc, mem_append, mem_singleton] at hb
  rcases hb with hb | rfl
  · exact h b hb
  · exact message.position_le

theorem poll_eq_none_iff : c.poll = none ↔ c.messages = [] := by
  obtain ⟨_ | b, _ | ⟨b', queue⟩, _, _⟩ := c <;> simp [poll, messages]

theorem messages_of_poll {b : Buffer} {queue : List Buffer}
    (h : c.poll = some (b, queue)) : c.messages = b :: queue := by
  obtain ⟨_ | b', _ | ⟨b'', queue'⟩, _, _⟩ := c <;> simp_all [poll, messages]

theorem pending_of_poll {b : Buffer} {queue : List Buffer}
    (h : c.poll = some (b, queue)) : c.pending = b.unread ++ queue.flatMap Buffer.unread := by
  rw [pending, messages_of_poll h, flatMap_cons]

def Whole (fits : List UInt8 → ℕ → Prop) (c : Outbound) : WriteEvent → Prop
  | .offer _ => True
  | .writable room => ∀ r ∈ c.poll, fits r.1.unread room

instance (fits : List UInt8 → ℕ → Prop) [∀ bs room, Decidable (fits bs room)] (c : Outbound)
    (e : WriteEvent) : Decidable (c.Whole fits e) :=
  match e with
  | .offer _ => .isTrue trivial
  | .writable _ => inferInstanceAs (Decidable (∀ r ∈ c.poll, _))

structure Handles (write : Outbound → WriteResult → Except Abrupt Outbound)
    (I : Option Buffer → Prop) (kept : List UInt8 → List UInt8) (fits : List UInt8 → ℕ → Prop) :
    Prop where
  start : I none
  idle : ∀ c result, c.poll = none → write c result = .ok { c with opWrite := false }
  writes : ∀ c b queue room, c.Wf → I c.context → c.poll = some (b, queue) →
    ∃ c', write c (.wrote room) = .ok c' ∧ c'.Wf ∧ I c'.context ∧
      c'.written = c.written ++ (b.unread.take bufferSize).take room ∧
      c'.pending = kept b.unread ++ queue.flatMap Buffer.unread
  keeps : ∀ bs room, fits bs room → (bs.take bufferSize).take room ++ kept bs = bs
  drops : ∀ bs room, ¬ fits bs room →
    ((bs.take bufferSize).take room ++ kept bs).length < bs.length

namespace Handles

variable {write : Outbound → WriteResult → Except Abrupt Outbound} {I : Option Buffer → Prop}
  {kept : List UInt8 → List UInt8} {fits : List UInt8 → ℕ → Prop}
  (h : Handles write I kept fits)

include h

theorem exists_step {c : Outbound} (hw : c.Wf) (hI : I c.context) (e : WriteEvent) :
    ∃ c', step write c e = .ok c' ∧ c'.Wf ∧ I c'.context ∧
      (c.Whole fits e → c'.written ++ c'.pending = c.written ++ c.pending ++ e.offered) ∧
      (¬ c.Whole fits e → (c'.written ++ c'.pending).length <
        (c.written ++ c.pending).length + e.offered.length) := by
  cases e with
  | offer message =>
    refine ⟨_, rfl, ⟨flipped_offer hw.flipped message, fun _ => rfl⟩, hI, fun _ => ?_,
      fun hnot => absurd trivial hnot⟩
    simp [pending, messages, WriteEvent.offered]
  | writable room =>
    cases hpoll : c.poll with
    | none =>
      have hmessages := poll_eq_none_iff.mp hpoll
      have hwhole : c.Whole fits (.writable room) := by simp [Whole, hpoll]
      have hidle : ({ c with opWrite := false } : Outbound).Wf :=
        ⟨hw.flipped, fun hne => absurd hmessages hne⟩
      rw [step, h.idle c _ hpoll]
      split_ifs
      · exact ⟨_, rfl, hidle, hI, fun _ => (append_nil _).symm, fun hnot => absurd hwhole hnot⟩
      · exact ⟨c, rfl, hw, hI, fun _ => (append_nil _).symm, fun hnot => absurd hwhole hnot⟩
    | some r =>
      obtain ⟨b, queue⟩ := r
      have hinterested := hw.interested (by rw [messages_of_poll hpoll]; exact cons_ne_nil _ _)
      obtain ⟨c', hwrite, hw', hI', hwritten, hpending⟩ := h.writes c b queue room hw hI hpoll
      have hwhole : c.Whole fits (.writable room) ↔ fits b.unread room := by simp [Whole, hpoll]
      have hheld : c'.written ++ c'.pending = c.written ++
          (((b.unread.take bufferSize).take room ++ kept b.unread) ++
            queue.flatMap Buffer.unread) := by
        rw [hwritten, hpending]
        simp only [append_assoc]
      refine ⟨c', by rw [step, if_pos hinterested, hwrite], hw', hI', fun hfits => ?_,
        fun hfits => ?_⟩
      · rw [hheld, h.keeps _ _ (hwhole.mp hfits), pending_of_poll hpoll, WriteEvent.offered,
          append_nil]
      · have hless := h.drops _ _ (mt hwhole.mpr hfits)
        rw [hheld, pending_of_poll hpoll]
        simp only [length_append, WriteEvent.offered, length_nil] at hless ⊢
        omega

theorem written_iff_whole (es : List WriteEvent) :
    ∃ c, runSteps (step write) new es = .ok c ∧
      (c.Idle → (c.written = es.flatMap WriteEvent.offered ↔
        EachStep (step write) (Whole fits) new es)) := by
  have hstep (c : Outbound) (e : WriteEvent) (c' : Outbound) (hc : c.Wf ∧ I c.context)
      (heq : step write c e = .ok c') :
      (c'.Wf ∧ I c'.context) ∧
      (c.Whole fits e → c'.written ++ c'.pending = c.written ++ c.pending ++ e.offered) ∧
      (¬ c.Whole fits e → (c'.written ++ c'.pending).length <
        (c.written ++ c.pending).length + e.offered.length) := by
    obtain ⟨c₁, hc₁, hw, hI, hkeep, hdrop⟩ := h.exists_step hc.1 hc.2 e
    obtain rfl := Except.ok.inj (hc₁.symm.trans heq)
    exact ⟨⟨hw, hI⟩, hkeep, hdrop⟩
  have hnew : new.Wf ∧ I new.context := ⟨new_wf, h.start⟩
  obtain ⟨c, hrun, -⟩ := exists_runSteps (I := fun c => c.Wf ∧ I c.context)
    (fun c e hc _ => by
      obtain ⟨c', hc', hw, hI, -⟩ := h.exists_step hc.1 hc.2 e
      exact ⟨c', hc', hw, hI⟩) hnew (eachStep_true new es)
  refine ⟨c, hrun, fun hidle => ?_⟩
  rw [← runSteps_held_iff (fun c e c' hc heq => (hstep c e c' hc heq).1)
    (fun c e c' hc hwhole heq => (hstep c e c' hc heq).2.1 hwhole)
    (fun c e c' hc hnot heq => (hstep c e c' hc heq).2.2 hnot) hnew hrun]
  have hpending : c.pending = [] := by
    rw [pending, show c.messages = [] from hidle]
    rfl
  rw [hpending, append_nil]
  rfl

end Handles

end Outbound

namespace Client

open Outbound

def Fits (request : List UInt8) (room : ℕ) : Prop :=
  request.length ≤ bufferSize ∧ request.length ≤ room

instance (request : List UInt8) (room : ℕ) : Decidable (Fits request room) :=
  inferInstanceAs (Decidable (_ ∧ _))

theorem write_eq (client : Client) {c : Outbound} {b : Buffer} {queue : List Buffer} (room : ℕ)
    (hw : c.Wf) (hcontext : c.context = none) (hpoll : c.poll = some (b, queue)) :
    ∃ c', client.write c (.wrote room) = .ok c' ∧ c'.Wf ∧ c'.context = none ∧
      c'.written = c.written ++ (b.unread.take bufferSize).take room ∧ c'.contextQueue = queue := by
  have hmessages := messages_of_poll hpoll
  have hflipped : ∀ b ∈ queue, b.position ≤ b.limit := fun b' hb' =>
    hw.flipped b' (hmessages ▸ mem_cons_of_mem b hb')
  have hb : b.setMark.position ≤ b.setMark.limit :=
    hw.flipped b (hmessages ▸ mem_cons_self)
  obtain ⟨b', hget, -, -⟩ := Buffer.getInto_eq hb bufferSize
  have hwrite : client.write c (.wrote room) =
      if b'.hasRemaining then .ok ⟨c.context.map fun _ => b', queue, c.opWrite,
        c.written ++ (b.unread.take bufferSize).take room⟩
      else .ok ⟨none, queue, !queue.isEmpty,
        c.written ++ (b.unread.take bufferSize).take room⟩ := by
    rw [write, hpoll]
    change (b.setMark.getInto bufferSize >>= _) = _
    rw [hget]
    rfl
  rw [hwrite, hcontext]
  split_ifs
  · refine ⟨_, rfl, ⟨hflipped, fun _ => hw.interested ?_⟩, rfl, rfl, rfl⟩
    rw [hmessages]
    exact cons_ne_nil b queue
  · exact ⟨_, rfl, ⟨hflipped, fun hne => by simpa [messages] using hne⟩, rfl, rfl, rfl⟩

theorem handles (client : Client) :
    Handles client.write (fun context => context = none) (fun _ => []) Fits where
  start := rfl
  idle c result hpoll := by rw [write, hpoll]
  writes c b queue room hw hcontext hpoll := by
    obtain ⟨c', hwrite, hw', hcontext', hwritten, hqueue⟩ := write_eq client room hw hcontext hpoll
    refine ⟨c', hwrite, hw', hcontext', hwritten, ?_⟩
    rw [pending, messages, hcontext', hqueue]
    rfl
  keeps bs room h := by
    rw [append_nil, take_of_length_le h.1, take_of_length_le h.2]
  drops bs room h := by
    rw [Fits, not_and_or] at h
    simp only [append_nil, length_take]
    omega

/-- **What a client writes.** -/
theorem written_iff (client : Client) (es : List WriteEvent) :
    ∃ c, runSteps (step client.write) new es = .ok c ∧
      (c.Idle → (c.written = es.flatMap WriteEvent.offered ↔
        EachStep (step client.write) (Whole Fits) new es)) :=
  client.handles.written_iff_whole es

theorem written_two_requests :
    ∃ c, runSteps (step tcp.write) new
        [.offer (.zeros 3 (by decide)), .offer (.zeros 2 (by decide)), .writable 4, .writable 2] =
          .ok c ∧
      c.written = [0, 0, 0, 0, 0] := by
  obtain ⟨c, hrun, hiff⟩ := written_iff tcp
    [.offer (.zeros 3 (by decide)), .offer (.zeros 2 (by decide)), .writable 4, .writable 2]
  obtain rfl : (⟨none, [], false, [0, 0, 0, 0, 0]⟩ : Outbound) = c := Except.ok.inj hrun
  exact ⟨_, hrun, (hiff rfl).mpr (by decide +kernel)⟩

theorem last_byte_lost :
    ∃ c, runSteps (step tcp.write) new [.offer (.zeros 4097 (by decide)), .writable 4097] = .ok c ∧
      c.Idle ∧ c.written.length = 4096 := by
  have hoffered : Wf ⟨none, [(Message.zeros 4097 (by decide)).buffer], true, []⟩ :=
    ⟨forall_mem_singleton.mpr (Nat.zero_le _), fun _ => rfl⟩
  obtain ⟨c, hwrite, -, hcontext, hwritten, hqueue⟩ := write_eq tcp 4097 hoffered rfl rfl
  refine ⟨c, runSteps_cons_eq_ok.mpr ⟨_, rfl, runSteps_cons_eq_ok.mpr ⟨c, hwrite, rfl⟩⟩, ?_, ?_⟩
  · rw [Idle, messages, hcontext, hqueue]
    rfl
  · rw [hwritten, nil_append, length_take, length_take,
      Buffer.length_unread (Nat.zero_le _)]
    rfl

end Client

namespace Server

open Outbound

def Fits (response : List UInt8) (room : ℕ) : Prop := min bufferSize response.length ≤ room

instance (response : List UInt8) (room : ℕ) : Decidable (Fits response room) :=
  inferInstanceAs (Decidable (_ ≤ _))

theorem write_eq {c : Outbound} {b : Buffer} {queue : List Buffer} (room : ℕ) (hw : c.Wf)
    (hpoll : c.poll = some (b, queue)) :
    ∃ c', Server.write c (.wrote room) = .ok c' ∧ c'.Wf ∧
      c'.written = c.written ++ (b.unread.take bufferSize).take room ∧
      c'.pending = b.unread.drop bufferSize ++ queue.flatMap Buffer.unread := by
  have hmessages := messages_of_poll hpoll
  have hflipped : ∀ b ∈ queue, b.position ≤ b.limit := fun b' hb' =>
    hw.flipped b' (hmessages ▸ mem_cons_of_mem b hb')
  have hinterested := hw.interested (hmessages ▸ cons_ne_nil b queue)
  obtain ⟨b', hget, hreading, -⟩ := Buffer.getInto_eq
    (hw.flipped b (hmessages ▸ mem_cons_self)) bufferSize
  have hwrite : Server.write c (.wrote room) =
      if b'.hasRemaining then .ok ⟨some b', queue, c.opWrite,
        c.written ++ (b.unread.take bufferSize).take room⟩
      else .ok ⟨none, queue, if queue.isEmpty then false else c.opWrite,
        c.written ++ (b.unread.take bufferSize).take room⟩ := by
    rw [Server.write, hpoll]
    change (b.getInto bufferSize >>= _) = _
    rw [hget]
    rfl
  rw [hwrite]
  by_cases hremaining : b'.hasRemaining = true
  · rw [if_pos hremaining]
    refine ⟨_, rfl, ⟨forall_mem_cons.mpr ⟨hreading.position_le, hflipped⟩,
      fun _ => hinterested⟩, rfl, ?_⟩
    rw [← hreading.unread_eq]
    rfl
  · rw [if_neg hremaining]
    have hdone : b.unread.drop bufferSize = [] := by
      rwa [hreading.hasRemaining_iff, not_not] at hremaining
    refine ⟨_, rfl, ⟨hflipped, fun hne => ?_⟩, rfl, ?_⟩
    · change (if queue.isEmpty = true then false else c.opWrite) = true
      rw [if_neg (by simpa [messages] using hne)]
      exact hinterested
    · rw [hdone]
      rfl

theorem exists_write {c : Outbound} (result : WriteResult)
    (hflipped : ∀ b ∈ c.messages, b.position ≤ b.limit) :
    ∃ c', Server.write c result = .ok c' ∧ ∀ b ∈ c'.messages, b.position ≤ b.limit := by
  rw [Server.write]
  cases hpoll : c.poll with
  | none => exact ⟨_, rfl, hflipped⟩
  | some r =>
    obtain ⟨b, queue⟩ := r
    rw [messages_of_poll hpoll, forall_mem_cons] at hflipped
    obtain ⟨b', hget, hreading, -⟩ := Buffer.getInto_eq hflipped.1 bufferSize
    have hkept : ∀ b ∈ b' :: queue, b.position ≤ b.limit :=
      forall_mem_cons.mpr ⟨hreading.position_le, hflipped.2⟩
    simp only [hget, bind, Except.bind]
    cases result with
    | failed => exact ⟨_, rfl, hkept⟩
    | wrote room =>
      by_cases hremaining : b'.hasRemaining = true
      · exact ⟨_, if_pos hremaining, hkept⟩
      · exact ⟨_, if_neg hremaining, hflipped.2⟩

theorem handles :
    Handles Server.write (fun _ => True) (fun bs => bs.drop bufferSize) Fits where
  start := trivial
  idle c result hpoll := by rw [Server.write, hpoll]
  writes c b queue room hw _ hpoll := by
    obtain ⟨c', hwrite, hw', hwritten, hpending⟩ := write_eq room hw hpoll
    exact ⟨c', hwrite, hw', trivial, hwritten, hpending⟩
  keeps bs room h := by
    rw [take_of_length_le (by rwa [length_take]), take_append_drop]
  drops bs room h := by
    rw [Fits] at h
    simp only [length_append, length_take, length_drop]
    omega

/-- **What a server writes.** -/
theorem written_iff_taken (es : List WriteEvent) :
    ∃ c, runSteps (step Server.write) new es = .ok c ∧
      (c.Idle → (c.written = es.flatMap WriteEvent.offered ↔
        EachStep (step Server.write) (Whole Fits) new es)) :=
  handles.written_iff_whole es

theorem written_two_responses :
    ∃ c, runSteps (step Server.write) new
        [.offer (.zeros 3 (by decide)), .offer (.zeros 2 (by decide)), .writable 4, .writable 2] =
          .ok c ∧
      c.written = [0, 0, 0, 0, 0] := by
  obtain ⟨c, hrun, hiff⟩ := written_iff_taken
    [.offer (.zeros 3 (by decide)), .offer (.zeros 2 (by decide)), .writable 4, .writable 2]
  obtain rfl : (⟨none, [], false, [0, 0, 0, 0, 0]⟩ : Outbound) = c := Except.ok.inj hrun
  exact ⟨_, hrun, (hiff rfl).mpr (by decide +kernel)⟩

theorem short_write_loses :
    ∃ c, runSteps (step Server.write) new [.offer (.zeros 8 (by decide)), .writable 3] = .ok c ∧
      c.Idle ∧ c.written = [0, 0, 0] :=
  ⟨_, rfl, rfl, rfl⟩

end Server

end Icm.Java
