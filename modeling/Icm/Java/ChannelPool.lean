import Icm.Stream.Blocks

/-!
# The pool of the first client's channels

`invoke` closes the channel if it catches an I/O error, and gives it back to the pool however it
ends.
-/

namespace Icm.Java.ChannelPool

open Icm.Stream List

/-- `IOException`, or an exception that `invoke` does not catch. -/
inductive Failure
  | io
  | other
  deriving DecidableEq

/-- What the operations on the channel do: the writes with the pauses behind them, the read of the
head, and the reads of the body, each with the number of its bytes unless the stream has ended. -/
structure Exchange where
  writes : List (Except Failure Unit)
  hasResponse : Bool
  head : Except Failure (List UInt8)
  body : List (Except Failure (Option ℕ))

def bodyLoop (size : BitVec 32) :
    BitVec 32 → List (Except Failure (Option ℕ)) → Except Failure Unit
  | cur, [] => if cur.slt size then .error .io else .ok ()
  | cur, read :: reads =>
    if cur.slt size then do
      match ← read with
      | none => .error .io
      | some r => bodyLoop size (cur + .ofNat 32 r) reads
    else .ok ()

/-- The body of the `try` of `invoke`, behind `get`. -/
def Exchange.run (order : ByteOrder) (x : Exchange) : Except Failure Unit := do
  x.writes.forM id
  if x.hasResponse then
    let head ← x.head
    -- `EndOfDataExceiption` of `readInt` or `readByte`
    if head.length < 5 then .error .other
    else bodyLoop (.ofNat 32 (order.value (head.take 4))) 0 x.body

structure EndPoint where
  hostname : String
  port : ℕ
  deriving DecidableEq

structure Channel where
  /-- The address of the channel, with the name that is found for it. -/
  remote : EndPoint
  closed : Bool
  unfinished : Bool

/-- The pools, and the channels that have been handed out. -/
structure Provider where
  pools : EndPoint → List Channel
  handedOut : List Channel

variable (name : String → String) (maxInPool : ℕ+) (order : ByteOrder)

/-- `get`, which takes a channel of the pool or opens one, if it can. -/
def Provider.get (p : Provider) (e : EndPoint) (opens : Bool) : Option (Channel × Provider) :=
  match p.pools e with
  | c :: cs => some (c, ⟨Function.update p.pools e cs, c :: p.handedOut⟩)
  | [] =>
    let c := ⟨⟨name e.hostname, e.port⟩, false, false⟩
    if opens then some (c, ⟨p.pools, c :: p.handedOut⟩) else none

/-- `back`, which closes the channel if the pool of its address is full. -/
def Provider.back (p : Provider) (c : Channel) : Provider :=
  let pool := p.pools c.remote
  if pool.length < maxInPool then
    { p with pools := Function.update p.pools c.remote (pool ++ [c]) }
  else p

structure Invocation where
  endpoint : EndPoint
  opens : Bool
  exchange : Exchange

def Provider.invoke (p : Provider) (i : Invocation) : Provider :=
  match p.get name i.endpoint i.opens with
  | none => p
  | some (c, p) =>
    match i.exchange.run order with
    | .ok () => p.back maxInPool c
    | .error .io => p.back maxInPool { c with closed := true, unfinished := true }
    | .error .other => p.back maxInPool { c with unfinished := true }

def Provider.new : Provider := ⟨fun _ => [], []⟩

/-- A number of invocations, one after the other. -/
def Provider.invokeAll (is : List Invocation) : Provider :=
  is.foldl (Provider.invoke name maxInPool order) .new

def Channel.Usable (c : Channel) : Prop := c.closed = false ∧ c.unfinished = false

/-- The channels in the pools and those handed out are usable. -/
def Provider.Usable (p : Provider) : Prop :=
  (∀ e, ∀ c ∈ p.pools e, c.Usable) ∧ ∀ c ∈ p.handedOut, c.Usable

variable {name maxInPool order} {p : Provider}

theorem forall_mem_update {e : EndPoint} {cs : List Channel} (h : p.Usable)
    (hcs : ∀ c ∈ cs, c.Usable) (e' : EndPoint) : ∀ c ∈ Function.update p.pools e cs e', c.Usable :=
  (Function.forall_update_iff p.pools fun _ cs => ∀ c ∈ cs, c.Usable).mpr
    ⟨hcs, fun e _ => h.1 e⟩ e'

theorem usable_get {e : EndPoint} {opens : Bool} {r : Channel × Provider} (h : p.Usable)
    (hget : p.get name e opens = some r) : r.1.Usable ∧ r.2.Usable := by
  unfold Provider.get at hget
  split at hget
  next c cs hpool =>
    obtain rfl := Option.some.inj hget
    have hcs := forall_mem_cons.mp (hpool ▸ h.1 e)
    exact ⟨hcs.1, forall_mem_update h hcs.2, forall_mem_cons.mpr ⟨hcs.1, h.2⟩⟩
  next =>
    split_ifs at hget
    obtain rfl := Option.some.inj hget
    exact ⟨⟨rfl, rfl⟩, h.1, forall_mem_cons.mpr ⟨⟨rfl, rfl⟩, h.2⟩⟩

theorem usable_back {c : Channel} (h : p.Usable) (hc : c.Usable) :
    (p.back maxInPool c).Usable := by
  unfold Provider.back
  dsimp only
  split_ifs
  · have hpool := forall_mem_append.mpr ⟨h.1 c.remote, forall_mem_singleton.mpr hc⟩
    exact ⟨forall_mem_update h hpool, h.2⟩
  · exact h

theorem usable_invoke {i : Invocation} (h : p.Usable) (hrun : i.exchange.run order = .ok ()) :
    (p.invoke name maxInPool order i).Usable := by
  unfold Provider.invoke
  split
  next => exact h
  next c p' hget =>
    rw [hrun]
    have hr := usable_get h hget
    exact usable_back hr.2 hr.1

theorem usable_foldl {is : List Invocation} (h : p.Usable)
    (hrun : ∀ i ∈ is, i.exchange.run order = .ok ()) :
    (is.foldl (Provider.invoke name maxInPool order) p).Usable := by
  induction is generalizing p with
  | nil => exact h
  | cons i is ih =>
    obtain ⟨hi, his⟩ := forall_mem_cons.mp hrun
    exact ih (usable_invoke h hi) his

/-- A call whose exchange fails gives its new channel back, and a call that names the channel's
host gets it. -/
theorem exists_unusable {x : Exchange} {f : Failure} (hrun : x.run order = .error f)
    (hostname : String) (port : ℕ) :
    ∃ c ∈ (Provider.invokeAll name maxInPool order
      [⟨⟨hostname, port⟩, true, x⟩, ⟨⟨name hostname, port⟩, true, x⟩]).handedOut,
      ¬ c.Usable := by
  cases f <;> simp [Provider.invokeAll, Provider.invoke, Provider.get, Provider.new, hrun,
    Provider.back, Channel.Usable]

end Icm.Java.ChannelPool
