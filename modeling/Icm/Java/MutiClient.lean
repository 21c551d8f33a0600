import Icm.Lib.Table
import Icm.Java.Codec

/-!
# The queue thread of the client for many servers

`IcmMutiClient` serves long connections with two threads. A call on a remote service puts its
request into one queue.
-/

namespace Icm.Java

open Icm.Lib Function List

structure RemoteService where
  hostname : JString
  port : Fin 65536
  connectionCount : ℤ

def colon : BitVec 16 := 0x3a

def decimal (n : ℕ) : List (BitVec 16) :=
  if n = 0 then [0x30] else (Nat.digits 10 n).reverse.map fun d => .ofNat 16 (0x30 + d)

def generateKey (hostname : JString) (port : Fin 65536) : List (BitVec 16) :=
  hostname.units ++ colon :: decimal port

theorem ofDigits_decimal (n : ℕ) :
    Nat.ofDigits 10 ((decimal n).reverse.map fun u => u.toNat - 0x30) = n := by
  rcases eq_or_ne n 0 with rfl | hn
  · rfl
  · have hdigits : ((Nat.digits 10 n).map fun d => (BitVec.ofNat 16 (0x30 + d)).toNat - 0x30) =
        Nat.digits 10 n := by
      refine (map_congr_left fun d hd => ?_).trans (map_id _)
      have hlt : d < 10 := Nat.digits_lt_base (by decide) hd
      rw [BitVec.toNat_ofNat, Nat.mod_eq_of_lt (by omega), Nat.add_sub_cancel_left, id]
    rw [decimal, if_neg hn, ← map_reverse, reverse_reverse, map_map]
    exact (congrArg (Nat.ofDigits 10) hdigits).trans (Nat.ofDigits_digits 10 n)

theorem colon_notMem_decimal (n : ℕ) : colon ∉ decimal n := by
  rcases eq_or_ne n 0 with rfl | hn
  · decide
  · rw [decimal, if_neg hn]
    intro hmem
    obtain ⟨d, hd, heq⟩ := mem_map.mp hmem
    have hlt : d < 10 := Nat.digits_lt_base (by decide) (mem_reverse.mp hd)
    have hnat : (0x30 + d) % 2 ^ 16 = 0x3a := by
      have hcolon := congrArg BitVec.toNat heq
      rwa [BitVec.toNat_ofNat] at hcolon
    omega

theorem generateKey_inj {hostname hostname' : JString} {port port' : Fin 65536}
    (h : generateKey hostname port = generateKey hostname' port') :
    hostname = hostname' ∧ port = port' := by
  obtain ⟨hhost, hport⟩ := append_cons_inj_last (colon_notMem_decimal port)
    (colon_notMem_decimal port') h
  have hvalue := congrArg (fun us => Nat.ofDigits 10 (us.reverse.map fun u => u.toNat - 0x30)) hport
  simp only [ofDigits_decimal] at hvalue
  obtain ⟨units, _⟩ := hostname
  subst hhost
  exact ⟨rfl, Fin.ext hvalue⟩

structure Request where
  hostname : JString
  port : Fin 65536
  id : Option (BitVec 32)
  buffer : Option (List UInt8)
  deriving DecidableEq

def Request.key (r : Request) : List (BitVec 16) := generateKey r.hostname r.port

structure ChannelContext where
  hostname : JString
  remotePort : Fin 65536
  contextQueue : List Request
  responseWaitedContextMap : BitVec 32 → Option Request

def ChannelContext.key (cc : ChannelContext) : List (BitVec 16) :=
  generateKey cc.hostname cc.remotePort

inductive SelectionKey
  | none
  | valid (attachment : ℕ)
  | cancelled (attachment : ℕ)
  deriving DecidableEq

def SelectionKey.attachment : SelectionKey → Option ℕ
  | none => Option.none
  | valid n | cancelled n => some n

structure ChannelQueue where
  capacity : ℕ
  channels : List ℕ

def ChannelQueue.offer (q : ChannelQueue) (channel : ℕ) : ChannelQueue :=
  if q.channels.length < q.capacity then { q with channels := q.channels ++ [channel] } else q

namespace ChannelQueue

variable {q : ChannelQueue} {channel x : ℕ}

@[simp] theorem offer_capacity (q : ChannelQueue) (channel : ℕ) :
    (q.offer channel).capacity = q.capacity := by
  rw [offer]
  split_ifs <;> rfl

theorem mem_of_mem_offer (h : x ∈ (q.offer channel).channels) : x ∈ q.channels ∨ x = channel := by
  rw [offer] at h
  split_ifs at h
  · simpa using h
  · exact Or.inl h

theorem nodup_offer (h : q.channels.Nodup) (hnot : channel ∉ q.channels) :
    (q.offer channel).channels.Nodup := by
  rw [offer]
  split_ifs
  · exact nodup_append.mpr ⟨h, nodup_singleton _, by rintro a ha b hb rfl; simp_all⟩
  · exact h

theorem offer_ne_nil (h : 0 < q.capacity) : (q.offer channel).channels ≠ [] := by
  rw [offer]
  split_ifs with hroom
  · simp
  · intro hnil
    rw [hnil] at hroom
    exact hroom h

end ChannelQueue

inductive Uncaught
  | nullPointer
  | cancelledKey
  deriving DecidableEq

/-- Where the queue thread is: before the call that takes a request, before the one that takes a
channel for it, before it hands the request over, before it gives the channel back, before it asks
for the channel to be written, or at its end. -/
inductive QueueThread
  | take
  | takeChannel (context : Request)
  | hand (context : Request) (channel : ℕ)
  | giveBack (context : Request) (channel : ℕ)
  | interest (channel : ℕ)
  | dead (e : Uncaught)
  deriving DecidableEq

namespace QueueThread

def Holds : QueueThread → ℕ → Prop
  | hand _ channel, x | giveBack _ channel, x | interest channel, x => x = channel
  | take, _ | takeChannel _, _ | dead _, _ => False

instance : ∀ t x, Decidable (Holds t x)
  | hand _ channel, x | giveBack _ channel, x | interest channel, x =>
    inferInstanceAs (Decidable (x = channel))
  | take, _ | takeChannel _, _ | dead _, _ => inferInstanceAs (Decidable False)

def Borrows : QueueThread → ℕ → Prop
  | hand _ channel, x | giveBack _ channel, x => x = channel
  | take, _ | takeChannel _, _ | interest _, _ | dead _, _ => False

theorem Borrows.holds {t : QueueThread} {x : ℕ} (h : t.Borrows x) : t.Holds x := by
  cases t <;> first | exact h | exact h.elim

def Returns : QueueThread → List (BitVec 16) → Prop
  | hand context _, key | giveBack context _, key => context.key = key
  | take, _ | takeChannel _, _ | interest _, _ | dead _, _ => False

def context : QueueThread → List Request
  | takeChannel context | hand context _ => [context]
  | take | giveBack _ _ | interest _ | dead _ => []

end QueueThread

/-- `IcmMutiClient`. -/
structure IcmMutiClient where
  remoteServices : List RemoteService
  requestQueue : List Request
  channelMap : List (BitVec 16) → Option ChannelQueue
  keys : ℕ → SelectionKey
  nextChannel : ℕ
  contexts : ℕ → ChannelContext
  nextContext : ℕ
  toRecover : List ℕ
  queueThread : QueueThread
  issued : List Request
  handed : List (Request × ℕ)

namespace IcmMutiClient

def updateQueue (c : IcmMutiClient) (key : List (BitVec 16)) (f : ChannelQueue → ChannelQueue) :
    IcmMutiClient :=
  { c with channelMap := update c.channelMap key ((c.channelMap key).map f) }

def register (c : IcmMutiClient) (context : ℕ) : IcmMutiClient :=
  { c with
    keys := update c.keys c.nextChannel (.valid context)
    nextChannel := c.nextChannel + 1 }.updateQueue (c.contexts context).key
      fun q => q.offer c.nextChannel

def addConnection (c : IcmMutiClient) (service : RemoteService) (connects : Bool) : IcmMutiClient :=
  let capacity := if service.connectionCount ≤ 0 then 1 else service.connectionCount.toNat
  let key := generateKey service.hostname service.port
  let c := { c with
    remoteServices := c.remoteServices ++ [service]
    channelMap := update c.channelMap key (some ⟨capacity, []⟩) }
  if connects then
    { c with
      contexts := update c.contexts c.nextContext
        ⟨service.hostname, service.port, [], fun _ => none⟩
      nextContext := c.nextContext + 1 }.register c.nextContext
  else c

def new : IcmMutiClient where
  remoteServices := []
  requestQueue := []
  channelMap := fun _ => none
  keys := fun _ => .none
  nextChannel := 0
  contexts := fun _ => ⟨.empty, 0, [], fun _ => none⟩
  nextContext := 0
  toRecover := []
  queueThread := .take
  issued := []
  handed := []

def startup (services : List (RemoteService × Bool)) : IcmMutiClient :=
  services.foldl (fun c s => c.addConnection s.1 s.2) new

def invoke (c : IcmMutiClient) (service : RemoteService) (hasResponse : Bool) (id : BitVec 32)
    (buffer : List UInt8) : IcmMutiClient :=
  let context : Request :=
    ⟨service.hostname, service.port, if hasResponse then some id else none, some buffer⟩
  { c with requestQueue := c.requestQueue ++ [context], issued := c.issued ++ [context] }

def handTo (c : IcmMutiClient) (cc : ℕ) (id : BitVec 32) (context : Request) : IcmMutiClient :=
  let channelContext := c.contexts cc
  { c with
    contexts := update c.contexts cc { channelContext with
      responseWaitedContextMap :=
        update channelContext.responseWaitedContextMap id (some context)
      contextQueue := channelContext.contextQueue ++ [context] }
    handed := c.handed ++ [(context, cc)] }

def queueStep (c : IcmMutiClient) : IcmMutiClient :=
  match c.queueThread with
  | .take =>
    match c.requestQueue with
    | [] => c
    | context :: rest =>
      if (c.channelMap context.key).isSome ∧ context.buffer.isSome then
        { c with requestQueue := rest, queueThread := .takeChannel context }
      else { c with requestQueue := rest }
  | .takeChannel context =>
    match c.channelMap context.key with
    | some ⟨_, channel :: _⟩ =>
      { c.updateQueue context.key fun q => { q with channels := q.channels.tail } with
        queueThread := .hand context channel }
    | _ => c
  | .hand context channel =>
    match (c.keys channel).attachment with
    | none => { c with queueThread := .dead .nullPointer }
    | some cc =>
      match context.id with
      -- the map of the calls that wait is a `ConcurrentHashMap`, which has no null keys
      | none => { c with queueThread := .dead .nullPointer }
      | some id => { c.handTo cc id context with queueThread := .giveBack context channel }
  | .giveBack context channel =>
    { c.updateQueue context.key fun q => q.offer channel with queueThread := .interest channel }
  | .interest channel =>
    match c.keys channel with
    | .valid _ => { c with queueThread := .take }
    | _ => { c with queueThread := .dead .cancelledKey }
  | .dead _ => c

def writeNext (cc : ChannelContext) (breaks : Bool) : ChannelContext :=
  match cc.contextQueue with
  | [] => cc
  | context :: rest => { cc with contextQueue := if breaks then rest ++ [context] else rest }

variable (c : IcmMutiClient)

def breakConnection (channel : ℕ) : IcmMutiClient :=
  match c.keys channel with
  | .valid cc =>
    { c with
      keys := update c.keys channel (.cancelled cc)
      toRecover := cc :: c.toRecover }.updateQueue (c.contexts cc).key
        fun q => { q with channels := q.channels.erase channel }
  | _ => c

inductive Event
  | invoke (service : ℕ) (hasResponse : Bool) (id : BitVec 32) (buffer : List UInt8)
  | queueThread
  | write (channel : ℕ) (breaks : Bool)
  | response (channel : ℕ) (id : BitVec 32)
  | readBreaks (channel : ℕ)
  | select (channel : ℕ)
  | recover (context : ℕ) (connects : Bool)

def updateContext (channel : ℕ) (f : ChannelContext → ChannelContext) :
    IcmMutiClient :=
  match c.keys channel with
  | .valid cc => { c with contexts := update c.contexts cc (f (c.contexts cc)) }
  | _ => c

def step : Event → IcmMutiClient
  | .invoke service hasResponse id buffer =>
    match c.remoteServices[service]? with
    | none => c
    | some s => c.invoke s hasResponse id buffer
  | .queueThread => c.queueStep
  | .write channel breaks =>
    let c := c.updateContext channel fun cc => writeNext cc breaks
    if breaks then c.breakConnection channel else c
  | .response channel id =>
    c.updateContext channel fun cc =>
      { cc with
        responseWaitedContextMap := update cc.responseWaitedContextMap id none }
  | .readBreaks channel => c.breakConnection channel
  | .select channel =>
    match c.keys channel with
    | .cancelled _ => { c with keys := update c.keys channel .none }
    | _ => c
  | .recover context connects =>
    if context ∈ c.toRecover ∧ connects = true ∧ (c.channelMap (c.contexts context).key).isSome then
      { c with toRecover := c.toRecover.erase context }.register context
    else c

def Fair : Event → Prop
  | .invoke _ hasResponse _ _ => hasResponse = true
  | .write channel breaks => breaks = true → ¬ c.queueThread.Holds channel
  | .readBreaks channel => ¬ c.queueThread.Holds channel
  | .queueThread | .response _ _ | .select _ | .recover _ _ => True

instance (c : IcmMutiClient) : ∀ e, Decidable (c.Fair e)
  | .invoke _ hasResponse _ _ => inferInstanceAs (Decidable (hasResponse = true))
  | .write channel breaks =>
    inferInstanceAs (Decidable (breaks = true → ¬ c.queueThread.Holds channel))
  | .readBreaks channel => inferInstanceAs (Decidable (¬ c.queueThread.Holds channel))
  | .queueThread | .response _ _ | .select _ | .recover _ _ => .isTrue trivial

def Open (channel : ℕ) (key : List (BitVec 16)) : Prop :=
  ∃ cc, c.keys channel = .valid cc ∧ (c.contexts cc).key = key

def Borrowed (context : Request) (channel : ℕ) : Prop :=
  c.Open channel context.key ∧
    ∀ q, c.channelMap context.key = some q → channel ∉ q.channels

def ThreadSound : Prop :=
  match c.queueThread with
  | .take | .takeChannel _ => True
  | .hand context channel | .giveBack context channel => c.Borrowed context channel
  | .interest channel => ∃ key, c.Open channel key
  | .dead _ => False

def Deliverable (context : Request) : Prop :=
  context.id.isSome ∧ context.buffer.isSome ∧ (c.channelMap context.key).isSome

structure Sound (c : IcmMutiClient) : Prop where
  services : ∀ s ∈ c.remoteServices, (c.channelMap (generateKey s.hostname s.port)).isSome
  queues : ∀ key q, c.channelMap key = some q →
    0 < q.capacity ∧ q.channels.Nodup ∧ ∀ channel ∈ q.channels, c.Open channel key
  fresh : ∀ channel, c.nextChannel ≤ channel → c.keys channel = .none
  attached : ∀ channel cc, c.keys channel = .valid cc → cc < c.nextContext
  recovered : ∀ cc ∈ c.toRecover, cc < c.nextContext
  thread : c.ThreadSound
  issued : c.issued = c.handed.map Prod.fst ++ (c.queueThread.context ++ c.requestQueue)
  deliverable : ∀ context ∈ c.queueThread.context ++ c.requestQueue, c.Deliverable context
  handed : ∀ p ∈ c.handed, p.2 < c.nextContext ∧
    (c.contexts p.2).hostname = p.1.hostname ∧ (c.contexts p.2).remotePort = p.1.port

section Frame

variable {c c' : IcmMutiClient} {k k' : List (BitVec 16)} {f : ChannelQueue → ChannelQueue}

theorem updateQueue_channelMap (c : IcmMutiClient) (k : List (BitVec 16))
    (f : ChannelQueue → ChannelQueue) :
    (c.updateQueue k f).channelMap =
      update c.channelMap k ((c.channelMap k).map f) := rfl

theorem updateQueue_eq_some {q : ChannelQueue} (h : (c.updateQueue k f).channelMap k' = some q) :
    (k' = k ∧ ∃ q₀, c.channelMap k = some q₀ ∧ f q₀ = q) ∨ k' ≠ k ∧ c.channelMap k' = some q := by
  rw [updateQueue_channelMap] at h
  rcases eq_or_ne k' k with rfl | hne
  · rw [update_self, Option.map_eq_some_iff] at h
    exact Or.inl ⟨rfl, h⟩
  · rw [update_of_ne hne] at h
    exact Or.inr ⟨hne, h⟩

theorem isSome_updateQueue (k k' : List (BitVec 16)) (f : ChannelQueue → ChannelQueue) :
    ((c.updateQueue k f).channelMap k').isSome = (c.channelMap k').isSome := by
  rw [updateQueue_channelMap]
  rcases eq_or_ne k' k with rfl | hne
  · rw [update_self, Option.isSome_map]
  · rw [update_of_ne hne]

theorem ThreadSound.open_of_holds (h : c.ThreadSound) {channel : ℕ}
    (hholds : c.queueThread.Holds channel) : ∃ key, c.Open channel key := by
  rw [ThreadSound] at h
  cases ht : c.queueThread with
  | take => simp [ht, QueueThread.Holds] at hholds
  | takeChannel context => simp [ht, QueueThread.Holds] at hholds
  | hand context x =>
    rw [ht] at h hholds
    obtain rfl : channel = x := hholds
    exact ⟨_, h.1⟩
  | giveBack context x =>
    rw [ht] at h hholds
    obtain rfl : channel = x := hholds
    exact ⟨_, h.1⟩
  | interest x =>
    rw [ht] at h hholds
    obtain rfl : channel = x := hholds
    exact h
  | dead e => simp [ht, QueueThread.Holds] at hholds

theorem ThreadSound.congr (h : c.ThreadSound) (hthread : c'.queueThread = c.queueThread)
    (hopen : ∀ channel key, c.queueThread.Holds channel → c.Open channel key →
      c'.Open channel key)
    (hqueue : ∀ channel key q', c.queueThread.Borrows channel → c'.channelMap key = some q' →
      (∀ q, c.channelMap key = some q → channel ∉ q.channels) → channel ∉ q'.channels) :
    c'.ThreadSound := by
  have hborrowed {context : Request} {channel : ℕ} (hborrows : c.queueThread.Borrows channel)
      (hb : c.Borrowed context channel) : c'.Borrowed context channel :=
    ⟨hopen channel _ hborrows.holds hb.1, fun q' hq' => hqueue channel _ q' hborrows hq' hb.2⟩
  simp only [ThreadSound, hthread] at h ⊢
  cases ht : c.queueThread with
  | take => trivial
  | takeChannel context => trivial
  | hand context channel =>
    rw [ht] at h
    exact hborrowed (by rw [ht]; rfl) h
  | giveBack context channel =>
    rw [ht] at h
    exact hborrowed (by rw [ht]; rfl) h
  | interest channel =>
    rw [ht] at h
    obtain ⟨key, hkey⟩ := h
    exact ⟨key, hopen channel key (by rw [ht]; rfl) hkey⟩
  | dead e =>
    rw [ht] at h
    exact h

namespace Sound

theorem setContexts (h : c.Sound) {contexts : ℕ → ChannelContext}
    (hhost : ∀ n, (contexts n).hostname = (c.contexts n).hostname)
    (hport : ∀ n, (contexts n).remotePort = (c.contexts n).remotePort) :
    Sound { c with contexts := contexts } := by
  have hopen {channel : ℕ} {key : List (BitVec 16)} (ho : c.Open channel key) :
      Open { c with contexts := contexts } channel key := by
    obtain ⟨cc, hcc, rfl⟩ := ho
    refine ⟨cc, hcc, ?_⟩
    simp only [ChannelContext.key, hhost, hport]
  refine { h with queues := ?_, thread := ?_, handed := ?_ }
  · intro key q hq
    obtain ⟨hcap, hnodup, hchannels⟩ := h.queues key q hq
    exact ⟨hcap, hnodup, fun channel hmem => hopen (hchannels channel hmem)⟩
  · exact h.thread.congr rfl (fun _ _ _ ho => hopen ho) fun _ _ q' _ hq' hnot => hnot q' hq'
  · intro p hp
    obtain ⟨hlt, hh, hp'⟩ := h.handed p hp
    exact ⟨hlt, (hhost p.2).trans hh, (hport p.2).trans hp'⟩

theorem updateQueue (h : c.Sound)
    (hf : ∀ q, c.channelMap k = some q → 0 < (f q).capacity ∧ (f q).channels.Nodup ∧
      ∀ channel ∈ (f q).channels, c.Open channel k)
    (hout : ∀ q channel, c.channelMap k = some q → c.queueThread.Borrows channel →
      channel ∉ q.channels → channel ∉ (f q).channels) :
    Sound (c.updateQueue k f) := by
  refine { h with services := ?_, queues := ?_, thread := ?_, deliverable := ?_ }
  · intro s hs
    rw [isSome_updateQueue]
    exact h.services s hs
  · intro key q hq
    rcases updateQueue_eq_some hq with ⟨rfl, q₀, hq₀, rfl⟩ | ⟨-, hq⟩
    · exact hf q₀ hq₀
    · exact h.queues key q hq
  · refine h.thread.congr rfl (fun _ _ _ ho => ho) fun channel key q' hborrows hq' hnot => ?_
    rcases updateQueue_eq_some hq' with ⟨rfl, q₀, hq₀, rfl⟩ | ⟨-, hq⟩
    · exact hout q₀ channel hq₀ hborrows (hnot q₀ hq₀)
    · exact hnot q' hq
  · intro r hr
    obtain ⟨hid, hbuffer, hqueue⟩ := h.deliverable r hr
    exact ⟨hid, hbuffer, by rwa [isSome_updateQueue]⟩

variable {channel : ℕ}

section

variable (h : c.Sound)
include h

theorem closeKey {key : SelectionKey} (hkey : ∀ cc, key ≠ .valid cc)
    (hlt : channel < c.nextChannel)
    (hqueue : ∀ k q, c.channelMap k = some q → channel ∉ q.channels)
    (hholds : ¬ c.queueThread.Holds channel) :
    Sound { c with keys := update c.keys channel key } := by
  have hopen {x : ℕ} {k : List (BitVec 16)} (hx : x ≠ channel) (ho : c.Open x k) :
      Open { c with keys := update c.keys channel key } x k := by
    obtain ⟨cc, hcc, hk⟩ := ho
    exact ⟨cc, (update_of_ne hx _ _).trans hcc, hk⟩
  refine { h with queues := ?_, fresh := ?_, attached := ?_, thread := ?_ }
  · intro k q hq
    obtain ⟨hcap, hnodup, hchannels⟩ := h.queues k q hq
    refine ⟨hcap, hnodup, fun x hx => hopen ?_ (hchannels x hx)⟩
    rintro rfl
    exact hqueue k q hq hx
  · intro x hx
    have hne : x ≠ channel := (hlt.trans_le hx).ne'
    exact (update_of_ne hne _ _).trans (h.fresh x hx)
  · intro x cc hcc
    rcases eq_or_ne x channel with rfl | hne
    · exact absurd ((update_self _ _ _).symm.trans hcc) (hkey cc)
    · exact h.attached x cc ((update_of_ne hne _ _).symm.trans hcc)
  · refine h.thread.congr rfl (fun x k hx ho => hopen ?_ ho) fun _ _ q' _ hq' hnot => hnot q' hq'
    rintro rfl
    exact hholds hx

theorem register {cc : ℕ} (hcc : cc < c.nextContext) : Sound (c.register cc) := by
  have hnone : c.keys c.nextChannel = .none := h.fresh _ le_rfl
  obtain ⟨c₁, hc₁⟩ : ∃ c₁ : IcmMutiClient, c₁ =
    { c with
      keys := update c.keys c.nextChannel (.valid cc)
      nextChannel := c.nextChannel + 1 } := ⟨_, rfl⟩
  have hnew : c₁.Open c.nextChannel (c.contexts cc).key := by
    rw [hc₁]
    exact ⟨cc, update_self _ _ _, rfl⟩
  have hne {x : ℕ} {k : List (BitVec 16)} (ho : c.Open x k) : x ≠ c.nextChannel := by
    rintro rfl
    obtain ⟨n, hn, -⟩ := ho
    rw [hnone] at hn
    exact SelectionKey.noConfusion hn
  have hopen {x : ℕ} {k : List (BitVec 16)} (ho : c.Open x k) : c₁.Open x k := by
    have hx := hne ho
    obtain ⟨n, hn, hk⟩ := ho
    rw [hc₁]
    exact ⟨n, (update_of_ne hx _ _).trans hn, hk⟩
  have h₁ : Sound c₁ := by
    rw [hc₁] at hopen ⊢
    refine { h with queues := ?_, fresh := ?_, attached := ?_, thread := ?_ }
    · intro k q hq
      obtain ⟨hcap, hnodup, hchannels⟩ := h.queues k q hq
      exact ⟨hcap, hnodup, fun x hx => hopen (hchannels x hx)⟩
    · intro x hx
      have hx' : c.nextChannel + 1 ≤ x := hx
      exact (update_of_ne (by omega) _ _).trans (h.fresh x (by omega))
    · intro x n hn
      rcases eq_or_ne x c.nextChannel with rfl | hx
      · obtain rfl := SelectionKey.valid.inj ((update_self _ _ _).symm.trans hn)
        exact hcc
      · exact h.attached x n ((update_of_ne hx _ _).symm.trans hn)
    · exact h.thread.congr rfl (fun _ _ _ ho => hopen ho) fun _ _ q' _ hq' hnot => hnot q' hq'
  have hregister : c.register cc =
      c₁.updateQueue (c.contexts cc).key fun q => q.offer c.nextChannel := by
    rw [hc₁]
    rfl
  have hmap : c₁.channelMap = c.channelMap := by rw [hc₁]
  rw [hregister]
  refine h₁.updateQueue (fun q hq => ?_) fun q x hq hborrows hx hmem => ?_
  · rw [hmap] at hq
    obtain ⟨hcap, hnodup, hchannels⟩ := h.queues _ q hq
    refine ⟨by rwa [ChannelQueue.offer_capacity],
      ChannelQueue.nodup_offer hnodup fun hmem => hne (hchannels _ hmem) rfl, fun x hx => ?_⟩
    rcases ChannelQueue.mem_of_mem_offer hx with hx | rfl
    · exact hopen (hchannels x hx)
    · exact hnew
  · rcases ChannelQueue.mem_of_mem_offer hmem with hmem | rfl
    · exact hx hmem
    · obtain ⟨key, hkey⟩ := h.thread.open_of_holds (by rw [hc₁] at hborrows; exact hborrows.holds)
      exact hne hkey rfl

theorem setThread {t : QueueThread} (hcontext : t.context = c.queueThread.context)
    (ht : ThreadSound { c with queueThread := t }) : Sound { c with queueThread := t } := by
  refine { h with thread := ht, issued := ?_, deliverable := ?_ }
  · dsimp only
    rw [hcontext]
    exact h.issued
  · dsimp only
    rw [hcontext]
    exact h.deliverable

theorem invoke {service : RemoteService} (hs : service ∈ c.remoteServices)
    (id : BitVec 32) (buffer : List UInt8) : Sound (c.invoke service true id buffer) := by
  refine { h with issued := ?_, deliverable := ?_ }
  · simp only [IcmMutiClient.invoke, h.issued, append_assoc]
  · intro r hr
    rcases mem_append.mp hr with hr | hr
    · exact h.deliverable r (mem_append_left _ hr)
    · rcases mem_append.mp hr with hr | hr
      · exact h.deliverable r (mem_append_right _ hr)
      · obtain rfl := mem_singleton.mp hr
        exact ⟨rfl, rfl, h.services service hs⟩

theorem updateContext (channel : ℕ) {f : ChannelContext → ChannelContext}
    (hhost : ∀ cc, (f cc).hostname = cc.hostname)
    (hport : ∀ cc, (f cc).remotePort = cc.remotePort) : Sound (c.updateContext channel f) := by
  rw [IcmMutiClient.updateContext]
  cases c.keys channel with
  | none => exact h
  | cancelled cc => exact h
  | valid cc =>
    refine h.setContexts (fun n => ?_) fun n => ?_
    · rcases eq_or_ne n cc with rfl | hn
      · rw [update_self, hhost]
      · rw [update_of_ne hn]
    · rcases eq_or_ne n cc with rfl | hn
      · rw [update_self, hport]
      · rw [update_of_ne hn]

theorem breakConnection (hholds : ¬ c.queueThread.Holds channel) :
    Sound (c.breakConnection channel) := by
  rw [IcmMutiClient.breakConnection]
  cases hkey : c.keys channel with
  | none => exact h
  | cancelled cc => exact h
  | valid cc =>
    have hlt : channel < c.nextChannel := by
      by_contra hle
      rw [h.fresh channel (not_lt.mp hle)] at hkey
      exact SelectionKey.noConfusion hkey
    -- the channel is taken out of its queue, and is in no other one
    have herased : Sound (c.updateQueue (c.contexts cc).key
        fun q => { q with channels := q.channels.erase channel }) := by
      refine h.updateQueue (fun q hq => ?_) fun q x _ _ hx hmem => hx (mem_of_mem_erase hmem)
      obtain ⟨hcap, hnodup, hchannels⟩ := h.queues _ q hq
      exact ⟨hcap, hnodup.erase channel, fun x hx => hchannels x (mem_of_mem_erase hx)⟩
    have hout : ∀ k q, (c.updateQueue (c.contexts cc).key
        fun q => { q with channels := q.channels.erase channel }).channelMap k = some q →
        channel ∉ q.channels := by
      intro k q hq hmem
      rcases updateQueue_eq_some hq with ⟨rfl, q₀, hq₀, rfl⟩ | ⟨hne, hq⟩
      · exact (h.queues _ q₀ hq₀).2.1.not_mem_erase hmem
      · obtain ⟨cc', hcc', hk⟩ := (h.queues k q hq).2.2 channel hmem
        obtain rfl := SelectionKey.valid.inj (hkey.symm.trans hcc')
        exact hne hk.symm
    have hclosed := herased.closeKey (show ∀ n, SelectionKey.cancelled cc ≠ .valid n from nofun) hlt
      hout hholds
    exact { hclosed with
      recovered := forall_mem_cons.mpr ⟨h.attached channel cc hkey, h.recovered⟩ }

theorem select {channel cc : ℕ} (hkey : c.keys channel = .cancelled cc) :
    Sound { c with keys := update c.keys channel .none } := by
  have hnot {k : List (BitVec 16)} (ho : c.Open channel k) : False := by
    obtain ⟨n, hn, -⟩ := ho
    rw [hkey] at hn
    exact SelectionKey.noConfusion hn
  refine h.closeKey nofun ?_ (fun k q hq hmem => hnot ((h.queues k q hq).2.2 channel hmem)) ?_
  · by_contra hle
    rw [h.fresh channel (not_lt.mp hle)] at hkey
    exact SelectionKey.noConfusion hkey
  · intro hholds
    obtain ⟨k, ho⟩ := h.thread.open_of_holds hholds
    exact hnot ho

end

variable {context : Request}

theorem takeRequest (h : c.Sound) (ht : c.queueThread = .take)
    {rest : List Request} (hq : c.requestQueue = context :: rest) :
    Sound { c with requestQueue := rest, queueThread := .takeChannel context } := by
  refine { h with thread := trivial, issued := ?_, deliverable := ?_ }
  · rw [h.issued, ht, hq]
    rfl
  · have hdeliverable := h.deliverable
    rw [ht, hq] at hdeliverable
    exact hdeliverable

theorem takeChannel (h : c.Sound) (ht : c.queueThread = .takeChannel context)
    {capacity channel : ℕ} {channels : List ℕ}
    (hq : c.channelMap context.key = some ⟨capacity, channel :: channels⟩) :
    Sound { c.updateQueue context.key fun q => { q with channels := q.channels.tail } with
      queueThread := .hand context channel } := by
  obtain ⟨hcap, hnodup, hchannels⟩ := h.queues _ _ hq
  have hupdated : Sound (c.updateQueue context.key
      fun q => { q with channels := q.channels.tail }) := by
    refine h.updateQueue (fun q hq' => ?_) fun q x _ _ hx hmem => hx (mem_of_mem_tail hmem)
    obtain rfl := Option.some.inj (hq.symm.trans hq')
    exact ⟨hcap, (nodup_cons.mp hnodup).2,
      fun x hx => hchannels x (mem_cons_of_mem _ hx)⟩
  have hcontext : (QueueThread.hand context channel).context = c.queueThread.context := by
    rw [ht]
    rfl
  refine hupdated.setThread hcontext
    ⟨hchannels channel mem_cons_self, fun q hq' hmem => ?_⟩
  rcases updateQueue_eq_some hq' with ⟨-, q₀, hq₀, rfl⟩ | ⟨hne, -⟩
  · obtain rfl := Option.some.inj (hq.symm.trans hq₀)
    exact (nodup_cons.mp hnodup).1 hmem
  · exact hne rfl

theorem hand (h : c.Sound) {channel cc : ℕ}
    (ht : c.queueThread = .hand context channel) (hkey : c.keys channel = .valid cc)
    (id : BitVec 32) :
    Sound { c.handTo cc id context with queueThread := .giveBack context channel } := by
  have hthread := h.thread
  simp only [ThreadSound, ht] at hthread
  obtain ⟨⟨n, hn, hplace⟩, hout⟩ := hthread
  obtain rfl := SelectionKey.valid.inj (hkey.symm.trans hn)
  obtain ⟨hhost, hport⟩ := generateKey_inj hplace
  -- the context keeps its host and port
  have hcontexts : Sound { c with contexts := (c.handTo cc id context).contexts } := by
    refine h.setContexts (fun n => ?_) fun n => ?_
    · rcases eq_or_ne n cc with rfl | hne
      · simp only [handTo, update_self]
      · simp only [handTo, update_of_ne hne]
    · rcases eq_or_ne n cc with rfl | hne
      · simp only [handTo, update_self]
      · simp only [handTo, update_of_ne hne]
  have hborrowed := hcontexts.thread
  simp only [ThreadSound, ht] at hborrowed
  refine { hcontexts with thread := hborrowed, issued := ?_, deliverable := ?_, handed := ?_ }
  · have hissued := h.issued
    rw [ht] at hissued
    simp only [handTo, QueueThread.context, hissued, map_append, map_cons, map_nil,
      append_assoc, nil_append]
  · intro r hr
    refine h.deliverable r ?_
    rw [ht]
    exact mem_cons_of_mem _ hr
  · intro p hp
    rcases mem_append.mp hp with hp | hp
    · exact hcontexts.handed p hp
    · obtain rfl := mem_singleton.mp hp
      refine ⟨h.attached channel cc hkey, ?_, ?_⟩
      · simpa [handTo] using hhost
      · simpa [handTo] using hport

theorem giveBack (h : c.Sound)
    (ht : c.queueThread = .giveBack context channel) :
    Sound { c.updateQueue context.key fun q => q.offer channel with
      queueThread := .interest channel } := by
  have hthread := h.thread
  simp only [ThreadSound, ht] at hthread
  obtain ⟨hopen, hout⟩ := hthread
  have hidle : Sound { c with queueThread := .interest channel } :=
    h.setThread (by rw [ht]; rfl) ⟨_, hopen⟩
  refine hidle.updateQueue (fun q hq => ?_) fun q x _ hborrows => hborrows.elim
  obtain ⟨hcap, hnodup, hchannels⟩ := h.queues _ q hq
  refine ⟨by rwa [ChannelQueue.offer_capacity], ChannelQueue.nodup_offer hnodup (hout q hq),
    fun x hx => ?_⟩
  rcases ChannelQueue.mem_of_mem_offer hx with hx | rfl
  · exact hchannels x hx
  · exact hopen

end Sound

end Frame

section QueueThread

variable {c : IcmMutiClient} {context : Request} {channel : ℕ}

theorem Sound.queueStep_take (h : c.Sound) (ht : c.queueThread = .take) {rest : List Request}
    (hq : c.requestQueue = context :: rest) :
    c.queueStep = { c with requestQueue := rest, queueThread := .takeChannel context } := by
  have hmem : context ∈ c.queueThread.context ++ c.requestQueue := by
    rw [ht, hq]
    exact mem_cons_self
  obtain ⟨-, hbuffer, hqueue⟩ := h.deliverable context hmem
  simp only [queueStep, ht, hq, hqueue, hbuffer, and_self, if_true]

theorem queueStep_takeChannel (ht : c.queueThread = .takeChannel context) {capacity : ℕ}
    {channels : List ℕ} (hq : c.channelMap context.key = some ⟨capacity, channel :: channels⟩) :
    c.queueStep =
      { c.updateQueue context.key fun q => { q with channels := q.channels.tail } with
        queueThread := .hand context channel } := by
  simp only [queueStep, ht, hq]

theorem Sound.queueStep_hand (h : c.Sound) (ht : c.queueThread = .hand context channel) :
    ∃ cc id, c.keys channel = .valid cc ∧
      c.queueStep = { c.handTo cc id context with queueThread := .giveBack context channel } := by
  obtain ⟨⟨cc, hcc, -⟩, -⟩ : c.Borrowed context channel := by
    have hthread := h.thread
    simpa only [ThreadSound, ht] using hthread
  obtain ⟨id, hid⟩ := Option.isSome_iff_exists.mp
    (h.deliverable context (by rw [ht]; exact mem_cons_self)).1
  refine ⟨cc, id, hcc, ?_⟩
  simp only [queueStep, ht, hcc, SelectionKey.attachment, hid]

theorem queueStep_giveBack (ht : c.queueThread = .giveBack context channel) :
    c.queueStep =
      { c.updateQueue context.key fun q => q.offer channel with
        queueThread := .interest channel } := by
  simp only [queueStep, ht]

theorem Sound.queueStep_interest (h : c.Sound) (ht : c.queueThread = .interest channel) :
    c.queueStep = { c with queueThread := .take } := by
  obtain ⟨key, cc, hcc, -⟩ : ∃ key, c.Open channel key := by
    have hthread := h.thread
    simpa only [ThreadSound, ht] using hthread
  simp only [queueStep, ht, hcc]

theorem Sound.queueStep (h : c.Sound) : c.queueStep.Sound := by
  cases ht : c.queueThread with
  | take =>
    cases hq : c.requestQueue with
    | nil =>
      rw [IcmMutiClient.queueStep, ht]
      simpa only [hq] using h
    | cons context rest =>
      rw [h.queueStep_take ht hq]
      exact h.takeRequest ht hq
  | takeChannel context =>
    rcases hq : c.channelMap context.key with _ | ⟨capacity, _ | ⟨channel, channels⟩⟩
    · simpa only [IcmMutiClient.queueStep, ht, hq] using h
    · simpa only [IcmMutiClient.queueStep, ht, hq] using h
    · rw [queueStep_takeChannel ht hq]
      exact h.takeChannel ht hq
  | hand context channel =>
    obtain ⟨cc, id, hcc, hstep⟩ := h.queueStep_hand ht
    rw [hstep]
    exact h.hand ht hcc id
  | giveBack context channel =>
    rw [queueStep_giveBack ht]
    exact h.giveBack ht
  | interest channel =>
    rw [h.queueStep_interest ht]
    exact h.setThread (by rw [ht]; rfl) trivial
  | dead e => simpa only [IcmMutiClient.queueStep, ht] using h

end QueueThread

section Run

variable {c : IcmMutiClient}

theorem updateContext_queueThread (c : IcmMutiClient) (channel : ℕ)
    (f : ChannelContext → ChannelContext) :
    (c.updateContext channel f).queueThread = c.queueThread := by
  rw [updateContext]
  cases c.keys channel <;> rfl

theorem Sound.step (h : c.Sound) {e : Event} (he : c.Fair e) : (c.step e).Sound := by
  cases e with
  | invoke service hasResponse id buffer =>
    obtain rfl : hasResponse = true := he
    rw [IcmMutiClient.step]
    cases hs : c.remoteServices[service]? with
    | none => exact h
    | some s => exact h.invoke (mem_of_getElem? hs) id buffer
  | queueThread => exact h.queueStep
  | write channel breaks =>
    have hwritten : Sound (c.updateContext channel fun cc => writeNext cc breaks) := by
      refine h.updateContext channel (fun cc => ?_) fun cc => ?_ <;>
      · rw [writeNext]
        cases cc.contextQueue <;> rfl
    cases breaks with
    | false => exact hwritten
    | true =>
      refine hwritten.breakConnection ?_
      rw [updateContext_queueThread]
      exact he rfl
  | response channel id =>
    rw [IcmMutiClient.step]
    exact h.updateContext channel (fun _ => rfl) fun _ => rfl
  | readBreaks channel => exact h.breakConnection he
  | select channel =>
    rw [IcmMutiClient.step]
    cases hkey : c.keys channel with
    | none => exact h
    | valid cc => exact h
    | cancelled cc => exact h.select hkey
  | recover context connects =>
    rw [IcmMutiClient.step]
    split_ifs with hrecover
    · have herased : Sound { c with toRecover := c.toRecover.erase context } :=
        { h with recovered := fun cc hcc => h.recovered cc (mem_of_mem_erase hcc) }
      exact herased.register (h.recovered context hrecover.1)
    · exact h

section

variable (h : c.Sound) (hthread : c.queueThread = .take)
include h hthread

theorem Sound.newQueue (service : RemoteService)
    {capacity : ℕ} (hcapacity : 0 < capacity) :
    Sound { c with
      remoteServices := c.remoteServices ++ [service]
      channelMap := update c.channelMap (generateKey service.hostname service.port)
        (some ⟨capacity, []⟩) } := by
  have hsome {key : List (BitVec 16)} (hkey : (c.channelMap key).isSome) :
      (update c.channelMap (generateKey service.hostname service.port)
        (some ⟨capacity, []⟩) key).isSome := by
    rw [update_apply]
    split_ifs
    · rfl
    · exact hkey
  refine { h with services := ?_, queues := ?_, thread := ?_, deliverable := ?_ }
  · intro s hs
    rcases mem_append.mp hs with hs | hs
    · exact hsome (h.services s hs)
    · obtain rfl := mem_singleton.mp hs
      dsimp only
      rw [update_self]
      rfl
  · intro key q hq
    dsimp only at hq
    rw [update_apply] at hq
    split_ifs at hq
    · cases hq
      exact ⟨hcapacity, nodup_nil, fun _ hx => absurd hx not_mem_nil⟩
    · exact h.queues key q hq
  · simp only [ThreadSound, hthread]
  · intro r hr
    obtain ⟨hid, hbuffer, hqueue⟩ := h.deliverable r hr
    exact ⟨hid, hbuffer, hsome hqueue⟩

theorem Sound.newContext (cc : ChannelContext) :
    Sound { c with
      contexts := update c.contexts c.nextContext cc
      nextContext := c.nextContext + 1 } := by
  refine { h with queues := ?_, attached := ?_, recovered := ?_, thread := ?_, handed := ?_ }
  · intro key q hq
    obtain ⟨hcap, hnodup, hchannels⟩ := h.queues key q hq
    refine ⟨hcap, hnodup, fun x hx => ?_⟩
    obtain ⟨n, hn, hkey⟩ := hchannels x hx
    refine ⟨n, hn, ?_⟩
    dsimp only
    rwa [update_of_ne (h.attached x n hn).ne]
  · exact fun x n hn => (h.attached x n hn).trans (Nat.lt_succ_self _)
  · exact fun n hn => (h.recovered n hn).trans (Nat.lt_succ_self _)
  · simp only [ThreadSound, hthread]
  · intro p hp
    obtain ⟨hlt, hhost, hport⟩ := h.handed p hp
    dsimp only
    rw [update_of_ne hlt.ne]
    exact ⟨hlt.trans (Nat.lt_succ_self _), hhost, hport⟩

theorem Sound.addConnection (service : RemoteService) (connects : Bool) :
    Sound (c.addConnection service connects) ∧
      (c.addConnection service connects).queueThread = .take := by
  have hcapacity : 0 < (if service.connectionCount ≤ 0 then 1
      else service.connectionCount.toNat : ℕ) := by
    split_ifs <;> omega
  have hqueue := h.newQueue hthread service hcapacity
  cases connects with
  | false => exact ⟨hqueue, hthread⟩
  | true => exact ⟨(hqueue.newContext hthread _).register (Nat.lt_succ_self _), hthread⟩

end

theorem sound_startup (services : List (RemoteService × Bool)) : (startup services).Sound := by
  have hnew : new.Sound := {
    services := forall_mem_nil _
    queues := nofun
    fresh := fun _ _ => rfl
    attached := nofun
    recovered := forall_mem_nil _
    thread := trivial
    issued := rfl
    deliverable := forall_mem_nil _
    handed := forall_mem_nil _ }
  have hfold (c : IcmMutiClient) (h : c.Sound) (hthread : c.queueThread = .take) :
      (services.foldl (fun c s => c.addConnection s.1 s.2) c).Sound := by
    induction services generalizing c with
    | nil => exact h
    | cons s services ih =>
      obtain ⟨hs, hthread⟩ := h.addConnection hthread s.1 s.2
      exact ih _ hs hthread
  exact hfold new hnew rfl

def Connected (c : IcmMutiClient) : Prop :=
  ∀ key q, c.channelMap key = some q → q.channels ≠ [] ∨ c.queueThread.Returns key

def work (c : IcmMutiClient) : ℕ :=
  5 * c.requestQueue.length +
    match c.queueThread with
    | .take | .dead _ => 0
    | .takeChannel _ => 4
    | .hand _ _ => 3
    | .giveBack _ _ => 2
    | .interest _ => 1

theorem Sound.work_queueStep (h : c.Sound) (hconnected : c.Connected) (hwork : 0 < c.work) :
    c.queueStep.work < c.work ∧ c.queueStep.Connected ∧ c.queueStep.issued = c.issued := by
  cases ht : c.queueThread with
  | take =>
    cases hq : c.requestQueue with
    | nil => simp [work, ht, hq] at hwork
    | cons context rest =>
      rw [h.queueStep_take ht hq]
      refine ⟨?_, fun key q hkey => Or.inl ?_, rfl⟩
      · simp only [work, ht, hq, length_cons]
        omega
      · refine (hconnected key q hkey).resolve_right ?_
        rw [ht]
        exact nofun
  | takeChannel context =>
    obtain ⟨q, hq⟩ := Option.isSome_iff_exists.mp
      (h.deliverable context (by rw [ht]; exact mem_cons_self)).2.2
    have hne : q.channels ≠ [] := by
      refine (hconnected _ q hq).resolve_right ?_
      rw [ht]
      exact nofun
    obtain ⟨capacity, _ | ⟨channel, channels⟩⟩ := q
    · exact absurd rfl hne
    · rw [queueStep_takeChannel ht hq]
      refine ⟨?_, fun key q' hkey => ?_, rfl⟩
      · simp [work, ht, IcmMutiClient.updateQueue]
      · rcases updateQueue_eq_some hkey with ⟨rfl, -⟩ | ⟨-, hkey⟩
        · exact Or.inr rfl
        · refine Or.inl ((hconnected key q' hkey).resolve_right ?_)
          rw [ht]
          exact nofun
  | hand context channel =>
    obtain ⟨cc, id, -, hstep⟩ := h.queueStep_hand ht
    rw [hstep]
    refine ⟨?_, fun key q hkey => ?_, rfl⟩
    · simp [work, ht, handTo]
    · have hreturns := hconnected key q hkey
      rwa [ht] at hreturns
  | giveBack context channel =>
    rw [queueStep_giveBack ht]
    refine ⟨?_, fun key q hkey => Or.inl ?_, rfl⟩
    · simp [work, ht, IcmMutiClient.updateQueue]
    · rcases updateQueue_eq_some hkey with ⟨rfl, q₀, hq₀, rfl⟩ | ⟨hne, hkey⟩
      · exact ChannelQueue.offer_ne_nil (h.queues _ q₀ hq₀).1
      · refine (hconnected key q hkey).resolve_right ?_
        rw [ht]
        exact fun hreturns => hne hreturns.symm
  | interest channel =>
    rw [h.queueStep_interest ht]
    refine ⟨?_, fun key q hkey => Or.inl ?_, rfl⟩
    · simp [work, ht]
    · refine (hconnected key q hkey).resolve_right ?_
      rw [ht]
      exact nofun
  | dead e =>
    have hthread := h.thread
    rw [ThreadSound, ht] at hthread
    exact hthread.elim

theorem Sound.exists_handed (h : c.Sound) (hconnected : c.Connected) :
    ∃ n, (IcmMutiClient.queueStep^[n] c).handed.map Prod.fst = c.issued := by
  induction hn : c.work using Nat.strong_induction_on generalizing c with
  | _ n ih =>
    subst hn
    rcases Nat.eq_zero_or_pos c.work with hzero | hpos
    · refine ⟨0, ?_⟩
      rw [work] at hzero
      have hqueue : c.requestQueue = [] := eq_nil_of_length_eq_zero (by omega)
      have hcontext : c.queueThread.context = [] := by
        cases ht : c.queueThread with
        | take => rfl
        | giveBack context channel => rfl
        | interest channel => rfl
        | dead e => rfl
        | takeChannel context => simp [ht] at hzero
        | hand context channel => simp [ht] at hzero
      rw [iterate_zero, id, h.issued, hqueue, hcontext, append_nil, append_nil]
    · obtain ⟨hlt, hconnected', hissued⟩ := h.work_queueStep hconnected hpos
      obtain ⟨n, hn⟩ := ih _ hlt h.queueStep hconnected' rfl
      exact ⟨n + 1, by rw [iterate_succ_apply, hn, hissued]⟩

structure Orderly (c : IcmMutiClient) : Prop where
  running : ∀ e, c.queueThread ≠ .dead e
  order : c.issued = c.handed.map Prod.fst ++ (c.queueThread.context ++ c.requestQueue)
  place : ∀ p ∈ c.handed, (c.contexts p.2).hostname = p.1.hostname ∧
    (c.contexts p.2).remotePort = p.1.port
  progress : c.Connected → ∃ n, (queueStep^[n] c).handed.map Prod.fst = c.issued

/-- **The queue thread hands the requests over in order.** -/
theorem handed_in_order (services : List (RemoteService × Bool)) (es : List Event)
    (hfair : EachStep (total step) Fair (startup services) es) :
    Orderly (es.foldl step (startup services)) := by
  have h : (es.foldl step (startup services)).Sound :=
    foldl_invariant (fun _ _ h he => h.step he) (sound_startup services) hfair
  refine ⟨fun e he => ?_, h.issued, fun p hp => (h.handed p hp).2, h.exists_handed⟩
  have hthread := h.thread
  rw [ThreadSound, he] at hthread
  exact hthread

def oneService : IcmMutiClient := startup [(⟨.ofUnits [0x61], 80, 1⟩, true)]

theorem handed_in_order_two :
    Orderly ([.invoke 0 true 1 [7], .queueThread, .queueThread, .invoke 0 true 2 [8], .queueThread,
        .write 0 false, .queueThread, .queueThread, .queueThread].foldl step oneService) ∧
      ([.invoke 0 true 1 [7], .queueThread, .queueThread, .invoke 0 true 2 [8], .queueThread,
        .write 0 false, .queueThread, .queueThread, .queueThread].foldl step
          oneService).handed.length = 1 :=
  ⟨handed_in_order _ _ (by decide), by decide⟩

theorem oneWay_ends_queueThread :
    ([.invoke 0 false 1 [7], .queueThread, .queueThread, .queueThread, .invoke 0 true 2 [8],
        .queueThread].foldl step oneService).queueThread = .dead .nullPointer ∧
      ∀ n, (queueStep^[n] ([.invoke 0 false 1 [7], .queueThread, .queueThread, .queueThread,
        .invoke 0 true 2 [8], .queueThread].foldl step oneService)).handed = [] := by
  have hdead {c : IcmMutiClient} {e : Uncaught} (ht : c.queueThread = .dead e) (n : ℕ) :
      queueStep^[n] c = c := by
    refine iterate_fixed ?_ n
    simp only [queueStep, ht]
  refine ⟨by decide, fun n => ?_⟩
  rw [hdead (show _ = QueueThread.dead .nullPointer by decide)]
  decide

end Run

end IcmMutiClient

end Icm.Java
