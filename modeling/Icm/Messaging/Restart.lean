import Icm.Messaging.Registry
import Icm.Messaging.SubscriptionFile

/-!
# The ids of the subscribers over crashes

With buffering a subscriber that asks with the id `0` gets a new id: the handler takes the next
number from the counter of the topic manager, enters the subscription, saves the tables with the
counter, and sends the id to the subscriber, in this order.
-/

namespace Icm.Messaging

open Icm.Lib Icm.Stream Broker

open Broker (noId reply)

def readCounter (file : List UInt8) : ℤ :=
  (((Istream.ofText file).readWord []).2.readInt intMin intMax 0).1

theorem printInt_injective : Function.Injective printInt := by
  intro z z' h
  have hz := numeral_printInt z []
  rw [h, numeral_printInt z' []] at hz
  exact (Option.some.inj (Prod.mk.inj hz).1).symm

theorem readCounter_savedText (tm : TopicManager) :
    readCounter tm.savedText = (BitVec.ofNat 32 tm.nextAllocateClientId).toInt := by
  have hlo := (BitVec.ofNat 32 tm.nextAllocateClientId).le_toInt
  have hhi := (BitVec.ofNat 32 tm.nextAllocateClientId).toInt_le
  obtain ⟨ifs₁, hread₁, h₁⟩ := Istream.readWord_before []
    (Istream.before_ofText tm.savedText) (show IsWord SubscriptionInfo.heading by decide +kernel)
  obtain ⟨ifs, hread, -⟩ := Istream.readInt_before 0 h₁ (isWord_printInt _)
    (numeral_printInt _ _) (show intMin ≤ _ from hlo) (show _ ≤ (intMax : ℤ) from hhi)
  rw [readCounter, hread₁, hread]
  rfl

theorem counter_of_reloadSubscribers {topic : Topic} {n : ℕ} {ifs ifs' : Istream}
    {info info' : SubscriptionInfo}
    (hrun : reloadSubscribers topic n ifs info = .ok (ifs', info')) :
    info'.nextAllocateClientId = info.nextAllocateClientId := by
  induction n generalizing ifs info with
  | zero =>
    cases hrun
    rfl
  | succ n ih =>
    obtain ⟨-, -, hrun⟩ := bind_eq_ok.mp hrun
    obtain ⟨info₁, hadd, hrun⟩ := bind_eq_ok.mp hrun
    obtain ⟨-, -, hadd⟩ := bind_eq_ok.mp hadd
    obtain ⟨-, -, hadd⟩ := bind_eq_ok.mp hadd
    rw [ih hrun, ← Except.ok.inj hadd]

variable {info : SubscriptionInfo}

theorem counter_of_reloadLoop {rounds : ℕ} {r : Reload}
    (hrun : reloadLoop rounds r = some (.ok info)) :
    info.nextAllocateClientId = r.info.nextAllocateClientId := by
  induction rounds generalizing r with
  | zero => cases hrun
  | succ rounds ih =>
    rw [reloadLoop] at hrun
    split_ifs at hrun
    · rw [← Except.ok.inj (Option.some.inj hrun)]
    · cases hround : reloadTopic r with
      | error a =>
        rw [hround] at hrun
        cases hrun
      | ok r' =>
        rw [hround] at hrun
        rw [ih hrun]
        obtain ⟨-, -, hround⟩ := bind_eq_ok.mp hround
        obtain ⟨⟨ifs', info'⟩, hsubscribers, hround⟩ := bind_eq_ok.mp hround
        rw [← Except.ok.inj hround]
        exact counter_of_reloadSubscribers hsubscribers

theorem counter_of_reload {rounds : ℕ} {file : List UInt8}
    (hrun : reload rounds (some file) = some (.ok info)) :
    info.nextAllocateClientId = if readCounter file = 0 then 1 else readCounter file := by
  rw [reload] at hrun
  rw [readCounter]
  dsimp only at hrun
  split_ifs at hrun ⊢ with hzero
  · rw [← Except.ok.inj (Option.some.inj hrun)]
  · exact counter_of_reloadLoop hrun

namespace Broker

variable {cfg : Config} {b b' : Broker} {env : Answers} {h : HandlerPtr} {sh : SubscriberHandler}
  {ok : Bool}

theorem counter_of_closeSubscriber (hrun : closeSubscriber cfg h (ok, b) = .ok b') :
    b'.manager.nextAllocateClientId = b.manager.nextAllocateClientId := by
  rcases manager_of_closeSubscriber hrun with hmanager | ⟨id, hmanager⟩ | hmanager
  · rw [hmanager]
  · rw [hmanager]
    rfl
  · obtain ⟨map₁, map₂, hdestroyed⟩ := b.manager.onHandlerDestroyed_eq h
    rw [hmanager, hdestroyed]

theorem counter_of_subscriberOutput (hrun : subscriberOutput cfg env b h sh = .ok (ok, b')) :
    b'.manager.nextAllocateClientId = b.manager.nextAllocateClientId := by
  obtain ⟨messages, -, hrun⟩ := bind_eq_ok.mp hrun
  obtain ⟨⟨ok₁, b₁⟩, hsend, hrun⟩ := bind_eq_ok.mp hrun
  cases hrun
  obtain ⟨pubs_, pubs, sent, rfl⟩ := sendMessages_eq hsend
  rfl

theorem counter_of_publisherInput {ph : PublisherHandler}
    (hrun : publisherInput cfg env b h ph = .ok (ok, b')) :
    b'.manager.nextAllocateClientId = b.manager.nextAllocateClientId := by
  rcases publisherInput_cases hrun with ⟨result, msg, current, -, -, rfl⟩ | ⟨msg, -, hmsg⟩
  · rfl
  · rcases onPublisherMessage_cases hmsg with ⟨-, rfl⟩ | ⟨-, -, ⟨-, hadd⟩ | ⟨-, rfl⟩⟩
    · rfl
    · obtain ⟨pubs_, hmanager⟩ := manager_of_addMessageTo_ hadd
      rw [hmanager]
      rfl
    · obtain ⟨pubs, hmanager⟩ := manager_addMessageTo cfg env.now _ _ _
      rw [addMessage, hmanager]
      rfl

structure Task where
  h : HandlerPtr
  env : Answers
  sh : SubscriberHandler
  msg : Msg
  id : ClientId

def task (cfg : Config) (b : Broker) : Upcall → Option Task
  | .subscriberReadable h env =>
    match b.subscriberHandlers h with
    | none => none
    | some sh =>
      match parseInput cfg env sh.tmpMsg with
      | .ok (.complete, msg) =>
        if msg.messageType = MsgType.subscribe.toOctet ∨
            msg.messageType = MsgType.unSubscribe.toOctet then
          some ⟨h, env, { sh with recentActiveTime := env.now, tmpMsg := none }, msg, sh.id⟩
        else none
      | _ => none
  | _ => none

theorem counter_of_subscriberInput (hsh : b.subscriberHandlers h = some sh)
    (htask : b.task cfg (.subscriberReadable h env) = none)
    (hrun : subscriberInput cfg env b h sh = .ok (ok, b')) :
    b'.manager.nextAllocateClientId = b.manager.nextAllocateClientId := by
  rcases subscriberInput_cases hrun with ⟨result, msg, tmpMsg, -, -, rfl⟩ | ⟨msg, hparse, hmsg⟩
  · rfl
  · simp only [task, hsh, hparse] at htask
    split_ifs at htask with htype
    obtain ⟨hsubscribe, hunSubscribe⟩ := not_or.mp htype
    rcases onSubscriberMessage_cases hmsg with ⟨htype, -⟩ | ⟨-, rfl⟩ | ⟨htype, -⟩
    · exact absurd htype hsubscribe
    · rfl
    · exact absurd htype hunSubscribe

theorem counter_of_step {u : Upcall} (hrun : step cfg b u = .ok b')
    (htask : b.task cfg u = none) :
    b'.manager.nextAllocateClientId = b.manager.nextAllocateClientId := by
  cases dispatched_of_step hrun with
  | ignored => rfl
  | acceptSubscriber => rfl
  | acceptPublisher => rfl
  | subscriberReadable hsh hinput hclose =>
    exact (counter_of_closeSubscriber hclose).trans (counter_of_subscriberInput hsh htask hinput)
  | subscriberWritable hsh hmask houtput hclose =>
    exact (counter_of_closeSubscriber hclose).trans (counter_of_subscriberOutput houtput)
  | publisherReadable hph hinput hclose =>
    rw [manager_of_closePublisher hclose]
    exact counter_of_publisherInput hinput

end Broker

open Broker (Task)

def idText (v : BitVec 32) : ClientId := printInt v.toInt

theorem idText_injective : Function.Injective idText :=
  fun _ _ h => BitVec.eq_of_toInt_eq (printInt_injective h)

inductive Process
  | down
  | waiting (b : Broker)
  | chosen (b : Broker) (t : Task)
  | entered (b : Broker) (t : Task)
  | saved (b : Broker) (t : Task)

def Process.ofExcept : Except Assertion Broker → Process
  | .ok b => .waiting b
  | .error _ => .down

namespace Broker.Task

variable (cfg : Config) (t : Task)

def Subscribes : Prop := t.msg.messageType = MsgType.subscribe.toOctet

def Asks : Prop := t.Subscribes ∧ t.msg.subscriberId = noId

instance : Decidable t.Subscribes := inferInstanceAs (Decidable (_ = _))

instance : Decidable t.Asks := inferInstanceAs (Decidable (_ ∧ _))

def answer : Except Assertion (Bool × List UInt8) :=
  if t.Subscribes then
    reply cfg t.env .subscribeOK [.string t.msg.topic, .string t.id,
      .int cfg.keepAliveTryTimes, .int cfg.keepAliveTimeSpan]
  else reply cfg t.env .unSubscribeOK [.string t.msg.topic]

def finish (b : Broker) (ok : Bool) : Except Assertion Broker :=
  if t.Subscribes then
    let b := b.setSubscriber t.h (some { t.sh with id := t.id })
    closeSubscriber cfg t.h (ok, if ok then b.registerWriteMask t.h else b)
  else closeSubscriber cfg t.h (ok, b)

end Broker.Task

structure Site where
  disk : Option (List UInt8)
  process : Process
  allocations : ℕ
  acknowledged : List ClientId

/-- What happens to the broker. A start is given a number of rounds for the loop of the constructor;
it does not succeed if they are too few. -/
inductive SiteEvent
  | crash
  | restart (rounds : ℕ)
  | upcall (u : Upcall)
  | proceed

namespace Site

variable (cfg : Config) (s : Site)

def stop : Site := { s with process := .down }

def restart (rounds : ℕ) : Site :=
  match reload rounds s.disk with
  | some (.ok info) =>
    { s with
      process := .waiting (.start info.subscriptionMap
        (BitVec.ofInt 32 info.nextAllocateClientId).toNat) }
  | _ => s

def receive (b : Broker) (t : Task) : Site :=
  let b := b.setSubscriber t.h (some t.sh)
  if t.Subscribes then
    if t.msg.subscriberId = [] then s.stop
    else if t.msg.subscriberId = noId then
      let (allocatedClientId, tm) := b.manager.allocateClientId_
      { s with
        process := .chosen { b with manager := tm }
          { t with id := idText (.ofNat 32 allocatedClientId) }
        allocations := s.allocations + 1 }
    else { s with process := .chosen b { t with id := t.msg.subscriberId } }
  else if t.sh.id = t.msg.subscriberId then
    { s with
      process := .entered { b with manager := b.manager.removeSubscription_ t.msg.topic t.sh.id }
        t }
  else s.stop

def respond (b : Broker) (t : Task) : Site :=
  match t.answer cfg with
  | .error _ => s.stop
  | .ok (ok, _) =>
    { s with
      process := .ofExcept (t.finish cfg b ok)
      acknowledged := if t.Asks then s.acknowledged ++ [t.id] else s.acknowledged }

def proceed : Site :=
  match s.process with
  | .chosen b t =>
    match b.manager.addSubscription_ t.msg.topic t.id t.h with
    | .ok tm => { s with process := .entered { b with manager := tm } t }
    | .error _ => s.stop
  | .entered b t =>
    { s with
      disk := some b.manager.savedText
      process := .saved { b with manager := b.manager.saveSubscriptionInfoToDisk_ } t }
  | .saved b t => s.respond cfg b t
  | _ => s

def upcall (u : Upcall) : Site :=
  match s.process with
  | .waiting b =>
    match b.task cfg u with
    | some t => s.receive b t
    | none => { s with process := .ofExcept (b.step cfg u) }
  | _ => s

def step : SiteEvent → Site
  | .crash => s.stop
  | .restart rounds =>
    match s.process with
    | .down => s.restart rounds
    | _ => s
  | .upcall u => s.upcall cfg u
  | .proceed => s.proceed cfg

def start (disk : Option (List UInt8)) : Site := ⟨disk, .down, 0, []⟩

def run (es : List SiteEvent) : Site := es.foldl (step cfg) s

end Site

theorem idText_ofNat {n : ℕ} (hn : n < 2 ^ 31) : idText (.ofNat 32 n) = decimal n := by
  have hint : (BitVec.ofNat 32 n).toInt = n := by
    rw [BitVec.toInt_ofNat', Int.bmod_eq_of_le (by omega) (by omega)]
  rw [idText, hint, printInt, if_neg (by omega)]
  rfl

namespace Site

variable {cfg : Config} {s : Site} {b b' : Broker}

theorem run_of_onSubscribe {t : Task} {ok : Bool} {b₁ : Broker} (hbuf : cfg.enableBuffering = true)
    (hsubscribes : t.Subscribes)
    (hrun : onSubscribe cfg t.env (b.setSubscriber t.h (some t.sh)) t.h t.sh t.msg =
      .ok (ok, b₁)) :
    ((((s.receive b t).proceed cfg).proceed cfg).proceed cfg).process =
      .ofExcept (closeSubscriber cfg t.h (ok, b₁)) := by
  obtain ⟨⟨id, tm⟩, htm, hrun⟩ := bind_eq_ok.mp hrun
  obtain ⟨⟨ok', bytes⟩, hreply, hrun⟩ := bind_eq_ok.mp hrun
  obtain ⟨rfl, rfl⟩ := Prod.mk.inj (Except.ok.inj hrun)
  rw [subscribe, if_pos hbuf] at htm
  obtain ⟨⟨id, tm₁⟩, hchoose, htm⟩ := bind_eq_ok.mp htm
  obtain ⟨tm₂, hadd, htm⟩ := bind_eq_ok.mp htm
  obtain ⟨rfl, rfl⟩ := Prod.mk.inj (Except.ok.inj htm)
  have hchosen : (s.receive b t).process = .chosen
      { b.setSubscriber t.h (some t.sh) with manager := tm₁ } { t with id := id } := by
    obtain ⟨⟨⟩, hid, hchoose⟩ := bind_eq_ok.mp hchoose
    have hne := require_eq_ok.mp hid
    rw [receive, if_pos hsubscribes, if_neg hne]
    split_ifs at hchoose ⊢ with hnoId
    · obtain ⟨⟨⟩, hdigit, hchoose⟩ := bind_eq_ok.mp hchoose
      obtain ⟨rfl, rfl⟩ := Prod.mk.inj (Except.ok.inj hchoose)
      have hid := idText_ofNat
        ((lt_ten_of_length_decimal (require_eq_ok.mp hdigit)).trans (by decide))
      rw [← hid]
      rfl
    · obtain ⟨rfl, rfl⟩ := Prod.mk.inj (Except.ok.inj hchoose)
      rfl
  have hentered : ((s.receive b t).proceed cfg).process = .entered
      { b.setSubscriber t.h (some t.sh) with manager := tm₂ } { t with id := id } := by
    simp only [proceed, hchosen, hadd]
  have hsaved : (((s.receive b t).proceed cfg).proceed cfg).process = .saved
      { b.setSubscriber t.h (some t.sh) with manager := tm₂.saveSubscriptionInfoToDisk_ }
      { t with id := id } := by
    rw [proceed, hentered]
  have hanswer : ({ t with id := id } : Task).answer cfg = .ok (ok', bytes) :=
    (if_pos hsubscribes).trans hreply
  rw [proceed, hsaved]
  dsimp only
  rw [respond, hanswer]
  exact congrArg Process.ofExcept (if_pos hsubscribes)

theorem run_of_onUnSubscribe {t : Task} {ok : Bool} {b₁ : Broker}
    (hbuf : cfg.enableBuffering = true) (hsubscribes : ¬ t.Subscribes)
    (hrun : onUnSubscribe cfg t.env (b.setSubscriber t.h (some t.sh)) t.h t.sh t.msg =
      .ok (ok, b₁)) :
    (((s.receive b t).proceed cfg).proceed cfg).process =
      .ofExcept (closeSubscriber cfg t.h (ok, b₁)) := by
  obtain ⟨⟨⟩, hid, hrun⟩ := bind_eq_ok.mp hrun
  obtain ⟨⟨ok', bytes⟩, hreply, hrun⟩ := bind_eq_ok.mp hrun
  cases hrun
  have hentered : (s.receive b t).process = .entered { b.setSubscriber t.h (some t.sh) with
      manager := b.manager.removeSubscription_ t.msg.topic t.sh.id } t := by
    rw [receive, if_neg hsubscribes, if_pos (require_eq_ok.mp hid)]
    rfl
  have hsaved : ((s.receive b t).proceed cfg).process = .saved {
      b.setSubscriber t.h (some t.sh) with
      manager := (b.manager.removeSubscription_ t.msg.topic t.sh.id).saveSubscriptionInfoToDisk_ }
        t := by
    rw [proceed, hentered]
  rw [proceed, hsaved]
  dsimp only
  rw [respond, Task.answer, if_neg hsubscribes, hreply]
  rw [unSubscribe, if_pos hbuf]
  exact congrArg Process.ofExcept (if_neg hsubscribes)

theorem run_of_step {u : Upcall} (hbuf : cfg.enableBuffering = true)
    (hprocess : s.process = .waiting b) (hrun : b.step cfg u = .ok b') :
    ∃ n, (s.run cfg (.upcall u :: List.replicate n .proceed)).process = .waiting b' := by
  cases htask : b.task cfg u with
  | none =>
    refine ⟨0, ?_⟩
    change (s.upcall cfg u).process = _
    rw [upcall, hprocess]
    simp only [htask, hrun, Process.ofExcept]
  | some t =>
    cases u with
    | subscriberReadable h env =>
      cases dispatched_of_step hrun with
      | ignored hu =>
        have hnone : b.subscriberHandlers h = none := hu
        simp only [task, hnone, reduceCtorEq] at htask
      | subscriberReadable hsh hinput hclose =>
        have hreceive (n : ℕ) : s.run cfg (.upcall (.subscriberReadable h env) ::
            List.replicate n .proceed) = (s.receive b t).run cfg (List.replicate n .proceed) := by
          rw [run, List.foldl_cons, step, upcall, hprocess]
          simp only [htask]
          rfl
        rcases subscriberInput_cases hinput with
          ⟨result, msg, tmpMsg, hparse, hresult, -⟩ | ⟨msg, hparse, hmsg⟩
        · simp only [task, hsh, hparse] at htask
          cases result with
          | error => cases htask
          | half => cases htask
          | complete => exact absurd rfl hresult
        · simp only [task, hsh, hparse] at htask
          split_ifs at htask with htype
          cases htask
          rcases onSubscriberMessage_cases hmsg with
            ⟨hsubscribe, hmsg⟩ | ⟨hprobe, -⟩ | ⟨hunSubscribe, hmsg⟩
          · refine ⟨3, ?_⟩
            rw [hreceive]
            exact (run_of_onSubscribe hbuf (by exact hsubscribe) hmsg).trans (congrArg _ hclose)
          · rw [hprobe] at htype
            exact absurd htype (by decide)
          · refine ⟨2, ?_⟩
            rw [hreceive]
            refine (run_of_onUnSubscribe hbuf ?_ hmsg).trans (congrArg _ hclose)
            rw [Task.Subscribes, hunSubscribe]
            decide
    | acceptSubscriber => cases htask
    | acceptPublisher => cases htask
    | subscriberWritable => cases htask
    | publisherReadable => cases htask

end Site

def position (c₀ v : BitVec 32) : ℕ := (v - c₀).toNat

theorem position_add_one {c₀ v : BitVec 32} (h : position c₀ v + 1 < 2 ^ 32) :
    position c₀ (v + 1) = position c₀ v + 1 := by
  simp only [position] at *
  bv_omega

def Reached (c₀ : BitVec 32) (allocations : ℕ) (v : BitVec 32) : Prop :=
  position c₀ v ≤ allocations + if position c₀ 0 < position c₀ v then 1 else 0

variable {c₀ v : BitVec 32} {n : ℕ}

theorem Reached.position_lt (h : Reached c₀ n v) (hn : n < 2 ^ 31) :
    position c₀ v + 1 < 2 ^ 32 := by
  rw [Reached] at h
  split_ifs at h <;> omega

theorem Reached.succ (h : Reached c₀ n v) (hn : n < 2 ^ 31) :
    Reached c₀ (n + 1) (v + 1) := by
  have hsucc := position_add_one (h.position_lt hn)
  rw [Reached, hsucc] at *
  split_ifs at * <;> omega

theorem Reached.mono (h : Reached c₀ n v) : Reached c₀ (n + 1) v := by
  rw [Reached] at *
  omega

theorem Reached.one {c₀ : BitVec 32} {n : ℕ} (h : Reached c₀ n 0) (hn : n < 2 ^ 31) :
    Reached c₀ n 1 ∧ position c₀ 0 ≤ position c₀ 1 := by
  have hsucc := position_add_one (h.position_lt hn)
  change position c₀ 1 = _ at hsucc
  rw [Reached, hsucc] at *
  rw [if_neg (lt_irrefl _)] at h
  rw [if_pos (Nat.lt_succ_self _)]
  omega

def savedCounter : Option (List UInt8) → BitVec 32
  | none => 1
  | some file => .ofInt 32 (readCounter file)

theorem savedCounter_of_reload {rounds : ℕ} {disk : Option (List UInt8)}
    (hrun : reload rounds disk = some (.ok info)) :
    BitVec.ofInt 32 info.nextAllocateClientId = savedCounter disk ∨
      savedCounter disk = 0 ∧ BitVec.ofInt 32 info.nextAllocateClientId = 1 := by
  cases disk with
  | none =>
    obtain rfl := Except.ok.inj (Option.some.inj hrun)
    exact Or.inl rfl
  | some file =>
    rw [counter_of_reload hrun, savedCounter]
    split_ifs with hzero
    · exact Or.inr ⟨by rw [hzero]; rfl, rfl⟩
    · exact Or.inl rfl

def Broker.counter (b : Broker) : BitVec 32 := .ofNat 32 b.manager.nextAllocateClientId

theorem Broker.Task.counter_of_finish {cfg : Config} {t : Task} {b b' : Broker} {ok : Bool}
    (hrun : t.finish cfg b ok = .ok b') : b'.counter = b.counter := by
  refine congrArg (BitVec.ofNat 32) ?_
  rw [finish] at hrun
  split_ifs at hrun
  · refine (counter_of_closeSubscriber hrun).trans ?_
    rw [manager_registerWriteMask]
    rfl
  · exact (counter_of_closeSubscriber hrun).trans rfl
  · exact counter_of_closeSubscriber hrun

structure Broker.Ahead (c₀ : BitVec 32) (allocations : ℕ) (saved : BitVec 32) (b : Broker) :
    Prop where
  saved_le : position c₀ saved ≤ position c₀ b.counter
  reached : Reached c₀ allocations b.counter

theorem Broker.Ahead.of_counter {c₀ saved v : BitVec 32} {allocations : ℕ} {b : Broker}
    (hv : b.counter = v) (hle : position c₀ saved ≤ position c₀ v)
    (hreached : Reached c₀ allocations v) : b.Ahead c₀ allocations saved := by
  subst hv
  exact ⟨hle, hreached⟩

def Process.Ahead (c₀ : BitVec 32) (allocations : ℕ) (saved : BitVec 32)
    (given : List (BitVec 32)) : Process → Prop
  | .down => True
  | .waiting b => b.Ahead c₀ allocations saved
  | .chosen b t | .entered b t =>
    b.Ahead c₀ allocations saved ∧ (t.Asks → ∃ v, t.id = idText v ∧
      position c₀ saved ≤ position c₀ v ∧ position c₀ v < position c₀ b.counter)
  | .saved b t =>
    b.Ahead c₀ allocations saved ∧ (t.Asks → ∃ v, t.id = idText v ∧
      (∀ w ∈ given, position c₀ w < position c₀ v) ∧ position c₀ v < position c₀ saved)

namespace Site

variable {cfg : Config} {c₀ : BitVec 32} {s : Site} {given : List (BitVec 32)}

theorem allocations_le_step (cfg : Config) (s : Site) (e : SiteEvent) :
    s.allocations ≤ (s.step cfg e).allocations := by
  cases e with
  | crash => exact le_rfl
  | restart rounds =>
    rw [step]
    split
    · rw [restart]
      split <;> exact le_rfl
    · exact le_rfl
  | upcall u =>
    rw [step, upcall]
    split
    next =>
      split
      next t _ =>
        rw [receive]
        dsimp only
        split_ifs
        · exact le_rfl
        · exact Nat.le_succ _
        · exact le_rfl
        · exact le_rfl
        · exact le_rfl
      next => exact le_rfl
    next => exact le_rfl
  | proceed =>
    rw [step, proceed]
    split
    next => split <;> exact le_rfl
    next => exact le_rfl
    next =>
      rw [respond]
      split <;> exact le_rfl
    next => exact le_rfl

theorem allocations_le_run (cfg : Config) (s : Site) (es : List SiteEvent) :
    s.allocations ≤ (s.run cfg es).allocations := by
  induction es generalizing s with
  | nil => exact le_rfl
  | cons e es ih => exact (allocations_le_step cfg s e).trans (ih _)

structure Sound (c₀ : BitVec 32) (s : Site) (given : List (BitVec 32)) : Prop where
  acknowledged_eq : s.acknowledged = given.map idText
  nodup : given.Nodup
  given_lt : ∀ v ∈ given, position c₀ v < position c₀ (savedCounter s.disk)
  reached : Reached c₀ s.allocations (savedCounter s.disk)
  process : s.process.Ahead c₀ s.allocations (savedCounter s.disk) given

namespace Sound

theorem start (disk : Option (List UInt8)) :
    Sound (savedCounter disk) (Site.start disk) [] where
  acknowledged_eq := rfl
  nodup := List.nodup_nil
  given_lt := List.forall_mem_nil _
  reached := by
    have hzero : position (savedCounter disk) (savedCounter disk) = 0 := by
      rw [position, BitVec.sub_self]
      rfl
    rw [Reached, Site.start, hzero]
    exact Nat.zero_le _
  process := trivial

section

variable (h : s.Sound c₀ given)
include h

theorem set_process {p : Process}
    (hp : p.Ahead c₀ s.allocations (savedCounter s.disk) given) :
    ({ s with process := p } : Site).Sound c₀ given :=
  ⟨h.acknowledged_eq, h.nodup, h.given_lt, h.reached, hp⟩

theorem stop : s.stop.Sound c₀ given := h.set_process trivial

theorem restart (hn : s.allocations < 2 ^ 31) (rounds : ℕ) :
    (s.restart rounds).Sound c₀ given := by
  rw [Site.restart]
  split
  next info hreload =>
    refine h.set_process ?_
    have hcounter : (Broker.start info.subscriptionMap
        (BitVec.ofInt 32 info.nextAllocateClientId).toNat).counter =
        .ofInt 32 info.nextAllocateClientId := by
      rw [Broker.counter, Broker.start, BitVec.ofNat_toNat, BitVec.setWidth_eq]
    rcases savedCounter_of_reload hreload with hsaved | ⟨hzero, hone⟩
    · exact .of_counter (hcounter.trans hsaved) le_rfl h.reached
    · have hreached := h.reached
      rw [hzero] at hreached ⊢
      obtain ⟨hreached, hle⟩ := hreached.one hn
      exact .of_counter (hcounter.trans hone) hle hreached
  next => exact h

theorem receive {b : Broker} (hprocess : s.process = .waiting b) (t : Task)
    (hn : (s.receive b t).allocations < 2 ^ 31) : (s.receive b t).Sound c₀ given := by
  have hb : b.Ahead c₀ s.allocations (savedCounter s.disk) := by
    have hahead := h.process
    rwa [hprocess] at hahead
  rw [Site.receive] at hn ⊢
  dsimp only at hn ⊢
  split_ifs at hn ⊢ with hsubscribes hnil hnoId hid
  · exact h.stop
  · -- a number is taken from the counter
    have hold : s.allocations < 2 ^ 31 := Nat.lt_of_succ_lt hn
    have hcounter : BitVec.ofNat 32 (b.manager.nextAllocateClientId + 1) = b.counter + 1 :=
      BitVec.ofNat_add ..
    have hposition := position_add_one (hb.reached.position_lt hold)
    have hreached := hb.reached.succ hold
    refine ⟨h.acknowledged_eq, h.nodup, h.given_lt, h.reached.mono,
      .of_counter hcounter ?_ hreached, fun _ => ⟨b.counter, rfl, hb.saved_le, ?_⟩⟩
    · rw [hposition]
      exact hb.saved_le.trans (Nat.le_succ _)
    · change position c₀ b.counter < position c₀ (.ofNat 32 (b.manager.nextAllocateClientId + 1))
      rw [hcounter, hposition]
      exact Nat.lt_succ_self _
  · exact h.set_process ⟨.of_counter rfl hb.saved_le hb.reached,
      fun hasks => absurd hasks.2 hnoId⟩
  · exact h.set_process ⟨.of_counter rfl hb.saved_le hb.reached,
      fun hasks => absurd hasks.1 hsubscribes⟩
  · exact h.stop

theorem respond {b : Broker} {t : Task}
    (hb : b.Ahead c₀ s.allocations (savedCounter s.disk))
    (hasks : t.Asks → ∃ v, t.id = idText v ∧ (∀ w ∈ given, position c₀ w < position c₀ v) ∧
      position c₀ v < position c₀ (savedCounter s.disk)) :
    ∃ given, (s.respond cfg b t).Sound c₀ given := by
  rw [Site.respond]
  split
  next => exact ⟨given, h.stop⟩
  next ok _ _ =>
    have hprocess (given : List (BitVec 32)) : (Process.ofExcept (t.finish cfg b ok)).Ahead c₀
        s.allocations (savedCounter s.disk) given := by
      cases hrun : t.finish cfg b ok with
      | error a => trivial
      | ok b' => exact .of_counter (Task.counter_of_finish hrun) hb.saved_le hb.reached
    split_ifs with ht
    · obtain ⟨v, hid, habove, hlt⟩ := hasks ht
      refine ⟨given ++ [v], ?_, ?_, ?_, h.reached, hprocess _⟩
      · change s.acknowledged ++ [t.id] = _
        rw [h.acknowledged_eq, hid, List.map_append, List.map_singleton]
      · refine h.nodup.append (List.nodup_singleton v) (List.disjoint_singleton.mpr fun hv => ?_)
        exact lt_irrefl _ (habove v hv)
      · exact List.forall_mem_append.mpr ⟨h.given_lt, List.forall_mem_singleton.mpr hlt⟩
    · exact ⟨given, h.acknowledged_eq, h.nodup, h.given_lt, h.reached, hprocess given⟩

theorem proceed : ∃ given, (s.proceed cfg).Sound c₀ given := by
  have hprocess := h.process
  rw [Site.proceed]
  cases hs : s.process with
  | down => exact ⟨given, h⟩
  | waiting b => exact ⟨given, h⟩
  | chosen b t =>
    rw [hs] at hprocess
    dsimp only
    split
    next tm hadd =>
      obtain ⟨-, -, hadd⟩ := bind_eq_ok.mp hadd
      obtain ⟨-, -, hadd⟩ := bind_eq_ok.mp hadd
      cases hadd
      exact ⟨given, h.set_process
        ⟨.of_counter rfl hprocess.1.saved_le hprocess.1.reached, hprocess.2⟩⟩
    next => exact ⟨given, h.stop⟩
  | entered b t =>
    rw [hs] at hprocess
    obtain ⟨hb, hasks⟩ := hprocess
    have hsaved : savedCounter (some b.manager.savedText) = b.counter := by
      rw [savedCounter, readCounter_savedText, BitVec.ofInt_toInt]
      rfl
    refine ⟨given, h.acknowledged_eq, h.nodup, fun v hv => ?_, ?_, ⟨⟨?_, hb.reached⟩, fun ht => ?_⟩⟩
    · rw [hsaved]
      exact (h.given_lt v hv).trans_le hb.saved_le
    · rw [hsaved]
      exact hb.reached
    · rw [hsaved]
      exact le_rfl
    · obtain ⟨v, hid, hle, hlt⟩ := hasks ht
      rw [hsaved]
      exact ⟨v, hid, fun w hw => (h.given_lt w hw).trans_le hle, hlt⟩
  | saved b t =>
    rw [hs] at hprocess
    obtain ⟨hb, hasks⟩ := hprocess
    exact h.respond hb hasks

theorem upcall (u : Upcall) (hn : (s.upcall cfg u).allocations < 2 ^ 31) :
    (s.upcall cfg u).Sound c₀ given := by
  rw [Site.upcall] at hn ⊢
  cases hs : s.process with
  | waiting b =>
    rw [hs] at hn
    dsimp only at hn ⊢
    cases htask : b.task cfg u with
    | some t =>
      rw [htask] at hn
      exact h.receive hs t hn
    | none =>
      have hprocess := h.process
      rw [hs] at hprocess
      refine h.set_process ?_
      cases hrun : b.step cfg u with
      | error a => trivial
      | ok b' =>
        exact .of_counter (congrArg (BitVec.ofNat 32) (counter_of_step hrun htask))
          hprocess.saved_le hprocess.reached
  | down => exact h
  | chosen b t => exact h
  | entered b t => exact h
  | saved b t => exact h

theorem step (e : SiteEvent) (hn : (s.step cfg e).allocations < 2 ^ 31) :
    ∃ given, (s.step cfg e).Sound c₀ given := by
  cases e with
  | crash => exact ⟨given, h.stop⟩
  | restart rounds =>
    have hold := (allocations_le_step cfg s (.restart rounds)).trans_lt hn
    rw [Site.step]
    split
    next => exact ⟨given, h.restart hold rounds⟩
    next => exact ⟨given, h⟩
  | upcall u => exact ⟨given, h.upcall u hn⟩
  | proceed => exact h.proceed

theorem run {es : List SiteEvent} (hn : (s.run cfg es).allocations < 2 ^ 31) :
    ∃ given, (s.run cfg es).Sound c₀ given := by
  induction es generalizing s given with
  | nil => exact ⟨given, h⟩
  | cons e es ih =>
    obtain ⟨given', h'⟩ := h.step e ((allocations_le_run cfg _ es).trans_lt hn)
    exact ih h' hn

end

end Sound

/-- **No id is acknowledged twice** to subscribers that asked for one, whatever is in the file at
first, and wherever the process stops. -/
theorem acknowledged_nodup (cfg : Config) (disk : Option (List UInt8)) (es : List SiteEvent)
    (hn : ((start disk).run cfg es).allocations < 2 ^ 31) :
    ((start disk).run cfg es).acknowledged.Nodup := by
  obtain ⟨given, h⟩ := (Sound.start disk).run hn
  rw [h.acknowledged_eq]
  exact h.nodup.map idText_injective

def askOn (h : HandlerPtr) : Upcall :=
  .subscriberReadable h (frameAnswers 300 .subscribe
    (encodeString (ascii "t") ++ encodeString (ascii "0")))

def twoCrashes : List SiteEvent :=
  [.restart 0, .upcall (Traced.connectOn 1), .upcall (askOn 1), .proceed, .proceed, .crash,
    .restart 5, .upcall (Traced.connectOn 1), .upcall (askOn 1), .proceed, .proceed, .proceed,
    .crash,
    .restart 5, .upcall (Traced.connectOn 1), .upcall (askOn 1), .proceed, .proceed, .proceed]

theorem acknowledged_nodup_twoCrashes :
    ((start none).run Traced.bufferingConfig twoCrashes).acknowledged = [ascii "2", ascii "3"] ∧
      ((start none).run Traced.bufferingConfig twoCrashes).acknowledged.Nodup := by
  have hrun : (((start none).run Traced.bufferingConfig twoCrashes).acknowledged,
      ((start none).run Traced.bufferingConfig twoCrashes).allocations) =
        ([ascii "2", ascii "3"], 3) := by decide +kernel
  obtain ⟨hids, hcount⟩ := Prod.mk.inj hrun
  exact ⟨hids, acknowledged_nodup Traced.bufferingConfig none twoCrashes (by rw [hcount]; decide)⟩

end Site

end Icm.Messaging
