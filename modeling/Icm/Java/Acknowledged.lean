import Icm.Lib.Run
import Mathlib.Data.List.Basic

/-!
# Topics and the broker's OK

`IcmMessager` keeps the topics of the application in maps, and the OK of the broker replaces the
value of the topic that it names, which is decoded into a new object.
-/

namespace Icm.Java.Acknowledged

open Icm.Lib

/-- An object of class `Topic`: which one it is, and its `topicId`. -/
structure Topic where
  ref : ℕ
  topicId : String
  deriving DecidableEq, Repr

def Topic.equals (a b : Topic) : Bool := a.ref = b.ref

abbrev TopicMap (β : Type) := List (Topic × β)

variable {β : Type}

def TopicMap.get (m : TopicMap β) (topic : Topic) : Option β :=
  (m.find? fun entry => entry.1.equals topic).map Prod.snd

def TopicMap.putIfAbsent (m : TopicMap β) (topic : Topic) (value : β) : TopicMap β :=
  if (m.get topic).isSome then m else (topic, value) :: m

def TopicMap.replace (m : TopicMap β) (topic : Topic) (value : β) : TopicMap β :=
  m.map fun entry => if entry.1.equals topic then (entry.1, value) else entry

def TopicMap.remove (m : TopicMap β) (topic : Topic) : TopicMap β :=
  m.filter fun entry => !entry.1.equals topic

inductive Frame
  | publish (topicId : String)
  | subscribe (topicId : String)
  | event (topicId name : String)
  deriving DecidableEq, Repr

/-- A running messager that publishes and subscribes. -/
structure Messager where
  objects : ℕ
  publishedTopics : TopicMap Bool
  subscribedTopics : TopicMap Bool
  topicEventActions : TopicMap (List String)
  contextQueue : List Frame
  executed : List (String × String)

/-- What the application does, with topics that it has made or was given, and what the broker sends.
-/
inductive Event
  | new
  | publish (topic : Topic)
  | publishEvent (topic : Topic) (name : String)
  | subscribe (topic : Topic) (action : String)
  | unpublish (topic : Topic)
  | unsubscribe (topic : Topic)
  | ok (topicId : String)
  | event (topicId name : String)
  deriving DecidableEq, Repr

namespace Messager

def create : Messager := ⟨0, [], [], [], [], []⟩

def isPublished (s : Messager) (topic : Topic) : Bool := s.publishedTopics.get topic = some true

def putAction (s : Messager) (topic : Topic) (action : String) : Messager × Bool :=
  match s.topicEventActions.get topic with
  | none => ({ s with topicEventActions := s.topicEventActions.putIfAbsent topic [] }, false)
  | some actions =>
    ({ s with topicEventActions := s.topicEventActions.replace topic (action :: actions) }, true)

def subscribe (s : Messager) (topic : Topic) (action : String) : Messager :=
  let (s, returned) := s.putAction topic action
  if returned ∧ s.subscribedTopics.get topic = none then
    { s with
      subscribedTopics := s.subscribedTopics.putIfAbsent topic false
      contextQueue := s.contextQueue ++ [.subscribe topic.topicId] }
  else s

def onOk (s : Messager) (topic : Topic) : Messager :=
  { s with
    publishedTopics := s.publishedTopics.replace topic true
    subscribedTopics := s.subscribedTopics.replace topic true }

def dispatch (s : Messager) (topic : Topic) (name : String) : Messager :=
  match s.topicEventActions.get topic with
  | some actions =>
    if name ∈ actions then { s with executed := s.executed ++ [(topic.topicId, name)] } else s
  | none => s

def decode (s : Messager) (topicId : String) : Topic × Messager :=
  (⟨s.objects, topicId⟩, { s with objects := s.objects + 1 })

def step (s : Messager) : Event → Except Unit Messager
  | .new => .ok { s with objects := s.objects + 1 }
  | .publish topic =>
    if s.objects ≤ topic.ref then .error ()
    else if s.publishedTopics.get topic = none then
      .ok { s with
        publishedTopics := s.publishedTopics.putIfAbsent topic false
        contextQueue := s.contextQueue ++ [.publish topic.topicId] }
    else .ok s
  | .publishEvent topic name =>
    if s.objects ≤ topic.ref then .error ()
    else if s.isPublished topic then
      .ok { s with contextQueue := s.contextQueue ++ [.event topic.topicId name] }
    else .ok s
  | .subscribe topic action =>
    if s.objects ≤ topic.ref then .error () else .ok (s.subscribe topic action)
  | .unpublish topic => .ok { s with publishedTopics := s.publishedTopics.remove topic }
  | .unsubscribe topic => .ok { s with subscribedTopics := s.subscribedTopics.remove topic }
  | .ok topicId =>
    let (topic, s) := s.decode topicId
    .ok (s.onOk topic)
  | .event topicId name =>
    let (topic, s) := s.decode topicId
    .ok (s.dispatch topic name)

def Known (n : ℕ) (m : TopicMap β) : Prop := ∀ entry ∈ m, entry.1.ref < n

variable {m : TopicMap β}

theorem get_of_known {n : ℕ} (h : Known n m) (id : String) :
    m.get ⟨n, id⟩ = none := by
  rw [TopicMap.get, Option.map_eq_none_iff, List.find?_eq_none]
  intro entry hentry
  have := h entry hentry
  simp [Topic.equals, this.ne]

theorem replace_of_known {n : ℕ} (h : Known n m) (id : String) (value : β) :
    m.replace ⟨n, id⟩ value = m := by
  refine (List.map_congr_left fun entry hentry => ?_).trans (List.map_id m)
  have := h entry hentry
  simp [Topic.equals, this.ne]

variable {topic : Topic}

theorem mem_putIfAbsent {value : β} {entry : Topic × β}
    (h : entry ∈ m.putIfAbsent topic value) : entry = (topic, value) ∨ entry ∈ m := by
  unfold TopicMap.putIfAbsent at h
  split at h
  · exact Or.inr h
  · exact List.mem_cons.mp h

theorem Known.putIfAbsent {n : ℕ} {value : β} (h : Known n m)
    (htopic : topic.ref < n) : Known n (m.putIfAbsent topic value) := by
  intro entry hentry
  rcases mem_putIfAbsent hentry with rfl | hentry
  · exact htopic
  · exact h entry hentry

theorem Known.replace {n : ℕ} {value : β} (h : Known n m) :
    Known n (m.replace topic value) := by
  intro entry hentry
  obtain ⟨old, hold, rfl⟩ := List.mem_map.mp hentry
  split <;> exact h old hold

/-- The keys are objects that exist, and no topic is marked. -/
structure Unmarked (s : Messager) : Prop where
  published : Known s.objects s.publishedTopics
  subscribed : Known s.objects s.subscribedTopics
  actions : Known s.objects s.topicEventActions
  unpublished : ∀ entry ∈ s.publishedTopics, entry.2 = false

variable {s s' : Messager} {e : Event} {es : List Event}

section

variable (h : s.Unmarked)
include h

theorem Unmarked.isPublished (topic : Topic) : s.isPublished topic = false := by
  rw [Messager.isPublished, decide_eq_false_iff_not, TopicMap.get]
  intro hget
  obtain ⟨entry, hfind, htrue⟩ := Option.map_eq_some_iff.mp hget
  rw [h.unpublished entry (List.mem_of_find?_eq_some hfind)] at htrue
  cases htrue

theorem Unmarked.subscribe (htopic : topic.ref < s.objects)
    (action : String) : (s.subscribe topic action).Unmarked := by
  obtain ⟨hpublished, hsubscribed, hactions, hunpublished⟩ := h
  unfold Messager.subscribe putAction
  cases s.topicEventActions.get topic with
  | none => exact ⟨hpublished, hsubscribed, hactions.putIfAbsent htopic, hunpublished⟩
  | some actions =>
    dsimp only
    split
    · exact ⟨hpublished, hsubscribed.putIfAbsent htopic, hactions.replace, hunpublished⟩
    · exact ⟨hpublished, hsubscribed, hactions.replace, hunpublished⟩

theorem Unmarked.decode (topicId : String) : (s.decode topicId).2.Unmarked :=
  ⟨fun entry hentry => (h.published entry hentry).trans (Nat.lt_succ_self _),
    fun entry hentry => (h.subscribed entry hentry).trans (Nat.lt_succ_self _),
    fun entry hentry => (h.actions entry hentry).trans (Nat.lt_succ_self _), h.unpublished⟩

theorem Unmarked.onOk (topicId : String) :
    (s.decode topicId).2.onOk (s.decode topicId).1 = (s.decode topicId).2 := by
  simp only [Messager.onOk, Messager.decode, replace_of_known h.published,
    replace_of_known h.subscribed]

theorem Unmarked.dispatch (topicId name : String) :
    (s.decode topicId).2.dispatch (s.decode topicId).1 name = (s.decode topicId).2 := by
  simp only [Messager.dispatch, Messager.decode, get_of_known h.actions]

theorem Unmarked.step (hstep : s.step e = .ok s') : s'.Unmarked := by
  cases e with
  | new =>
    cases hstep
    exact h.decode ""
  | publish topic =>
    simp only [Messager.step] at hstep
    split at hstep
    · cases hstep
    · rename_i hlt
      split at hstep
      · cases hstep
        refine ⟨h.published.putIfAbsent (Nat.lt_of_not_le hlt), h.subscribed, h.actions, ?_⟩
        intro entry hentry
        rcases mem_putIfAbsent hentry with rfl | hentry
        · rfl
        · exact h.unpublished entry hentry
      · cases hstep
        exact h
  | publishEvent topic name =>
    simp only [Messager.step, h.isPublished topic] at hstep
    split at hstep
    · cases hstep
    · cases hstep
      exact h
  | subscribe topic action =>
    simp only [Messager.step] at hstep
    split at hstep
    · cases hstep
    · rename_i hlt
      cases hstep
      exact h.subscribe (Nat.lt_of_not_le hlt) action
  | unpublish topic =>
    cases hstep
    exact ⟨fun entry hentry => h.published entry (List.mem_of_mem_filter hentry), h.subscribed,
      h.actions, fun entry hentry => h.unpublished entry (List.mem_of_mem_filter hentry)⟩
  | unsubscribe topic =>
    cases hstep
    exact ⟨h.published, fun entry hentry => h.subscribed entry (List.mem_of_mem_filter hentry),
      h.actions, h.unpublished⟩
  | ok topicId =>
    cases hstep
    exact (h.onOk topicId).symm ▸ h.decode topicId
  | event topicId name =>
    cases hstep
    exact (h.dispatch topicId name).symm ▸ h.decode topicId

end

def Published (es : List Event) (topic : Topic) : Prop :=
  [.publish topic, .ok topic.topicId].Sublist es ∧ .unpublish topic ∉ es

def Subscribed (es : List Event) (topic : Topic) (action : String) : Prop :=
  [.subscribe topic action, .ok topic.topicId].Sublist es ∧ .unsubscribe topic ∉ es

/-- **Topics are acknowledged just if there is nothing to acknowledge**: no event of a topic is
enqueued, and none reaches an action, whatever the broker has answered. -/
theorem acknowledged_iff (hrun : runSteps step create es = .ok s) :
    ((∀ topic, Published es topic → ∀ name, ∃ s', s.step (.publishEvent topic name) = .ok s' ∧
        s'.contextQueue = s.contextQueue ++ [.event topic.topicId name]) ∧
      ∀ topic action, Subscribed es topic action →
        ∃ s', s.step (.event topic.topicId action) = .ok s' ∧
          s'.executed = s.executed ++ [(topic.topicId, action)]) ↔
    (∀ topic, ¬ Published es topic) ∧ ∀ topic action, ¬ Subscribed es topic action := by
  have hunmarked : s.Unmarked :=
    runSteps_invariant (I := Unmarked) (C := fun _ _ => True) (fun _ _ _ h _ => h.step)
      ⟨by simp [Known, create], by simp [Known, create], by simp [Known, create], by simp [create]⟩
      (eachStep_true _ _) hrun
  constructor
  · rintro ⟨hpublished, hsubscribed⟩
    refine ⟨fun topic htopic => ?_, fun topic action htopic => ?_⟩
    · obtain ⟨s', hstep, hqueue⟩ := hpublished topic htopic ""
      simp only [Messager.step, hunmarked.isPublished topic] at hstep
      split at hstep
      · cases hstep
      · cases hstep
        simp at hqueue
    · obtain ⟨s', hstep, hexecuted⟩ := hsubscribed topic action htopic
      have heq := congrArg executed (hunmarked.dispatch topic.topicId action)
      cases hstep
      exact absurd (heq.symm.trans hexecuted) (by simp [Messager.decode])
  · rintro ⟨hpublished, hsubscribed⟩
    exact ⟨fun topic htopic => absurd htopic (hpublished topic),
      fun topic action htopic => absurd htopic (hsubscribed topic action)⟩

theorem acknowledged_unanswered :
    (∀ topic, ¬ Published [.new, .publish ⟨0, "t"⟩] topic) ∧
      ∀ topic action, ¬ Subscribed [.new, .publish ⟨0, "t"⟩] topic action := by
  have hrun : runSteps step create [.new, .publish ⟨0, "t"⟩] = .ok _ := rfl
  refine (acknowledged_iff hrun).mp ⟨fun topic h => ?_, fun topic action h => ?_⟩ <;>
    simpa using h.1.subset (List.mem_cons_of_mem _ List.mem_cons_self)

theorem published_event_dropped :
    Published [.new, .publish ⟨0, "t"⟩, .ok "t"] ⟨0, "t"⟩ ∧
      ∃ s, runSteps step create [.new, .publish ⟨0, "t"⟩, .ok "t"] = .ok s ∧
        s.step (.publishEvent ⟨0, "t"⟩ "e") = .ok s :=
  ⟨⟨by decide, by decide⟩, _, rfl, rfl⟩

end Messager

end Icm.Java.Acknowledged
