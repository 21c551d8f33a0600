import Icm.Lib.Formatted
import Icm.Messaging.Broker

/-!
# The file of the subscriptions

With buffering the topic manager writes its subscriptions and its counter for new ids into the file
`SubscriptionInfo` (`TopicManager::saveSubscriptionInfoToDisk_`), and the constructor of the topic
manager reads them when the broker starts again.
-/

namespace Icm.Messaging

open Icm.Lib List Istream

theorem decimal_eq (n : ℕ) :
    decimal n = (if n < 10 then [] else decimal (n / 10)) ++ [.ofNat (48 + n % 10)] := by
  have hdigit (d : ℕ) (hd : d < 10) : UInt8.ofNat (Nat.digitChar d).toNat = .ofNat (48 + d) := by
    interval_cases d <;> rfl
  rw [decimal, Nat.toDigits_eq_if (by decide)]
  split_ifs with hn
  · rw [map_singleton, hdigit n hn, Nat.mod_eq_of_lt hn, nil_append]
  · rw [map_append, map_singleton, hdigit _ (Nat.mod_lt _ (by decide)), decimal]

theorem decimal_ne_nil (n : ℕ) : decimal n ≠ [] := by
  rw [decimal_eq]
  exact append_ne_nil_of_right_ne_nil _ (cons_ne_nil _ _)

theorem toNat_digit {n : ℕ} : (UInt8.ofNat (48 + n % 10)).toNat = 48 + n % 10 := by
  rw [UInt8.toNat_ofNat', Nat.mod_eq_of_lt]
  omega

theorem isDigit_of_mem_decimal {n : ℕ} : ∀ d ∈ decimal n, isDigit d = true := by
  induction n using Nat.strong_induction_on with
  | h n ih =>
    rw [decimal_eq]
    refine forall_mem_append.mpr ⟨?_, forall_mem_singleton.mpr ?_⟩
    · split_ifs with hn
      · exact forall_mem_nil _
      · exact ih (n / 10) (Nat.div_lt_self (by omega) (by decide))
    · refine decide_eq_true ⟨UInt8.le_iff_toNat_le.mpr ?_, UInt8.le_iff_toNat_le.mpr ?_⟩ <;>
      · rw [toNat_digit]
        simp only [UInt8.reduceToNat]
        omega

theorem digitsValue_decimal (n : ℕ) : digitsValue (decimal n) = n := by
  induction n using Nat.strong_induction_on with
  | h n ih =>
    rw [decimal_eq, digitsValue_concat, toNat_digit]
    split_ifs with hn
    · rw [digitsValue, foldl_nil]
      omega
    · rw [ih (n / 10) (Nat.div_lt_self (by omega) (by decide))]
      omega

theorem isWord_decimal (n : ℕ) : IsWord (decimal n) :=
  ⟨decimal_ne_nil n, fun d hd => isSpace_of_isDigit (isDigit_of_mem_decimal d hd)⟩

def printInt (z : ℤ) : List UInt8 :=
  if z < 0 then 45 :: decimal z.natAbs else decimal z.natAbs

theorem isWord_printInt (z : ℤ) : IsWord (printInt z) := by
  rw [printInt]
  split_ifs
  · exact ⟨cons_ne_nil _ _, forall_mem_cons.mpr ⟨rfl, (isWord_decimal _).2⟩⟩
  · exact isWord_decimal _

theorem numeral_printInt (z : ℤ) (text : List UInt8) :
    numeral (printInt z ++ 32 :: text) = (some z, 32 :: text) := by
  rw [printInt]
  split_ifs with hz
  · rw [cons_append, numeral_minus_append (decimal_ne_nil _) isDigit_of_mem_decimal,
      digitsValue_decimal, Int.ofNat_natAbs_of_nonpos hz.le, neg_neg]
  · rw [numeral_append (decimal_ne_nil _) isDigit_of_mem_decimal, digitsValue_decimal,
      Int.natAbs_of_nonneg (not_lt.mp hz)]

def intMin : ℤ := -2 ^ 31

structure SubscriptionInfo where
  nextAllocateClientId : ℤ
  subscriptionMap : AList fun _ : Topic => List ClientId

namespace SubscriptionInfo

def subscribersOf (info : SubscriptionInfo) (topic : Topic) : List ClientId :=
  (info.subscriptionMap.lookup topic).getD []

def idsText (ids : List ClientId) : List UInt8 := ids.flatMap fun id => id ++ [32]

def topicText (ids : List ClientId) : List UInt8 :=
  32 :: (decimal ids.length ++ 32 :: idsText ids)

def topicsText (entries : List (Σ _ : Topic, List ClientId)) : List UInt8 :=
  entries.flatMap fun e => e.1 ++ topicText e.2

def sorted (info : SubscriptionInfo) : List (Σ _ : Topic, List ClientId) :=
  (info.subscriptionMap.entries.insertionSort fun e e' => e.1 ≤ e'.1).map fun e =>
    ⟨e.1, e.2.insertionSort (· ≤ ·)⟩

def heading : List UInt8 := ascii "nextAllocateClientId:"

def text (info : SubscriptionInfo) : List UInt8 :=
  heading ++ 32 :: (printInt info.nextAllocateClientId ++ 32 :: topicsText info.sorted)

def addSubscription_ (info : SubscriptionInfo) (topic : Topic) (id : ClientId) :
    Except Assertion SubscriptionInfo := do
  require .subscriptionTopic (topic ≠ [])
  require .subscriptionId (id ≠ [])
  return { info with
    subscriptionMap := info.subscriptionMap.insert topic ((info.subscribersOf topic).insert id) }

end SubscriptionInfo

namespace TopicManager

def info (tm : TopicManager) : SubscriptionInfo :=
  ⟨(BitVec.ofNat 32 tm.nextAllocateClientId).toInt, tm.subscriptionMap⟩

def savedText (tm : TopicManager) : List UInt8 := tm.saveSubscriptionInfoToDisk_.info.text

end TopicManager

structure Reload where
  ifs : Istream
  topic : Topic
  subscriberCount : ℤ
  info : SubscriptionInfo

def reloadSubscribers (topic : Topic) :
    ℕ → Istream → SubscriptionInfo → Except Assertion (Istream × SubscriptionInfo)
  | 0, ifs, info => .ok (ifs, info)
  | n + 1, ifs, info => do
    let (currentSubscriber, ifs) := ifs.readWord []
    require .reloadEof (ifs.eof = false)
    let info ← info.addSubscription_ topic currentSubscriber
    reloadSubscribers topic n ifs info

def reloadTopic (r : Reload) : Except Assertion Reload := do
  let (subscriberCount, ifs) := r.ifs.readInt intMin intMax r.subscriberCount
  require .reloadEof (ifs.eof = false)
  let (ifs, info) ← reloadSubscribers r.topic subscriberCount.toNat ifs r.info
  let (topic, ifs) := ifs.readWord r.topic
  return ⟨ifs, topic, subscriberCount, info⟩

def reloadLoop : ℕ → Reload → Option (Except Assertion SubscriptionInfo)
  | 0, _ => none
  | rounds + 1, r =>
    if r.ifs.eof then some (.ok r.info)
    else
      match reloadTopic r with
      | .error a => some (.error a)
      | .ok r => reloadLoop rounds r

def reload (rounds : ℕ) : Option (List UInt8) → Option (Except Assertion SubscriptionInfo)
  | none => some (.ok ⟨1, ∅⟩)
  | some file =>
    let (_, ifs) := (ofText file).readWord []
    let (nextAllocateClientId, ifs) := ifs.readInt intMin intMax 0
    if nextAllocateClientId = 0 then some (.ok ⟨1, ∅⟩)
    else
      let (topic, ifs) := ifs.readWord []
      reloadLoop rounds ⟨ifs, topic, 0, ⟨nextAllocateClientId, ∅⟩⟩

namespace SubscriptionInfo

def enter (info : SubscriptionInfo) (topic : Topic) (id : ClientId) : SubscriptionInfo :=
  { info with
    subscriptionMap := info.subscriptionMap.insert topic ((info.subscribersOf topic).insert id) }

def enterAll (info : SubscriptionInfo) (topic : Topic) (ids : List ClientId) : SubscriptionInfo :=
  ids.foldl (fun info id => info.enter topic id) info

def enterTopics (info : SubscriptionInfo) (es : List (Σ _ : Topic, List ClientId)) :
    SubscriptionInfo :=
  es.foldl (fun info e => info.enterAll e.1 e.2) info

variable (info : SubscriptionInfo) {topic t : Topic} {id i : ClientId}

theorem addSubscription_eq (htopic : topic ≠ []) (hid : id ≠ []) :
    info.addSubscription_ topic id = .ok (info.enter topic id) := by
  rw [addSubscription_, require_bind, if_pos htopic, require_bind, if_pos hid]
  rfl

theorem mem_subscribersOf_enter :
    i ∈ (info.enter topic id).subscribersOf t ↔ t = topic ∧ i = id ∨ i ∈ info.subscribersOf t := by
  rw [enter, subscribersOf]
  by_cases ht : t = topic
  · subst ht
    rw [AList.lookup_insert, Option.getD_some, mem_insert_iff]
    simp only [true_and]
  · rw [AList.lookup_insert_ne ht]
    simp only [ht, false_and, false_or]
    rfl

theorem mem_subscribersOf_enterAll {ids : List ClientId} :
    i ∈ (info.enterAll topic ids).subscribersOf t ↔
      t = topic ∧ i ∈ ids ∨ i ∈ info.subscribersOf t := by
  induction ids generalizing info with
  | nil => simp [enterAll]
  | cons id ids ih =>
    refine (ih (info.enter topic id)).trans ?_
    rw [mem_subscribersOf_enter, mem_cons]
    tauto

theorem mem_subscribersOf_enterTopics {es : List (Σ _ : Topic, List ClientId)} :
    i ∈ (info.enterTopics es).subscribersOf t ↔
      (∃ e ∈ es, e.1 = t ∧ i ∈ e.2) ∨ i ∈ info.subscribersOf t := by
  induction es generalizing info with
  | nil => simp [enterTopics]
  | cons e es ih =>
    refine (ih (info.enterAll e.1 e.2)).trans ?_
    rw [mem_subscribersOf_enterAll, exists_mem_cons_iff, eq_comm]
    exact or_left_comm.trans or_assoc.symm

theorem nextAllocateClientId_enterAll (ids : List ClientId) :
    (info.enterAll topic ids).nextAllocateClientId = info.nextAllocateClientId := by
  induction ids generalizing info with
  | nil => rfl
  | cons id ids ih => exact ih (info.enter topic id)

theorem nextAllocateClientId_enterTopics (es : List (Σ _ : Topic, List ClientId)) :
    (info.enterTopics es).nextAllocateClientId = info.nextAllocateClientId := by
  induction es generalizing info with
  | nil => rfl
  | cons e es ih => exact (ih _).trans (nextAllocateClientId_enterAll info e.2)

end SubscriptionInfo

open SubscriptionInfo

variable {topic : Topic} {ids : List ClientId} {ifs : Istream} {text : List UInt8}

theorem reloadSubscribers_printed (htopic : topic ≠ [])
    (hids : ∀ id ∈ ids, IsWord id)
    (h : ifs.Before (idsText ids ++ text)) (info : SubscriptionInfo) :
    ∃ ifs', reloadSubscribers topic ids.length ifs info = .ok (ifs', info.enterAll topic ids) ∧
      ifs'.Before text := by
  induction ids generalizing ifs info with
  | nil => exact ⟨ifs, rfl, h⟩
  | cons id ids ih =>
    obtain ⟨hid, hids⟩ := forall_mem_cons.mp hids
    rw [idsText, flatMap_cons, append_assoc, append_assoc] at h
    obtain ⟨ifs₁, hread, h₁⟩ := readWord_before [] h hid
    obtain ⟨ifs', hrest, h'⟩ := ih hids h₁ (info.enter topic id)
    refine ⟨ifs', ?_, h'⟩
    simp only [length_cons, reloadSubscribers, hread, require_bind, if_pos h₁.eof_eq,
      addSubscription_eq info htopic hid.1]
    exact hrest

variable {r : Reload}

theorem reloadTopic_printed
    (h : r.ifs.Before (decimal ids.length ++ 32 :: (idsText ids ++ text))) (htopic : r.topic ≠ [])
    (hids : ∀ id ∈ ids, IsWord id) (hlen : ids.length < 2 ^ 31) :
    ∃ ifs : Istream, ifs.Before text ∧
      reloadTopic r = .ok ⟨(ifs.readWord r.topic).2, (ifs.readWord r.topic).1, ids.length,
        r.info.enterAll r.topic ids⟩ := by
  have hnum := numeral_append (decimal_ne_nil ids.length) isDigit_of_mem_decimal
    (idsText ids ++ text)
  rw [digitsValue_decimal] at hnum
  obtain ⟨ifs₁, hread, h₁⟩ := readInt_before r.subscriberCount h (isWord_decimal _) hnum
    (show intMin ≤ ids.length by rw [intMin]; omega)
    (show (ids.length : ℤ) ≤ intMax by rw [intMax]; omega)
  obtain ⟨ifs, hsubscribers, hifs⟩ := reloadSubscribers_printed htopic hids h₁ r.info
  refine ⟨ifs, hifs, ?_⟩
  simp only [reloadTopic, hread, require_bind, if_pos h₁.eof_eq, Int.toNat_natCast, hsubscribers]
  rfl

theorem reloadLoop_printed {es : List (Σ _ : Topic, List ClientId)}
    (hes : ∀ e ∈ es, IsWord e.1 ∧ (∀ id ∈ e.2, IsWord id) ∧ e.2.length < 2 ^ 31)
    (h : ifs.Before (topicsText es)) {rounds : ℕ} (hrounds : es.length < rounds) (old : Topic)
    (count : ℤ) (info : SubscriptionInfo) :
    reloadLoop rounds ⟨(ifs.readWord old).2, (ifs.readWord old).1, count, info⟩ =
      some (.ok (info.enterTopics es)) := by
  induction es generalizing ifs rounds old count info with
  | nil =>
    obtain ⟨rounds, rfl⟩ := Nat.exists_eq_succ_of_ne_zero hrounds.ne'
    rw [readWord_of_blank h.1 h.2]
    rfl
  | cons e es ih =>
    obtain ⟨rounds, rfl⟩ := Nat.exists_eq_succ_of_ne_zero (Nat.ne_zero_of_lt hrounds)
    obtain ⟨⟨htopic, hids, hlen⟩, hes⟩ := forall_mem_cons.mp hes
    rw [topicsText, flatMap_cons, topicText, append_assoc, cons_append,
      append_assoc, cons_append] at h
    obtain ⟨ifs₁, hread, h₁⟩ := readWord_before old h htopic
    obtain ⟨ifs₂, h₂, hround⟩ := reloadTopic_printed (r := ⟨ifs₁, e.1, count, info⟩) h₁ htopic.1
      hids hlen
    rw [hread, reloadLoop, if_neg (by rw [h₁.eof_eq]; exact Bool.false_ne_true), hround]
    exact ih hes h₂ (Nat.lt_of_succ_lt_succ hrounds) e.1 _ _

variable {z : ℤ}

theorem reload_heading (hz : z ≠ 0) (hlo : intMin ≤ z) (hhi : z ≤ intMax)
    (text : List UInt8) :
    ∃ ifs : Istream, ifs.Before text ∧ ∀ rounds,
      reload rounds (some (heading ++ 32 :: (printInt z ++ 32 :: text))) =
        reloadLoop rounds ⟨(ifs.readWord []).2, (ifs.readWord []).1, 0, ⟨z, ∅⟩⟩ := by
  obtain ⟨ifs₁, hread₁, h₁⟩ := readWord_before []
    (before_ofText (heading ++ 32 :: (printInt z ++ 32 :: text)))
    (show IsWord heading by decide +kernel)
  obtain ⟨ifs, hread, h⟩ := readInt_before 0 h₁ (isWord_printInt z)
    (numeral_printInt z text) hlo hhi
  refine ⟨ifs, h, fun rounds => ?_⟩
  simp only [reload, hread₁, hread, if_neg hz]

theorem reload_text {info : SubscriptionInfo} (hz : info.nextAllocateClientId ≠ 0)
    (hlo : intMin ≤ info.nextAllocateClientId) (hhi : info.nextAllocateClientId ≤ intMax)
    (hes : ∀ e ∈ info.sorted, IsWord e.1 ∧ (∀ id ∈ e.2, IsWord id) ∧ e.2.length < 2 ^ 31)
    {rounds : ℕ} (hrounds : info.sorted.length < rounds) :
    reload rounds (some info.text) =
      some (.ok (enterTopics ⟨info.nextAllocateClientId, ∅⟩ info.sorted)) := by
  obtain ⟨ifs, h, hreload⟩ := reload_heading hz hlo hhi (topicsText info.sorted)
  exact (hreload rounds).trans (reloadLoop_printed hes h hrounds [] 0 _)

variable {e : Σ _ : Topic, List ClientId}

theorem mem_entries_erase {s : AList fun _ : Topic => List ClientId}
    :
    e ∈ (s.erase topic).entries ↔ e ∈ s.entries ∧ e.1 ≠ topic := by
  obtain ⟨t, ids⟩ := e
  rw [← AList.mem_lookup_iff, ← AList.mem_lookup_iff]
  by_cases ht : t = topic
  · subst ht
    simp [AList.lookup_erase]
  · simp [AList.lookup_erase_ne ht, ht]

theorem mem_sorted_saved {tm : TopicManager} :
    e ∈ tm.saveSubscriptionInfoToDisk_.info.sorted ↔
      ∃ e₀ ∈ tm.subscriptionMap.entries, e₀.1 ≠ [] ∧
        ⟨e₀.1, (e₀.2.erase []).insertionSort (· ≤ ·)⟩ = e := by
  have hmap : ∀ e₁, e₁ ∈ tm.saveSubscriptionInfoToDisk_.subscriptionMap.entries ↔
      ∃ e₀ ∈ tm.subscriptionMap.entries, e₀.1 ≠ [] ∧ ⟨e₀.1, e₀.2.erase []⟩ = e₁ := by
    intro e₁
    refine mem_map.trans ?_
    simp only [mem_entries_erase, and_assoc]
  rw [sorted, mem_map]
  simp only [mem_insertionSort]
  constructor
  · rintro ⟨e₁, he₁, rfl⟩
    obtain ⟨e₀, he₀, hne, rfl⟩ := (hmap e₁).mp he₁
    exact ⟨e₀, he₀, hne, rfl⟩
  · rintro ⟨e₀, he₀, hne, rfl⟩
    exact ⟨_, (hmap _).mpr ⟨e₀, he₀, hne, rfl⟩, rfl⟩

/-- **What was saved is restored.** -/
theorem reload_of_saved (tm : TopicManager) (hpos : 0 < tm.nextAllocateClientId)
    (hint : tm.nextAllocateClientId ≤ intMax)
    (hwords : ∀ e ∈ tm.subscriptionMap.entries, IsWord e.1 ∧ ∀ id ∈ e.2, IsWord id)
    (hsize : ∀ e ∈ tm.subscriptionMap.entries, e.2.length ≤ intMax) :
    ∃ info, (∃ rounds₀, ∀ rounds, rounds₀ ≤ rounds →
        reload rounds (some tm.savedText) = some (.ok info)) ∧
      info.nextAllocateClientId = tm.nextAllocateClientId ∧
      ∀ topic id, id ∈ info.subscribersOf topic ↔ id ∈ tm.subscribersOf topic := by
  have hnext : tm.saveSubscriptionInfoToDisk_.info.nextAllocateClientId =
      tm.nextAllocateClientId := by
    rw [intMax] at hint
    change (BitVec.ofNat 32 tm.nextAllocateClientId).toInt = _
    rw [BitVec.toInt_eq_toNat_of_lt] <;>
      rw [BitVec.toNat_ofNat, Nat.mod_eq_of_lt] <;> omega
  have hes : ∀ e ∈ tm.saveSubscriptionInfoToDisk_.info.sorted,
      IsWord e.1 ∧ (∀ id ∈ e.2, IsWord id) ∧ e.2.length < 2 ^ 31 := by
    intro e he
    obtain ⟨e₀, he₀, -, rfl⟩ := mem_sorted_saved.mp he
    obtain ⟨htopic, hids⟩ := hwords e₀ he₀
    refine ⟨htopic, fun id hid => hids id ?_, ?_⟩
    · exact mem_of_mem_erase ((mem_insertionSort _).mp hid)
    · have hle := (length_erase_le (a := []) (l := e₀.2)).trans (hsize e₀ he₀)
      rw [intMax] at hle
      rw [length_insertionSort]
      omega
  refine ⟨_, ⟨_, fun rounds hrounds => reload_text ?_ ?_ ?_ hes hrounds⟩, ?_, fun topic id => ?_⟩
  · rw [hnext]
    omega
  · rw [hnext, intMin]
    omega
  · rw [hnext]
    exact_mod_cast hint
  · rw [nextAllocateClientId_enterTopics]
    exact hnext
  · rw [mem_subscribersOf_enterTopics]
    constructor
    · rintro (⟨e, he, rfl, hid⟩ | hid)
      · obtain ⟨e₀, he₀, -, rfl⟩ := mem_sorted_saved.mp he
        rw [TopicManager.subscribersOf, AList.mem_lookup_iff.mpr he₀]
        exact mem_of_mem_erase ((mem_insertionSort _).mp hid)
      · cases hid
    · intro hid
      obtain ⟨ids, hlookup⟩ : ∃ ids, tm.subscriptionMap.lookup topic = some ids := by
        cases hlookup : tm.subscriptionMap.lookup topic with
        | some ids => exact ⟨ids, rfl⟩
        | none =>
          rw [TopicManager.subscribersOf, hlookup] at hid
          cases hid
      rw [TopicManager.subscribersOf, hlookup] at hid
      have hentry := AList.mem_lookup_iff.mp hlookup
      obtain ⟨htopic, hids⟩ := hwords _ hentry
      refine Or.inl ⟨_, mem_sorted_saved.mpr ⟨_, hentry, htopic.1, rfl⟩, rfl, ?_⟩
      exact (mem_insertionSort _).mpr ((mem_erase_of_ne (hids id hid).1).mpr hid)

def oneTopic (topic : Topic) (ids : List ClientId) (nextAllocateClientId : ℕ) : TopicManager :=
  (Broker.start (AList.singleton topic ids) nextAllocateClientId).manager

theorem reload_of_saved_two :
    ∃ info, (∃ rounds₀, ∀ rounds, rounds₀ ≤ rounds →
        reload rounds (some (oneTopic (ascii "t") [ascii "1", ascii "2"] 3).savedText) =
          some (.ok info)) ∧
      info.nextAllocateClientId = (3 : ℕ) ∧
      ∀ topic id, id ∈ info.subscribersOf topic ↔
        id ∈ (oneTopic (ascii "t") [ascii "1", ascii "2"] 3).subscribersOf topic :=
  reload_of_saved (oneTopic (ascii "t") [ascii "1", ascii "2"] 3) (by decide) (by decide)
    (by decide +kernel) (by decide +kernel)

theorem reloadTopic_of_readInt
    (h : r.ifs.readInt intMin intMax r.subscriberCount = (z, ifs)) (heof : ifs.eof = false) :
    reloadTopic r = (reloadSubscribers r.topic z.toNat ifs r.info).map fun p =>
      ⟨(p.1.readWord r.topic).2, (p.1.readWord r.topic).1, z, p.2⟩ := by
  simp only [reloadTopic, h, require_bind, if_pos heof]
  cases reloadSubscribers r.topic z.toNat ifs r.info <;> rfl

theorem reloadTopic_of_over {rest : List UInt8}
    (h : r.ifs.readInt intMin intMax r.subscriberCount = ((intMax : ℤ), ⟨rest, false, true⟩)) :
    ∃ a, reloadTopic r = .error a := by
  obtain ⟨k, hk⟩ : ∃ k, intMax = k + 1 := ⟨2 ^ 31 - 2, rfl⟩
  have hsubscribers : ∃ a, reloadSubscribers r.topic (k + 1) ⟨rest, false, true⟩ r.info =
      .error a := by
    simp only [reloadSubscribers, readWord_of_bad (s := ⟨rest, false, true⟩) rfl,
      require_bind, if_true, addSubscription_, ne_eq, not_true_eq_false, if_false]
    split_ifs
    · exact ⟨_, rfl⟩
    · exact ⟨_, rfl⟩
  obtain ⟨a, ha⟩ := hsubscribers
  refine ⟨a, ?_⟩
  rw [reloadTopic_of_readInt h rfl, Int.toNat_natCast, hk, ha]
  rfl

theorem reload_crowd (htopic : IsWord topic)
    (hids : ∀ id ∈ ids, IsWord id) (hlen : intMax < ids.length) (rounds : ℕ)
    (info : SubscriptionInfo) : reload rounds (some (oneTopic topic ids 1).savedText) ≠
      some (.ok info) := by
  have hsorted : (oneTopic topic ids 1).saveSubscriptionInfoToDisk_.info.sorted =
      [⟨topic, (ids.erase []).insertionSort (· ≤ ·)⟩] := by
    have herase : kerase [] [(⟨topic, ids⟩ : Σ _ : Topic, List ClientId)] = [⟨topic, ids⟩] :=
      kerase_of_notMem_keys (by simpa using htopic.1.symm)
    have hentries :
        (oneTopic topic ids 1).saveSubscriptionInfoToDisk_.info.subscriptionMap.entries =
          [⟨topic, ids.erase []⟩] := congrArg (map _) herase
    rw [sorted, hentries]
    rfl
  have hnil : ids.erase [] = ids := erase_of_not_mem fun hmem => (hids _ hmem).1 rfl
  obtain ⟨ifs, h, hreload⟩ := reload_heading (z := 1) one_ne_zero (by decide) (by decide)
    (topicsText [⟨topic, ids.insertionSort (· ≤ ·)⟩])
  have htext : (oneTopic topic ids 1).savedText =
      heading ++ 32 :: (printInt 1 ++ 32 :: topicsText [⟨topic, ids.insertionSort (· ≤ ·)⟩]) := by
    rw [TopicManager.savedText, text, hsorted, hnil]
    rfl
  rw [htext, hreload]
  rw [topicsText, flatMap_singleton, topicText] at h
  obtain ⟨ifs₁, hread, h₁⟩ := readWord_before [] h htopic
  rw [hread]
  cases rounds with
  | zero => exact nofun
  | succ rounds =>
    have hnum := numeral_append (decimal_ne_nil (ids.insertionSort (· ≤ ·)).length)
      isDigit_of_mem_decimal (idsText (ids.insertionSort (· ≤ ·)))
    rw [digitsValue_decimal, length_insertionSort] at hnum
    rw [length_insertionSort] at h₁
    obtain ⟨a, ha⟩ := reloadTopic_of_over (r := ⟨ifs₁, topic, 0, ⟨1, ∅⟩⟩)
      (readInt_before_over 0 h₁ (isWord_decimal _) hnum (by decide) (by exact_mod_cast hlen))
    rw [reloadLoop, if_neg (by rw [h₁.eof_eq]; exact Bool.false_ne_true), ha]
    exact nofun

theorem crowd_not_restored :
    ∃ tm : TopicManager, 0 < tm.nextAllocateClientId ∧ tm.nextAllocateClientId ≤ intMax ∧
      (∀ e ∈ tm.subscriptionMap.entries, IsWord e.1 ∧ ∀ id ∈ e.2, IsWord id) ∧
      ∀ rounds info, reload rounds (some tm.savedText) ≠ some (.ok info) := by
  obtain ⟨ids, hlen, hids⟩ : ∃ ids : List ClientId, ids.length = 2 ^ 31 ∧ ∀ id ∈ ids, IsWord id :=
    ⟨(range (2 ^ 31)).map decimal, by rw [length_map, length_range],
      forall_mem_map.mpr fun n _ => isWord_decimal n⟩
  have htopic : IsWord (ascii "t") := by decide +kernel
  refine ⟨oneTopic (ascii "t") ids 1, Nat.one_pos, show 1 ≤ intMax by decide,
    forall_mem_singleton.mpr ⟨htopic, hids⟩, ?_⟩
  exact reload_crowd htopic hids (by rw [hlen, intMax]; omega)

def Unreadable (text : List UInt8) : Prop :=
  (numeral (skipSpace text)).2 ≠ [] ∧ ∀ z, (numeral (skipSpace text)).1 = some z → z < intMin

def CountIs (text : List UInt8) (z : ℤ) (rest : List UInt8) : Prop :=
  numeral (skipSpace text) = (some z, rest) ∧ intMin ≤ z ∧ z ≤ intMax

inductive Stuck : List UInt8 → Prop
  | here {text : List UInt8} (h : Unreadable text) : Stuck text
  | later {text rest rest' : List UInt8} {z : ℤ} (hcount : CountIs text z rest)
      (hwords : skipWords (z.toNat + 1) rest = some rest') (h : Stuck rest') : Stuck text

/-- The files on which the constructor does not return: behind the heading there is a counter, which
is not an `int` and is not the end of the file, or is not zero and is followed by a topic whose
number of subscribers cannot be read, or a later one of that kind. -/
def Hangs (file : List UInt8) : Prop :=
  ∃ text z rest, skipWords 1 file = some text ∧ numeral (skipSpace text) = (some z, rest) ∧
    (¬ (intMin ≤ z ∧ z ≤ intMax) ∧ rest ≠ [] ∨
      (intMin ≤ z ∧ z ≤ intMax) ∧ z ≠ 0 ∧ ∃ rest', skipWords 1 rest = some rest' ∧ Stuck rest')

structure Reload.Jammed (r : Reload) : Prop where
  eof_eq : r.ifs.eof = false
  fail_eq : r.ifs.fail = true
  count_le : r.subscriberCount ≤ 0

theorem reloadLoop_jammed (h : r.Jammed) (rounds : ℕ) : reloadLoop rounds r = none := by
  induction rounds generalizing r with
  | zero => rfl
  | succ rounds ih =>
    have hbad : r.ifs.good = false := by simp [good, h.fail_eq]
    have hbad' : ({ r.ifs with fail := true } : Istream).good = false := by simp [good]
    have hround : reloadTopic r = .ok ⟨{ r.ifs with fail := true }, r.topic, r.subscriberCount,
        r.info⟩ := by
      simp only [reloadTopic, readInt_of_bad hbad, require_bind, if_pos h.eof_eq,
        Int.toNat_of_nonpos h.count_le, reloadSubscribers]
      simp only [Bind.bind, Except.bind, readWord_of_bad hbad']
      rfl
    rw [reloadLoop, if_neg (by rw [h.eof_eq]; exact Bool.false_ne_true), hround]
    exact ih ⟨h.eof_eq, rfl, h.count_le⟩

theorem reloadSubscribers_cases (htopic : topic ≠ []) (n : ℕ) (text : List UInt8)
    (info : SubscriptionInfo) :
    (∃ rest info', skipWords n text = some rest ∧
      reloadSubscribers topic n (.ofText text) info = .ok (.ofText rest, info')) ∨
    skipWords n text = none ∧ ∃ a, reloadSubscribers topic n (.ofText text) info = .error a := by
  induction n generalizing text info with
  | zero => exact Or.inl ⟨text, info, rfl, rfl⟩
  | succ n ih =>
    by_cases hend : (takeWord (skipSpace text)).2 = []
    · refine Or.inr ⟨if_pos hend, .reloadEof, ?_⟩
      have heof := readWord_ofText_eof [] hend
      simp only [reloadSubscribers, require_bind, heof]
      rfl
    · have hne : skipSpace text ≠ [] := fun hnil => hend (by rw [hnil]; rfl)
      have hword := isWord_takeWord hne
      have hstep : reloadSubscribers topic (n + 1) (.ofText text) info =
          reloadSubscribers topic n (.ofText (takeWord (skipSpace text)).2)
            (info.enter topic (takeWord (skipSpace text)).1) := by
        simp only [reloadSubscribers, readWord_ofText hend, require_bind,
          addSubscription_eq info htopic hword.1]
        rfl
      rw [hstep, skipWords, if_neg hend]
      exact ih _ _

inductive Round (r : Reload) (text : List UInt8) : Prop
  | jams (h : Unreadable text) (r' : Reload) (hround : reloadTopic r = .ok r') (hr' : r'.Jammed)
  | reads (z : ℤ) (rest rest' : List UInt8) (hcount : CountIs text z rest)
      (hwords : skipWords (z.toNat + 1) rest = some rest') (r' : Reload)
      (hround : reloadTopic r = .ok r') (hifs : r'.ifs = .ofText rest') (htopic : r'.topic ≠ [])
  | ends (hreadable : ¬ Unreadable text)
      (hwords : ∀ z rest, CountIs text z rest → skipWords (z.toNat + 1) rest = none)
      (hround : (∃ a, reloadTopic r = .error a) ∨
        ∃ r', reloadTopic r = .ok r' ∧ r'.ifs.eof = true)

theorem jammed_of_readInt {rest : List UInt8}
    (h : r.ifs.readInt intMin intMax r.subscriberCount = (z, ⟨rest, false, true⟩)) (hz : z ≤ 0) :
    ∃ r', reloadTopic r = .ok r' ∧ r'.Jammed := by
  refine ⟨⟨⟨rest, false, true⟩, r.topic, z, r.info⟩, ?_, rfl, rfl, hz⟩
  rw [reloadTopic_of_readInt h rfl, Int.toNat_of_nonpos hz]
  rfl

theorem reloadTopic_round (hifs : r.ifs = .ofText text)
    (htopic : r.topic ≠ []) : Round r text := by
  obtain ⟨v, rest, hnum⟩ : ∃ v rest, numeral (skipSpace text) = (v, rest) := ⟨_, _, rfl⟩
  have hcountIs {z : ℤ} {rest' : List UInt8} (h : CountIs text z rest') :
      v = some z ∧ rest = rest' := by
    obtain ⟨hv, hrest⟩ := Prod.mk.inj (hnum.symm.trans h.1)
    exact ⟨hv, hrest⟩
  by_cases hend : rest = []
  · -- the number is the end of the file
    subst hend
    refine .ends (fun h => h.1 (by rw [hnum])) (fun z rest' h => ?_) (Or.inl ⟨.reloadEof, ?_⟩)
    · rw [← (hcountIs h).2]
      rfl
    · have heof := readInt_ofText_eof intMin intMax r.subscriberCount
        (by rw [hnum] : (numeral (skipSpace text)).2 = [])
      simp only [reloadTopic, hifs, require_bind, heof]
      rfl
  · have hread := readInt_ofText intMin intMax r.subscriberCount
      (by rw [hnum]; exact hend : (numeral (skipSpace text)).2 ≠ [])
    rw [hnum, ← hifs] at hread
    have hempty := isEmpty_eq_false_iff.mpr hend
    cases v with
    | none =>
      rw [takeInt, hempty] at hread
      obtain ⟨r', hround, hr'⟩ := jammed_of_readInt hread le_rfl
      exact .jams ⟨by rw [hnum]; exact hend, fun z h => by rw [hnum] at h; cases h⟩ r' hround hr'
    | some z =>
      rw [takeInt, hempty] at hread
      split_ifs at hread with hlo hhi
      · obtain ⟨r', hround, hr'⟩ := jammed_of_readInt hread (by decide)
        refine .jams ⟨by rw [hnum]; exact hend, fun z' h => ?_⟩ r' hround hr'
        rw [hnum] at h
        exact Option.some.inj h ▸ hlo
      · refine .ends (fun h => ?_) (fun z' rest' h => ?_) (Or.inl (reloadTopic_of_over hread))
        · exact absurd (h.2 z (by rw [hnum])) (by rw [intMin]; rw [intMax] at hhi; omega)
        · obtain rfl := Option.some.inj (hcountIs h).1
          exact absurd h.2.2 (not_le.mpr hhi)
      · have hcount : CountIs text z rest := ⟨hnum, not_lt.mp hlo, not_lt.mp hhi⟩
        have hreadable : ¬ Unreadable text := fun h => hlo (h.2 z (by rw [hnum]))
        have hunique {z' : ℤ} {rest' : List UInt8} (h : CountIs text z' rest') :
            skipWords (z'.toNat + 1) rest' = skipWords (z.toNat + 1) rest := by
          obtain ⟨hz, rfl⟩ := hcountIs h
          rw [Option.some.inj hz]
        have hround := reloadTopic_of_readInt hread rfl
        rcases reloadSubscribers_cases htopic z.toNat rest r.info with
          ⟨rest₁, info', hskip, hsubscribers⟩ | ⟨hskip, a, hsubscribers⟩
        · have hstep : reloadTopic r = .ok ⟨((ofText rest₁).readWord r.topic).2,
              ((ofText rest₁).readWord r.topic).1, z, info'⟩ :=
            hround.trans (congrArg _ hsubscribers)
          have hlast := skipWords_succ_eq_bind z.toNat rest
          rw [hskip, Option.bind_some, skipWords_one] at hlast
          by_cases hword : (takeWord (skipSpace rest₁)).2 = []
          · rw [if_pos hword] at hlast
            exact .ends hreadable (fun z' rest' h => (hunique h).trans hlast)
              (Or.inr ⟨_, hstep, readWord_ofText_eof r.topic hword⟩)
          · rw [if_neg hword] at hlast
            rw [readWord_ofText hword] at hstep
            have hne : skipSpace rest₁ ≠ [] := fun hnil => hword (by rw [hnil]; rfl)
            exact .reads z rest _ hcount hlast _ hstep rfl (isWord_takeWord hne).1
        · have hlast := skipWords_succ_eq_bind z.toNat rest
          rw [hskip, Option.bind_none] at hlast
          exact .ends hreadable (fun z' rest' h => (hunique h).trans hlast)
            (Or.inl ⟨a, hround.trans (congrArg _ hsubscribers)⟩)

theorem reloadLoop_succ_ofText (hifs : r.ifs = .ofText text)
    (rounds : ℕ) : reloadLoop (rounds + 1) r =
      match reloadTopic r with
      | .error a => some (.error a)
      | .ok r => reloadLoop rounds r := by
  have heof : ¬ r.ifs.eof = true := by
    rw [hifs]
    exact Bool.false_ne_true
  rw [reloadLoop, if_neg heof]

theorem reloadLoop_of_stuck (h : Stuck text)
    (hifs : r.ifs = .ofText text) (htopic : r.topic ≠ []) (rounds : ℕ) :
    reloadLoop rounds r = none := by
  induction h generalizing r rounds with
  | here hbad =>
    cases rounds with
    | zero => rfl
    | succ rounds =>
      cases reloadTopic_round hifs htopic with
      | jams _ r' hround hr' =>
        rw [reloadLoop_succ_ofText hifs, hround]
        exact reloadLoop_jammed hr' rounds
      | reads z rest rest' hcount =>
        exact absurd (hbad.2 z (by rw [hcount.1])) (not_lt.mpr hcount.2.1)
      | ends hreadable => exact absurd hbad hreadable
  | later hcount hwords _ ih =>
    cases rounds with
    | zero => rfl
    | succ rounds =>
      cases reloadTopic_round hifs htopic with
      | jams hbad => exact absurd (hbad.2 _ (by rw [hcount.1])) (not_lt.mpr hcount.2.1)
      | reads z rest rest' hcount' hwords' r' hround hifs' htopic' =>
        obtain ⟨hz, rfl⟩ := Prod.mk.inj (hcount.1.symm.trans hcount'.1)
        cases hz
        obtain rfl := Option.some.inj (hwords.symm.trans hwords')
        rw [reloadLoop_succ_ofText hifs, hround]
        exact ih hifs' htopic' rounds
      | ends _ hnone =>
        rw [hnone _ _ hcount] at hwords
        cases hwords

theorem reloadLoop_of_not_stuck (h : ¬ Stuck text)
    (hifs : r.ifs = .ofText text) (htopic : r.topic ≠ []) :
    ∃ rounds result, reloadLoop rounds r = some result := by
  induction hlen : text.length using Nat.strong_induction_on generalizing text r with
  | h n ih =>
    have hgo := reloadLoop_succ_ofText hifs
    cases reloadTopic_round hifs htopic with
    | jams hbad => exact absurd (.here hbad) h
    | reads z rest rest' hcount hwords r' hround hifs' htopic' =>
      have hshorter : rest'.length < n := by
        have hskip := length_skipWords hwords
        have hrest : rest.length ≤ text.length := by
          have hle := length_numeral_le text
          rwa [hcount.1] at hle
        omega
      obtain ⟨rounds, result, hrun⟩ := ih _ hshorter (fun hstuck => h (.later hcount hwords hstuck))
        hifs' htopic' rfl
      exact ⟨rounds + 1, result, (hgo rounds).trans (by rw [hround]; exact hrun)⟩
    | ends _ _ hround =>
      rcases hround with ⟨a, ha⟩ | ⟨r', hr', heof⟩
      · exact ⟨1, .error a, (hgo 0).trans (by rw [ha])⟩
      · refine ⟨2, .ok r'.info, (hgo 1).trans ?_⟩
        rw [hr']
        exact if_pos heof

theorem reload_of_no_counter {file : List UInt8} (h : ∀ text z rest, skipWords 1 file = some text →
    numeral (skipSpace text) = (some z, rest) → z = 0) (rounds : ℕ) :
    reload rounds (some file) = some (.ok ⟨1, ∅⟩) := by
  suffices hzero : (((ofText file).readWord []).2.readInt intMin intMax 0).1 = 0 by
    simp only [reload, hzero, if_true]
  cases hfile : skipWords 1 file with
  | none =>
    have hbad : ((ofText file).readWord []).2.good = false := by
      simp [good, eof_readWord_of_skipWords [] hfile]
    rw [readInt_of_bad hbad]
  | some text =>
    rw [(readWord_of_skipWords [] hfile).1]
    obtain ⟨v, rest, hnum⟩ : ∃ v rest, numeral (skipSpace text) = (v, rest) := ⟨_, _, rfl⟩
    cases v with
    | none => exact readInt_of_no_numeral (by rw [hnum])
    | some z =>
      obtain rfl := h text z rest hfile hnum
      rw [readInt_of_numeral 0 hnum]
      rfl

variable {file text rest : List UInt8}

theorem reload_of_counter {z n : ℤ}
    (hfile : skipWords 1 file = some text) (hnum : numeral (skipSpace text) = (some z, rest))
    (hread : takeInt intMin intMax (some z, rest) = (n, ifs)) (hn : n ≠ 0) (rounds : ℕ) :
    reload rounds (some file) =
      reloadLoop rounds ⟨(ifs.readWord []).2, (ifs.readWord []).1, 0, ⟨n, ∅⟩⟩ := by
  have hword := (readWord_of_skipWords [] hfile).1
  have hint := (readInt_of_numeral 0 hnum).trans hread
  simp only [reload, hword, hint, if_neg hn]

section

variable (hfile : skipWords 1 file = some text) (hnum : numeral (skipSpace text) = (some z, rest))
include hfile hnum

theorem reload_of_counter_over (hz : ¬ (intMin ≤ z ∧ z ≤ intMax)) :
    (∃ rounds result, reload rounds (some file) = some result) ↔ rest = [] := by
  obtain ⟨n, hn, hread⟩ : ∃ n : ℤ, n ≠ 0 ∧
      takeInt intMin intMax (some z, rest) = (n, ⟨rest, rest.isEmpty, true⟩) := by
    by_cases hlo : z < intMin
    · exact ⟨intMin, by decide, if_pos hlo⟩
    · exact ⟨intMax, by decide, (if_neg hlo).trans
        (if_pos (not_le.mp fun hhi => hz ⟨not_lt.mp hlo, hhi⟩))⟩
  have hbad : (⟨rest, rest.isEmpty, true⟩ : Istream).good = false := by simp [good]
  have hloop := reload_of_counter hfile hnum hread hn
  rw [readWord_of_bad hbad] at hloop
  refine ⟨fun ⟨rounds, result, hrun⟩ => ?_, fun hrest => ⟨1, .ok ⟨n, ∅⟩, ?_⟩⟩
  · by_contra hrest
    have hjam := reloadLoop_jammed (r := ⟨⟨rest, rest.isEmpty, true⟩, [], 0, ⟨n, ∅⟩⟩)
      ⟨isEmpty_eq_false_iff.mpr hrest, rfl, le_rfl⟩ rounds
    exact absurd ((hjam.symm.trans (hloop rounds).symm).trans hrun) nofun
  · rw [hloop, hrest]
    rfl

theorem reload_of_counter_int (hz : intMin ≤ z ∧ z ≤ intMax) (hzero : z ≠ 0) :
    (∃ rounds result, reload rounds (some file) = some result) ↔
      ∀ rest', skipWords 1 rest = some rest' → ¬ Stuck rest' := by
  have hread : takeInt intMin intMax (some z, rest) = (z, ⟨rest, rest.isEmpty, false⟩) :=
    (if_neg (not_lt.mpr hz.1)).trans (if_neg (not_lt.mpr hz.2))
  have hloop := reload_of_counter hfile hnum hread hzero
  cases hrest : skipWords 1 rest with
  | none =>
    -- the loop finds the end of the file, behind the counter or behind the first topic
    refine iff_of_true ⟨1, .ok ⟨z, ∅⟩, (hloop 1).trans (if_pos ?_)⟩ nofun
    by_cases hnil : rest = []
    · subst hnil
      rfl
    · rw [isEmpty_eq_false_iff.mpr hnil]
      exact eof_readWord_of_skipWords [] hrest
  | some rest' =>
    have hnil : rest ≠ [] := fun hnil => by
      subst hnil
      exact absurd hrest nofun
    rw [isEmpty_eq_false_iff.mpr hnil] at hloop
    obtain ⟨hword, htopic⟩ := readWord_of_skipWords [] hrest
    change ∀ rounds, _ = reloadLoop rounds ⟨((ofText rest).readWord []).2,
      ((ofText rest).readWord []).1, 0, ⟨z, ∅⟩⟩ at hloop
    rw [hword] at hloop
    refine ⟨fun ⟨rounds, result, hrun⟩ rest₁ hrest₁ hstuck => ?_, fun h => ?_⟩
    · cases hrest₁
      have hnone := reloadLoop_of_stuck hstuck (r := ⟨.ofText rest', _, 0, ⟨z, ∅⟩⟩) rfl
        htopic rounds
      exact absurd ((hnone.symm.trans (hloop rounds).symm).trans hrun) nofun
    · obtain ⟨rounds, result, hrun⟩ := reloadLoop_of_not_stuck (h rest' rfl)
        (r := ⟨.ofText rest', _, 0, ⟨z, ∅⟩⟩) rfl htopic
      exact ⟨rounds, result, (hloop rounds).trans hrun⟩

end

/-- The constructor returns, or an assertion of it fails, exactly if the file is none of those. -/
theorem reload_terminates_iff (file : List UInt8) :
    (∃ rounds result, reload rounds (some file) = some result) ↔ ¬ Hangs file := by
  by_cases hcounter : ∃ text z rest, skipWords 1 file = some text ∧
      numeral (skipSpace text) = (some z, rest) ∧ z ≠ 0
  · obtain ⟨text, z, rest, hfile, hnum, hzero⟩ := hcounter
    have hhangs : Hangs file ↔ ¬ (intMin ≤ z ∧ z ≤ intMax) ∧ rest ≠ [] ∨
        (intMin ≤ z ∧ z ≤ intMax) ∧ z ≠ 0 ∧
          ∃ rest', skipWords 1 rest = some rest' ∧ Stuck rest' := by
      refine ⟨?_, fun h => ⟨text, z, rest, hfile, hnum, h⟩⟩
      rintro ⟨text', z', rest', hfile', hnum', h⟩
      obtain rfl := Option.some.inj (hfile.symm.trans hfile')
      obtain ⟨hz', rfl⟩ := Prod.mk.inj (hnum.symm.trans hnum')
      cases hz'
      exact h
    by_cases hz : intMin ≤ z ∧ z ≤ intMax
    · rw [reload_of_counter_int hfile hnum hz hzero, hhangs]
      refine ⟨fun h => ?_, fun h rest' hrest hstuck => h (Or.inr ⟨hz, hzero, rest', hrest, hstuck⟩)⟩
      rintro (⟨hz', -⟩ | ⟨-, -, rest', hrest, hstuck⟩)
      · exact hz' hz
      · exact h rest' hrest hstuck
    · rw [reload_of_counter_over hfile hnum hz, hhangs]
      refine ⟨fun hrest => ?_, fun h => by_contra fun hrest => h (Or.inl ⟨hz, hrest⟩)⟩
      rintro (⟨-, hne⟩ | ⟨hz', -⟩)
      · exact hne hrest
      · exact hz hz'
  · have hnone : ∀ text z rest, skipWords 1 file = some text →
        numeral (skipSpace text) = (some z, rest) → z = 0 := fun text z rest hfile hnum =>
      by_contra fun hz => hcounter ⟨text, z, rest, hfile, hnum, hz⟩
    refine iff_of_true ⟨0, _, reload_of_no_counter hnone 0⟩ ?_
    rintro ⟨text, z, rest, hfile, hnum, h⟩
    obtain rfl := hnone text z rest hfile hnum
    rcases h with ⟨hz, -⟩ | ⟨-, hz, -⟩
    · exact hz (by decide)
    · exact hz rfl

theorem reload_blank_hangs :
    (oneTopic (ascii "a b") [ascii "1"] 2).savedText = ascii "nextAllocateClientId: 2 a b 1 1 " ∧
      ¬ ∃ rounds result,
        reload rounds (some (oneTopic (ascii "a b") [ascii "1"] 2).savedText) = some result := by
  have htext : (oneTopic (ascii "a b") [ascii "1"] 2).savedText =
      ascii "nextAllocateClientId: 2 a b 1 1 " := by decide +kernel
  have hfile : skipWords 1 (ascii "nextAllocateClientId: 2 a b 1 1 ") =
      some (ascii " 2 a b 1 1 ") := by decide +kernel
  have hnum : numeral (skipSpace (ascii " 2 a b 1 1 ")) = (some 2, ascii " a b 1 1 ") := by
    decide +kernel
  have htopic : skipWords 1 (ascii " a b 1 1 ") = some (ascii " b 1 1 ") := by decide +kernel
  have hstuck : Stuck (ascii " b 1 1 ") := by
    have hnone : numeral (skipSpace (ascii " b 1 1 ")) = (none, ascii "b 1 1 ") := by
      decide +kernel
    exact .here ⟨by rw [hnone]; decide +kernel, by rw [hnone]; exact nofun⟩
  refine ⟨htext, fun hends => ?_⟩
  rw [htext, reload_of_counter_int hfile hnum (by decide) two_ne_zero] at hends
  exact absurd hstuck (hends _ htopic)

end Icm.Messaging
