import Icm.Messaging.Steps

/-!
# The tables of the messages that wait

The topic manager keeps every message that waits in two tables: the messages of each subscriber, and
the subscribers of each message (`PubMap1` and `PubMap2` with buffering, `PubMap4` and `PubMap3`
without).
-/

namespace Icm.Messaging

open Icm.Lib List PubMaps AList

variable {events : List Event}

theorem mem_insertEvent_of_mem {e a : Event} (h : a ∈ events) :
    a ∈ insertEvent e events := by
  induction events with
  | nil => cases h
  | cons b events ih =>
    rw [insertEvent]
    split_ifs
    · exact mem_cons_of_mem e h
    · exact h
    · rcases mem_cons.mp h with rfl | h
      · exact mem_cons_self
      · exact mem_cons_of_mem b (ih h)

theorem exists_mem_insertEvent (e : Event) (events : List Event) :
    ∃ a ∈ insertEvent e events, a.ptr = e.ptr := by
  induction events with
  | nil => exact ⟨e, mem_singleton_self e, rfl⟩
  | cons b events ih =>
    rw [insertEvent]
    split_ifs with hlt heq
    · exact ⟨e, mem_cons_self, rfl⟩
    · exact ⟨b, mem_cons_self, heq.symm⟩
    · obtain ⟨a, ha, hptr⟩ := ih
      exact ⟨a, mem_cons_of_mem b ha, hptr⟩

theorem pairwise_insertEvent (e : Event)
    (h : events.Pairwise fun a b => a.ptr < b.ptr) :
    (insertEvent e events).Pairwise fun a b => a.ptr < b.ptr := by
  induction events with
  | nil => exact pairwise_singleton _ _
  | cons b events ih =>
    obtain ⟨hb, hevents⟩ := pairwise_cons.mp h
    rw [insertEvent]
    split_ifs with hlt heq
    · refine pairwise_cons.mpr ⟨forall_mem_cons.mpr ⟨hlt, fun a ha => ?_⟩, h⟩
      exact hlt.trans (hb a ha)
    · exact h
    · refine pairwise_cons.mpr ⟨fun a ha => ?_, ih hevents⟩
      rcases mem_of_mem_insertEvent ha with rfl | ha
      · exact lt_of_le_of_ne (not_lt.mp hlt) (Ne.symm heq)
      · exact hb a ha

theorem mem_eraseEvent {m : MsgPtr} {a : Event} :
    a ∈ eraseEvent m events ↔ a ∈ events ∧ a.ptr ≠ m := by
  simp [eraseEvent]

namespace PubMaps

variable {κ : Type} [DecidableEq κ] (p : PubMaps κ) {e : Event} {m m' : MsgPtr} {k k' : κ}

theorem clientsOf_insert_self : (p.insert e k).clientsOf e.ptr = (p.clientsOf e.ptr).insert k := by
  simp [clientsOf, insert]

theorem clientsOf_insert_of_ne (h : m ≠ e.ptr) : (p.insert e k).clientsOf m = p.clientsOf m := by
  simp [clientsOf, insert, lookup_insert_ne h]

theorem onMessageSent_clients : (p.onMessageSent m k).clients =
    if (p.clientsOf m).erase k = [] then p.clients.erase m
    else p.clients.insert m ((p.clientsOf m).erase k) := rfl

theorem clientsOf_onMessageSent_self :
    (p.onMessageSent m k).clientsOf m = (p.clientsOf m).erase k := by
  rw [clientsOf, onMessageSent_clients]
  split_ifs with hrest
  · rw [lookup_erase, hrest]
    rfl
  · rw [lookup_insert]
    rfl

theorem clientsOf_onMessageSent_of_ne (h : m' ≠ m) :
    (p.onMessageSent m k).clientsOf m' = p.clientsOf m' := by
  rw [clientsOf, onMessageSent_clients]
  split_ifs
  · rw [lookup_erase_ne h]
    rfl
  · rw [lookup_insert_ne h]
    rfl

theorem mem_clients_insert : m ∈ (p.insert e k).clients ↔ m = e.ptr ∨ m ∈ p.clients :=
  mem_insert _

omit [DecidableEq κ] in
theorem clientsOf_eq_nil_of_notMem (h : m ∉ p.clients) : p.clientsOf m = [] := by
  rw [clientsOf, lookup_eq_none.mpr h]
  rfl

variable {p}

structure Inverse (p : PubMaps κ) : Prop where
  sorted : ∀ k, (p.messages k).Pairwise fun a b => a.ptr < b.ptr
  mem_iff : ∀ m k, (∃ e ∈ p.messages k, e.ptr = m) ↔ k ∈ p.clientsOf m
  nodup : ∀ m, (p.clientsOf m).Nodup
  ne_nil : ∀ m ∈ p.clients, p.clientsOf m ≠ []

namespace Inverse

omit [DecidableEq κ] in
theorem empty : (empty : PubMaps κ).Inverse where
  sorted := fun _ => List.Pairwise.nil
  mem_iff := by simp [PubMaps.empty, clientsOf]
  nodup := by simp [PubMaps.empty, clientsOf]
  ne_nil := by simp [PubMaps.empty]

omit [DecidableEq κ] in
theorem mem_clients (hp : p.Inverse) (he : e ∈ p.messages k) : e.ptr ∈ p.clients := by
  by_contra h
  have hk := (hp.mem_iff e.ptr k).mp ⟨e, he, rfl⟩
  rw [p.clientsOf_eq_nil_of_notMem h] at hk
  cases hk

theorem insert (hp : p.Inverse) (e : Event) (k : κ) : (p.insert e k).Inverse where
  sorted := by
    intro k'
    by_cases hk : k' = k
    · subst hk
      rw [insert_messages_self]
      exact pairwise_insertEvent e (hp.sorted k')
    · rw [insert_messages_of_ne p e hk]
      exact hp.sorted k'
  mem_iff := by
    intro m k'
    by_cases hm : m = e.ptr
    · subst hm
      rw [clientsOf_insert_self, mem_insert_iff]
      by_cases hk : k' = k
      · subst hk
        rw [insert_messages_self]
        exact iff_of_true (exists_mem_insertEvent e _) (Or.inl rfl)
      · rw [insert_messages_of_ne p e hk, hp.mem_iff]
        exact (or_iff_right hk).symm
    · rw [clientsOf_insert_of_ne p hm, ← hp.mem_iff]
      by_cases hk : k' = k
      · subst hk
        rw [insert_messages_self]
        constructor
        · rintro ⟨a, ha, rfl⟩
          rcases mem_of_mem_insertEvent ha with rfl | ha
          · exact absurd rfl hm
          · exact ⟨a, ha, rfl⟩
        · rintro ⟨a, ha, rfl⟩
          exact ⟨a, mem_insertEvent_of_mem ha, rfl⟩
      · rw [insert_messages_of_ne p e hk]
  nodup := by
    intro m
    by_cases hm : m = e.ptr
    · subst hm
      rw [clientsOf_insert_self]
      exact (hp.nodup e.ptr).insert
    · rw [clientsOf_insert_of_ne p hm]
      exact hp.nodup m
  ne_nil := by
    intro m hmem
    by_cases hm : m = e.ptr
    · subst hm
      rw [clientsOf_insert_self]
      exact ne_nil_of_mem (mem_insert_self ..)
    · rw [clientsOf_insert_of_ne p hm]
      exact hp.ne_nil m (((mem_clients_insert p).mp hmem).resolve_left hm)

theorem onMessageSent (hp : p.Inverse) (m : MsgPtr) (k : κ) : (p.onMessageSent m k).Inverse where
  sorted := fun k' => (hp.sorted k').sublist (onMessageSent_sublist p m k k')
  mem_iff := by
    intro m' k'
    by_cases hk : k' = k
    · subst hk
      rw [onMessageSent_messages_self]
      simp only [mem_eraseEvent]
      by_cases hm : m' = m
      · subst hm
        rw [clientsOf_onMessageSent_self, (hp.nodup m').mem_erase_iff]
        exact iff_of_false (fun ⟨a, ha, hptr⟩ => ha.2 hptr) fun h => h.1 rfl
      · rw [clientsOf_onMessageSent_of_ne p hm, ← hp.mem_iff]
        constructor
        · rintro ⟨a, ha, hptr⟩
          exact ⟨a, ha.1, hptr⟩
        · rintro ⟨a, ha, rfl⟩
          exact ⟨a, ⟨ha, hm⟩, rfl⟩
    · rw [onMessageSent_messages_of_ne p m hk, hp.mem_iff]
      by_cases hm : m' = m
      · subst hm
        rw [clientsOf_onMessageSent_self, mem_erase_of_ne hk]
      · rw [clientsOf_onMessageSent_of_ne p hm]
  nodup := by
    intro m'
    by_cases hm : m' = m
    · subst hm
      rw [clientsOf_onMessageSent_self]
      exact (hp.nodup m').erase k
    · rw [clientsOf_onMessageSent_of_ne p hm]
      exact hp.nodup m'
  ne_nil := by
    intro m' hmem
    by_cases hm : m' = m
    · subst hm
      rw [clientsOf_onMessageSent_self]
      intro hrest
      rw [onMessageSent_clients, if_pos hrest] at hmem
      exact (mem_erase.mp hmem).1 rfl
    · rw [clientsOf_onMessageSent_of_ne p hm]
      refine hp.ne_nil m' ?_
      rw [onMessageSent_clients] at hmem
      split_ifs at hmem
      · exact (mem_erase.mp hmem).2
      · exact ((mem_insert _).mp hmem).resolve_left hm

theorem insertAll (hp : p.Inverse) (e : Event) (ks : List κ) : (p.insertAll e ks).Inverse := by
  induction ks generalizing p with
  | nil => exact hp
  | cons k ks ih => exact ih (hp.insert e k)

omit [DecidableEq κ] in
theorem checkBufferSize (hp : p.Inverse) : p.checkBufferSize.Inverse := by
  rw [PubMaps.checkBufferSize]
  split_ifs
  · exact .empty
  · exact hp

end Inverse

end PubMaps

structure Heap where
  live : MsgPtr → Option ℕ
  deleted : List ℕ
  received : ℕ

inductive HeapError
  | doubleDelete
  deriving DecidableEq, Repr

namespace Heap

def empty : Heap := ⟨fun _ => none, [], 0⟩

def store (hp : Heap) (ptr : MsgPtr) : Heap :=
  { hp with live := Function.update hp.live ptr (some hp.received), received := hp.received + 1 }

theorem store_live (hp : Heap) (ptr m : MsgPtr) :
    (hp.store ptr).live m = if m = ptr then some hp.received else hp.live m :=
  Function.update_apply ..

def delete (hp : Heap) (m : MsgPtr) : Except HeapError Heap :=
  match hp.live m with
  | some n => .ok { hp with live := Function.update hp.live m none, deleted := hp.deleted ++ [n] }
  | none => .error .doubleDelete

def deleteAll : List MsgPtr → Heap → Except HeapError Heap
  | [], hp => .ok hp
  | m :: ms, hp => hp.delete m >>= deleteAll ms

structure Wf (hp : Heap) : Prop where
  lt_received : ∀ m n, hp.live m = some n → n < hp.received
  live_inj : ∀ m m' n, hp.live m = some n → hp.live m' = some n → m = m'
  mem_deleted : ∀ n, n ∈ hp.deleted ↔ n < hp.received ∧ ∀ m, hp.live m ≠ some n
  nodup : hp.deleted.Nodup

namespace Wf

variable {hp : Heap}

theorem empty : Heap.empty.Wf := by
  refine ⟨nofun, nofun, fun n => ?_, nodup_nil⟩
  simp [Heap.empty]

theorem store (hw : hp.Wf) {ptr : MsgPtr} (hfree : hp.live ptr = none) : (hp.store ptr).Wf := by
  have hlive {m : MsgPtr} {n : ℕ} (h : (hp.store ptr).live m = some n) :
      m = ptr ∧ n = hp.received ∨ hp.live m = some n := by
    rw [store_live] at h
    split_ifs at h with hm
    · exact Or.inl ⟨hm, (Option.some.inj h).symm⟩
    · exact Or.inr h
  refine ⟨fun m n h => ?_, fun m m' n h h' => ?_, fun n => ?_, hw.nodup⟩
  · rcases hlive h with ⟨-, rfl⟩ | h
    · exact Nat.lt_succ_self _
    · exact (hw.lt_received m n h).trans (Nat.lt_succ_self _)
  · rcases hlive h with ⟨hm, hn⟩ | h <;> rcases hlive h' with ⟨hm', hn'⟩ | h'
    · exact hm.trans hm'.symm
    · exact absurd hn (hw.lt_received m' n h').ne
    · exact absurd hn' (hw.lt_received m n h).ne
    · exact hw.live_inj m m' n h h'
  · change n ∈ hp.deleted ↔ n < hp.received + 1 ∧ _
    rw [hw.mem_deleted, Nat.lt_succ_iff_lt_or_eq]
    constructor
    · rintro ⟨hlt, hnot⟩
      refine ⟨Or.inl hlt, fun m h => ?_⟩
      rcases hlive h with ⟨-, rfl⟩ | h
      · exact lt_irrefl _ hlt
      · exact hnot m h
    · rintro ⟨hlt, hnot⟩
      have hkeep (m : MsgPtr) (h : hp.live m = some n) : (hp.store ptr).live m = some n := by
        have hm : m ≠ ptr := by
          rintro rfl
          rw [hfree] at h
          cases h
        rwa [store_live, if_neg hm]
      refine ⟨hlt.resolve_right ?_, fun m h => hnot m (hkeep m h)⟩
      rintro rfl
      exact hnot ptr (by rw [store_live, if_pos rfl])

theorem delete (hw : hp.Wf) {m : MsgPtr} {n : ℕ} (hm : hp.live m = some n) :
    ∃ hp', hp.delete m = .ok hp' ∧ hp'.Wf ∧ hp'.received = hp.received ∧
      (∀ m', hp'.live m' = if m' = m then none else hp.live m') ∧
      ∀ i, i ∈ hp'.deleted ↔ i ∈ hp.deleted ∨ i = n := by
  have hlive (m' : MsgPtr) : Function.update hp.live m none m' =
      if m' = m then none else hp.live m' := Function.update_apply ..
  have hdeleted (i : ℕ) : i ∈ hp.deleted ++ [n] ↔ i ∈ hp.deleted ∨ i = n := by
    rw [mem_append, mem_singleton]
  refine ⟨{ hp with live := Function.update hp.live m none, deleted := hp.deleted ++ [n] },
    by simp only [Heap.delete, hm], ⟨?_, ?_, ?_, ?_⟩, rfl, hlive, hdeleted⟩
  · intro m' i h
    simp only [hlive] at h
    split_ifs at h
    exact hw.lt_received m' i h
  · intro m₁ m₂ i h₁ h₂
    simp only [hlive] at h₁ h₂
    split_ifs at h₁ h₂
    exact hw.live_inj m₁ m₂ i h₁ h₂
  · intro i
    simp only [hdeleted, hlive, hw.mem_deleted]
    constructor
    · rintro (⟨hlt, hnot⟩ | rfl)
      · refine ⟨hlt, fun m' h => ?_⟩
        split_ifs at h
        exact hnot m' h
      · refine ⟨hw.lt_received m i hm, fun m' h => ?_⟩
        split_ifs at h with hne
        exact hne (hw.live_inj m' m i h hm)
    · rintro ⟨hlt, hnot⟩
      by_cases hi : i = n
      · exact Or.inr hi
      · refine Or.inl ⟨hlt, fun m' h => hnot m' ?_⟩
        have hne : m' ≠ m := by
          rintro rfl
          exact hi (Option.some.inj (h.symm.trans hm))
        rwa [if_neg hne]
  · refine nodup_append.mpr ⟨hw.nodup, nodup_singleton n, ?_⟩
    rintro i hi j hj rfl
    obtain rfl := mem_singleton.mp hj
    exact ((hw.mem_deleted i).mp hi).2 m hm

theorem deleteAll {ms : List MsgPtr} (hw : hp.Wf) (hnodup : ms.Nodup)
    (hms : ∀ m ∈ ms, ∃ n, hp.live m = some n) :
    ∃ hp', Heap.deleteAll ms hp = .ok hp' ∧ hp'.Wf ∧ hp'.received = hp.received ∧
      (∀ m, hp'.live m = if m ∈ ms then none else hp.live m) ∧
      ∀ i, i ∈ hp'.deleted ↔ i ∈ hp.deleted ∨ ∃ m ∈ ms, hp.live m = some i := by
  induction ms generalizing hp with
  | nil => exact ⟨hp, rfl, hw, rfl, by simp, by simp⟩
  | cons m ms ih =>
    obtain ⟨hnot, hnodup⟩ := nodup_cons.mp hnodup
    obtain ⟨⟨n, hn⟩, hms⟩ := forall_mem_cons.mp hms
    obtain ⟨hp₁, hrun₁, hw₁, hreceived₁, hlive₁, hdeleted₁⟩ := hw.delete hn
    have hsame {m' : MsgPtr} (hm' : m' ∈ ms) : hp₁.live m' = hp.live m' := by
      rw [hlive₁, if_neg]
      rintro rfl
      exact hnot hm'
    obtain ⟨hp₂, hrun₂, hw₂, hreceived₂, hlive₂, hdeleted₂⟩ := ih hw₁ hnodup fun m' hm' => by
      rw [hsame hm']
      exact hms m' hm'
    refine ⟨hp₂, bind_eq_ok.mpr ⟨hp₁, hrun₁, hrun₂⟩, hw₂, hreceived₂.trans hreceived₁,
      fun m' => ?_, fun i => ?_⟩
    · rw [hlive₂, hlive₁]
      by_cases hm' : m' ∈ ms
      · rw [if_pos hm', if_pos (mem_cons_of_mem m hm')]
      · simp only [hm', ↓reduceIte, mem_cons, or_false]
    · rw [hdeleted₂, hdeleted₁, or_assoc]
      refine or_congr_right ?_
      simp only [mem_cons, exists_eq_or_imp, hn, Option.some.injEq, eq_comm (a := n)]
      refine or_congr_right (exists_congr fun m' => and_congr_right fun hm' => ?_)
      rw [hsame hm']

end Wf

end Heap

namespace PubMaps

variable {κ : Type}

structure Owns (p : PubMaps κ) (hp : Heap) : Prop where
  inverse : p.Inverse
  live : ∀ k, ∀ e ∈ p.messages k, hp.live e.ptr = some e.serial

namespace Owns

variable {p : PubMaps κ} {hp hp' : Heap}

theorem empty (hp : Heap) : (empty : PubMaps κ).Owns hp :=
  ⟨.empty, fun _ => forall_mem_nil _⟩

theorem live_of_mem (ho : p.Owns hp) {m : MsgPtr} (hm : m ∈ p.clients) :
    ∃ n, hp.live m = some n := by
  obtain ⟨k, hk⟩ := exists_mem_of_ne_nil _ (ho.inverse.ne_nil m hm)
  obtain ⟨e, he, rfl⟩ := (ho.inverse.mem_iff m k).mpr hk
  exact ⟨e.serial, ho.live k e he⟩

theorem frame (ho : p.Owns hp) (hkeep : ∀ m ∈ p.clients, hp'.live m = hp.live m) : p.Owns hp' where
  inverse := ho.inverse
  live := by
    intro k e he
    rw [hkeep e.ptr (ho.inverse.mem_clients he)]
    exact ho.live k e he

end Owns

variable [DecidableEq κ]

def deleteWaiting (p : PubMaps κ) (hp : Heap) : Except HeapError Heap :=
  if maxBufferSize ≤ p.clients.keys.length then hp.deleteAll p.clients.keys else .ok hp

def deleteServed (p : PubMaps κ) (hp : Heap) (m : MsgPtr) (k : κ) : Except HeapError Heap :=
  if (p.clientsOf m).erase k = [] then hp.delete m else .ok hp

variable {p : PubMaps κ} {hp : Heap}

theorem Owns.insertAll {e : Event} (ho : p.Owns hp) (he : hp.live e.ptr = some e.serial)
    (ks : List κ) : (p.insertAll e ks).Owns hp := by
  refine ⟨ho.inverse.insertAll e ks, fun k a ha => ?_⟩
  rcases mem_of_mem_insertAll ha with ha | ⟨rfl, -⟩
  · exact ho.live k a ha
  · exact he

theorem mem_insertAll_clients {e : Event} {ks : List κ} {m : MsgPtr}
    (hm : m ∈ (p.insertAll e ks).clients) : m = e.ptr ∨ m ∈ p.clients := by
  induction ks generalizing p with
  | nil => exact Or.inr hm
  | cons k ks ih =>
    rcases ih hm with rfl | hm
    · exact Or.inl rfl
    · exact (mem_clients_insert p).mp hm

omit [DecidableEq κ] in
theorem mem_checkBufferSize_clients {m : MsgPtr} (hm : m ∈ p.checkBufferSize.clients) :
    m ∈ p.clients := by
  rw [checkBufferSize] at hm
  split_ifs at hm
  · cases hm
  · exact hm

omit [DecidableEq κ] in
theorem deleteWaiting_spec (hw : hp.Wf) (ho : p.Owns hp) :
    ∃ hp', p.deleteWaiting hp = .ok hp' ∧ hp'.received = hp.received ∧ hp'.Wf ∧
      p.checkBufferSize.Owns hp' ∧ (∀ m ∉ p.clients, hp'.live m = hp.live m) ∧
      ∀ n, n ∈ hp'.deleted ↔ n ∈ hp.deleted ∨
        maxBufferSize ≤ p.clients.keys.length ∧ ∃ m ∈ p.clients, hp.live m = some n := by
  rw [checkBufferSize, deleteWaiting]
  split_ifs with hfull
  · obtain ⟨hp', hrun, hw', hreceived, hlive, hdeleted⟩ :=
      hw.deleteAll p.clients.keys_nodup fun m hm => ho.live_of_mem hm
    refine ⟨hp', hrun, hreceived, hw', .empty hp', fun m hm => ?_, fun n => ?_⟩
    · rw [hlive, if_neg (show m ∉ p.clients.keys from hm)]
    · rw [hdeleted, and_iff_right hfull]
      rfl
  · refine ⟨hp, rfl, rfl, hw, ho, fun _ _ => rfl, fun n => ?_⟩
    rw [or_iff_left fun h => hfull h.1]

theorem Owns.store {ptr : MsgPtr} (ho : p.Owns hp) (hfree : hp.live ptr = none) (msg : Msg)
    (ks : List κ) : (p.insertAll ⟨ptr, msg, hp.received⟩ ks).Owns (hp.store ptr) := by
  refine Owns.insertAll (ho.frame fun m hm => ?_) (by rw [Heap.store_live, if_pos rfl]) ks
  rw [Heap.store_live, if_neg]
  rintro rfl
  obtain ⟨n, hn⟩ := ho.live_of_mem hm
  exact absurd (hn.symm.trans hfree) nofun

theorem deleteServed_spec (hw : hp.Wf) (ho : p.Owns hp) {m : MsgPtr} {k : κ}
    (hwaits : ∃ e ∈ p.messages k, e.ptr = m) :
    ∃ hp', p.deleteServed hp m k = .ok hp' ∧ hp'.received = hp.received ∧ hp'.Wf ∧
      (p.onMessageSent m k).Owns hp' ∧ (∀ m' ∈ (p.onMessageSent m k).clients, m' ∈ p.clients) ∧
      (∀ m' ∉ p.clients, hp'.live m' = hp.live m') ∧
      ∀ n, n ∈ hp'.deleted ↔ n ∈ hp.deleted ∨ hp.live m = some n ∧ p.clientsOf m = [k] := by
  obtain ⟨e, he, rfl⟩ := hwaits
  have hk : k ∈ p.clientsOf e.ptr := (ho.inverse.mem_iff e.ptr k).mp ⟨e, he, rfl⟩
  have hmem : e.ptr ∈ p.clients := ho.inverse.mem_clients he
  have hlast : (p.clientsOf e.ptr).erase k = [] ↔ p.clientsOf e.ptr = [k] := by
    constructor
    · intro hrest
      obtain ⟨k', hk'⟩ := length_eq_one_iff.mp (show (p.clientsOf e.ptr).length = 1 by
        have := length_erase_of_mem hk
        have := length_pos_of_mem hk
        rw [hrest, length_nil] at *
        omega)
      rw [hk'] at hk ⊢
      rw [mem_singleton.mp hk]
    · intro heq
      rw [heq, erase_cons_head]
  have hclients (m' : MsgPtr) (hm' : m' ∈ (p.onMessageSent e.ptr k).clients) : m' ∈ p.clients := by
    rw [onMessageSent_clients] at hm'
    split_ifs at hm'
    · exact (mem_erase.mp hm').2
    · rcases (mem_insert _).mp hm' with rfl | hm'
      · exact hmem
      · exact hm'
  have hmessages {k' : κ} {a : Event} (ha : a ∈ (p.onMessageSent e.ptr k).messages k') :
      a ∈ p.messages k' := by
    by_cases hk' : k' = k
    · subst hk'
      rw [onMessageSent_messages_self] at ha
      exact (mem_eraseEvent.mp ha).1
    · rwa [onMessageSent_messages_of_ne p e.ptr hk'] at ha
  by_cases hrest : (p.clientsOf e.ptr).erase k = []
  · obtain ⟨hp', hrun, hw', hreceived', hlive', hdeleted'⟩ := hw.delete (ho.live k e he)
    refine ⟨hp', by rw [deleteServed, if_pos hrest, hrun], hreceived', hw',
      ⟨ho.inverse.onMessageSent e.ptr k, fun k' a ha => ?_⟩, hclients, fun m' hm' => ?_,
      fun n => ?_⟩
    · have hne : a.ptr ≠ e.ptr := by
        intro heq
        have hmem' := (ho.inverse.onMessageSent e.ptr k).mem_clients ha
        rw [onMessageSent_clients, if_pos hrest, heq] at hmem'
        exact (mem_erase.mp hmem').1 rfl
      rw [hlive', if_neg hne]
      exact ho.live k' a (hmessages ha)
    · rw [hlive', if_neg]
      rintro rfl
      exact hm' hmem
    · rw [hdeleted', and_iff_left (hlast.mp hrest), ho.live k e he, Option.some.injEq, eq_comm]
  · refine ⟨hp, by rw [deleteServed, if_neg hrest], rfl, hw,
      ⟨ho.inverse.onMessageSent e.ptr k, fun k' a ha => ho.live k' a (hmessages ha)⟩, hclients,
      fun _ _ => rfl, fun n => ?_⟩
    rw [or_iff_left fun h => hrest (hlast.mpr h.2)]

end PubMaps

structure Ledger where
  pubs_ : PubMaps ClientId
  pubs : PubMaps HandlerPtr
  heap : Heap

/-- The calls that change the tables. -/
inductive Call
  | addMessage_ (ptr : MsgPtr) (msg : Msg) (ids : List ClientId)
  | addMessage (ptr : MsgPtr) (msg : Msg) (handlers : List HandlerPtr)
  | onMessageSent_ (m : MsgPtr) (id : ClientId)
  | onMessageSent (m : MsgPtr) (h : HandlerPtr)

def Call.received : Call → ℕ
  | .addMessage_ _ _ _ | .addMessage _ _ _ => 1
  | .onMessageSent_ _ _ | .onMessageSent _ _ => 0

namespace Ledger

def empty : Ledger := ⟨.empty, .empty, .empty⟩

variable (t : Ledger)

def pubsAfter_ : Call → PubMaps ClientId
  | .addMessage_ ptr msg ids => t.pubs_.checkBufferSize.insertAll ⟨ptr, msg, t.heap.received⟩ ids
  | .onMessageSent_ m id => t.pubs_.onMessageSent m id
  | .addMessage _ _ _ | .onMessageSent _ _ => t.pubs_

def pubsAfter : Call → PubMaps HandlerPtr
  | .addMessage ptr msg hs => t.pubs.checkBufferSize.insertAll ⟨ptr, msg, t.heap.received⟩ hs
  | .onMessageSent m h => t.pubs.onMessageSent m h
  | .addMessage_ _ _ _ | .onMessageSent_ _ _ => t.pubs

def heapAfter : Call → Except HeapError Heap
  | .addMessage_ ptr _ _ => (t.pubs_.deleteWaiting t.heap).map fun hp => hp.store ptr
  | .addMessage ptr _ _ => (t.pubs.deleteWaiting t.heap).map fun hp => hp.store ptr
  | .onMessageSent_ m id => t.pubs_.deleteServed t.heap m id
  | .onMessageSent m h => t.pubs.deleteServed t.heap m h

def step (c : Call) : Except HeapError Ledger :=
  (t.heapAfter c).map fun hp => ⟨t.pubsAfter_ c, t.pubsAfter c, hp⟩

def Proper : Call → Prop
  | .addMessage_ ptr _ _ => t.heap.live ptr = none
  | .addMessage ptr _ _ => t.heap.live ptr = none
  | .onMessageSent_ m id => ∃ e ∈ t.pubs_.messages id, e.ptr = m
  | .onMessageSent m h => ∃ e ∈ t.pubs.messages h, e.ptr = m

instance (t : Ledger) : DecidablePred t.Proper
  | .addMessage_ ptr _ _ => inferInstanceAs (Decidable (t.heap.live ptr = none))
  | .addMessage ptr _ _ => inferInstanceAs (Decidable (t.heap.live ptr = none))
  | .onMessageSent_ m id => inferInstanceAs (Decidable (∃ e ∈ t.pubs_.messages id, e.ptr = m))
  | .onMessageSent m h => inferInstanceAs (Decidable (∃ e ∈ t.pubs.messages h, e.ptr = m))

def Deletes : Call → ℕ → Prop
  | .addMessage_ _ _ _, n => maxBufferSize ≤ t.pubs_.clients.keys.length ∧
      ∃ m ∈ t.pubs_.clients, t.heap.live m = some n
  | .addMessage _ _ _, n => maxBufferSize ≤ t.pubs.clients.keys.length ∧
      ∃ m ∈ t.pubs.clients, t.heap.live m = some n
  | .onMessageSent_ m id, n => t.heap.live m = some n ∧ t.pubs_.clientsOf m = [id]
  | .onMessageSent m h, n => t.heap.live m = some n ∧ t.pubs.clientsOf m = [h]

structure Consistent (t : Ledger) : Prop where
  heap : t.heap.Wf
  pubs_ : t.pubs_.Owns t.heap
  pubs : t.pubs.Owns t.heap
  disjoint : ∀ m ∈ t.pubs_.clients, m ∉ t.pubs.clients

namespace Consistent

variable {t : Ledger}

theorem empty : Ledger.empty.Consistent :=
  ⟨.empty, .empty _, .empty _, nofun⟩

theorem ne_of_free {κ : Type} {p : PubMaps κ} {hp : Heap} (ho : p.Owns hp) {m ptr : MsgPtr}
    (hm : m ∈ p.clients) (hfree : hp.live ptr = none) : m ≠ ptr := by
  rintro rfl
  obtain ⟨n, hn⟩ := ho.live_of_mem hm
  exact absurd (hn.symm.trans hfree) nofun

theorem step {c : Call} (ht : t.Consistent) (hc : t.Proper c) :
    ∃ hp, t.step c = .ok ⟨t.pubsAfter_ c, t.pubsAfter c, hp⟩ ∧
      Consistent ⟨t.pubsAfter_ c, t.pubsAfter c, hp⟩ ∧
      hp.received = t.heap.received + c.received ∧
      ∀ n, n ∈ hp.deleted ↔ n ∈ t.heap.deleted ∨ t.Deletes c n := by
  cases c with
  | addMessage_ ptr msg ids =>
    have hfree : t.heap.live ptr = none := hc
    obtain ⟨hp, hrun, hreceived, hw, ho, hkeep, hdeleted⟩ :=
      deleteWaiting_spec ht.heap ht.pubs_
    have hfree' : hp.live ptr = none := by
      rw [hkeep ptr fun hm => ne_of_free ht.pubs_ hm hfree rfl, hfree]
    refine ⟨hp.store ptr, by rw [Ledger.step, heapAfter, hrun]; rfl,
      ⟨hw.store hfree', ?_, ?_, ?_⟩, congrArg (· + 1) hreceived, hdeleted⟩
    · rw [pubsAfter_, ← hreceived]
      exact ho.store hfree' msg ids
    · refine ht.pubs.frame fun m hm => ?_
      rw [Heap.store_live, if_neg (ne_of_free ht.pubs hm hfree),
        hkeep m fun hm' => ht.disjoint m hm' hm]
    · intro m hm hm'
      rcases mem_insertAll_clients hm with rfl | hold
      · exact ne_of_free ht.pubs hm' hfree rfl
      · exact ht.disjoint m (mem_checkBufferSize_clients hold) hm'
  | addMessage ptr msg hs =>
    have hfree : t.heap.live ptr = none := hc
    obtain ⟨hp, hrun, hreceived, hw, ho, hkeep, hdeleted⟩ :=
      deleteWaiting_spec ht.heap ht.pubs
    have hfree' : hp.live ptr = none := by
      rw [hkeep ptr fun hm => ne_of_free ht.pubs hm hfree rfl, hfree]
    refine ⟨hp.store ptr, by rw [Ledger.step, heapAfter, hrun]; rfl,
      ⟨hw.store hfree', ?_, ?_, ?_⟩, congrArg (· + 1) hreceived, hdeleted⟩
    · refine ht.pubs_.frame fun m hm => ?_
      rw [Heap.store_live, if_neg (ne_of_free ht.pubs_ hm hfree), hkeep m (ht.disjoint m hm)]
    · rw [pubsAfter, ← hreceived]
      exact ho.store hfree' msg hs
    · intro m hm hm'
      rcases mem_insertAll_clients hm' with rfl | hold
      · exact ne_of_free ht.pubs_ hm hfree rfl
      · exact ht.disjoint m hm (mem_checkBufferSize_clients hold)
  | onMessageSent_ m id =>
    obtain ⟨hp, hrun, hreceived, hw, ho, hkeys, hkeep, hdeleted⟩ :=
      deleteServed_spec ht.heap ht.pubs_ hc
    refine ⟨hp, by rw [Ledger.step, heapAfter, hrun]; rfl, ⟨hw, ho, ?_, ?_⟩, hreceived, hdeleted⟩
    · exact ht.pubs.frame fun m' hm' => hkeep m' fun hold => ht.disjoint m' hold hm'
    · exact fun m' hm' => ht.disjoint m' (hkeys m' hm')
  | onMessageSent m h =>
    obtain ⟨hp, hrun, hreceived, hw, ho, hkeys, hkeep, hdeleted⟩ :=
      deleteServed_spec ht.heap ht.pubs hc
    refine ⟨hp, by rw [Ledger.step, heapAfter, hrun]; rfl, ⟨hw, ?_, ho, ?_⟩, hreceived, hdeleted⟩
    · exact ht.pubs_.frame fun m' hm' => hkeep m' (ht.disjoint m' hm')
    · exact fun m' hm' hold => ht.disjoint m' hm' (hkeys m' hold)

end Consistent

/-- **The tables and the memory over every run.** -/
theorem run_consistent (calls : List Call) (hcalls : EachStep step Proper empty calls) :
    ∃ t, runSteps step empty calls = .ok t ∧
      (∀ m id, (∃ e ∈ t.pubs_.messages id, e.ptr = m) ↔ id ∈ t.pubs_.clientsOf m) ∧
      (∀ m h, (∃ e ∈ t.pubs.messages h, e.ptr = m) ↔ h ∈ t.pubs.clientsOf m) ∧
      (∀ m ∈ t.pubs_.clients, t.pubs_.clientsOf m ≠ []) ∧
      (∀ m ∈ t.pubs.clients, t.pubs.clientsOf m ≠ []) ∧
      (∀ m, m ∈ t.pubs_.clients ∨ m ∈ t.pubs.clients →
        ∃ n ∉ t.heap.deleted, t.heap.live m = some n) ∧
      ∀ c, t.Proper c → ∃ t', t.step c = .ok t' ∧
        ∀ n, n ∈ t'.heap.deleted ↔ n ∈ t.heap.deleted ∨ t.Deletes c n := by
  obtain ⟨t, hrun, ht⟩ := exists_runSteps (I := Consistent) (fun t c ht hc => by
    obtain ⟨hp, hstep, ht', -⟩ := ht.step hc
    exact ⟨_, hstep, ht'⟩) .empty hcalls
  have hlive {m : MsgPtr} (hm : ∃ n, t.heap.live m = some n) :
      ∃ n ∉ t.heap.deleted, t.heap.live m = some n := by
    obtain ⟨n, hn⟩ := hm
    exact ⟨n, fun hdel => ((ht.heap.mem_deleted n).mp hdel).2 m hn, hn⟩
  refine ⟨t, hrun, ht.pubs_.inverse.mem_iff, ht.pubs.inverse.mem_iff, ht.pubs_.inverse.ne_nil,
    ht.pubs.inverse.ne_nil, ?_, fun c hc => ?_⟩
  · rintro m (hm | hm)
    · exact hlive (ht.pubs_.live_of_mem hm)
    · exact hlive (ht.pubs.live_of_mem hm)
  · obtain ⟨hp, hstep, -, -, hdeleted⟩ := ht.step hc
    exact ⟨_, hstep, hdeleted⟩

theorem run_consistent_two :
    ∃ t, runSteps step empty [.addMessage_ 8 (.create .little Stream.zeroChunk 0 0) [[49], [50]],
        .onMessageSent_ 8 [49]] = .ok t ∧ t.heap.deleted = [] ∧
      ∃ t', t.step (.onMessageSent_ 8 [50]) = .ok t' ∧ 0 ∈ t'.heap.deleted := by
  obtain ⟨t, hrun, -, -, -, -, -, hnext⟩ := run_consistent
    [.addMessage_ 8 (.create .little Stream.zeroChunk 0 0) [[49], [50]], .onMessageSent_ 8 [49]]
    (by decide)
  have hstate : (runSteps step empty
      [.addMessage_ 8 (.create .little Stream.zeroChunk 0 0) [[49], [50]],
        .onMessageSent_ 8 [49]]).toOption.all (fun t => decide (t.heap.deleted = [] ∧
          t.Proper (.onMessageSent_ 8 [50]) ∧ t.heap.live 8 = some 0 ∧
          t.pubs_.clientsOf 8 = [[50]])) = true := by decide
  rw [hrun] at hstate
  obtain ⟨hdeleted, hproper, hlast⟩ := of_decide_eq_true hstate
  obtain ⟨t', hstep, hiff⟩ := hnext _ hproper
  exact ⟨t, hrun, hdeleted, t', hstep, (hiff 0).mpr (Or.inr hlast)⟩

end Ledger

end Icm.Messaging
