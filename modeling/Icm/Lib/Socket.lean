import Mathlib

/-!
# Sockets as byte sources and byte sinks

A byte source answers a receive call with some of the bytes that are still to come, in order, but
possibly fewer than were asked for; a byte sink accepts some of the bytes that a send call offers.
-/

namespace Icm.Lib

open List

inductive Recv
  | bytes (bs : List UInt8)
  | wouldBlock
  | error
  deriving DecidableEq, Repr

/-- A source that delivers the bytes that are still to come (`rest`) in order: when at least `n`
of them are there, asking for `n` bytes returns between one and `n`. -/
structure ByteSource (σ : Type) where
  recv : ℕ → σ → Recv × σ
  rest : σ → List UInt8
  serves : ∀ n s, 0 < n → n ≤ (rest s).length →
    ∃ bs s', recv n s = (.bytes bs, s') ∧ bs ≠ [] ∧ bs.length ≤ n ∧ rest s = bs ++ rest s'

theorem ByteSource.serves_part {σ : Type} (src : ByteSource σ) (s : σ) {as tail : List UInt8}
    (hne : as ≠ []) (hs : src.rest s = as ++ tail) :
    ∃ bs as' s', src.recv as.length s = (.bytes bs, s') ∧ bs ≠ [] ∧ as = bs ++ as' ∧
      src.rest s' = as' ++ tail := by
  obtain ⟨bs, s', hrecv, hbs, hle, hrest⟩ := src.serves as.length s (length_pos_iff.mpr hne)
    (by rw [hs, length_append]; exact Nat.le_add_right _ _)
  rw [hs] at hrest
  obtain ⟨as', has⟩ : bs <+: as := prefix_of_prefix_length_le ⟨_, hrest.symm⟩ ⟨tail, rfl⟩ hle
  refine ⟨bs, as', s', hrecv, hbs, has.symm, ?_⟩
  rw [← has, append_assoc] at hrest
  exact (append_cancel_left hrest).symm

/-- Bytes to come, and the largest number of them that each of the next calls returns. -/
structure Cut where
  pending : List UInt8
  sizes : ℕ → ℕ+

def ByteSource.cut : ByteSource Cut where
  recv n s := (.bytes (s.pending.take (min n (s.sizes 0))),
    ⟨s.pending.drop (min n (s.sizes 0)), fun i => s.sizes (i + 1)⟩)
  rest := Cut.pending
  serves := by
    intro n s hn hlen
    have hpos : 0 < min n (s.sizes 0 : ℕ) := lt_min hn (s.sizes 0).pos
    refine ⟨_, _, rfl, ?_, ?_, (take_append_drop _ _).symm⟩
    · rw [← length_pos_iff, length_take]
      omega
    · rw [length_take]
      omega

def Recv.atMost (n : ℕ) : Recv → Recv
  | bytes bs => bytes (bs.take n)
  | r => r

def scripted (cap n : ℕ) (rs : ℕ → Recv) : Recv × (ℕ → Recv) :=
  ((rs 0).atMost (min n cap), fun i => rs (i + 1))

theorem length_le_of_scripted {cap n : ℕ} {rs rs' : ℕ → Recv} {bs : List UInt8}
    (h : scripted cap n rs = (.bytes bs, rs')) : bs.length ≤ n := by
  have hr : (rs 0).atMost (min n cap) = .bytes bs := (Prod.mk.inj h).1
  cases hrs : rs 0 with
  | bytes as =>
    rw [hrs] at hr
    rw [← Recv.bytes.inj hr, length_take]
    exact (Nat.min_le_left ..).trans (Nat.min_le_left ..)
  | _ =>
    rw [hrs] at hr
    cases hr

def logged {σ : Type} (recv : ℕ → σ → Recv × σ) (n : ℕ) (s : σ × List UInt8) :
    Recv × (σ × List UInt8) :=
  match recv n s.1 with
  | (.bytes bs, s') => (.bytes bs, (s', s.2 ++ bs))
  | (r, s') => (r, (s', s.2))

/-- What happens at a non-blocking socket: a segment of at least one byte arrives, or a receive
call finds nothing. -/
inductive Arrival
  | segment (b : UInt8) (bs : List UInt8)
  | pause
  deriving DecidableEq, Repr

namespace Arrival

def bytes : List Arrival → List UInt8
  | [] => []
  | segment b bs :: as => (b :: bs) ++ bytes as
  | pause :: as => bytes as

def weight : List Arrival → ℕ
  | [] => 0
  | segment _ bs :: as => bs.length + 1 + weight as
  | pause :: as => weight as + 1

def remainder : List UInt8 → List Arrival → List Arrival
  | [], as => as
  | b :: bs, as => segment b bs :: as

def recv (cap n : ℕ) : List Arrival → Recv × List Arrival
  | [] => (.wouldBlock, [])
  | pause :: as => (.wouldBlock, as)
  | segment b bs :: as =>
    (.bytes ((b :: bs).take (min n cap)), remainder ((b :: bs).drop (min n cap)) as)

def deliver : ℕ → List Arrival → Option (List Arrival)
  | 0, as => some as
  | _ + 1, [] => none
  | _ + 1, pause :: _ => none
  | n + 1, segment _ bs :: as =>
    if n ≤ bs.length then some (remainder (bs.drop n) as) else deliver (n - bs.length) as

def uninterrupted : List Arrival → Bool
  | [] => true
  | segment _ _ :: as => uninterrupted as
  | pause :: as => bytes as = []

@[simp] theorem bytes_remainder (bs : List UInt8) (as : List Arrival) :
    bytes (remainder bs as) = bs ++ bytes as := by
  cases bs <;> rfl

theorem weight_remainder (bs : List UInt8) (as : List Arrival) :
    weight (remainder bs as) = bs.length + weight as := by
  cases bs with
  | nil => exact (Nat.zero_add _).symm
  | cons b bs => rfl

variable {as : List Arrival}

theorem bytes_eq_nil_of_weight (h : weight as = 0) : bytes as = [] := by
  rcases as with _ | ⟨⟨b, bs⟩ | _, as⟩
  · rfl
  · simp [weight] at h
  · simp [weight] at h

theorem recv_remainder {bs : List UInt8} (h : bs ≠ []) (cap n : ℕ) (as : List Arrival) :
    recv cap n (remainder bs as) =
      (.bytes (bs.take (min n cap)), remainder (bs.drop (min n cap)) as) := by
  cases bs with
  | nil => exact absurd rfl h
  | cons b bs => rfl

theorem uninterrupted_remainder (bs : List UInt8) (as : List Arrival) :
    uninterrupted (remainder bs as) = uninterrupted as := by
  cases bs <;> rfl

theorem deliver_remainder (bs : List UInt8) (n : ℕ) (as : List Arrival) :
    deliver n (remainder bs as) =
      if n ≤ bs.length then some (remainder (bs.drop n) as) else deliver (n - bs.length) as := by
  rcases n with _ | n
  · simp [deliver]
  · cases bs with
    | nil => rfl
    | cons b bs =>
      rw [remainder, deliver, length_cons, Nat.add_sub_add_right, drop_succ_cons]
      simp only [Nat.add_le_add_iff_right]

theorem recv_of_bytes_eq_nil (h : bytes as = []) (cap n : ℕ) :
    (recv cap n as).1 = .wouldBlock := by
  cases as with
  | nil => rfl
  | cons a as =>
    cases a with
    | segment b bs => exact absurd h (cons_ne_nil _ _)
    | pause => rfl

theorem recv_cases (as : List Arrival) {cap n m : ℕ} (hn : 0 < n) (hcap : n ≤ cap) (hm : n ≤ m) :
    ((∃ as', recv cap n as = (.wouldBlock, as')) ∧ deliver m as = none) ∨
      ∃ bs as', recv cap n as = (.bytes bs, as') ∧ bs ≠ [] ∧ bs.length ≤ n ∧
        bytes as = bs ++ bytes as' ∧ deliver m as = deliver (m - bs.length) as' := by
  obtain ⟨k, rfl⟩ : ∃ k, m = k + 1 := ⟨m - 1, by omega⟩
  rcases as with _ | ⟨⟨b, bs⟩ | _, as⟩
  · exact Or.inl ⟨⟨_, rfl⟩, rfl⟩
  · have hsegment : segment b bs :: as = remainder (b :: bs) as := rfl
    refine Or.inr ⟨(b :: bs).take n, remainder ((b :: bs).drop n) as, ?_, ?_, ?_, ?_, ?_⟩
    · rw [recv, Nat.min_eq_left hcap]
    · rw [← length_pos_iff, length_take, length_cons]
      omega
    · exact length_take_le _ _
    · rw [bytes_remainder, ← append_assoc, take_append_drop]
      rfl
    · rw [hsegment, deliver_remainder, deliver_remainder, drop_drop, length_take,
        length_drop]
      rcases Nat.lt_or_ge n (b :: bs).length with hlt | hge
      · rw [Nat.min_eq_left hlt.le, Nat.add_sub_of_le hm, Nat.sub_sub, Nat.add_sub_of_le hlt.le]
        simp only [tsub_le_iff_right, Nat.sub_add_cancel hlt.le]
      · rw [Nat.min_eq_right hge, Nat.sub_eq_zero_of_le hge, Nat.sub_zero]
        rcases Nat.lt_or_ge (b :: bs).length (k + 1) with hlt | hle
        · rw [if_neg (by omega), if_neg (by omega)]
        · rw [if_pos hle, if_pos (by omega), drop_of_length_le (by omega),
            drop_of_length_le (by omega)]
  · exact Or.inl ⟨⟨_, rfl⟩, rfl⟩

theorem uninterrupted_of_bytes_eq_nil (h : bytes as = []) :
    uninterrupted as = true := by
  rcases as with _ | ⟨⟨b, bs⟩ | _, as⟩
  · rfl
  · exact absurd h (cons_ne_nil _ _)
  · exact decide_eq_true h

theorem bytes_of_deliver {n : ℕ} {as as' : List Arrival} (h : deliver n as = some as') :
    bytes as' = (bytes as).drop n := by
  induction as generalizing n with
  | nil =>
    rcases n with _ | n
    · cases h
      rfl
    · cases h
  | cons a as ih =>
    rcases n with _ | n
    · cases h
      rfl
    · cases a with
      | pause => cases h
      | segment b bs =>
        rw [deliver] at h
        rw [bytes, cons_append, drop_succ_cons]
        split_ifs at h with hle
        · cases h
          rw [bytes_remainder, drop_append_of_le_length hle]
        · have hnil : bs.drop n = [] := drop_of_length_le (by omega)
          rw [ih h, drop_append, hnil, nil_append]

theorem uninterrupted_iff_deliver (as : List Arrival) {n : ℕ} (h : n ≤ (bytes as).length) :
    uninterrupted as = true ↔ ∃ as', deliver n as = some as' ∧ uninterrupted as' = true := by
  induction as generalizing n with
  | nil =>
    obtain rfl : n = 0 := Nat.le_zero.mp h
    simp [deliver]
  | cons a as ih =>
    rcases n with _ | n
    · simp [deliver]
    · cases a with
      | segment b bs =>
        rw [uninterrupted, deliver]
        split_ifs with hle
        · simp [uninterrupted_remainder]
        · rw [bytes, length_append, length_cons] at h
          exact ih (by omega)
      | pause =>
        have hne : bytes as ≠ [] := length_pos_iff.mp (Nat.lt_of_lt_of_le n.succ_pos h)
        simp [uninterrupted, deliver, hne]

end Arrival

/-- The answer to a send call: the socket has room for some bytes and takes as many of those
offered, or the call fails. -/
inductive SendResult
  | accepted (room : ℕ+)
  | failed
  deriving DecidableEq

def SendResult.Covers : SendResult → List UInt8 → Prop
  | accepted room, b => b.length ≤ room
  | failed, _ => False

instance (r : SendResult) (b : List UInt8) : Decidable (r.Covers b) :=
  match r with
  | .accepted room => inferInstanceAs (Decidable (b.length ≤ room))
  | .failed => inferInstanceAs (Decidable False)

def sendEach : List (List UInt8) → (ℕ → SendResult) → Bool × List UInt8
  | [], _ => (true, [])
  | b :: bs, rs =>
    match rs 0 with
    | .failed => (false, [])
    | .accepted room =>
      let r := sendEach bs fun i => rs (i + 1)
      (r.1, b.take room ++ r.2)

def offers : List (List UInt8) → (ℕ → SendResult) → List (List UInt8 × SendResult)
  | [], _ => []
  | b :: bs, rs => (b, rs 0) :: offers bs fun i => rs (i + 1)

theorem sendEach_ok_iff (bs : List (List UInt8)) (rs : ℕ → SendResult) :
    (sendEach bs rs).1 = true ↔ ∀ p ∈ offers bs rs, p.2 ≠ .failed := by
  induction bs generalizing rs with
  | nil => simp [sendEach, offers]
  | cons b bs ih =>
    cases h : rs 0 with
    | failed => simp [sendEach, offers, h]
    | accepted room => simp [sendEach, offers, h, ih]

theorem length_sendEach_le (bs : List (List UInt8)) (rs : ℕ → SendResult) :
    (sendEach bs rs).2.length ≤ bs.flatten.length := by
  induction bs generalizing rs with
  | nil => simp [sendEach]
  | cons b bs ih =>
    have hrest := ih fun i => rs (i + 1)
    cases h : rs 0 with
    | failed => simp [sendEach, h]
    | accepted room =>
      simp only [sendEach, h, length_append, flatten_cons, length_take]
      omega

variable {bs : List (List UInt8)}

theorem length_sendEach_lt {rs : ℕ → SendResult}
    (hbs : ∀ b ∈ bs, b ≠ []) (hfail : (sendEach bs rs).1 = false) :
    (sendEach bs rs).2.length < bs.flatten.length := by
  induction bs generalizing rs with
  | nil => cases hfail
  | cons b bs ih =>
    obtain ⟨hb, hbs⟩ := forall_mem_cons.mp hbs
    have hb := length_pos_iff.mpr hb
    cases h : rs 0 with
    | failed =>
      simp only [sendEach, h, length_nil, flatten_cons, length_append]
      omega
    | accepted room =>
      have hrest := @ih (fun i => rs (i + 1)) hbs (by simpa [sendEach, h] using hfail)
      simp only [sendEach, h, length_append, flatten_cons, length_take]
      omega

theorem sendEach_eq_flatten_iff (bs : List (List UInt8)) (rs : ℕ → SendResult)
    (hok : (sendEach bs rs).1 = true) :
    (sendEach bs rs).2 = bs.flatten ↔ ∀ p ∈ offers bs rs, p.2.Covers p.1 := by
  induction bs generalizing rs with
  | nil => simp [sendEach, offers]
  | cons b bs ih =>
    cases h : rs 0 with
    | failed => simp [sendEach, h] at hok
    | accepted room =>
      have hok' : (sendEach bs fun i => rs (i + 1)).1 = true := by simpa [sendEach, h] using hok
      have hle := length_sendEach_le bs fun i => rs (i + 1)
      simp only [sendEach, h, offers, flatten_cons, forall_mem_cons, ← ih _ hok']
      constructor
      · intro heq
        have hlen := congrArg length heq
        simp only [length_append, length_take] at hlen
        have hroom : b.length ≤ room := by omega
        exact ⟨hroom, (append_inj heq (by rw [length_take]; omega)).2⟩
      · rintro ⟨hroom, heq⟩
        rw [heq, take_of_length_le hroom]

theorem sendEach_of_covers {rs : ℕ → SendResult}
    (h : ∀ p ∈ offers bs rs, p.2.Covers p.1) : sendEach bs rs = (true, bs.flatten) := by
  have hok : (sendEach bs rs).1 = true := by
    refine (sendEach_ok_iff _ _).mpr fun p hp hfail => ?_
    have hcovers := h p hp
    rw [hfail] at hcovers
    exact hcovers
  exact Prod.ext hok ((sendEach_eq_flatten_iff _ _ hok).mpr h)

theorem sendEach_eq_flatten_iff_of_ne_nil (hbs : ∀ b ∈ bs, b ≠ [])
    (rs : ℕ → SendResult) :
    (sendEach bs rs).2 = bs.flatten ↔ ∀ p ∈ offers bs rs, p.2.Covers p.1 := by
  cases hok : (sendEach bs rs).1 with
  | true => exact sendEach_eq_flatten_iff bs rs hok
  | false =>
    have hfail : ¬ ∀ p ∈ offers bs rs, p.2 ≠ .failed := by
      rw [← sendEach_ok_iff, hok]
      exact Bool.false_ne_true
    constructor
    · intro heq
      refine absurd heq fun heq => ?_
      have := length_sendEach_lt hbs hok
      rw [heq] at this
      exact lt_irrefl _ this
    · intro hcovers
      refine absurd (fun p hp hp' => ?_) hfail
      have := hcovers p hp
      rw [hp'] at this
      exact this

theorem sendEach_complete_iff (bs : List (List UInt8)) (rs : ℕ → SendResult) :
    ((sendEach bs rs).1 = true → (sendEach bs rs).2 = bs.flatten) ↔
      (∃ p ∈ offers bs rs, p.2 = .failed) ∨ ∀ p ∈ offers bs rs, p.2.Covers p.1 := by
  by_cases hok : (sendEach bs rs).1 = true
  · have hnone := (sendEach_ok_iff bs rs).mp hok
    rw [← sendEach_eq_flatten_iff bs rs hok]
    constructor
    · exact fun h => Or.inr (h hok)
    · rintro (⟨p, hp, hfail⟩ | h)
      · exact absurd hfail (hnone p hp)
      · exact fun _ => h
  · have hfail : ∃ p ∈ offers bs rs, p.2 = .failed := by
      by_contra hnone
      push Not at hnone
      exact hok ((sendEach_ok_iff bs rs).mpr hnone)
    exact ⟨fun _ => Or.inl hfail, fun _ h => absurd h hok⟩

end Icm.Lib
