import Icm.Java.Writing
import Icm.Lib.Socket

/-!
# Reading from a channel

The `read` handler of the Java servers. Whenever a channel is readable, the selector calls the
handler of its connection.
-/

namespace Icm.Java

open Icm.Lib Icm.Stream List Arrival

def defaultCapacity : ℕ := 128

def maxCachedCapacity : ℕ := 4 * defaultCapacity

def Buffer.Sized (b : Buffer) : Prop := ∃ k ≤ 11, b.data.length = defaultCapacity * 4 ^ k

structure Pooled (order : ByteOrder) where
  buffer : Buffer
  filling : buffer.Filling []
  order_eq : buffer.order = order
  sized : buffer.Sized

structure CachedBufferProvider where
  cacheSize : ℕ
  byteOrder : ByteOrder
  cache : List (Pooled byteOrder)

namespace CachedBufferProvider

def getBuffer (p : CachedBufferProvider) : Pooled p.byteOrder × CachedBufferProvider :=
  match p.cache with
  | [] =>
    (⟨.allocate defaultCapacity (by decide) p.byteOrder, Buffer.allocate_filling _ _ _, rfl,
      0, by decide, length_replicate⟩, p)
  | b :: cache => (b, { p with cache })

def destroy (p : CachedBufferProvider) (b : Buffer) (horder : b.order = p.byteOrder)
    (hsized : b.Sized) : CachedBufferProvider :=
  if b.data.length ≤ maxCachedCapacity ∧ p.cache.length < p.cacheSize then
    { p with cache := p.cache ++ [⟨b.clear, b.clear_filling, horder, hsized⟩] }
  else p

end CachedBufferProvider

/-- What follows the bytes that a client sends: nothing for now, the end of the stream, or an
error. -/
inductive Ending
  | pending
  | eof
  | reset
  deriving DecidableEq, Repr

inductive ReadResult
  | bytes (bs : List UInt8)
  | eof
  | failed
  deriving DecidableEq, Repr

def channelRead (ending : Ending) (n : ℕ) (as : List Arrival) : ReadResult × List Arrival :=
  if n = 0 then (.bytes [], as)
  else
    match as, ending with
    | [], .pending => (.bytes [], [])
    | [], .eof => (.eof, [])
    | [], .reset => (.failed, [])
    | .pause :: as, _ => (.bytes [], as)
    | .segment b bs :: as, _ => (.bytes ((b :: bs).take n), remainder ((b :: bs).drop n) as)

def readFully (ending : Ending) : List Arrival → ℕ → Except Abrupt (List UInt8 × List Arrival)
  | as, 0 => .ok ([], as)
  | [], _ + 1 => .error (if ending = .pending then .endless else .io)
  | .pause :: as, n + 1 => readFully ending as (n + 1)
  | .segment b bs :: as, n + 1 =>
    if n ≤ bs.length then
      .ok ((b :: bs).take (n + 1), remainder ((b :: bs).drop (n + 1)) as)
    else do
      let r ← readFully ending as (n - bs.length)
      return (b :: bs ++ r.1, r.2)

section Channel

variable (ending : Ending)

theorem readFully_eq (as : List Arrival) {n : ℕ} (hn : n ≠ 0) :
    readFully ending as n =
      match channelRead ending n as with
      | (.bytes bs, as') =>
        if as = [] then .error .endless
        else (readFully ending as' (n - bs.length)).map fun r => (bs ++ r.1, r.2)
      | _ => .error .io := by
  obtain ⟨n, rfl⟩ := Nat.exists_eq_succ_of_ne_zero hn
  rcases as with _ | ⟨⟨b, bs⟩ | _, as⟩
  · cases ending <;> rfl
  · rcases Nat.lt_or_ge bs.length n with hlt | hle
    · have htake : (b :: bs).take (n + 1) = b :: bs :=
        take_of_length_le (by rw [length_cons]; omega)
      have hdrop : (b :: bs).drop (n + 1) = [] :=
        drop_of_length_le (by rw [length_cons]; omega)
      have hlength : n + 1 - (b :: bs).length = n - bs.length := by simp
      simp only [readFully, channelRead, hn, hlt.not_ge, reduceCtorEq, ↓reduceIte, htake, hdrop,
        hlength, remainder]
      cases readFully ending as (n - bs.length) <;> rfl
    · have hlength : n + 1 - ((b :: bs).take (n + 1)).length = 0 := by
        rw [length_take, length_cons]
        omega
      simp only [readFully, channelRead, hn, hle, reduceCtorEq, ↓reduceIte, hlength, Except.map,
        append_nil]
  · simp only [readFully, channelRead, hn, reduceCtorEq, ↓reduceIte, length_nil, Nat.sub_zero,
      nil_append]
    cases readFully ending as (n + 1) <;> rfl

theorem readFully_of_le {as : List Arrival} {n : ℕ} (h : n ≤ (bytes as).length) :
    ∃ as', readFully ending as n = .ok ((bytes as).take n, as') ∧
      bytes as' = (bytes as).drop n ∧
      weight as' + n ≤ weight as := by
  induction as generalizing n with
  | nil =>
    obtain rfl : n = 0 := Nat.le_zero.mp h
    exact ⟨[], rfl, rfl, le_rfl⟩
  | cons a as ih =>
    rcases n with _ | n
    · exact ⟨a :: as, by simp [readFully], rfl, le_rfl⟩
    · cases a with
      | pause =>
        obtain ⟨as', hread, hbytes, hweight⟩ := ih h
        exact ⟨as', by rw [readFully]; exact hread, hbytes, by rw [weight]; omega⟩
      | segment b bs =>
        have hlen : (b :: bs).length = bs.length + 1 := length_cons
        rw [bytes, readFully, weight]
        rw [bytes, length_append, hlen] at h
        split_ifs with hle
        · refine ⟨remainder ((b :: bs).drop (n + 1)) as, ?_, ?_, ?_⟩
          · rw [take_append_of_le_length (by omega)]
          · rw [bytes_remainder, drop_append_of_le_length (by omega)]
          · rw [weight_remainder, length_drop]
            omega
        · obtain ⟨as', hread, hbytes, hweight⟩ := ih (n := n - bs.length) (by omega)
          have hsub : n + 1 - (b :: bs).length = n - bs.length := by omega
          have htake : (b :: bs).take (n + 1) = b :: bs := take_of_length_le (by omega)
          have hdrop : (b :: bs).drop (n + 1) = [] := drop_of_length_le (by omega)
          refine ⟨as', ?_, ?_, by omega⟩
          · rw [hread, take_append, htake, hsub]
            rfl
          · rw [hbytes, drop_append, hdrop, hsub, nil_append]

theorem readFully_of_lt {as : List Arrival} {n : ℕ} (h : (bytes as).length < n) :
    readFully ending as n = .error (if ending = .pending then .endless else .io) := by
  induction as generalizing n with
  | nil =>
    obtain ⟨n, rfl⟩ := Nat.exists_eq_succ_of_ne_zero (Nat.ne_zero_of_lt h)
    rfl
  | cons a as ih =>
    obtain ⟨n, rfl⟩ := Nat.exists_eq_succ_of_ne_zero (Nat.ne_zero_of_lt h)
    cases a with
    | pause => exact ih h
    | segment b bs =>
      rw [bytes, length_append, length_cons] at h
      rw [readFully, if_neg (by omega), ih (by omega)]
      rfl

end Channel

def messageHeadSize : ℕ := 5

def typeRequest : UInt8 := 0

structure IcmContext where
  buffer : Buffer
  length : ℤ
  current : ℤ

/-- The side of a connection that reads: what is still to arrive, the request that is read, whether
the channel is open, whether there is an executor for the port, and the buffers that were handed to
it. -/
structure Inbound where
  arrivals : List Arrival
  ending : Ending
  requestContext : Option IcmContext
  isOpen : Bool
  hasExecutor : Bool
  executed : List Buffer

namespace Inbound

def new (arrivals : List Arrival) (ending : Ending) (hasExecutor : Bool) : Inbound :=
  ⟨arrivals, ending, none, true, hasExecutor, []⟩

def readHead (s : Inbound) (buffer : Buffer) : Except Abrupt (IcmContext × List Arrival) := do
  let head ← readFully s.ending s.arrivals messageHeadSize
  let buffer ← buffer.put head.1
  let length ← buffer.flip.getInt
  let type ← length.2.get
  let buffer := type.2.clear
  if type.1 ≠ typeRequest then .error .io
  else return (⟨buffer, length.1.toInt, 0⟩, head.2)

def readBody (s : Inbound) (context : IcmContext) (arrivals : List Arrival) :
    Except Abrupt Inbound :=
  let len := toInt (context.length - context.current)
  if len < 0 then .error .illegalArgument
  else
    let r := channelRead s.ending (min len.toNat bufferSize) arrivals
    let receive (bs : List UInt8) (readed : ℤ) : Except Abrupt Inbound := do
      let buffer ← context.buffer.put bs
      let current := toInt (context.current + readed)
      let s := { s with arrivals := r.2 }
      if current = context.length then
        if s.hasExecutor then
          return { s with requestContext := none, executed := s.executed ++ [buffer.flip] }
        else .error .nullPointer
      else return { s with requestContext := some { context with buffer, current } }
    match r.1 with
    | .bytes bs => receive bs bs.length
    | .eof => receive [] (-1)
    | .failed => .error .io

def read (s : Inbound) (buffer : Buffer) : Except Abrupt Inbound :=
  let attempt : Except Abrupt Inbound :=
    match s.requestContext with
    | some context => s.readBody context s.arrivals
    | none => do
      let r ← s.readHead buffer
      s.readBody r.1 r.2
  match attempt with
  | .error .io => .ok { s with requestContext := none, isOpen := false }
  | r => r

def select {order : ByteOrder} (s : Inbound) (provided : Pooled order) : Except Abrupt Inbound :=
  if s.isOpen then
    match s.arrivals, s.ending with
    | .pause :: as, _ => .ok { s with arrivals := as }
    | [], .pending => .ok s
    | _, _ => s.read provided.buffer
  else .ok s

theorem select_eq_read {order : ByteOrder} {s : Inbound} (provided : Pooled order)
    (hopen : s.isOpen = true) (hpause : s.arrivals.head? ≠ some .pause)
    (hreadable : s.arrivals ≠ [] ∨ s.ending ≠ .pending) :
    s.select provided = s.read provided.buffer := by
  unfold select
  rw [if_pos hopen]
  split
  · rename_i heq
    simp [heq] at hpause
  · rename_i harrivals hending
    simp [harrivals, hending] at hreadable
  · rfl

end Inbound

theorem Buffer.put_of_sized {b : Buffer} {bs src : List UInt8} (h : b.Filling bs) (hsized : b.Sized)
    (hle : bs.length + src.length ≤ 2 ^ 29) :
    ∃ b', b.put src = .ok b' ∧ b'.Filling (bs ++ src) ∧ b'.Sized ∧ b'.order = b.order := by
  obtain ⟨k, hk, hlength⟩ := hsized
  have hmax : b.data.length * 4 ^ (11 - k) = 2 ^ 29 := by
    rw [hlength, Nat.mul_assoc, ← pow_add, Nat.add_sub_of_le hk]
    rfl
  have hpos : 0 < b.data.length := by
    rw [hlength]
    exact Nat.mul_pos (by decide) (Nat.pow_pos (by decide))
  obtain ⟨j, hj, hreserve⟩ := reserve_of_le hpos (by rw [hmax]; decide) (hmax.symm ▸ hle)
  obtain ⟨b', hput, hb', hcapacity, horder⟩ := Buffer.put_of_ok h hreserve
  refine ⟨b', hput, hb', ⟨k + j, by omega, ?_⟩, horder⟩
  rw [hcapacity, hlength, pow_add, Nat.mul_assoc]

theorem channelRead_cases (ending : Ending) (n : ℕ) (as : List Arrival) :
    (∃ bs as', channelRead ending n as = (.bytes bs, as') ∧ bs.length ≤ n ∧
      bytes as = bs ++ bytes as' ∧
      weight as' + bs.length ≤ weight as ∧
      (∀ b cs rest, as = .segment b cs :: rest → 0 < n → bs ≠ [])) ∨
    (as = [] ∧ 0 < n ∧ (channelRead ending n as = (.eof, []) ∨
      channelRead ending n as = (.failed, []))) := by
  by_cases hn : n = 0
  · subst hn
    exact Or.inl ⟨[], as, rfl, le_rfl, rfl, le_rfl, fun _ _ _ _ h => absurd h (lt_irrefl 0)⟩
  have hpos := Nat.pos_of_ne_zero hn
  unfold channelRead
  simp only [if_neg hn]
  rcases as with _ | ⟨⟨b, bs⟩ | _, as⟩
  · cases ending with
    | pending => exact Or.inl ⟨[], [], rfl, Nat.zero_le n, rfl, le_rfl, by simp⟩
    | eof => exact Or.inr ⟨rfl, hpos, Or.inl rfl⟩
    | reset => exact Or.inr ⟨rfl, hpos, Or.inr rfl⟩
  · refine Or.inl ⟨_, _, rfl, length_take_le _ _, ?_, ?_, fun _ _ _ _ _ => ?_⟩
    · rw [bytes_remainder, ← append_assoc, take_append_drop]
      rfl
    · rw [weight_remainder, length_take, length_drop, weight,
        length_cons]
      omega
    · rw [← length_pos_iff, length_take, length_cons]
      omega
  · exact Or.inl ⟨[], as, rfl, Nat.zero_le n, rfl, Nat.le_succ _, by simp⟩

def ReadResult.taken : ReadResult → Option (List UInt8 × ℤ)
  | .bytes bs => some (bs, bs.length)
  | .eof => some ([], -1)
  | .failed => none

theorem ReadResult.readed_of_taken {r : ReadResult} {bs : List UInt8} {readed : ℤ}
    (h : r.taken = some (bs, readed)) : -1 ≤ readed ∧ readed ≤ bs.length := by
  cases r with
  | bytes cs =>
    cases h
    exact ⟨by omega, le_rfl⟩
  | eof =>
    cases h
    exact ⟨le_rfl, by decide⟩
  | failed => cases h

/-- A request that is read: its buffer holds `got`, the length is that of a body, and the difference
of the counts is an `int`. -/
structure IcmContext.Sane (context : IcmContext) (got : List UInt8) : Prop where
  filling : context.buffer.Filling got
  sized : context.buffer.Sized
  length_nonneg : 0 ≤ context.length
  length_lt : context.length < 2 ^ 31
  current_le : context.current ≤ context.length
  le_current : -2 ^ 31 ≤ context.current

def IcmContext.Fits (context : IcmContext) : Prop :=
  context.length - context.current < 2 ^ 31 ∧
    (context.buffer.position : ℤ) + min (bufferSize : ℤ) (context.length - context.current) ≤ 2 ^ 29

namespace Inbound

def headLength (order : ByteOrder) (field : List UInt8) : ℤ :=
  (BitVec.ofNat 32 (order.value field)).toInt

theorem readHead_eq {order : ByteOrder} (provided : Pooled order) {s : Inbound}
    {field rest : List UInt8} {type : UInt8} (hfield : field.length = 4)
    (hbytes : bytes s.arrivals = field ++ type :: rest) :
    ∃ b as, b.Filling [] ∧ b.Sized ∧ bytes as = rest ∧
      weight as + messageHeadSize ≤ weight s.arrivals ∧
      s.readHead provided.buffer = if type ≠ typeRequest then .error .io
        else .ok (⟨b, headLength order field, 0⟩, as) := by
  have hle : messageHeadSize ≤ (bytes s.arrivals).length := by
    rw [hbytes, length_append, hfield, length_cons, messageHeadSize]
    omega
  obtain ⟨as, hfully, has, hweight⟩ := readFully_of_le s.ending hle
  have hhead : (field ++ [type]).length = messageHeadSize := by
    rw [length_append, hfield]
    rfl
  rw [hbytes, append_cons, drop_left' hhead] at has
  rw [hbytes, append_cons, take_left' hhead] at hfully
  have hroom : ([] : List UInt8).length + (field ++ [type]).length ≤ 2 ^ 29 := by
    rw [hhead]
    decide
  obtain ⟨b, hput, hb, hsized, horder⟩ :=
    Buffer.put_of_sized provided.filling provided.sized hroom
  have hvalue : (BitVec.ofNat 32 (order.value field)).toNat = order.value field := by
    have hlt := order.value_lt field
    rw [hfield] at hlt
    rw [BitVec.toNat_ofNat, Nat.mod_eq_of_lt (hlt.trans_eq (by decide))]
  have himage : b.flip.order.image 4 (BitVec.ofNat 32 (order.value field)).toNat = field := by
    rw [hvalue, ← hfield, show b.flip.order = order from horder.trans provided.order_eq]
    exact order.image_value field
  have hflip : b.flip.Reading
      (b.flip.order.image 4 (BitVec.ofNat 32 (order.value field)).toNat ++ [type]) := by
    rw [himage]
    exact hb.flip
  obtain ⟨b₁, hint, h₁, -⟩ := hflip.getInt
  obtain ⟨b₂, hget, -, -⟩ := h₁.get
  have hdata : b₂.data = b.data := (Buffer.data_of_get hget).trans (Buffer.data_of_getInt hint)
  refine ⟨b₂.clear, as, b₂.clear_filling, ?_, has, hweight, ?_⟩
  · obtain ⟨k, hk, hlength⟩ := hsized
    exact ⟨k, hk, (congrArg length hdata).trans hlength⟩
  · simp only [readHead, hfully, hput, hint, hget, bind, Except.bind]
    rfl

theorem readHead_of_lt {order : ByteOrder} (provided : Pooled order) {s : Inbound}
    (h : (bytes s.arrivals).length < messageHeadSize) (hending : s.ending ≠ .pending) :
    s.readHead provided.buffer = .error .io := by
  rw [readHead, readFully_of_lt s.ending h, if_neg hending]
  rfl

def received (s : Inbound) (context : IcmContext) (arrivals : List Arrival) (b : Buffer)
    (readed : ℤ) : Except Abrupt Inbound :=
  if context.current + readed = context.length then
    if s.hasExecutor then
      .ok { s with arrivals, requestContext := none, executed := s.executed ++ [b.flip] }
    else .error .nullPointer
  else
    .ok { s with arrivals, requestContext := some ⟨b, context.length, context.current + readed⟩ }

section Body

variable {s : Inbound} {context : IcmContext} {got : List UInt8} (as : List Arrival)

section

variable (hsane : context.Sane got) (hfits : context.Fits)
include hsane hfits

theorem toInt_missing :
    toInt (context.length - context.current) = context.length - context.current :=
  toInt_of_abs_lt (by have := hsane.current_le; omega) hfits.1

theorem readBody_of_taken {r : ReadResult}
    {bs : List UInt8} {readed : ℤ} {as' : List Arrival} (htaken : r.taken = some (bs, readed))
    (hbs : bs.length ≤ min (context.length - context.current).toNat bufferSize)
    (hread : channelRead s.ending (min (context.length - context.current).toNat bufferSize) as =
      (r, as')) :
    ∃ b, b.Filling (got ++ bs) ∧ b.Sized ∧
      s.readBody context as = s.received context as' b readed := by
  have hlen := toInt_missing hsane hfits
  obtain ⟨hdiff, hroom⟩ := hfits
  obtain ⟨hfilling, hsized, hnonneg, hlt, hle, hge⟩ := hsane
  rw [hfilling.position_eq] at hroom
  obtain ⟨b, hput, hb, hbsized, -⟩ := Buffer.put_of_sized hfilling hsized
    (show got.length + bs.length ≤ 2 ^ 29 by omega)
  obtain ⟨hlow, hhigh⟩ := ReadResult.readed_of_taken htaken
  have hcurrent : toInt (context.current + readed) = context.current + readed :=
    toInt_of_abs_lt (by omega) (by omega)
  refine ⟨b, hb, hbsized, ?_⟩
  simp only [readBody, hlen, hread]
  rw [if_neg (by omega)]
  cases r with
  | bytes cs =>
    cases htaken
    simp only [hput, hcurrent, received, bind, Except.bind]
    rfl
  | eof =>
    cases htaken
    simp only [hput, hcurrent, received, bind, Except.bind]
    rfl
  | failed => cases htaken

theorem readBody_of_failed {as' : List Arrival}
    (hread : channelRead s.ending (min (context.length - context.current).toNat bufferSize) as =
      (.failed, as')) :
    s.readBody context as = .error .io := by
  simp only [readBody, toInt_missing hsane hfits, hread]
  rw [if_neg (by have := hsane.current_le; omega)]

theorem readBody_cases :
    (∃ bs as' b, (bs.length : ℤ) ≤ context.length - context.current ∧
      bytes as = bs ++ bytes as' ∧
      weight as' + bs.length ≤ weight as ∧
      (∀ x xs rest, as = .segment x xs :: rest → context.current < context.length → bs ≠ []) ∧
      b.Filling (got ++ bs) ∧ b.Sized ∧
      s.readBody context as = s.received context as' b bs.length) ∨
    (as = [] ∧ context.current < context.length ∧
      ((∃ b, b.Filling got ∧ b.Sized ∧ s.readBody context as = s.received context [] b (-1)) ∨
        s.readBody context as = .error .io)) := by
  have hbuffer : 0 < bufferSize := by decide
  have hle := hsane.current_le
  rcases channelRead_cases s.ending (min (context.length - context.current).toNat bufferSize) as
    with ⟨bs, as', hread, hbs, hbytes, hweight, hsome⟩ | ⟨rfl, hpos, hread | hread⟩
  · obtain ⟨b, hb, hbsized, heq⟩ := readBody_of_taken as hsane hfits rfl hbs hread
    refine Or.inl ⟨bs, as', b, by omega, hbytes, hweight, fun x xs rest has hmissing => ?_, hb,
      hbsized, heq⟩
    exact hsome x xs rest has (by omega)
  · have hend := readBody_of_taken [] hsane hfits rfl (Nat.zero_le _) hread
    rw [append_nil] at hend
    exact Or.inr ⟨rfl, by omega, Or.inl hend⟩
  · exact Or.inr ⟨rfl, by omega, Or.inr (readBody_of_failed [] hsane hfits hread)⟩

end

end Body

def frame (order : ByteOrder) (body : List UInt8) : List UInt8 :=
  order.image 4 body.length ++ typeRequest :: body

def Holds (b : Buffer) (body : List UInt8) : Prop := b.position = 0 ∧ b.Reading body

def Awaits (order : ByteOrder) (s : Inbound) (bodies : List (List UInt8)) : Prop :=
  match s.requestContext with
  | none => bytes s.arrivals = bodies.flatMap (frame order)
  | some context =>
    ∃ got more rest, bodies = (got ++ more) :: rest ∧ more ≠ [] ∧ context.Sane got ∧
      context.length = (got ++ more).length ∧ context.current = got.length ∧
      bytes s.arrivals = more ++ rest.flatMap (frame order)

structure Serving (order : ByteOrder) (bodies : List (List UInt8)) (s : Inbound) : Prop where
  hasExecutor : s.hasExecutor = true
  progress : ∃ done rest, bodies = done ++ rest ∧ List.Forall₂ Holds s.executed done ∧
    if s.isOpen then s.Awaits order rest else rest = []

def backlog (s : Inbound) : ℕ := if s.isOpen then weight s.arrivals else 0

section Serve

variable {order : ByteOrder} {s : Inbound}

variable {rest done : List (List UInt8)}

theorem serve_body {context : IcmContext} {got more : List UInt8}
    {as : List Arrival} (hexecutor : s.hasExecutor = true) (hopen : s.isOpen = true)
    (hdone : List.Forall₂ Holds s.executed done) (hsane : context.Sane got)
    (hlength : context.length = (got ++ more).length) (hcurrent : context.current = got.length)
    (hshort : (got ++ more).length ≤ 2 ^ 28)
    (hbytes : bytes as = more ++ rest.flatMap (frame order)) :
    ∃ s', s.readBody context as = .ok s' ∧ s'.Serving order (done ++ (got ++ more) :: rest) ∧
      s'.backlog ≤ weight as ∧
      (∀ x xs tail, as = .segment x xs :: tail → more ≠ [] → s'.backlog < weight as) := by
  rw [length_append] at hlength hshort
  have hposition := hsane.filling.position_eq
  have hfits : context.Fits := ⟨by omega, by rw [hposition]; omega⟩
  rcases readBody_cases (s := s) as hsane hfits with
    ⟨bs, as', b, hbs, hsplit, hweight, hsome, hb, hbsized, heq⟩ | ⟨rfl, hmissing, -⟩
  · obtain ⟨more', rfl⟩ : bs <+: more :=
      prefix_of_prefix_length_le ⟨_, hsplit.symm⟩ ⟨_, hbytes.symm⟩ (by omega)
    rw [hsplit, append_assoc] at hbytes
    have hrest := append_cancel_left hbytes
    rw [length_append] at hlength hshort
    have hstrict {k : ℕ} (hk : k = weight as') :
        k ≤ weight as ∧ ∀ x xs tail, as = .segment x xs :: tail → bs ++ more' ≠ [] →
          k < weight as := by
      refine ⟨by omega, fun x xs tail has hne => ?_⟩
      have hpos := length_pos_iff.mpr hne
      rw [length_append] at hpos
      have := length_pos_iff.mpr (hsome x xs tail has (by omega))
      omega
    rw [heq, received]
    by_cases hmore : more' = []
    · -- the body is complete
      subst hmore
      rw [length_nil] at hlength
      rw [if_pos (by omega), if_pos hexecutor]
      refine ⟨_, rfl, ⟨hexecutor, done ++ [got ++ bs], rest, by simp, ?_, ?_⟩, hstrict ?_⟩
      · exact rel_append hdone (.cons ⟨rfl, hb.flip⟩ .nil)
      · rw [if_pos hopen]
        exact hrest
      · exact if_pos hopen
    · have hpos := length_pos_iff.mpr hmore
      rw [if_neg (by omega)]
      refine ⟨_, rfl, ⟨hexecutor, done, _, rfl, hdone, ?_⟩, hstrict (if_pos hopen)⟩
      rw [if_pos hopen]
      have hsane' : IcmContext.Sane ⟨b, context.length, context.current + bs.length⟩ (got ++ bs) :=
        ⟨hb, hbsized, hsane.length_nonneg, hsane.length_lt, by simp only; omega,
          by simp only; omega⟩
      refine ⟨got ++ bs, more', rest, by rw [append_assoc], hmore, hsane', ?_, ?_, hrest⟩
      · simp only [length_append]
        omega
      · simp only [length_append]
        omega
  · obtain rfl : more = [] := (append_eq_nil_iff.mp hbytes.symm).1
    rw [length_nil] at hlength
    omega

theorem headLength_image {n : ℕ} (hn : n < 2 ^ 31) : headLength order (order.image 4 n) = n := by
  rw [headLength, order.value_image, BitVec.toInt_eq_toNat_cond, BitVec.toNat_ofNat,
    Nat.mod_eq_of_lt (show n < 256 ^ 4 by omega)]
  omega

theorem serve_head {body : List UInt8} (provided : Pooled order)
    (hexecutor : s.hasExecutor = true) (hopen : s.isOpen = true)
    (hdone : List.Forall₂ Holds s.executed done) (hcontext : s.requestContext = none)
    (hshort : body.length ≤ 2 ^ 28)
    (hbytes : bytes s.arrivals = (body :: rest).flatMap (frame order)) :
    ∃ s', s.read provided.buffer = .ok s' ∧ s'.Serving order (done ++ body :: rest) ∧
      s'.backlog < weight s.arrivals := by
  rw [flatMap_cons, frame, append_assoc, cons_append] at hbytes
  obtain ⟨b, as, hb, hbsized, has, hweight, hhead⟩ :=
    readHead_eq provided (order.length_image 4 body.length) hbytes
  rw [if_neg (not_not.mpr rfl), headLength_image (by omega)] at hhead
  have hsane : IcmContext.Sane ⟨b, body.length, 0⟩ [] :=
    ⟨hb, hbsized, by simp only; omega, by simp only; omega, by simp only; omega,
      by simp only; omega⟩
  have hlength : (IcmContext.mk b body.length 0).length = ([] ++ body).length := rfl
  obtain ⟨s', hread, hserving, hbacklog, -⟩ :=
    serve_body hexecutor hopen hdone hsane hlength rfl hshort has
  refine ⟨s', ?_, hserving, ?_⟩
  · simp only [read, hcontext, hhead, bind, Except.bind, hread]
  · rw [messageHeadSize] at hweight
    omega

theorem frame_ne_nil (body : List UInt8) : frame order body ≠ [] := by
  simp [frame]

variable {bodies : List (List UInt8)}

theorem eq_nil_of_flatMap_frame
    (h : bodies.flatMap (frame order) = []) : bodies = [] := by
  cases bodies with
  | nil => rfl
  | cons body bodies => exact absurd (append_eq_nil_iff.mp h).1 (frame_ne_nil body)

theorem Awaits.eq_nil (h : s.Awaits order bodies)
    (hbytes : bytes s.arrivals = []) : s.requestContext = none ∧ bodies = [] := by
  unfold Awaits at h
  split at h
  · exact ⟨by assumption, eq_nil_of_flatMap_frame (h.symm.trans hbytes)⟩
  · obtain ⟨got, more, rest, -, hmore, -, -, -, hmore'⟩ := h
    exact absurd (append_eq_nil_iff.mp (hmore'.symm.trans hbytes)).1 hmore

theorem serve_end (provided : Pooled order)
    (hexecutor : s.hasExecutor = true) (hopen : s.isOpen = true)
    (hdone : List.Forall₂ Holds s.executed done) (hawaits : s.Awaits order rest)
    (harrivals : s.arrivals = []) :
    ∃ s', s.select provided = .ok s' ∧ s'.Serving order (done ++ rest) ∧
      s'.backlog ≤ s.backlog - 1 := by
  have hnothing : bytes s.arrivals = [] := by rw [harrivals]; rfl
  obtain ⟨hcontext, rfl⟩ := hawaits.eq_nil hnothing
  by_cases hending : s.ending = .pending
  · refine ⟨s, ?_, ⟨hexecutor, done, [], rfl, hdone, ?_⟩, ?_⟩
    · simp only [Inbound.select, hopen, harrivals, hending, ↓reduceIte]
    · rw [if_pos hopen]
      exact hawaits
    · simp only [backlog, hopen, harrivals, ↓reduceIte, weight]
      omega
  · have hhead := readHead_of_lt provided (by rw [hnothing]; decide) hending
    refine ⟨{ s with requestContext := none, isOpen := false }, ?_,
      ⟨hexecutor, done, [], rfl, hdone, rfl⟩, Nat.zero_le _⟩
    rw [select_eq_read provided hopen (by simp [harrivals]) (Or.inr hending)]
    simp only [read, hcontext, hhead, bind, Except.bind]

section

variable (hshort : ∀ body ∈ bodies, body.length ≤ 2 ^ 28) (h : s.Serving order bodies)
include hshort h

theorem Serving.select (provided : Pooled order) :
    ∃ s', s.select provided = .ok s' ∧ s'.Serving order bodies ∧ s'.backlog ≤ s.backlog - 1 := by
  obtain ⟨hexecutor, done, rest, rfl, hdone, hawaits⟩ := h
  by_cases hopen : s.isOpen = true
  swap
  · have hclosed : s.isOpen = false := by simpa using hopen
    refine ⟨s, by simp only [Inbound.select, hclosed, Bool.false_eq_true, ↓reduceIte],
      ⟨hexecutor, done, rest, rfl, hdone, hawaits⟩, ?_⟩
    rw [backlog, if_neg hopen]
  have hserving := hawaits
  rw [if_pos hopen] at hserving
  rcases harrivals : s.arrivals with _ | ⟨⟨x, xs⟩ | _, as⟩
  · exact serve_end provided hexecutor hopen hdone hserving harrivals
  · have hbacklog : s.backlog = weight s.arrivals := if_pos hopen
    rw [select_eq_read provided hopen (by simp [harrivals]) (by simp [harrivals]), hbacklog]
    cases hcontext : s.requestContext with
    | none =>
      rw [Awaits, hcontext] at hserving
      obtain ⟨body, rest, rfl⟩ : ∃ body rest', rest = body :: rest' := by
        refine exists_cons_of_ne_nil fun hnil => ?_
        rw [hnil, harrivals] at hserving
        cases hserving
      obtain ⟨s', hread, hserving', hless⟩ := serve_head provided hexecutor hopen hdone hcontext
        (hshort body (by simp)) hserving
      exact ⟨s', hread, hserving', by omega⟩
    | some context =>
      rw [Awaits, hcontext] at hserving
      obtain ⟨got, more, rest, rfl, hmore, hsane, hlength, hcurrent, hbytes⟩ := hserving
      obtain ⟨s', hread, hserving', -, hless⟩ := serve_body hexecutor hopen hdone hsane hlength
        hcurrent (hshort (got ++ more) (by simp)) hbytes
      refine ⟨s', ?_, hserving', ?_⟩
      · simp only [read, hcontext, hread]
      · have := hless x xs as harrivals hmore
        omega
  · -- nothing to read yet
    refine ⟨{ s with arrivals := as }, ?_, ⟨hexecutor, done, rest, rfl, hdone, ?_⟩, ?_⟩
    · simp only [Inbound.select, hopen, harrivals, ↓reduceIte]
    · rw [if_pos hopen]
      rw [Awaits, harrivals] at hserving
      exact hserving
    · simp only [backlog, hopen, harrivals, ↓reduceIte, weight]
      omega

theorem Serving.run (es : List (Pooled order)) :
    ∃ s', runSteps Inbound.select s es = .ok s' ∧ s'.Serving order bodies ∧
      s'.backlog ≤ s.backlog - es.length := by
  induction es generalizing s with
  | nil => exact ⟨s, rfl, h, le_rfl⟩
  | cons e es ih =>
    obtain ⟨s₁, hselect, h₁, hless₁⟩ := h.select hshort e
    obtain ⟨s', hrun, h', hless'⟩ := ih h₁
    refine ⟨s', runSteps_cons_eq_ok.mpr ⟨s₁, hselect, hrun⟩, h', ?_⟩
    rw [length_cons]
    omega

end

end Serve

/-- **The requests that the executor gets.** -/
theorem executes (order : ByteOrder) (bodies : List (List UInt8))
    (hshort : ∀ body ∈ bodies, body.length ≤ 2 ^ 28) (arrivals : List Arrival)
    (harrivals : bytes arrivals = bodies.flatMap (frame order)) (ending : Ending)
    (es : List (Pooled order)) :
    ∃ s, runSteps select (new arrivals ending true) es = .ok s ∧
      ∃ done rest, bodies = done ++ rest ∧ List.Forall₂ Holds s.executed done ∧
        (weight arrivals ≤ es.length → rest = []) := by
  have hnew : (new arrivals ending true).Serving order bodies :=
    ⟨rfl, [], bodies, rfl, .nil, harrivals⟩
  obtain ⟨s, hrun, ⟨-, done, rest, hbodies, hdone, hawaits⟩, hbacklog⟩ := hnew.run hshort es
  refine ⟨s, hrun, done, rest, hbodies, hdone, fun hlong => ?_⟩
  have hzero : s.backlog = 0 := by
    have hstart : (new arrivals ending true).backlog = weight arrivals := rfl
    omega
  by_cases hopen : s.isOpen = true
  · rw [if_pos hopen] at hawaits
    rw [backlog, if_pos hopen] at hzero
    exact (hawaits.eq_nil (bytes_eq_nil_of_weight hzero)).2
  · rwa [if_neg hopen] at hawaits

theorem executes_two_requests :
    ∃ s, runSteps select
        (new [.segment 0 [0, 0], .pause, .segment 1 [0, 7, 0], .segment 0 [0, 0, 0]] .eof true)
        (replicate 12 (CachedBufferProvider.mk 20 .big []).getBuffer.1) = .ok s ∧
      List.Forall₂ Holds s.executed [[7], []] := by
  obtain ⟨s, hrun, done, rest, hbodies, hdone, hrest⟩ := executes .big [[7], []] (by decide)
    [.segment 0 [0, 0], .pause, .segment 1 [0, 7, 0], .segment 0 [0, 0, 0]] (by decide) .eof
    (replicate 12 (CachedBufferProvider.mk 20 .big []).getBuffer.1)
  rw [hrest (by decide), append_nil] at hbodies
  exact ⟨s, hrun, hbodies ▸ hdone⟩

end Inbound

end Icm.Java
