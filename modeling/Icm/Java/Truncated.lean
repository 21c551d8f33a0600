import Icm.Java.Codec

/-!
# Reading a truncated value

What `BufferReader` makes of a buffer whose limit cuts the encoding of a value, while the array
behind the limit still holds the bytes of an earlier use.
-/

namespace Icm.Java

open Icm.Lib Icm.Stream List

def Put.Wide : Put → Prop
  | .long _ | .double _ => True
  | _ => False

instance : DecidablePred Put.Wide
  | .long _ | .double _ => .isTrue trivial
  | .byte _ | .short _ | .int _ | .char _ | .float _ | .bytes _ => .isFalse not_false

def span (ps : List Put) : ℕ := (ps.map Put.size).sum

def beyond : List Put → ℕ → List Put
  | [], _ => []
  | p :: ps, m => (if p.size ≤ m then [] else [p]) ++ beyond ps (m - p.size)

def Readable : List Put → ℕ → ℕ → Prop
  | [], _, _ => True
  | p :: ps, m, room =>
    (p.size ≤ m ∨ p.Wide ∧ p.size ≤ room) ∧ Readable ps (m - p.size) (room - p.size)

theorem span_cons (p : Put) (ps : List Put) : span (p :: ps) = p.size + span ps := rfl

theorem span_append (ps qs : List Put) : span (ps ++ qs) = span ps + span qs := by
  rw [span, map_append, sum_append]
  rfl

theorem length_flatMap_encode (order : ByteOrder) (ps : List Put) :
    (ps.flatMap (Put.encode order)).length = span ps := by
  induction ps with
  | nil => rfl
  | cons p ps ih => rw [flatMap_cons, length_append, ih, p.length_encode, span_cons]

theorem readable_append {ps qs : List Put} {m room : ℕ} :
    Readable (ps ++ qs) m room ↔
      Readable ps m room ∧ Readable qs (m - span ps) (room - span ps) := by
  induction ps generalizing m room with
  | nil => exact (true_and _).to_iff.symm
  | cons p ps ih =>
    rw [cons_append, Readable, Readable, ih, span_cons, Nat.sub_sub, Nat.sub_sub, and_assoc]

theorem readable_iff {ps : List Put} {m room : ℕ} (hm : m ≤ room) :
    Readable ps m room ↔ (∀ p ∈ beyond ps m, p.Wide) ∧ span ps ≤ room := by
  induction ps generalizing m room with
  | nil => simp [Readable, beyond, span]
  | cons p ps ih =>
    rw [Readable, ih (Nat.sub_le_sub_right hm _), beyond, span_cons]
    by_cases hp : p.size ≤ m
    · rw [if_pos hp, nil_append]
      have hroom : span ps ≤ room - p.size ↔ p.size + span ps ≤ room := by omega
      simp only [hp, true_or, true_and, hroom]
    · rw [if_neg hp, singleton_append, forall_mem_cons]
      have hroom : p.size ≤ room ∧ span ps ≤ room - p.size ↔ p.size + span ps ≤ room := by omega
      rw [← hroom]
      tauto

def Agree (as bs : List UInt8) : Prop := ∃ cs ds, as ++ cs = bs ++ ds

namespace Agree

variable {as bs cs : List UInt8}

theorem of_isPrefix (h : as <+: bs) : Agree as bs := by
  obtain ⟨cs, rfl⟩ := h
  exact ⟨cs, [], (append_nil _).symm⟩

theorem left (h : Agree as (bs ++ cs)) : Agree as bs := by
  obtain ⟨ds, es, h⟩ := h
  exact ⟨ds, cs ++ es, by rw [h, append_assoc]⟩

theorem eq_append_drop (h : Agree as bs) (hle : bs.length ≤ as.length) :
    as = bs ++ as.drop bs.length := by
  obtain ⟨cs, ds, h⟩ := h
  have htake := congrArg (take bs.length) h
  rw [take_append_of_le_length hle, take_left] at htake
  conv_lhs => rw [← take_append_drop bs.length as, htake]

theorem drop (h : Agree as (bs ++ cs)) : Agree (as.drop bs.length) cs := by
  rcases Nat.le_total bs.length as.length with hle | hle
  · obtain ⟨ds, es, hds⟩ := h
    refine ⟨ds, es, ?_⟩
    have hdrop := congrArg (List.drop bs.length) hds
    rwa [List.drop_append_of_le_length hle, List.append_assoc, List.drop_left] at hdrop
  · rw [drop_of_length_le hle]
    exact ⟨cs, [], (append_nil _).symm⟩

end Agree

namespace Buffer

def ahead (b : Buffer) : List UInt8 := (b.data.take b.limit).drop b.position

def room (b : Buffer) : ℕ := b.data.length - b.position

structure Moved (b : Buffer) (n : ℕ) (b' : Buffer) : Prop where
  position_eq : b'.position = b.position + n
  limit_eq : b'.limit = b.limit
  data_eq : b'.data = b.data
  order_eq : b'.order = b.order

theorem length_ahead (b : Buffer) : b.ahead.length = b.limit - b.position := by
  rw [ahead, length_drop, length_take, Nat.min_eq_left b.limit_le]

theorem length_ahead_le (b : Buffer) : b.ahead.length ≤ b.room := by
  rw [length_ahead, room]
  have := b.limit_le
  omega

theorem reading_ahead {b : Buffer} (h : b.position ≤ b.limit) : b.Reading b.ahead := ⟨rfl, h⟩

namespace Moved

variable {b b' b'' : Buffer} {m n : ℕ}

theorem advance (h : b.position + n ≤ b.data.length) : b.Moved n (b.advance n h) :=
  ⟨rfl, rfl, rfl, rfl⟩

theorem refl (b : Buffer) : b.Moved 0 b := ⟨rfl, rfl, rfl, rfl⟩

theorem trans (h : b.Moved m b') (h' : b'.Moved n b'') : b.Moved (m + n) b'' :=
  ⟨by rw [h'.position_eq, h.position_eq, Nat.add_assoc], h'.limit_eq.trans h.limit_eq,
    h'.data_eq.trans h.data_eq, h'.order_eq.trans h.order_eq⟩

theorem ahead_eq (h : b.Moved n b') : b'.ahead = b.ahead.drop n := by
  rw [ahead, ahead, h.position_eq, h.limit_eq, h.data_eq, drop_drop]

theorem length_ahead_eq (h : b.Moved n b') : b'.ahead.length = b.ahead.length - n := by
  rw [h.ahead_eq, length_drop]

theorem room_eq (h : b.Moved n b') : b'.room = b.room - n := by
  rw [room, room, h.position_eq, h.data_eq, Nat.sub_sub]

end Moved

variable {α β : Type} {b : Buffer}

def Outcome (b : Buffer) (ps : List Put) (r : Except Abrupt (α × Buffer)) : Prop :=
  (Readable ps b.ahead.length b.room → ∃ y b', r = .ok (y, b') ∧ b.Moved (span ps) b') ∧
    (¬ Readable ps b.ahead.length b.room → ∃ e, r = .error e)

namespace Outcome

variable {ps qs : List Put} {r : Except Abrupt (α × Buffer)}

theorem pure (y : α) (b : Buffer) : b.Outcome [] (.ok (y, b)) :=
  ⟨fun _ => ⟨y, b, rfl, .refl b⟩, fun h => absurd trivial h⟩

theorem bind {f : α × Buffer → Except Abrupt (β × Buffer)} (h : b.Outcome ps r)
    (hf : ∀ y b', r = .ok (y, b') → b.Moved (span ps) b' → b'.Outcome qs (f (y, b'))) :
    b.Outcome (ps ++ qs) (r >>= f) := by
  by_cases hps : Readable ps b.ahead.length b.room
  · obtain ⟨y, b₁, rfl, hmoved⟩ := h.1 hps
    obtain ⟨hok, herror⟩ := hf y b₁ rfl hmoved
    rw [hmoved.length_ahead_eq, hmoved.room_eq] at hok herror
    refine ⟨fun hall => ?_, fun hall => herror fun hqs => hall (readable_append.mpr ⟨hps, hqs⟩)⟩
    obtain ⟨z, b₂, hread, hmoved'⟩ := hok (readable_append.mp hall).2
    exact ⟨z, b₂, hread, span_append ps qs ▸ hmoved.trans hmoved'⟩
  · obtain ⟨e, rfl⟩ := h.2 hps
    exact ⟨fun hall => absurd (readable_append.mp hall).1 hps, fun _ => ⟨e, rfl⟩⟩

theorem map (f : α → β) (h : b.Outcome ps r) :
    b.Outcome ps (r >>= fun y => .ok (f y.1, y.2)) := by
  have hbind : b.Outcome (ps ++ []) (r >>= fun y => .ok (f y.1, y.2)) :=
    h.bind fun y b' _ _ => pure (f y) b'
  rwa [append_nil] at hbind

theorem cons_of_size_eq_zero {p : Put} (hp : p.size = 0) (h : b.Outcome ps r) :
    b.Outcome (p :: ps) r := by
  simpa [Outcome, Readable, span_cons, hp] using h

theorem error_iff (h : b.Outcome ps r) :
    (∃ e, r = .error e) ↔ ¬ Readable ps b.ahead.length b.room := by
  refine ⟨fun ⟨e, he⟩ hps => ?_, h.2⟩
  obtain ⟨y, b', hr, -⟩ := h.1 hps
  rw [he] at hr
  cases hr

end Outcome

theorem nexts_of_le {n : ℕ} (h : b.position + n ≤ b.data.length) :
    ∃ bs b', b.nexts n = .ok (bs, b') ∧ b.Moved n b' := by
  induction n generalizing b with
  | zero => exact ⟨[], b, rfl, .refl b⟩
  | succ n ih =>
    have hlt : b.position < b.data.length := by omega
    have hmoved : b.Moved 1 (b.advance 1 hlt) := .advance hlt
    obtain ⟨bs, b', hnexts, hmoved'⟩ := ih (b := b.advance 1 hlt)
      (by rw [hmoved.position_eq, hmoved.data_eq]; omega)
    have hnext : b.next = .ok (b.data[b.position], b.advance 1 hlt) := dif_pos hlt
    refine ⟨b.data[b.position] :: bs, b', ?_, Nat.add_comm 1 n ▸ hmoved.trans hmoved'⟩
    exact bind_eq_ok.mpr ⟨_, hnext, bind_eq_ok.mpr ⟨_, hnexts, rfl⟩⟩

theorem nexts_of_lt {n : ℕ} (h : b.data.length < b.position + n) :
    ∃ e, b.nexts n = .error e := by
  induction n generalizing b with
  | zero =>
    have := b.position_le
    omega
  | succ n ih =>
    rw [nexts]
    by_cases hlt : b.position < b.data.length
    · obtain ⟨e, he⟩ := ih (b := b.advance 1 hlt)
        (by change b.data.length < b.position + 1 + n; omega)
      rw [show b.next = .ok (b.data[b.position], b.advance 1 hlt) from dif_pos hlt]
      exact ⟨e, by simp only [bind, Except.bind, he]⟩
    · rw [show b.next = .error .arrayIndexOutOfBounds from dif_neg hlt]
      exact ⟨_, rfl⟩

variable {p : Put}

theorem outcome_of_checked (hp : ¬ p.Wide) {r : Except Abrupt (α × Buffer)}
    (hok : p.size ≤ b.ahead.length → ∃ y b', r = .ok (y, b') ∧ b.Moved p.size b')
    (herror : b.ahead.length < p.size → ∃ e, r = .error e) : b.Outcome [p] r := by
  have hread : Readable [p] b.ahead.length b.room ↔ p.size ≤ b.ahead.length := by
    simp [Readable, hp]
  rw [Outcome, hread, not_le]
  exact ⟨hok, herror⟩

theorem get_outcome (x : UInt8) : b.Outcome [.byte x] b.get := by
  have hlen := b.length_ahead
  have hsize : (Put.byte x).size = 1 := rfl
  refine outcome_of_checked (p := .byte x) not_false (fun hle => ?_)
    fun hlt => ⟨_, if_pos (by omega)⟩
  have hlimit := b.limit_le
  have hdata : b.position < b.data.length := by omega
  refine ⟨b.data[b.position], b.advance 1 hdata, ?_, .advance hdata⟩
  rw [Buffer.get, if_neg (by omega), next, dif_pos hdata]

theorem word_outcome (hp : ¬ p.Wide) (hpos : 0 < p.size) (f : List UInt8 → α) :
    b.Outcome [p] (if b.remaining < p.size then .error .bufferUnderflow
      else b.nexts p.size >>= fun r => .ok (f r.1, r.2)) := by
  have hlen := b.length_ahead
  have hlimit := b.limit_le
  refine outcome_of_checked hp (fun hle => ?_)
    fun hlt => ⟨_, if_pos (by rw [remaining]; omega)⟩
  obtain ⟨bs, b', hnexts, hmoved⟩ := b.nexts_of_le (n := p.size) (by omega)
  rw [if_neg (by rw [remaining]; omega), hnexts]
  exact ⟨f bs, b', rfl, hmoved⟩

theorem getShort_outcome (hp : ¬ p.Wide) (hsize : p.size = 2) :
    b.Outcome [p] b.getShort := by
  have h := b.word_outcome hp (by omega) fun bs => shortOf (inOrder b.order bs)
  rwa [hsize] at h

theorem getInt_outcome (hp : ¬ p.Wide) (hsize : p.size = 4) :
    b.Outcome [p] b.getInt := by
  have h := b.word_outcome hp (by omega) fun bs => intOf (inOrder b.order bs)
  rwa [hsize] at h

theorem getLong_outcome (hp : p.Wide) (hsize : p.size = 8) :
    b.Outcome [p] b.getLong := by
  have hle := b.length_ahead_le
  have hposition := b.position_le
  have hread : Readable [p] b.ahead.length b.room ↔ b.position + 8 ≤ b.data.length := by
    simp only [Readable, hp, hsize, true_and, and_true]
    rw [room] at hle ⊢
    omega
  rw [Outcome, hread, not_le]
  refine ⟨fun h => ?_, fun h => ?_⟩
  · obtain ⟨bs, b', hnexts, hmoved⟩ := nexts_of_le h
    refine ⟨_, b', bind_eq_ok.mpr ⟨_, hnexts, rfl⟩, ?_⟩
    rwa [span_cons, hsize]
  · obtain ⟨e, he⟩ := nexts_of_lt h
    exact ⟨e, by simp only [getLong, he, Bind.bind, Except.bind]⟩

theorem getArray_of_position_le (dst : List UInt8) (hne : dst.length ≠ 0)
    (hle : b.position ≤ b.limit) :
    ∃ data b', b.getArray dst = .ok (data, b') ∧
      b.Moved (min dst.length (b.limit - b.position)) b' := by
  rw [getArray, if_neg hne, if_neg (not_lt.mpr hle)]
  exact ⟨_, _, rfl, .advance _⟩

theorem eq_of_getInt {x y : BitVec 32} {b' : Buffer} (h : Agree b.ahead (b.order.image 4 x.toNat))
    (hget : b.getInt = .ok (y, b')) : y = x ∧ b'.position ≤ b'.limit := by
  have hle : ¬ b.remaining < 4 := by
    intro hlt
    rw [getInt, if_pos hlt] at hget
    cases hget
  rw [remaining] at hle
  have hbytes := h.eq_append_drop (by rw [ByteOrder.length_image, length_ahead]; omega)
  have hreading : b.Reading b.ahead := reading_ahead (by omega)
  rw [hbytes] at hreading
  obtain ⟨b₁, hget₁, h₁, -⟩ := hreading.getInt
  obtain ⟨rfl, rfl⟩ := Prod.mk.inj (Except.ok.inj (hget.symm.trans hget₁))
  exact ⟨rfl, h₁.position_le⟩

end Buffer

namespace BufferReader

open Buffer

variable (cs : Charset)

def parts : (t : JType) → t.Val → List Put
  | .byte, x => [.byte x]
  | .short, x => [.short x]
  | .int, x => [.int x]
  | .long, x => [.long x]
  | .boolean, (x : Bool) => [.byte (if x then 1 else 0)]
  | .char, x => [.char x]
  | .float, x => [.float x]
  | .double, x => [.double x]
  | .string, x => [.int (BitVec.ofNat 32 ((cs.encode x).length + 1)), .bytes (cs.encode x), .byte 0]
  | .seq _ t, (xs : List t.Val) => .int (BitVec.ofNat 32 xs.length) :: xs.flatMap (parts t)
  | .unit, _ => []
  | .pair s t, (x : s.Val × t.Val) => parts s x.1 ++ parts t x.2

def encoding (order : ByteOrder) (t : JType) (x : t.Val) : List UInt8 :=
  (parts cs t x).flatMap (Put.encode order)

def Counted : (t : JType) → t.Val → Prop
  | .string, x => (cs.encode x).length < 2 ^ 31
  | .seq _ t, (xs : List t.Val) => xs.length < 2 ^ 31 ∧ ∀ x ∈ xs, Counted t x
  | .pair s t, (x : s.Val × t.Val) => Counted s x.1 ∧ Counted t x.2
  | _, _ => True

variable {cs}

variable {b : Buffer}

theorem getArray_outcome {as : List UInt8} (hne : as ≠ [])
    (hle : b.position ≤ b.limit) :
    b.Outcome [.bytes as, .byte 0] (do
      let data ← b.getArray (replicate as.length 0)
      let last ← data.2.get
      return (cs.decode data.1, last.2)) := by
  have hpos := length_pos_iff.mpr hne
  have hlen := b.length_ahead
  have hreplicate : (replicate as.length (0 : UInt8)).length = as.length :=
    length_replicate
  have hlimit := b.limit_le
  obtain ⟨data, b₁, harray, hmoved⟩ :=
    getArray_of_position_le (replicate as.length 0) (by omega) hle
  rw [hreplicate] at hmoved
  rw [harray]
  by_cases hall : as.length ≤ b.ahead.length
  · have hbytes : b.Outcome [.bytes as] (.ok (data, b₁)) := by
      refine outcome_of_checked (p := .bytes as) not_false (fun _ => ⟨data, b₁, rfl, ?_⟩)
        fun hlt => ?_
      · rwa [Nat.min_eq_left (by omega)] at hmoved
      · exact absurd hall (not_le.mpr hlt)
    exact hbytes.bind fun y b' _ _ => (get_outcome 0).map fun _ => cs.decode y
  · refine ⟨fun hread => absurd hread.1 (by simp [Put.Wide, Put.size, hall]), fun _ => ?_⟩
    have hend : b₁.limit ≤ b₁.position := by
      rw [hmoved.limit_eq, hmoved.position_eq]
      omega
    exact ⟨.bufferUnderflow, by
      simp only [Bind.bind, Except.bind, Buffer.get, if_pos hend]⟩

theorem readString_outcome {x : JString} (hx : (cs.encode x).length < 2 ^ 31)
    (h : Agree b.ahead (encoding cs b.order .string x)) :
    b.Outcome (parts cs .string x) (readString cs b) := by
  obtain ⟨htoNat, htoInt⟩ := ofNat_succ_sub_one hx
  refine (getInt_outcome (p := .int _) not_false rfl).bind fun y b₁ hget hmoved => ?_
  obtain ⟨rfl, hle⟩ := eq_of_getInt (x := BitVec.ofNat 32 ((cs.encode x).length + 1)) h.left hget
  by_cases hnil : cs.encode x = []
  · have hone : BitVec.ofNat 32 ((cs.encode x).length + 1) = 1 := by rw [hnil]; rfl
    rw [if_pos hone]
    refine Outcome.cons_of_size_eq_zero (by rw [hnil]; rfl) ?_
    exact (get_outcome 0).map fun _ => JString.empty
  · have hpos := length_pos_iff.mpr hnil
    rw [if_neg (by rw [ofNat_succ_eq_one_iff hx]; omega), if_neg (by rw [htoInt]; omega), htoNat]
    exact getArray_outcome hnil hle

theorem readElements_outcome {α : Type} {element : Buffer → Except Abrupt (α × Buffer)}
    {ps : α → List Put} {xs : List α} {order : ByteOrder}
    (helement : ∀ x ∈ xs, ∀ {b : Buffer}, b.order = order →
      Agree b.ahead ((ps x).flatMap (Put.encode order)) → b.Outcome (ps x) (element b))
    (horder : b.order = order)
    (h : Agree b.ahead ((xs.flatMap ps).flatMap (Put.encode order))) :
    b.Outcome (xs.flatMap ps) (readElements element xs.length b) := by
  induction xs generalizing b with
  | nil => exact .pure [] b
  | cons x xs ih =>
    obtain ⟨hx, hxs⟩ := forall_mem_cons.mp helement
    rw [flatMap_cons, flatMap_append] at h
    rw [flatMap_cons]
    refine (hx horder h.left).bind fun y b₁ _ hmoved => ?_
    refine (ih hxs (hmoved.order_eq.trans horder) ?_).map fun ys => y :: ys
    rw [hmoved.ahead_eq, ← length_flatMap_encode order]
    exact h.drop

theorem readObject_outcome {t : JType} {x : t.Val} (hx : Counted cs t x)
    {order : ByteOrder} (horder : b.order = order) (h : Agree b.ahead (encoding cs order t x)) :
    b.Outcome (parts cs t x) (readObject cs t b) := by
  induction t generalizing b with
  | byte => exact get_outcome x
  | short | char => exact getShort_outcome not_false rfl
  | int | float => exact getInt_outcome not_false rfl
  | long | double => exact getLong_outcome trivial rfl
  | boolean => exact (get_outcome _).map fun y => y == 1
  | string => exact readString_outcome hx (horder ▸ h)
  | seq c t ih =>
    obtain ⟨hlt, hxs⟩ := hx
    obtain ⟨xs, rfl⟩ : ∃ xs : List t.Val, xs = x := ⟨x, rfl⟩
    subst horder
    have hsize : (BitVec.ofNat 32 xs.length).toNat = xs.length := by
      rw [BitVec.toNat_ofNat, Nat.mod_eq_of_lt (by omega)]
    have hnonneg : ¬ (BitVec.ofNat 32 xs.length).toInt < 0 := by
      rw [BitVec.toInt_eq_toNat_cond, hsize]
      omega
    refine (getInt_outcome (p := .int _) not_false rfl).bind fun y b₁ hget hmoved => ?_
    obtain ⟨rfl, -⟩ := eq_of_getInt (x := BitVec.ofNat 32 xs.length) h.left hget
    rw [if_neg hnonneg, hsize]
    refine readElements_outcome (fun y hy b hb hbs => ih (hxs y hy) hb hbs) hmoved.order_eq ?_
    rw [encoding, parts, flatMap_cons] at h
    rw [hmoved.ahead_eq, ← length_flatMap_encode b.order, flatMap_singleton]
    exact h.drop
  | unit => exact .pure () b
  | pair s t ihs iht =>
    rw [encoding, parts, flatMap_append] at h
    refine (ihs hx.1 horder h.left).bind fun y b₁ _ hmoved => ?_
    refine (iht hx.2 (hmoved.order_eq.trans horder) ?_).map fun z => (y, z)
    rw [hmoved.ahead_eq, ← length_flatMap_encode order]
    exact h.drop

/-- **When a truncated value is refused.** -/
theorem readObject_cut_iff (cs : Charset) (t : JType) (x : t.Val) (hx : Counted cs t x)
    (b : Buffer) (bs : List UInt8) (hcut : bs <+: encoding cs b.order t x) (hb : b.Reading bs) :
    (∃ e, readObject cs t b = .error e) ↔
      (∃ p ∈ beyond (parts cs t x) bs.length, ¬ p.Wide) ∨
        b.data.length < b.position + (encoding cs b.order t x).length := by
  have hahead : b.ahead = bs := hb.ahead
  have hroom : span (parts cs t x) ≤ b.room ↔
      ¬ b.data.length < b.position + (encoding cs b.order t x).length := by
    have := b.position_le
    rw [encoding, length_flatMap_encode, room]
    omega
  rw [(readObject_outcome hx rfl (hahead ▸ .of_isPrefix hcut)).error_iff,
    readable_iff b.length_ahead_le, hahead, hroom, not_and_or, not_not]
  simp only [not_forall, exists_prop]

theorem readObject_cut_pojo :
    ∃ e, readObject utf8 (.pojo [.long, .int])
      { Buffer.allocate 16 (by decide) .big with limit := 4, limit_le := by decide } = .error e :=
  (readObject_cut_iff utf8 (.pojo [.long, .int]) ((1 : BitVec 64), (2 : BitVec 32), ())
    ⟨trivial, trivial, trivial⟩ _ [0, 0, 0, 0] ⟨[0, 0, 0, 1, 0, 0, 0, 2], by decide⟩
    ⟨by decide, by decide⟩).mpr (.inl ⟨.int 2, by decide, by decide⟩)

def staleBuffer : Buffer where
  data := [0, 0, 0, 0, 0, 0, 0, 7]
  limit := 4
  position := 0
  mark := none
  order := .big
  size_lt := by decide
  limit_le := by decide
  position_le := by decide
  mark_le := by simp

theorem readObject_long_beyond_limit :
    Counted utf8 .long (1 : BitVec 64) ∧ staleBuffer.Reading [0, 0, 0, 0] ∧
      [0, 0, 0, 0] <+: encoding utf8 staleBuffer.order .long (1 : BitVec 64) ∧
      [0, 0, 0, 0] ≠ encoding utf8 staleBuffer.order .long (1 : BitVec 64) ∧
      ∃ b', readObject utf8 .long staleBuffer = .ok ((7 : BitVec 64), b') :=
  ⟨trivial, ⟨by decide, by decide⟩, ⟨[0, 0, 0, 1], by decide⟩, by decide, _, rfl⟩

end BufferReader

end Icm.Java
