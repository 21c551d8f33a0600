import Icm.Stream.Growth

/-!
# The chain of blocks of an output stream

Every writer of an output stream comes down to four private ones: `write_1`, the writers of words of
two to sixteen bytes, these with the byte swap turned off, and `write_array`.
-/

namespace Icm.Stream

open Icm.Lib List OutputStream

/-- A write: of an octet, of a word as it is in memory, swapped as the stream does or not at all, or
of an array of words of one size. -/
inductive Put
  | octet (x : UInt8)
  | word (x : List UInt8)
  | unswapped (x : List UInt8)
  | array (size : ℕ) (xs : List (List UInt8)) (h : ∀ x ∈ xs, x.length = size)

namespace Put

def length : Put → ℕ
  | octet _ => 1
  | word x => x.length
  | unswapped x => x.length
  | array size xs _ => size * xs.length

def run (os : OutputStream) : Put → Option OutputStream
  | octet x => os.write1 x
  | word x => os.writeN x
  | unswapped x => os.writeUnswapped x
  | array size xs _ => os.writeArray size xs

def Leading : List Put → Prop
  | [] => False
  | p :: ps => if p.length = 0 then Leading ps else p.length ≤ defaultBufsize + maxAlignment

instance Leading.decidable : ∀ ps, Decidable (Leading ps)
  | [] => inferInstanceAs (Decidable False)
  | p :: ps =>
    have := Leading.decidable ps
    inferInstanceAs (Decidable (if p.length = 0 then Leading ps
      else p.length ≤ defaultBufsize + maxAlignment))

end Put

namespace OutputStream

def putAll : List Put → OutputStream → Option OutputStream
  | [], os => some os
  | p :: ps, os => (p.run os).bind (putAll ps)

theorem putAll_append (ps qs : List Put) (os : OutputStream) :
    putAll (ps ++ qs) os = (putAll ps os).bind (putAll qs) := by
  induction ps generalizing os with
  | nil => rfl
  | cons p ps ih =>
    rw [cons_append, putAll, putAll, Option.bind_assoc]
    exact congrArg _ (funext ih)

variable {os os' : OutputStream}

theorem run_wrote (hw : os.Wf) {p : Put} (h : p.run os = some os') :
    ∃ bs, bs.length = p.length ∧ Wrote os os' bs := by
  cases p with
  | octet x => exact ⟨[x], rfl, write1_spec hw h⟩
  | word x => exact ⟨_, length_swapCopy _ x, writeN_spec hw h⟩
  | unswapped x => exact ⟨x, rfl, writeUnswapped_spec hw h⟩
  | array size xs hxs =>
    refine ⟨_, ?_, writeArray_spec hw hxs h⟩
    rw [length_flatMap, map_congr_left fun x hx =>
      (length_swapCopy os.doByteSwap x).trans (hxs x hx)]
    simp [Put.length, Nat.mul_comm]

variable {ps : List Put}

theorem putAll_wrote (hw : os.Wf) (h : putAll ps os = some os') :
    ∃ bs, Wrote os os' bs := by
  induction ps generalizing os with
  | nil =>
    cases h
    exact ⟨[], .refl hw⟩
  | cons p ps ih =>
    obtain ⟨os₁, hrun, hrest⟩ := Option.bind_eq_some_iff.mp h
    obtain ⟨bs, -, hwrote⟩ := run_wrote hw hrun
    obtain ⟨bs', hwrote'⟩ := ih hwrote.wf hrest
    exact ⟨bs ++ bs', hwrote.trans hwrote'⟩

def Extends (os : OutputStream) (n : ℕ) (os' : OutputStream) : Prop :=
  (os.current.wrPtr + n ≤ os.current.endPtr ∧ os'.done = os.done ∧
    os'.current.size = os.current.size ∧ os'.current.endPtr = os.current.endPtr ∧
    os'.current.wrPtr = os.current.wrPtr + n) ∨
  (os.current.endPtr < os.current.wrPtr + n ∧ os'.done = os.done ++ [os.current] ∧
    newBlockSize os.current [] n ≤ maxBlockSize ∧
    os'.current.size = newBlockSize os.current [] n ∧
    os'.current.endPtr = newBlockSize os.current [] n)

theorem extends_adjust {n buf : ℕ} (hrest : os.rest = []) (h : os.adjust n = some (buf, os')) :
    Extends os n os' := by
  obtain ⟨hfit, htake⟩ | ⟨hfit, hsize, htake⟩ := adjust_cases hrest h
  · obtain ⟨-, rfl⟩ := Prod.mk.inj htake
    exact Or.inl ⟨hfit, rfl, rfl, rfl, rfl⟩
  · obtain ⟨-, rfl⟩ := Prod.mk.inj htake
    exact Or.inr ⟨hfit, rfl, hsize, rfl, rfl⟩

theorem Extends.poke {n : ℕ} (h : Extends os n os') (buf : ℕ) (bs : List UInt8) :
    Extends os n (os'.poke buf bs) := h

theorem extends_run (hrest : os.rest = []) {p : Put} (h : p.run os = some os') :
    Extends os p.length os' := by
  cases p with
  | octet x | word x =>
    obtain ⟨⟨buf, os₁⟩, hadj, h⟩ := Option.bind_eq_some_iff.mp h
    cases h
    exact (extends_adjust hrest hadj).poke buf _
  | unswapped x =>
    obtain ⟨os₂, hwrite, h⟩ := Option.bind_eq_some_iff.mp h
    cases h
    obtain ⟨⟨buf, os₁⟩, hadj, hwrite⟩ := Option.bind_eq_some_iff.mp hwrite
    cases hwrite
    have hext : Extends { os with doByteSwap := false } x.length os₁ := extends_adjust hrest hadj
    exact hext.poke buf _
  | array size xs hxs =>
    obtain ⟨⟨buf, os₁⟩, hadj, h⟩ := Option.bind_eq_some_iff.mp h
    cases h
    rw [copyElems_eq xs hxs]
    exact (extends_adjust hrest hadj).poke buf _

theorem putAll_invariant {I : OutputStream → Prop}
    (hI : ∀ {os n os'}, I os → Extends os n os' → I os') (h : I os) (hw : os.Wf)
    (hps : putAll ps os = some os') : I os' := by
  induction ps generalizing os with
  | nil =>
    cases hps
    exact h
  | cons p ps ih =>
    obtain ⟨os₁, hrun, hrest⟩ := Option.bind_eq_some_iff.mp hps
    obtain ⟨bs, -, hwrote⟩ := run_wrote hw hrun
    exact ih (hI h (extends_run hw.rest_nil hrun)) hwrote.wf hrest

structure Summed (os : OutputStream) : Prop where
  end_eq : os.current.endPtr = os.current.size
  sizes : (os.done = [] ∧ os.current.size = defaultBufsize + maxAlignment) ∨
    (ScheduleSize os.current.size ∧
      (os.done.map MessageBlock.endPtr).sum + 504 ≤ os.current.size)

theorem create_summed (host : ByteOrder) (heap : ℕ → Chunk) : (create host heap).Summed :=
  ⟨rfl, Or.inl ⟨rfl, rfl⟩⟩

variable {mb : MessageBlock} {n : ℕ}

theorem newBlockSize_eq_two_pow
    (hle : newBlockSize mb [] n ≤ maxBlockSize) : ∃ k, newBlockSize mb [] n = 2 ^ k :=
  (scheduleSize_nextSize _).eq_two_pow
    (lt_of_le_of_lt hle (by decide) : newBlockSize mb [] n < 2 * linearGrowthChunk)

theorem two_mul_le_newBlockSize (h : ScheduleSize mb.size)
    (hle : newBlockSize mb [] n ≤ maxBlockSize) : 2 * mb.size ≤ newBlockSize mb [] n := by
  have hlt := current_size_lt_newBlockSize mb n
  obtain ⟨j, hj⟩ := h.eq_two_pow (hlt.trans (lt_of_le_of_lt hle (by decide)))
  obtain ⟨k, hk⟩ := newBlockSize_eq_two_pow hle
  rw [hj, hk] at hlt
  have hjk : j < k := (Nat.pow_lt_pow_iff_right (by decide)).mp hlt
  calc 2 * mb.size = 2 ^ (j + 1) := by rw [hj, pow_succ']
    _ ≤ 2 ^ k := Nat.pow_le_pow_right (by decide) hjk
    _ = newBlockSize mb [] n := hk.symm

theorem le_newBlockSize_of_default
    (h : mb.size = defaultBufsize + maxAlignment) (hle : newBlockSize mb [] n ≤ maxBlockSize) :
    2 * defaultBufsize ≤ newBlockSize mb [] n := by
  have hlt := current_size_lt_newBlockSize mb n
  obtain ⟨k, hk⟩ := newBlockSize_eq_two_pow hle
  have hpow : 2 ^ 9 < 2 ^ k := by
    rw [hk, h] at hlt
    exact lt_of_le_of_lt (by decide) hlt
  have hexp := (Nat.pow_lt_pow_iff_right (by decide)).mp hpow
  calc 2 * defaultBufsize = 2 ^ 10 := rfl
    _ ≤ 2 ^ k := Nat.pow_le_pow_right (by decide) hexp
    _ = newBlockSize mb [] n := hk.symm

theorem Summed.extends {n : ℕ} (h : os.Summed) (hext : Extends os n os') : os'.Summed := by
  obtain ⟨-, hdone, hsize, hend, -⟩ | ⟨-, hdone, hle, hsize, hend⟩ := hext
  · refine ⟨by rw [hend, hsize, h.end_eq], ?_⟩
    rw [hdone, hsize]
    exact h.sizes
  · refine ⟨hend.trans hsize.symm, Or.inr ⟨?_, ?_⟩⟩
    · rw [hsize]
      exact scheduleSize_nextSize _
    · rw [hdone, hsize, map_append, sum_append, map_singleton, sum_singleton,
        h.end_eq]
      obtain ⟨hnil, hdefault⟩ | ⟨hschedule, hsum⟩ := h.sizes
      · have hnew := le_newBlockSize_of_default hdefault hle
        rw [hnil, hdefault, map_nil, sum_nil]
        exact le_trans (by decide) hnew
      · have hnew := two_mul_le_newBlockSize hschedule hle
        omega

theorem Summed.putAll (h : os.Summed) (hw : os.Wf)
    (hps : putAll ps os = some os') : os'.Summed :=
  putAll_invariant Summed.extends h hw hps

theorem totalLength_le (hw : os.Wf) (h : os.Summed) : os.totalLength ≤ 130568 := by
  have hcapacity : os.totalLength ≤ (os.blocks.map MessageBlock.endPtr).sum := by
    refine sum_le_sum fun b hb => ?_
    exact (Nat.sub_le _ _).trans (hw.ordered b hb).2
  have hcurrent : os.current.size ≤ maxBlockSize := by
    rw [← h.end_eq]
    exact hw.bounded os.current (by simp [blocks])
  rw [blocks, map_append, sum_append, map_singleton, sum_singleton,
    h.end_eq] at hcapacity
  obtain ⟨hnil, hdefault⟩ | ⟨hschedule, hsum⟩ := h.sizes
  · rw [hnil, hdefault, map_nil, sum_nil] at hcapacity
    exact hcapacity.trans (by decide)
  · -- the largest size of the schedule below the limit
    obtain ⟨k, hk⟩ := hschedule.eq_two_pow (lt_of_le_of_lt hcurrent (by decide))
    have hexp : k < 17 := by
      refine (Nat.pow_lt_pow_iff_right (by decide : 1 < 2)).mp ?_
      rw [← hk]
      exact lt_of_le_of_lt hcurrent (by decide)
    have hlast : os.current.size ≤ 2 ^ 16 := hk ▸ Nat.pow_le_pow_right (by decide) (by omega)
    omega

structure Blank (os : OutputStream) : Prop where
  done_nil : os.done = []
  wrPtr_zero : os.current.wrPtr = 0
  end_eq : os.current.endPtr = defaultBufsize + maxAlignment

theorem create_blank (host : ByteOrder) (heap : ℕ → Chunk) : (create host heap).Blank :=
  ⟨rfl, MessageBlock.mbAlign_wrPtr _, rfl⟩

def Hollow (os : OutputStream) : Prop := ∃ b ∈ os.done, b.length = 0

theorem Hollow.not_filled (h : os.Hollow) : ¬ os.Filled := by
  obtain ⟨b, hb, hzero⟩ := h
  exact fun hfilled => (hfilled b (mem_append_left _ hb)).ne' hzero

theorem Hollow.extends {n : ℕ} (h : os.Hollow) (hext : Extends os n os') : os'.Hollow := by
  obtain ⟨b, hb, hzero⟩ := h
  refine ⟨b, ?_, hzero⟩
  obtain ⟨-, hdone, -⟩ | ⟨-, hdone, -⟩ := hext
  · exact hdone ▸ hb
  · exact hdone ▸ mem_append_left _ hb

theorem filled_iff_leading (h : os.Blank) (hw : os.Wf)
    (hps : putAll ps os = some os') : os'.Filled ↔ Put.Leading ps := by
  induction ps generalizing os with
  | nil =>
    obtain rfl := Option.some.inj hps
    refine iff_of_false (fun hfilled => ?_) id
    have := hfilled os.current (by simp [blocks])
    rw [MessageBlock.length, h.wrPtr_zero] at this
    omega
  | cons p ps ih =>
    obtain ⟨os₁, hrun, hrest⟩ := Option.bind_eq_some_iff.mp hps
    obtain ⟨bs, hbs, hwrote⟩ := run_wrote hw hrun
    have hext := extends_run hw.rest_nil hrun
    rw [Extends, h.wrPtr_zero, h.end_eq, Nat.zero_add] at hext
    rw [Put.Leading]
    split_ifs with hzero
    · obtain ⟨-, hdone, -, hend, hwr⟩ | ⟨hover, -⟩ := hext
      · exact ih ⟨hdone.trans h.done_nil, hwr.trans hzero, hend⟩ hwrote.wf hrest
      · omega
    · obtain ⟨hfit, hdone, -, -, hwr⟩ | ⟨hover, hdone, -⟩ := hext
      · refine iff_of_true ?_ hfit
        obtain ⟨bs', hwrote'⟩ := putAll_wrote hwrote.wf hrest
        refine hwrote'.filled fun b hb => ?_
        rw [blocks, hdone, h.done_nil, nil_append, mem_singleton] at hb
        subst hb
        have hrd := (hwrote.wf.ordered os₁.current (by simp [blocks])).1
        rw [MessageBlock.length, hwr, hrd]
        omega
      · refine iff_of_false (Hollow.not_filled ?_) (by omega)
        refine putAll_invariant Hollow.extends ⟨os.current, ?_, ?_⟩ hwrote.wf hrest
        · rw [hdone]
          simp
        · rw [MessageBlock.length, h.wrPtr_zero, Nat.zero_sub]

end OutputStream

variable (host : ByteOrder)

def stringPuts (s : List UInt8) : List Put :=
  let len := toUInt s.length
  if len ≠ 0 then
    [.word (host.image 4 (toUInt (toUInt (len + 1)))),
      .array 1 (((s ++ [0]).take (toUInt (len + 1))).map fun c => [c])
        fun _ => length_of_mem_singletons]
  else [.word (host.image 4 (toUInt 1)), .octet 0]

def seqPuts (size : ℕ) (v : List (List UInt8)) (h : ∀ x ∈ v, x.length = size) :
    List Put :=
  .word (host.image 4 (toUInt v.length)) ::
    if 0 < v.length then
      [.array size (v.take (toUInt v.length)) fun x hx => h x (mem_of_mem_take hx)]
    else []

def Value.puts : Value → List Put
  | .octet x => [.octet x]
  | .boolean x => [.octet (if x then 1 else 0)]
  | .char x => [.octet x]
  | .short x => [.word (host.image 2 x.toNat)]
  | .ushort x => [.word (host.image 2 x.toNat)]
  | .int x => [.word (host.image 4 x.toNat)]
  | .uint x => [.word (host.image 4 (toUInt x.toNat))]
  | .long x => [.word (host.image 8 x.toNat)]
  | .ulong x => [.word (host.image 8 x.toNat)]
  | .float x => [.unswapped (host.image 4 x.toNat)]
  | .double x => [.unswapped (host.image 8 x.toNat)]
  | .string s => stringPuts host s
  | .byteSeq v => seqPuts host 1 (v.map fun x => [x]) (by simp)
  | .boolSeq v => .word (host.image 4 (toUInt v.length)) ::
      (v.take (toUInt v.length)).map fun b => .octet (if b then 1 else 0)
  | .shortSeq v => seqPuts host 2 (v.map fun x => host.image 2 x.toNat) (by simp)
  | .intSeq v => seqPuts host 4 (v.map fun x => host.image 4 x.toNat) (by simp)
  | .longSeq v => seqPuts host 8 (v.map fun x => host.image 8 x.toNat) (by simp)
  | .floatSeq v => seqPuts host 4 (v.map fun x => host.image 4 x.toNat) (by simp)
  | .doubleSeq v => seqPuts host 8 (v.map fun x => host.image 8 x.toNat) (by simp)
  | .stringSeq v =>
    .word (host.image 4 (toUInt v.length)) :: v.flatMap (stringPuts host)

theorem Value.leading_puts (v : Value) (ps : List Put) :
    Put.Leading (v.puts host ++ ps) := by
  cases v <;>
    simp [puts, stringPuts, seqPuts, Put.Leading, Put.length, defaultBufsize, maxAlignment]
  split_ifs <;> simp [Put.Leading, Put.length, defaultBufsize, maxAlignment]

namespace OutputStream

variable {os os' : OutputStream} {host : ByteOrder}

theorem putAll_singleton (p : Put) : putAll [p] os = p.run os := Option.bind_fun_some _

theorem writeString_eq_putAll (s : List UInt8) :
    os.writeString host s = putAll (stringPuts host s) os := by
  unfold writeString stringPuts
  dsimp only
  split_ifs
  · exact congrArg _ (funext fun os => (putAll_singleton (.array 1 _ _)).symm)
  · exact congrArg _ (funext fun os => (putAll_singleton (.octet 0)).symm)

theorem writeStrings_eq_putAll (v : List (List UInt8)) :
    writeStrings host v os = putAll (v.flatMap (stringPuts host)) os := by
  induction v generalizing os with
  | nil => rfl
  | cons s v ih =>
    rw [writeStrings, flatMap_cons, putAll_append, writeString_eq_putAll]
    exact congrArg _ (funext fun os => ih)

theorem writeSeq_eq_putAll (size : ℕ) (v : List (List UInt8)) (h : ∀ x ∈ v, x.length = size) :
    os.writeSeq host size v = putAll (seqPuts host size v h) os := by
  refine congrArg _ (funext fun os => ?_)
  split_ifs
  · exact (putAll_singleton (.array size _ _)).symm
  · rfl

theorem writeBooleanArray_eq_putAll (hw : os.Wf) (v : List Bool) :
    writeBooleanArray v os = putAll (v.map fun b => .octet (if b then 1 else 0)) os := by
  induction v generalizing os with
  | nil => rfl
  | cons b v ih =>
    rw [writeBooleanArray, if_pos hw.good, map_cons, putAll]
    cases hb : os.writeBoolean b with
    | none =>
      have hrun : (Put.octet (if b then 1 else 0)).run os = none := hb
      rw [hrun]
      rfl
    | some os₁ =>
      have hrun : (Put.octet (if b then 1 else 0)).run os = some os₁ := hb
      rw [hrun]
      exact ih (write1_spec hw hb).wf

theorem writeValue_eq_putAll (hw : os.Wf) (v : Value) :
    os.writeValue host v = putAll (v.puts host) os := by
  cases v with
  | string s => exact writeString_eq_putAll s
  | byteSeq v | shortSeq v | intSeq v | longSeq v | floatSeq v | doubleSeq v =>
    exact writeSeq_eq_putAll _ _ (by simp)
  | boolSeq v =>
    change (os.writeUint host v.length).bind _ = ((Put.word _).run os).bind _
    cases hcount : os.writeUint host v.length with
    | none =>
      have hrun : (Put.word (host.image 4 (toUInt v.length))).run os = none := hcount
      rw [hrun]
      rfl
    | some os₁ =>
      have hrun : (Put.word (host.image 4 (toUInt v.length))).run os = some os₁ := hcount
      rw [hrun]
      change (if 0 < v.length then _ else _) = putAll _ os₁
      rw [← writeBooleanArray_eq_putAll (writeN_spec hw hcount).wf]
      split_ifs with hlen
      · rfl
      · obtain rfl := length_eq_zero_iff.mp (Nat.eq_zero_of_not_pos hlen)
        rfl
  | stringSeq v =>
    change (os.writeUint host v.length).bind _ = (os.writeUint host v.length).bind _
    refine congrArg _ (funext fun os => ?_)
    rw [← writeStrings_eq_putAll]
    split_ifs with hlen
    · rfl
    · obtain rfl := length_eq_zero_iff.mp (Nat.eq_zero_of_not_pos hlen)
      rfl
  | _ =>
    rw [Value.puts, putAll_singleton]
    rfl

theorem writeValues_eq_putAll (hw : os.Wf) (vs : List Value) :
    writeValues host vs os = putAll (vs.flatMap (Value.puts host)) os := by
  induction vs generalizing os with
  | nil => rfl
  | cons v vs ih =>
    rw [writeValues, flatMap_cons, putAll_append, writeValue_eq_putAll hw]
    cases hv : putAll (v.puts host) os with
    | none => rfl
    | some os₁ =>
      obtain ⟨bs, hwrote⟩ := putAll_wrote hw hv
      exact ih hwrote.wf

end OutputStream

end Icm.Stream
