import Icm.Java.Reading

/-!
# The end of a stream, and streams that pause

The `read` handler of the Java servers tests for the end of the stream while it reads the head of a
request, but not while it reads the body: there the result `-1` is added to the count. The loop for
the head goes on while the channel returns no bytes.
-/

namespace Icm.Java

open Icm.Lib Icm.Stream Arrival

def headLoop (ending : Ending) :
    ℕ → ℕ → List Arrival → Option (Except Abrupt (List UInt8 × List Arrival))
  | _, 0, as => some (.ok ([], as))
  | 0, _ + 1, _ => none
  | reads + 1, n + 1, as =>
    match channelRead ending (n + 1) as with
    | (.bytes bs, as') =>
      (headLoop ending reads (n + 1 - bs.length) as').map (·.map fun r => (bs ++ r.1, r.2))
    | _ => some (.error .io)

variable {ending : Ending} {as : List Arrival} {n : ℕ}

theorem headLoop_zero (reads : ℕ) : headLoop ending reads 0 as = some (readFully ending as 0) := by
  rw [headLoop]
  cases as <;> rfl

theorem exists_headLoop (h : readFully ending as n ≠ .error .endless) :
    ∃ reads, headLoop ending reads n as = some (readFully ending as n) := by
  induction as generalizing n with
  | nil =>
    rcases n with _ | n
    · exact ⟨0, headLoop_zero 0⟩
    · cases ending with
      | pending => exact absurd rfl h
      | eof | reset => exact ⟨1, rfl⟩
  | cons a as ih =>
    rcases n with _ | n
    · exact ⟨0, headLoop_zero 0⟩
    -- the first read, and the loop on what it leaves
    have hnext {bs : List UInt8} {as' : List Arrival}
        (hread : channelRead ending (n + 1) (a :: as) = (.bytes bs, as'))
        (ih : readFully ending as' (n + 1 - bs.length) ≠ .error .endless →
          ∃ reads, headLoop ending reads (n + 1 - bs.length) as' =
            some (readFully ending as' (n + 1 - bs.length))) :
        ∃ reads, headLoop ending reads (n + 1) (a :: as) =
          some (readFully ending (a :: as) (n + 1)) := by
      rw [readFully_eq ending _ n.succ_ne_zero, hread] at h ⊢
      simp only [reduceCtorEq, if_false] at h ⊢
      obtain ⟨reads, hreads⟩ := ih fun hendless => h (by rw [hendless]; rfl)
      exact ⟨reads + 1, by simp only [headLoop, hread, hreads, Option.map_some]⟩
    cases a with
    | pause =>
      have hread : channelRead ending (n + 1) (.pause :: as) = (.bytes [], as) :=
        if_neg n.succ_ne_zero
      exact hnext hread ih
    | segment b bs =>
      refine hnext (if_neg n.succ_ne_zero) ?_
      rcases Nat.lt_or_ge bs.length n with hlt | hle
      · rw [List.drop_of_length_le (by rw [List.length_cons]; omega)]
        exact ih
      · have hlength : n + 1 - ((b :: bs).take (n + 1)).length = 0 := by
          rw [List.length_take, List.length_cons]
          omega
        rw [hlength]
        exact fun _ => ⟨0, headLoop_zero 0⟩

theorem headLoop_eq_none (h : (bytes as).length < n) (reads : ℕ) :
    headLoop .pending reads n as = none := by
  induction reads generalizing n as with
  | zero =>
    obtain ⟨n, rfl⟩ := Nat.exists_eq_succ_of_ne_zero (Nat.ne_zero_of_lt h)
    rfl
  | succ reads ih =>
    obtain ⟨n, rfl⟩ := Nat.exists_eq_succ_of_ne_zero (Nat.ne_zero_of_lt h)
    rcases channelRead_cases .pending (n + 1) as with
      ⟨bs, as', hread, -, hbytes, -⟩ | ⟨rfl, -, hread | hread⟩
    · rw [hbytes, List.length_append] at h
      have hmissing : (bytes as').length < n + 1 - bs.length := by omega
      simp only [headLoop, hread, ih hmissing, Option.map_none]
    · cases hread
    · cases hread

theorem Buffer.put_of_pooled {b : Buffer} {got src : List UInt8} (h : b.Filling got)
    (hsized : b.Sized) (hle : src.length ≤ bufferSize) :
    (∃ b', b.put src = .ok b' ∧ b'.Filling (got ++ src) ∧ b'.Sized) ∨
      b.put src = .error .negativeArraySize := by
  rcases Nat.lt_or_ge (2 ^ 29) (got.length + src.length) with hlt | hfit
  · -- only an array of `2 ^ 29` bytes can be that full, and `2 ^ 31` is negative
    obtain ⟨k, hk, hlength⟩ := hsized
    have hgot : got.length ≤ b.data.length := h.position_eq ▸ b.position_le
    have hbuffer : bufferSize = 4096 := rfl
    have hdata : b.data.length = 2 ^ 29 := by
      interval_cases k <;> simp [defaultCapacity] at hlength <;> omega
    refine Or.inr (Buffer.put_of_error h ?_)
    have hwrap : toInt (-2147483648 - (got.length : ℤ)) = 2147483648 - got.length := by
      rw [toInt, Int.bmod_eq_iff (by decide)]
      omega
    have hloop : growLoop got.length src.length 17 (toInt ((b.data.length : ℤ) * 4)) =
        some (-2147483648) := by
      have hfirst : toInt ((b.data.length : ℤ) * 4) = -2147483648 := by rw [hdata]; decide
      rw [hfirst, growLoop, hwrap, if_pos (by omega)]
    rw [reserve, if_neg (by omega), grown, hloop]
    rfl
  · obtain ⟨b', hput, hb', hsized', -⟩ := Buffer.put_of_sized h hsized hfit
    exact Or.inl ⟨b', hput, hb', hsized'⟩

namespace Inbound

/-- The buffer of the request that is read is one of the pool, with the bytes that were put. -/
structure Kept (s : Inbound) (ending : Ending) : Prop where
  ending_eq : s.ending = ending
  pooled : ∀ context, s.requestContext = some context →
    (∃ got, context.buffer.Filling got) ∧ context.buffer.Sized

def bodyResult (ending : Ending) (context : IcmContext) (arrivals : List Arrival) : ReadResult :=
  (channelRead ending (min (toInt (context.length - context.current)).toNat bufferSize) arrivals).1

variable {s s' : Inbound} {context : IcmContext} {order : ByteOrder}

def Ends (s : Inbound) (failed : Prop) : Except Abrupt Inbound → Prop
  | .ok s' => s'.Kept s.ending ∧ s'.isOpen = s.isOpen
  | .error e => e ≠ .endless ∧ (e = .io → failed)

theorem readBody_ends (as : List Arrival) (hfilling : ∃ got, context.buffer.Filling got)
    (hsized : context.buffer.Sized) :
    s.Ends (bodyResult s.ending context as = .failed) (s.readBody context as) := by
  obtain ⟨got, hgot⟩ := hfilling
  unfold readBody bodyResult
  extract_lets len r t receive
  split
  · exact ⟨nofun, nofun⟩
  -- bytes are put, a test for the whole body follows
  have hreceive {bs : List UInt8} (readed : ℤ) (failed : Prop) (hle : bs.length ≤ bufferSize) :
      s.Ends failed (receive bs readed) := by
    simp only [receive, t]
    rcases Buffer.put_of_pooled hgot hsized hle with ⟨b, hput, hb, hbsized⟩ | hput
    · rw [hput]
      simp only [bind, Except.bind]
      split
      · split
        · exact ⟨⟨rfl, nofun⟩, rfl⟩
        · exact ⟨nofun, nofun⟩
      · refine ⟨⟨rfl, ?_⟩, rfl⟩
        rintro context' ⟨⟩
        exact ⟨⟨_, hb⟩, hbsized⟩
    · rw [hput]
      exact ⟨nofun, nofun⟩
  rcases channelRead_cases s.ending (min len.toNat bufferSize) as with
    ⟨bs, as', hread, hle, -⟩ | ⟨-, -, hread | hread⟩
  · rw [show r.1 = .bytes bs from congrArg Prod.fst hread]
    exact hreceive _ _ (hle.trans (Nat.min_le_right _ _))
  · rw [show r.1 = .eof from congrArg Prod.fst hread]
    exact hreceive _ _ (Nat.zero_le _)
  · rw [show r.1 = .failed from congrArg Prod.fst hread]
    exact ⟨nofun, fun _ => rfl⟩

theorem readHead_outcome (provided : Pooled order)
    (h : messageHeadSize ≤ (bytes s.arrivals).length) :
    s.readHead provided.buffer = .error .io ∨
      ∃ context as, s.readHead provided.buffer = .ok (context, as) ∧
        (∃ got, context.buffer.Filling got) ∧ context.buffer.Sized := by
  obtain ⟨x₁, x₂, x₃, x₄, type, rest, hbytes⟩ : ∃ x₁ x₂ x₃ x₄ type rest,
      bytes s.arrivals = [x₁, x₂, x₃, x₄] ++ type :: rest := by
    match bytes s.arrivals, h with
    | x₁ :: x₂ :: x₃ :: x₄ :: type :: rest, _ => exact ⟨x₁, x₂, x₃, x₄, type, rest, rfl⟩
  obtain ⟨b, as, hb, hsized, -, -, heq⟩ := readHead_eq provided rfl hbytes
  rw [heq]
  split
  · exact Or.inl rfl
  · exact Or.inr ⟨_, _, rfl, ⟨_, hb⟩, hsized⟩

theorem readHead_endless (provided : Pooled order)
    (h : (bytes s.arrivals).length < messageHeadSize) (hending : s.ending = .pending) :
    s.readHead provided.buffer = .error .endless := by
  rw [readHead, readFully_of_lt s.ending h, if_pos hending]
  rfl

def closing (s : Inbound) : Except Abrupt Inbound → Except Abrupt Inbound
  | .error .io => .ok { s with requestContext := none, isOpen := false }
  | r => r

theorem read_of_some {buffer : Buffer} (h : s.requestContext = some context) :
    s.read buffer = s.closing (s.readBody context s.arrivals) := by
  simp only [Inbound.read, h]
  rfl

theorem read_of_none {buffer : Buffer} (h : s.requestContext = none) :
    s.read buffer = s.closing (s.readHead buffer >>= fun r => s.readBody r.1 r.2) := by
  simp only [Inbound.read, h]
  rfl

theorem closing_ends {failed : Prop} {attempt : Except Abrupt Inbound}
    (h : s.Ends failed attempt) :
    (∃ s', s.closing attempt = .ok s' ∧ s'.Kept s.ending) ∨
      ∃ e, s.closing attempt = .error e ∧ e ≠ .endless := by
  match attempt, h with
  | .ok s', h => exact Or.inl ⟨s', rfl, h.1⟩
  | .error .io, _ => exact Or.inl ⟨_, rfl, rfl, nofun⟩
  | .error .endless, h => exact absurd rfl h.1
  | .error .bufferUnderflow, _ | .error .illegalArgument, _ | .error .negativeArraySize, _
  | .error .arrayIndexOutOfBounds, _ | .error .nullPointer, _ => exact Or.inr ⟨_, rfl, nofun⟩

theorem Kept.read (hkept : s.Kept ending) (provided : Pooled order)
    (h : s.requestContext = none →
      messageHeadSize ≤ (bytes s.arrivals).length ∨ s.ending ≠ .pending) :
    (∃ s', s.read provided.buffer = .ok s' ∧ s'.Kept s.ending) ∨
      ∃ e, s.read provided.buffer = .error e ∧ e ≠ .endless := by
  cases hcontext : s.requestContext with
  | some context =>
    obtain ⟨hfilling, hsized⟩ := hkept.pooled context hcontext
    rw [read_of_some hcontext]
    exact closing_ends (readBody_ends s.arrivals hfilling hsized)
  | none =>
    rw [read_of_none hcontext]
    have hio (hhead : s.readHead provided.buffer = .error .io) :
        s.Ends True (s.readHead provided.buffer >>= fun r => s.readBody r.1 r.2) := by
      rw [hhead]
      exact ⟨nofun, fun _ => trivial⟩
    rcases Nat.lt_or_ge (bytes s.arrivals).length messageHeadSize with hlt | hle
    · have hending := (h hcontext).resolve_left hlt.not_ge
      exact closing_ends (hio (readHead_of_lt provided hlt hending))
    · rcases readHead_outcome provided hle with hhead | ⟨context, as, hhead, hfilling, hsized⟩
      · exact closing_ends (hio hhead)
      · rw [hhead]
        exact closing_ends (readBody_ends as hfilling hsized)

theorem read_endless (provided : Pooled order) (hcontext : s.requestContext = none)
    (hlt : (bytes s.arrivals).length < messageHeadSize) (hending : s.ending = .pending) :
    s.read provided.buffer = .error .endless := by
  rw [read_of_none hcontext, readHead_endless provided hlt hending]
  rfl

theorem Kept.select (hkept : s.Kept ending) (provided : Pooled order)
    (h : s.select provided = .ok s') : s'.Kept ending := by
  unfold Inbound.select at h
  split at h
  · split at h
    · cases h
      exact ⟨hkept.ending_eq, hkept.pooled⟩
    · cases h
      exact hkept
    · by_cases hmore : s.requestContext = none →
          messageHeadSize ≤ (bytes s.arrivals).length ∨ s.ending ≠ .pending
      · rcases hkept.read provided hmore with ⟨t, heq, ht⟩ | ⟨e, heq, -⟩
        · rw [heq] at h
          cases h
          exact hkept.ending_eq ▸ ht
        · rw [heq] at h
          cases h
      · push Not at hmore
        obtain ⟨hcontext, hlt, hending⟩ := hmore
        rw [read_endless provided hcontext hlt hending] at h
        cases h
  · cases h
    exact hkept

theorem kept_of_run {arrivals : List Arrival} {hasExecutor : Bool} {events : List (Pooled order)}
    (hrun : runSteps Inbound.select (.new arrivals ending hasExecutor) events = .ok s) :
    s.Kept ending :=
  runSteps_invariant (I := fun t => t.Kept ending) (C := fun _ _ => True)
    (fun _ provided _ hkept _ h => hkept.select provided h) ⟨rfl, nofun⟩ (eachStep_true _ _) hrun

def seesEof (s : Inbound) (buffer : Buffer) : Bool :=
  match s.requestContext with
  | some context => bodyResult s.ending context s.arrivals = .eof
  | none => (bytes s.arrivals).length < messageHeadSize ||
      (s.readHead buffer).toOption.any fun r => bodyResult s.ending r.1 r.2 = .eof

theorem not_closed_of_body {as : List Arrival} (hopen : s.isOpen = true)
    (hfilling : ∃ got, context.buffer.Filling got) (hsized : context.buffer.Sized)
    (heof : bodyResult s.ending context as = .eof) :
    ¬ ∃ s', s.closing (s.readBody context as) = .ok s' ∧ s'.isOpen = false := by
  rintro ⟨s', hs', hclosed⟩
  have hends := readBody_ends (s := s) as hfilling hsized
  cases hbody : s.readBody context as with
  | ok t =>
    rw [hbody] at hs' hends
    cases hs'
    rw [hends.2, hopen] at hclosed
    cases hclosed
  | error e =>
    rw [hbody] at hs' hends
    cases e with
    | io =>
      have hfailed := hends.2 rfl
      rw [heof] at hfailed
      cases hfailed
    | _ => cases hs'

/-- **The channel is closed at the end of a stream before or inside a head only**: at the end inside
a body the count is lowered by one, and the channel and its key stay. -/
theorem closes_at_eof_iff {arrivals : List Arrival} {hasExecutor : Bool}
    {events : List (Pooled order)}
    (hrun : runSteps Inbound.select (.new arrivals .eof hasExecutor) events = .ok s)
    (hopen : s.isOpen = true) (provided : Pooled order) (hsees : s.seesEof provided.buffer) :
    (∃ s', s.read provided.buffer = .ok s' ∧ s'.isOpen = false) ↔
      s.requestContext = none ∧ (bytes s.arrivals).length < messageHeadSize := by
  have hkept := kept_of_run hrun
  cases hcontext : s.requestContext with
  | some context =>
    obtain ⟨hfilling, hsized⟩ := hkept.pooled context hcontext
    simp only [seesEof, hcontext, decide_eq_true_eq] at hsees
    rw [read_of_some hcontext]
    exact iff_of_false (not_closed_of_body hopen hfilling hsized hsees) nofun
  | none =>
    simp only [seesEof, hcontext, Bool.or_eq_true, decide_eq_true_eq] at hsees
    rw [read_of_none hcontext]
    rcases Nat.lt_or_ge (bytes s.arrivals).length messageHeadSize with hlt | hle
    · rw [readHead_of_lt provided hlt (by rw [hkept.ending_eq]; nofun)]
      exact iff_of_true ⟨_, rfl, rfl⟩ ⟨rfl, hlt⟩
    · have hbody := hsees.resolve_left hle.not_gt
      refine iff_of_false ?_ fun h => h.2.not_ge hle
      rcases readHead_outcome provided hle with hhead | ⟨context, as, hhead, hfilling, hsized⟩
      · rw [hhead] at hbody
        cases hbody
      · rw [hhead] at hbody ⊢
        exact not_closed_of_body hopen hfilling hsized (of_decide_eq_true hbody)

def pooledBuffer : Pooled .big := (CachedBufferProvider.mk 20 .big []).getBuffer.1

theorem closes_at_eof_in_head :
    ∃ s', (new [.segment 0 [0, 0]] .eof true).read pooledBuffer.buffer = .ok s' ∧
      s'.isOpen = false := by
  have hrun : runSteps Inbound.select (new [.segment 0 [0, 0]] .eof true)
      ([] : List (Pooled .big)) = .ok _ := rfl
  exact (closes_at_eof_iff hrun rfl pooledBuffer (by decide)).mpr ⟨rfl, by decide⟩

theorem stays_open_at_eof_in_body :
    (new [.segment 0 [0, 0, 1, 0]] .eof true).seesEof pooledBuffer.buffer ∧
      ((new [.segment 0 [0, 0, 1, 0]] .eof true).read pooledBuffer.buffer).toOption.map
        (fun s' => (s'.isOpen, s'.requestContext.map (·.current))) = some (true, some (-1)) := by
  decide +kernel

/-- **A call of the handler ends after finitely many reads just if** a body is read, or a whole head
is to come, or the stream ends: the loop for the head goes on while the channel returns no bytes. -/
theorem read_returns_iff {arrivals : List Arrival} {hasExecutor : Bool}
    {events : List (Pooled order)}
    (hrun : runSteps Inbound.select (.new arrivals ending hasExecutor) events = .ok s)
    (provided : Pooled order) :
    ((s.requestContext = none →
        ∃ reads, (headLoop s.ending reads messageHeadSize s.arrivals).isSome) ∧
      s.read provided.buffer ≠ .error .endless) ↔
    (s.requestContext = none →
      messageHeadSize ≤ (bytes s.arrivals).length ∨ s.ending ≠ .pending) := by
  constructor
  · rintro ⟨hloop, -⟩ hcontext
    obtain ⟨reads, hsome⟩ := hloop hcontext
    by_contra! hmissing
    rw [hmissing.2, headLoop_eq_none hmissing.1] at hsome
    cases hsome
  · intro h
    refine ⟨fun hcontext => ?_, ?_⟩
    · have hends : readFully s.ending s.arrivals messageHeadSize ≠ .error .endless := by
        rcases Nat.lt_or_ge (bytes s.arrivals).length messageHeadSize with hlt | hle
        · have hending := (h hcontext).resolve_left hlt.not_ge
          rw [readFully_of_lt s.ending hlt, if_neg hending]
          nofun
        · obtain ⟨as, hfully, -⟩ := readFully_of_le s.ending hle
          rw [hfully]
          nofun
      obtain ⟨reads, hreads⟩ := exists_headLoop hends
      exact ⟨reads, by rw [hreads]; rfl⟩
    · rcases (kept_of_run hrun).read provided h with ⟨s', heq, -⟩ | ⟨e, heq, hne⟩
      · rw [heq]
        nofun
      · rw [heq]
        exact fun heq => hne (Except.error.inj heq)

theorem read_returns_whole_head :
    (new [.segment 0 [0], .pause, .segment 0 [1, 0]] .pending true).read pooledBuffer.buffer ≠
      .error .endless := by
  have hrun : runSteps Inbound.select
      (new [.segment 0 [0], .pause, .segment 0 [1, 0]] .pending true)
      ([] : List (Pooled .big)) = .ok _ := rfl
  exact ((read_returns_iff hrun pooledBuffer).mpr fun _ => Or.inl (by decide)).2

theorem head_loop_endless :
    ¬ ∃ reads, (headLoop .pending reads messageHeadSize
      (new [.segment 0 []] .pending true).arrivals).isSome := by
  rintro ⟨reads, hsome⟩
  rw [headLoop_eq_none (by decide)] at hsome
  cases hsome

end Inbound

end Icm.Java
