import Icm.Java.Reading

/-!
# The selector of a server

One thread calls the handlers of all connections of a Java server.
-/

namespace Icm.Java

open Icm.Lib Icm.Stream Arrival

instance (context : IcmContext) : Decidable context.Fits := inferInstanceAs (Decidable (_ ∧ _))

namespace Inbound

def HeadSafe (order : ByteOrder) (ending : Ending) (bs : List UInt8) : Prop :=
  (bs = [] ∨ messageHeadSize ≤ bs.length ∨ ending ≠ .pending) ∧
    (bs[4]? = some typeRequest → 0 ≤ headLength order (bs.take 4))

instance (order : ByteOrder) (ending : Ending) (bs : List UInt8) :
    Decidable (HeadSafe order ending bs) :=
  inferInstanceAs (Decidable (_ ∧ _))

def Safe (order : ByteOrder) (s : Inbound) : Prop :=
  s.hasExecutor = true ∧
    (s.requestContext.isNone = true → HeadSafe order s.ending (bytes s.arrivals)) ∧
    ∀ context ∈ s.requestContext, context.Fits

instance (order : ByteOrder) (s : Inbound) : Decidable (s.Safe order) :=
  inferInstanceAs (Decidable (_ ∧ _ ∧ _))

def SaneContext (s : Inbound) : Prop := ∀ context ∈ s.requestContext, ∃ got, context.Sane got

theorem headLength_lt (order : ByteOrder) (field : List UInt8) :
    headLength order field < 2 ^ 31 := by
  have := BitVec.two_mul_toInt_lt (x := BitVec.ofNat 32 (order.value field))
  rw [headLength]
  omega

section Throw

variable {order : ByteOrder} {s : Inbound}

theorem received_of_safe {context : IcmContext} {got got' : List UInt8} (as : List Arrival)
    {b : Buffer} {readed : ℤ} (hexecutor : s.hasExecutor = true) (hsane : context.Sane got)
    (hfits : context.Fits) (hb : b.Filling got') (hsized : b.Sized) (hlow : -1 ≤ readed)
    (hhigh : readed ≤ context.length - context.current) :
    ∃ s', s.received context as b readed = .ok s' ∧ s'.SaneContext := by
  obtain ⟨-, -, hnonneg, hlt, -, -⟩ := hsane
  have hdiff := hfits.1
  rw [received]
  split_ifs
  · exact ⟨_, rfl, by simp [SaneContext]⟩
  · refine ⟨_, rfl, ?_⟩
    rintro _ ⟨⟩
    exact ⟨got', hb, hsized, hnonneg, hlt, by simp only; omega, by simp only; omega⟩

theorem readBody_of_safe {context : IcmContext} {got : List UInt8} (as : List Arrival)
    (hexecutor : s.hasExecutor = true) (hsane : context.Sane got) (hfits : context.Fits) :
    (∃ s', s.readBody context as = .ok s' ∧ s'.SaneContext) ∨
      s.readBody context as = .error .io := by
  rcases readBody_cases (s := s) as hsane hfits with
    ⟨bs, as', b, hbs, -, -, -, hb, hsized, heq⟩ | ⟨-, hmissing, ⟨b, hb, hsized, heq⟩ | heq⟩
  · rw [heq]
    exact Or.inl (received_of_safe as' hexecutor hsane hfits hb hsized (by omega) hbs)
  · rw [heq]
    exact Or.inl (received_of_safe [] hexecutor hsane hfits hb hsized le_rfl (by omega))
  · exact Or.inr heq

variable (provided : Pooled order)

section

variable (hreadable : bytes s.arrivals ≠ [] ∨ s.ending ≠ .pending)
include hreadable

theorem readHead_of_safe (hsafe : HeadSafe order s.ending (bytes s.arrivals)) :
    (∃ context as, s.readHead provided.buffer = .ok (context, as) ∧ context.Sane [] ∧
      context.Fits) ∨ s.readHead provided.buffer = .error .io := by
  obtain ⟨hcomes, hnonneg⟩ := hsafe
  rcases Nat.lt_or_ge (bytes s.arrivals).length messageHeadSize with hlt | hle
  · refine Or.inr (readHead_of_lt provided hlt ?_)
    rcases hcomes with hnil | hle | hending
    · exact hreadable.resolve_left (not_not.mpr hnil)
    · exact absurd hlt hle.not_gt
    · exact hending
  · have hfour : 4 < (bytes s.arrivals).length := hle
    have hfield : ((bytes s.arrivals).take 4).length = 4 := by
      rw [List.length_take]
      omega
    have hsplit : bytes s.arrivals = (bytes s.arrivals).take 4 ++
        (bytes s.arrivals)[4] :: (bytes s.arrivals).drop 5 := by
      rw [← List.drop_eq_getElem_cons hfour, List.take_append_drop]
    obtain ⟨b, as, hb, hsized, -, -, heq⟩ := readHead_eq provided hfield hsplit
    rw [heq]
    split_ifs with htype
    · exact Or.inr rfl
    · have hlength := hnonneg (by rw [List.getElem?_eq_getElem hfour, not_not.mp htype])
      have hbound := headLength_lt order ((bytes s.arrivals).take 4)
      have hposition : b.position = 0 := hb.position_eq
      have hbuffer : bufferSize ≤ 2 ^ 29 := by decide
      refine Or.inl ⟨_, as, rfl, ⟨hb, hsized, hlength, hbound, hlength, by simp only; omega⟩, ?_⟩
      refine ⟨by simp only; omega, ?_⟩
      simp only [hposition]
      omega

theorem read_of_safe (hsane : s.SaneContext)
    (hsafe : s.Safe order) : ∃ s', s.read provided.buffer = .ok s' ∧ s'.SaneContext := by
  obtain ⟨hexecutor, hhead, hfits⟩ := hsafe
  have hclosed : ({ s with requestContext := none, isOpen := false } : Inbound).SaneContext := nofun
  cases hcontext : s.requestContext with
  | some context =>
    obtain ⟨got, hgot⟩ := hsane context hcontext
    rcases readBody_of_safe s.arrivals hexecutor hgot (hfits context hcontext) with
      ⟨s', hbody, hs'⟩ | hbody
    · exact ⟨s', by simp only [read, hcontext, hbody], hs'⟩
    · exact ⟨_, by simp only [read, hcontext, hbody], hclosed⟩
  | none =>
    rcases readHead_of_safe provided hreadable (hhead (by rw [hcontext]; rfl)) with
      ⟨context, as, heq, hgot, hfits⟩ | heq
    · rcases readBody_of_safe as hexecutor hgot hfits with ⟨s', hbody, hs'⟩ | hbody
      · exact ⟨s', by simp only [read, hcontext, heq, bind, Except.bind, hbody], hs'⟩
      · exact ⟨_, by simp only [read, hcontext, heq, bind, Except.bind, hbody], hclosed⟩
    · exact ⟨_, by simp only [read, hcontext, heq, bind, Except.bind], hclosed⟩

end

theorem select_of_safe (hsane : s.SaneContext) (hsafe : s.Safe order) :
    ∃ s', s.select provided = .ok s' ∧ s'.SaneContext := by
  by_cases hopen : s.isOpen = true
  swap
  · exact ⟨s, if_neg hopen, hsane⟩
  rcases harrivals : s.arrivals with _ | ⟨⟨x, xs⟩ | _, as⟩
  · by_cases hending : s.ending = .pending
    · exact ⟨s, by simp only [select, hopen, harrivals, hending, ↓reduceIte], hsane⟩
    · rw [select_eq_read provided hopen (by simp [harrivals]) (Or.inr hending)]
      exact read_of_safe provided (Or.inr hending) hsane hsafe
  · rw [select_eq_read provided hopen (by simp [harrivals]) (by simp [harrivals])]
    exact read_of_safe provided (by simp [harrivals, bytes]) hsane hsafe
  · exact ⟨{ s with arrivals := as }, by simp only [select, hopen, harrivals, ↓reduceIte], hsane⟩

theorem read_of_negative {field rest : List UInt8}
    (hcontext : s.requestContext = none) (hfield : field.length = 4)
    (hbytes : bytes s.arrivals = field ++ typeRequest :: rest)
    (hnegative : headLength order field < 0) :
    s.read provided.buffer = .error .illegalArgument := by
  obtain ⟨b, as, -, -, -, -, heq⟩ := readHead_eq provided hfield hbytes
  rw [if_neg (not_not.mpr rfl)] at heq
  have hle : -2 ^ 31 ≤ headLength order field := by
    have := BitVec.le_two_mul_toInt (x := BitVec.ofNat 32 (order.value field))
    rw [headLength]
    omega
  have hlen : toInt (headLength order field - 0) = headLength order field := by
    rw [sub_zero]
    exact toInt_of_abs_lt hle (by omega)
  simp only [read, hcontext, heq, bind, Except.bind, readBody, hlen, if_pos hnegative]

end Throw

end Inbound

structure Connection where
  inbound : Inbound
  outbound : Outbound

/-- What can happen to a connection: the channel is readable, and there is a buffer for a new
request; a response is offered; or the channel is writable. -/
inductive ChannelEvent
  | readable (order : ByteOrder) (provided : Pooled order)
  | offer (response : Message)
  | writable (result : WriteResult)

namespace Connection

def new (arrivals : List Arrival) (ending : Ending) (hasExecutor : Bool) : Connection :=
  ⟨.new arrivals ending hasExecutor, .new⟩

/-- What happens at an event. -/
def step (c : Connection) : ChannelEvent → Except Abrupt Connection
  | .readable _ provided => do
    let inbound ← c.inbound.select provided
    if c.inbound.isOpen && !inbound.isOpen then
      return ⟨inbound, { c.outbound with context := none }⟩
    else return { c with inbound }
  | .offer response => do
    let outbound ← c.outbound.step Server.write (.offer response)
    return { c with outbound }
  | .writable result =>
    if c.inbound.isOpen && c.outbound.opWrite then do
      let outbound ← Server.write c.outbound result
      let isOpen := c.outbound.poll.isNone || decide (result ≠ .failed)
      return ⟨{ c.inbound with isOpen }, outbound⟩
    else .ok c

def Safe (c : Connection) : ChannelEvent → Prop
  | .readable order _ => c.inbound.Safe order
  | _ => True

instance (c : Connection) (e : ChannelEvent) : Decidable (c.Safe e) :=
  match e with
  | .readable order _ => inferInstanceAs (Decidable (c.inbound.Safe order))
  | .offer _ => .isTrue trivial
  | .writable _ => .isTrue trivial

structure Wf (c : Connection) : Prop where
  sane : c.inbound.SaneContext
  flipped : ∀ b ∈ c.outbound.messages, b.position ≤ b.limit

theorem new_wf (arrivals : List Arrival) (ending : Ending) (hasExecutor : Bool) :
    (new arrivals ending hasExecutor).Wf :=
  ⟨nofun, nofun⟩

theorem step_of_safe (c : Connection) (e : ChannelEvent) (hwf : c.Wf) (hsafe : c.Safe e) :
    ∃ c', c.step e = .ok c' ∧ c'.Wf := by
  obtain ⟨hsane, hflipped⟩ := hwf
  cases e with
  | readable order provided =>
    obtain ⟨inbound, hselect, hsane'⟩ := Inbound.select_of_safe provided hsane hsafe
    simp only [step, hselect, bind, Except.bind]
    split_ifs
    · refine ⟨_, rfl, hsane', fun b hb => hflipped b ?_⟩
      exact List.mem_append_right _ hb
    · exact ⟨_, rfl, hsane', hflipped⟩
  | offer response => exact ⟨_, rfl, hsane, Outbound.flipped_offer hflipped response⟩
  | writable result =>
    obtain ⟨outbound, hwrite, hflipped'⟩ := Server.exists_write result hflipped
    simp only [step, hwrite, bind, Except.bind]
    split_ifs
    · exact ⟨_, rfl, hsane, hflipped'⟩
    · exact ⟨c, rfl, hsane, hflipped⟩

end Connection

namespace Selector

open Connection

/-- **When the selector goes on.** -/
theorem run_of_safe (arrivals : ℕ → List Arrival) (ending : ℕ → Ending) (hasExecutor : ℕ → Bool)
    (es : List (ℕ × ChannelEvent))
    (hsafe : EachStep (sideBySide step) (fun s e => (s e.1).Safe e.2)
      (fun k => new (arrivals k) (ending k) (hasExecutor k)) es) :
    ∃ s, runSteps (sideBySide step) (fun k => new (arrivals k) (ending k) (hasExecutor k)) es =
        .ok s ∧
      ∀ k, runSteps step (new (arrivals k) (ending k) (hasExecutor k)) (eventsOf k es) =
        .ok (s k) := by
  obtain ⟨s, hrun, -⟩ := exists_runSteps_sideBySide step_of_safe
    (fun k => new_wf (arrivals k) (ending k) (hasExecutor k)) hsafe
  exact ⟨s, hrun, runSteps_eventsOf hrun⟩

def pooled : Pooled .big := (CachedBufferProvider.mk 10 .big []).getBuffer.1

theorem run_two_clients :
    ∃ s, runSteps (sideBySide step)
        (fun k => new [.segment 0 [0, 0, 1, if k = 0 then 1 else 0, 7]] .pending true)
        [(0, .readable .big pooled), (1, .readable .big pooled), (0, .writable .failed)] = .ok s ∧
      runSteps step (new [.segment 0 [0, 0, 1, 0, 7]] .pending true) [.readable .big pooled] =
        .ok (s 1) := by
  obtain ⟨s, hrun, hown⟩ := run_of_safe
    (fun k => [.segment 0 [0, 0, 1, if k = 0 then 1 else 0, 7]]) (fun _ => .pending)
    (fun _ => true)
    [(0, .readable .big pooled), (1, .readable .big pooled), (0, .writable .failed)]
    (by decide +kernel)
  exact ⟨s, hrun, hown 1⟩

theorem negative_length_stops :
    runSteps (sideBySide step)
        (fun k => if k = 0 then new [.segment 255 [255, 255, 255, 0]] .pending true
          else new [.segment 0 [0, 0, 1, 0, 7]] .pending true)
        [(0, .readable .big pooled), (1, .readable .big pooled)] = .error .illegalArgument := by
  have hread : (Inbound.new [.segment 255 [255, 255, 255, 0]] .pending true).read pooled.buffer =
      .error .illegalArgument :=
    Inbound.read_of_negative pooled rfl
      (show ([255, 255, 255, 255] : List UInt8).length = 4 from rfl) rfl (by decide)
  have hselect : (Inbound.new [.segment 255 [255, 255, 255, 0]] .pending true).select pooled =
      .error .illegalArgument :=
    (Inbound.select_eq_read pooled rfl (by decide) (by decide)).trans hread
  simp only [runSteps, sideBySide, step, new, ↓reduceIte, hselect, bind, Except.bind, Except.map]

end Selector

end Icm.Java
