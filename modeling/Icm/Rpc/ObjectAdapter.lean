import Icm.Lib.Run
import Icm.Rpc.RequestHeader

/-!
# Servants and the requests for them

`ObjectAdapter` (`icm/ObjectAdapter.cpp`) registers servants under identities and looks them up for
requests, with a `ServantManager` (`icm/ServantManager.cpp`).
-/

namespace Icm.Rpc

open Icm.Lib Icm.Stream

variable {ω : Type}

/-- `ServantManager`: servants by name, and servant locators by category. A locator returns a
servant for a request, or none. -/
structure ServantManager (ω : Type) where
  servantMap : List UInt8 → Option ω
  locatorMap : List UInt8 → Option (RequestHeader → Option ω)

namespace ServantManager

def create : ServantManager ω := ⟨fun _ => none, fun _ => none⟩

variable (sm : ServantManager ω)

def addServant (obj : ω) (ident : Identity) : Bool × ServantManager ω :=
  match sm.servantMap ident.name with
  | none =>
    (true, { sm with servantMap := Function.update sm.servantMap ident.name (some obj) })
  | some _ => (false, sm)

def removeServant (ident : Identity) : Option ω × ServantManager ω :=
  (sm.servantMap ident.name,
    { sm with servantMap := Function.update sm.servantMap ident.name none })

def findServant (ident : Identity) : Option ω := sm.servantMap ident.name

def hasServant (ident : Identity) : Bool :=
  (sm.servantMap ident.name).isSome

def addServantLocator (locator : RequestHeader → Option ω)
    (category : List UInt8) : ServantManager ω :=
  match sm.locatorMap category with
  | none => { sm with locatorMap := Function.update sm.locatorMap category (some locator) }
  | some _ => sm

def findServantLocator (category : List UInt8) :
    Option (RequestHeader → Option ω) :=
  sm.locatorMap category

end ServantManager

def RequestHeader.identity (request : RequestHeader) : Identity := ⟨request.name, request.category⟩

inductive AdapterCall (ω : Type)
  | add (obj : ω) (ident : Identity)
  | remove (ident : Identity)

namespace ObjectAdapter

variable (sm : ServantManager ω)

def add (obj : ω) (ident : Identity) : Bool × ServantManager ω :=
  sm.addServant obj ident

def remove (ident : Identity) : ServantManager ω :=
  (sm.removeServant ident).2

def find (request : RequestHeader) (ident : Identity) : Option ω :=
  if ident.category ≠ [] then
    match sm.findServantLocator ident.category with
    | none => none
    | some locate => locate request
  else sm.findServant ident

def app (reads : ω → RequestHeader → Script)
    (dispatcher : ℕ → Option Dispatcher) : App where
  find request := (find sm request request.identity).map fun obj => reads obj request
  dispatcher := dispatcher

def call (sm : ServantManager ω) : AdapterCall ω → ServantManager ω
  | .add obj ident => (add sm obj ident).2
  | .remove ident => remove sm ident

end ObjectAdapter

abbrev Servants (ω : Type) := Identity → Option ω

def Servants.call (t : Servants ω) : AdapterCall ω → Servants ω
  | .add obj ident => if (t ident).isNone then Function.update t ident (some obj) else t
  | .remove ident => Function.update t ident none

namespace ObjectAdapter

variable (sm : ServantManager ω)

def Unlocated (ident : Identity) : Prop :=
  ident.category = [] ∨ sm.findServantLocator ident.category = none

def Finds (t : Servants ω) : Prop :=
  ∀ request : RequestHeader, Unlocated sm request.identity →
    find sm request request.identity = t request.identity

def Right (t : Servants ω) (c : AdapterCall ω) : Prop :=
  (∀ obj ident, c = .add obj ident → ((add sm obj ident).1 = true ↔ t ident = none)) ∧
    Finds (call sm c) (t.call c)

def Plain : AdapterCall ω → Prop
  | .add _ ident => ident.category = []
  | .remove ident => ident.category = [] ∨ sm.hasServant ident = false

instance (sm : ServantManager ω) : ∀ c, Decidable (Plain sm c)
  | .add _ ident => inferInstanceAs (Decidable (ident.category = []))
  | .remove ident => inferInstanceAs (Decidable (ident.category = [] ∨ _))

structure Agrees (sm : ServantManager ω) (t : Servants ω) : Prop where
  named : ∀ name, sm.servantMap name = t ⟨name, []⟩
  plain : ∀ ident : Identity, ident.category ≠ [] → t ident = none

theorem find_of_category_eq_nil (request : RequestHeader)
    {ident : Identity} (h : ident.category = []) :
    find sm request ident = sm.servantMap ident.name := by
  simp [find, h, ServantManager.findServant]

def plainRequest (name : List UInt8) : RequestHeader := ⟨0, true, name, [], [], true⟩

theorem Finds.named {sm : ServantManager ω} {t : Servants ω} (h : Finds sm t)
    (name : List UInt8) : sm.servantMap name = t ⟨name, []⟩ := by
  have hfind := find_of_category_eq_nil sm (plainRequest name)
    (show (plainRequest name).identity.category = [] from rfl)
  exact hfind.symm.trans (h (plainRequest name) (Or.inl rfl))

namespace Agrees

variable {sm : ServantManager ω} {t : Servants ω}

variable {ident : Identity}

section

variable (h : Agrees sm t)
include h

theorem eq_of_category_eq_nil (hc : ident.category = []) :
    sm.servantMap ident.name = t ident := by
  rw [h.named, ← hc]

theorem finds : Finds sm t := by
  intro request hrequest
  by_cases hc : request.identity.category = []
  · rw [find_of_category_eq_nil sm request hc, h.eq_of_category_eq_nil hc]
  · rw [h.plain _ hc, find, if_pos hc, hrequest.resolve_left hc]

theorem add_iff (obj : ω) (hc : ident.category = []) :
    (add sm obj ident).1 = true ↔ t ident = none := by
  rw [← h.eq_of_category_eq_nil hc, add, ServantManager.addServant]
  cases sm.servantMap ident.name <;> simp

theorem add (obj : ω) (hc : ident.category = []) :
    Agrees (call sm (.add obj ident)) (t.call (.add obj ident)) := by
  have heq := h.eq_of_category_eq_nil hc
  rw [call, ObjectAdapter.add, ServantManager.addServant, Servants.call, ← heq]
  cases hname : sm.servantMap ident.name with
  | some old => exact h
  | none =>
    refine ⟨fun name => ?_, fun ident' hne => ?_⟩
    · by_cases hn : name = ident.name
      · subst hn
        rw [← hc]
        simp
      · have hident : (⟨name, []⟩ : Identity) ≠ ident := fun h => hn (congrArg Identity.name h)
        simp [hn, hident, h.named name]
    · have hident : ident' ≠ ident := fun h => hne (h ▸ hc)
      simp [hident, h.plain ident' hne]

theorem remove (hc : ident.category = [] ∨ sm.hasServant ident = false) :
    Agrees (call sm (.remove ident)) (t.call (.remove ident)) := by
  rw [call, ObjectAdapter.remove, ServantManager.removeServant, Servants.call]
  refine ⟨fun name => ?_, fun ident' hne => ?_⟩
  · by_cases hn : name = ident.name
    · subst hn
      rcases hc with hc | hc
      · rw [← hc]
        simp
      · have hnone : sm.servantMap ident.name = none := by
          simpa [ServantManager.hasServant] using hc
        by_cases hident : (⟨ident.name, []⟩ : Identity) = ident
        · simp [hident]
        · simp [hident, ← h.named, hnone]
    · have hident : (⟨name, []⟩ : Identity) ≠ ident := fun h => hn (congrArg Identity.name h)
      simp [hn, hident, h.named name]
  · by_cases hident : ident' = ident
    · simp [hident]
    · simp [hident, h.plain ident' hne]

theorem call {c : AdapterCall ω} (hc : Plain sm c) :
    Agrees (ObjectAdapter.call sm c) (t.call c) := by
  cases c with
  | add obj ident => exact h.add obj hc
  | remove ident => exact h.remove hc

theorem not_right_add (obj : ω) (hc : ident.category ≠ []) :
    ¬ Right sm t (.add obj ident) := by
  rintro ⟨hadd, hfinds⟩
  have hans := (hadd obj ident rfl).mpr (h.plain ident hc)
  have hne : (⟨ident.name, []⟩ : Identity) ≠ ident := fun heq => hc (heq ▸ rfl)
  have hnamed := hfinds.named ident.name
  rw [ObjectAdapter.add, ServantManager.addServant] at hans
  rw [ObjectAdapter.call, ObjectAdapter.add, ServantManager.addServant, Servants.call,
    h.plain ident hc] at hnamed
  cases hname : sm.servantMap ident.name with
  | some old => simp [hname] at hans
  | none => simp [hname, hne, ← h.named] at hnamed

theorem not_right_remove (hc : ident.category ≠ [])
    (hhas : sm.hasServant ident = true) : ¬ Right sm t (.remove ident) := by
  rintro ⟨-, hfinds⟩
  obtain ⟨obj, hobj⟩ := Option.isSome_iff_exists.mp hhas
  have hne : (⟨ident.name, []⟩ : Identity) ≠ ident := fun heq => hc (heq ▸ rfl)
  have hnamed := hfinds.named ident.name
  rw [ObjectAdapter.call, ObjectAdapter.remove, ServantManager.removeServant, Servants.call]
    at hnamed
  simp [hne, ← h.named, hobj] at hnamed

theorem right_iff (c : AdapterCall ω) : Right sm t c ↔ Plain sm c := by
  constructor
  · intro hright
    by_contra hplain
    cases c with
    | add obj ident => exact h.not_right_add obj hplain hright
    | remove ident =>
      obtain ⟨hc, hhas⟩ := not_or.mp hplain
      exact h.not_right_remove hc (Bool.eq_true_of_not_eq_false hhas) hright
  · intro hplain
    refine ⟨?_, (h.call hplain).finds⟩
    rintro obj ident rfl
    exact h.add_iff obj hplain

end

end Agrees

/-- **When the calls on an adapter do what they do on the table of servants**: exactly if servants
are added under an empty category and no call with another category removes one. Servant locators
may be registered for any categories. -/
theorem calls_right_iff (locators : List UInt8 → Option (RequestHeader → Option ω))
    (calls : List (AdapterCall ω)) :
    (∀ before c after, calls = before ++ c :: after →
        Right (before.foldl call ⟨fun _ => none, locators⟩)
          (before.foldl Servants.call fun _ => none) c) ↔
      EachStep (total call) Plain ⟨fun _ => none, locators⟩ calls := by
  refine forall_steps_iff (R := Agrees) ?_ ?_ ⟨fun _ => rfl, fun _ _ => rfl⟩
  · intro sm t c _ h
    exact h.right_iff c
  · intro sm t c _ h hc
    exact h.call hc

theorem category_ignored :
    (add (.create : ServantManager ℕ) 1 ⟨[97], [120]⟩).1 = true ∧
    find (call .create (.add 1 ⟨[97], [120]⟩)) ⟨0, true, [97], [120], [], true⟩ ⟨[97], [120]⟩ =
      none ∧
    (add (call .create (.add 1 ⟨[97], [120]⟩)) 2 ⟨[97], [121]⟩).1 = false ∧
    (call (call .create (.add 1 ⟨[97], []⟩)) (.remove ⟨[97], [120]⟩)).findServant ⟨[97], []⟩ =
      none := by
  decide

end ObjectAdapter

open IcmProtocol IcmTransport InputStream

/-- A request that was handed to a socket that takes all of every block. -/
structure ClientRequest where
  host : ByteOrder
  heap : ℕ → Chunk
  requestId : BitVec 32
  responseFlags : UInt8
  ident : Identity
  opname : List UInt8
  args : List Value
  stream : OutputStream
  results : ℕ → SendResult
  built : (startMessage host .request (.create host heap) >>=
    writeRequestHeader host requestId responseFlags ident opname >>=
      OutputStream.writeValues host args) = some stream
  strings : ∀ s ∈ [ident.name, ident.category, opname], 0 ∉ s ∧ StringFits s
  values : ∀ v ∈ args, v.NulFree ∧ v.Fits
  accepted : ∀ p ∈ offers (sentBlocks host stream) results, p.2.Covers p.1

example : ∃ r : ClientRequest, r.args = [.octet 7] :=
  ⟨⟨.little, fun _ => zeroChunk, 1, 1, ⟨[97], []⟩, [98], [.octet 7],
    Option.get _ (by decide +kernel), fun _ => .accepted 512, (Option.some_get _).symm,
    by simp [StringFits], by simp [Value.NulFree, Value.Fits], by decide +kernel⟩, rfl⟩

def ClientRequest.header (r : ClientRequest) : RequestHeader :=
  ⟨r.requestId.toNat, r.responseFlags ≠ 0, r.ident.name, r.ident.category, r.opname, true⟩

theorem ClientRequest.sent (r : ClientRequest) : ∃ (wire : WireHeader) (m : Message),
    wire.header = r.header ∧ (sendMessage r.host (some r.results) r.stream).2 = m.bytes ∧
      m.type = MessageType.request.toOctet ∧
        m.body = wire.bytes ++ r.args.flatMap (Value.encode r.host) := by
  obtain ⟨hname, hcategory, hopname, -⟩ := by simpa only [List.forall_mem_cons] using r.strings
  obtain ⟨headed, hhead, hwrite⟩ := Option.bind_eq_some_iff.mp r.built
  obtain ⟨started, hstarted, hhead⟩ := Option.bind_eq_some_iff.mp hhead
  obtain ⟨os, hstart, hframed⟩ := startFrame_framed r.host MessageType.request.toOctet r.heap
  obtain rfl : started = os := Option.some.inj (hstarted.symm.trans hstart)
  obtain ⟨wire, hheader, hfields⟩ := writeRequestHeader_spec hframed.wf hframed.swap hname.1
    hcategory.1 hopname.1 hhead
  have hargs := OutputStream.writeValues_spec hheader.wf (hheader.swap_eq.trans hframed.swap)
    (fun v hv => (r.values v hv).2) hwrite
  have hsent := (hframed.wrote hheader).wrote hargs
  rw [List.nil_append] at hsent
  refine ⟨wire, ⟨_, _, hsent.length_body_lt⟩, hfields.mpr ⟨hname.2, hcategory.2, hopname.2⟩, ?_,
    rfl, rfl⟩
  rw [sendMessage_eq, sendEach_of_covers r.accepted, flatten_sentBlocks, hsent.patchLength_bytes]
  rfl

/-- **A request is served as it was made**: however the socket cuts its bytes, the adapter looks for
the servant under the identity that was written, and the servant reads the arguments that were
written. -/
theorem ObjectAdapter.request_served (r : ClientRequest) (tail : List UInt8) (sizes : ℕ → ℕ+)
    (c : Chunk) (sm : ServantManager ω) (reads : ω → RequestHeader → Script)
    (dispatcher : ℕ → Option Dispatcher) (turn : Turn) :
    ∃ input, decodedAfter r.host (tcpTransport .cut).recv c []
        { turn with app := app sm reads dispatcher }
        ⟨(sendMessage r.host (some r.results) r.stream).2 ++ tail, sizes⟩ =
          some (.request r.header ((find sm r.header r.ident).map fun obj =>
            (runScript r.host turn.junk (reads obj r.header) input).1)) ∧
      ∀ junk, (readValues r.host (r.args.map Value.kind) junk input).1 = r.args := by
  obtain ⟨wire, m, hwire, hsent, htype, hbody⟩ := r.sent
  obtain ⟨hnil, -⟩ | ⟨-, state, s', hcall, hhold, -⟩ := handleInputI_frame r.host .cut
    { turn with app := app sm reads dispatcher }
    (show Ready (.create r.host c) from ⟨rfl, rfl, rfl⟩) ⟨m.bytes ++ tail, sizes⟩ rfl
  -- The frame has a body, since a header has bytes.
  · simp [hbody, WireHeader.bytes] at hnil
  · have hstarts := starts_of_holding hhold
    rw [hbody] at hstarts
    have hparse := parseHeader_spec hhold.swap_eq hhold.good_eq hstarts.left turn.junk
    have hfind : (app sm reads dispatcher).find r.header =
      (find sm r.header r.ident).map (reads · r.header) := rfl
    refine ⟨_, ?_, fun junk => congrArg Prod.fst (readValues_spec
      ((state.stream.skip_doByteSwap _).trans hhold.swap_eq) (fun v hv => (r.values v hv).1)
      (fun v hv => (r.values v hv).2) hhold.good_eq hstarts.right junk)⟩
    rw [hsent]
    refine (congrArg (fun r => some r.1.1.1) hcall).trans ?_
    rw [processMessage, if_pos (hhold.type_eq.trans htype)]
    simp only [transferContents_eq hhold.swap_eq hhold.good_eq, processServerRequest, hparse, hwire,
      hfind]
    cases find sm r.header r.ident <;> rfl

end Icm.Rpc
