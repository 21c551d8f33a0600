import Icm.Lib.Table
import Icm.Java.Codec

/-!
# Finding the operation of a request

`IcmRequestDispatcher` keeps the operations of a server in one map.
-/

namespace Icm.Java

open Icm.Lib

structure RequestHead where
  name : JString
  category : JString
  operation : JString
  deriving DecidableEq

def jstring (s : String) : JString := .ofUnits (s.toList.map fun c => .ofNat _ c.toNat)

def underscore : BitVec 16 := 0x5f

def numberSign : BitVec 16 := 0x23

def key (name category operation : JString) : List (BitVec 16) :=
  name.units ++ underscore :: (category.units ++ numberSign :: operation.units)

def RequestHead.key (h : RequestHead) : List (BitVec 16) :=
  Java.key h.name h.category h.operation

namespace RequestHead

def Plain (h : RequestHead) : Prop :=
  underscore ∉ h.name.units ∧ numberSign ∉ h.category.units

theorem key_injective_of_plain {h h' : RequestHead} (hh : h.Plain) (hh' : h'.Plain)
    (hkey : h.key = h'.key) : h = h' := by
  obtain ⟨hname, hrest⟩ := append_cons_inj hh.1 hh'.1 hkey
  obtain ⟨hcategory, hoperation⟩ := append_cons_inj hh.2 hh'.2 hrest
  obtain ⟨⟨name, _⟩, ⟨category, _⟩, ⟨operation, _⟩⟩ := h
  subst hname hcategory hoperation
  rfl

end RequestHead

structure IcmRequestDispatcher (ω : Type) where
  operationMap : List (BitVec 16) → Option ω

namespace IcmRequestDispatcher

variable {ω : Type}

def new : IcmRequestDispatcher ω := ⟨fun _ => none⟩

variable (d : IcmRequestDispatcher ω)

def dispatch (requestHead : RequestHead) : Option ω :=
  d.operationMap requestHead.key

def addOperation (name category operation : JString)
    (icmOperation : ω) : IcmRequestDispatcher ω :=
  ⟨Function.update d.operationMap (Java.key name category operation) (some icmOperation)⟩

def addAll (calls : List (RequestHead × ω)) : IcmRequestDispatcher ω :=
  calls.foldl (fun d c => d.addOperation c.1.name c.1.category c.1.operation c.2) d

theorem operationMap_addAll (calls : List (RequestHead × ω)) :
    (d.addAll calls).operationMap =
      calls.foldl (fun (t : List (BitVec 16) → Option ω) c => Function.update t c.1.key (some c.2))
        d.operationMap := by
  induction calls generalizing d with
  | nil => rfl
  | cons c calls ih => exact ih (d.addOperation c.1.name c.1.category c.1.operation c.2)

variable (calls : List (RequestHead × ω)) (head : RequestHead)

theorem dispatch_addAll_iff (op : ω) :
    (new.addAll calls).dispatch head = some op ↔
      ∃ c, LastWith (fun c => c.1.key = head.key) calls c ∧ c.2 = op := by
  rw [dispatch, operationMap_addAll]
  exact foldl_update_eq_some_iff _ _ calls head.key op

def LastRegistered (op : ω) : Prop :=
  LastWith (fun c => c.1 = head) calls (head, op)

/-- No other triple is in the way of the request: the last registration under its key, if it is one
of another triple, repeats the operation of the request's own triple. -/
def Distinguished : Prop :=
  ∀ c, LastWith (fun c => c.1.key = head.key) calls c → c.1 ≠ head →
    LastRegistered calls head c.2

variable {calls : List (RequestHead × ω)} {head : RequestHead}

theorem lastRegistered_of_lastWith
    {c : RequestHead × ω} (h : LastWith (fun c => c.1.key = head.key) calls c)
    (hc : c.1 = head) : LastRegistered calls head c.2 := by
  subst hc
  exact h.of_imp rfl fun c' hc' => congrArg RequestHead.key hc'

theorem dispatch_of_distinguished
    (h : Distinguished calls head) (op : ω) :
    (new.addAll calls).dispatch head = some op ↔ LastRegistered calls head op := by
  have hlast {c : RequestHead × ω} (hc : LastWith (fun c => c.1.key = head.key) calls c) :
      LastRegistered calls head c.2 := by
    by_cases heq : c.1 = head
    · exact lastRegistered_of_lastWith hc heq
    · exact h c hc heq
  rw [dispatch_addAll_iff]
  constructor
  · rintro ⟨c, hc, rfl⟩
    exact hlast hc
  · intro hop
    -- the operation of the triple was registered under the key, so that the key has a last one
    have hkey : (head, op).1.key = head.key := rfl
    obtain ⟨c, hc⟩ := exists_lastWith (p := fun c => c.1.key = head.key) hop.mem hkey
    exact ⟨c, hc, congrArg Prod.snd ((hlast hc).unique hop)⟩

/-- **When a request finds the operation of its own triple.** -/
theorem dispatch_iff_registered (calls : List (RequestHead × ω)) (head : RequestHead) :
    (∀ op, (new.addAll calls).dispatch head = some op ↔ LastRegistered calls head op) ↔
      Distinguished calls head := by
  constructor
  · intro h c hc _
    exact (h c.2).mp ((dispatch_addAll_iff calls head c.2).mpr ⟨c, hc, rfl⟩)
  · exact dispatch_of_distinguished

theorem dispatch_other_triple :
    let registered : RequestHead := ⟨jstring "a_b", jstring "", jstring "op"⟩
    let head : RequestHead := ⟨jstring "a", jstring "b_", jstring "op"⟩
    (new.addAll [(registered, 1)]).dispatch head = some 1 ∧
      ¬ LastRegistered [(registered, 1)] head 1 := by
  refine ⟨by decide, ?_⟩
  intro h
  have hmem := h.mem
  revert hmem
  decide

theorem distinguished_of_plain
    (hcalls : ∀ c ∈ calls, c.1.Plain) (hhead : head.Plain) : Distinguished calls head := by
  intro c hc hne
  exact absurd (RequestHead.key_injective_of_plain (hcalls c hc.mem) hhead hc.holds) hne

end IcmRequestDispatcher

structure AnnotationValue where
  value : JString
  isLiteral : Bool

def annotatedName ( annotation : Option AnnotationValue) (plainName : JString) : JString :=
  match annotation with
  | none => plainName
  | some a => if a.isLiteral then plainName else a.value

structure Method where
  name : JString
  operation : Option AnnotationValue
  realMethod : Option (Bool × Bool)

structure InterfaceClass where
  simpleName : JString
  name : Option AnnotationValue
  methods : List Method

structure IcmOperation (σ : Type) where
  method : Method
  obj : σ
  async : Bool

structure ServiceCall (σ : Type) where
  interfaceClass : InterfaceClass
  service : σ
  allAsync : Bool

namespace ServiceCall

variable {σ : Type}

def head (call : ServiceCall σ) (method : Method) : RequestHead where
  name := annotatedName call.interfaceClass.name call.interfaceClass.simpleName
  category := .empty
  operation := annotatedName method.operation method.name

def addMethods (call : ServiceCall σ) :
    List Method → IcmRequestDispatcher (IcmOperation σ) →
      IcmRequestDispatcher (IcmOperation σ) × Option Abrupt
  | [], d => (d, none)
  | method :: methods, d =>
    match method.realMethod with
    | none => (d, some .illegalArgument)
    | some (isAsync, isSync) =>
      let async := if call.allAsync then !isSync else isAsync
      let h := call.head method
      call.addMethods methods
        (d.addOperation h.name h.category h.operation ⟨method, call.service, async⟩)

def addService (running : Bool) (d : IcmRequestDispatcher (IcmOperation σ))
    (call : ServiceCall σ) : IcmRequestDispatcher (IcmOperation σ) × Option Abrupt :=
  if running then (d, none) else call.addMethods call.interfaceClass.methods d

theorem addMethods_eq_addAll (call : ServiceCall σ) (methods : List Method)
    (d : IcmRequestDispatcher (IcmOperation σ)) :
    ∃ calls, (call.addMethods methods d).1 = d.addAll calls ∧
      ∀ c ∈ calls, ∃ method ∈ methods, c.1 = call.head method ∧ c.2.method = method := by
  induction methods generalizing d with
  | nil => exact ⟨[], rfl, by simp⟩
  | cons method methods ih =>
    cases hreal : method.realMethod with
    | none => exact ⟨[], by simp [addMethods, hreal, IcmRequestDispatcher.addAll], by simp⟩
    | some marks =>
      obtain ⟨isAsync, isSync⟩ := marks
      set op : IcmOperation σ :=
        ⟨method, call.service, if call.allAsync then !isSync else isAsync⟩ with hop
      obtain ⟨calls, hcalls, hmem⟩ := ih (d.addOperation (call.head method).name
        (call.head method).category (call.head method).operation op)
      refine ⟨(call.head method, op) :: calls, ?_, ?_⟩
      · rw [addMethods, hreal]
        exact hcalls
      · refine List.forall_mem_cons.mpr ⟨⟨method, List.mem_cons_self, rfl, rfl⟩, fun c hc => ?_⟩
        obtain ⟨m, hm, hhead⟩ := hmem c hc
        exact ⟨m, List.mem_cons_of_mem _ hm, hhead⟩

def addServices (d : IcmRequestDispatcher (IcmOperation σ)) (serviceCalls : List (ServiceCall σ)) :
    IcmRequestDispatcher (IcmOperation σ) :=
  serviceCalls.foldl (fun d call => (call.addService false d).1) d

variable (serviceCalls : List (ServiceCall σ))

def Registers (calls : List (RequestHead × IcmOperation σ)) : Prop :=
  ∀ c ∈ calls, ∃ call ∈ serviceCalls, ∃ method ∈ call.interfaceClass.methods,
    c.1 = call.head method ∧ c.2.method = method

theorem addServices_eq_addAll (d : IcmRequestDispatcher (IcmOperation σ)) :
    ∃ calls, addServices d serviceCalls = d.addAll calls ∧ Registers serviceCalls calls := by
  induction serviceCalls generalizing d with
  | nil => exact ⟨[], rfl, List.forall_mem_nil _⟩
  | cons call serviceCalls ih =>
    obtain ⟨first, hfirst, hfirstmem⟩ :=
      call.addMethods_eq_addAll call.interfaceClass.methods d
    obtain ⟨rest, hrest, hrestmem⟩ := ih (d.addAll first)
    refine ⟨first ++ rest, ?_, fun c hc => ?_⟩
    · rw [addServices, List.foldl_cons, addService, if_neg Bool.false_ne_true, hfirst]
      rw [addServices] at hrest
      rw [hrest, IcmRequestDispatcher.addAll, IcmRequestDispatcher.addAll,
        IcmRequestDispatcher.addAll, List.foldl_append]
    · rcases List.mem_append.mp hc with hc | hc
      · exact ⟨call, List.mem_cons_self, hfirstmem c hc⟩
      · obtain ⟨call', hcall', hmethod⟩ := hrestmem c hc
        exact ⟨call', List.mem_cons_of_mem _ hcall', hmethod⟩

theorem dispatch_addServices_iff {head : RequestHead}
    (hnames : ∀ call ∈ serviceCalls,
      underscore ∉ (annotatedName call.interfaceClass.name call.interfaceClass.simpleName).units)
    (hhead : head.Plain) :
    ∃ calls, Registers serviceCalls calls ∧ ∀ op,
      (addServices .new serviceCalls).dispatch head = some op ↔
        IcmRequestDispatcher.LastRegistered calls head op := by
  obtain ⟨calls, hcalls, hregisters⟩ := addServices_eq_addAll serviceCalls .new
  refine ⟨calls, hregisters, ?_⟩
  rw [hcalls]
  refine IcmRequestDispatcher.dispatch_of_distinguished
    (IcmRequestDispatcher.distinguished_of_plain (fun c hc => ?_) hhead)
  obtain ⟨call, hcall, method, -, hhead, -⟩ := hregisters c hc
  rw [hhead]
  exact ⟨hnames call hcall, List.not_mem_nil⟩

end ServiceCall

end Icm.Java
