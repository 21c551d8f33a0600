import Icm.Lib.Run
import Icm.Lib.Table

/-!
# The cache of transports

`TransportCacheManager` (`icm/TransportCacheManager.cpp`) keeps the transports of a client in a
`std::map` whose keys are internet addresses (`icc/InetAddr.cpp`).
-/

namespace Icm.Rpc

open Icm.Lib Function

variable {τ : Type}

structure InetAddr where
  sAddr : BitVec 32
  sinPort : BitVec 16
  deriving DecidableEq

namespace InetAddr

def less (a b : InetAddr) : Prop := a.sAddr < b.sAddr

instance : DecidableRel less := fun a b => inferInstanceAs (Decidable (a.sAddr < b.sAddr))

def order (a b : InetAddr) : Ordering := cmpUsing less a b

theorem order_eq_cmp (a b : InetAddr) : order a b = cmp a.sAddr.toNat b.sAddr.toNat := rfl

theorem order_eq_iff {a b : InetAddr} : order a b = .eq ↔ a.sAddr = b.sAddr := by
  rw [order_eq_cmp, cmp_eq_eq_iff, BitVec.toNat_inj]

instance : Std.TransCmp order where
  eq_swap {a b} := by rw [order_eq_cmp, order_eq_cmp, cmp_swap]
  isLE_trans {a b c} hab hbc := by
    have hle {a b : InetAddr} : (order a b).isLE = true ↔ a.sAddr.toNat ≤ b.sAddr.toNat := by
      rw [order_eq_cmp, ← not_lt, ← cmp_eq_gt_iff]
      cases cmp a.sAddr.toNat b.sAddr.toNat <;> simp
    exact hle.mpr ((hle.mp hab).trans (hle.mp hbc))

end InetAddr

structure TransportCacheManager (τ : Type) where
  cacheMap : Std.TreeMap InetAddr τ InetAddr.order

inductive CacheCall (τ : Type)
  | cacheTransport (addr : InetAddr) (transport : τ)
  | closeTransport (addr : InetAddr)

def CacheCall.addr : CacheCall τ → InetAddr
  | .cacheTransport addr _ => addr
  | .closeTransport addr => addr

namespace TransportCacheManager

def create : TransportCacheManager τ := ⟨∅⟩

variable (m : TransportCacheManager τ) (addr : InetAddr)

def cacheTransport (transport : τ) :
    TransportCacheManager τ :=
  ⟨m.cacheMap.insertIfNew addr transport⟩

def findTransport : Option τ := m.cacheMap[addr]?

def closeTransport : TransportCacheManager τ :=
  ⟨m.cacheMap.erase addr⟩

def call (m : TransportCacheManager τ) : CacheCall τ → TransportCacheManager τ
  | .cacheTransport addr transport => m.cacheTransport addr transport
  | .closeTransport addr => m.closeTransport addr

@[simp] theorem findTransport_create (a : InetAddr) :
    (create : TransportCacheManager τ).findTransport a = none :=
  Std.TreeMap.getElem?_emptyc

theorem findTransport_cacheTransport (m : TransportCacheManager τ) (addr a : InetAddr) (x : τ) :
    (m.cacheTransport addr x).findTransport a =
      if addr.sAddr = a.sAddr then some ((m.findTransport addr).getD x) else m.findTransport a := by
  simp only [findTransport, cacheTransport, Std.TreeMap.getElem?_insertIfNew,
    InetAddr.order_eq_iff]
  by_cases hhost : addr.sAddr = a.sAddr
  · have hsame : m.cacheMap[a]? = m.cacheMap[addr]? :=
      Std.TreeMap.getElem?_congr (InetAddr.order_eq_iff.mpr hhost.symm)
    rw [if_pos hhost, hsame]
    by_cases hmem : addr ∈ m.cacheMap
    · obtain ⟨y, hy⟩ := Option.isSome_iff_exists.mp (Std.TreeMap.isSome_getElem?_iff_mem.mpr hmem)
      rw [if_neg (fun h => h.2 hmem), hy, Option.getD_some]
    · rw [if_pos ⟨hhost, hmem⟩, Std.TreeMap.getElem?_eq_none hmem, Option.getD_none]
  · rw [if_neg (fun h => hhost h.1), if_neg hhost]

theorem findTransport_closeTransport (m : TransportCacheManager τ) (addr a : InetAddr) :
    (m.closeTransport addr).findTransport a =
      if addr.sAddr = a.sAddr then none else m.findTransport a := by
  simp only [findTransport, closeTransport, Std.TreeMap.getElem?_erase, InetAddr.order_eq_iff]

end TransportCacheManager

abbrev Cached (τ : Type) := InetAddr → Option τ

def Cached.call (t : Cached τ) : CacheCall τ → Cached τ
  | .cacheTransport addr transport => update t addr (some transport)
  | .closeTransport addr => update t addr none

theorem Cached.call_of_ne (t : Cached τ) {c : CacheCall τ} {a : InetAddr} (h : c.addr ≠ a) :
    t.call c a = t a := by
  cases c with
  | cacheTransport addr x => exact update_of_ne (Ne.symm h) _ _
  | closeTransport addr => exact update_of_ne (Ne.symm h) _ _

theorem Cached.foldl_eq_some_iff (calls : List (CacheCall τ)) (a : InetAddr) (x : τ) :
    calls.foldl Cached.call (fun _ => none) a = some x ↔
      LastWith (fun c => c.addr = a) calls (.cacheTransport a x) := by
  induction calls using List.reverseRecOn with
  | nil => simp [not_lastWith_nil]
  | append_singleton calls c ih =>
    rw [List.foldl_append, List.foldl_cons, List.foldl_nil, lastWith_concat]
    by_cases hc : c.addr = a
    · subst hc
      cases c with
      | cacheTransport addr y => simp [Cached.call, CacheCall.addr, eq_comm]
      | closeTransport addr => simp [Cached.call, CacheCall.addr]
    · simp [Cached.call_of_ne _ hc, hc, ih]

namespace TransportCacheManager

variable {S : Set InetAddr} {m : TransportCacheManager τ} {t : Cached τ}

def Finds (S : Set InetAddr) (m : TransportCacheManager τ) (t : Cached τ) : Prop :=
  ∀ a ∈ S, m.findTransport a = t a

def Alone (S : Set InetAddr) (a : InetAddr) : Prop := ∀ b ∈ S, b.sAddr = a.sAddr → b = a

def Fresh (S : Set InetAddr) (m : TransportCacheManager τ) : CacheCall τ → Prop
  | .cacheTransport addr x => Alone S addr ∧ ∀ y, m.findTransport addr = some y → y = x
  | .closeTransport _ => True

structure Agrees (S : Set InetAddr) (m : TransportCacheManager τ) (t : Cached τ) : Prop where
  finds : Finds S m t
  alone : ∀ a ∈ S, m.findTransport a ≠ none → Alone S a

section

variable (h : Agrees S m t)
include h

theorem Agrees.cacheTransport {addr : InetAddr} {x : τ} (haddr : addr ∈ S)
    (hfresh : Fresh S m (.cacheTransport addr x)) :
    Agrees S (m.call (.cacheTransport addr x)) (t.call (.cacheTransport addr x)) := by
  obtain ⟨halone, hsame⟩ := hfresh
  have hget : (m.findTransport addr).getD x = x := by
    cases hfind : m.findTransport addr with
    | none => rfl
    | some y => exact hsame y hfind
  refine ⟨fun a ha => ?_, fun a ha hne => ?_⟩
  all_goals simp only [call, findTransport_cacheTransport, Cached.call] at *
  · by_cases hhost : addr.sAddr = a.sAddr
    · obtain rfl := halone a ha hhost.symm
      rw [if_pos rfl, hget, update_self]
    · have hne : a ≠ addr := fun heq => hhost (heq ▸ rfl)
      rw [if_neg hhost, update_of_ne hne, h.finds a ha]
  · by_cases hhost : addr.sAddr = a.sAddr
    · obtain rfl := halone a ha hhost.symm
      exact halone
    · rw [if_neg hhost] at hne
      exact h.alone a ha hne

theorem Agrees.closeTransport {addr : InetAddr} (haddr : addr ∈ S) :
    Agrees S (m.call (.closeTransport addr)) (t.call (.closeTransport addr)) := by
  refine ⟨fun a ha => ?_, fun a ha hne => ?_⟩
  all_goals simp only [call, findTransport_closeTransport, Cached.call] at *
  · by_cases heq : a = addr
    · rw [heq, if_pos rfl, update_self]
    · rw [update_of_ne heq, ← h.finds a ha]
      split_ifs with hhost
      · -- the entry of the host, if there were one, would be for both addresses
        by_contra hnone
        exact heq (h.alone a ha (Ne.symm hnone) addr haddr hhost).symm
      · rfl
  · split_ifs at hne with hhost
    · exact absurd rfl hne
    · exact h.alone a ha hne

theorem Agrees.finds_call_iff {c : CacheCall τ} (hc : c.addr ∈ S) :
    Finds S (m.call c) (t.call c) ↔ Fresh S m c := by
  cases c with
  | closeTransport addr => exact iff_of_true (h.closeTransport hc).finds trivial
  | cacheTransport addr x =>
    refine ⟨fun hfinds => ⟨fun b hb hhost => ?_, fun y hy => ?_⟩,
      fun hfresh => (h.cacheTransport hc hfresh).finds⟩
    · -- another address of the host would find the new transport
      by_contra hne
      have hfind := hfinds b hb
      rw [call, findTransport_cacheTransport, if_pos hhost.symm,
        Cached.call_of_ne t (Ne.symm hne : (CacheCall.cacheTransport addr x).addr ≠ b),
        ← h.finds b hb] at hfind
      exact hne (h.alone b hb (by simp [← hfind]) addr hc hhost.symm).symm
    · have hfind := hfinds addr hc
      rw [call, findTransport_cacheTransport, if_pos rfl, hy, Cached.call,
        update_self] at hfind
      exact Option.some.inj hfind

theorem Agrees.call {c : CacheCall τ} (hc : c.addr ∈ S) (hfresh : Fresh S m c) :
    Agrees S (m.call c) (t.call c) := by
  cases c with
  | closeTransport addr => exact h.closeTransport hc
  | cacheTransport addr x => exact h.cacheTransport hc hfresh

end

theorem create_agrees : Agrees S (create : TransportCacheManager τ) fun _ => none where
  finds a _ := findTransport_create a
  alone a _ hne := absurd (findTransport_create a) hne

/-- **When `findTransport` returns the transport most recently cached for exactly its address and
not closed since**, for the addresses in use and after any of the calls: exactly if a transport is
only cached for an address that is the only one in use of its host, and not in the place of another
transport. -/
theorem finds_iff (S : Set InetAddr) (calls : List (CacheCall τ))
    (hcalls : ∀ c ∈ calls, c.addr ∈ S) :
    (∀ before after, calls = before ++ after → ∀ a ∈ S, ∀ x,
        (before.foldl call create).findTransport a = some x ↔
          LastWith (fun c => c.addr = a) before (.cacheTransport a x)) ↔
      EachStep (total call) (Fresh S) create calls := by
  have hmoment (before : List (CacheCall τ)) :
      (∀ a ∈ S, ∀ x, (before.foldl call create).findTransport a = some x ↔
          LastWith (fun c => c.addr = a) before (.cacheTransport a x)) ↔
        Finds S (before.foldl call create) (before.foldl Cached.call fun _ => none) := by
    simp only [← Cached.foldl_eq_some_iff]
    exact forall₂_congr fun a _ => ⟨Option.ext, fun heq x => by rw [heq]⟩
  have hsteps : (∀ before c after, calls = before ++ c :: after →
      Finds S ((before.foldl call create).call c)
        ((before.foldl Cached.call fun _ => none).call c)) ↔
      EachStep (total call) (Fresh S) create calls := by
    refine forall_steps_iff (R := Agrees S) (Q := fun m t c => Finds S (m.call c) (t.call c)) ?_ ?_
      create_agrees
    · intro m t c hc h
      exact h.finds_call_iff (hcalls c hc)
    · intro m t c hc h hfresh
      exact h.call (hcalls c hc) hfresh
  rw [← hsteps]
  simp only [hmoment]
  constructor
  · intro hall before c after heq
    have hfinds := hall (before ++ [c]) after (by simpa using heq)
    rwa [List.foldl_append, List.foldl_append] at hfinds
  · intro hall before after heq
    rcases List.eq_nil_or_concat before with rfl | ⟨before, c, rfl⟩
    · exact create_agrees.finds
    · rw [List.concat_eq_append, List.foldl_append, List.foldl_append]
      exact hall before c after (by simpa using heq)

def hostAt (port : BitVec 16) : InetAddr := ⟨0x0a000001#32, port⟩

def onePort : List (CacheCall ℕ) :=
  [.cacheTransport (hostAt 80#16) 1, .closeTransport (hostAt 80#16),
    .cacheTransport (hostAt 80#16) 2]

theorem finds_iff_onePort :
    (∀ c ∈ onePort, c.addr ∈ ({hostAt 80#16} : Set InetAddr)) ∧
      ∀ before after, onePort = before ++ after → ∀ a ∈ ({hostAt 80#16} : Set InetAddr), ∀ x,
        (before.foldl call create).findTransport a = some x ↔
          LastWith (fun c => c.addr = a) before (.cacheTransport a x) := by
  have hcalls : ∀ c ∈ onePort, c.addr ∈ ({hostAt 80#16} : Set InetAddr) := by
    simp [onePort, CacheCall.addr]
  have halone : Alone {hostAt 80#16} (hostAt 80#16) := fun b hb _ => hb
  refine ⟨hcalls, (finds_iff {hostAt 80#16} onePort hcalls).mpr ?_⟩
  simp [onePort, EachStep, total, Fresh, halone, call, findTransport_closeTransport]

theorem findTransport_other_port :
    ((create.cacheTransport (hostAt 80#16) 1).findTransport (hostAt 81#16) = some 1 ∧
      ¬ LastWith (fun c => c.addr = hostAt 81#16) [CacheCall.cacheTransport (hostAt 80#16) 1]
        (.cacheTransport (hostAt 81#16) 1)) ∧
    ((create.cacheTransport (hostAt 80#16) 1).cacheTransport (hostAt 80#16) 2).findTransport
      (hostAt 80#16) = some 1 := by
  refine ⟨⟨by simp [findTransport_cacheTransport, hostAt], fun h => ?_⟩,
    by simp [findTransport_cacheTransport]⟩
  have hmem := h.mem
  simp [hostAt] at hmem

end TransportCacheManager

end Icm.Rpc
