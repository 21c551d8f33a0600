import Icm.Reactor.Registration
import Icm.Rpc.TransportCache

/-!
# Closing a connection

The method `closeConnection` of class `TcpTransport` (`icm/TcpTransport.cpp`).
-/

namespace Icm.Rpc

open Icm.Lib Icm.Reactor SelectReactor

variable {η τ : Type}

/-- `TcpConnectionHandler`: what tells it apart from others, the handle of its stream, and the
address of the other side. -/
structure TcpConnection (η : Type) where
  handler : η
  mHandle : ℤ
  remoteAddr : InetAddr

/-- What closing a connection changes: the reactor, the cache of transports, which is used or not,
and the descriptors that were closed. -/
structure Process (η τ : Type) where
  reactor : SelectReactor η
  transportCache : TransportCacheManager τ
  cacheTransport : Bool
  closed : List ℤ

def allEventsMask : ReactorMask :=
  readMask ||| writeMask ||| exceptMask ||| acceptMask ||| connectMask ||| 1#64 <<< 5 |||
    1#64 <<< 6 ||| 1#64 <<< 7 ||| 1#64 <<< 8

def closeMask : ReactorMask := if allEventsMask ≠ 0#64 ∨ dontCall ≠ 0#64 then 1#64 else 0#64

namespace TcpConnection

variable (c : TcpConnection η)

def getHandle : ℤ := c.mHandle

def closeStream : TcpConnection η × List ℤ :=
  if c.mHandle ≠ -1 then ({ c with mHandle := -1 }, [c.mHandle]) else (c, [])

def removeHandler (r : SelectReactor η) (mask : ReactorMask) :
    Except Fault (SelectReactor η) := do
  let destroyed := r.callsHandleClose c.getHandle mask
  let r ← r.unbind c.getHandle mask
  if destroyed then r.unbind c.getHandle (allEventsMask ||| dontCall) else .ok r

def closeConnection (p : Process η τ) :
    Except Fault (Process η τ × TcpConnection η) := do
  let transportCache :=
    if p.cacheTransport then p.transportCache.closeTransport c.remoteAddr else p.transportCache
  let (c, descriptors) := c.closeStream
  let reactor ← c.removeHandler p.reactor closeMask
  .ok ({ p with reactor, transportCache, closed := p.closed ++ descriptors }, c)

theorem closeStream_mHandle : c.closeStream.1.mHandle = -1 := by
  rw [closeStream]
  split_ifs with h
  · rfl
  · exact not_not.mp h

end TcpConnection

def Knows (r : SelectReactor η) (handle : ℤ) (handler : η) : Prop :=
  (r.find handle).isSome ∨ (∃ g, r.find g = some handler) ∨
    ∃ e, (r.waitSet.of e).has handle = true

namespace TcpConnection

variable {p : Process η τ}

theorem removeHandler_of_invalid {r : SelectReactor η} (hr : r.Sound) {c : TcpConnection η}
    (hc : c.mHandle = -1) (mask : ReactorMask) : c.removeHandler r mask = .ok r := by
  have hnone : r.find c.getHandle = none := by
    refine Option.not_isSome_iff_eq_none.mp fun hsome => ?_
    have := (hr.range _ hsome).1
    rw [getHandle] at this
    omega
  have hunbind : r.unbind c.getHandle mask = .ok r := by rw [unbind, hnone]
  rw [removeHandler, hunbind, callsHandleClose, hnone]
  rfl

theorem closeConnection_reactor (hp : p.reactor.Sound) (c : TcpConnection η) :
    ∃ p' c', c.closeConnection p = .ok (p', c') ∧ p'.reactor = p.reactor := by
  have hremove := removeHandler_of_invalid hp c.closeStream_mHandle closeMask
  exact ⟨_, _, bind_eq_ok.mpr ⟨p.reactor, hremove, rfl⟩, rfl⟩

/-- After `closeConnection` the reactor has nothing for the descriptor and for the handler of the
connection, and a later connection that gets the descriptor is served by its own handler. -/
def ClosesRight (c : TcpConnection η) (p : Process η τ) : Prop :=
  ∃ p' c', c.closeConnection p = .ok (p', c') ∧
    ¬ Knows p'.reactor c.getHandle c.handler ∧
    ∀ (later : η) (mask : ReactorMask) (r : SelectReactor η),
      p'.reactor.bind c.getHandle later mask = .ok r → r.find c.getHandle = some later

/-- **Closing a connection.** -/
theorem closes_right_iff (hs : List (Happening η)) {r : SelectReactor η}
    (hrun : runSteps live .new hs = .ok r) (p : Process η τ) (hp : p.reactor = r)
    (c : TcpConnection η) : c.ClosesRight p ↔ ¬ Knows r c.getHandle c.handler := by
  subst hp
  obtain ⟨p', c', hclose, hsame⟩ := closeConnection_reactor (sound_of_run hrun) c
  constructor
  · rintro ⟨p₁, c₁, hclose₁, hgone, -⟩
    obtain ⟨rfl, -⟩ := Prod.mk.inj (Except.ok.inj (hclose₁.symm.trans hclose))
    rwa [hsame] at hgone
  · intro hgone
    refine ⟨p', c', hclose, by rwa [hsame], fun later mask r hbind => ?_⟩
    have hnone : p'.reactor.find c.getHandle = none := by
      rw [hsame]
      exact Option.not_isSome_iff_eq_none.mp fun hsome => hgone (.inl hsome)
    rw [(bind_spec hbind).2.1, hnone, if_pos rfl]
    rfl

def sampleConnection : TcpConnection ℕ := ⟨1, 5, ⟨0#32, 80#16⟩⟩

def sampleProcess (r : SelectReactor ℕ) : Process ℕ Unit := ⟨r, .create, true, []⟩

theorem closes_right_sample :
    ∃ r, runSteps live .new [.call (.registerHandler 5 1 readMask)] = .ok r ∧
      (sampleConnection.ClosesRight (sampleProcess r) ↔
        ¬ Knows r sampleConnection.getHandle sampleConnection.handler) :=
  ⟨_, rfl, closes_right_iff [.call (.registerHandler 5 1 readMask)] rfl (sampleProcess _) rfl
    sampleConnection⟩

theorem closed_connection_served :
    ∃ r, runSteps live .new [.call (.registerHandler 5 1 readMask)] = .ok r ∧
      ∃ p c r', sampleConnection.closeConnection (sampleProcess r) = .ok (p, c) ∧ p.closed = [5] ∧
        p.reactor.bind 5 2 readMask = .ok r' ∧ r'.find 5 = some 1 :=
  ⟨_, rfl, _, _, _, rfl, rfl, rfl, rfl⟩

end TcpConnection

end Icm.Rpc
