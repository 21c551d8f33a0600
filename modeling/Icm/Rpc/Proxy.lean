import Icm.Stream.Values

/-!
# Proxies on the wire

`ProxyFactory::proxyToStream` and `ProxyFactory::streamToProxy` (`icm/Proxy.cpp`).
-/

namespace Icm.Rpc

open Icm.Stream List OutputStream InputStream

structure Identity where
  name : List UInt8
  category : List UInt8
  deriving DecidableEq

structure Endpoint where
  protocol : List UInt8
  host : List UInt8
  port : BitVec 16
  deriving DecidableEq

structure Reference where
  identity : Identity
  endpoint : Endpoint
  deriving DecidableEq

def Identity.empty : Identity := ⟨[], []⟩

def Endpoint.empty : Endpoint := ⟨[], [], 0⟩

section Functions

variable (host : ByteOrder)

def Identity.write (ident : Identity) (os : OutputStream) : Option OutputStream := do
  let os ← os.writeString host ident.name
  os.writeString host ident.category

def Identity.read (junk : ℕ) (is : InputStream) : Identity × InputStream :=
  let name := is.readString host junk
  let category := name.stream.readString host junk
  (⟨name.val, category.val⟩, category.stream)

def Endpoint.write (endpoint : Endpoint) (os : OutputStream) : Option OutputStream := do
  let os ← os.writeString host endpoint.protocol
  let os ← os.writeString host endpoint.host
  os.writeUshort host endpoint.port

def Endpoint.read (junk : ℕ) (old : Endpoint) (is : InputStream) : Endpoint × InputStream :=
  let protocol := is.readString host junk
  let hostName := protocol.stream.readString host junk
  let port := hostName.stream.readUshort host old.port
  (⟨protocol.val, hostName.val, port.val⟩, port.stream)

def ReferenceFactory.create (junk : ℕ) (ident : Identity) (is : InputStream) :
    Option Reference × InputStream :=
  if ident.name.isEmpty && ident.category.isEmpty then (none, is)
  else
    let (endpoint, is) := Endpoint.read host junk .empty is
    (some ⟨ident, endpoint⟩, is)

namespace ProxyFactory

def proxyToStream (proxy : Option Reference) (os : OutputStream) : Option OutputStream :=
  match proxy with
  | some reference => do
    let os ← reference.identity.write host os
    reference.endpoint.write host os
  | none => Identity.empty.write host os

def streamToProxy (junk : ℕ) (is : InputStream) : Option Reference × InputStream :=
  let (ident, is) := Identity.read host junk is
  ReferenceFactory.create host junk ident is

def proxiesToStream : List (Option Reference) → OutputStream → Option OutputStream
  | [], os => some os
  | proxy :: proxies, os => (proxyToStream host proxy os).bind (proxiesToStream proxies)

def streamToProxies (junk : ℕ) : ℕ → InputStream → List (Option Reference) × InputStream
  | 0, is => ([], is)
  | n + 1, is =>
    let (proxy, is) := streamToProxy host junk is
    let (proxies, is) := streamToProxies junk n is
    (proxy :: proxies, is)

end ProxyFactory

end Functions

def Sendable (s : List UInt8) : Prop := 0 ∉ s ∧ StringFits s

/-- The reference can be sent: its strings can, and its identity is not that of a null pointer. -/
structure Reference.Sendable (r : Reference) : Prop where
  name : Rpc.Sendable r.identity.name
  category : Rpc.Sendable r.identity.category
  protocol : Rpc.Sendable r.endpoint.protocol
  host : Rpc.Sendable r.endpoint.host
  named : ¬ (r.identity.name = [] ∧ r.identity.category = [])

def Identity.values (ident : Identity) : List Value := [.string ident.name, .string ident.category]

def Endpoint.values (endpoint : Endpoint) : List Value :=
  [.string endpoint.protocol, .string endpoint.host, .ushort endpoint.port]

def proxyValues : Option Reference → List Value
  | some reference => reference.identity.values ++ reference.endpoint.values
  | none => Identity.empty.values

namespace ProxyFactory

variable {host : ByteOrder}

theorem identity_write_eq (ident : Identity) (os : OutputStream) :
    ident.write host os = writeValues host ident.values os := by
  simp only [Identity.write, Identity.values, writeValues, writeValue,
    Option.bind_fun_some, bind]

theorem endpoint_write_eq (endpoint : Endpoint) (os : OutputStream) :
    endpoint.write host os = writeValues host endpoint.values os := by
  simp only [Endpoint.write, Endpoint.values, writeValues, writeValue,
    Option.bind_fun_some, bind]

theorem proxyToStream_eq (proxy : Option Reference) (os : OutputStream) :
    proxyToStream host proxy os = writeValues host (proxyValues proxy) os := by
  cases proxy with
  | none => exact identity_write_eq _ os
  | some reference =>
    rw [proxyToStream, proxyValues, writeValues_append]
    simp only [identity_write_eq, endpoint_write_eq, bind]

variable {is : InputStream}

theorem identity_read_spec {ident : Identity} (hname : Sendable ident.name)
    (hcategory : Sendable ident.category) (hhost : is.doByteSwap = host.aceCdrByteOrder)
    (hgood : is.goodBit = true) (h : is.Starts (ident.values.flatMap (Value.encode host)))
    (junk : ℕ) :
    Identity.read host junk is =
      (ident, is.skip (ident.values.flatMap (Value.encode host)).length) := by
  simp only [Identity.values, flatMap_cons, flatMap_nil, append_nil,
    Value.encode] at h ⊢
  have hfst := readString_spec hhost hname.1 hname.2 hgood h.left junk
  have hsnd := readString_spec ((is.skip_doByteSwap _).trans hhost) hcategory.1
    hcategory.2 ((is.skip_goodBit _).trans hgood) h.right junk
  simp only [Identity.read, hfst, hsnd, skip_skip, length_append]

theorem endpoint_read_spec {endpoint : Endpoint}
    (hprotocol : Sendable endpoint.protocol) (hname : Sendable endpoint.host)
    (hhost : is.doByteSwap = host.aceCdrByteOrder) (hgood : is.goodBit = true)
    (h : is.Starts (endpoint.values.flatMap (Value.encode host))) (junk : ℕ) (old : Endpoint) :
    Endpoint.read host junk old is =
      (endpoint, is.skip (endpoint.values.flatMap (Value.encode host)).length) := by
  simp only [Endpoint.values, flatMap_cons, flatMap_nil, append_nil,
    Value.encode] at h ⊢
  have hrest := h.right
  have hfst := readString_spec hhost hprotocol.1 hprotocol.2 hgood h.left junk
  have hsnd := readString_spec ((is.skip_doByteSwap _).trans hhost) hname.1 hname.2
    ((is.skip_goodBit _).trans hgood) hrest.left junk
  have hthd := readWord_spec (w := 2)
    ((skip_doByteSwap _ _).trans ((is.skip_doByteSwap _).trans hhost)) hrest.right
    old.port
  simp only [Endpoint.read, readUshort, hfst, hsnd, hthd]
  simp only [skip_skip, length_append, length_wire]
  rw [Nat.add_assoc]

theorem streamToProxy_spec {proxy : Option Reference}
    (hproxy : ∀ r ∈ proxy, r.Sendable) (hhost : is.doByteSwap = host.aceCdrByteOrder)
    (hgood : is.goodBit = true) (h : is.Starts ((proxyValues proxy).flatMap (Value.encode host)))
    (junk : ℕ) :
    streamToProxy host junk is =
      (proxy, is.skip ((proxyValues proxy).flatMap (Value.encode host)).length) := by
  cases proxy with
  | none =>
    have hempty : Sendable [] := ⟨not_mem_nil, by norm_num [StringFits]⟩
    have hident := identity_read_spec hempty hempty hhost hgood h junk
    rw [streamToProxy, hident]
    rfl
  | some reference =>
    have hr := hproxy reference rfl
    rw [proxyValues, flatMap_append] at h ⊢
    have hident := identity_read_spec hr.name hr.category hhost hgood h.left junk
    have hendpoint := endpoint_read_spec hr.protocol hr.host ((is.skip_doByteSwap _).trans hhost)
      ((is.skip_goodBit _).trans hgood) h.right junk .empty
    have hnamed : (reference.identity.name.isEmpty && reference.identity.category.isEmpty) =
        false := by simpa using hr.named
    simp only [streamToProxy, hident, ReferenceFactory.create, hnamed, Bool.false_eq_true,
      ↓reduceIte, hendpoint, skip_skip, length_append]

theorem proxiesToStream_eq (proxies : List (Option Reference)) (os : OutputStream) :
    proxiesToStream host proxies os =
      writeValues host (proxies.flatMap proxyValues) os := by
  induction proxies generalizing os with
  | nil => rfl
  | cons proxy proxies ih =>
    rw [proxiesToStream, flatMap_cons, writeValues_append, proxyToStream_eq]
    exact congrArg _ (funext ih)

theorem streamToProxies_spec {proxies : List (Option Reference)}
    (hproxies : ∀ proxy ∈ proxies, ∀ r ∈ proxy, r.Sendable)
    (hhost : is.doByteSwap = host.aceCdrByteOrder) (hgood : is.goodBit = true)
    (h : is.Starts ((proxies.flatMap proxyValues).flatMap (Value.encode host))) (junk : ℕ) :
    streamToProxies host junk proxies.length is =
      (proxies, is.skip ((proxies.flatMap proxyValues).flatMap (Value.encode host)).length) := by
  induction proxies generalizing is with
  | nil => rfl
  | cons proxy proxies ih =>
    obtain ⟨hproxy, hproxies⟩ := forall_mem_cons.mp hproxies
    rw [flatMap_cons, flatMap_append] at h ⊢
    have hfst := streamToProxy_spec hproxy hhost hgood h.left junk
    have hrest := ih hproxies ((is.skip_doByteSwap _).trans hhost) ((is.skip_goodBit _).trans hgood)
      h.right
    simp only [length_cons, streamToProxies, hfst, hrest, skip_skip,
      length_append]

theorem proxyValues_fits {proxy : Option Reference} (h : ∀ r ∈ proxy, r.Sendable) :
    ∀ v ∈ proxyValues proxy, v.Fits := by
  cases proxy with
  | none => simp [proxyValues, Identity.values, Identity.empty, Value.Fits, StringFits]
  | some r =>
    have hr := h r rfl
    simp [proxyValues, Identity.values, Endpoint.values, Value.Fits, hr.name.2, hr.category.2,
      hr.protocol.2, hr.host.2]

/-- **The proxies written are the proxies read**, on any good stream that holds the bytes of the
message, with any data before them and behind them; the reader then stands at the data behind
them. -/
theorem streamToProxies_proxiesToStream (host : ByteOrder) (heap : ℕ → Chunk) (junk : ℕ)
    (before after : List Value) (proxies : List (Option Reference))
    (hproxies : ∀ proxy ∈ proxies, ∀ r ∈ proxy, r.Sendable) {os₀ os₁ os : OutputStream}
    (hbefore : writeValues host before (.create host heap) = some os₀)
    (hwrite : proxiesToStream host proxies os₀ = some os₁)
    (hafter : writeValues host after os₁ = some os) {is : InputStream}
    (hhost : is.doByteSwap = host.aceCdrByteOrder) (hgood : is.goodBit = true)
    (h : is.Starts os.bytes) :
    streamToProxies host junk proxies.length (is.skip os₀.totalLength) =
      (proxies, is.skip os₁.totalLength) := by
  obtain ⟨bs₀, h₀⟩ := exists_wrote_values (create_wf host heap) hbefore
  have hswap₀ := h₀.swap_eq.trans (create_doByteSwap host heap)
  rw [proxiesToStream_eq] at hwrite
  have hfits : ∀ v ∈ proxies.flatMap proxyValues, v.Fits := by
    intro v hv
    obtain ⟨proxy, hproxy, hv⟩ := mem_flatMap.mp hv
    exact proxyValues_fits (hproxies proxy hproxy) v hv
  have hwrote := writeValues_spec h₀.wf hswap₀ hfits hwrite
  obtain ⟨bs₂, h₂⟩ := exists_wrote_values hwrote.wf hafter
  rw [h₂.bytes_eq, hwrote.bytes_eq, append_assoc] at h
  have hmiddle := h.right.left
  have hskip := (is.skip_doByteSwap os₀.totalLength).trans hhost
  rw [os₀.length_bytes] at hmiddle
  rw [streamToProxies_spec hproxies hskip hgood hmiddle, skip_skip,
    ← hwrote.totalLength]

theorem streamToProxies_proxiesToStream_two :
    ∃ os₀ os₁ os, writeValues .little [.int 7#32]
        (.create .little fun _ => zeroChunk) = some os₀ ∧
      proxiesToStream .little [none, some ⟨⟨[97], []⟩, ⟨[84], [49], 80#16⟩⟩] os₀ = some os₁ ∧
      writeValues .little [.octet 9] os₁ = some os ∧
      streamToProxies .little 0 2
          ((ofOutput .little zeroChunk os).skip os₀.totalLength) =
        ([none, some ⟨⟨[97], []⟩, ⟨[84], [49], 80#16⟩⟩],
          (ofOutput .little zeroChunk os).skip os₁.totalLength) := by
  obtain ⟨os₀, h₀⟩ := Option.isSome_iff_exists.mp (show (writeValues .little
    [.int 7#32] (.create .little fun _ => zeroChunk)).isSome = true by decide +kernel)
  obtain ⟨os, hall⟩ := Option.isSome_iff_exists.mp (show ((writeValues .little
    [.int 7#32] (.create .little fun _ => zeroChunk)).bind fun os₀ =>
      (proxiesToStream .little [none, some ⟨⟨[97], []⟩, ⟨[84], [49], 80#16⟩⟩] os₀).bind
        (writeValues .little [.octet 9])).isSome = true by decide +kernel)
  rw [h₀, Option.bind_some] at hall
  obtain ⟨os₁, h₁, h₂⟩ := Option.bind_eq_some_iff.mp hall
  refine ⟨os₀, os₁, os, h₀, h₁, h₂, streamToProxies_proxiesToStream .little (fun _ => zeroChunk) 0
    [.int 7#32] [.octet 9] _ ?_ h₀ h₁ h₂ rfl rfl (starts_ofOutput _ _ os)⟩
  simp only [forall_mem_cons, not_mem_nil, Option.mem_def, reduceCtorEq,
    Option.some.injEq, forall_eq', false_implies, implies_true, true_and, and_true]
  exact ⟨⟨by decide, by norm_num [StringFits]⟩, ⟨by decide, by norm_num [StringFits]⟩,
    ⟨by decide, by norm_num [StringFits]⟩, ⟨by decide, by norm_num [StringFits]⟩, by decide⟩

theorem writeString_of_toUInt_eq_zero (os : OutputStream) {s : List UInt8}
    (hcut : toUInt s.length = 0) :
    os.writeString host s = os.writeString host [] := by
  simp only [writeString, hcut]
  rfl

theorem proxyToStream_of_toUInt_eq_zero {name : List UInt8}
    (hcut : toUInt name.length = 0) (category : List UInt8) (endpoint : Endpoint)
    (os : OutputStream) :
    proxyToStream host (some ⟨⟨name, category⟩, endpoint⟩) os =
      proxyToStream host (some ⟨⟨[], category⟩, endpoint⟩) os := by
  simp only [proxyToStream, Identity.write, writeString_of_toUInt_eq_zero _ hcut]

theorem streamToProxy_long_name :
    0 ∉ replicate (2 ^ 32) (97 : UInt8) ∧ replicate (2 ^ 32) (97 : UInt8) ≠ [] ∧
      ∃ os, proxyToStream .little
          (some ⟨⟨replicate (2 ^ 32) 97, []⟩, ⟨[84], [49], 80#16⟩⟩)
          (.create .little fun _ => zeroChunk) = some os ∧
        (streamToProxy .little 0 (.ofOutput .little zeroChunk os)).1 = none := by
  have hlen : (replicate (2 ^ 32) (97 : UInt8)).length = 2 ^ 32 := length_replicate
  have hcut : toUInt (replicate (2 ^ 32) (97 : UInt8)).length = 0 := by
    rw [hlen]
    decide
  obtain ⟨os, hos, hval⟩ := Option.map_eq_some_iff.mp (show (proxyToStream .little
    (some ⟨⟨[], []⟩, ⟨[84], [49], 80#16⟩⟩) (.create .little fun _ => zeroChunk)).map
      (fun os => (streamToProxy .little 0 (.ofOutput .little zeroChunk os)).1) = some none
      by decide +kernel)
  refine ⟨?_, ?_, ?_⟩
  · intro h
    have hzero := eq_of_mem_replicate h
    exact absurd hzero (by decide)
  · intro h
    rw [h] at hlen
    exact absurd hlen (by decide)
  · exact ⟨os, (proxyToStream_of_toUInt_eq_zero hcut _ _ _).trans hos, hval⟩

end ProxyFactory

end Icm.Rpc
