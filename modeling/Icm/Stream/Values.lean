import Icm.Stream.Input

/-!
# Typed values on the wire

The values that the typed writers of `OutputStream` and the typed readers of `InputStream`
transport, and the format they agree on.
-/

namespace Icm.Stream

open Icm.Lib List OutputStream InputStream

/-- A value of a type that the streams transport. Floats and doubles are their bit patterns. -/
inductive Value
  | octet (x : UInt8)
  | boolean (x : Bool)
  | char (x : UInt8)
  | short (x : BitVec 16)
  | ushort (x : BitVec 16)
  | int (x : BitVec 32)
  | uint (x : BitVec 32)
  | long (x : BitVec 64)
  | ulong (x : BitVec 64)
  | float (x : BitVec 32)
  | double (x : BitVec 64)
  | string (x : List UInt8)
  | byteSeq (v : List UInt8)
  | boolSeq (v : List Bool)
  | shortSeq (v : List (BitVec 16))
  | intSeq (v : List (BitVec 32))
  | longSeq (v : List (BitVec 64))
  | floatSeq (v : List (BitVec 32))
  | doubleSeq (v : List (BitVec 64))
  | stringSeq (v : List (List UInt8))
  deriving DecidableEq, Repr

inductive Kind
  | octet | boolean | char | short | ushort | int | uint | long | ulong | float | double | string
  | byteSeq | boolSeq | shortSeq | intSeq | longSeq | floatSeq | doubleSeq | stringSeq
  deriving DecidableEq, Repr

def Value.kind : Value → Kind
  | .octet _ => .octet
  | .boolean _ => .boolean
  | .char _ => .char
  | .short _ => .short
  | .ushort _ => .ushort
  | .int _ => .int
  | .uint _ => .uint
  | .long _ => .long
  | .ulong _ => .ulong
  | .float _ => .float
  | .double _ => .double
  | .string _ => .string
  | .byteSeq _ => .byteSeq
  | .boolSeq _ => .boolSeq
  | .shortSeq _ => .shortSeq
  | .intSeq _ => .intSeq
  | .longSeq _ => .longSeq
  | .floatSeq _ => .floatSeq
  | .doubleSeq _ => .doubleSeq
  | .stringSeq _ => .stringSeq

def Value.NulFree : Value → Prop
  | .string s => 0 ∉ s
  | .stringSeq v => ∀ s ∈ v, 0 ∉ s
  | _ => True

def Value.heard : Value → Value
  | .string s => .string (cString (s ++ [0]))
  | .stringSeq v => .stringSeq (v.map fun s => cString (s ++ [0]))
  | v => v

theorem map_cString_of_nulFree {v : List (List UInt8)} (hnul : ∀ s ∈ v, 0 ∉ s) :
    v.map (fun s => cString (s ++ [0])) = v := by
  conv_rhs => rw [← map_id v]
  exact map_congr_left fun s hs => cString_append_nul (hnul s hs) []

theorem Value.heard_of_nulFree {v : Value} (hnul : v.NulFree) : v.heard = v := by
  cases v with
  | string s => exact congrArg Value.string (cString_append_nul hnul [])
  | stringSeq v => exact congrArg Value.stringSeq (map_cString_of_nulFree hnul)
  | _ => rfl

def StringFits (s : List UInt8) : Prop := s.length + 1 < 2 ^ 32

def Value.Fits : Value → Prop
  | .string s => StringFits s
  | .byteSeq v => v.length < 2 ^ 32
  | .boolSeq v => v.length < 2 ^ 32
  | .shortSeq v => v.length < 2 ^ 32
  | .intSeq v => v.length < 2 ^ 32
  | .longSeq v => v.length < 2 ^ 32
  | .floatSeq v => v.length < 2 ^ 32
  | .doubleSeq v => v.length < 2 ^ 32
  | .stringSeq v => v.length < 2 ^ 32 ∧ ∀ s ∈ v, StringFits s
  | _ => True

def wire (w x : ℕ) : List UInt8 := (leBytes w x).reverse

@[simp] theorem length_wire (w x : ℕ) : (wire w x).length = w := by
  simp [wire]

def singletons (bs : List UInt8) : List (List UInt8) := bs.map fun b => [b]

@[simp] theorem length_singletons (bs : List UInt8) : (singletons bs).length = bs.length :=
  length_map _

theorem length_of_mem_singletons {bs x : List UInt8} (h : x ∈ singletons bs) : x.length = 1 := by
  obtain ⟨b, -, rfl⟩ := mem_map.mp h
  rfl

@[simp] theorem flatten_singletons (bs : List UInt8) : (singletons bs).flatten = bs := by
  rw [singletons, ← flatMap_def, flatMap_singleton']

@[simp] theorem map_swapCopy_singletons (swap : Bool) (bs : List UInt8) :
    (singletons bs).map (swapCopy swap) = singletons bs := by
  rw [singletons, map_map]
  exact map_congr_left fun b _ => by cases swap <;> rfl

def encodeBool (b : Bool) : UInt8 := if b then 1 else 0

def encodeString (s : List UInt8) : List UInt8 := wire 4 (s.length + 1) ++ (s ++ [0])

def counted (s : List UInt8) : List UInt8 := wire 4 s.length ++ s

theorem encodeString_eq_counted (s : List UInt8) : encodeString s = counted (s ++ [0]) := by
  rw [encodeString, counted, length_append, length_singleton]

def encodeSeq (xs : List (List UInt8)) : List UInt8 := wire 4 xs.length ++ xs.flatten

def encodeWords (w : ℕ) {n : ℕ} (v : List (BitVec n)) : List UInt8 :=
  encodeSeq (v.map fun x => wire w x.toNat)

def Value.encode (host : ByteOrder) : Value → List UInt8
  | .octet x => [x]
  | .boolean x => [encodeBool x]
  | .char x => [x]
  | .short x => wire 2 x.toNat
  | .ushort x => wire 2 x.toNat
  | .int x => wire 4 x.toNat
  | .uint x => wire 4 x.toNat
  | .long x => wire 8 x.toNat
  | .ulong x => wire 8 x.toNat
  | .float x => host.image 4 x.toNat
  | .double x => host.image 8 x.toNat
  | .string s => encodeString s
  | .byteSeq v => encodeSeq (singletons v)
  | .boolSeq v => encodeSeq (singletons (v.map encodeBool))
  | .shortSeq v => encodeWords 2 v
  | .intSeq v => encodeWords 4 v
  | .longSeq v => encodeWords 8 v
  | .floatSeq v => encodeWords 4 v
  | .doubleSeq v => encodeWords 8 v
  | .stringSeq v => encodeSeq (v.map encodeString)

namespace OutputStream

def writeValue (host : ByteOrder) (os : OutputStream) : Value → Option OutputStream
  | .octet x => os.writeOctet x
  | .boolean x => os.writeBoolean x
  | .char x => os.writeChar x
  | .short x => os.writeShort host x
  | .ushort x => os.writeUshort host x
  | .int x => os.writeInt host x
  | .uint x => os.writeUint host x.toNat
  | .long x => os.writeLong host x
  | .ulong x => os.writeUlong host x
  | .float x => os.writeFloat host x
  | .double x => os.writeDouble host x
  | .string s => os.writeString host s
  | .byteSeq v => os.writeByteSeq host v
  | .boolSeq v => os.writeBoolSeq host v
  | .shortSeq v => os.writeShortSeq host v
  | .intSeq v => os.writeIntSeq host v
  | .longSeq v => os.writeLongSeq host v
  | .floatSeq v => os.writeFloatSeq host v
  | .doubleSeq v => os.writeDoubleSeq host v
  | .stringSeq v => os.writeStringSeq host v

def writeValues (host : ByteOrder) : List Value → OutputStream → Option OutputStream
  | [], os => some os
  | v :: vs, os => (os.writeValue host v).bind (writeValues host vs)

theorem writeValues_append (host : ByteOrder) (vs ws : List Value) (os : OutputStream) :
    writeValues host (vs ++ ws) os = (writeValues host vs os).bind (writeValues host ws) := by
  induction vs generalizing os with
  | nil => rfl
  | cons v vs ih => simp only [cons_append, writeValues, Option.bind_assoc, ih]

theorem toUInt_of_lt {n : ℕ} (h : n < 2 ^ 32) : toUInt n = n := Nat.mod_eq_of_lt h

section Spec

variable {host : ByteOrder} {os os' : OutputStream} (hw : os.Wf)
  (hhost : os.doByteSwap = host.aceCdrByteOrder)

include hw

theorem writeBoolean_spec {b : Bool} (h : os.writeBoolean b = some os') :
    Wrote os os' [encodeBool b] :=
  write1_spec hw h

theorem writeCharArray_spec {x : List UInt8} {n : ℕ} (h : os.writeCharArray x n = some os') :
    Wrote os os' (x.take n) := by
  have hspec := writeArray_spec hw (fun _ => length_of_mem_singletons) h
  rwa [flatMap_def, map_swapCopy_singletons, flatten_singletons] at hspec

theorem writeBooleanArray_spec {v : List Bool} (h : writeBooleanArray v os = some os') :
    Wrote os os' (v.map encodeBool) := by
  induction v generalizing os with
  | nil =>
    cases h
    exact Wrote.refl hw
  | cons b v ih =>
    rw [writeBooleanArray, if_pos hw.good] at h
    obtain ⟨os₁, hb, hv⟩ := Option.bind_eq_some_iff.mp h
    have hspec := writeBoolean_spec hw hb
    exact hspec.trans (ih hspec.wf hv)

include hhost

theorem writeWord_spec {w x : ℕ} (h : os.writeN (host.image w x) = some os') :
    Wrote os os' (wire w x) := by
  have hspec := writeN_spec hw h
  rwa [hhost, swapCopy_image] at hspec

theorem writeCount_spec {n : ℕ} (hn : n < 2 ^ 32) (h : os.writeUint host n = some os') :
    Wrote os os' (wire 4 n) := by
  have hspec := writeUint_spec hw hhost h
  rwa [toUInt_of_lt hn] at hspec

theorem writeString_spec {s : List UInt8} (hs : StringFits s)
    (h : os.writeString host s = some os') : Wrote os os' (encodeString s) := by
  have hlen : toUInt s.length = s.length := toUInt_of_lt (by unfold StringFits at hs; omega)
  have hlen₁ : toUInt (s.length + 1) = s.length + 1 := toUInt_of_lt hs
  simp only [writeString, hlen, hlen₁] at h
  split_ifs at h with hne
  · obtain ⟨os₁, hcount, hchars⟩ := Option.bind_eq_some_iff.mp h
    have hspec := writeCount_spec hw hhost hs hcount
    have hspec₁ := writeCharArray_spec hspec.wf hchars
    rw [take_of_length_le (by simp)] at hspec₁
    exact hspec.trans hspec₁
  · obtain rfl := length_eq_zero_iff.mp (not_not.mp hne)
    obtain ⟨os₁, hcount, hnul⟩ := Option.bind_eq_some_iff.mp h
    have hspec := writeCount_spec hw hhost (by decide) hcount
    exact hspec.trans (write1_spec hspec.wf hnul)

theorem writeSeq_spec {size : ℕ} {xs : List (List UInt8)} (hxs : ∀ x ∈ xs, x.length = size)
    (hlen : xs.length < 2 ^ 32) (h : os.writeSeq host size xs = some os') :
    Wrote os os' (encodeSeq (xs.map (swapCopy os.doByteSwap))) := by
  obtain ⟨os₁, hcount, harray⟩ := Option.bind_eq_some_iff.mp h
  have hspec := writeCount_spec hw hhost hlen hcount
  rw [encodeSeq, length_map, ← flatMap_def]
  rw [toUInt_of_lt hlen, take_length] at harray
  split_ifs at harray with hpos
  · rw [← hspec.swap_eq]
    exact hspec.trans (writeArray_spec hspec.wf hxs harray)
  · obtain rfl := length_eq_zero_iff.mp (Nat.eq_zero_of_not_pos hpos)
    cases harray
    exact hspec.trans (Wrote.refl hspec.wf)

theorem writeByteSeq_spec {v : List UInt8} (hlen : v.length < 2 ^ 32)
    (h : os.writeByteSeq host v = some os') :
    Wrote os os' (encodeSeq (singletons v)) := by
  have hspec := writeSeq_spec hw hhost (fun _ => length_of_mem_singletons)
    (by simpa using hlen) h
  rwa [map_swapCopy_singletons] at hspec

theorem writeWords_spec {w n : ℕ} {v : List (BitVec n)} (hlen : v.length < 2 ^ 32)
    (h : os.writeSeq host w (v.map fun x => host.image w x.toNat) = some os') :
    Wrote os os' (encodeWords w v) := by
  have hspec := writeSeq_spec hw hhost (by simp) (by simpa using hlen) h
  rw [hhost, map_map] at hspec
  simp only [Function.comp_def, swapCopy_image] at hspec
  exact hspec

theorem writeBoolSeq_spec {v : List Bool} (hlen : v.length < 2 ^ 32)
    (h : os.writeBoolSeq host v = some os') :
    Wrote os os' (encodeSeq (singletons (v.map encodeBool))) := by
  obtain ⟨os₁, hcount, harray⟩ := Option.bind_eq_some_iff.mp h
  have hspec := writeCount_spec hw hhost hlen hcount
  rw [encodeSeq, length_singletons, length_map, flatten_singletons]
  rw [toUInt_of_lt hlen, take_length] at harray
  split_ifs at harray with hpos
  · exact hspec.trans (writeBooleanArray_spec hspec.wf harray)
  · obtain rfl := length_eq_zero_iff.mp (Nat.eq_zero_of_not_pos hpos)
    cases harray
    exact hspec.trans (Wrote.refl hspec.wf)

theorem writeStrings_spec {v : List (List UInt8)} (hv : ∀ s ∈ v, StringFits s)
    (h : writeStrings host v os = some os') : Wrote os os' (v.map encodeString).flatten := by
  induction v generalizing os with
  | nil =>
    cases h
    exact Wrote.refl hw
  | cons s v ih =>
    obtain ⟨os₁, hs, hrest⟩ := Option.bind_eq_some_iff.mp h
    have hspec := writeString_spec hw hhost (hv s mem_cons_self) hs
    exact hspec.trans (ih hspec.wf (hspec.swap_eq.trans hhost)
      (fun t ht => hv t (mem_cons_of_mem s ht)) hrest)

theorem writeStringSeq_spec {v : List (List UInt8)} (hlen : v.length < 2 ^ 32)
    (hv : ∀ s ∈ v, StringFits s) (h : os.writeStringSeq host v = some os') :
    Wrote os os' (encodeSeq (v.map encodeString)) := by
  obtain ⟨os₁, hcount, harray⟩ := Option.bind_eq_some_iff.mp h
  have hspec := writeCount_spec hw hhost hlen hcount
  rw [encodeSeq, length_map]
  split_ifs at harray with hpos
  · exact hspec.trans
      (writeStrings_spec hspec.wf (hspec.swap_eq.trans hhost) hv harray)
  · obtain rfl := length_eq_zero_iff.mp (Nat.eq_zero_of_not_pos hpos)
    cases harray
    exact hspec.trans (Wrote.refl hspec.wf)

theorem writeValue_spec {v : Value} (hv : v.Fits) (h : os.writeValue host v = some os') :
    Wrote os os' (v.encode host) := by
  cases v with
  | octet x => exact write1_spec hw h
  | boolean x => exact writeBoolean_spec hw h
  | char x => exact write1_spec hw h
  | short x => exact writeWord_spec hw hhost h
  | ushort x => exact writeWord_spec hw hhost h
  | int x => exact writeWord_spec hw hhost h
  | uint x => exact writeCount_spec hw hhost x.isLt h
  | long x => exact writeWord_spec hw hhost h
  | ulong x => exact writeWord_spec hw hhost h
  | float x => exact writeUnswapped_spec hw h
  | double x => exact writeUnswapped_spec hw h
  | string s => exact writeString_spec hw hhost hv h
  | byteSeq v => exact writeByteSeq_spec hw hhost hv h
  | boolSeq v => exact writeBoolSeq_spec hw hhost hv h
  | shortSeq v => exact writeWords_spec hw hhost hv h
  | intSeq v => exact writeWords_spec hw hhost hv h
  | longSeq v => exact writeWords_spec hw hhost hv h
  | floatSeq v => exact writeWords_spec hw hhost hv h
  | doubleSeq v => exact writeWords_spec hw hhost hv h
  | stringSeq v => exact writeStringSeq_spec hw hhost hv.1 hv.2 h

theorem writeValues_spec {vs : List Value} (hvs : ∀ v ∈ vs, v.Fits)
    (h : writeValues host vs os = some os') : Wrote os os' (vs.flatMap (Value.encode host)) := by
  induction vs generalizing os with
  | nil =>
    cases h
    exact Wrote.refl hw
  | cons v vs ih =>
    obtain ⟨os₁, hv, hrest⟩ := Option.bind_eq_some_iff.mp h
    have hspec := writeValue_spec hw hhost (hvs v mem_cons_self) hv
    exact hspec.trans (ih hspec.wf (hspec.swap_eq.trans hhost)
      (fun u hu => hvs u (mem_cons_of_mem v hu)) hrest)

end Spec

section Any

variable {host : ByteOrder} {os os' : OutputStream}

private theorem exists_wrote_bind {f : OutputStream → Option OutputStream}
    {w : Option OutputStream} (hfst : ∀ os₁, w = some os₁ → ∃ bs, Wrote os os₁ bs)
    (hsnd : ∀ os₁, os₁.Wf → f os₁ = some os' → ∃ bs, Wrote os₁ os' bs)
    (h : w.bind f = some os') : ∃ bs, Wrote os os' bs := by
  obtain ⟨os₁, h₁, h₂⟩ := Option.bind_eq_some_iff.mp h
  obtain ⟨as, has⟩ := hfst os₁ h₁
  obtain ⟨bs, hbs⟩ := hsnd os₁ has.wf h₂
  exact ⟨as ++ bs, has.trans hbs⟩

variable (hw : os.Wf)

include hw

theorem exists_wrote_string {s : List UInt8} (h : os.writeString host s = some os') :
    ∃ bs, Wrote os os' bs := by
  rw [writeString] at h
  split_ifs at h with hlen
  · refine exists_wrote_bind (fun _ h₁ => ⟨_, writeN_spec hw h₁⟩) (fun _ hw₁ h₂ => ?_) h
    exact ⟨_, writeArray_spec hw₁ (fun _ => length_of_mem_singletons) h₂⟩
  · exact exists_wrote_bind (fun _ h₁ => ⟨_, writeN_spec hw h₁⟩)
      (fun _ hw₁ h₂ => ⟨_, write1_spec hw₁ h₂⟩) h

theorem exists_wrote_seq {size : ℕ} {xs : List (List UInt8)} (hxs : ∀ x ∈ xs, x.length = size)
    (h : os.writeSeq host size xs = some os') : ∃ bs, Wrote os os' bs := by
  refine exists_wrote_bind (fun _ h₁ => ⟨_, writeN_spec hw h₁⟩) (fun os₁ hw₁ h₂ => ?_) h
  split_ifs at h₂
  · exact ⟨_, writeArray_spec hw₁ (fun x hx => hxs x (mem_of_mem_take hx)) h₂⟩
  · exact ⟨[], Option.some.inj h₂ ▸ Wrote.refl hw₁⟩

theorem exists_wrote_strings {v : List (List UInt8)} (h : writeStrings host v os = some os') :
    ∃ bs, Wrote os os' bs := by
  induction v generalizing os with
  | nil => exact ⟨[], Option.some.inj h ▸ Wrote.refl hw⟩
  | cons s v ih =>
    exact exists_wrote_bind (fun _ h₁ => exists_wrote_string hw h₁) (fun _ hw₁ h₂ => ih hw₁ h₂) h

theorem exists_wrote_value {v : Value} (h : os.writeValue host v = some os') :
    ∃ bs, Wrote os os' bs := by
  cases v with
  | octet x => exact ⟨_, write1_spec hw h⟩
  | boolean x => exact ⟨_, write1_spec hw h⟩
  | char x => exact ⟨_, write1_spec hw h⟩
  | short x => exact ⟨_, writeN_spec hw h⟩
  | ushort x => exact ⟨_, writeN_spec hw h⟩
  | int x => exact ⟨_, writeN_spec hw h⟩
  | uint x => exact ⟨_, writeN_spec hw h⟩
  | long x => exact ⟨_, writeN_spec hw h⟩
  | ulong x => exact ⟨_, writeN_spec hw h⟩
  | float x => exact ⟨_, writeUnswapped_spec hw h⟩
  | double x => exact ⟨_, writeUnswapped_spec hw h⟩
  | string s => exact exists_wrote_string hw h
  | byteSeq v => exact exists_wrote_seq hw (fun _ => length_of_mem_singletons) h
  | boolSeq v =>
    refine exists_wrote_bind (fun _ h₁ => ⟨_, writeN_spec hw h₁⟩) (fun os₁ hw₁ h₂ => ?_) h
    split_ifs at h₂
    · exact ⟨_, writeBooleanArray_spec hw₁ h₂⟩
    · exact ⟨[], Option.some.inj h₂ ▸ Wrote.refl hw₁⟩
  | shortSeq v => exact exists_wrote_seq hw (by simp) h
  | intSeq v => exact exists_wrote_seq hw (by simp) h
  | longSeq v => exact exists_wrote_seq hw (by simp) h
  | floatSeq v => exact exists_wrote_seq hw (by simp) h
  | doubleSeq v => exact exists_wrote_seq hw (by simp) h
  | stringSeq v =>
    refine exists_wrote_bind (fun _ h₁ => ⟨_, writeN_spec hw h₁⟩) (fun os₁ hw₁ h₂ => ?_) h
    split_ifs at h₂
    · exact exists_wrote_strings hw₁ h₂
    · exact ⟨[], Option.some.inj h₂ ▸ Wrote.refl hw₁⟩

theorem exists_wrote_values {vs : List Value} (h : writeValues host vs os = some os') :
    ∃ bs, Wrote os os' bs := by
  induction vs generalizing os with
  | nil => exact ⟨[], Option.some.inj h ▸ Wrote.refl hw⟩
  | cons v vs ih =>
    exact exists_wrote_bind (fun _ h₁ => exists_wrote_value hw h₁) (fun _ hw₁ h₂ => ih hw₁ h₂) h

end Any

section Ordinary

variable {host : ByteOrder} {os os' : OutputStream}

theorem Wrote.totalLength {bs : List UInt8} (h : os.Wrote os' bs) :
    os'.totalLength = os.totalLength + bs.length := by
  rw [← length_bytes, ← length_bytes, h.bytes_eq, length_append]

variable (hw : os.Wf)

include hw

theorem exists_writeN (x : List UInt8)
    (h : os.totalLength + x.length + maxAlignment < expGrowthMax) :
    ∃ os', os.writeN x = some os' := by
  obtain ⟨⟨buf, os₁⟩, hadjust⟩ := exists_adjust hw h
  exact ⟨_, by rw [writeN, hadjust]; rfl⟩

theorem exists_write1 (x : UInt8) (h : os.totalLength + 1 + maxAlignment < expGrowthMax) :
    ∃ os', os.write1 x = some os' := by
  obtain ⟨⟨buf, os₁⟩, hadjust⟩ := exists_adjust hw h
  exact ⟨_, by rw [write1, hadjust]; rfl⟩

theorem exists_writeArray (size : ℕ) (xs : List (List UInt8))
    (h : os.totalLength + size * xs.length + maxAlignment < expGrowthMax) :
    ∃ os', os.writeArray size xs = some os' := by
  obtain ⟨⟨buf, os₁⟩, hadjust⟩ := exists_adjust hw h
  exact ⟨_, by rw [writeArray, hadjust]; rfl⟩

variable (hhost : os.doByteSwap = host.aceCdrByteOrder)

include hhost

theorem exists_writeString {s : List UInt8}
    (h : os.totalLength + (encodeString s).length + maxAlignment < expGrowthMax) :
    ∃ os', os.writeString host s = some os' := by
  simp only [encodeString, length_append, length_wire, length_singleton,
    expGrowthMax] at h
  have hlen : toUInt s.length = s.length := toUInt_of_lt (by omega)
  have hlen₁ : toUInt (s.length + 1) = s.length + 1 := toUInt_of_lt (by omega)
  -- the length takes four bytes, in either case
  have hcount (n : ℕ) : ∃ os₁, os.writeUint host n = some os₁ ∧ os₁.Wf ∧
      os₁.totalLength = os.totalLength + 4 := by
    obtain ⟨os₁, h₁⟩ := exists_writeN hw (host.image 4 (toUInt n))
      (by rw [host.length_image, expGrowthMax]; omega)
    have hspec := writeUint_spec hw hhost h₁
    exact ⟨os₁, h₁, hspec.wf, by rw [hspec.totalLength]; simp⟩
  simp only [writeString, hlen, hlen₁]
  split_ifs with hne
  · obtain ⟨os₁, h₁, hw₁, htotal⟩ := hcount (s.length + 1)
    obtain ⟨os₂, h₂⟩ := exists_writeArray hw₁ 1
      (((s ++ [0]).take (s.length + 1)).map fun c => [c]) (by
        rw [htotal, length_map, length_take, length_append, length_singleton,
          expGrowthMax]
        omega)
    exact ⟨os₂, Option.bind_eq_some_iff.mpr ⟨os₁, h₁, h₂⟩⟩
  · obtain ⟨os₁, h₁, hw₁, htotal⟩ := hcount 1
    obtain ⟨os₂, h₂⟩ := exists_write1 hw₁ 0 (by rw [htotal, expGrowthMax]; omega)
    exact ⟨os₂, Option.bind_eq_some_iff.mpr ⟨os₁, h₁, h₂⟩⟩

end Ordinary

end OutputStream

namespace InputStream

/-- The typed read of a value of the given type. The variable that it is read into, and the
uninitialised variables of the reader, hold `junk`; a vector that is read into is empty. -/
def readValue (host : ByteOrder) (is : InputStream) (junk : ℕ) : Kind → Reading Value
  | .octet => (is.readOctet (.ofNat junk)).map .octet
  | .boolean => (is.readBoolean (.ofNat junk)).map .boolean
  | .char => (is.readChar (.ofNat junk)).map .char
  | .short => (is.readShort host (.ofNat _ junk)).map .short
  | .ushort => (is.readUshort host (.ofNat _ junk)).map .ushort
  | .int => (is.readInt host (.ofNat _ junk)).map .int
  | .uint => (is.readUint host junk).map (fun x => .uint (.ofNat _ x))
  | .long => (is.readLong host (.ofNat _ junk)).map .long
  | .ulong => (is.readUlong host (.ofNat _ junk)).map .ulong
  | .float => (is.readFloat host (.ofNat _ junk)).map .float
  | .double => (is.readDouble host (.ofNat _ junk)).map .double
  | .string => (is.readString host junk).map .string
  | .byteSeq => (is.readByteSeq host junk []).map .byteSeq
  | .boolSeq => (is.readBoolSeq host junk []).map .boolSeq
  | .shortSeq => (is.readShortSeq host []).map .shortSeq
  | .intSeq => (is.readIntSeq host []).map .intSeq
  | .longSeq => (is.readLongSeq host []).map .longSeq
  | .floatSeq => (is.readFloatSeq host []).map .floatSeq
  | .doubleSeq => (is.readDoubleSeq host []).map .doubleSeq
  | .stringSeq => (is.readStringSeq host junk []).map .stringSeq

def readValues (host : ByteOrder) : List Kind → (ℕ → ℕ) → InputStream → List Value × InputStream
  | [], _, is => ([], is)
  | k :: ks, junk, is =>
    let r := is.readValue host (junk 0) k
    let rs := readValues host ks (fun i => junk (i + 1)) r.stream
    (r.val :: rs.1, rs.2)

section Spec

variable {host : ByteOrder} {is : InputStream} (hhost : is.doByteSwap = host.aceCdrByteOrder)

theorem readBoolean_spec {b : Bool} (hgood : is.goodBit = true) (h : is.Starts [encodeBool b])
    (junk : UInt8) : is.readBoolean junk = ⟨true, b, is.skip 1⟩ := by
  rw [readBoolean, readOctet, read1_spec h]
  cases b <;> simp [encodeBool, hgood]

theorem ofNat_mod_two_five_six_pow (w x : ℕ) :
    BitVec.ofNat (8 * w) (x % 256 ^ w) = BitVec.ofNat (8 * w) x := by
  apply BitVec.eq_of_toNat_eq
  rw [BitVec.toNat_ofNat, BitVec.toNat_ofNat, pow_mul]
  exact Nat.mod_mod _ _

include hhost in
theorem word_swapCopy_wire (w : ℕ) (x : BitVec (8 * w)) :
    word host w (swapCopy is.doByteSwap (wire w x.toNat)) = x := by
  rw [wire, hhost, ← swapCopy_image, swapCopy_swapCopy, word, host.value_image,
    ofNat_mod_two_five_six_pow, BitVec.ofNat_toNat, BitVec.setWidth_eq]

include hhost in
theorem readWord_spec {w : ℕ} {x : BitVec (8 * w)} (h : is.Starts (wire w x.toNat))
    (old : BitVec (8 * w)) : is.readWord host w old = ⟨true, x, is.skip w⟩ := by
  rw [readWord, readN_spec h (length_wire _ _)]
  exact congrArg (fun y => Reading.mk true y (is.skip w)) (word_swapCopy_wire hhost w x)

theorem readUnswapped_spec {w : ℕ} {x : BitVec (8 * w)} (h : is.Starts (host.image w x.toNat))
    (old : BitVec (8 * w)) : is.readUnswapped host w old = ⟨true, x, is.skip w⟩ := by
  have h' : ({ is with doByteSwap := false } : InputStream).Starts (host.image w x.toNat) := h
  have hN := readN_spec h' (host.length_image _ _) (host.image w old.toNat)
  have hval : host.value (host.image w x.toNat) = x.toNat % 256 ^ w := host.value_image _ _
  simp only [readUnswapped, readWord, hN, swapCopy, Bool.false_eq_true, ↓reduceIte, hval,
    ofNat_mod_two_five_six_pow, BitVec.ofNat_toNat, BitVec.setWidth_eq]
  rfl

include hhost in
theorem readCount_spec {n : ℕ} (hn : n < 2 ^ 32) (h : is.Starts (wire 4 n)) (old : ℕ) :
    is.readUint host old = ⟨true, n, is.skip 4⟩ :=
  readUint_spec hhost hn h old

variable {s : List UInt8}

include hhost in
theorem readString_counted (hs : s.length < 2 ^ 32) (hgood : is.goodBit = true)
    (h : is.Starts (counted s)) (junk : ℕ) :
    is.readString host junk =
      ⟨decide (s ≠ []), cString s, is.skip (counted s).length⟩ := by
  have hright := h.right
  rw [length_wire, ← flatten_singletons s] at hright
  have harray := readArray_spec (fun _ => length_of_mem_singletons) hright (n := s.length) (by simp)
  rw [flatten_singletons, map_swapCopy_singletons, skip_goodBit, hgood, skip_skip] at harray
  simp only [readString, readCount_spec hhost hs h.left, harray, flatten_singletons]
  rcases s with _ | ⟨b, s⟩
  · rfl
  · simp [counted]

include hhost in
theorem readString_cString (hs : StringFits s) (hgood : is.goodBit = true)
    (h : is.Starts (encodeString s)) (junk : ℕ) :
    is.readString host junk =
      ⟨true, cString (s ++ [0]), is.skip (encodeString s).length⟩ := by
  rw [encodeString_eq_counted] at h ⊢
  rw [readString_counted hhost (by rwa [length_append]) hgood h]
  simp

include hhost in
theorem readString_spec (hnul : 0 ∉ s) (hs : StringFits s)
    (hgood : is.goodBit = true) (h : is.Starts (encodeString s)) (junk : ℕ) :
    is.readString host junk = ⟨true, s, is.skip (encodeString s).length⟩ := by
  rw [readString_cString hhost hs hgood h, cString_append_nul hnul]

include hhost in
theorem readSeq_spec {size : ℕ} {xs : List (List UInt8)} (hxs : ∀ x ∈ xs, x.length = size)
    (hlen : xs.length < 2 ^ 32) (h : is.Starts (encodeSeq xs)) {α : Type}
    (elem : List UInt8 → α) (zero : α) (sz : ℕ) (old : List α) :
    is.readSeq host size sz elem zero old =
      ⟨false, if xs = [] then old else (xs.map (swapCopy is.doByteSwap)).map elem,
        is.skip (encodeSeq xs).length⟩ := by
  have hright := h.right
  rw [length_wire] at hright
  simp only [readSeq, readCount_spec hhost hlen h.left]
  split_ifs with hpos hnil hnil
  · rw [hnil] at hpos
    exact absurd hpos (lt_irrefl 0)
  · simp only [readArray_spec hxs hright rfl, Option.map_some, Option.getD_some,
      skip_doByteSwap, skip_skip]
    simp [encodeSeq]
  · rw [hnil]
    rfl
  · exact absurd (length_pos_iff.mpr hnil) hpos

include hhost in
theorem readByteSeq_spec {v : List UInt8} (hlen : v.length < 2 ^ 32)
    (h : is.Starts (encodeSeq (singletons v))) (junk : ℕ) (old : List UInt8) :
    is.readByteSeq host junk old =
      ⟨false, if v = [] then old else v, is.skip (encodeSeq (singletons v)).length⟩ := by
  rw [readByteSeq, readSeq_spec hhost (fun _ => length_of_mem_singletons) (by simpa using hlen) h,
    map_swapCopy_singletons]
  simp [singletons, Function.comp_def]

include hhost in
theorem readWords_spec {w : ℕ} {v : List (BitVec (8 * w))} (hlen : v.length < 2 ^ 32)
    (h : is.Starts (encodeWords w v)) (zero : BitVec (8 * w)) (sz : ℕ)
    (old : List (BitVec (8 * w))) :
    is.readSeq host w sz (word host w) zero old =
      ⟨false, if v = [] then old else v, is.skip (encodeWords w v).length⟩ := by
  rw [readSeq_spec hhost (by simp) (by simpa using hlen) h, map_map, map_map]
  simp only [Function.comp_def, word_swapCopy_wire hhost w, map_id', map_eq_nil_iff]
  rfl

theorem readBooleanArray_spec {v : List Bool} (hgood : is.goodBit = true)
    (h : is.Starts (v.map encodeBool)) (junk : UInt8) (acc : List Bool) :
    readBooleanArray junk v.length is acc = ⟨true, acc ++ v, is.skip v.length⟩ := by
  induction v generalizing is acc with
  | nil => simp [readBooleanArray, hgood]
  | cons b v ih =>
    have hright := (show is.Starts ([encodeBool b] ++ v.map encodeBool) from h).right
    have hread := readBoolean_spec hgood
      (show is.Starts ([encodeBool b] ++ v.map encodeBool) from h).left junk
    rw [length_cons, readBooleanArray, if_pos hgood]
    simp only [hread, ih ((is.skip_goodBit 1).trans hgood) hright, skip_skip, append_assoc,
      singleton_append, Nat.add_comm 1]

include hhost in
theorem readBoolSeq_spec {v : List Bool} (hlen : v.length < 2 ^ 32) (hgood : is.goodBit = true)
    (h : is.Starts (encodeSeq (singletons (v.map encodeBool)))) (junk : ℕ) (old : List Bool) :
    is.readBoolSeq host junk old =
      ⟨false, old ++ v, is.skip (encodeSeq (singletons (v.map encodeBool))).length⟩ := by
  rw [encodeSeq, length_singletons, length_map, flatten_singletons] at h ⊢
  have hright := h.right
  rw [length_wire] at hright
  simp only [readBoolSeq, readCount_spec hhost hlen h.left]
  split_ifs with hpos
  · rw [readBooleanArray_spec ((is.skip_goodBit 4).trans hgood) hright]
    simp [skip_skip]
  · obtain rfl := length_eq_zero_iff.mp (Nat.eq_zero_of_not_pos hpos)
    simp

include hhost in
theorem readStrings_cString {v : List (List UInt8)} (hv : ∀ s ∈ v, StringFits s)
    (hgood : is.goodBit = true) (h : is.Starts (v.map encodeString).flatten) (junk : ℕ)
    (acc : List (List UInt8)) :
    readStrings host junk v.length is acc =
      ⟨false, acc ++ v.map (fun s => cString (s ++ [0])),
        is.skip (v.map encodeString).flatten.length⟩ := by
  induction v generalizing is acc with
  | nil => simp [readStrings]
  | cons s v ih =>
    rw [map_cons, flatten_cons] at h
    have hread := readString_cString hhost (hv s mem_cons_self) hgood h.left junk
    rw [length_cons, readStrings]
    simp only [hread]
    rw [ih ((is.skip_doByteSwap _).trans hhost) (fun t ht => hv t (mem_cons_of_mem s ht))
      ((is.skip_goodBit _).trans hgood) h.right]
    simp [skip_skip]

include hhost in
theorem readStringSeq_cString {v : List (List UInt8)} (hlen : v.length < 2 ^ 32)
    (hv : ∀ s ∈ v, StringFits s) (hgood : is.goodBit = true)
    (h : is.Starts (encodeSeq (v.map encodeString))) (junk : ℕ) (old : List (List UInt8)) :
    is.readStringSeq host junk old =
      ⟨false, if v = [] then old else v.map (fun s => cString (s ++ [0])),
        is.skip (encodeSeq (v.map encodeString)).length⟩ := by
  have hlen' : (v.map encodeString).length = v.length := length_map _
  have hright := h.right
  have hleft := h.left
  rw [hlen'] at hleft
  rw [length_wire] at hright
  simp only [readStringSeq, readCount_spec hhost hlen hleft]
  split_ifs with hpos hnil hnil
  · rw [hnil] at hpos
    exact absurd hpos (lt_irrefl 0)
  · rw [readStrings_cString ((is.skip_doByteSwap 4).trans hhost) hv
      ((is.skip_goodBit 4).trans hgood) hright]
    simp [encodeSeq, skip_skip]
  · rw [hnil]
    rfl
  · exact absurd (length_pos_iff.mpr hnil) hpos

include hhost in
theorem readValue_heard {v : Value} (hv : v.Fits) (hgood : is.goodBit = true)
    (h : is.Starts (v.encode host)) (junk : ℕ) :
    (is.readValue host junk v.kind).val = v.heard ∧
      (is.readValue host junk v.kind).stream = is.skip (v.encode host).length := by
  have toValue {α : Type} {mk : α → Value} {r : Reading α} {b : Bool} {x : α} {s : InputStream}
      (hr : r = ⟨b, x, s⟩) : (r.map mk).val = mk x ∧ (r.map mk).stream = s := by
    rw [hr]
    exact ⟨rfl, rfl⟩
  -- a vector that was empty holds the sequence, also if that is empty
  have toVector {α β : Type} {mk : List α → Value} {r : Reading (List α)} {v : List β} {f : β → α}
      [Decidable (v = [])] {s : InputStream}
      (hr : r = ⟨false, if v = [] then [] else v.map f, s⟩) :
      (r.map mk).val = mk (v.map f) ∧ (r.map mk).stream = s := by
    have hval : (if v = [] then [] else v.map f) = v.map f := by
      split_ifs with hnil
      · rw [hnil, map_nil]
      · rfl
    rw [hval] at hr
    exact toValue hr
  have toSame {α : Type} {mk : List α → Value} {r : Reading (List α)} {v : List α}
      [Decidable (v = [])] {s : InputStream} (hr : r = ⟨false, if v = [] then [] else v, s⟩) :
      (r.map mk).val = mk v ∧ (r.map mk).stream = s := by
    simpa using toVector (f := id) (by simpa using hr)
  cases v with
  | octet x => exact toValue (read1_spec h _)
  | boolean x => exact toValue (readBoolean_spec hgood h _)
  | char x => exact toValue (read1_spec h _)
  | short x => exact toValue (readWord_spec (w := 2) hhost h _)
  | ushort x => exact toValue (readWord_spec (w := 2) hhost h _)
  | int x => exact toValue (readWord_spec (w := 4) hhost h _)
  | uint x =>
    have hx : Value.uint (.ofNat _ x.toNat) = .uint x := by
      rw [BitVec.ofNat_toNat, BitVec.setWidth_eq]
    have hread := readCount_spec hhost x.isLt h junk
    exact hx ▸ toValue hread
  | long x => exact toValue (readWord_spec (w := 8) hhost h _)
  | ulong x => exact toValue (readWord_spec (w := 8) hhost h _)
  | float x =>
    rw [Value.encode, ByteOrder.length_image]
    exact toValue (readUnswapped_spec (w := 4) h _)
  | double x =>
    rw [Value.encode, ByteOrder.length_image]
    exact toValue (readUnswapped_spec (w := 8) h _)
  | string s => exact toValue (readString_cString hhost hv hgood h _)
  | byteSeq v => exact toSame (readByteSeq_spec hhost hv h _ _)
  | boolSeq v => exact toValue (readBoolSeq_spec hhost hv hgood h _ _)
  | shortSeq v => exact toSame (readWords_spec (w := 2) hhost hv h _ _ _)
  | intSeq v => exact toSame (readWords_spec (w := 4) hhost hv h _ _ _)
  | longSeq v => exact toSame (readWords_spec (w := 8) hhost hv h _ _ _)
  | floatSeq v => exact toSame (readWords_spec (w := 4) hhost hv h _ _ _)
  | doubleSeq v => exact toSame (readWords_spec (w := 8) hhost hv h _ _ _)
  | stringSeq v => exact toVector (readStringSeq_cString hhost hv.1 hv.2 hgood h _ _)

include hhost in
theorem readValue_spec {v : Value} (hnul : v.NulFree) (hv : v.Fits) (hgood : is.goodBit = true)
    (h : is.Starts (v.encode host)) (junk : ℕ) :
    (is.readValue host junk v.kind).val = v ∧
      (is.readValue host junk v.kind).stream = is.skip (v.encode host).length := by
  rw [← congrArg (_ = ·) (Value.heard_of_nulFree hnul)]
  exact readValue_heard hhost hv hgood h junk

include hhost in
theorem readValues_spec {vs : List Value} (hnul : ∀ v ∈ vs, v.NulFree) (hvs : ∀ v ∈ vs, v.Fits)
    (hgood : is.goodBit = true) (h : is.Starts (vs.flatMap (Value.encode host)))
    (junk : ℕ → ℕ) :
    readValues host (vs.map Value.kind) junk is =
      (vs, is.skip (vs.flatMap (Value.encode host)).length) := by
  induction vs generalizing is junk with
  | nil => rfl
  | cons v vs ih =>
    rw [flatMap_cons] at h
    obtain ⟨hval, hstream⟩ := readValue_spec hhost (hnul v mem_cons_self)
      (hvs v mem_cons_self) hgood h.left (junk 0)
    have hrest := ih ((is.skip_doByteSwap _).trans hhost)
      (fun u hu => hnul u (mem_cons_of_mem v hu))
      (fun u hu => hvs u (mem_cons_of_mem v hu)) ((is.skip_goodBit _).trans hgood) h.right
      (fun i => junk (i + 1))
    simp only [map_cons, readValues, hval, hstream, hrest, skip_skip, flatMap_cons,
      length_append]

end Spec

end InputStream

/-- **The values written are the values read**: a stream made from the written chain gives them
back, in order, and has then read the `total_length()` bytes of the chain and no more. -/
theorem readValues_writeValues (host : ByteOrder) (heap : ℕ → Chunk) (c : Chunk) (junk : ℕ → ℕ)
    (vs : List Value) (hnul : ∀ v ∈ vs, v.NulFree) (hvs : ∀ v ∈ vs, v.Fits) (os : OutputStream)
    (h : writeValues host vs (.create host heap) = some os) :
    readValues host (vs.map Value.kind) junk (.ofOutput host c os) =
      (vs, (ofOutput host c os).skip os.totalLength) := by
  have hwrote := writeValues_spec (create_wf host heap)
    (create_doByteSwap host heap) hvs h
  have hbytes : os.bytes = vs.flatMap (Value.encode host) := by
    simpa using hwrote.bytes_eq
  have hstarts := starts_ofOutput host c os
  rw [hbytes] at hstarts
  rw [readValues_spec rfl hnul hvs rfl hstarts, ← hbytes, os.length_bytes]

def zeroChunk : Chunk := ⟨0, fun _ => 0, dvd_zero _⟩

theorem readValues_writeValues_mixed :
    ∃ os, writeValues .little
        [.boolean true, .string [104, 105], .float 1065353216#32, .shortSeq [258#16, 3#16],
          .stringSeq [[97], []]] (.create .little fun _ => zeroChunk) = some os ∧
      readValues .little [.boolean, .string, .float, .shortSeq, .stringSeq]
          (fun _ => 0) (.ofOutput .little zeroChunk os) =
        ([.boolean true, .string [104, 105], .float 1065353216#32, .shortSeq [258#16, 3#16],
          .stringSeq [[97], []]],
          (ofOutput .little zeroChunk os).skip os.totalLength) := by
  obtain ⟨os, hos⟩ := Option.isSome_iff_exists.mp (show (writeValues .little
    [.boolean true, .string [104, 105], .float 1065353216#32, .shortSeq [258#16, 3#16],
      .stringSeq [[97], []]] (.create .little fun _ => zeroChunk)).isSome = true by
      decide +kernel)
  refine ⟨os, hos, readValues_writeValues .little (fun _ => zeroChunk) zeroChunk (fun _ => 0) _
    ?_ ?_ os hos⟩
  · simp [Value.NulFree]
  · simp [Value.Fits, StringFits]

theorem OutputStream.writeByteSeq_of_toUInt_eq_zero (host : ByteOrder) (os : OutputStream)
    {v : List UInt8} (hv : 0 < v.length) (hcut : toUInt v.length = 0) :
    os.writeByteSeq host v = (os.writeUint host 0).bind fun os => os.writeArray 1 [] := by
  have hlen : (v.map fun x => [x]).length = v.length := length_map _
  have hcount : os.writeUint host v.length = os.writeUint host 0 := by
    rw [writeUint, writeUint, hcut]
    rfl
  simp only [writeByteSeq, writeSeq, hlen, hcount, hcut, take_zero, hv, ↓reduceIte]
  rfl

theorem readValues_writeValues_long_byteSeq :
    (Value.byteSeq (replicate (2 ^ 32) 0)).NulFree ∧
      ∃ os, writeValues .little [.byteSeq (replicate (2 ^ 32) 0)]
          (.create .little fun _ => zeroChunk) = some os ∧
        (readValues .little [.byteSeq] (fun _ => 0)
          (.ofOutput .little zeroChunk os)).1 ≠ [.byteSeq (replicate (2 ^ 32) 0)] := by
  refine ⟨trivial, ?_⟩
  have hpos : 0 < (replicate (2 ^ 32) (0 : UInt8)).length := by
    rw [length_replicate]
    decide
  have hcut : toUInt (replicate (2 ^ 32) (0 : UInt8)).length = 0 := by
    rw [length_replicate]
    decide
  have hread : ∃ os, ((create .little fun _ => zeroChunk).writeUint .little 0).bind
      (fun os => os.writeArray 1 []) = some os ∧
      (readValues .little [.byteSeq] (fun _ => 0)
        (.ofOutput .little zeroChunk os)).1 = [.byteSeq []] := ⟨_, rfl, by decide⟩
  obtain ⟨os, hos, hval⟩ := hread
  refine ⟨os, ?_, ?_⟩
  · simp only [writeValues, writeValue,
      writeByteSeq_of_toUInt_eq_zero _ _ hpos hcut, hos, Option.bind_some]
  · rw [hval]
    intro h
    have hnil : [] = replicate (2 ^ 32) (0 : UInt8) :=
      Value.byteSeq.inj (head_eq_of_cons_eq h)
    rw [← hnil] at hpos
    exact absurd hpos (lt_irrefl 0)

def stringCount (s : List UInt8) : ℕ :=
  if toUInt s.length ≠ 0 then
    toUInt (toUInt s.length + 1)
  else 1

theorem stringCount_lt (s : List UInt8) : stringCount s < 2 ^ 32 := by
  rw [stringCount]
  split_ifs
  · exact Nat.mod_lt _ (by decide)
  · decide

theorem stringCount_lt_length {s : List UInt8} (hs : ¬ StringFits s) :
    stringCount s < s.length := by
  rw [StringFits] at hs
  rw [stringCount, toUInt, toUInt]
  split_ifs <;> omega

theorem cString_ne_of_length_lt {s t : List UInt8} (h : t.length < s.length) : cString t ≠ s := by
  rintro rfl
  exact h.not_ge (takeWhile_sublist _).length_le

theorem OutputStream.writeString_counted {host : ByteOrder} {os os' : OutputStream} (hw : os.Wf)
    (hhost : os.doByteSwap = host.aceCdrByteOrder) {s : List UInt8} (hs : ¬ StringFits s)
    (h : os.writeString host s = some os') :
    ∃ t : List UInt8, t.length = stringCount s ∧ Wrote os os' (counted t) := by
  have hcount {n : ℕ} (hn : n < 2 ^ 32) {os₁ : OutputStream}
      (h₁ : os.writeUint host n = some os₁) := writeCount_spec hw hhost hn h₁
  have hlt := stringCount_lt s
  have hshort := stringCount_lt_length hs
  simp only [writeString] at h
  rw [stringCount] at hlt hshort ⊢
  split_ifs at h hlt hshort ⊢ with hlen
  · obtain ⟨os₁, h₁, h₂⟩ := Option.bind_eq_some_iff.mp h
    have hlength := length_take_of_le (l := s ++ [0])
      (hshort.le.trans (by rw [length_append]; exact Nat.le_add_right _ _))
    refine ⟨_, hlength, ?_⟩
    rw [counted, hlength]
    exact (hcount hlt h₁).trans (writeCharArray_spec (hcount hlt h₁).wf h₂)
  · obtain ⟨os₁, h₁, h₂⟩ := Option.bind_eq_some_iff.mp h
    exact ⟨[0], rfl, (hcount hlt h₁).trans (write1_spec (hcount hlt h₁).wf h₂)⟩

/-- **A string comes back exactly if it holds no NUL and its length is not cut**, with any data
before it and behind it; the reader then stands at the data behind it. -/
theorem readString_writeString_iff (host : ByteOrder) (heap : ℕ → Chunk) (c : Chunk) (junk : ℕ)
    (before after : List Value) (s : List UInt8) {os₀ os₁ os : OutputStream}
    (hbefore : writeValues host before (.create host heap) = some os₀)
    (hs : os₀.writeString host s = some os₁)
    (hafter : writeValues host after os₁ = some os) :
    ((ofOutput host c os).skip os₀.totalLength).readString host junk =
        ⟨true, s, (ofOutput host c os).skip os₁.totalLength⟩ ↔
      0 ∉ s ∧ s.length + 1 < 2 ^ 32 := by
  have hswap := create_doByteSwap host heap
  obtain ⟨bs₀, h₀⟩ := exists_wrote_values (create_wf host heap) hbefore
  have hswap₀ := h₀.swap_eq.trans hswap
  -- whatever the string was written as, the reader finds it behind the data before it
  have hstarts {bs : List UInt8} (hwrote : os₀.Wrote os₁ bs) :
      ((ofOutput host c os).skip os₀.totalLength).Starts bs := by
    obtain ⟨bs₂, h₂⟩ := exists_wrote_values hwrote.wf hafter
    have hall := starts_ofOutput host c os
    rw [h₂.bytes_eq, hwrote.bytes_eq, append_assoc] at hall
    rw [← os₀.length_bytes]
    exact hall.right.left
  by_cases hfits : StringFits s
  · have hwrote := writeString_spec h₀.wf hswap₀ hfits hs
    rw [readString_cString rfl hfits rfl (hstarts hwrote), skip_skip,
      ← hwrote.totalLength]
    refine ⟨fun h => ⟨?_, hfits⟩, fun h => by rw [cString_append_nul h.1]⟩
    have hval : cString (s ++ [0]) = s := congrArg Reading.val h
    rw [← hval]
    exact zero_notMem_cString _
  · refine iff_of_false (fun h => ?_) fun h => hfits h.2
    obtain ⟨t, hlen, hwrote⟩ := writeString_counted h₀.wf hswap₀ hfits hs
    have hread := readString_counted rfl (hlen ▸ stringCount_lt s) rfl
      (hstarts hwrote) junk
    rw [h] at hread
    exact cString_ne_of_length_lt (hlen ▸ stringCount_lt_length hfits)
      (congrArg Reading.val hread).symm

theorem readString_writeString_hi :
    ∃ os₀ os₁ os, writeValues .little [.int 7#32]
        (.create .little fun _ => zeroChunk) = some os₀ ∧
      os₀.writeString .little [104, 105] = some os₁ ∧
      writeValues .little [.octet 9] os₁ = some os ∧
      ((ofOutput .little zeroChunk os).skip os₀.totalLength).readString .little 0 =
        ⟨true, [104, 105], (ofOutput .little zeroChunk os).skip os₁.totalLength⟩ := by
  obtain ⟨os, hall⟩ := Option.isSome_iff_exists.mp (show (writeValues .little
    [.int 7#32, .string [104, 105], .octet 9] (.create .little fun _ => zeroChunk)).isSome = true
      by decide +kernel)
  obtain ⟨os₀, h₀, hall⟩ := Option.bind_eq_some_iff.mp hall
  obtain ⟨os₁, h₁, h₂⟩ := Option.bind_eq_some_iff.mp hall
  have hbefore : writeValues .little [.int 7#32]
      (.create .little fun _ => zeroChunk) = some os₀ := by
    rw [writeValues, h₀]
    rfl
  exact ⟨os₀, os₁, os, hbefore, h₁, h₂, (readString_writeString_iff .little (fun _ => zeroChunk)
    zeroChunk 0 [.int 7#32] [.octet 9] [104, 105] hbefore h₁ h₂).mpr ⟨by decide, by decide⟩⟩

theorem readString_writeString_nul :
    ∃ os, (create .little fun _ => zeroChunk).writeString .little [97, 0, 98] =
        some os ∧
      ((ofOutput .little zeroChunk os).readString .little 0).val = [97] :=
  ⟨_, rfl, by decide⟩

end Icm.Stream
