import Icm.Stream.Values

/-!
# Long doubles

`write_longdouble` and `read_longdouble` of `icm/IcmStream.cpp`, which go through `write_16` and
`read_16`.
-/

namespace Icm.Stream

open Icm.Lib List OutputStream InputStream

def longlongSize : ℕ := 8

def longdoubleSize : ℕ := 16

def OutputStream.writeLongdouble (host : ByteOrder) (os : OutputStream) (x : BitVec 128) :
    Option OutputStream :=
  os.writeUnswapped (host.image longdoubleSize x.toNat)

namespace InputStream

def read16 (is : InputStream) (old : List UInt8) : Reading (List UInt8) :=
  match is.adjust longlongSize with
  | (some buf, is') => ⟨true, swapCopy is.doByteSwap (is.start.bytesAt buf 16), is'⟩
  | (none, is') => ⟨false, old, is'⟩

def readLongdouble (host : ByteOrder) (is : InputStream) (old : BitVec 128) :
    Reading (BitVec 128) :=
  let r := ({ is with doByteSwap := false } : InputStream).read16 (host.image 16 old.toNat)
  ⟨r.ok, word host 16 r.val, { r.stream with doByteSwap := is.doByteSwap }⟩

end InputStream

inductive Item
  | value (v : Value)
  | longdouble (x : BitVec 128)
  deriving DecidableEq

namespace Item

def encode (host : ByteOrder) : Item → List UInt8
  | value v => v.encode host
  | longdouble x => host.image longdoubleSize x.toNat

def Fits : Item → Prop
  | value v => v.Fits
  | longdouble _ => True

end Item

def OutputStream.writeItem (host : ByteOrder) (os : OutputStream) : Item → Option OutputStream
  | .value v => os.writeValue host v
  | .longdouble x => os.writeLongdouble host x

def OutputStream.writeItems (host : ByteOrder) : List Item → OutputStream → Option OutputStream
  | [], os => some os
  | i :: is, os => (os.writeItem host i).bind (writeItems host is)

namespace InputStream

def readItem (host : ByteOrder) (is : InputStream) (junk : ℕ) : Item → Reading Item
  | .value v => (is.readValue host junk v.kind).map .value
  | .longdouble _ => (is.readLongdouble host (.ofNat _ junk)).map .longdouble

def readItems (host : ByteOrder) (junk : ℕ) : List Item → InputStream → List Item × InputStream
  | [], is => ([], is)
  | i :: items, is =>
    let r := is.readItem host junk i
    let rs := readItems host junk items r.stream
    (r.val :: rs.1, rs.2)

end InputStream

namespace OutputStream

variable {host : ByteOrder} {os os' : OutputStream} (hw : os.Wf)
  (hhost : os.doByteSwap = host.aceCdrByteOrder)

theorem writeItems_append (items items' : List Item) (os : OutputStream) :
    writeItems host (items ++ items') os =
      (writeItems host items os).bind (writeItems host items') := by
  induction items generalizing os with
  | nil => rfl
  | cons i items ih => simp only [cons_append, writeItems, Option.bind_assoc, ih]

include hw hhost

theorem writeItem_spec {i : Item} (hi : i.Fits) (h : os.writeItem host i = some os') :
    Wrote os os' (i.encode host) := by
  cases i with
  | value v => exact writeValue_spec hw hhost hi h
  | longdouble x => exact writeUnswapped_spec hw h

theorem writeItems_spec {items : List Item} (hitems : ∀ i ∈ items, i.Fits)
    (h : writeItems host items os = some os') :
    Wrote os os' (items.flatMap (Item.encode host)) := by
  induction items generalizing os with
  | nil =>
    cases h
    exact Wrote.refl hw
  | cons i items ih =>
    obtain ⟨hi, hitems⟩ := forall_mem_cons.mp hitems
    obtain ⟨os₁, h₁, hrest⟩ := Option.bind_eq_some_iff.mp h
    have hspec := writeItem_spec hw hhost hi h₁
    exact hspec.trans (ih hspec.wf (hspec.swap_eq.trans hhost) hitems hrest)

end OutputStream

namespace InputStream

variable {host : ByteOrder} {is : InputStream}

theorem readLongdouble_spec {x : BitVec 128}
    (h : is.Starts (host.image longdoubleSize x.toNat)) (old : BitVec 128) :
    is.readLongdouble host old = ⟨true, x, is.skip longlongSize⟩ := by
  have hlen : (host.image longdoubleSize x.toNat).length = 16 := host.length_image _ _
  have hend := h.1
  have hbytes := h.2
  rw [hlen] at hend hbytes
  have hfit : is.start.rdPtr + longlongSize ≤ is.start.endPtr := by
    have hle : longlongSize ≤ 16 := by decide
    exact (Nat.add_le_add_left hle _).trans hend
  have hval : word host 16 (host.image longdoubleSize x.toNat) = x := by
    rw [word, longdoubleSize, host.value_image, ofNat_mod_two_five_six_pow, BitVec.ofNat_toNat,
      BitVec.setWidth_eq]
  rw [rdPtr] at hbytes
  simp only [readLongdouble, read16, adjust, rdPtr, endPtr, hfit, ↓reduceIte, swapCopy,
    Bool.false_eq_true, hbytes, hval]
  rfl

section

variable (hhost : is.doByteSwap = host.aceCdrByteOrder) (hgood : is.goodBit = true)
include hhost hgood

theorem readItem_value_stream {v : Value} (hv : v.Fits) (h : is.Starts (v.encode host))
    (junk : ℕ) :
    (is.readItem host junk (.value v)).stream = is.skip (v.encode host).length :=
  (readValue_heard hhost hv hgood h junk).2

theorem readItems_stream {items : List Item} (hitems : ∀ i ∈ items, i.Fits)
    (hno : ∀ x, .longdouble x ∉ items) (h : is.Starts (items.flatMap (Item.encode host)))
    (junk : ℕ) :
    (readItems host junk items is).2 = is.skip (items.flatMap (Item.encode host)).length := by
  induction items generalizing is with
  | nil => rfl
  | cons i items ih =>
    obtain ⟨hi, htail⟩ := forall_mem_cons.mp hitems
    cases i with
    | longdouble x => exact absurd mem_cons_self (hno x)
    | value v =>
      rw [flatMap_cons] at h ⊢
      have hread := readItem_value_stream hhost hgood hi h.left junk
      have hrest := ih ((is.skip_doByteSwap _).trans hhost) ((is.skip_goodBit _).trans hgood)
        htail (fun x hx => hno x (mem_cons_of_mem _ hx)) h.right
      rw [readItems, hread]
      dsimp only
      rw [length_append, ← skip_skip]
      exact hrest

end

end InputStream

section Message

variable {host : ByteOrder} {heap : ℕ → Chunk} {items : List Item} {os : OutputStream}

theorem reader_at (c : Chunk) (junk : ℕ) (hitems : ∀ i ∈ items, i.Fits)
    (hos : writeItems host items (.create host heap) = some os)
    {before after : List Item} {i : Item} (hsplit : items = before ++ i :: after)
    (hno : ∀ x, .longdouble x ∉ before) :
    ∃ os₀ os₁, writeItems host before (.create host heap) = some os₀ ∧
      os₀.writeItem host i = some os₁ ∧
      os₁.totalLength = os₀.totalLength + (i.encode host).length ∧
      ∃ is, (readItems host junk before (.ofOutput host c os)).2 = is ∧
        is.doByteSwap = host.aceCdrByteOrder ∧ is.goodBit = true ∧
        is.Starts (i.encode host) := by
  subst hsplit
  have hbefore : ∀ j ∈ before, j.Fits := fun j hj => hitems j (mem_append_left _ hj)
  have hi : i.Fits := hitems i (mem_append_right _ mem_cons_self)
  have hwhole := writeItems_spec (create_wf host heap)
    (create_doByteSwap host heap) hitems hos
  rw [writeItems_append] at hos
  obtain ⟨os₀, h₀, hrest⟩ := Option.bind_eq_some_iff.mp hos
  obtain ⟨os₁, h₁, -⟩ := Option.bind_eq_some_iff.mp hrest
  have hwrote₀ := writeItems_spec (create_wf host heap)
    (create_doByteSwap host heap) hbefore h₀
  have hwrote₁ := writeItem_spec hwrote₀.wf
    (hwrote₀.swap_eq.trans (create_doByteSwap host heap)) hi h₁
  have hstarts := starts_ofOutput host c os
  rw [hwhole.bytes_eq, create_bytes, nil_append, flatMap_append,
    flatMap_cons] at hstarts
  refine ⟨os₀, os₁, h₀, h₁, hwrote₁.totalLength, _,
    readItems_stream rfl rfl hbefore hno hstarts.left junk, rfl, rfl,
    hstarts.right.left⟩

end Message

/-- **Every read consumes what its write produced exactly if there is no long double** among the
values of a message. -/
theorem consumes_iff (host : ByteOrder) (heap : ℕ → Chunk) (c : Chunk) (junk : ℕ)
    (items : List Item) (hitems : ∀ i ∈ items, i.Fits) (os : OutputStream)
    (hos : writeItems host items (.create host heap) = some os) :
    (∀ before i after, items = before ++ i :: after → ∀ os₀ os₁,
        writeItems host before (.create host heap) = some os₀ →
        os₀.writeItem host i = some os₁ →
        (readItem host (readItems host junk before
            (.ofOutput host c os)).2 junk i).stream.rdPtr =
          (readItems host junk before (.ofOutput host c os)).2.rdPtr +
            (os₁.totalLength - os₀.totalLength)) ↔
      ∀ x, .longdouble x ∉ items := by
  constructor
  · intro hall
    -- no long double among the first items, however many are taken
    have hfirst (before : List Item) :
        ∀ after, items = before ++ after → ∀ x, .longdouble x ∉ before := by
      induction before using reverseRecOn with
      | nil => exact fun _ _ _ => not_mem_nil
      | append_singleton before i ih =>
        intro after hsplit x hx
        rw [append_assoc, singleton_append] at hsplit
        have hno := ih (i :: after) hsplit
        rcases mem_append.mp hx with hx | hx
        · exact hno x hx
        · obtain rfl := mem_singleton.mp hx
          obtain ⟨os₀, os₁, h₀, h₁, hlen, is, his, -, -, hstarts⟩ :=
            reader_at c junk hitems hos hsplit hno
          have hpos := hall before _ after hsplit os₀ os₁ h₀ h₁
          rw [his, hlen, Nat.add_sub_cancel_left, readItem,
            readLongdouble_spec hstarts] at hpos
          simp [Reading.map, Item.encode, longdoubleSize, longlongSize] at hpos
    exact hfirst items [] (append_nil items).symm
  · intro hno before i after hsplit os₀ os₁ h₀ h₁
    have hbefore : ∀ x, .longdouble x ∉ before := fun x hx =>
      hno x (hsplit ▸ mem_append_left _ hx)
    obtain ⟨os₀', os₁', h₀', h₁', hlen, is, his, hhost, hgood, hstarts⟩ :=
      reader_at c junk hitems hos hsplit hbefore
    obtain rfl : os₀ = os₀' := Option.some.inj (h₀.symm.trans h₀')
    obtain rfl : os₁ = os₁' := Option.some.inj (h₁.symm.trans h₁')
    have hi : i ∈ items := hsplit ▸ mem_append_right _ mem_cons_self
    rw [his, hlen, Nat.add_sub_cancel_left]
    cases i with
    | longdouble x => exact absurd hi (hno x)
    | value v =>
      rw [readItem_value_stream hhost hgood (hitems _ hi) hstarts]
      rfl

theorem consumes_iff_values :
    ∃ os, writeItems .little [.value (.int 7#32), .value (.double 9#64)]
        (.create .little fun _ => zeroChunk) = some os ∧
      ∀ before i after, [Item.value (.int 7#32), .value (.double 9#64)] = before ++ i :: after →
        ∀ os₀ os₁, writeItems .little before (.create .little fun _ => zeroChunk) =
            some os₀ →
          os₀.writeItem .little i = some os₁ →
          (readItem .little (readItems .little 0 before
              (.ofOutput .little zeroChunk os)).2 0 i).stream.rdPtr =
            (readItems .little 0 before (.ofOutput .little zeroChunk os)).2.rdPtr +
              (os₁.totalLength - os₀.totalLength) := by
  obtain ⟨os, hos⟩ := Option.isSome_iff_exists.mp (show (writeItems .little
    [.value (.int 7#32), .value (.double 9#64)] (.create .little fun _ => zeroChunk)).isSome = true
      by decide +kernel)
  refine ⟨os, hos, (consumes_iff .little (fun _ => zeroChunk) zeroChunk 0 _ ?_ os hos).mpr ?_⟩
  · simp [Item.Fits, Value.Fits]
  · simp

theorem readItems_behind_longdouble :
    ∃ os, writeItems .little [.longdouble 5#128, .value (.int 7#32)]
        (.create .little fun _ => zeroChunk) = some os ∧
      (readItems .little 0 [.longdouble 5#128, .value (.int 7#32)]
        (.ofOutput .little zeroChunk os)).1 = [.longdouble 5#128, .value (.int 0#32)] ∧
      (readItems .little 0 [.longdouble 5#128] (.ofOutput .little zeroChunk os)).2.rdPtr
        = 8 := by
  obtain ⟨os, hos, hread⟩ := Option.map_eq_some_iff.mp (show (writeItems .little
    [.longdouble 5#128, .value (.int 7#32)] (.create .little fun _ => zeroChunk)).map (fun os =>
      ((readItems .little 0 [.longdouble 5#128, .value (.int 7#32)]
        (.ofOutput .little zeroChunk os)).1,
      (readItems .little 0 [.longdouble 5#128]
        (.ofOutput .little zeroChunk os)).2.rdPtr)) =
      some ([.longdouble 5#128, .value (.int 0#32)], 8) by decide +kernel)
  obtain ⟨hitems, hoffset⟩ := Prod.mk.inj hread
  exact ⟨os, hos, hitems, hoffset⟩

end Icm.Stream
