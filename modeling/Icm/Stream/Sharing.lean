import Icm.Lib.RefCount
import Icm.Stream.Frame
import Mathlib.Data.List.Perm.Basic

/-!
# Streams that share their blocks

An `InputStream` object (`icm/IcmStream.cpp`) has a pointer to a `DataBlock`, which counts the
references to it (`icc/MessageBlock.cpp`), and its offsets and flags.
-/

namespace Icm.Stream

open Icm.Lib List Option InputStream

theorem InputStream.fetch_dataBlock (is : InputStream) (n : ℕ) :
    (is.fetch n).2.start.dataBlock = is.start.dataBlock := by
  rcases Nat.lt_or_ge is.endPtr (is.rdPtr + n) with h | h
  · rw [fetch_of_lt h]
    rfl
  · rw [fetch_of_le h]
    rfl

abbrev Blocks := RefStore DataBlock

/-- An `InputStream` object: the pointer to its data block, its offsets and its flags. -/
structure StreamObject where
  dataBlock : ℕ
  rdPtr : ℕ
  wrPtr : ℕ
  doByteSwap : Bool
  goodBit : Bool

namespace StreamObject

section Functions

variable (host : ByteOrder) (s : Blocks) (o : StreamObject)

def view (db : DataBlock) : InputStream := ⟨⟨o.rdPtr, o.wrPtr, db⟩, o.doByteSwap, o.goodBit⟩

def moved (is : InputStream) : StreamObject :=
  ⟨o.dataBlock, is.start.rdPtr, is.start.wrPtr, is.doByteSwap, is.goodBit⟩

def replaceDataBlock (db : ℕ) : StreamObject := { o with dataBlock := db, rdPtr := 0, wrPtr := 0 }

def setDataBlock (db : ℕ) : Option (Blocks × StreamObject) := do
  let s ← s.release o.dataBlock
  return (s, o.replaceDataBlock db)

def copy : Option (Blocks × StreamObject) := do
  let s ← s.duplicate o.dataBlock
  return (s, ⟨o.dataBlock, o.rdPtr, o.wrPtr, host.aceCdrByteOrder, true⟩)

def slice (size : ℕ) (offset : ℤ) : Option (Blocks × StreamObject) := do
  let s ← s.duplicate o.dataBlock
  let db ← s.get o.dataBlock
  let newpos : ℤ := o.rdPtr + offset
  if 0 ≤ newpos ∧ newpos ≤ db.maxSize ∧ newpos + size ≤ db.maxSize then
    return (s, ⟨o.dataBlock, newpos.toNat, newpos.toNat + size, host.aceCdrByteOrder, true⟩)
  else return (s, ⟨o.dataBlock, 0, 0, host.aceCdrByteOrder, false⟩)

def assign (rhs : StreamObject) : Option (Blocks × StreamObject) := do
  let s ← s.duplicate rhs.dataBlock
  let (s, o) ← o.setDataBlock s rhs.dataBlock
  return (s, { o with
    rdPtr := rhs.rdPtr, wrPtr := rhs.wrPtr, doByteSwap := rhs.doByteSwap, goodBit := true })

def transferContents (c : Chunk) : Option (Blocks × StreamObject × StreamObject) := do
  let own : StreamObject := ⟨o.dataBlock, o.rdPtr, o.wrPtr, host.aceCdrByteOrder, true⟩
  let db ← s.get own.dataBlock
  let (p, s) := s.new (db.cloneNoCopy c)
  return (s, own, o.replaceDataBlock p)

def resetContents (c : Chunk) : Option (Blocks × StreamObject) := do
  let db ← s.get o.dataBlock
  let (p, s) := s.new (db.cloneNoCopy c)
  o.setDataBlock s p

def stealFrom (cdr : StreamObject) (c : Chunk) : Option (Blocks × StreamObject × StreamObject) := do
  let s ← s.duplicate cdr.dataBlock
  let (s, own) ← o.setDataBlock s cdr.dataBlock
  let (s, cdr') ← cdr.resetContents s c
  return (s, { own with
    rdPtr := cdr.rdPtr, wrPtr := cdr.wrPtr, doByteSwap := host.aceCdrByteOrder }, cdr')

def grow (c₁ c₂ : Chunk) (newsize : ℕ) : Option (Blocks × StreamObject) := do
  let db ← s.get o.dataBlock
  let grown := (o.view db).grow c₁ c₂ newsize
  if firstSize (newsize + maxAlignment) ≤ db.curSize then return (s, o.moved grown)
  else
    let (p, s) := s.new (db.cloneNoCopy c₁)
    let s ← s.set p grown.start.dataBlock
    let s ← s.duplicate p
    let (s, o) ← o.setDataBlock s p
    let s ← s.release p
    return (s, o.moved grown)

def receive (buf : ℕ) (bs : List UInt8) : Option (Blocks × StreamObject) := do
  let db ← s.get o.dataBlock
  let s ← s.set o.dataBlock ((o.view db).fill buf bs).start.dataBlock
  return (s, o)

def read (op : Op) : Option ((Bool × Option Value) × StreamObject) := do
  let db ← s.get o.dataBlock
  let r := (o.view db).runOp host op
  return (r.1, o.moved r.2)

end Functions

@[simp] theorem moved_dataBlock (o : StreamObject) (is : InputStream) :
    (o.moved is).dataBlock = o.dataBlock := rfl

@[simp] theorem replaceDataBlock_dataBlock (o : StreamObject) (db : ℕ) :
    (o.replaceDataBlock db).dataBlock = db := rfl

theorem view_moved (o : StreamObject) (is : InputStream) :
    (o.moved is).view is.start.dataBlock = is := rfl

structure Spares (f : InputStream → InputStream) (s s' : Blocks) (o o' : StreamObject)
    (refs : Multiset ℕ) : Prop where
  counts : s'.Counts (o'.dataBlock ::ₘ refs)
  swap_eq : o'.doByteSwap = o.doByteSwap
  view_eq : (s'.get o'.dataBlock).map o'.view = (s.get o.dataBlock).map fun db => f (o.view db)
  others : ∀ q ∈ refs, q ≠ o.dataBlock → q ≠ o'.dataBlock ∧ s'.get q = s.get q

section Specs

variable {host : ByteOrder} {s : Blocks} {o : StreamObject} {refs : Multiset ℕ}

theorem Spares.of_dataBlock_eq {f : InputStream → InputStream} {db : DataBlock}
    (h : s.Counts (o.dataBlock ::ₘ refs)) (hdb : s.get o.dataBlock = some db)
    (hblock : (f (o.view db)).start.dataBlock = db)
    (hswap : (f (o.view db)).doByteSwap = o.doByteSwap) :
    Spares f s s o (o.moved (f (o.view db))) refs := by
  refine ⟨h, hswap, ?_, fun q _ hne => ⟨hne, rfl⟩⟩
  have hview := o.view_moved (f (o.view db))
  rw [hblock] at hview
  rw [moved_dataBlock, hdb, map_some, map_some, hview]

section

variable (h : s.Counts (o.dataBlock ::ₘ refs))
include h

theorem setDataBlock_spec (p : ℕ) :
    ∃ s', o.setDataBlock s p = some (s', o.replaceDataBlock p) ∧ s'.Counts refs ∧
      ∀ q ∈ refs, s'.get q = s.get q := by
  obtain ⟨s', hrelease, hcounts, hget⟩ := h.release
  exact ⟨s', by simp [setDataBlock, hrelease], hcounts, hget⟩

theorem resetContents_spec (c : Chunk) :
    ∃ s' p, o.resetContents s c = some (s', o.replaceDataBlock p) ∧ s'.Counts (p ::ₘ refs) ∧
      p ∉ o.dataBlock ::ₘ refs ∧ s'.get p = (s.get o.dataBlock).map (·.cloneNoCopy c) ∧
      ∀ q ∈ refs, s'.get q = s.get q := by
  obtain ⟨db, -, hdb⟩ := h.exists_cell (Multiset.mem_cons_self _ _)
  have hnew := h.new (a := db.cloneNoCopy c)
  rw [Multiset.cons_swap] at hnew
  obtain ⟨s', hset, hcounts, hget⟩ := setDataBlock_spec hnew (s.new (db.cloneNoCopy c)).1
  refine ⟨s', _, by simp [resetContents, hdb, hset], hcounts, h.new_notMem, ?_, fun q hq => ?_⟩
  · rw [hget _ (Multiset.mem_cons_self _ _), RefStore.Counts.get_new_self, hdb, map_some]
  · rw [hget q (Multiset.mem_cons_of_mem hq), h.get_new_of_mem (Multiset.mem_cons_of_mem hq)]

theorem grow_spec (c₁ c₂ : Chunk) (newsize : ℕ) :
    ∃ s' o', o.grow s c₁ c₂ newsize = some (s', o') ∧
      Spares (·.grow c₁ c₂ newsize) s s' o o' refs := by
  obtain ⟨db, -, hdb⟩ := h.exists_cell (Multiset.mem_cons_self _ _)
  let grown := (o.view db).grow c₁ c₂ newsize
  by_cases hfits : firstSize (newsize + maxAlignment) ≤ db.curSize
  · have hblock : grown.start.dataBlock = db := by
      simp only [grown, InputStream.grow, MessageBlock.grow, MessageBlock.mbAlign]
      rw [if_pos (show _ ≤ (o.view db).start.size from hfits)]
      rfl
    exact ⟨s, o.moved grown, by simp [grow, hdb, hfits, grown],
      .of_dataBlock_eq (f := (·.grow c₁ c₂ newsize)) h hdb hblock rfl⟩
  -- the new block has two references, until the temporary block goes
  let p := (s.new (db.cloneNoCopy c₁)).1
  obtain ⟨s₁, hset, hcounts₁, hself, hget₁⟩ := (h.new (a := db.cloneNoCopy c₁)).set
    (Multiset.mem_cons_self p _) (a := grown.start.dataBlock)
  obtain ⟨s₂, hdup, hcounts₂, hget₂⟩ := hcounts₁.duplicate (Multiset.mem_cons_self p _)
  rw [Multiset.cons_swap _ o.dataBlock, Multiset.cons_swap _ o.dataBlock] at hcounts₂
  obtain ⟨s₃, hown, hcounts₃, hget₃⟩ := setDataBlock_spec hcounts₂ p
  obtain ⟨s₄, hrelease, hcounts₄, hget₄⟩ := hcounts₃.release
  have hget (q : ℕ) (hq : q ∈ p ::ₘ refs) : s₄.get q = s₁.get q := by
    rw [hget₄ q hq, hget₃ q (Multiset.mem_cons_of_mem hq), hget₂]
  refine ⟨s₄, (o.replaceDataBlock p).moved grown,
    by simp [grow, hdb, hfits, hset, hdup, hown, hrelease, p, grown], hcounts₄, rfl, ?_, ?_⟩
  · rw [moved_dataBlock, replaceDataBlock_dataBlock, hget p (Multiset.mem_cons_self _ _), hself,
      hdb, map_some, map_some, view_moved]
  · intro q hq _
    have hold : q ∈ o.dataBlock ::ₘ refs := Multiset.mem_cons_of_mem hq
    have hne : q ≠ p := fun heq => h.new_notMem (heq ▸ hold)
    refine ⟨hne, ?_⟩
    rw [hget q (Multiset.mem_cons_of_mem hq), hget₁ q hne, h.get_new_of_mem hold]

theorem receive_spec (buf : ℕ) (bs : List UInt8) :
    ∃ s' o', o.receive s buf bs = some (s', o') ∧ Spares (·.fill buf bs) s s' o o' refs := by
  have hmem := Multiset.mem_cons_self o.dataBlock refs
  obtain ⟨db, -, hdb⟩ := h.exists_cell hmem
  obtain ⟨s', hset, hcounts, hself, hget⟩ := h.set hmem
    (a := ((o.view db).fill buf bs).start.dataBlock)
  refine ⟨s', o, by simp [receive, hdb, hset], hcounts, rfl, ?_,
    fun q _ hne => ⟨hne, hget q hne⟩⟩
  rw [hself, hdb]
  rfl

end

theorem read_spec (host : ByteOrder) (h : s.Counts (o.dataBlock ::ₘ refs)) {db : DataBlock}
    (hdb : s.get o.dataBlock = some db) (op : Op) :
    Spares (fun is => (is.runOp host op).2) s s o (o.moved ((o.view db).runOp host op).2)
      refs := by
  have hrun := runOp_eq host (o.view db) op
  have hblock : ((o.view db).runOp host op).2.start.dataBlock = db := by
    rw [hrun]
    exact (op.program host _).run_invariant (I := fun is : InputStream => is.start.dataBlock = db)
      (fun n is his => (fetch_dataBlock is n).trans his) rfl
  have hswap : ((o.view db).runOp host op).2.doByteSwap = o.doByteSwap := by
    rw [hrun, run_fetch_doByteSwap]
    rfl
  exact .of_dataBlock_eq (f := fun is => (is.runOp host op).2) h hdb hblock hswap

theorem copy_spec (host : ByteOrder) (h : s.Counts refs) (hmem : o.dataBlock ∈ refs) :
    ∃ s' o', o.copy host s = some (s', o') ∧ s'.Counts (o'.dataBlock ::ₘ refs) ∧
      o'.doByteSwap = host.aceCdrByteOrder := by
  obtain ⟨s', hdup, hcounts, -⟩ := h.duplicate hmem
  exact ⟨s', ⟨o.dataBlock, o.rdPtr, o.wrPtr, host.aceCdrByteOrder, true⟩, by simp [copy, hdup],
    hcounts, rfl⟩

theorem slice_spec (host : ByteOrder) (h : s.Counts refs) (hmem : o.dataBlock ∈ refs) (size : ℕ)
    (offset : ℤ) :
    ∃ s' o', o.slice host s size offset = some (s', o') ∧ s'.Counts (o'.dataBlock ::ₘ refs) ∧
      o'.doByteSwap = host.aceCdrByteOrder := by
  obtain ⟨s', hdup, hcounts, -⟩ := h.duplicate hmem
  obtain ⟨db, -, hdb⟩ := hcounts.exists_cell (Multiset.mem_cons_self _ _)
  simp only [slice, hdup, hdb, bind_eq_bind, bind_some]
  split_ifs
  · exact ⟨s', _, rfl, hcounts, rfl⟩
  · exact ⟨s', _, rfl, hcounts, rfl⟩

theorem goOver_spec (h : s.Counts (o.dataBlock ::ₘ refs)) {p : ℕ} (hp : p ∈ refs) :
    ∃ s₁ s₂, s.duplicate p = some s₁ ∧ o.setDataBlock s₁ p = some (s₂, o.replaceDataBlock p) ∧
      s₂.Counts (p ::ₘ refs) ∧ ∀ q ∈ refs, s₂.get q = s.get q := by
  obtain ⟨s₁, hdup, hcounts₁, hget₁⟩ := h.duplicate (Multiset.mem_cons_of_mem hp)
  rw [Multiset.cons_swap] at hcounts₁
  obtain ⟨s₂, hset, hcounts₂, hget₂⟩ := setDataBlock_spec hcounts₁ p
  refine ⟨s₁, s₂, hdup, hset, hcounts₂, fun q hq => ?_⟩
  rw [hget₂ q (Multiset.mem_cons_of_mem hq), hget₁]

theorem transferContents_spec (host : ByteOrder) (h : s.Counts (o.dataBlock ::ₘ refs)) (c : Chunk) :
    ∃ s' p, o.transferContents host s c =
        some (s', ⟨o.dataBlock, o.rdPtr, o.wrPtr, host.aceCdrByteOrder, true⟩,
          o.replaceDataBlock p) ∧
      s'.Counts (p ::ₘ o.dataBlock ::ₘ refs) ∧ p ∉ o.dataBlock ::ₘ refs ∧
      s'.get p = (s.get o.dataBlock).map (·.cloneNoCopy c) ∧
      s'.get o.dataBlock = s.get o.dataBlock := by
  have hmem := Multiset.mem_cons_self o.dataBlock refs
  obtain ⟨db, -, hdb⟩ := h.exists_cell hmem
  refine ⟨(s.new (db.cloneNoCopy c)).2, (s.new (db.cloneNoCopy c)).1,
    by simp [transferContents, hdb], h.new, h.new_notMem, ?_, h.get_new_of_mem hmem⟩
  rw [RefStore.Counts.get_new_self, hdb, map_some]

end Specs

end StreamObject

/-- The data blocks and the streams of a program; a stream that was destroyed leaves its place. -/
structure Streams where
  blocks : Blocks
  objects : List (Option StreamObject)

/-- What a program does: make a stream on a block of its own, with any content, copy streams whole
and in part, assign and destroy them, make room, receive bytes, read, and transfer a block. -/
inductive StreamEvent
  | create (mb : MessageBlock)
  | copy (rhs : ℕ)
  | slice (rhs size : ℕ) (offset : ℤ)
  | assign (i rhs : ℕ)
  | destroy (i : ℕ)
  | grow (i : ℕ) (c₁ c₂ : Chunk) (newsize : ℕ)
  | receive (i buf : ℕ) (bs : List UInt8)
  | read (i : ℕ) (op : Op)
  | transferContents (rhs : ℕ) (c : Chunk)
  | stealFrom (i cdr : ℕ) (c : Chunk)

namespace Streams

def held (objects : List (Option StreamObject)) : Multiset ℕ :=
  (objects.reduceOption.map StreamObject.dataBlock : List ℕ)

variable (host : ByteOrder)

def empty : Streams := ⟨.empty, []⟩

def object (w : Streams) (i : ℕ) : Option StreamObject := (w.objects[i]?).join

def view (w : Streams) (i : ℕ) : Option InputStream :=
  (w.object i).bind fun o => (w.blocks.get o.dataBlock).map o.view

def on (w : Streams) (i : ℕ) (f : StreamObject → Option Streams) : Option Streams :=
  match w.object i with
  | none => some w
  | some o => f o

def step (w : Streams) : StreamEvent → Option Streams
  | .create mb =>
    let (p, s) := w.blocks.new mb.dataBlock
    some ⟨s, w.objects ++ [some ⟨p, mb.rdPtr, mb.wrPtr, host.aceCdrByteOrder, true⟩]⟩
  | .copy rhs => w.on rhs fun o => do
    let (s, o') ← o.copy host w.blocks
    return ⟨s, w.objects ++ [some o']⟩
  | .slice rhs size offset => w.on rhs fun o => do
    let (s, o') ← o.slice host w.blocks size offset
    return ⟨s, w.objects ++ [some o']⟩
  | .assign i rhs => w.on i fun o => w.on rhs fun o' =>
    if i = rhs then some w
    else do
      let (s, o) ← o.assign w.blocks o'
      return ⟨s, w.objects.set i (some o)⟩
  | .destroy i => w.on i fun o => do
    let s ← w.blocks.release o.dataBlock
    return ⟨s, w.objects.set i none⟩
  | .grow i c₁ c₂ newsize => w.on i fun o => do
    let (s, o) ← o.grow w.blocks c₁ c₂ newsize
    return ⟨s, w.objects.set i (some o)⟩
  | .receive i buf bs => w.on i fun o => do
    let (s, o) ← o.receive w.blocks buf bs
    return ⟨s, w.objects.set i (some o)⟩
  | .read i op => w.on i fun o => do
    let (_, o) ← o.read host w.blocks op
    return ⟨w.blocks, w.objects.set i (some o)⟩
  | .transferContents rhs c => w.on rhs fun o => do
    let (s, own, o) ← o.transferContents host w.blocks c
    return ⟨s, w.objects.set rhs (some o) ++ [some own]⟩
  | .stealFrom i cdr c => w.on i fun o => w.on cdr fun o' =>
    if i = cdr then do
      let (s, o) ← o.resetContents w.blocks c
      return ⟨s, w.objects.set i (some { o with doByteSwap := host.aceCdrByteOrder })⟩
    else do
      let (s, o, o') ← o.stealFrom host w.blocks o' c
      return ⟨s, (w.objects.set i (some o)).set cdr (some o')⟩

structure Sound (w : Streams) : Prop where
  counts : w.blocks.Counts (held w.objects)
  swap_eq : ∀ o, some o ∈ w.objects → o.doByteSwap = host.aceCdrByteOrder

variable {host} {w : Streams} {i j : ℕ} {o : StreamObject}

theorem held_perm {objects objects' : List (Option StreamObject)} (h : objects.Perm objects') :
    held objects = held objects' :=
  Multiset.coe_eq_coe.mpr ((h.filterMap id).map _)

theorem held_cons (objects : List (Option StreamObject)) (o : StreamObject) :
    held (some o :: objects) = o.dataBlock ::ₘ held objects := rfl

theorem held_append (objects : List (Option StreamObject)) (o : StreamObject) :
    held (objects ++ [some o]) = o.dataBlock ::ₘ held objects :=
  (held_perm perm_append_comm).trans (held_cons objects o)

theorem object_eq_some : w.object i = some o ↔ w.objects[i]? = some (some o) :=
  join_eq_some_iff

theorem object_set_self {s : Blocks} {o' : Option StreamObject} (h : w.object i = some o) :
    object ⟨s, w.objects.set i o'⟩ i = o' := by
  have hlt := (List.getElem?_eq_some_iff.mp (object_eq_some.mp h)).1
  simp [object, List.getElem?_set_self hlt]

theorem object_set_ne {s : Blocks} {o' : Option StreamObject} (h : j ≠ i) :
    object ⟨s, w.objects.set i o'⟩ j = w.object j := by
  rw [object, object, getElem?_set_ne h.symm]

theorem held_split (h : w.object i = some o) :
    ∃ rest, held w.objects = o.dataBlock ::ₘ rest ∧
      (∀ o', held (w.objects.set i (some o')) = o'.dataBlock ::ₘ rest) ∧
      held (w.objects.set i none) = rest ∧
      ∀ j o', j ≠ i → w.object j = some o' → o'.dataBlock ∈ rest := by
  obtain ⟨hlt, hget⟩ := List.getElem?_eq_some_iff.mp (object_eq_some.mp h)
  refine ⟨held (w.objects.eraseIdx i), ?_, fun o' => ?_, ?_, fun j o' hj ho' => ?_⟩
  · have hperm := getElem_cons_eraseIdx_perm hlt
    rw [hget] at hperm
    exact (held_perm hperm).symm
  · exact held_perm (set_perm_cons_eraseIdx hlt (some o'))
  · exact (held_perm (set_perm_cons_eraseIdx hlt none)).trans rfl
  · have hmem : some o' ∈ w.objects.eraseIdx i :=
      mem_eraseIdx_iff_getElem?.mpr ⟨j, hj, object_eq_some.mp ho'⟩
    exact Multiset.mem_coe.mpr (mem_map_of_mem (reduceOption_mem_iff.mpr hmem))

namespace Sound

theorem empty : Sound host empty where
  counts := .empty
  swap_eq := by simp [Streams.empty]

section

variable (h : Sound host w)
include h

theorem exists_view (hi : w.object i = some o) :
    ∃ db, w.blocks.get o.dataBlock = some db ∧ w.view i = some (o.view db) := by
  obtain ⟨rest, hheld, -⟩ := held_split hi
  have hcounts := h.counts
  rw [hheld] at hcounts
  obtain ⟨db, -, hdb⟩ := hcounts.exists_cell (Multiset.mem_cons_self _ _)
  exact ⟨db, hdb, by simp [view, hi, hdb]⟩

theorem swap_object (hi : w.object i = some o) :
    o.doByteSwap = host.aceCdrByteOrder :=
  h.swap_eq o (mem_of_getElem? (object_eq_some.mp hi))

theorem swap_set (hswap : o.doByteSwap = host.aceCdrByteOrder) :
    ∀ o', some o' ∈ w.objects.set i (some o) → o'.doByteSwap = host.aceCdrByteOrder := by
  intro o' ho'
  rcases mem_or_eq_of_mem_set ho' with ho' | ho'
  · exact h.swap_eq o' ho'
  · rw [some.inj ho', hswap]

theorem set {s : Blocks} (hcounts : s.Counts (held (w.objects.set i (some o))))
    (hswap : o.doByteSwap = host.aceCdrByteOrder) : Sound host ⟨s, w.objects.set i (some o)⟩ :=
  ⟨hcounts, h.swap_set hswap⟩

end

theorem append {objects : List (Option StreamObject)}
    (hobjects : ∀ o, some o ∈ objects → o.doByteSwap = host.aceCdrByteOrder) {s : Blocks}
    (hcounts : s.Counts (o.dataBlock ::ₘ held objects))
    (hswap : o.doByteSwap = host.aceCdrByteOrder) :
    Sound host ⟨s, objects ++ [some o]⟩ := by
  refine ⟨by rwa [held_append], fun o' ho' => ?_⟩
  rcases mem_append.mp ho' with ho' | ho'
  · exact hobjects o' ho'
  · rw [some.inj (mem_singleton.mp ho'), hswap]

end Sound

def Apart (w : Streams) (i j : ℕ) : Prop :=
  i ≠ j ∧ ∃ o o', w.object i = some o ∧ w.object j = some o' ∧ o'.dataBlock ≠ o.dataBlock

theorem view_of_object (h : w.object i = some o) :
    w.view i = (w.blocks.get o.dataBlock).map o.view := by
  rw [view, h, bind_some]

theorem on_of_object (h : w.object i = some o) (f : StreamObject → Option Streams) :
    w.on i f = f o := by
  simp only [on, h]

theorem on_of_none (h : w.object i = none) (f : StreamObject → Option Streams) :
    w.on i f = some w := by
  simp only [on, h]

theorem Apart.symm (h : w.Apart i j) : w.Apart j i :=
  let ⟨hne, o, o', hi, hj, hblocks⟩ := h
  ⟨hne.symm, o', o, hj, hi, hblocks.symm⟩

section

variable (h : Sound host w) (hi : w.object i = some o)
include h hi

theorem Sound.operate {f : InputStream → InputStream}
    {g : Option (Blocks × StreamObject)}
    (hg : ∀ refs, w.blocks.Counts (o.dataBlock ::ₘ refs) →
      ∃ s' o', g = some (s', o') ∧ StreamObject.Spares f w.blocks s' o o' refs) :
    ∃ w', (do
        let (s, o) ← g
        return ⟨s, w.objects.set i (some o)⟩) = some w' ∧ Sound host w' ∧
      w'.view i = (w.view i).map f ∧
      ∀ j, w.Apart i j → w'.Apart i j ∧ w'.view j = w.view j := by
  obtain ⟨rest, hheld, hset, -, hrest⟩ := held_split hi
  obtain ⟨s', o', rfl, hspares⟩ := hg rest (hheld ▸ h.counts)
  have hswap := hspares.swap_eq.trans (h.swap_object hi)
  refine ⟨_, rfl, h.set (hset o' ▸ hspares.counts) hswap, ?_, ?_⟩
  · rw [view_of_object (object_set_self hi), view_of_object hi, Option.map_map]
    exact hspares.view_eq
  rintro j ⟨hij, o₁, oj, hi', hj, hne⟩
  obtain rfl := some.inj (hi.symm.trans hi')
  obtain ⟨hne', hget⟩ := hspares.others _ (hrest j oj hij.symm hj) hne
  have hj' : object ⟨s', w.objects.set i (some o')⟩ j = some oj :=
    (object_set_ne hij.symm).trans hj
  refine ⟨⟨hij, o', oj, object_set_self hi, hj', hne'⟩, ?_⟩
  rw [view_of_object hj', view_of_object hj, hget]

theorem Sound.read {is : InputStream}
    (hview : w.view i = some is) (op : Op) :
    ∃ o' w', o.read host w.blocks op = some ((is.runOp host op).1, o') ∧
      w.step host (.read i op) = some w' ∧ Sound host w' ∧
      w'.view i = some (is.runOp host op).2 ∧
      ∀ j, w.Apart i j → w'.Apart i j ∧ w'.view j = w.view j := by
  obtain ⟨db, hdb, hview'⟩ := h.exists_view hi
  obtain rfl := some.inj (hview'.symm.trans hview)
  let o' := o.moved ((o.view db).runOp host op).2
  have hread : o.read host w.blocks op = some (((o.view db).runOp host op).1, o') := by
    simp [StreamObject.read, hdb, o']
  obtain ⟨w', heq, h', hmoved, hothers⟩ := h.operate hi (g := some (w.blocks, o'))
    fun refs hcounts => ⟨_, _, rfl, StreamObject.read_spec host hcounts hdb op⟩
  refine ⟨o', w', hread, ?_, h', by rw [hmoved, hview, map_some], hothers⟩
  rw [step, on_of_object hi, hread]
  exact heq

theorem Sound.transferContents (c : Chunk) :
    ∃ w', w.step host (.transferContents i c) = some w' ∧ Sound host w' ∧
      w'.Apart i w.objects.length ∧ ∀ is, w.view i = some is →
        w'.view w.objects.length = some (is.transferContents host c).1 ∧
        w'.view i = some (is.transferContents host c).2 := by
  have hswap := h.swap_object hi
  have hlt := (List.getElem?_eq_some_iff.mp (object_eq_some.mp hi)).1
  obtain ⟨rest, hheld, hset, -⟩ := held_split hi
  obtain ⟨s', p, htransfer, hcounts, hp, hnew, hget⟩ :=
    StreamObject.transferContents_spec host (hheld ▸ h.counts) c
  let own : StreamObject := ⟨o.dataBlock, o.rdPtr, o.wrPtr, host.aceCdrByteOrder, true⟩
  let w' : Streams := ⟨s', w.objects.set i (some (o.replaceDataBlock p)) ++ [some own]⟩
  have hi' : w'.object i = some (o.replaceDataBlock p) := by
    simp [w', object, getElem?_append_left, hlt]
  have hown : w'.object w.objects.length = some own := by
    simp [w', object]
  refine ⟨w', by rw [step, on_of_object hi, htransfer]; rfl, ?_, ?_, fun is his => ?_⟩
  · refine append (o := own) (h.swap_set (o := o.replaceDataBlock p) hswap) ?_ rfl
    rw [hset, Multiset.cons_swap]
    exact hcounts
  · refine ⟨hlt.ne, _, _, hi', hown, fun heq => hp ?_⟩
    exact heq ▸ Multiset.mem_cons_self _ _
  · rw [view_of_object hi] at his
    obtain ⟨db, hdb, rfl⟩ := map_eq_some_iff.mp his
    rw [hdb, map_some] at hnew
    rw [view_of_object hown, view_of_object hi']
    exact ⟨congrArg _ (hget.trans hdb), congrArg _ hnew⟩

theorem Sound.stealFrom {cdr : ℕ}
    {o' : StreamObject} (hcdr : w.object cdr = some o') (hne : i ≠ cdr) (c : Chunk) :
    ∃ w', w.step host (.stealFrom i cdr c) = some w' ∧ Sound host w' ∧
      w'.Apart cdr i ∧ ∀ is js, w.view cdr = some is → w.view i = some js →
        w'.view i = some (js.stealFrom is host c).1 ∧
        w'.view cdr = some (js.stealFrom is host c).2 := by
  have hswap := h.swap_object hcdr
  -- the stream goes over to the block of the source
  obtain ⟨rest, hheld, hset, -, hrest⟩ := held_split hi
  have hmem := hrest cdr o' hne.symm hcdr
  obtain ⟨s₁, s₂, hdup, hgo, hcounts, hget⟩ := StreamObject.goOver_spec (hheld ▸ h.counts) hmem
  let own : StreamObject :=
    ⟨o'.dataBlock, o'.rdPtr, o'.wrPtr, host.aceCdrByteOrder, o.goodBit⟩
  let w₁ : Streams := ⟨s₂, w.objects.set i (some own)⟩
  have h₁ : Sound host w₁ := h.set (hset own ▸ hcounts) rfl
  have hown₁ : w₁.object i = some own := object_set_self hi
  have hcdr₁ : w₁.object cdr = some o' := (object_set_ne hne.symm).trans hcdr
  -- the source goes over to a fresh block
  obtain ⟨rest₁, hheld₁, hset₁, -, hrest₁⟩ := held_split hcdr₁
  obtain ⟨s₃, p, hreset, hcounts₁, hp, hnew, hget₁⟩ :=
    StreamObject.resetContents_spec (s := s₂) (hheld₁ ▸ h₁.counts) c
  let w₂ : Streams := ⟨s₃, w₁.objects.set cdr (some (o'.replaceDataBlock p))⟩
  have hown₂ : w₂.object i = some own := (object_set_ne hne).trans hown₁
  have hcdr₂ : w₂.object cdr = some (o'.replaceDataBlock p) := object_set_self hcdr₁
  have hsteal : o.stealFrom host w.blocks o' c = some (s₃, own, o'.replaceDataBlock p) := by
    simp only [StreamObject.stealFrom, hdup, hgo, hreset, bind_eq_bind, bind_some]
    rfl
  refine ⟨w₂, ?_, h₁.set (hset₁ _ ▸ hcounts₁) hswap, ?_, fun is js his hjs => ?_⟩
  · rw [step, on_of_object hi, on_of_object hcdr, if_neg hne, hsteal]
    rfl
  · refine ⟨hne.symm, _, _, hcdr₂, hown₂, fun heq => hp ?_⟩
    exact heq ▸ Multiset.mem_cons_self _ _
  · rw [view_of_object hcdr] at his
    rw [view_of_object hi] at hjs
    obtain ⟨db, hdb, rfl⟩ := map_eq_some_iff.mp his
    obtain ⟨-, -, rfl⟩ := map_eq_some_iff.mp hjs
    rw [hget _ hmem, hdb, map_some] at hnew
    have hkept : s₃.get o'.dataBlock = some db := by
      rw [hget₁ _ (hrest₁ i own hne hown₁), hget _ hmem, hdb]
    rw [view_of_object hown₂, view_of_object hcdr₂]
    exact ⟨congrArg _ hkept, congrArg _ hnew⟩

end

theorem Sound.step (h : Sound host w) (e : StreamEvent) :
    ∃ w', w.step host e = some w' ∧ Sound host w' := by
  -- an event for a stream that is not there changes nothing
  have hon {i : ℕ} {f : StreamObject → Option Streams}
      (hf : ∀ o, w.object i = some o → ∃ w', f o = some w' ∧ Sound host w') :
      ∃ w', w.on i f = some w' ∧ Sound host w' := by
    cases hi : w.object i with
    | none => exact ⟨w, on_of_none hi f, h⟩
    | some o => rw [on_of_object hi]; exact hf o hi
  have hone {i : ℕ} {f : InputStream → InputStream}
      {g : StreamObject → Option (Blocks × StreamObject)}
      (hg : ∀ o refs, w.blocks.Counts (o.dataBlock ::ₘ refs) →
        ∃ s' o', g o = some (s', o') ∧ StreamObject.Spares f w.blocks s' o o' refs) :
      ∃ w', (w.on i fun o => do
        let (s, o) ← g o
        return ⟨s, w.objects.set i (some o)⟩) = some w' ∧ Sound host w' := by
    refine hon fun o hi => ?_
    obtain ⟨w', heq, h', -⟩ := h.operate hi (hg o)
    exact ⟨w', heq, h'⟩
  have hshare {i : ℕ} {f : StreamObject → Option (Blocks × StreamObject)}
      (hf : ∀ o, o.dataBlock ∈ held w.objects → ∃ s' o', f o = some (s', o') ∧
        s'.Counts (o'.dataBlock ::ₘ held w.objects) ∧
        o'.doByteSwap = host.aceCdrByteOrder) :
      ∃ w', (w.on i fun o => do
        let (s, o') ← f o
        return ⟨s, w.objects ++ [some o']⟩) = some w' ∧ Sound host w' := by
    refine hon fun o hi => ?_
    obtain ⟨rest, hheld, -⟩ := held_split hi
    obtain ⟨s', o', heq, hcounts, hswap⟩ := hf o (hheld ▸ Multiset.mem_cons_self _ _)
    exact ⟨_, by rw [heq]; rfl, append h.swap_eq hcounts hswap⟩
  cases e with
  | create mb => exact ⟨_, rfl, append h.swap_eq h.counts.new rfl⟩
  | copy rhs => exact hshare fun o hmem => StreamObject.copy_spec host h.counts hmem
  | slice rhs size offset =>
    exact hshare fun o hmem => StreamObject.slice_spec host h.counts hmem size offset
  | assign i rhs =>
    refine hon fun o hi => hon fun o' hrhs => ?_
    by_cases heq : i = rhs
    · exact ⟨w, if_pos heq, h⟩
    have hswap := h.swap_object hrhs
    obtain ⟨rest, hheld, hset, -, hrest⟩ := held_split hi
    obtain ⟨s₁, s₂, hdup, hown, hcounts, -⟩ := StreamObject.goOver_spec (hheld ▸ h.counts)
      (hrest rhs o' (Ne.symm heq) hrhs)
    let own : StreamObject := ⟨o'.dataBlock, o'.rdPtr, o'.wrPtr, o'.doByteSwap, true⟩
    have hassign : o.assign w.blocks o' = some (s₂, own) := by
      simp [StreamObject.assign, hdup, hown, StreamObject.replaceDataBlock, own]
    exact ⟨_, by rw [if_neg heq, hassign]; rfl, h.set (o := own) (hset own ▸ hcounts) hswap⟩
  | destroy i =>
    refine hon fun o hi => ?_
    obtain ⟨rest, hheld, -, hnone, -⟩ := held_split hi
    obtain ⟨s', hrelease, hcounts, -⟩ := RefStore.Counts.release (hheld ▸ h.counts)
    refine ⟨_, by rw [hrelease]; rfl, hnone ▸ hcounts, fun o' ho' => ?_⟩
    rcases mem_or_eq_of_mem_set ho' with ho' | ho'
    · exact h.swap_eq o' ho'
    · cases ho'
  | grow i c₁ c₂ newsize => exact hone fun o refs h => StreamObject.grow_spec h c₁ c₂ newsize
  | receive i buf bs => exact hone fun o refs h => StreamObject.receive_spec h buf bs
  | read i op =>
    refine hon fun o hi => ?_
    obtain ⟨db, -, hview⟩ := h.exists_view hi
    obtain ⟨-, w', -, hstep, h', -⟩ := h.read hi hview op
    exact ⟨w', (on_of_object hi _).symm.trans hstep, h'⟩
  | transferContents rhs c =>
    refine hon fun o hrhs => ?_
    obtain ⟨w', hstep, h', -⟩ := h.transferContents hrhs c
    exact ⟨w', (on_of_object hrhs _).symm.trans hstep, h'⟩
  | stealFrom i cdr c =>
    refine hon fun o hi => hon fun o' hcdr => ?_
    by_cases heq : i = cdr
    · obtain ⟨rest, hheld, hset, -⟩ := held_split hi
      obtain ⟨s', p, hreset, hcounts, -⟩ :=
        StreamObject.resetContents_spec (hheld ▸ h.counts) c
      refine ⟨_, by rw [if_pos heq, hreset]; rfl, h.set ?_ rfl⟩
      rwa [hset]
    · obtain ⟨w', hstep, h', -⟩ := h.stealFrom hi hcdr heq c
      rw [Streams.step, on_of_object hi, on_of_object hcdr] at hstep
      exact ⟨w', hstep, h'⟩

def run (host : ByteOrder) (es : List StreamEvent) (w : Streams) : Option Streams :=
  es.foldlM (Streams.step host) w

theorem Sound.run (h : Sound host w) (es : List StreamEvent) :
    ∃ w', w.run host es = some w' ∧ Sound host w' := by
  induction es generalizing w with
  | nil => exact ⟨w, rfl, h⟩
  | cons e es ih =>
    obtain ⟨w₁, hstep, h₁⟩ := h.step e
    obtain ⟨w', hrun, h'⟩ := ih h₁
    refine ⟨w', ?_, h'⟩
    rw [Streams.run, foldlM_cons, hstep]
    exact hrun

theorem Sound.of_run {es : List StreamEvent} (hrun : Streams.empty.run host es = some w) :
    Sound host w := by
  obtain ⟨w', hrun', h'⟩ := (Sound.empty : Sound host Streams.empty).run es
  rwa [← some.inj (hrun'.symm.trans hrun)]

/-- **No block is used after its deletion, and none is left behind**: every run goes through, and at
its end the counter of a block is the number of streams that refer to it. -/
theorem blocks_counted (host : ByteOrder) (es : List StreamEvent) :
    ∃ w, Streams.empty.run host es = some w ∧ ∀ p, (w.blocks.cell p).map Prod.fst =
      if (held w.objects).count p = 0 then none else some ((held w.objects).count p) := by
  obtain ⟨w, hrun, hsound⟩ := (Sound.empty : Sound host Streams.empty).run es
  exact ⟨w, hrun, hsound.counts.count_eq⟩

inductive SourceUse
  | grow (c₁ c₂ : Chunk) (newsize : ℕ)
  | receive (buf : ℕ) (bs : List UInt8)
  | read (op : Op)

def SourceUse.event (i : ℕ) : SourceUse → StreamEvent
  | .grow c₁ c₂ newsize => .grow i c₁ c₂ newsize
  | .receive buf bs => .receive i buf bs
  | .read op => .read i op

def yields (host : ByteOrder) (i j : ℕ) :
    List (SourceUse ⊕ Op) → Streams → Option (List (Bool × Option Value))
  | [], _ => some []
  | .inl use :: later, w => do
    let w ← w.step host (use.event i)
    yields host i j later w
  | .inr op :: later, w => do
    let o ← w.object j
    let (r, _) ← o.read host w.blocks op
    let w ← w.step host (.read j op)
    let rs ← yields host i j later w
    return r :: rs

theorem Sound.use (h : Sound host w) (hij : w.Apart i j) (use : SourceUse) :
    ∃ w', w.step host (use.event i) = some w' ∧ Sound host w' ∧ w'.Apart i j ∧
      w'.view j = w.view j := by
  obtain ⟨-, o, -, hi, -⟩ := id hij
  cases use with
  | grow c₁ c₂ newsize =>
    obtain ⟨w', heq, h', -, hothers⟩ :=
      h.operate hi fun refs h => StreamObject.grow_spec h c₁ c₂ newsize
    exact ⟨w', (on_of_object hi _).trans heq, h', hothers j hij⟩
  | receive buf bs =>
    obtain ⟨w', heq, h', -, hothers⟩ :=
      h.operate hi fun refs h => StreamObject.receive_spec h buf bs
    exact ⟨w', (on_of_object hi _).trans heq, h', hothers j hij⟩
  | read op =>
    obtain ⟨db, -, hview⟩ := h.exists_view hi
    obtain ⟨-, w', -, hstep, h', -, hothers⟩ := h.read hi hview op
    exact ⟨w', hstep, h', hothers j hij⟩

theorem Sound.yields_eq (h : Sound host w) (hij : w.Apart i j) {is : InputStream}
    (hview : w.view j = some is) (later : List (SourceUse ⊕ Op)) :
    w.yields host i j later = some (is.runOps host (later.filterMap Sum.getRight?)).1 := by
  induction later generalizing w is with
  | nil => rfl
  | cons e later ih =>
    cases e with
    | inl use =>
      obtain ⟨w', hstep, h', hij', hview'⟩ := h.use hij use
      rw [yields, hstep]
      exact ih h' hij' (hview'.trans hview)
    | inr op =>
      obtain ⟨-, -, o, -, hj, -⟩ := id hij
      obtain ⟨o', w', hread, hstep, h', hview', hothers⟩ := h.read hj hview op
      have hij' := (hothers i hij.symm).1.symm
      rw [yields, hj]
      simp [hread, hstep, ih h' hij' hview', runOps]

/-- **A stream that took over the block of another yields what that one would have yielded.** -/
theorem transferred {es : List StreamEvent} (hrun : Streams.empty.run host es = some w)
    {is : InputStream} (hview : w.view i = some is) (hgood : is.goodBit = true) (c : Chunk) :
    (∃ w', w.step host (.transferContents i c) = some w' ∧ ∀ later,
      w'.yields host i w.objects.length later =
        some (is.runOps host (later.filterMap Sum.getRight?)).1) ∧
    ∀ j js, j ≠ i → w.view j = some js → js.goodBit = true →
      ∃ w', w.step host (.stealFrom j i c) = some w' ∧ ∀ later,
        w'.yields host i j later =
          some (is.runOps host (later.filterMap Sum.getRight?)).1 := by
  have h := Sound.of_run hrun
  obtain ⟨o, hi, hblock⟩ := bind_eq_some_iff.mp hview
  have hswap : is.doByteSwap = host.aceCdrByteOrder := by
    obtain ⟨db, -, rfl⟩ := map_eq_some_iff.mp hblock
    exact h.swap_object hi
  refine ⟨?_, fun j js hne hjs hgood' => ?_⟩
  · obtain ⟨w', hstep, h', hapart, hview'⟩ := h.transferContents hi c
    have hown := (hview' is hview).1
    rw [transferContents_eq hswap hgood] at hown
    exact ⟨w', hstep, h'.yields_eq hapart hown⟩
  · obtain ⟨o', hj, -⟩ := bind_eq_some_iff.mp hjs
    obtain ⟨w', hstep, h', hapart, hview'⟩ := h.stealFrom hj hi hne c
    have hown := (hview' is js hview hjs).1
    rw [stealFrom_eq hswap hgood hgood'] at hown
    exact ⟨w', hstep, h'.yields_eq hapart hown⟩

def messageArrived : List StreamEvent :=
  [.create ((MessageBlock.alloc zeroChunk 512).poke 0 [0, 0, 0, 7]),
    .create (MessageBlock.alloc zeroChunk 512)]

def nextArrives : List (SourceUse ⊕ Op) :=
  [.inl (.grow zeroChunk zeroChunk 4), .inl (.receive 0 [9, 9, 9, 9]), .inr (.read .int 0)]

theorem transferred_message :
    ∃ w is, Streams.empty.run .little messageArrived = some w ∧ w.view 0 = some is ∧
      is.goodBit = true ∧
      (∃ w', w.step .little (.transferContents 0 zeroChunk) = some w' ∧
        w'.yields .little 0 2 nextArrives = some [(true, some (.int 7#32))]) ∧
      ∃ w', w.step .little (.stealFrom 1 0 zeroChunk) = some w' ∧
        w'.yields .little 0 1 nextArrives = some [(true, some (.int 7#32))] := by
  refine ⟨_, _, rfl, rfl, rfl, ?_⟩
  obtain ⟨⟨w₁, hstep₁, hyields₁⟩, hsteal⟩ := transferred (i := 0)
    (show Streams.empty.run .little messageArrived = some _ from rfl) rfl rfl zeroChunk
  obtain ⟨w₂, hstep₂, hyields₂⟩ := hsteal 1 _ (by decide) rfl rfl
  refine ⟨⟨w₁, hstep₁, (hyields₁ _).trans ?_⟩, w₂, hstep₂, (hyields₂ _).trans ?_⟩
  · exact congrArg some (by decide +kernel)
  · exact congrArg some (by decide +kernel)

end Streams

end Icm.Stream
