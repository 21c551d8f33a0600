import Icm.Stream.Values

/-!
# Room for the writes

An output stream asks for room piece by piece.
-/

namespace Icm.Stream

open Icm.Lib List Value

structure Room where
  size : ℕ
  used : ℕ

namespace Room

def place (room : Room) (n : ℕ) : Option Room :=
  if room.used + n ≤ room.size then some { room with used := room.used + n }
  else if max room.size (n + maxAlignment) < expGrowthMax then
    some ⟨nextSize (max room.size (n + maxAlignment)), n⟩
  else none

def placeAll : List ℕ → Room → Option Room
  | [], room => some room
  | n :: ns, room => (room.place n).bind (placeAll ns)

theorem placeAll_append (ns ms : List ℕ) (room : Room) :
    placeAll (ns ++ ms) room = (placeAll ns room).bind (placeAll ms) := by
  induction ns generalizing room with
  | nil => rfl
  | cons n ns ih =>
    rw [cons_append, placeAll, placeAll, Option.bind_assoc]
    exact congrArg _ (funext ih)

end Room

def stringPieces (s : List UInt8) : List ℕ := [4, s.length + 1]

def wordsPieces (w n : ℕ) : List ℕ := 4 :: if 0 < n then [w * n] else []

def Value.pieces : Value → List ℕ
  | .octet _ => [1]
  | .boolean _ => [1]
  | .char _ => [1]
  | .short _ => [2]
  | .ushort _ => [2]
  | .int _ => [4]
  | .uint _ => [4]
  | .long _ => [8]
  | .ulong _ => [8]
  | .float _ => [4]
  | .double _ => [8]
  | .string s => stringPieces s
  | .byteSeq v => wordsPieces 1 v.length
  | .boolSeq v => 4 :: v.map fun _ => 1
  | .shortSeq v => wordsPieces 2 v.length
  | .intSeq v => wordsPieces 4 v.length
  | .longSeq v => wordsPieces 8 v.length
  | .floatSeq v => wordsPieces 4 v.length
  | .doubleSeq v => wordsPieces 8 v.length
  | .stringSeq v => 4 :: v.flatMap stringPieces

theorem length_le_length_flatten {xs : List (List UInt8)} (h : ∀ x ∈ xs, x ≠ []) :
    xs.length ≤ xs.flatten.length := by
  induction xs with
  | nil => exact le_rfl
  | cons x xs ih =>
    obtain ⟨hx, hxs⟩ := forall_mem_cons.mp h
    have := length_pos_iff.mpr hx
    have := ih hxs
    simp only [length_cons, flatten_cons, length_append]
    omega

theorem stringFits_of_length_lt {s : List UInt8} (h : (encodeString s).length < 2 ^ 32) :
    StringFits s := by
  simp only [encodeString, length_append, length_wire, length_singleton] at h
  unfold StringFits
  omega

theorem length_lt_of_encodeSeq {xs : List (List UInt8)} (hxs : ∀ x ∈ xs, x ≠ [])
    (h : (encodeSeq xs).length < 2 ^ 32) : xs.length < 2 ^ 32 := by
  have := length_le_length_flatten hxs
  rw [encodeSeq, length_append] at h
  omega

theorem Value.fits_of_length_encode_lt {host : ByteOrder} {v : Value}
    (h : (v.encode host).length < 2 ^ 32) : v.Fits := by
  have hwords {w n : ℕ} (hw : 0 < w) {u : List (BitVec n)}
      (hu : (encodeWords w u).length < 2 ^ 32) : u.length < 2 ^ 32 := by
    refine (length_map _).symm.trans_lt (length_lt_of_encodeSeq (fun x hx => ?_) hu)
    obtain ⟨y, -, rfl⟩ := mem_map.mp hx
    exact length_pos_iff.mp (by rwa [length_wire])
  have hbytes {u : List UInt8} (hu : (encodeSeq (singletons u)).length < 2 ^ 32) :
      u.length < 2 ^ 32 := by
    refine (length_singletons u).symm.trans_lt (length_lt_of_encodeSeq (fun x hx => ?_) hu)
    exact length_pos_iff.mp (by rw [length_of_mem_singletons hx]; decide)
  cases v with
  | octet x => trivial
  | boolean x => trivial
  | char x => trivial
  | short x => trivial
  | ushort x => trivial
  | int x => trivial
  | uint x => trivial
  | long x => trivial
  | ulong x => trivial
  | float x => trivial
  | double x => trivial
  | string s => exact stringFits_of_length_lt h
  | byteSeq v => exact hbytes h
  | boolSeq v => exact (length_map _).symm.trans_lt (hbytes h)
  | shortSeq v => exact hwords (by decide) h
  | intSeq v => exact hwords (by decide) h
  | longSeq v => exact hwords (by decide) h
  | floatSeq v => exact hwords (by decide) h
  | doubleSeq v => exact hwords (by decide) h
  | stringSeq v =>
    refine ⟨?_, fun s hs => stringFits_of_length_lt (lt_of_le_of_lt ?_ h)⟩
    · refine (length_map _).symm.trans_lt (length_lt_of_encodeSeq (fun x hx => ?_) h)
      obtain ⟨s, -, rfl⟩ := mem_map.mp hx
      simp [encodeString]
    · rw [encode, encodeSeq, length_append]
      exact (sublist_flatten_of_mem (mem_map_of_mem hs)).length_le.trans
        (Nat.le_add_left _ _)

theorem fits_of_length_encode_lt {host : ByteOrder} {vs : List Value}
    (h : (vs.flatMap (encode host)).length < 2 ^ 32) : ∀ v ∈ vs, v.Fits := by
  intro v hv
  have hle : (v.encode host).length ≤ (vs.flatMap (encode host)).length :=
    (sublist_flatten_of_mem (mem_map_of_mem hv)).length_le
  exact Value.fits_of_length_encode_lt (hle.trans_lt h)

theorem nextSize_le_maxBlockSize_iff (n : ℕ) :
    nextSize n ≤ OutputStream.maxBlockSize ↔ n < expGrowthMax := by
  constructor
  · intro hle
    obtain ⟨k, hk⟩ := (scheduleSize_nextSize n).eq_two_pow (lt_of_le_of_lt hle (by decide))
    have hk17 : k < 17 := by
      refine (Nat.pow_lt_pow_iff_right (by decide : 1 < 2)).mp (lt_of_le_of_lt (hk ▸ hle) ?_)
      decide
    calc n < nextSize n := lt_nextSize n
      _ = 2 ^ k := hk
      _ ≤ 2 ^ 16 := Nat.pow_le_pow_right (by decide) (by omega)
  · exact fun h => (nextSize_le h).trans (by decide)

theorem newBlockSize_eq (current : MessageBlock) (size : ℕ) :
    OutputStream.newBlockSize current [] size =
      nextSize (max current.size (size + maxAlignment)) := by
  have hmax : (if size + maxAlignment < current.size then current.size else size + maxAlignment) =
      max current.size (size + maxAlignment) := by
    split_ifs with h
    · exact (Nat.max_eq_left h.le).symm
    · exact (Nat.max_eq_right (Nat.not_lt.mp h)).symm
  exact congrArg nextSize hmax

namespace OutputStream

/-- The room in the current block of a stream, which is the last one and in use up to its end. -/
structure HasRoom (os : OutputStream) (room : Room) : Prop where
  rest_nil : os.rest = []
  good : os.goodBit = true
  size_eq : os.current.size = room.size
  end_eq : os.current.endPtr = room.size
  used_eq : os.current.wrPtr = room.used

def Asks (w : OutputStream → Option OutputStream) (ns : List ℕ) : Prop :=
  ∀ os room, HasRoom os room → Option.Rel HasRoom (w os) (room.placeAll ns)

theorem adjust_rel {os : OutputStream} {room : Room} (h : HasRoom os room) (n : ℕ) :
    Option.Rel (fun r room' => HasRoom r.2 room') (os.adjust n) (room.place n) := by
  rw [Room.place, adjust, h.rest_nil, adjustFrom, h.used_eq, h.end_eq]
  split_ifs with hfit hnew
  · exact .some ⟨rfl, h.good, h.size_eq, h.end_eq, congrArg (· + n) h.used_eq⟩
  · have hle : newBlockSize os.current [] n ≤ maxBlockSize := by
      rw [newBlockSize_eq, nextSize_le_maxBlockSize_iff, h.size_eq]
      exact hnew
    simp only [growAndAdjust, if_pos hle]
    have hsize : newBlockSize os.current [] n =
        nextSize (max room.size (n + maxAlignment)) := by rw [newBlockSize_eq, h.size_eq]
    exact .some ⟨rfl, rfl, hsize, hsize, Nat.zero_add n⟩
  · have hgt : ¬ newBlockSize os.current [] n ≤ maxBlockSize := by
      rw [newBlockSize_eq, nextSize_le_maxBlockSize_iff, h.size_eq]
      exact hnew
    simp only [growAndAdjust, if_neg hgt]
    exact .none

theorem rel_bind {α β γ δ : Type} {r : α → β → Prop} {s : γ → δ → Prop} {x : Option α}
    {y : Option β} {f : α → Option γ} {g : β → Option δ} (h : Option.Rel r x y)
    (hfg : ∀ a b, r a b → Option.Rel s (f a) (g b)) : Option.Rel s (x.bind f) (y.bind g) := by
  cases h with
  | none => exact .none
  | some hab => exact hfg _ _ hab

theorem isSome_eq_of_rel {α β : Type} {r : α → β → Prop} {x : Option α} {y : Option β}
    (h : Option.Rel r x y) : x.isSome = y.isSome := by
  cases h <;> rfl

theorem exists_of_rel_some {α β : Type} {r : α → β → Prop} {x : Option α} {y : Option β} {a : α}
    (h : Option.Rel r x y) (ha : x = some a) : ∃ b, y = some b ∧ r a b := by
  cases h with
  | none => cases ha
  | some hab =>
    cases ha
    exact ⟨_, rfl, hab⟩

theorem asks_some : Asks some [] := fun _ _ h => .some h

theorem Asks.bind {v w : OutputStream → Option OutputStream} {ns ms : List ℕ} (hv : Asks v ns)
    (hw : Asks w ms) : Asks (fun os => (v os).bind w) (ns ++ ms) := by
  intro os room h
  rw [Room.placeAll_append]
  exact rel_bind (hv os room h) hw

theorem asks_adjust {n : ℕ} (fill : ℕ × OutputStream → OutputStream)
    (hfill : ∀ r room, HasRoom r.2 room → HasRoom (fill r) room) :
    Asks (fun os => (os.adjust n).bind fun r => some (fill r)) [n] :=
  fun _ _ h => rel_bind (adjust_rel h n) fun r room hr => .some (hfill r room hr)

theorem HasRoom.poke {os : OutputStream} {room : Room} (h : HasRoom os room) (buf : ℕ)
    (bs : List UInt8) : HasRoom (os.poke buf bs) room :=
  ⟨h.rest_nil, h.good, h.size_eq, h.end_eq, h.used_eq⟩

theorem HasRoom.copyElems {size : ℕ} (xs : List (List UInt8)) {buf : ℕ} {os : OutputStream}
    {room : Room} (h : HasRoom os room) : HasRoom (OutputStream.copyElems size xs buf os) room := by
  induction xs generalizing buf os with
  | nil => exact h
  | cons x xs ih => exact ih (h.poke _ _)

theorem asks_writeN (x : List UInt8) : Asks (fun os => os.writeN x) [x.length] :=
  asks_adjust (fun r => r.2.poke r.1 (swapCopy r.2.doByteSwap x)) fun _ _ h => h.poke _ _

theorem asks_write1 (x : UInt8) : Asks (fun os => os.write1 x) [1] :=
  asks_adjust (fun r => r.2.poke r.1 [x]) fun _ _ h => h.poke _ _

theorem asks_writeArray (size : ℕ) (xs : List (List UInt8)) :
    Asks (fun os => os.writeArray size xs) [size * xs.length] :=
  asks_adjust (fun r => OutputStream.copyElems size xs r.1 r.2) fun _ _ h => h.copyElems xs

variable (host : ByteOrder)

theorem asks_writeImage (w x : ℕ) :
    Asks (fun os => os.writeN (host.image w x)) [w] := by
  have h := asks_writeN (host.image w x)
  rwa [host.length_image] at h

theorem asks_writeUnswapped (w x : ℕ) :
    Asks (fun os => os.writeUnswapped (host.image w x)) [w] := by
  intro os room h
  have hoff : HasRoom { os with doByteSwap := false } room :=
    ⟨h.rest_nil, h.good, h.size_eq, h.end_eq, h.used_eq⟩
  have hwrite := asks_writeImage host w x _ _ hoff
  have hplace : room.placeAll [w] = (room.placeAll [w]).bind some := (Option.bind_fun_some _).symm
  rw [hplace]
  exact rel_bind hwrite fun _ _ h => .some ⟨h.rest_nil, h.good, h.size_eq, h.end_eq, h.used_eq⟩

theorem asks_writeString {s : List UInt8} (hs : StringFits s) :
    Asks (fun os => os.writeString host s) (stringPieces s) := by
  have hlen : toUInt s.length = s.length := toUInt_of_lt (by unfold StringFits at hs; omega)
  have hlen₁ : toUInt (s.length + 1) = s.length + 1 := toUInt_of_lt hs
  unfold writeString
  simp only [hlen, hlen₁]
  split_ifs with hne
  · refine (asks_writeImage host 4 _).bind ?_
    have harray := asks_writeArray 1 (((s ++ [0]).take (s.length + 1)).map fun c => [c])
    have hcount : 1 * (((s ++ [0]).take (s.length + 1)).map fun c => [c]).length =
        s.length + 1 := by
      simp
    rwa [hcount] at harray
  · obtain rfl := length_eq_zero_iff.mp (not_not.mp hne)
    exact (asks_writeImage host 4 _).bind (asks_write1 0)

theorem asks_counted (n : ℕ) {w : OutputStream → Option OutputStream}
    {ns : List ℕ} (hw : Asks w ns) :
    Asks (fun os => (os.writeUint host n).bind fun os => if 0 < n then w os else some os)
      (4 :: if 0 < n then ns else []) := by
  have helems : Asks (fun os => if 0 < n then w os else some os) (if 0 < n then ns else []) := by
    split_ifs
    · exact hw
    · exact asks_some
  exact (asks_writeImage host 4 (toUInt n)).bind helems

theorem asks_writeSeq (size : ℕ) {xs : List (List UInt8)}
    (hxs : xs.length < 2 ^ 32) :
    Asks (fun os => os.writeSeq host size xs) (wordsPieces size xs.length) := by
  unfold writeSeq
  rw [toUInt_of_lt hxs, take_length]
  exact asks_counted host xs.length (asks_writeArray size xs)

theorem asks_writeWords (size : ℕ) {α : Type} (image : α → List UInt8)
    {v : List α} (hv : v.length < 2 ^ 32) :
    Asks (fun os => os.writeSeq host size (v.map image)) (wordsPieces size v.length) := by
  have h := asks_writeSeq host size ((length_map image).trans_lt hv)
  rwa [length_map] at h

theorem asks_writeBooleanArray (v : List Bool) :
    Asks (writeBooleanArray v) (v.map fun _ => 1) := by
  induction v with
  | nil => exact asks_some
  | cons b v ih =>
    intro os room h
    rw [writeBooleanArray, if_pos h.good]
    exact (asks_write1 _).bind ih os room h

theorem asks_writeStrings {v : List (List UInt8)}
    (hv : ∀ s ∈ v, StringFits s) :
    Asks (writeStrings host v) (v.flatMap stringPieces) := by
  induction v with
  | nil => exact asks_some
  | cons s v ih =>
    obtain ⟨hs, hv⟩ := forall_mem_cons.mp hv
    exact (asks_writeString host hs).bind (ih hv)

theorem asks_writeValue {v : Value} (hv : v.Fits) :
    Asks (fun os => os.writeValue host v) v.pieces := by
  cases v with
  | octet x => exact asks_write1 x
  | boolean x => exact asks_write1 _
  | char x => exact asks_write1 x
  | short x => exact asks_writeImage host 2 _
  | ushort x => exact asks_writeImage host 2 _
  | int x => exact asks_writeImage host 4 _
  | uint x => exact asks_writeImage host 4 _
  | long x => exact asks_writeImage host 8 _
  | ulong x => exact asks_writeImage host 8 _
  | float x => exact asks_writeUnswapped host 4 _
  | double x => exact asks_writeUnswapped host 8 _
  | string s => exact asks_writeString host hv
  | byteSeq v => exact asks_writeWords host 1 _ hv
  | boolSeq v =>
    have h := asks_counted host v.length (asks_writeBooleanArray v)
    change Asks (fun os => (os.writeUint host v.length).bind fun os =>
      if 0 < v.length then writeBooleanArray (v.take (toUInt v.length)) os else some os) _
    rw [toUInt_of_lt hv, take_length]
    cases v with
    | nil => exact h
    | cons b v => exact h
  | shortSeq v => exact asks_writeWords host 2 _ hv
  | intSeq v => exact asks_writeWords host 4 _ hv
  | longSeq v => exact asks_writeWords host 8 _ hv
  | floatSeq v => exact asks_writeWords host 4 _ hv
  | doubleSeq v => exact asks_writeWords host 8 _ hv
  | stringSeq v =>
    have h := asks_counted host v.length (asks_writeStrings host hv.2)
    cases v with
    | nil => exact h
    | cons s v => exact h

theorem asks_writeValues {vs : List Value} (hvs : ∀ v ∈ vs, v.Fits) :
    Asks (writeValues host vs) (vs.flatMap pieces) := by
  induction vs with
  | nil => exact asks_some
  | cons v vs ih =>
    obtain ⟨hv, hvs⟩ := forall_mem_cons.mp hvs
    exact (asks_writeValue host hv).bind (ih hvs)

theorem create_hasRoom (heap : ℕ → Chunk) :
    (create host heap).HasRoom ⟨defaultBufsize + maxAlignment, 0⟩ :=
  ⟨rfl, rfl, rfl, rfl, MessageBlock.mbAlign_wrPtr _⟩

theorem exists_writeValues_iff {vs : List Value} (hvs : ∀ v ∈ vs, v.Fits)
    {os : OutputStream} {room : Room} (h : os.HasRoom room) :
    (∃ os', writeValues host vs os = some os') ↔
      (room.placeAll (vs.flatMap pieces)).isSome = true := by
  have hrel := asks_writeValues host hvs os room h
  rw [← Option.isSome_iff_exists, isSome_eq_of_rel hrel]

/-- **When a series of typed writes meets no failing assertion.** -/
theorem writeValues_asserts_iff (vs : List Value)
    (hvs : (vs.flatMap (encode host)).length < 2 ^ 32) (os : OutputStream) (room : Room)
    (hroom : os.HasRoom room) :
    ((∃ os', writeValues host vs os = some os') ↔
      (room.placeAll (vs.flatMap pieces)).isSome = true) ∧
    ∀ os', writeValues host vs os = some os' → os'.goodBit = true ∧
      (os.Wf → os.doByteSwap = host.aceCdrByteOrder →
        os'.bytes = os.bytes ++ vs.flatMap (encode host)) := by
  have hfits := fits_of_length_encode_lt hvs
  refine ⟨exists_writeValues_iff host hfits hroom, fun os' hos' => ⟨?_, fun hw hhost => ?_⟩⟩
  · have hrel := asks_writeValues host hfits os room hroom
    obtain ⟨room', -, h⟩ := exists_of_rel_some hrel hos'
    exact h.good
  · exact (writeValues_spec hw hhost hfits hos').bytes_eq

theorem writeValues_asserts_mixed :
    ∃ os', writeValues .little [.string [104, 105], .boolSeq [true], .doubleSeq [0, 1]]
      (create .little fun _ => zeroChunk) = some os' ∧ os'.goodBit = true := by
  have h := writeValues_asserts_iff .little
    [.string [104, 105], .boolSeq [true], .doubleSeq [0, 1]] (by decide +kernel) _ _
    (create_hasRoom .little fun _ => zeroChunk)
  obtain ⟨os', hos'⟩ := h.1.mpr (by decide +kernel)
  exact ⟨os', hos', (h.2 os' hos').1⟩

theorem writeValues_byteSeq_eq_none (host : ByteOrder) (heap : ℕ → Chunk) {v : List UInt8}
    (hlow : 65528 ≤ v.length) (hhigh : v.length < 2 ^ 32) :
    writeValues host [.byteSeq v] (create host heap) = none := by
  refine Option.not_isSome_iff_eq_none.mp fun hsome => ?_
  have hfits : ∀ u ∈ [byteSeq v], u.Fits := forall_mem_singleton.mpr hhigh
  have hroom := (exists_writeValues_iff host hfits
    (create_hasRoom host heap)).mp (Option.isSome_iff_exists.mp hsome)
  have hplace : (⟨defaultBufsize + maxAlignment, 0⟩ : Room).placeAll
      ([byteSeq v].flatMap pieces) = none := by
    have hpos : 0 < v.length := by omega
    have hbig : ¬ 4 + v.length ≤ 520 := by omega
    simp [pieces, wordsPieces, hpos, Room.placeAll, Room.place, defaultBufsize,
      maxAlignment, expGrowthMax, hbig, hlow]
  rw [hplace] at hroom
  cases hroom

theorem long_byteSeq_asserts :
    ([byteSeq (replicate 65528 0)].flatMap (encode .little)).length < 2 ^ 32 ∧
      writeValues .little [.byteSeq (replicate 65528 0)]
        (create .little fun _ => zeroChunk) = none := by
  have hlen : (replicate 65528 (0 : UInt8)).length = 65528 := length_replicate
  refine ⟨?_, writeValues_byteSeq_eq_none .little _ hlen.ge (hlen.trans_lt (by decide))⟩
  rw [flatMap_singleton, encode, encodeSeq, length_append, flatten_singletons, hlen,
    length_wire]
  decide

end OutputStream

end Icm.Stream
