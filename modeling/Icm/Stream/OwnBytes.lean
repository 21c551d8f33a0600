import Icm.Stream.Reads

/-!
# Reads that keep to their bytes

A sequence of reads can be run on bytes alone, without a stream: a read that asks for more bytes
than are left gets none.
-/

namespace Icm.Stream

open Icm.Lib InputStream

def takeBytes (n : ℕ) (bs : List UInt8) : Fetched × List UInt8 :=
  if n ≤ bs.length then ((some (bs.take n), true), bs.drop n) else ((none, false), bs)

variable {bs : List UInt8}

theorem takeBytes_of_le {n : ℕ} (h : n ≤ bs.length) :
    takeBytes n bs = ((some (bs.take n), true), bs.drop n) := if_pos h

def Within {α : Type} (p : Query ℕ Fetched α) (bs : List UInt8) : Prop :=
  ∀ x ∈ p.asks takeBytes bs, x.2 ≤ x.1.length

instance {α : Type} (p : Query ℕ Fetched α) (bs : List UInt8) : Decidable (Within p bs) :=
  inferInstanceAs (Decidable (∀ x ∈ _, _))

def Full (n : ℕ) (r : Fetched) : Prop := ∃ bs, r = (some bs, true) ∧ bs.length = n

namespace InputStream

theorem fetch_of_starts {is : InputStream} {bs : List UInt8} {n : ℕ} (h : is.Starts bs)
    (hgood : is.goodBit = true) (hn : n ≤ bs.length) :
    (is.fetch n).1 = (takeBytes n bs).1 ∧ (is.fetch n).2.Starts (takeBytes n bs).2 ∧
      (is.fetch n).2.goodBit = true := by
  have hsplit : is.Starts (bs.take n ++ bs.drop n) := by rwa [List.take_append_drop]
  have hlen : (bs.take n).length = n := List.length_take_of_le hn
  have hfit : is.rdPtr + n ≤ is.endPtr := by
    have := hsplit.left.1
    rwa [hlen] at this
  have hbytes : is.start.bytesAt is.rdPtr n = bs.take n := by
    have := hsplit.left.2
    rwa [hlen] at this
  have hright := hsplit.right
  rw [hlen] at hright
  rw [fetch_of_le hfit, takeBytes_of_le hn, hbytes, hgood]
  exact ⟨rfl, hright, hgood⟩

end InputStream

theorem Within.run_fetch {α : Type} {p : Query ℕ Fetched α} (hp : Within p bs)
    {is : InputStream} (h : is.Starts bs) (hgood : is.goodBit = true) :
    (p.run fetch is).1 = (p.run takeBytes bs).1 ∧
      (p.run fetch is).2.Starts (p.run takeBytes bs).2 ∧
      (p.run fetch is).2.goodBit = true := by
  have hstep (n : ℕ) (bs : List UInt8) (is : InputStream) (hR : is.Starts bs ∧ is.goodBit = true)
      (hn : n ≤ bs.length) : (takeBytes n bs).1 = (fetch n is).1 ∧
        (fetch n is).2.Starts (takeBytes n bs).2 ∧
          (fetch n is).2.goodBit = true := by
    obtain ⟨h₁, h₂, h₃⟩ := fetch_of_starts hR.1 hR.2 hn
    exact ⟨h₁.symm, h₂, h₃⟩
  obtain ⟨hres, hrel⟩ := Query.run_rel hstep p ⟨h, hgood⟩ hp
  exact ⟨hres.symm, hrel⟩

theorem Within.full {α : Type} {p : Query ℕ Fetched α} (hp : Within p bs) :
    ∀ x ∈ p.asks takeBytes bs, Full x.2 (takeBytes x.2 x.1).1 := by
  intro x hx
  rw [takeBytes_of_le (hp x hx)]
  exact ⟨_, rfl, List.length_take_of_le (hp x hx)⟩

theorem Within.alike {α : Type} {p p' : Query ℕ Fetched α} (hp : Within p bs)
    (h : Query.Alike Full p p') : Within p' bs ∧ p'.run takeBytes bs = p.run takeBytes bs := by
  rw [Within, ← h.asks_eq hp.full, ← h.run_eq hp.full]
  exact ⟨hp, rfl⟩

inductive Read
  | value (k : Kind)
  | skipBytes (len : ℕ)
  | skipString
  deriving DecidableEq

def Read.op (junk : ℕ) : Read → Op
  | .value k => .read k junk
  | .skipBytes len => .skipBytes len
  | .skipString => .skipString junk

namespace ReadProgram

variable (host : ByteOrder) (swap : Bool)

theorem alike_octet (old old' : UInt8) : Query.Alike Full (octet old) (octet old') := by
  refine .ask 1 ?_
  rintro _ ⟨bs, rfl, hlen⟩
  obtain ⟨b, rfl⟩ := List.length_eq_one_iff.mp hlen
  exact .refl _

theorem alike_bytes (n : ℕ) (old old' : List UInt8) :
    Query.Alike Full (bytes swap n old) (bytes swap n old') := by
  refine .ask n ?_
  rintro _ ⟨bs, rfl, -⟩
  exact .refl _

theorem alike_boolean (junk junk' : UInt8) :
    Query.Alike Full (boolean junk) (boolean junk') := by
  refine .ask 1 ?_
  rintro _ ⟨bs, rfl, hlen⟩
  obtain ⟨b, rfl⟩ := List.length_eq_one_iff.mp hlen
  exact .refl _

theorem alike_booleans (junk junk' : UInt8) (n : ℕ) (good : Bool) (v : List Bool) :
    Query.Alike Full (booleans junk n good v) (booleans junk' n good v) := by
  induction n generalizing good v with
  | zero => exact .refl _
  | succ n ih =>
    rw [booleans, booleans]
    split_ifs
    · refine .ask 1 ?_
      rintro _ ⟨bs, rfl, hlen⟩
      obtain ⟨b, rfl⟩ := List.length_eq_one_iff.mp hlen
      exact ih _ _
    · exact .refl _

theorem alike_word (w : ℕ) (old old' : BitVec (8 * w)) :
    Query.Alike Full (word host swap w old) (word host swap w old') :=
  (alike_bytes swap w _ _).bind fun _ => .refl _

theorem alike_uint (old old' : ℕ) :
    Query.Alike Full (uint host swap old) (uint host swap old') :=
  (alike_bytes swap 4 _ _).bind fun _ => .refl _

theorem alike_string (junk junk' : ℕ) :
    Query.Alike Full (string host swap junk) (string host swap junk') :=
  (alike_uint host swap _ _).bind fun _ => .refl _

theorem alike_seq (size sz sz' : ℕ) {α : Type} (elem : List UInt8 → α) (zero : α) (v : List α) :
    Query.Alike Full (seq host swap size sz elem zero v) (seq host swap size sz' elem zero v) :=
  (alike_uint host swap _ _).bind fun _ => .refl _

theorem alike_boolSeq (junk junk' : ℕ) (v : List Bool) :
    Query.Alike Full (boolSeq host swap junk v) (boolSeq host swap junk' v) := by
  refine .ask 4 ?_
  rintro _ ⟨bs, rfl, -⟩
  simp only [Option.map_some, Option.getD_some]
  split_ifs
  · exact (alike_booleans _ _ _ _ _).bind fun _ => .refl _
  · exact .refl _

theorem alike_strings (junk junk' n : ℕ) (v : List (List UInt8)) :
    Query.Alike Full (strings host swap junk n v) (strings host swap junk' n v) := by
  induction n generalizing v with
  | zero => exact .refl _
  | succ n ih => exact (alike_string host swap _ _).bind fun _ => ih _

variable (junk junk' : ℕ)

theorem alike_stringSeq (v : List (List UInt8)) :
    Query.Alike Full (stringSeq host swap junk v) (stringSeq host swap junk' v) := by
  refine (Query.Alike.refl (uint host swap 0)).bind fun r => ?_
  split_ifs
  · exact alike_strings host swap _ _ _ _
  · exact .refl _

theorem alike_skipString :
    Query.Alike Full (skipString host swap junk) (skipString host swap junk') :=
  (alike_uint host swap _ _).bind fun _ => .refl _

theorem alike_value (k : Kind) :
    Query.Alike Full (value host swap junk k) (value host swap junk' k) := by
  have done {α : Type} {p p' : ReadProgram α} {mk : α → Value} (h : Query.Alike Full p p') :
      Query.Alike Full (p.bind fun r => .done (r.1, mk r.2))
        (p'.bind fun r => .done (r.1, mk r.2)) := h.bind fun _ => .refl _
  cases k with
  | octet => exact done (alike_octet _ _)
  | boolean => exact done (alike_boolean _ _)
  | char => exact done (alike_octet _ _)
  | short => exact done (alike_word host swap _ _ _)
  | ushort => exact done (alike_word host swap _ _ _)
  | int => exact done (alike_word host swap _ _ _)
  | uint => exact (alike_uint host swap _ _).bind fun _ => .refl _
  | long => exact done (alike_word host swap _ _ _)
  | ulong => exact done (alike_word host swap _ _ _)
  | float => exact done (alike_word host false _ _ _)
  | double => exact done (alike_word host false _ _ _)
  | string => exact done (alike_string host swap _ _)
  | byteSeq => exact done (alike_seq host swap _ _ _ _ _ _)
  | boolSeq => exact done (alike_boolSeq host swap _ _ _)
  | shortSeq => exact .refl _
  | intSeq => exact .refl _
  | longSeq => exact .refl _
  | floatSeq => exact .refl _
  | doubleSeq => exact .refl _
  | stringSeq => exact done (alike_stringSeq host swap _ _ _)

theorem alike_op (read : Read) :
    Query.Alike Full ((read.op junk).program host swap) ((read.op junk').program host swap) := by
  cases read with
  | value k => exact (alike_value host swap _ _ k).bind fun _ => .refl _
  | skipBytes len => exact .refl _
  | skipString => exact (alike_skipString host swap _ _).bind fun _ => .refl _

end ReadProgram

abbrev Script := Query Read (Bool × Option Value) Unit

def InputStream.runScript (host : ByteOrder) (junk : ℕ) :
    Script → InputStream → List (Bool × Option Value) × InputStream
  | .done _, is => ([], is)
  | .ask read next, is =>
    let r := is.runOp host (read.op junk)
    let rs := runScript host junk (next r.1) r.2
    (r.1 :: rs.1, rs.2)

def Script.program (host : ByteOrder) (swap : Bool) (junk : ℕ) :
    Script → Query ℕ Fetched (List (Bool × Option Value))
  | .done _ => .done []
  | .ask read next => ((read.op junk).program host swap).bind fun r =>
      (program host swap junk (next r)).bind fun rs => .done (r :: rs)

theorem InputStream.runScript_eq (host : ByteOrder) (junk : ℕ) (script : Script)
    (is : InputStream) :
    runScript host junk script is =
      (Script.program host is.doByteSwap junk script).run fetch is := by
  induction script generalizing is with
  | done _ => rfl
  | ask read next ih =>
    simp only [runScript, Script.program, Query.run_bind, Query.run_done, ih, runOp_eq,
      run_fetch_doByteSwap]

theorem Script.alike_program (host : ByteOrder) (swap : Bool) (junk junk' : ℕ) (script : Script) :
    Query.Alike Full (program host swap junk script) (program host swap junk' script) := by
  induction script with
  | done _ => exact .refl _
  | ask read next ih =>
    exact (ReadProgram.alike_op host swap _ _ read).bind fun r => (ih r).bind fun _ => .refl _

end Icm.Stream
