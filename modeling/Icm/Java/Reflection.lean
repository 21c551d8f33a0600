import Icm.Java.Codec

/-!
# Writing and reading by reflection

`BufferWriter.writeObject` and `BufferReader.readObject` go by the reflected `Type` of a value: a
class, a parameterized type or a generic array.
-/

namespace Icm.Java

open Icm.Lib Icm.Stream Buffer List

inductive Prim
  | byte | short | int | long | boolean | char | float | double
  deriving DecidableEq, Repr

def Prim.type : Prim → JType
  | byte => .byte
  | short => .short
  | int => .int
  | long => .long
  | boolean => .boolean
  | char => .char
  | float => .float
  | double => .double

/-- The classes with a `SimpleWriter` and a `SimpleReader`. -/
inductive Leaf
  | prim (p : Prim)
  | boxed (p : Prim)
  | string
  | date
  deriving DecidableEq, Repr

def Leaf.type : Leaf → JType
  | prim p => p.type
  | boxed p => p.type
  | string => .string
  | date => .long

inductive Cls
  | leaf (l : Leaf)
  | array (component : Cls)
  | named (name : String)
  deriving DecidableEq, Repr

/-- `Type`: a class, a parameterized type, a generic array, or a type variable or wildcard. -/
inductive Ty
  | cls (c : Cls)
  | list (element : Ty)
  | set (element : Ty)
  | map (key value : Ty)
  | generic (name : String) (args : List Ty)
  | genericArray (component : Ty)
  | typeVariable

structure Field where
  type : Ty
  isStatic : Bool := false
  isFinal : Bool := false
  ignored : Bool := false

/-- A class that is no array and has no simple writer: the declared fields of it and of its
superclasses below `Object`, and whether these end at `Object`; whether its constructor without
arguments makes an object; and what it passes on to `Collection` or `Map` of its type arguments. -/
structure ClassInfo where
  chain : List (List Field) := []
  rooted : Bool := true
  constructible : Bool := true
  isCollection : Bool := false
  isMap : Bool := false
  passes : List Ty → List Ty := id

inductive Value
  | null
  | leaf (l : Leaf) (x : l.type.Val)
  | seq (c : Container) (vs : List Value)
  | other (vs : List Value)
  | object (vs : List Value)

/-- What is thrown. -/
inductive Throw
  | buffer (e : Abrupt)
  | nullPointer
  | classCast
  | illegalArgument
  | indexOutOfBounds
  | unsupported
  | instantiation
  | stackOverflow
  deriving DecidableEq

def pojoFields : List (List Field) → List Ty
  | [] => []
  | fs :: chain =>
    pojoFields chain ++ (fs.filter fun f => !f.isStatic && !f.isFinal && !f.ignored).map (·.type)

def getPojoInfo (k : ClassInfo) : Except Throw (List Ty) :=
  if k.rooted then .ok (pojoFields k.chain) else .error .nullPointer

namespace Reflection

variable (W : String → ClassInfo) (cs : Charset)

section Writing

variable (write : Ty → Value → Except Throw (List Put))

def writeAll : List Ty → List Value → Except Throw (List Put)
  | t :: ts, v :: vs => do
    let ps ← write t v
    let qs ← writeAll ts vs
    return ps ++ qs
  | [], [] => .ok []
  | _, _ => .error .illegalArgument

def size (n : ℕ) : Put := .int (BitVec.ofNat 32 n)

def writeCollection (args : List Ty) : Value → Except Throw (List Put)
  | .null => .ok [size 0]
  | .seq .list vs | .seq .set vs | .other vs =>
    match args with
    | [] => .error .indexOutOfBounds
    | t :: _ => do return size vs.length :: (← writeAll write (replicate vs.length t) vs)
  | _ => .error .classCast

def entryTypes (key value : Ty) (n : ℕ) : List Ty := (replicate n [key, value]).flatten

def writeMap (args : List Ty) : Value → Except Throw (List Put)
  | .null => .ok [size 0]
  | .seq .map vs =>
    match args with
    | k :: v :: _ => do
      return size (vs.length / 2) :: (← writeAll write (entryTypes k v (vs.length / 2)) vs)
    | _ => if vs.isEmpty then .ok [size 0] else .error .indexOutOfBounds
  | _ => .error .classCast

def writeArray (component : Ty) : Value → Except Throw (List Put)
  | .null => .ok [size 0]
  | .seq .array vs => do
    return size vs.length :: (← writeAll write (replicate vs.length component) vs)
  | _ => .error .illegalArgument

def writeSimple (l : Leaf) : Value → Except Throw (List Put)
  | .null => if l = .string then .ok (BufferWriter.puts cs .string .empty) else .error .nullPointer
  | .leaf l' x => if l' = l then .ok (BufferWriter.puts cs l'.type x) else .error .classCast
  | _ => .error .classCast

def writePojo (k : ClassInfo) : Value → Except Throw (List Put)
  | .null => .error .nullPointer
  | .object vs => do writeAll write (← getPojoInfo k) vs
  | _ => do writeAll write (← getPojoInfo k) []

end Writing

def writeObject : ℕ → Ty → Value → Except Throw (List Put)
  | 0, _, _ => .error .stackOverflow
  | n + 1, t, v =>
    match t with
    | .list e | .set e => writeCollection (writeObject n) [e] v
    | .map k e => writeMap (writeObject n) [k, e] v
    | .generic c args =>
      if (W c).isCollection then writeCollection (writeObject n) args v
      else if (W c).isMap then writeMap (writeObject n) args v
      else .ok []
    | .genericArray e => writeArray (writeObject n) e v
    | .cls (.array c) => writeArray (writeObject n) (.cls c) v
    | .cls (.leaf l) => writeSimple cs l v
    | .cls (.named c) => writePojo (writeObject n) (W c) v
    | .typeVariable => .error .classCast

def lift {α : Type} (x : Except Abrupt α) : Except Throw α := x.mapError .buffer

section Reading

variable (read : Ty → Buffer → Except Throw (Value × Buffer))

def readAll : List Ty → Buffer → Except Throw (List Value × Buffer)
  | [], b => .ok ([], b)
  | t :: ts, b => do
    let r ← read t b
    let rs ← readAll ts r.2
    return (r.1 :: rs.1, rs.2)

def readSeq (c : Container) (types : ℕ → List Ty) (b : Buffer) : Except Throw (Value × Buffer) := do
  let r ← lift b.getInt
  if r.1.toInt < 0 then .error (.buffer c.refusal)
  else
    let rs ← readAll read (types r.1.toNat) r.2
    return (.seq c rs.1, rs.2)

/-- `readArray` of a generic array. -/
def readGenericArray (component : Ty) (b : Buffer) : Except Throw (Value × Buffer) :=
  match component with
  | .list _ | .set _ | .map _ _ => readSeq read .array (replicate · component) b
  | .generic _ _ => do return (.null, (← lift b.getInt).2)
  | _ => do let _ ← lift b.getInt; .error .classCast

def readPojo (k : ClassInfo) (b : Buffer) : Except Throw (Value × Buffer) := do
  let ts ← getPojoInfo k
  if ¬ k.constructible then .error .instantiation
  else
    let rs ← readAll read ts b
    return (.object rs.1, rs.2)

end Reading

def readObject : ℕ → Ty → Buffer → Except Throw (Value × Buffer)
  | 0, _, _ => .error .stackOverflow
  | n + 1, t, b =>
    match t with
    | .list e => readSeq (readObject n) .list (replicate · e) b
    | .map k e => readSeq (readObject n) .map (entryTypes k e) b
    | .set e => readSeq (readObject n) .set (replicate · e) b
    | .generic _ _ => .error .unsupported
    | .genericArray e => readGenericArray (readObject n) e b
    | .cls (.array c) => readSeq (readObject n) .array (replicate · (.cls c)) b
    | .cls (.leaf l) => do
      let r ← lift (BufferReader.readObject cs l.type b)
      return (.leaf l r.1, r.2)
    | .cls (.named c) => readPojo (readObject n) (W c) b
    | .typeVariable => .error .classCast

def partTypes (t : Ty) (v : Value) : List Ty :=
  match t, v with
  | .list e, .seq _ vs | .set e, .seq _ vs | .genericArray e, .seq _ vs =>
    replicate vs.length e
  | .cls (.array c), .seq _ vs => replicate vs.length (.cls c)
  | .map k e, .seq _ vs => entryTypes k e (vs.length / 2)
  | .cls (.named c), .object _ => pojoFields (W c).chain
  | .generic c args, .other vs => replicate vs.length (((W c).passes args).headD .typeVariable)
  | .generic c args, .seq _ vs =>
    entryTypes (((W c).passes args).headD .typeVariable) (((W c).passes args).getD 1 .typeVariable)
      (vs.length / 2)
  | _, _ => []

def values : Value → List Value
  | .seq _ vs | .other vs | .object vs => vs
  | _ => []

def parts (t : Ty) (v : Value) : List (Ty × Value) := (partTypes W t v).zip (values v)

/-- `Q` holds of a value and all that it is made of, each with its declared type. -/
inductive Each (Q : Ty → Value → Prop) : Ty → Value → Prop
  | intro {t : Ty} {v : Value} (top : Q t v) (below : ∀ p ∈ parts W t v, Each Q p.1 p.2) :
    Each Q t v

def Fits (P : (l : Leaf) → l.type.Val → Prop) (t : Ty) (v : Value) : Prop :=
  match t, v with
  | .cls (.leaf l), .leaf l' x => l' = l ∧ P l' x
  | .cls (.array _), .seq .array vs | .genericArray _, .seq .array vs | .list _, .seq .list vs
  | .set _, .seq .set vs => vs.length < 2 ^ 31
  | .map _ _, .seq .map vs => vs.length / 2 < 2 ^ 31 ∧ vs.length % 2 = 0
  | .cls (.named c), .object vs => vs.length = (pojoFields (W c).chain).length
  | .generic c _, .other vs => (W c).isCollection ∧ vs.length < 2 ^ 31
  | .generic c _, .seq .map vs =>
    (W c).isMap ∧ ¬ (W c).isCollection ∧ vs.length / 2 < 2 ^ 31 ∧ vs.length % 2 = 0
  | .generic c _, .object _ => ¬ (W c).isMap ∧ ¬ (W c).isCollection
  | _, _ => False

abbrev HasType (P : (l : Leaf) → l.type.Val → Prop) : Ty → Value → Prop := Each W (Fits W P)

def LeafBack (l : Leaf) (x : l.type.Val) : Prop :=
  ∀ (b : Buffer) (bs : List UInt8), b.Reading (BufferWriter.bytes cs b.order l.type x ++ bs) →
    ∃ b', BufferReader.readObject cs l.type b = .ok (x, b') ∧ b'.Reading bs ∧ b'.order = b.order

def Supported : Ty → Prop
  | .list _ | .set _ | .map _ _ | .cls (.leaf _) | .cls (.array _) => True
  | .cls (.named c) => (W c).rooted ∧ (W c).constructible
  | .genericArray (.list _) | .genericArray (.set _) | .genericArray (.map _ _) => True
  | _ => False

abbrev Readable : Ty → Value → Prop := Each W fun t _ => Supported W t

def Skipped : Ty → Prop
  | .genericArray (.generic _ _) => True
  | _ => False

abbrev Unskipped : Ty → Value → Prop := Each W fun t _ => ¬ Skipped t

variable {W cs}

theorem lift_eq_ok {α : Type} {x : Except Abrupt α} {r : α} : lift x = .ok r ↔ x = .ok r := by
  cases x <;> simp [lift, Except.mapError]

def Inverts (write : Ty → Value → Except Throw (List Put))
    (read : Ty → Buffer → Except Throw (Value × Buffer)) (t : Ty) (v : Value) : Prop :=
  ∀ ⦃ps b bs⦄, write t v = .ok ps → b.Reading (ps.flatMap (Put.encode b.order) ++ bs) →
    ∃ b', read t b = .ok (v, b') ∧ b'.Reading bs ∧ b'.order = b.order

def Needs (write : Ty → Value → Except Throw (List Put))
    (read : Ty → Buffer → Except Throw (Value × Buffer)) (N Q : Ty → Value → Prop) (t : Ty)
    (v : Value) : Prop :=
  ∀ ⦃ps b bs r b'⦄, write t v = .ok ps → b.Reading (ps.flatMap (Put.encode b.order) ++ bs) →
    read t b = .ok (r, b') → r = v ∨ N t v → r = v ∧ Q t v ∧ b'.Reading bs ∧ b'.order = b.order

section Level

variable {write : Ty → Value → Except Throw (List Put)}
  {read : Ty → Buffer → Except Throw (Value × Buffer)} {N Q : Ty → Value → Prop} {ts : List Ty}
  {vs rs : List Value} {ps : List Put} {b b' : Buffer} {bs : List UInt8}

theorem readAll_of_writeAll (h : ∀ p ∈ ts.zip vs, Inverts write read p.1 p.2)
    (hw : writeAll write ts vs = .ok ps)
    (hb : b.Reading (ps.flatMap (Put.encode b.order) ++ bs)) :
    ∃ b', readAll read ts b = .ok (vs, b') ∧ b'.Reading bs ∧ b'.order = b.order := by
  induction ts generalizing vs ps b with
  | nil =>
    cases vs with
    | nil =>
      cases hw
      exact ⟨b, rfl, hb, rfl⟩
    | cons v vs => cases hw
  | cons t ts ih =>
    cases vs with
    | nil => cases hw
    | cons v vs =>
      obtain ⟨ps₁, hw₁, hw⟩ := bind_eq_ok.mp hw
      obtain ⟨ps₂, hw₂, hw⟩ := bind_eq_ok.mp hw
      cases hw
      rw [flatMap_append, append_assoc] at hb
      obtain ⟨hv, hvs⟩ := forall_mem_cons.mp h
      obtain ⟨b₁, hr₁, hb₁, horder₁⟩ := hv hw₁ hb
      obtain ⟨b', hr₂, hb', horder⟩ := ih hvs hw₂ (horder₁ ▸ hb₁)
      exact ⟨b', bind_eq_ok.mpr ⟨_, hr₁, bind_eq_ok.mpr ⟨_, hr₂, rfl⟩⟩, hb', horder.trans horder₁⟩

theorem of_readAll (h : ∀ p ∈ ts.zip vs, Needs write read N Q p.1 p.2)
    (hw : writeAll write ts vs = .ok ps)
    (hb : b.Reading (ps.flatMap (Put.encode b.order) ++ bs))
    (hr : readAll read ts b = .ok (rs, b')) (hN : rs = vs ∨ ∀ p ∈ ts.zip vs, N p.1 p.2) :
    rs = vs ∧ (∀ p ∈ ts.zip vs, Q p.1 p.2) ∧ b'.Reading bs ∧ b'.order = b.order := by
  induction ts generalizing vs rs ps b with
  | nil =>
    cases hr
    cases vs with
    | nil =>
      cases hw
      exact ⟨rfl, forall_mem_nil _, hb, rfl⟩
    | cons v vs => cases hw
  | cons t ts ih =>
    cases vs with
    | nil => cases hw
    | cons v vs =>
      obtain ⟨ps₁, hw₁, hw⟩ := bind_eq_ok.mp hw
      obtain ⟨ps₂, hw₂, hw⟩ := bind_eq_ok.mp hw
      cases hw
      obtain ⟨r₁, hr₁, hr⟩ := bind_eq_ok.mp hr
      obtain ⟨r₂, hr₂, hr⟩ := bind_eq_ok.mp hr
      cases hr
      rw [flatMap_append, append_assoc] at hb
      rw [cons.injEq, zip_cons_cons, forall_mem_cons] at hN
      obtain ⟨hv, hvs⟩ := forall_mem_cons.mp h
      obtain ⟨rfl, hQ, hb₁, horder₁⟩ := hv hw₁ hb hr₁ (hN.imp And.left And.left)
      obtain ⟨rfl, hQs, hb', horder⟩ :=
        ih hvs hw₂ (horder₁ ▸ hb₁) hr₂ (hN.imp And.right And.right)
      exact ⟨rfl, forall_mem_cons.mpr ⟨hQ, hQs⟩, hb', horder.trans horder₁⟩

theorem getInt_size {n : ℕ} (hn : n < 2 ^ 31) (hb : b.Reading ((size n).encode b.order ++ bs)) :
    ∃ r b', b.getInt = .ok (r, b') ∧ ¬ r.toInt < 0 ∧ r.toNat = n ∧ b'.Reading bs ∧
      b'.order = b.order := by
  obtain ⟨b', hint, hb', horder⟩ := Reading.getInt hb
  have hnat : (BitVec.ofNat 32 n).toNat = n := by
    rw [BitVec.toNat_ofNat, Nat.mod_eq_of_lt (by omega)]
  refine ⟨_, b', hint, ?_, hnat, hb', horder⟩
  rw [BitVec.toInt_eq_toNat_cond, hnat]
  omega

variable {c : Container} {types : ℕ → List Ty} {n : ℕ}

theorem readSeq_of_write (h : ∀ p ∈ (types n).zip vs, Inverts write read p.1 p.2) (hn : n < 2 ^ 31)
    (hw : writeAll write (types n) vs = .ok ps)
    (hb : b.Reading ((size n :: ps).flatMap (Put.encode b.order) ++ bs)) :
    ∃ b', readSeq read c types b = .ok (.seq c vs, b') ∧ b'.Reading bs ∧ b'.order = b.order := by
  rw [flatMap_cons, append_assoc] at hb
  obtain ⟨r, b₁, hint, hneg, rfl, hb₁, horder₁⟩ := getInt_size hn hb
  obtain ⟨b', hr, hb', horder⟩ := readAll_of_writeAll h hw (horder₁ ▸ hb₁)
  refine ⟨b', bind_eq_ok.mpr ⟨_, lift_eq_ok.mpr hint, ?_⟩, hb', horder.trans horder₁⟩
  rw [if_neg hneg]
  exact bind_eq_ok.mpr ⟨_, hr, rfl⟩

theorem of_readSeq {r : Value} (h : ∀ p ∈ (types n).zip vs, Needs write read N Q p.1 p.2)
    (hn : n < 2 ^ 31) (hw : writeAll write (types n) vs = .ok ps)
    (hb : b.Reading ((size n :: ps).flatMap (Put.encode b.order) ++ bs))
    (hr : readSeq read c types b = .ok (r, b'))
    (hN : r = .seq c vs ∨ ∀ p ∈ (types n).zip vs, N p.1 p.2) :
    r = .seq c vs ∧ (∀ p ∈ (types n).zip vs, Q p.1 p.2) ∧ b'.Reading bs ∧
      b'.order = b.order := by
  rw [flatMap_cons, append_assoc] at hb
  obtain ⟨k, b₁, hint, hneg, rfl, hb₁, horder₁⟩ := getInt_size hn hb
  obtain ⟨r', hint', hr⟩ := bind_eq_ok.mp hr
  rw [lift_eq_ok, hint] at hint'
  cases hint'
  rw [if_neg hneg] at hr
  obtain ⟨rs, hrs, hr⟩ := bind_eq_ok.mp hr
  cases hr
  rw [Value.seq.injEq] at hN
  obtain ⟨rfl, hQs, hb', horder⟩ := of_readAll h hw (horder₁ ▸ hb₁) hrs (hN.imp_left And.right)
  exact ⟨rfl, hQs, hb', horder.trans horder₁⟩

end Level

def seqOf : Ty → Option (Container × (ℕ → List Ty))
  | .list e => some (.list, (replicate · e))
  | .set e => some (.set, (replicate · e))
  | .map k e => some (.map, entryTypes k e)
  | .cls (.array c) => some (.array, (replicate · (.cls c)))
  | .genericArray e => some (.array, (replicate · e))
  | _ => none

variable {P : (l : Leaf) → l.type.Val → Prop} {t : Ty} {v : Value} {n : ℕ}

theorem length_entryTypes (k e : Ty) (n : ℕ) : (entryTypes k e n).length = 2 * n := by
  simp [entryTypes, Nat.mul_comm]

theorem write_seq {c : Container} {types : ℕ → List Ty} (ht : seqOf t = some (c, types))
    (hv : Fits W P t v) :
    ∃ vs m, v = .seq c vs ∧ m < 2 ^ 31 ∧ (types m).length = vs.length ∧
      parts W t v = (types m).zip vs ∧ ∀ n, writeObject W cs (n + 1) t v = (do
        return size m :: (← writeAll (writeObject W cs n) (types m) vs)) := by
  cases t with
  | list e | set e | genericArray e =>
    cases ht
    rcases v with _ | _ | ⟨_ | _ | _ | _, vs⟩ | _ | _ <;> try cases hv
    exact ⟨vs, vs.length, rfl, hv, length_replicate, rfl, fun _ => rfl⟩
  | map k e =>
    cases ht
    rcases v with _ | _ | ⟨_ | _ | _ | _, vs⟩ | _ | _ <;> try cases hv
    refine ⟨vs, vs.length / 2, rfl, ‹_›, ?_, rfl, fun _ => rfl⟩
    rw [length_entryTypes]
    omega
  | cls d =>
    cases d with
    | array d =>
      cases ht
      rcases v with _ | _ | ⟨_ | _ | _ | _, vs⟩ | _ | _ <;> try cases hv
      exact ⟨vs, vs.length, rfl, hv, length_replicate, rfl, fun _ => rfl⟩
    | _ => cases ht
  | _ => cases ht

theorem read_seq {c : Container} {types : ℕ → List Ty} (ht : seqOf t = some (c, types))
    (hsupported : Supported W t) (b : Buffer) :
    readObject W cs (n + 1) t b = readSeq (readObject W cs n) c types b := by
  cases t with
  | list e | set e | map k e =>
    cases ht
    rfl
  | genericArray e =>
    cases ht
    cases e with
    | list e | set e | map k e => rfl
    | _ => cases hsupported
  | cls d =>
    cases d with
    | array d =>
      cases ht
      rfl
    | _ => cases ht
  | _ => cases ht

theorem supported_or_skipped {q : Container × (ℕ → List Ty)} (ht : seqOf t = some q) {b b' : Buffer}
    {r : Value} (hr : readObject W cs (n + 1) t b = .ok (r, b')) :
    Supported W t ∨ Skipped t ∧ r = .null := by
  cases t with
  | list e | set e | map k e => exact .inl trivial
  | genericArray e =>
    cases e with
    | list e | set e | map k e => exact .inl trivial
    | generic c args =>
      obtain ⟨_, -, hr⟩ := bind_eq_ok.mp hr
      cases hr
      exact .inr ⟨trivial, rfl⟩
    | _ =>
      obtain ⟨_, -, hr⟩ := bind_eq_ok.mp hr
      cases hr
  | cls d =>
    cases d with
    | array d => exact .inl trivial
    | _ => cases ht
  | _ => cases ht

theorem write_leaf {l : Leaf} {ps : List Put} (hv : Fits W P (.cls (.leaf l)) v)
    (hw : writeObject W cs (n + 1) (.cls (.leaf l)) v = .ok ps) :
    ∃ x, v = .leaf l x ∧ P l x ∧ ps = BufferWriter.puts cs l.type x := by
  cases v with
  | leaf l' x =>
    obtain ⟨rfl, hx⟩ := hv
    refine ⟨x, rfl, hx, ?_⟩
    rw [writeObject, writeSimple, if_pos rfl] at hw
    exact (Except.ok.inj hw).symm
  | _ => cases hv

theorem write_named {c : String} {ps : List Put} (hv : Fits W P (.cls (.named c)) v)
    (hw : writeObject W cs (n + 1) (.cls (.named c)) v = .ok ps) :
    ∃ vs, v = .object vs ∧ getPojoInfo (W c) = .ok (pojoFields (W c).chain) ∧
      writeAll (writeObject W cs n) (pojoFields (W c).chain) vs = .ok ps := by
  cases v with
  | object vs =>
    obtain ⟨ts, hts, hw⟩ := bind_eq_ok.mp hw
    have hts' := hts
    rw [getPojoInfo] at hts'
    split_ifs at hts'
    cases hts'
    exact ⟨vs, rfl, hts, hw⟩
  | _ => cases hv

theorem inverts (hv : HasType W (LeafBack cs) t v) (hr : Readable W t v) :
    Inverts (writeObject W cs n) (readObject W cs n) t v := by
  induction n generalizing t v with
  | zero =>
    intro ps b bs hw
    cases hw
  | succ n ih =>
    obtain ⟨htop, hparts⟩ := hv
    obtain ⟨hsupported, hreadable⟩ := hr
    have hih : ∀ p ∈ parts W t v, Inverts (writeObject W cs n) (readObject W cs n) p.1 p.2 :=
      fun p hp => ih (hparts p hp) (hreadable p hp)
    intro ps b bs hw hb
    cases ht : seqOf t with
    | some q =>
      obtain ⟨vs, m, rfl, hm, -, hzip, hwrite⟩ := write_seq ht htop
      rw [hwrite n] at hw
      obtain ⟨qs, hqs, hw⟩ := bind_eq_ok.mp hw
      cases hw
      obtain ⟨b', hr, hb'⟩ := readSeq_of_write (hzip ▸ hih) hm hqs hb
      exact ⟨b', (read_seq ht hsupported b).trans hr, hb'⟩
    | none =>
      rcases t with (l | c | c) | _ | _ | _ | _ | _ | _ <;> try cases ht
      · obtain ⟨x, rfl, hx, rfl⟩ := write_leaf htop hw
        obtain ⟨b', hr, hb'⟩ := hx b bs hb
        exact ⟨b', bind_eq_ok.mpr ⟨_, lift_eq_ok.mpr hr, rfl⟩, hb'⟩
      · obtain ⟨vs, rfl, hinfo, hw⟩ := write_named htop hw
        obtain ⟨b', hr, hb'⟩ := readAll_of_writeAll hih hw hb
        refine ⟨b', bind_eq_ok.mpr ⟨_, hinfo, ?_⟩, hb'⟩
        rw [if_neg (not_not.mpr hsupported.2)]
        exact bind_eq_ok.mpr ⟨_, hr, rfl⟩
      · exact hsupported.elim
      · exact hsupported.elim

theorem needs {m : ℕ} (hv : HasType W (LeafBack cs) t v) :
    Needs (writeObject W cs n) (readObject W cs m) (Unskipped W) (Readable W) t v := by
  induction m generalizing n t v with
  | zero =>
    intro ps b bs r b' hw hb hr
    cases hr
  | succ m ih =>
    cases n with
    | zero =>
      intro ps b bs r b' hw
      cases hw
    | succ n =>
      obtain ⟨htop, hparts⟩ := hv
      have hih : ∀ p ∈ parts W t v, Needs (writeObject W cs n) (readObject W cs m) (Unskipped W)
          (Readable W) p.1 p.2 :=
        fun p hp => ih (hparts p hp)
      intro ps b bs r b' hw hb hr hN
      have hbelow : r = v ∨ ∀ p ∈ parts W t v, Unskipped W p.1 p.2 :=
        hN.imp_right fun h => by cases h; assumption
      cases ht : seqOf t with
      | some q =>
        obtain ⟨vs, m, rfl, hm, -, hzip, hwrite⟩ := write_seq ht htop
        rw [hwrite n] at hw
        obtain ⟨qs, hqs, hw⟩ := bind_eq_ok.mp hw
        cases hw
        rcases supported_or_skipped ht hr with hsupported | ⟨hskipped, rfl⟩
        · rw [read_seq ht hsupported] at hr
          obtain ⟨rfl, hQ, hb'⟩ := of_readSeq (hzip ▸ hih) hm hqs hb hr (hzip ▸ hbelow)
          exact ⟨rfl, ⟨hsupported, hzip ▸ hQ⟩, hb'⟩
        · rcases hN with hN | ⟨hN, -⟩
          · cases hN
          · exact absurd hskipped hN
      | none =>
        rcases t with (l | c | c) | _ | _ | _ | _ | _ | _ <;> try cases ht
        · obtain ⟨x, rfl, hx, rfl⟩ := write_leaf htop hw
          obtain ⟨b₁, hr₁, hb₁⟩ := hx b bs hb
          obtain ⟨r, hr', hr⟩ := bind_eq_ok.mp hr
          rw [lift_eq_ok, hr₁] at hr'
          cases hr'
          cases hr
          exact ⟨rfl, ⟨trivial, forall_mem_nil _⟩, hb₁⟩
        · obtain ⟨vs, rfl, hinfo, hw⟩ := write_named htop hw
          obtain ⟨ts, hinfo', hr⟩ := bind_eq_ok.mp hr
          rw [hinfo] at hinfo'
          cases hinfo'
          split_ifs at hr with hcon
          obtain ⟨rs, hrs, hr⟩ := bind_eq_ok.mp hr
          cases hr
          rw [Value.object.injEq] at hbelow
          obtain ⟨rfl, hQ, hb'⟩ := of_readAll hih hw hb hrs hbelow
          refine ⟨rfl, ⟨⟨?_, hcon⟩, hQ⟩, hb'⟩
          rw [getPojoInfo] at hinfo
          split_ifs at hinfo with hrooted
          exact hrooted
        · cases hr
        · cases hr

def Known (S : String → Prop) : Cls → Prop
  | .leaf _ => True
  | .array c => Known S c
  | .named c => S c

def Grammar (S : String → Prop) : Ty → Prop
  | .cls c => Known S c
  | .list e => Grammar S e
  | .set e => ∃ l, e = .cls (.leaf l)
  | .map k e => (∃ l, k = .cls (.leaf l)) ∧ Grammar S e
  | .genericArray e => (∀ c, e ≠ .cls c) ∧ Grammar S e
  | _ => False

/-- A class with a constructor and fields that are all written, of types built so. -/
structure Plain (S : String → Prop) (k : ClassInfo) : Prop where
  rooted : k.rooted
  constructible : k.constructible
  fields : ∀ fs ∈ k.chain, ∀ f ∈ fs,
    ¬ f.isStatic ∧ ¬ f.isFinal ∧ ¬ f.ignored ∧ Grammar S f.type

def Nested : Ty → Prop
  | .genericArray (.genericArray _) => True
  | _ => False

variable {S : String → Prop}

theorem grammar_of_mem_pojoFields {chain : List (List Field)} {t : Ty} (ht : t ∈ pojoFields chain)
    (h : ∀ fs ∈ chain, ∀ f ∈ fs, Grammar S f.type) : Grammar S t := by
  induction chain with
  | nil => cases ht
  | cons fs chain ih =>
    obtain ⟨hfs, hchain⟩ := forall_mem_cons.mp h
    rcases mem_append.mp ht with ht | ht
    · exact ih ht hchain
    · obtain ⟨f, hf, rfl⟩ := mem_map.mp ht
      exact hfs f (mem_filter.mp hf).1

theorem grammar_of_mem_parts (hS : ∀ c, S c → Plain S (W c)) (ht : Grammar S t) {p : Ty × Value}
    (hp : p ∈ parts W t v) : Grammar S p.1 := by
  have hmem := (of_mem_zip hp).1
  have hentry {k e u : Ty} {n : ℕ} (h : u ∈ entryTypes k e n) : u = k ∨ u = e := by
    simp [entryTypes] at h
    tauto
  unfold partTypes at hmem
  split at hmem
  · exact eq_of_mem_replicate hmem ▸ ht
  · obtain ⟨l, rfl⟩ := ht
    exact eq_of_mem_replicate hmem ▸ trivial
  · exact eq_of_mem_replicate hmem ▸ ht.2
  · exact eq_of_mem_replicate hmem ▸ ht
  · obtain ⟨⟨l, rfl⟩, he⟩ := ht
    rcases hentry hmem with h | h
    · exact h ▸ trivial
    · exact h ▸ he
  · exact grammar_of_mem_pojoFields hmem fun fs hfs f hf => ((hS _ ht).fields fs hfs f hf).2.2.2
  · exact ht.elim
  · exact ht.elim
  · cases hmem

theorem Each.imp {Q Q' : Ty → Value → Prop} (hS : ∀ c, S c → Plain S (W c)) (ht : Grammar S t)
    (h : Each W Q t v) (himp : ∀ t v, Grammar S t → Q t v → Q' t v) : Each W Q' t v := by
  induction h with
  | intro top below ih =>
    exact ⟨himp _ _ ht top, fun p hp => ih p hp (grammar_of_mem_parts hS ht hp)⟩

theorem supported_iff (hS : ∀ c, S c → Plain S (W c)) (ht : Grammar S t) :
    Supported W t ↔ ¬ Nested t := by
  rcases t with (_ | _ | c) | _ | _ | _ | _ | e | _
  · exact iff_of_true trivial not_false
  · exact iff_of_true trivial not_false
  · exact iff_of_true ⟨(hS c ht).rooted, (hS c ht).constructible⟩ not_false
  · exact iff_of_true trivial not_false
  · exact iff_of_true trivial not_false
  · exact iff_of_true trivial not_false
  · exact ht.elim
  · cases e with
    | cls c => exact (ht.1 c rfl).elim
    | list | set | map => exact iff_of_true trivial not_false
    | genericArray e => exact iff_of_false id (not_not.mpr trivial)
    | generic | typeVariable => exact ht.2.elim
  · exact ht.elim

theorem writeAll_total {ts : List Ty} {vs : List Value} (hlen : ts.length = vs.length)
    (h : ∀ p ∈ ts.zip vs, ∃ N ps, ∀ n ≥ N, writeObject W cs n p.1 p.2 = .ok ps) :
    ∃ N ps, ∀ n ≥ N, writeAll (writeObject W cs n) ts vs = .ok ps := by
  induction ts generalizing vs with
  | nil =>
    obtain rfl := eq_nil_of_length_eq_zero hlen.symm
    exact ⟨0, [], fun _ _ => rfl⟩
  | cons t ts ih =>
    obtain ⟨v, vs, rfl⟩ := exists_cons_of_length_eq_add_one hlen.symm
    obtain ⟨⟨N₁, ps₁, h₁⟩, hrest⟩ := forall_mem_cons.mp h
    obtain ⟨N₂, ps₂, h₂⟩ := ih (Nat.succ.inj hlen) hrest
    refine ⟨max N₁ N₂, ps₁ ++ ps₂, fun n hn => ?_⟩
    have hn₁ := h₁ n (le_of_max_le_left hn)
    have hn₂ := h₂ n (le_of_max_le_right hn)
    exact bind_eq_ok.mpr ⟨_, hn₁, bind_eq_ok.mpr ⟨_, hn₂, rfl⟩⟩

theorem writes (hS : ∀ c, S c → Plain S (W c)) (ht : Grammar S t) (hv : HasType W P t v) :
    ∃ N ps, ∀ n ≥ N, writeObject W cs n t v = .ok ps := by
  induction hv with
  | @intro t v top below ih =>
    have hparts : ∀ p ∈ parts W t v, ∃ N ps, ∀ n ≥ N, writeObject W cs n p.1 p.2 = .ok ps :=
      fun p hp => ih p hp (grammar_of_mem_parts hS ht hp)
    suffices ∃ N ps, ∀ n ≥ N, writeObject W cs (n + 1) t v = .ok ps by
      obtain ⟨N, ps, h⟩ := this
      refine ⟨N + 1, ps, fun n hn => ?_⟩
      obtain ⟨n, rfl⟩ := Nat.exists_eq_add_of_le' (Nat.le_of_add_left_le hn)
      exact h n (Nat.le_of_succ_le_succ hn)
    cases hseq : seqOf t with
    | some q =>
      obtain ⟨vs, m, rfl, -, hlen, hzip, hwrite⟩ := write_seq hseq top
      obtain ⟨N, ps, h⟩ := writeAll_total hlen (hzip ▸ hparts)
      refine ⟨N, size m :: ps, fun n hn => ?_⟩
      rw [hwrite n]
      exact bind_eq_ok.mpr ⟨_, h n hn, rfl⟩
    | none =>
      rcases t with (l | c | c) | _ | _ | _ | _ | _ | _ <;> try cases hseq
      · cases v with
        | leaf l' x =>
          obtain ⟨rfl, -⟩ := top
          exact ⟨0, _, fun n _ => if_pos rfl⟩
        | _ => cases top
      · cases v with
        | object vs =>
          obtain ⟨N, ps, h⟩ := writeAll_total (Eq.symm top) hparts
          exact ⟨N, ps, fun n hn => bind_eq_ok.mpr ⟨_, if_pos (hS c ht).rooted, h n hn⟩⟩
        | _ => cases top
      · exact ht.elim
      · exact ht.elim

def sampleWorld (c : String) : ClassInfo :=
  if c = "ArrayList" then { isCollection := true }
  else { chain := [[{ type := .list (.cls (.leaf (.boxed .byte))) }]] }

theorem hasType_bytes :
    HasType W (LeafBack utf8) (.list (.cls (.leaf (.boxed .byte))))
      (.seq .list [.leaf (.boxed .byte) (7 : UInt8)]) := by
  refine ⟨show 1 < 2 ^ 31 by decide,
    forall_mem_singleton.mpr ⟨⟨rfl, ?_⟩, forall_mem_nil _⟩⟩
  intro b bs hb
  exact BufferReader.readObject_of_sound (t := .byte) trivial hb

theorem hasType_sample :
    HasType sampleWorld (LeafBack utf8) (.cls (.named "P"))
      (.object [.seq .list [.leaf (.boxed .byte) (7 : UInt8)]]) :=
  ⟨rfl, forall_mem_singleton.mpr hasType_bytes⟩

theorem plain_sample (c : String) (hc : c = "P") : Plain (· = "P") (sampleWorld c) := by
  subst hc
  refine ⟨rfl, rfl, forall_mem_singleton.mpr (forall_mem_singleton.mpr ?_)⟩
  simp [Grammar, Known]

/-- **What comes back.** A value of a type built from leaf types by arrays, lists, sets, maps and
plain classes is written, and read back with no byte more, if and only if no part of it is an array
of arrays of a parameterized type. -/
theorem round_trip_iff (hS : ∀ c, S c → Plain S (W c)) (ht : Grammar S t)
    (hv : HasType W (LeafBack cs) t v) :
    ∃ N ps, (∀ n ≥ N, writeObject W cs n t v = .ok ps) ∧
      ∀ b bs, b.Reading (ps.flatMap (Put.encode b.order) ++ bs) →
        ((∃ M, ∀ n ≥ M, ∃ b', readObject W cs n t b = .ok (v, b') ∧ b'.Reading bs) ↔
          Each W (fun t _ => ¬ Nested t) t v) := by
  obtain ⟨N, ps, hw⟩ := writes hS ht hv
  refine ⟨N, ps, hw, fun b bs hb => ⟨?_, fun h => ⟨N, fun n hn => ?_⟩⟩⟩
  · rintro ⟨M, h⟩
    obtain ⟨b', hr, -⟩ := h M le_rfl
    exact (needs hv (hw N le_rfl) hb hr (.inl rfl)).2.1.imp hS ht
      fun t v ht h => (supported_iff hS ht).mp h
  · have hreadable : Readable W t v := h.imp hS ht fun t v ht h => (supported_iff hS ht).mpr h
    obtain ⟨b', hr, hb', -⟩ := inverts hv hreadable (hw n hn) hb
    exact ⟨b', hr, hb'⟩

theorem round_trip_iff_sample :
    (∀ c, c = "P" → Plain (· = "P") (sampleWorld c)) ∧ Grammar (· = "P") (.cls (.named "P")) ∧
    ∃ N ps, (∀ n ≥ N, writeObject sampleWorld utf8 n (.cls (.named "P"))
        (.object [.seq .list [.leaf (.boxed .byte) (7 : UInt8)]]) = .ok ps) ∧
      ∀ b bs, b.Reading (ps.flatMap (Put.encode b.order) ++ bs) →
        ((∃ M, ∀ n ≥ M, ∃ b', readObject sampleWorld utf8 n (.cls (.named "P")) b =
            .ok (.object [.seq .list [.leaf (.boxed .byte) (7 : UInt8)]], b') ∧ b'.Reading bs) ↔
          Each sampleWorld (fun t _ => ¬ Nested t) (.cls (.named "P"))
            (.object [.seq .list [.leaf (.boxed .byte) (7 : UInt8)]])) :=
  ⟨plain_sample, rfl, round_trip_iff plain_sample rfl hasType_sample⟩

def nestedLists : Ty := .genericArray (.genericArray (.list (.cls (.leaf .string))))

theorem round_trip_nested_lost :
    Grammar (fun _ => False) nestedLists ∧
    HasType sampleWorld (LeafBack utf8) nestedLists (.seq .array []) ∧
    writeObject sampleWorld utf8 1 nestedLists (.seq .array []) = .ok [size 0] ∧
    ∀ m b r, readObject sampleWorld utf8 m nestedLists b ≠ .ok r := by
  refine ⟨by simp [nestedLists, Grammar, Known], ⟨show 0 < 2 ^ 31 by decide, forall_mem_nil _⟩,
    rfl, fun m b r h => ?_⟩
  cases m with
  | zero => cases h
  | succ m =>
    obtain ⟨_, -, h⟩ := bind_eq_ok.mp h
    cases h

def sampleBuffer : Buffer where
  data := [0, 0, 0, 1, 7]
  limit := 5
  position := 0
  mark := none
  order := .big
  size_lt := by decide
  limit_le := by decide
  position_le := by decide
  mark_le := by simp

def arrayList : Ty := .generic "ArrayList" [.cls (.leaf .string)]

end Reflection

end Icm.Java
