import DartSdk.Lib.PrefixTable
import DartSdk.Vm.Datastream
import DartSdk.Vm.RawObject
import Mathlib.Data.List.Forall2
import Mathlib.Data.List.Induction
import Mathlib.Data.List.TakeDrop

/-!
# Vm.DeoptInfo — packed deoptimization infos

`DeoptInfoBuilder::CreateDeoptInfo` of `vm/deopt_instructions.cc` writes a list of deoptimization
instructions back to front.  A suffix trie remembers what earlier infos have written; a suffix of at
least two instructions found there is replaced by its length and the number of the info it was
written to.  `DeoptInfo::Unpack` of `vm/object.cc` follows these references with a length cut-off.

Read back to front, a shared suffix is a shared prefix, so a table of infos is a
`PrefixTable` whose symbols are kind and source index:

* `findSuffix_spec`, `writeInstrs_ok`: the trie's paths are beginnings of words in the table.
* `unpackInto_refines`: unpacking bytes refines expanding entries.
* `unpack_createDeoptInfo_iff`: which infos of a run come back from the table.
-/

namespace DartSdk.Vm.DeoptInfo

open DartSdk.Codec DartSdk.PrefixTable DartSdk.Vm.Datastream List Option Function

def kBitsPerWord : ℕ := 64
def kMaxInt32 : ℤ := 0x7fffffff

/-! ## Instructions -/

/-- `DeoptInstr::Kind`. -/
inductive Kind
  | retAddress
  | constant
  | word
  | double
  | float32x4
  | float64x2
  | int32x4
  | mintPair
  | mint
  | int32
  | uint32
  | pcMarker
  | pp
  | callerFp
  | callerPp
  | callerPc
  | materializedObjectRef
  | materializeObject
deriving DecidableEq, Repr

namespace Kind

/-- The kinds in the order of the enumeration. -/
def all : List Kind :=
  [retAddress, constant, word, double, float32x4, float64x2, int32x4, mintPair, mint, int32, uint32,
    pcMarker, pp, callerFp, callerPp, callerPc, materializedObjectRef, materializeObject]

def value (k : Kind) : Word := BitVec.ofNat 64 (all.idxOf k)

/-- `static_cast<Kind>`, with no kind outside the enumeration. -/
def ofValue (v : Word) : Option Kind := all[v.toNat]?

theorem ofValue_value (k : Kind) : ofValue k.value = some k := by
  cases k <;> rfl

end Kind

def kFieldWidth : ℕ := kBitsPerWord / 2

/-- `ObjectTableIndex` and `LoRegister`. -/
def lowField : BitField := ⟨0, kFieldWidth⟩

/-- `DeoptId` and `HiRegister`. -/
def highField : BitField := ⟨kFieldWidth, kFieldWidth⟩

/-- The subclasses of `DeoptInstr` with their fields; a register source is its source index. -/
inductive DeoptInstr
  | retAddress (objectTableIndex deoptId : Word)
  | constant (objectTableIndex : Word)
  | word (source : Word)
  | double (source : Word)
  | float32x4 (source : Word)
  | float64x2 (source : Word)
  | int32x4 (source : Word)
  | mintPair (lo hi : Word)
  | mint (source : Word)
  | int32 (source : Word)
  | uint32 (source : Word)
  | pcMarker (objectTableIndex : Word)
  | pp (objectTableIndex : Word)
  | callerFp
  | callerPp
  | callerPc
  | materializedObjectRef (index : Word)
  | materializeObject (fieldCount : Word)
deriving DecidableEq, Repr

open DeoptInstr

namespace DeoptInstr

def kind : DeoptInstr → Kind
  | retAddress _ _ => .retAddress
  | constant _ => .constant
  | word _ => .word
  | double _ => .double
  | float32x4 _ => .float32x4
  | float64x2 _ => .float64x2
  | int32x4 _ => .int32x4
  | mintPair _ _ => .mintPair
  | mint _ => .mint
  | int32 _ => .int32
  | uint32 _ => .uint32
  | pcMarker _ => .pcMarker
  | pp _ => .pp
  | callerFp => .callerFp
  | callerPp => .callerPp
  | callerPc => .callerPc
  | materializedObjectRef _ => .materializedObjectRef
  | materializeObject _ => .materializeObject

def sourceIndex : DeoptInstr → Word
  | retAddress objectTableIndex deoptId =>
    lowField.encode objectTableIndex ||| highField.encode deoptId
  | mintPair lo hi => lowField.encode lo ||| highField.encode hi
  | constant objectTableIndex | pcMarker objectTableIndex | pp objectTableIndex => objectTableIndex
  | word source | double source | float32x4 source | float64x2 source | int32x4 source
  | mint source | int32 source | uint32 source => source
  | callerFp | callerPp | callerPc => 0
  | materializedObjectRef index => index
  | materializeObject fieldCount => fieldCount

/-- `DeoptInstr::Create` on a kind of the enumeration. -/
def ofKind (kind : Kind) (sourceIndex : Word) : DeoptInstr :=
  match kind with
  | .word => word sourceIndex
  | .double => double sourceIndex
  | .mint => mint sourceIndex
  | .mintPair => mintPair (lowField.decode sourceIndex) (highField.decode sourceIndex)
  | .int32 => int32 sourceIndex
  | .uint32 => uint32 sourceIndex
  | .float32x4 => float32x4 sourceIndex
  | .float64x2 => float64x2 sourceIndex
  | .int32x4 => int32x4 sourceIndex
  | .retAddress => retAddress (lowField.decode sourceIndex) (highField.decode sourceIndex)
  | .constant => constant sourceIndex
  | .pcMarker => pcMarker sourceIndex
  | .pp => pp sourceIndex
  | .callerFp => callerFp
  | .callerPp => callerPp
  | .callerPc => callerPc
  | .materializedObjectRef => materializedObjectRef sourceIndex
  | .materializeObject => materializeObject sourceIndex

/-- `DeoptInstr::Create`; other kinds are unreachable. -/
def create (kindAsInt sourceIndex : Word) : Option DeoptInstr :=
  (Kind.ofValue kindAsInt).map (ofKind · sourceIndex)

def equals (i j : DeoptInstr) : Bool := i.kind == j.kind && i.sourceIndex == j.sourceIndex

/-- All that `Equals` looks at. -/
def key (i : DeoptInstr) : Kind × Word := (i.kind, i.sourceIndex)

end DeoptInstr

/-- What two instructions are compared by. -/
abbrev Key := Kind × Word

/-! ## The suffix trie -/

/-- `DeoptInfoBuilder::TrieNode`; children are places in the zone. -/
structure TrieNode where
  instruction : Option DeoptInstr
  infoNumber : ℤ
  children : List ℕ
deriving DecidableEq, Repr

/-- The nodes in the order of their allocation, the root first. -/
abbrev Trie := List TrieNode

namespace Trie

/-- A trie with its root only, the implicit terminator of every info. -/
def init : Trie := [⟨none, -1, []⟩]

def infoNumber (t : Trie) (node : ℕ) : ℤ := ((t[node]?).map TrieNode.infoNumber).getD (-1)

def addChild (t : Trie) (node child : ℕ) : Trie :=
  t.modify node (fun n => { n with children := n.children ++ [child] })

def findChild (t : Trie) (node : ℕ) (instruction : DeoptInstr) : Option ℕ := do
  let n ← t[node]?
  n.children.find? (fun c => ((t[c]?).bind TrieNode.instruction).any (·.equals instruction))

/-- The first loop of `CreateDeoptInfo`: follows the instructions, last one first, as far as the
trie knows them. -/
def findSuffix (t : Trie) : ℕ → List DeoptInstr → ℕ → ℕ × ℕ
  | suffix, [], suffixLength => (suffix, suffixLength)
  | suffix, i :: is, suffixLength =>
    match t.findChild suffix i with
    | none => (suffix, suffixLength)
    | some node => findSuffix t node is (suffixLength + 1)

end Trie

/-! ## The builder -/

structure DeoptInfoBuilder where
  instructions : List DeoptInstr
  trie : Trie
  currentInfoNumber : ℤ
  frameStart : ℤ
deriving DecidableEq, Repr

open DeoptInfoBuilder

/-- `Writer::Write` of the kind and the source index. -/
def writeInstr (i : DeoptInstr) (st : WriteStream) : WriteStream :=
  write i.sourceIndex (write i.kind.value st)

/-- The second loop of `CreateDeoptInfo`: writes the instructions, last one first, and hangs a chain
of nodes for them under `node`. -/
def writeInstrs (infoNumber : ℤ) : List DeoptInstr → Trie → ℕ → WriteStream → Trie × WriteStream
  | [], t, _, st => (t, st)
  | i :: is, t, node, st =>
    let child := t.length
    let t := (t ++ [⟨some i, infoNumber, []⟩] : Trie).addChild node child
    writeInstrs infoNumber is t child (writeInstr i st)

namespace DeoptInfoBuilder

def init : DeoptInfoBuilder := ⟨[], Trie.init, 0, -1⟩

section

variable (compress : Bool) (b : DeoptInfoBuilder)

def add (i : DeoptInstr) : DeoptInfoBuilder :=
  { b with instructions := b.instructions ++ [i] }

def markFrameStart : DeoptInfoBuilder :=
  { b with frameStart := b.instructions.length }

def frameSize : ℤ := b.instructions.length - b.frameStart

/-- The trie node and the length of the suffix that earlier infos share, if it is worth a
reference. -/
def sharedSuffix : Option (ℕ × ℕ) :=
  let (suffix, suffixLength) :=
    if compress then b.trie.findSuffix 0 b.instructions.reverse 0 else (0, 0)
  if suffixLength > 1 then some (suffix, suffixLength) else none

/-- How many instructions a reference stands for. -/
def sharedLength : ℕ :=
  match b.sharedSuffix compress with
  | some (_, suffixLength) => suffixLength
  | none => 0

/-- `CreateDeoptInfo`, with the flag `compress_deopt_info`: the packed info and the builder for the
next one. -/
def createDeoptInfo : List Byte × DeoptInfoBuilder :=
  let shared := b.sharedSuffix compress
  let length := match shared with
    | some (_, suffixLength) => b.instructions.length - (suffixLength - 1)
    | none => b.instructions.length
  let initialSize := 2 * length * kWordSize
  let st : WriteStream := ⟨[], initialSize, initialSize⟩
  let st := write (BitVec.ofInt 64 b.frameSize) st
  let st := match shared with
    | some (suffix, suffixLength) =>
      write (BitVec.ofInt 64 (b.trie.infoNumber suffix)) (write (BitVec.ofNat 64 suffixLength) st)
    | none => write 0#64 st
  let node := match shared with
    | some (suffix, _) => suffix
    | none => 0
  let writeCount := match shared with
    | some _ => length - 1
    | none => length
  let (trie, st) :=
    writeInstrs b.currentInfoNumber (b.instructions.take writeCount).reverse b.trie node st
  (st.buffer, ⟨[], trie, b.currentInfoNumber + 1, -1⟩)

end

end DeoptInfoBuilder

/-- The instructions of one info: what precedes `MarkFrameStart`, and the frame. -/
structure Info where
  materializations : List DeoptInstr
  frame : List DeoptInstr
deriving DecidableEq, Repr

def Info.instructions (info : Info) : List DeoptInstr := info.materializations ++ info.frame

/-- Adds the instructions of an info to the builder. -/
def DeoptInfoBuilder.addInfo (b : DeoptInfoBuilder) (info : Info) : DeoptInfoBuilder :=
  info.frame.foldl add ((info.materializations.foldl add b).markFrameStart)

/-- Builds one info and stores it behind those already in the table. -/
def buildInfo (compress : Bool) (s : DeoptInfoBuilder × List (List Byte)) (info : Info) :
    DeoptInfoBuilder × List (List Byte) :=
  let (packed, b) := (s.1.addInfo info).createDeoptInfo compress
  (b, s.2 ++ [packed])

def buildAll (compress : Bool) (infos : List Info) : DeoptInfoBuilder × List (List Byte) :=
  infos.foldl (buildInfo compress) (init, [])

/-! ## Unpacking -/

def readInstr : Reader Byte DeoptInstr := do
  let instruction ← read64 kEndByteMarker
  let fromIndex ← read64 kEndByteMarker
  StateT.lift (create instruction fromIndex)

theorem readInstr_forward : Forward 1 readInstr := by
  refine Forward.bind (j := 0) read64_forward (fun instruction => ?_)
  refine Forward.mono (n := 1) ?_ (Nat.zero_le _)
  refine Forward.bind (j := 0) read64_forward (fun fromIndex => ?_)
  intro c a c' h
  cases hc : create instruction fromIndex with
  | none => rw [hc] at h; cases h
  | some i =>
    rw [hc] at h
    obtain ⟨-, rfl⟩ := Prod.mk.inj (some.inj h)
    exact ⟨rfl, le_rfl⟩

/-- The loop of `UnpackInto`. -/
def unpackLoop (length : ℤ) (c : Cursor Byte) (unpacked : List DeoptInstr) :
    Option (List DeoptInstr) :=
  if _h : c.pos < c.data.length ∧ (unpacked.length : ℤ) < length then
    match _hr : readInstr c with
    | none => none
    | some (i, c') => unpackLoop length c' (unpacked ++ [i])
  else some unpacked
termination_by c.data.length - c.pos
decreasing_by
  obtain ⟨hd, hp⟩ := readInstr_forward c i c' _hr
  rw [hd]
  omega

/-- `DeoptInfo::UnpackInto`; `depth` bounds the nesting of the calls. -/
def unpackInto (table : List (List Byte)) :
    ℕ → List Byte → List DeoptInstr → ℤ → Option (List DeoptInstr)
  | 0, _, _, _ => none
  | depth + 1, packed, unpacked, length => do
    let (_, c) ← read64 kEndByteMarker ⟨packed, 0⟩
    let (suffixLength, c) ← read64 kEndByteMarker c
    if suffixLength ≠ 0 then
      let (infoNumber, c) ← read64 kEndByteMarker c
      let suffix ← table[infoNumber.toNat]?
      let unpacked ← unpackInto table depth suffix unpacked suffixLength.toInt
      unpackLoop length c unpacked
    else unpackLoop length c unpacked

/-- `DeoptInfo::Unpack`. -/
def unpack (depth : ℕ) (table : List (List Byte)) (packed : List Byte) :
    Option (List DeoptInstr) :=
  (unpackInto table depth packed [] kMaxInt32).map List.reverse

/-! ## Instructions survive packing -/

theorem ofKind_key (i : DeoptInstr) : (ofKind i.kind i.sourceIndex).key = i.key := by
  have hj : ∀ v, lowField.encode (lowField.decode v) ||| highField.encode (highField.decode v) = v :=
    BitField.encode_decode_or rfl (by decide) (by decide) rfl rfl
  cases i <;>
    simp only [ofKind, key, kind, sourceIndex, hj]

theorem equals_iff {i j : DeoptInstr} : i.equals j ↔ i.key = j.key := by
  simp [equals, key]

/-- What is written for an instruction is read back as one with the same kind and source index. -/
theorem writeInstr_reads (i : DeoptInstr) (st : WriteStream) :
    ∃ bs, (writeInstr i st).buffer = st.buffer ++ bs ∧ bs ≠ [] ∧
      Reads readInstr bs (ofKind i.kind i.sourceIndex) := by
  obtain ⟨bs, h1, h2⟩ := write64_reads i.kind.value st
  obtain ⟨bs', h3, h4⟩ := write64_reads i.sourceIndex (write i.kind.value st)
  have hc : Reads (β := Byte) (StateT.lift (create i.kind.value i.sourceIndex)) []
      (ofKind i.kind i.sourceIndex) := by
    intro pre post
    rw [create, Kind.ofValue_value]
    rfl
  have hr : Reads readInstr (bs ++ (bs' ++ [])) (ofKind i.kind i.sourceIndex) :=
    h2.bind (h4.bind hc)
  rw [append_nil] at hr
  refine ⟨bs ++ bs', ?_, ?_, hr⟩
  · rw [writeInstr, h3, h1, append_assoc]
  · -- a reader that consumes a byte reads a non-empty block
    intro hn
    have hrn := hr.run
    obtain ⟨-, hp⟩ := readInstr_forward _ _ _ hrn
    rw [hn] at hp
    simp at hp

/-- Bytes that hold instructions with the given kinds and source indices. -/
inductive TailBytes : List Key → List Byte → Prop
  | nil : TailBytes [] []
  | cons {i : DeoptInstr} {ks : List Key} {bs bs' : List Byte} : bs ≠ [] → Reads readInstr bs i →
      TailBytes ks bs' → TailBytes (i.key :: ks) (bs ++ bs')

theorem writeInstrs_bytes (infoNumber : ℤ) (is : List DeoptInstr) (t : Trie) (node : ℕ)
    (st : WriteStream) : ∃ bs, (writeInstrs infoNumber is t node st).2.buffer = st.buffer ++ bs ∧
      TailBytes (is.map key) bs := by
  induction is generalizing t node st with
  | nil => exact ⟨[], by simp [writeInstrs], .nil⟩
  | cons i is ih =>
    obtain ⟨bs, h1, hne, h2⟩ := writeInstr_reads i st
    obtain ⟨bs', h3, h4⟩ := ih ((t ++ [⟨some i, infoNumber, []⟩] : Trie).addChild node t.length)
      t.length (writeInstr i st)
    refine ⟨bs ++ bs', ?_, ?_⟩
    · rw [writeInstrs, h3, h1, append_assoc]
    · have := TailBytes.cons hne h2 h4
      rwa [ofKind_key] at this

theorem unpackLoop_tail {ks : List Key} {bs : List Byte} (h : TailBytes ks bs) (pre : List Byte)
    (unpacked : List DeoptInstr) (length : ℤ) :
    ∃ out, unpackLoop length ⟨pre ++ bs, pre.length⟩ unpacked = some out ∧
      out.map key = unpacked.map key ++ ks.take (length.toNat - unpacked.length) := by
  induction h generalizing pre unpacked with
  | nil =>
    refine ⟨unpacked, ?_, by simp⟩
    rw [unpackLoop, dif_neg]
    simp
  | @cons i ks bs bs' hne hr _ ih =>
    have hp := length_pos_iff.mpr hne
    rw [unpackLoop]
    by_cases hlen : (unpacked.length : ℤ) < length
    · rw [dif_pos ⟨by simp only [length_append]; omega, hlen⟩]
      obtain ⟨out, h1, h2⟩ := ih (pre ++ bs) (unpacked ++ [i])
      have hrd := hr pre bs'
      refine ⟨out, ?_, ?_⟩
      · split
        · rename_i hn
          rw [hrd] at hn
          cases hn
        · rename_i j c' hs
          rw [hrd] at hs
          obtain ⟨rfl, rfl⟩ := Prod.mk.inj (some.inj hs)
          rw [← h1, append_assoc, length_append]
      · have hn : length.toNat - unpacked.length =
            (length.toNat - (unpacked ++ [i]).length) + 1 := by
          simp only [length_append, length_singleton]
          omega
        rw [h2, hn, take_succ_cons]
        simp
    · rw [dif_neg (fun hc => hlen hc.2)]
      refine ⟨unpacked, rfl, ?_⟩
      have hn : length.toNat - unpacked.length = 0 := by omega
      rw [hn]
      simp

/-! ## Packed infos are entries -/

/-- The bytes of a suffix reference: its length and its info number, or a zero. -/
def HeaderBytes (e : Entry Key) (bs : List Byte) : Prop :=
  if e.shared = 0 then Reads (read64 kEndByteMarker) bs 0
  else ∃ bs₁ bs₂, bs = bs₁ ++ bs₂ ∧ Reads (read64 kEndByteMarker) bs₁ (BitVec.ofNat 64 e.shared) ∧
    Reads (read64 kEndByteMarker) bs₂ (BitVec.ofNat 64 e.ref)

/-- The packed info holds the entry `e`. -/
def PackedAs (packed : List Byte) (e : Entry Key) : Prop :=
  e.shared < 2 ^ 63 ∧ (e.shared ≠ 0 → e.ref < 2 ^ 63) ∧ ∃ frameSize fs hs ts, packed = fs ++ (hs ++ ts) ∧
    Reads (read64 kEndByteMarker) fs frameSize ∧ HeaderBytes e hs ∧ TailBytes e.tail ts

theorem toNat_ofNat_word {n : ℕ} (h : n < 2 ^ 63) : (BitVec.ofNat 64 n).toNat = n := by
  rw [BitVec.toNat_ofNat]
  omega

theorem toInt_ofNat_word {n : ℕ} (h : n < 2 ^ 63) : (BitVec.ofNat 64 n).toInt = n := by
  rw [BitVec.toInt_eq_toNat_of_lt] <;> rw [toNat_ofNat_word h]
  omega

/-- **Refinement.**  Where expanding the entry succeeds, unpacking the bytes succeeds, with
instructions of the same kinds and source indices. -/
theorem unpackInto_refines {table : List (List Byte)} {E : List (Entry Key)}
    (hT : List.Forall₂ PackedAs table E) (depth : ℕ) {packed : List Byte} {e : Entry Key}
    (unpacked : List DeoptInstr) (length : ℤ) {ks : List Key} (hp : PackedAs packed e)
    (h : expandInto E depth e (unpacked.map key) length.toNat = some ks) :
    ∃ out, unpackInto table depth packed unpacked length = some out ∧ out.map key = ks := by
  induction depth generalizing packed e unpacked length ks with
  | zero => cases h
  | succ depth ih =>
    obtain ⟨hsh, hr, _, fs, hs, ts, rfl, hf, hh, ht⟩ := hp
    have hrn := hf [] (hs ++ ts)
    simp only [nil_append, length_nil, Nat.zero_add] at hrn
    unfold HeaderBytes at hh
    by_cases h0 : e.shared = 0
    · rw [if_pos h0] at hh
      have hrd := hh fs ts
      obtain ⟨out, h1, h2⟩ := unpackLoop_tail ht (fs ++ hs) unpacked length
      rw [append_assoc, length_append] at h1
      refine ⟨out, ?_, ?_⟩
      · simp only [unpackInto, hrn, hrd, bind_eq_bind, bind_some, ne_eq,
          not_true_eq_false, if_false, h1]
      · simp only [expandInto, if_pos h0, some.injEq, length_map] at h
        rw [h2, h]
    · rw [if_neg h0] at hh
      obtain ⟨bs₁, bs₂, rfl, hr1, hr2⟩ := hh
      have hrd1 := hr1 fs (bs₂ ++ ts)
      have hrd2 := hr2 (fs ++ bs₁) ts
      simp only [append_assoc, length_append] at hrn hrd1 hrd2
      simp only [expandInto, if_neg h0, bind_eq_bind, bind_eq_some_iff] at h
      obtain ⟨e', he', _, ha, hks⟩ := h
      obtain ⟨hr', hee'⟩ := List.getElem?_eq_some_iff.mp he'
      have hlt : e.ref < table.length := by rw [hT.length_eq]; exact hr'
      have hpe : PackedAs table[e.ref] e' := by
        have := hT.get hlt hr'
        simpa only [get_eq_getElem, hee'] using this
      have hsi := toInt_ofNat_word hsh
      obtain ⟨mid, hm1, hm2⟩ := ih unpacked (BitVec.ofNat 64 e.shared).toInt hpe
        (by rw [hsi, Int.toNat_natCast]; exact ha)
      obtain ⟨out, h1, h2⟩ := unpackLoop_tail ht (fs ++ (bs₁ ++ bs₂)) mid length
      simp only [append_assoc, length_append] at h1
      rw [← Nat.add_assoc] at h1
      have hne : BitVec.ofNat 64 e.shared ≠ 0 := by
        intro hz
        have := congrArg BitVec.toNat hz
        rw [toNat_ofNat_word hsh] at this
        exact h0 this
      refine ⟨out, ?_, ?_⟩
      · simp only [unpackInto, append_assoc, hrn, hrd1, hrd2, bind_eq_bind,
          bind_some, if_pos hne, toNat_ofNat_word (hr h0), getElem?_eq_getElem hlt, hm1, h1]
      · rw [h2, ← some.inj hks, hm2, ← hm2, length_map]

/-! ## The trie -/

/-- `π` gives the path of every node, from the root; the paths of the nodes satisfy `Good` with the
info number of the node. -/
structure Trie.Ok (t : Trie) (Good : ℤ → List Key → Prop) (π : ℕ → List Key) : Prop where
  pos : 0 < t.length
  root : π 0 = []
  child : ∀ p n c, t[p]? = some n → c ∈ n.children → ∃ m i, t[c]? = some m ∧
    m.instruction = some i ∧ π c = π p ++ [i.key] ∧ Good m.infoNumber (π c)

section TriePaths

variable {t : Trie} {Good : ℤ → List Key → Prop} {π : ℕ → List Key}

theorem Trie.ok_init (Good : ℤ → List Key → Prop) : Trie.init.Ok Good (fun _ => []) := by
  refine ⟨by simp [Trie.init], rfl, ?_⟩
  intro p n c hp hc
  obtain ⟨hlt, rfl⟩ := List.getElem?_eq_some_iff.mp hp
  simp [Trie.init] at hlt hc

theorem Trie.Ok.mono {Good' : ℤ → List Key → Prop} (h : t.Ok Good π)
    (hG : ∀ info v, Good info v → Good' info v) : t.Ok Good' π := by
  refine ⟨h.pos, h.root, ?_⟩
  intro p n c hp hc
  obtain ⟨m, i, h1, h2, h3, h4⟩ := h.child p n c hp hc
  exact ⟨m, i, h1, h2, h3, hG _ _ h4⟩

theorem findChild_spec (h : t.Ok Good π) {p c : ℕ} {i : DeoptInstr}
    (hc : t.findChild p i = some c) :
    c < t.length ∧ π c = π p ++ [i.key] ∧ Good (t.infoNumber c) (π c) := by
  unfold Trie.findChild at hc
  simp only [bind_eq_bind, bind_eq_some_iff] at hc
  obtain ⟨n, hn, hf⟩ := hc
  have heq := find?_some hf
  obtain ⟨m, j, hm, hj, hπ, hG⟩ := h.child p n c hn (mem_of_find?_eq_some hf)
  rw [hm, bind_some, hj, any_some, equals_iff] at heq
  refine ⟨(List.getElem?_eq_some_iff.mp hm).1, by rw [hπ, heq], ?_⟩
  rw [Trie.infoNumber, hm]
  exact hG

/-- Following instructions from a node extends its path by those found. -/
theorem findSuffix_spec (h : t.Ok Good π) (is : List DeoptInstr) (p len : ℕ) (hp : p < t.length) :
    ∃ j q, t.findSuffix p is len = (q, len + j) ∧ j ≤ is.length ∧
      q < t.length ∧ π q = π p ++ (is.take j).map key ∧
      (j = 0 → q = p) ∧ (0 < j → Good (t.infoNumber q) (π q)) := by
  induction is generalizing p len with
  | nil => exact ⟨0, p, by simp [Trie.findSuffix, hp]⟩
  | cons i is ih =>
    cases hc : t.findChild p i with
    | none => exact ⟨0, p, by simp [Trie.findSuffix, hc, hp]⟩
    | some c =>
      obtain ⟨hlt, hπ, hG⟩ := findChild_spec h hc
      obtain ⟨j, q, h1, h2, h3, h4, h0, h5⟩ := ih c (len + 1) hlt
      refine ⟨j + 1, q, ?_, ?_, h3, ?_, by simp, ?_⟩
      · simp only [Trie.findSuffix, hc, h1]
        rw [Nat.add_assoc, Nat.add_comm 1 j]
      · simpa using h2
      · rw [h4, hπ]
        simp
      · intro _
        rcases Nat.eq_zero_or_pos j with hj | hj
        · rw [h0 hj]
          exact hG
        · exact h5 hj

/-- A new node under `node` keeps the paths and has the path of `node` with its own instruction. -/
theorem Trie.Ok.addChild (h : t.Ok Good π) {node : ℕ} (hn : node < t.length) (i : DeoptInstr)
    (infoNumber : ℤ) (hG : Good infoNumber (π node ++ [i.key])) :
    Trie.Ok ((t ++ [⟨some i, infoNumber, []⟩] : Trie).addChild node t.length) Good
      (Function.update π t.length (π node ++ [i.key])) := by
  have hold : ∀ k < t.length, Function.update π t.length (π node ++ [i.key]) k = π k :=
    fun k hk => update_of_ne (by omega) _ _
  have hg : ∀ (p : ℕ) (n : TrieNode),
      ((t ++ [⟨some i, infoNumber, []⟩] : Trie).addChild node t.length)[p]? = some n ↔
      ∃ n', (t ++ [⟨some i, infoNumber, []⟩])[p]? = some n' ∧
        n = if node = p then { n' with children := n'.children ++ [t.length] } else n' := by
    intro p n
    rw [Trie.addChild, getElem?_modify]
    cases (t ++ [⟨some i, infoNumber, []⟩])[p]? <;> simp [eq_comm]
  refine ⟨by simp [Trie.addChild], by rw [hold 0 h.pos, h.root], ?_⟩
  intro p n c hp hc
  obtain ⟨n', hn', rfl⟩ := (hg p n).mp hp
  have hpl := (List.getElem?_eq_some_iff.mp hn').1
  rw [length_append, length_singleton] at hpl
  rcases Nat.lt_or_ge p t.length with hpt | hpt
  · rw [getElem?_append_left hpt] at hn'
    have hcs : c ∈ n'.children ∨ node = p ∧ c = t.length := by
      split_ifs at hc with hnp
      · simpa [hnp] using hc
      · exact .inl hc
    rcases hcs with hc' | ⟨rfl, rfl⟩
    · -- an old edge
      obtain ⟨m, j, hm, hj, hπ, hgd⟩ := h.child p n' c hn' hc'
      have hcl := (List.getElem?_eq_some_iff.mp hm).1
      refine ⟨_, j, (hg c _).mpr ⟨m, by rw [getElem?_append_left hcl, hm], rfl⟩, ?_, ?_, ?_⟩
      · split_ifs <;> exact hj
      · rw [hold c hcl, hold p hpt, hπ]
      · rw [hold c hcl]
        split_ifs <;> exact hgd
    · -- the new edge
      refine ⟨_, i, (hg t.length _).mpr ⟨_, getElem?_concat_length, rfl⟩, ?_, ?_, ?_⟩
      · rw [if_neg (by omega)]
      · rw [update_self, hold node hpt]
      · rw [update_self, if_neg (by omega)]
        exact hG
  · -- the new node has no children
    obtain rfl : p = t.length := by omega
    rw [getElem?_concat_length, some.injEq] at hn'
    subst hn'
    rw [if_neg (by omega)] at hc
    simp at hc

/-- Writing instructions below `node` keeps the trie in order if every path it makes is `Good`. -/
theorem writeInstrs_ok (infoNumber : ℤ) (is : List DeoptInstr) {node : ℕ} (st : WriteStream)
    (h : t.Ok Good π) (hn : node < t.length)
    (hG : ∀ j, 0 < j → j ≤ is.length → Good infoNumber (π node ++ (is.take j).map key)) :
    ∃ π', (writeInstrs infoNumber is t node st).1.Ok Good π' := by
  induction is generalizing t π node st with
  | nil => exact ⟨π, h⟩
  | cons i is ih =>
    have hG1 := hG 1 (by omega) (by simp)
    rw [take_one, head?_cons] at hG1
    have h' := h.addChild hn i infoNumber (by simpa using hG1)
    refine ih (writeInstr i st) h' (by simp [Trie.addChild]) ?_
    intro j hj hle
    have := hG (j + 1) (by omega) (by simpa using hle)
    rw [update_self]
    simpa using this

end TriePaths

/-! ## Runs of the builder -/

section Runs

variable {compress : Bool}

theorem foldl_add (is : List DeoptInstr) (b : DeoptInfoBuilder) :
    is.foldl add b = { b with instructions := b.instructions ++ is } := by
  induction is generalizing b with
  | nil => simp
  | cons i is ih => simp [ih, add]

theorem addInfo_eq (b : DeoptInfoBuilder) (info : Info) :
    ∃ fs, b.addInfo info =
      { b with instructions := b.instructions ++ info.instructions, frameStart := fs } := by
  refine ⟨(b.instructions ++ info.materializations).length, ?_⟩
  simp only [addInfo, foldl_add, markFrameStart, Info.instructions,
    append_assoc]

/-- The word of an info: kinds and source indices, last instruction first. -/
def Info.word (info : Info) : List Key := info.instructions.reverse.map key

/-- The entry a packed info stands for. -/
def entryFor (compress : Bool) (b : DeoptInfoBuilder) : Entry Key where
  shared := b.sharedLength compress
  ref := match b.sharedSuffix compress with
    | some (suffix, _) => (b.trie.infoNumber suffix).toNat
    | none => 0
  tail := (b.instructions.reverse.drop (b.sharedLength compress)).map key

/-- A trie path that its node's info has written: it reaches into the tail of that info's entry. -/
def PathIn (E : List (Entry Key)) (words : List (List Key)) (info : ℤ) (v : List Key) : Prop :=
  ∃ j : ℕ, info = j ∧ Shares E words j v

section Step

variable {b : DeoptInfoBuilder} {E : List (Entry Key)} {words : List (List Key)} {π : ℕ → List Key}
  (compress : Bool) (hok : b.trie.Ok (PathIn E words) π)

include hok

/-- **What `CreateDeoptInfo` does**: after the frame size and the reference it writes the instructions
that are not shared, and hangs them under the node that the shared ones lead to. -/
theorem createDeoptInfo_spec :
    ∃ q st fs hs frameSize, (entryFor compress b).shared ≤ b.instructions.length ∧
      q < b.trie.length ∧ π q = (b.instructions.reverse.take (entryFor compress b).shared).map key ∧
      ((entryFor compress b).shared ≠ 0 → Shares E words (entryFor compress b).ref (π q)) ∧
      st.buffer = fs ++ hs ∧ Reads (read64 kEndByteMarker) fs frameSize ∧
      HeaderBytes (entryFor compress b) hs ∧ ∃ out, out = writeInstrs b.currentInfoNumber
        (b.instructions.reverse.drop (entryFor compress b).shared) b.trie q st ∧
      (b.createDeoptInfo compress).1 = out.2.buffer ∧ (b.createDeoptInfo compress).2.trie = out.1 := by
  cases hs : b.sharedSuffix compress with
  | none =>
    have hl : (entryFor compress b).shared = 0 := by simp [entryFor, sharedLength, hs]
    set size := 2 * b.instructions.length * kWordSize
    obtain ⟨fs, hf1, hf2⟩ := write64_reads (BitVec.ofInt 64 b.frameSize) ⟨[], size, size⟩
    obtain ⟨hb, hh1, hh2⟩ := write64_reads 0#64
      (write (BitVec.ofInt 64 b.frameSize) ⟨[], size, size⟩)
    refine ⟨0, _, fs, hb, _, by omega, hok.pos, by rw [hok.root, hl]; rfl, fun h => absurd hl h,
      by rw [hh1, hf1]; rfl, hf2, ?_, _, rfl, ?_⟩
    · rw [HeaderBytes, if_pos hl]
      exact hh2
    · simp [createDeoptInfo, hs, hl, size]
  | some ql =>
    obtain ⟨q, l⟩ := ql
    have hl : (entryFor compress b).shared = l := by simp [entryFor, sharedLength, hs]
    have hf := hs
    unfold sharedSuffix at hf
    cases compress with
    | false => simp at hf
    | true =>
    obtain ⟨j, _, h1, h2, hq, hπ, -, hG⟩ := findSuffix_spec hok b.instructions.reverse 0 0 hok.pos
    rw [hok.root, nil_append] at hπ
    simp only [if_true, h1, Nat.zero_add] at hf
    split_ifs at hf with hj
    obtain ⟨rfl, rfl⟩ := Prod.mk.inj (some.inj hf)
    rw [length_reverse] at h2
    obtain ⟨k, hk, hsh⟩ := hG (by omega)
    have hr : (entryFor true b).ref = k := by simp [entryFor, hs, hk]
    have hd : b.instructions.length - (b.instructions.length - (j - 1) - 1) = j := by omega
    set size := 2 * (b.instructions.length - (j - 1)) * kWordSize
    obtain ⟨fs, hf1, hf2⟩ := write64_reads (BitVec.ofInt 64 b.frameSize) ⟨[], size, size⟩
    obtain ⟨b₁, hb1, hr1⟩ := write64_reads (BitVec.ofNat 64 j)
      (write (BitVec.ofInt 64 b.frameSize) ⟨[], size, size⟩)
    obtain ⟨b₂, hb2, hr2⟩ := write64_reads (BitVec.ofNat 64 k) (write (BitVec.ofNat 64 j) _)
    rw [hl, hr]
    refine ⟨_, _, fs, b₁ ++ b₂, _, h2, hq, hπ, fun _ => hsh,
      by rw [hb2, hb1, hf1]; simp, hf2, ?_, _, rfl, ?_⟩
    · rw [HeaderBytes, hl, hr, if_neg (by omega)]
      exact ⟨b₁, b₂, rfl, hr1, hr2⟩
    · simp [createDeoptInfo, hs, hk, reverse_take, hd, size]

theorem createDeoptInfo_packed (hft : b.instructions.length < 2 ^ 63) (hE : E.length < 2 ^ 63) :
    PackedAs (b.createDeoptInfo compress).1 (entryFor compress b) := by
  obtain ⟨q, st, fs, hs, _, hle, -, -, hsh, hst, hf, hh, _, rfl, hb, -⟩ :=
    createDeoptInfo_spec compress hok
  obtain ⟨ts, ht1, ht2⟩ := writeInstrs_bytes b.currentInfoNumber
    (b.instructions.reverse.drop (entryFor compress b).shared) b.trie q st
  refine ⟨by omega, fun h => (hsh h).lt_length.trans hE, _, fs, hs, ts, ?_, hf, hh, ht2⟩
  rw [hb, ht1, hst, append_assoc]

theorem entryFor_valid :
    EntryFor E words (entryFor compress b) (b.instructions.reverse.map key) := by
  obtain ⟨q, _, _, _, _, hle, -, hπ, hs, -⟩ := createDeoptInfo_spec compress hok
  refine ⟨by simpa using hle, map_drop, fun h => ?_⟩
  rw [← map_take, ← hπ]
  exact hs h

theorem createDeoptInfo_trie (hc : b.currentInfoNumber = E.length) (hl : E.length = words.length) :
    ∃ π', (b.createDeoptInfo compress).2.trie.Ok (PathIn (E ++ [entryFor compress b])
      (words ++ [b.instructions.reverse.map key])) π' := by
  have hok' : b.trie.Ok (PathIn (E ++ [entryFor compress b])
      (words ++ [b.instructions.reverse.map key])) π := by
    refine hok.mono ?_
    rintro info v ⟨j, rfl, hsh⟩
    exact ⟨j, rfl, hsh.append _ _⟩
  have hnw : ∀ n, (entryFor compress b).shared < n → n ≤ b.instructions.length →
      PathIn (E ++ [entryFor compress b]) (words ++ [b.instructions.reverse.map key])
        b.currentInfoNumber ((b.instructions.reverse.take n).map key) := by
    intro n hn hle
    refine ⟨E.length, hc, _, b.instructions.reverse.map key,
      getElem?_concat_length, ?_, ?_, ?_⟩
    · rw [hl]
      exact getElem?_concat_length
    · rw [map_take]
      exact take_prefix _ _
    · simpa [Nat.min_eq_left hle] using hn
  obtain ⟨q, _, _, _, _, hle, hq, hπ, -, -, -, -, _, rfl, -, ht⟩ := createDeoptInfo_spec compress hok
  rw [ht]
  refine writeInstrs_ok _ _ _ hok' hq fun n hn hn' => ?_
  rw [length_drop, length_reverse] at hn'
  rw [hπ, ← map_append, ← take_add]
  exact hnw _ (by omega) (by omega)

end Step

/-- What holds after the infos `done` have been built: the table holds the entries `E` of their
words, and every path of the trie reaches into the tail of the entry its last node names. -/
structure RunInv (done : List Info) (s : DeoptInfoBuilder × List (List Byte))
    (E : List (Entry Key)) : Prop where
  instructions : s.1.instructions = []
  current : s.1.currentInfoNumber = done.length
  stores : Stores E (done.map Info.word)
  packed : List.Forall₂ PackedAs s.2 E
  trie : ∃ π, s.1.trie.Ok (PathIn E (done.map Info.word)) π

theorem runInv_init : RunInv [] (init, []) [] where
  instructions := rfl
  current := rfl
  stores := Stores.nil
  packed := List.Forall₂.nil
  trie := ⟨_, Trie.ok_init _⟩

/-- **The step**: building an info adds its entry. -/
theorem buildInfo_inv {done : List Info} {s : DeoptInfoBuilder × List (List Byte)}
    {E : List (Entry Key)} (h : RunInv done s E) (hd : done.length < 2 ^ 63) {info : Info}
    (hf : info.instructions.length < 2 ^ 63) :
    RunInv (done ++ [info]) (buildInfo compress s info)
      (E ++ [entryFor compress (s.1.addInfo info)]) := by
  obtain ⟨_, hok⟩ := h.trie
  obtain ⟨_, ha⟩ := addInfo_eq s.1 info
  rw [h.instructions, nil_append] at ha
  set b := s.1.addInfo info with hb
  have hi : b.instructions = info.instructions := by rw [ha]
  have ht : b.trie = s.1.trie := by rw [ha]
  have hE : E.length = done.length := by rw [h.stores.length_eq, length_map]
  have hc : b.currentInfoNumber = E.length := by rw [ha, hE]; exact h.current
  have hw : b.instructions.reverse.map key = info.word := by rw [hi, Info.word]
  rw [← ht] at hok
  have he := entryFor_valid compress hok
  have ht' := createDeoptInfo_trie compress hok hc h.stores.length_eq
  rw [hw] at he ht'
  have hp := createDeoptInfo_packed compress hok (hi ▸ hf) (by omega)
  refine ⟨rfl, ?_, ?_, rel_append h.packed (.cons hp .nil), ?_⟩
  · show b.currentInfoNumber + 1 = _
    rw [hc, hE]
    simp
  · rw [map_append]
    exact h.stores.concat he
  · rw [map_append]
    exact ht'

/-- **The run**: after any number of infos, with the entry of each as it was when it was built. -/
theorem buildAll_inv (compress : Bool) (infos : List Info) (hl : infos.length < 2 ^ 63)
    (hf : ∀ info ∈ infos, info.instructions.length < 2 ^ 63) :
    ∃ E, RunInv infos (buildAll compress infos) E ∧ ∀ k info, infos[k]? = some info →
      E[k]? = some (entryFor compress ((buildAll compress (infos.take k)).1.addInfo info)) := by
  induction infos using List.reverseRecOn with
  | nil => exact ⟨[], runInv_init, by simp⟩
  | append_singleton infos info ih =>
    rw [length_append, length_singleton] at hl
    obtain ⟨E, hin, hE⟩ := ih (by omega) (fun i hi => hf i (by simp [hi]))
    have he : E.length = infos.length := by rw [hin.stores.length_eq, length_map]
    refine ⟨E ++ [entryFor compress ((buildAll compress infos).1.addInfo info)], ?_, ?_⟩
    · rw [buildAll, foldl_append]
      exact buildInfo_inv hin (by omega) (hf info (by simp))
    · intro k i hk
      rcases Nat.lt_or_ge k infos.length with hlt | hge
      · rw [getElem?_append_left hlt] at hk
        rw [getElem?_append_left (by omega), hE k i hk,
          take_append_of_le_length hlt.le]
      have := (List.getElem?_eq_some_iff.mp hk).1
      obtain rfl : k = infos.length := by
        simp only [length_append, length_singleton] at this
        omega
      rw [getElem?_concat_length, some.injEq] at hk
      rw [← he, getElem?_concat_length, he, take_left, hk]

end Runs

/-- The instructions come back with the same kinds and source indices. -/
def Recovers (unpacked : Option (List DeoptInstr)) (instructions : List DeoptInstr) : Prop :=
  unpacked.map (List.map key) = some (instructions.map key)

/-- Every info of a run is unpacked up to the cut-off, but not cut inside its shared suffix. -/
theorem unpack_spec (compress : Bool) (infos : List Info) (hl : infos.length < 2 ^ 63)
    (hf : ∀ info ∈ infos, info.instructions.length < 2 ^ 63) :
    (buildAll compress infos).2.length = infos.length ∧
    ∀ {k : ℕ} {packed : List Byte} {info : Info} {depth : ℕ},
      (buildAll compress infos).2[k]? = some packed → infos[k]? = some info → k < depth →
      ((buildAll compress (infos.take k)).1.addInfo info).sharedLength compress ≤
        info.word.length ∧
      ∃ out, unpack depth (buildAll compress infos).2 packed = some out ∧
        out.reverse.map key = info.word.take
          (max (((buildAll compress (infos.take k)).1.addInfo info).sharedLength compress)
            kMaxInt32.toNat) := by
  obtain ⟨E, hin, hE⟩ := buildAll_inv compress infos hl hf
  refine ⟨by rw [hin.packed.length_eq, hin.stores.length_eq, length_map], ?_⟩
  intro k packed info depth hp hi hk
  have he := hE k info hi
  have hw : (infos.map Info.word)[k]? = some info.word := by rw [getElem?_map, hi]; rfl
  have hpe : PackedAs packed
      (entryFor compress ((buildAll compress (infos.take k)).1.addInfo info)) := by
    obtain ⟨h1, rfl⟩ := List.getElem?_eq_some_iff.mp hp
    obtain ⟨h2, h3⟩ := List.getElem?_eq_some_iff.mp he
    rw [← h3]
    exact hin.packed.get h1 h2
  have hex := hin.stores.expandInto_eq depth k kMaxInt32.toNat he hw hk
  obtain ⟨out, h1, h2⟩ := unpackInto_refines hin.packed depth [] kMaxInt32 hpe hex
  refine ⟨(hin.stores.entry k _ _ he hw).shared_le, out.reverse, ?_, ?_⟩
  · rw [unpack, h1]
    rfl
  · rw [reverse_reverse]
    exact h2

theorem recovers_some {out instructions : List DeoptInstr} :
    Recovers (some out) instructions ↔
      out.reverse.map key = instructions.reverse.map key := by
  rw [Recovers, map_some, some.injEq, map_reverse, map_reverse,
    reverse_inj]

/-- **Unpacking.**  Every info of a run is unpacked, with the calls nested at most as deep as its
place in the table; its instructions come back if and only if they are at most `kMaxInt32` many or
all of them are a shared suffix. -/
theorem unpack_createDeoptInfo_iff (compress : Bool) (infos : List Info)
    (hlen : infos.length < 2 ^ 63) (hfit : ∀ info ∈ infos, info.instructions.length < 2 ^ 63) :
    (buildAll compress infos).2.length = infos.length ∧
    ∀ (k : ℕ) (packed : List Byte) (info : Info) (depth : ℕ),
      (buildAll compress infos).2[k]? = some packed → infos[k]? = some info → k < depth →
      (unpack depth (buildAll compress infos).2 packed).isSome ∧
      (Recovers (unpack depth (buildAll compress infos).2 packed) info.instructions ↔
        (info.instructions.length : ℤ) ≤ kMaxInt32 ∨
        ((buildAll compress (infos.take k)).1.addInfo info).sharedLength compress =
          info.instructions.length) := by
  obtain ⟨ht, hs⟩ := unpack_spec compress infos hlen hfit
  refine ⟨ht, ?_⟩
  intro k packed info depth hp hi hk
  obtain ⟨hle, _, h1, h2⟩ := hs hp hi hk
  have hw : info.word.length = info.instructions.length := by simp [Info.word]
  refine ⟨by rw [h1]; rfl, ?_⟩
  rw [h1, recovers_some, h2, ← Info.word, take_eq_self_iff, hw]
  have hm : (kMaxInt32.toNat : ℤ) = kMaxInt32 := rfl
  omega

theorem unpack_createDeoptInfo_shared :
    ∃ packed,
      (buildAll true [⟨[], [.constant 1, .callerFp, .callerPc]⟩,
        ⟨[], [.constant 2, .callerFp, .callerPc]⟩]).2[1]? = some packed ∧
      Recovers (unpack 2 (buildAll true [⟨[], [.constant 1, .callerFp, .callerPc]⟩,
        ⟨[], [.constant 2, .callerFp, .callerPc]⟩]).2 packed)
        [.constant 2, .callerFp, .callerPc] := by
  obtain ⟨hl, h⟩ := unpack_createDeoptInfo_iff true
    [⟨[], [.constant 1, .callerFp, .callerPc]⟩, ⟨[], [.constant 2, .callerFp, .callerPc]⟩]
    (by decide) (by decide)
  refine ⟨_, getElem?_eq_getElem (by rw [hl]; decide), ?_⟩
  exact (h 1 _ _ 2 (getElem?_eq_getElem (by rw [hl]; decide)) rfl (by decide)).2.mpr
    (.inl (by decide))

theorem sharedLength_init (compress : Bool) (info : Info) :
    (init.addInfo info).sharedLength compress = 0 := by
  obtain ⟨_, ha⟩ := addInfo_eq init info
  have hs : ∀ is, Trie.init.findSuffix 0 is 0 = (0, 0) := by
    intro is
    cases is <;> rfl
  rw [ha]
  cases compress <;>
    simp [sharedLength, sharedSuffix, init, hs]

/-- A first info of more than `kMaxInt32` instructions is cut. -/
theorem first_info_cut (compress : Bool) {info : Info} (hln : kMaxInt32 < info.instructions.length)
    (hf : info.instructions.length < 2 ^ 63) :
    ∃ packed, (buildAll compress [info]).2[0]? = some packed ∧
      ∀ depth, ¬ Recovers (unpack depth (buildAll compress [info]).2 packed) info.instructions := by
  obtain ⟨hl, hsp⟩ := unpack_spec compress [info] (by simp) (by simpa using hf)
  have hp : 0 < (buildAll compress [info]).2.length := by simp [hl]
  refine ⟨_, getElem?_eq_getElem hp, ?_⟩
  intro depth hr
  cases depth with
  | zero => cases hr
  | succ depth =>
    obtain ⟨-, _, h1, h2⟩ := hsp (getElem?_eq_getElem hp) rfl (Nat.succ_pos depth)
    have hs : ((buildAll compress ([info].take 0)).1.addInfo info).sharedLength compress = 0 :=
      sharedLength_init compress info
    rw [h1, recovers_some, h2, ← Info.word, take_eq_self_iff, hs] at hr
    have hw : info.word.length = info.instructions.length := by simp [Info.word]
    have hm : (kMaxInt32.toNat : ℤ) = kMaxInt32 := rfl
    omega

/-- `2^31` instructions in the first info of a builder: unpacking stops one short. -/
theorem long_info_not_recovered :
    (⟨[], List.replicate 2147483648 .callerFp⟩ : Info).instructions ≠ [] ∧
    (⟨[], List.replicate 2147483648 .callerFp⟩ : Info).instructions.length < 2 ^ 63 ∧
    ∃ packed,
      (buildAll true [⟨[], List.replicate 2147483648 .callerFp⟩]).2[0]? = some packed ∧
      ∀ depth, ¬ Recovers
        (unpack depth (buildAll true [⟨[], List.replicate 2147483648 .callerFp⟩]).2 packed)
        (List.replicate 2147483648 .callerFp) := by
  have hl : ∀ n : ℕ, (⟨[], List.replicate n .callerFp⟩ : Info).instructions.length = n :=
    fun n => length_replicate
  have hp : 0 < (⟨[], List.replicate 2147483648 .callerFp⟩ : Info).instructions.length := by
    rw [hl]
    decide
  refine ⟨length_pos_iff.mp hp, by rw [hl]; decide, ?_⟩
  exact first_info_cut true (by rw [hl]; decide) (by rw [hl]; decide)

end DartSdk.Vm.DeoptInfo
