import Mathlib.Algebra.Group.Nat.Defs
import Mathlib.Data.List.Nodup
import Mathlib.Data.List.Perm.Subperm
import DartSdk.Lib.Entries
import DartSdk.Lib.Probing

/-!
# Open-addressing hash tables (`hash_table.h`)

`HashTable` keeps its entries in one array and searches them by linear probing.  An entry is
unused, deleted or occupied; a search passes over deleted entries and stops at an unused one.
`UnorderedHashTable` and `EnumIndexHashTable` differ in the order their iterator visits the
entries in, which is the order `HashTables::Copy` inserts them into a larger table in: the first
goes by entry number, the second by an enumeration index that every inserted key is given.  The
index is a Smi; nothing keeps it from wrapping around.

* The model: `findKey`, `findKeyOrDeletedOrUnused`, `insertKey`, `deleteEntry`, `copy`,
  `ensureCapacity`, and the operations of `HashMap`.
* `Inv`: the counts in the header are right, one entry is unused, no two occupied entries match,
  and a search for the key of an occupied entry gets to it.
* `Inv.step`: an operation keeps `Inv` and does what it does to a finite map.
* **`hashMap_run`**: so does every run that does not rebuild a table in which two occupied
  entries have the same enumeration index.
-/

namespace DartSdk.Vm

open DartSdk.Probing List Option Function

/-- `KeyTraits`: how keys are hashed (`uword Hash`) and compared (`bool IsMatch`). -/
structure KeyTraits (κ : Type) where
  hash : κ → ℕ
  isMatch : κ → κ → Bool

/-- `IsMatch` is an equivalence that `Hash` respects. -/
structure KeyTraits.Lawful {κ : Type} (T : KeyTraits κ) : Prop where
  refl : ∀ a, T.isMatch a a = true
  symm : ∀ {a b}, T.isMatch a b = true → T.isMatch b a = true
  trans : ∀ {a b c}, T.isMatch a b = true → T.isMatch b c = true → T.isMatch a c = true
  hash_eq : ∀ {a b}, T.isMatch a b = true → T.hash a = T.hash b

/-- An entry of the table.  `payload` is the user component; it is `none` while it still holds
the sentinel.  `enumIndex` is the extra component of `EnumIndexHashTable`: the value of a Smi,
of `W` bits (63 on a 64-bit target). -/
inductive HashTable.Slot (κ : Type) (ν : Type) (W : ℕ)
  | unused
  | deleted
  | occupied (key : κ) (payload : Option ν) (enumIndex : BitVec W)
  deriving DecidableEq

/-- The `BaseIterTable` of a map. -/
inductive IterTable
  | unordered
  | enumIndex
  deriving DecidableEq

/-- The backing array: the header, the metadata element of `EnumIndexHashTable` and the
entries. -/
structure HashTable (κ : Type) (ν : Type) (W : ℕ) where
  numOccupied : ℤ
  numDeleted : ℤ
  nextEnumIndex : BitVec W
  slots : List (HashTable.Slot κ ν W)
  deriving DecidableEq

namespace HashTable

variable {κ ν : Type} {W : ℕ}

section Model

variable (T : KeyTraits κ) (it : IterTable) (t : HashTable κ ν W)

section

variable (entry : ℕ) (s : Slot κ ν W) (key : κ)

def Slot.isUnused : Slot κ ν W → Bool
  | .unused => true
  | _ => false

def Slot.isDeleted : Slot κ ν W → Bool
  | .deleted => true
  | _ => false

def Slot.isOccupied : Bool := !s.isUnused && !s.isDeleted

def numEntries : ℕ := t.slots.length

def slot : Slot κ ν W := t.slots.getD entry .unused

def setSlot : HashTable κ ν W :=
  { t with slots := t.slots.set entry s }

/-- `Initialize`: every entry of the array becomes unused, and the size stays. -/
def initializeTable : HashTable κ ν W :=
  { numOccupied := 0, numDeleted := 0, nextEnumIndex := 0#W,
    slots := List.replicate t.numEntries .unused }

/-- `HashTables::New`: `ArrayLengthForNumOccupied` asks for one entry more than the capacity. -/
def new (initialCapacity : ℕ) : HashTable κ ν W :=
  { numOccupied := 0, numDeleted := 0, nextEnumIndex := 0#W,
    slots := List.replicate (initialCapacity + 1) .unused }

/-- The loop of `FindKey`.  The fuel is the number of entries still to visit: once it is used up
the source's loop goes around again, and again. -/
def findKeyLoop : ℕ → ℕ → Option (Option ℕ)
  | 0, _ => none
  | fuel + 1, probe =>
    match t.slot probe with
    | .unused => some none
    | .deleted => findKeyLoop fuel ((probe + 1) % t.numEntries)
    | .occupied k _ _ =>
      if T.isMatch key k then some (some probe)
      else findKeyLoop fuel ((probe + 1) % t.numEntries)

/-- `FindKey`: the entry that matches `key`, if there is one (`-1` otherwise).  The outer `none`
is a search that does not end. -/
def findKey : Option (Option ℕ) :=
  findKeyLoop T t key t.numEntries (T.hash key % t.numEntries)

/-- The loop of `FindKeyOrDeletedOrUnused`; `deleted` is the first deleted entry it has met. -/
def findSlotLoop : ℕ → Option ℕ → ℕ → Option (Bool × ℕ)
  | 0, _, _ => none
  | fuel + 1, deleted, probe =>
    match t.slot probe with
    | .unused => some (false, deleted.getD probe)
    | .deleted =>
      findSlotLoop fuel (some (deleted.getD probe)) ((probe + 1) % t.numEntries)
    | .occupied k _ _ =>
      if T.isMatch key k then some (true, probe)
      else findSlotLoop fuel deleted ((probe + 1) % t.numEntries)

/-- `FindKeyOrDeletedOrUnused`: whether `key` is present, and the entry that holds it or that it
may be inserted in. -/
def findKeyOrDeletedOrUnused : Option (Bool × ℕ) :=
  findSlotLoop T t key t.numEntries none (T.hash key % t.numEntries)

/-- `HashTable::InsertKey`. -/
def insertKeyBase : HashTable κ ν W :=
  { t with
    numOccupied := t.numOccupied + 1
    numDeleted := if (t.slot entry).isDeleted then t.numDeleted - 1 else t.numDeleted
    slots := t.slots.set entry (.occupied key none 0#W) }

/-- `InsertKey` of the two tables.  The enumeration index is stored in the new entry, and the
next one is its successor as a Smi. -/
def insertKey : HashTable κ ν W :=
  match it with
  | .unordered => t.insertKeyBase entry key
  | .enumIndex =>
    { (t.insertKeyBase entry key).setSlot entry (.occupied key none t.nextEnumIndex) with
      nextEnumIndex := t.nextEnumIndex + 1#W }

def getPayload : Option ν :=
  match t.slot entry with
  | .occupied _ payload _ => payload
  | _ => none

end

def updatePayload (entry : ℕ) (value : Option ν) : HashTable κ ν W :=
  match t.slot entry with
  | .occupied key _ enumIndex => t.setSlot entry (.occupied key value enumIndex)
  | _ => t

def deleteEntry (entry : ℕ) : HashTable κ ν W :=
  { t with
    numOccupied := t.numOccupied - 1
    numDeleted := t.numDeleted + 1
    slots := t.slots.set entry .deleted }

/-- The occupied entries, by entry number: the order of `UnorderedHashTable::Iterator`. -/
def occupiedEntries : List ℕ :=
  (List.range t.numEntries).filter fun i => (t.slot i).isOccupied

def enumIndexAt (entry : ℕ) : BitVec W :=
  match t.slot entry with
  | .occupied _ _ enumIndex => enumIndex
  | _ => 0#W

/-- `m[key] = value` of a `std::map`, which keeps its keys in ascending order. -/
def stdMapSet (key : ℤ) (value : ℕ) : List (ℤ × ℕ) → List (ℤ × ℕ)
  | [] => [(key, value)]
  | (k, x) :: m =>
    if key < k then (key, value) :: (k, x) :: m
    else if key = k then (key, value) :: m
    else (k, x) :: stdMapSet key value m

/-- The entries in the order of the table's `Iterator`. -/
def iterate : List ℕ :=
  match it with
  | .unordered => t.occupiedEntries
  | .enumIndex =>
    (t.occupiedEntries.foldl (fun enumToEntry i => stdMapSet (t.enumIndexAt i).toInt i enumToEntry)
      []).map Prod.snd

/-- The body of the loop of `HashTables::Copy`. -/
def copyEntry (source : HashTable κ ν W)
    (dest : HashTable κ ν W) (fromEntry : ℕ) : Option (HashTable κ ν W) :=
  match source.slot fromEntry with
  | .occupied key payload _ =>
    (dest.findKeyOrDeletedOrUnused T key).map fun found =>
      (dest.insertKey it found.2 key).updatePayload found.2 payload
  | _ => some dest

/-- `HashTables::Copy`. -/
def copy (source dest : HashTable κ ν W) : Option (HashTable κ ν W) :=
  (source.iterate it).foldlM (copyEntry T it source) dest.initializeTable

/-- The test of `EnsureLoadFactor(0.0, 0.75, table)`:
`(1 + NumOccupied() + NumDeleted()) / NumEntries() < 0.75`. -/
def loadFactorOk : Bool :=
  4 * (1 + t.numOccupied + t.numDeleted) < 3 * (t.numEntries : ℤ)

/-- `(1 + NumOccupied()) / target` for the target `(0.0 + 0.75) / 2.0`, truncated. -/
def newCapacity : ℕ := (8 * (1 + t.numOccupied) / 3).toNat

/-- `HashMap::EnsureCapacity`, that is `EnsureLoadFactor(0.0, 0.75, table)`. -/
def ensureCapacity : Option (HashTable κ ν W) :=
  if t.loadFactorOk then some t else copy T it t (new t.newCapacity)

def getOrNull (key : κ) : Option (Option ν) :=
  (t.findKey T key).map fun entry => entry.bind t.getPayload

def updateOrInsert (key : κ) (value : ν) : Option (HashTable κ ν W × Bool) := do
  let t ← t.ensureCapacity T it
  let (present, entry) ← t.findKeyOrDeletedOrUnused T key
  let t := if present then t else t.insertKey it entry key
  return (t.updatePayload entry (some value), present)

def insertOrGetValue (key : κ) (valueIfAbsent : ν) : Option (HashTable κ ν W × Option ν) := do
  let t ← t.ensureCapacity T it
  let (present, entry) ← t.findKeyOrDeletedOrUnused T key
  if present then return (t, t.getPayload entry)
  else
    return ((t.insertKey it entry key).updatePayload entry (some valueIfAbsent), some valueIfAbsent)

def remove (key : κ) : Option (HashTable κ ν W × Bool) :=
  (t.findKey T key).map fun
    | none => (t, false)
    | some entry => (t.deleteEntry entry, true)

def clear : HashTable κ ν W := t.initializeTable

end Model

variable {t t' : HashTable κ ν W} {i j : ℕ} {s : Slot κ ν W}

section Slots

section

variable (k : κ) (payload : Option ν) (e : BitVec W)

@[simp] theorem flags_unused : (Slot.unused : Slot κ ν W).isUnused = true ∧
    (Slot.unused : Slot κ ν W).isDeleted = false ∧ (Slot.unused : Slot κ ν W).isOccupied = false :=
  ⟨rfl, rfl, rfl⟩

@[simp] theorem flags_deleted : (Slot.deleted : Slot κ ν W).isUnused = false ∧
    (Slot.deleted : Slot κ ν W).isDeleted = true ∧ (Slot.deleted : Slot κ ν W).isOccupied = false :=
  ⟨rfl, rfl, rfl⟩

@[simp] theorem flags_occupied : (Slot.occupied k payload e).isUnused = false ∧
    (Slot.occupied k payload e).isDeleted = false ∧ (Slot.occupied k payload e).isOccupied :=
  ⟨rfl, rfl, rfl⟩

end

theorem lt_of_slot_ne (h : t.slot i ≠ .unused) : i < t.numEntries := by
  by_contra hi
  exact h (getD_eq_default _ _ (Nat.le_of_not_lt hi))

theorem slot_set (hs : t'.slots = t.slots.set i s) (hi : i < t.numEntries) (j : ℕ) :
    t'.slot j = if j = i then s else t.slot j := by
  rw [slot, hs, Entries.getD_set hi]
  exact if_congr eq_comm rfl rfl

theorem numEntries_set (hs : t'.slots = t.slots.set i s) : t'.numEntries = t.numEntries := by
  rw [numEntries, hs, length_set, numEntries]

theorem slot_eq_getElem (hi : i < t.slots.length) : t.slot i = t.slots[i] := by
  rw [slot, getD_eq_getElem _ _ hi]

theorem countP_set (hs : t'.slots = t.slots.set i s) (p : Slot κ ν W → Bool)
    (hi : i < t.numEntries) :
    t'.slots.countP p + (if p (t.slot i) then 1 else 0)
      = t.slots.countP p + if p s then 1 else 0 := by
  have hi' : i < t.slots.length := hi
  rw [hs, List.countP_set hi', slot_eq_getElem hi']
  by_cases hp : p t.slots[i]
  · have hps : 0 < t.slots.countP p := countP_pos_iff.mpr ⟨_, getElem_mem hi', hp⟩
    simp only [hp, if_true]
    omega
  · simp [hp]

theorem countP_states (l : List (Slot κ ν W)) :
    l.countP Slot.isUnused + l.countP Slot.isDeleted + l.countP Slot.isOccupied = l.length := by
  induction l with
  | nil => rfl
  | cons s l ih =>
    cases s <;> simp <;> omega

theorem exists_unused_slot (h : 0 < t.slots.countP Slot.isUnused) :
    ∃ i < t.numEntries, t.slot i = .unused := by
  obtain ⟨s, hs, hu⟩ := countP_pos_iff.mp h
  obtain ⟨i, hi, rfl⟩ := getElem_of_mem hs
  refine ⟨i, hi, ?_⟩
  rw [slot_eq_getElem hi]
  cases hsi : t.slots[i] <;> simp_all

theorem exists_of_isOccupied (h : s.isOccupied) :
    ∃ k payload e, s = .occupied k payload e := by
  cases s with
  | unused | deleted => simp at h
  | occupied k payload e => exact ⟨k, payload, e, rfl⟩

end Slots

variable {T : KeyTraits κ} {key : κ} {D : ℕ}

section Search

section

variable (T : KeyTraits κ) (t : HashTable κ ν W) (key : κ) (i : ℕ)

/-- Entry `i` is occupied by a key that matches `key`. -/
def MatchAt : Prop :=
  ∃ k payload e, t.slot i = .occupied k payload e ∧ T.isMatch key k = true

/-- A search for `key` stops after `D` steps. -/
def StopsAt (D : ℕ) : Prop :=
  FirstFree (fun j => t.slot j = .unused ∨ MatchAt T t key j) t.numEntries (T.hash key) D

abbrev visit (d : ℕ) : ℕ :=
  probe t.numEntries (T.hash key) d

/-- A search for `key` gets to entry `i`. -/
abbrev Reached : Prop :=
  Reaches (fun j => t.slot j = .unused) t.numEntries (T.hash key) i

/-- No entry matches `key`, and a search for it gets to entry `i`, which is not occupied. -/
structure Vacant : Prop where
  none : ∀ j, ¬ MatchAt T t key j
  lt : i < t.numEntries
  free : (t.slot i).isOccupied = false
  reached : Reached T t key i

end

theorem visit_succ (d : ℕ) : (visit T t key d + 1) % t.numEntries = visit T t key (d + 1) :=
  probe_succ _ _ _

theorem MatchAt.lt (hm : MatchAt T t key i) : i < t.numEntries := by
  obtain ⟨k, _, e, hs, -⟩ := hm
  exact lt_of_slot_ne (by simp [hs])

theorem StopsAt.lt_of_ne {d : ℕ} (hD : StopsAt T t key D) (hd : d ≤ D)
    (hu : t.slot (visit T t key d) ≠ .unused) (hm : ¬ MatchAt T t key (visit T t key d)) : d < D := by
  refine Nat.lt_of_le_of_ne hd ?_
  rintro rfl
  exact hD.free_at.elim hu hm

/-- The search meets the key where it stops, or else an unused entry.  Then the entry to insert in is
the deleted one met earlier, or else one up to there that is not occupied. -/
theorem findSlotLoop_spec (hD : StopsAt T t key D) (fuel d : ℕ) (deleted : Option ℕ) (hd : d ≤ D)
    (hf : D < fuel + d) :
    (MatchAt T t key (visit T t key D) ∧
      findSlotLoop T t key fuel deleted (visit T t key d) = some (true, visit T t key D)) ∨
    (t.slot (visit T t key D) = .unused ∧
      ∃ x, findSlotLoop T t key fuel deleted (visit T t key d)
          = some (false, deleted.getD (visit T t key x)) ∧
        x ≤ D ∧ (t.slot (visit T t key x)).isOccupied = false) := by
  induction fuel generalizing d deleted with
  | zero => omega
  | succ fuel ih =>
    cases hs : t.slot (visit T t key d) with
    | unused =>
      obtain rfl := Nat.le_antisymm hd (Nat.le_of_not_lt fun hlt => hD.before d hlt (.inl hs))
      exact .inr ⟨hs, d, by simp [findSlotLoop, hs], le_rfl, by simp [hs]⟩
    | deleted =>
      have hlt := hD.lt_of_ne hd (by simp [hs]) (by simp [MatchAt, hs])
      rw [findSlotLoop, hs]
      dsimp only
      rw [visit_succ]
      rcases ih (d + 1) _ hlt (by omega) with hfn | ⟨hu, x, hr, -⟩
      · exact .inl hfn
      · exact .inr ⟨hu, d, hr, hd, by simp [hs]⟩
    | occupied k payload e =>
      by_cases hk : T.isMatch key k
      · have hm : MatchAt T t key (visit T t key d) := ⟨k, payload, e, hs, hk⟩
        obtain rfl := Nat.le_antisymm hd (Nat.le_of_not_lt fun hlt => hD.before d hlt (.inr hm))
        exact .inl ⟨hm, by simp [findSlotLoop, hs, hk]⟩
      have hlt := hD.lt_of_ne hd (by simp [hs]) (by simp [MatchAt, hs, hk])
      rw [findSlotLoop, hs]
      dsimp only
      rw [if_neg hk, visit_succ]
      exact ih (d + 1) _ hlt (by omega)

theorem findKeyLoop_eq (fuel : ℕ) (deleted : Option ℕ) (p : ℕ) :
    findKeyLoop T t key fuel p
      = (findSlotLoop T t key fuel deleted p).map fun r => if r.1 then some r.2 else none := by
  induction fuel generalizing deleted p with
  | zero => rfl
  | succ fuel ih =>
    rw [findKeyLoop, findSlotLoop]
    cases t.slot p with
    | unused => rfl
    | deleted => exact ih _ _
    | occupied k _ e =>
      by_cases hk : T.isMatch key k
      · simp [hk]
      · simpa [hk] using ih _ _

end Search

variable {M : κ → Option ν}

section Invariant

/-- The part of the invariant that is about the keys. -/
structure Shape (T : KeyTraits κ) (t : HashTable κ ν W) : Prop where
  /-- A search for the key of an occupied entry gets to the entry. -/
  reaches : ∀ {i k payload e}, t.slot i = .occupied k payload e →
    Reaches (fun j => t.slot j = .unused) t.numEntries (T.hash k) i
  distinct : ∀ {i j k payload e k' payload' e'}, t.slot i = .occupied k payload e →
    t.slot j = .occupied k' payload' e' → T.isMatch k k' = true → i = j
  stored : ∀ {i k payload e}, t.slot i = .occupied k payload e → payload.isSome = true

/-- What every operation keeps. -/
structure Inv (T : KeyTraits κ) (t : HashTable κ ν W) : Prop extends Shape T t where
  occupied_eq : t.numOccupied = (t.slots.countP Slot.isOccupied : ℕ)
  deleted_eq : t.numDeleted = (t.slots.countP Slot.isDeleted : ℕ)
  unused_pos : 0 < t.slots.countP Slot.isUnused

def Entry (t : HashTable κ ν W) (k : κ) (v : ν) : Prop :=
  ∃ i e, t.slot i = .occupied k (some v) e

/-- The table holds the finite map `M`. -/
def Represents (T : KeyTraits κ) (t : HashTable κ ν W) (M : κ → Option ν) : Prop :=
  ∀ k v, M k = some v ↔ ∃ k', T.isMatch k k' = true ∧ t.Entry k' v

variable {k : κ} {payload : Option ν} {v : ν} {e : BitVec W}

/-- **`FindKeyOrDeletedOrUnused` ends, and finds the entry that matches or, if there is none, an
entry that is not occupied and that a search for the key gets to.** -/
theorem Inv.find_spec (hT : T.Lawful) (h : Inv T t) (key : κ) :
    (∃ i, t.findKeyOrDeletedOrUnused T key = some (true, i) ∧ MatchAt T t key i) ∨
    (∃ i, t.findKeyOrDeletedOrUnused T key = some (false, i) ∧ Vacant T t key i) := by
  obtain ⟨j, hj, hu⟩ := exists_unused_slot h.unused_pos
  obtain ⟨D, hD⟩ : ∃ D, StopsAt T t key D := exists_firstFree _ ⟨j, hj, .inl hu⟩
  rcases findSlotLoop_spec hD t.numEntries 0 none (Nat.zero_le D) hD.lt with
    ⟨hm, hr⟩ | ⟨hu, x, hr, hxD, hx⟩
  · exact .inl ⟨_, hr, hm⟩
  refine .inr ⟨_, hr, fun i hm => ?_, probe_lt (Nat.zero_lt_of_lt hD.lt) _ _, hx,
    (hD.reaches hxD).mono fun _ => .inl⟩
  obtain ⟨k, _, e, hs, hk⟩ := id hm
  have hrc := h.reaches hs
  rw [← hT.hash_eq hk] at hrc
  exact hD.not_found hu hrc (by simp [hs]) hm

/-- **`FindKey` ends, and finds the entry that matches if there is one.** -/
theorem Inv.findKey_spec (hT : T.Lawful) (h : Inv T t) (key : κ) :
    (∃ i, t.findKey T key = some (some i) ∧ MatchAt T t key i) ∨
    (t.findKey T key = some none ∧ ∀ i, ¬ MatchAt T t key i) := by
  have heq : t.findKey T key = (t.findKeyOrDeletedOrUnused T key).map _ := findKeyLoop_eq _ none _
  rcases h.find_spec hT key with ⟨i, hf, hm⟩ | ⟨i, hf, hnone, -⟩
  · exact .inl ⟨i, by simp [heq, hf], hm⟩
  · exact .inr ⟨by simp [heq, hf], hnone⟩

theorem reaches_set {h : ℕ} (hs : t'.slots = t.slots.set i s)
    (hi : i < t.numEntries) (hu : s ≠ .unused)
    (hr : Reaches (fun j => t.slot j = .unused) t.numEntries h j) :
    Reaches (fun j => t'.slot j = .unused) t'.numEntries h j := by
  rw [numEntries_set hs]
  refine hr.mono fun j hj => ?_
  rw [slot_set hs hi] at hj
  split_ifs at hj with hji
  · exact absurd hj hu
  · exact hj

/-- The map with `v` stored under `key`. -/
def mapPut (T : KeyTraits κ) (M : κ → Option ν) (key : κ) (v : ν) : κ → Option ν :=
  fun k => if T.isMatch k key then some v else M k

/-- The map without `key`. -/
def mapErase (T : KeyTraits κ) (M : κ → Option ν) (key : κ) : κ → Option ν :=
  fun k => if T.isMatch k key then none else M k

/-- Writing an entry keeps the shape if what is written has its value, and a search for its key
gets to the entry and meets no other match. -/
theorem Shape.set (hT : T.Lawful) (h : Shape T t)
    (hs : t'.slots = t.slots.set i s) (hi : i < t.numEntries) (hu : s ≠ .unused)
    (hn : ∀ k payload e, s = .occupied k payload e → payload.isSome ∧
      Reached T t k i ∧
      ∀ j, j ≠ i → ¬ MatchAt T t k j) : Shape T t' := by
  have hsl := slot_set hs hi
  refine ⟨?_, ?_, ?_⟩
  · intro j k payload e hj
    rw [hsl] at hj
    split_ifs at hj with hji
    · subst hji
      exact reaches_set hs hi hu (hn _ _ _ hj).2.1
    · exact reaches_set hs hi hu (h.reaches hj)
  · intro j j' k payload e k' payload' e' hj hj' hk
    rw [hsl] at hj hj'
    split_ifs at hj hj' with h1 h2 h2
    · rw [h1, h2]
    · exact absurd ⟨k', payload', e', hj', hk⟩ ((hn _ _ _ hj).2.2 j' h2)
    · exact absurd ⟨k, payload, e, hj, hT.symm hk⟩ ((hn _ _ _ hj').2.2 j h1)
    · exact h.distinct hj hj' hk
  · intro j k payload e hj
    rw [hsl] at hj
    split_ifs at hj with hji
    · exact (hn _ _ _ hj).1
    · exact h.stored hj

theorem entry_insert {k₁ : κ} {v₁ : ν} (hi : Vacant T t k i)
    (hs : t'.slots = t.slots.set i (.occupied k (some v) e)) :
    t'.Entry k₁ v₁ ↔ t.Entry k₁ v₁ ∨ k₁ = k ∧ v₁ = v := by
  have hsl := slot_set hs hi.lt
  constructor
  · rintro ⟨j, e', hj⟩
    rw [hsl] at hj
    split_ifs at hj with hji
    · cases hj
      exact .inr ⟨rfl, rfl⟩
    · exact .inl ⟨j, e', hj⟩
  · rintro (⟨j, e', hj⟩ | ⟨rfl, rfl⟩)
    · refine ⟨j, e', ?_⟩
      rw [hsl, if_neg, hj]
      rintro rfl
      simpa [hj] using hi.free
    · exact ⟨i, e, by rw [hsl, if_pos rfl]⟩

section

variable (hT : T.Lawful)

include hT

theorem Inv.set (h : Inv T t) (hs : t'.slots = t.slots.set i s)
    (hi : i < t.numEntries) (hu : s ≠ .unused)
    (hn : ∀ k payload e, s = .occupied k payload e → payload.isSome ∧
      Reached T t k i ∧ ∀ j, j ≠ i → ¬ MatchAt T t k j)
    (ho : t'.numOccupied + (if (t.slot i).isOccupied then 1 else 0)
      = t.numOccupied + if s.isOccupied then 1 else 0)
    (hd : t'.numDeleted + (if (t.slot i).isDeleted then 1 else 0)
      = t.numDeleted + if s.isDeleted then 1 else 0)
    (hr : (t.slot i).isUnused → 2 ≤ t.slots.countP Slot.isUnused) : Inv T t' := by
  have ho' := h.occupied_eq
  have hd' := h.deleted_eq
  have hu' := h.unused_pos
  refine ⟨h.toShape.set hT hs hi hu hn, ?_, ?_, ?_⟩
  · have hc := countP_set hs Slot.isOccupied hi
    split_ifs at ho hc <;> omega
  · have hc := countP_set hs Slot.isDeleted hi
    split_ifs at hd hc <;> omega
  · have hc := countP_set hs Slot.isUnused hi
    split_ifs at hc with hsl
    · have := hr hsl
      omega
    · have := hr hsl
      omega
    · omega
    · omega

/-- Storing a key in an entry that was not occupied, when this is not the last unused one. -/
theorem Inv.insert (h : Inv T t) (hi : Vacant T t key i)
    (hr : 2 ≤ t.slots.countP Slot.isUnused)
    (hs : t'.slots = t.slots.set i (.occupied key (some v) e))
    (ho : t'.numOccupied = t.numOccupied + 1)
    (hd : t'.numDeleted = if (t.slot i).isDeleted then t.numDeleted - 1 else t.numDeleted) :
    Inv T t' := by
  refine h.set hT hs hi.lt (by simp) ?_ (by simp [hi.free, ho]) ?_ fun _ => hr
  · rintro k _ _ ⟨⟩
    exact ⟨rfl, hi.reached, fun j _ => hi.none j⟩
  · simp only [hd, flags_occupied, Bool.false_eq_true, if_false]
    split_ifs <;> omega

theorem Shape.eq_of_matchAt (h : Shape T t) (hm : MatchAt T t key i)
    (hm' : MatchAt T t key j) : i = j := by
  obtain ⟨k, _, e, hs, hk⟩ := hm
  obtain ⟨_, _, _, hs', hk'⟩ := hm'
  exact h.distinct hs hs' (hT.trans (hT.symm hk) hk')

theorem Inv.update (h : Inv T t) (hi : t.slot i = .occupied k payload e) :
    Inv T (t.setSlot i (.occupied k (some v) e)) := by
  have hm : MatchAt T t k i := ⟨k, payload, e, hi, hT.refl k⟩
  refine h.set hT rfl hm.lt (by simp) ?_ (by simp [hi, setSlot]) (by simp [hi, setSlot])
    (by simp [hi])
  rintro _ _ _ ⟨⟩
  exact ⟨rfl, h.reaches hi, fun j hj hmj => hj (h.eq_of_matchAt hT hmj hm)⟩

theorem Inv.delete (h : Inv T t) (hi : t.slot i = .occupied k payload e) :
    Inv T (t.deleteEntry i) :=
  h.set hT rfl (lt_of_slot_ne (by simp [hi])) (by simp) (by simp) (by simp [hi, deleteEntry])
    (by simp [hi, deleteEntry]) (by simp [hi])

/-- Writing the only entry that matches `key`: the map then has under `key` what is written. -/
theorem Represents.set (hM : Represents T t M) (w : Option ν)
    (hi : i < t.numEntries) (hs : t'.slots = t.slots.set i s)
    (hw : ∀ v, w = some v ↔ ∃ k e, s = .occupied k (some v) e)
    (hk : ∀ k payload e, s = .occupied k payload e → T.isMatch key k)
    (ho : ∀ j, j ≠ i → ¬ MatchAt T t key j)
    (hol : (t.slot i).isOccupied → MatchAt T t key i) :
    Represents T t' fun k => if T.isMatch k key then w else M k := by
  have hsl := slot_set hs hi
  intro k₁ v₁
  by_cases hk₁ : T.isMatch k₁ key
  · simp only [if_pos hk₁, hw]
    constructor
    · rintro ⟨k, e, rfl⟩
      exact ⟨k, hT.trans hk₁ (hk _ _ _ rfl), i, e, by rw [hsl, if_pos rfl]⟩
    · rintro ⟨k', hk', j, e', hj⟩
      rw [hsl] at hj
      split_ifs at hj with hji
      · exact ⟨k', e', hj⟩
      · exact absurd ⟨k', _, e', hj, hT.trans (hT.symm hk₁) hk'⟩ (ho j hji)
  · simp only [if_neg hk₁, hM k₁ v₁]
    -- the other keys have their entries away from `i`
    constructor
    · rintro ⟨k', hk', j, e', hj⟩
      have hji : j ≠ i := by
        rintro rfl
        obtain ⟨_, _, _, hj', hk''⟩ := hol (by simp [hj])
        rw [hj] at hj'
        cases hj'
        exact hk₁ (hT.trans hk' (hT.symm hk''))
      exact ⟨k', hk', j, e', by rw [hsl, if_neg hji]; exact hj⟩
    · rintro ⟨k', hk', j, e', hj⟩
      rw [hsl] at hj
      split_ifs at hj with hji
      · exact absurd (hT.trans hk' (hT.symm (hk _ _ _ hj))) hk₁
      · exact ⟨k', hk', j, e', hj⟩

theorem Represents.put (hM : Represents T t M) (hi : i < t.numEntries)
    (hs : t'.slots = t.slots.set i (.occupied k (some v) e))
    (hk : T.isMatch key k) (ho : ∀ j, j ≠ i → ¬ MatchAt T t key j)
    (hol : (t.slot i).isOccupied → MatchAt T t key i) :
    Represents T t' (mapPut T M key v) := by
  refine hM.set hT (some v) hi hs (fun v' => ?_) ?_ ho hol
  · simp
  · rintro _ _ _ ⟨⟩
    exact hk

theorem Represents.erase (h : Shape T t) (hM : Represents T t M)
    (hm : MatchAt T t key i) : Represents T (t.deleteEntry i) (mapErase T M key) :=
  hM.set hT none hm.lt rfl (by simp) (by simp) (fun _ hj hmj => hj (h.eq_of_matchAt hT hmj hm))
    fun _ => hm

end

end Invariant

variable {it : IterTable}

section Rebuild

variable {source dest : HashTable κ ν W}

/-- The enumeration index a table gives to the next key, and the one after it. -/
def indexFor (it : IterTable) (t : HashTable κ ν W) : BitVec W × BitVec W :=
  match it with
  | .unordered => (0#W, t.nextEnumIndex)
  | .enumIndex => (t.nextEnumIndex, t.nextEnumIndex + 1#W)

theorem insertKey_updatePayload (it : IterTable) (hi : i < t.numEntries) (payload : Option ν) :
    (t.insertKey it i key).updatePayload i payload =
      { numOccupied := t.numOccupied + 1
        numDeleted := if (t.slot i).isDeleted then t.numDeleted - 1 else t.numDeleted
        nextEnumIndex := (indexFor it t).2
        slots := t.slots.set i (.occupied key payload (indexFor it t).1) } := by
  have hs : (t.insertKey it i key).slot i = .occupied key none (indexFor it t).1 := by
    have hl : i < t.slots.length := hi
    cases it <;> simp [insertKey, insertKeyBase, setSlot, slot, indexFor, hl]
  rw [updatePayload, hs]
  cases it <;> simp [insertKey, insertKeyBase, setSlot, indexFor]

theorem mem_occupiedEntries : i ∈ t.occupiedEntries ↔ (t.slot i).isOccupied := by
  simp only [occupiedEntries, mem_filter, mem_range, and_iff_right_iff_imp]
  intro h
  refine lt_of_slot_ne fun hu => ?_
  simp [hu] at h

theorem nodup_occupiedEntries : t.occupiedEntries.Nodup :=
  nodup_range.filter _

theorem length_occupiedEntries : t.occupiedEntries.length = t.slots.countP Slot.isOccupied := by
  have hm : t.slots = (List.range t.numEntries).map t.slot := by
    refine ext_getElem (by simp [numEntries]) fun j h1 h2 => ?_
    simp [slot, h1]
  conv_rhs => rw [hm]
  rw [countP_map, countP_eq_length_filter]
  rfl

/-- The enumeration indices count the first `c` insertions, as Smis: every occupied entry has its
own number below `c`. -/
structure Numbered (t : HashTable κ ν W) (c : ℕ) : Prop where
  next : t.nextEnumIndex = BitVec.ofNat W c
  labels : ∃ label : ℕ → ℕ,
    (∀ i, (t.slot i).isOccupied = true → label i < c ∧ t.enumIndexAt i = BitVec.ofNat W (label i)) ∧
    ∀ i j, (t.slot i).isOccupied = true → (t.slot j).isOccupied = true → label i = label j → i = j

variable {c : ℕ} {done : List ℕ}

theorem Numbered.insert (h : Numbered t c) (hi : i < t.numEntries) {payload : Option ν}
    (hs : t'.slots = t.slots.set i (.occupied key payload t.nextEnumIndex))
    (hn : t'.nextEnumIndex = t.nextEnumIndex + 1#W) : Numbered t' (c + 1) := by
  obtain ⟨label, hlb, hin⟩ := h.labels
  have hsl := slot_set hs hi
  refine ⟨by rw [hn, h.next, BitVec.ofNat_add], fun j => if j = i then c else label j, ?_, ?_⟩
  · intro j hj
    by_cases hji : j = i
    · subst hji
      simp [enumIndexAt, hsl, h.next]
    · rw [hsl, if_neg hji] at hj
      obtain ⟨hlt, he⟩ := hlb j hj
      simp only [enumIndexAt, hsl, if_neg hji]
      exact ⟨by omega, he⟩
  · intro j j' hj hj' hl
    rw [hsl] at hj hj'
    dsimp only at hl
    split_ifs at hj hj' hl with h1 h2 h2
    · rw [h1, h2]
    · have := (hlb j' hj').1
      omega
    · have := (hlb j hj).1
      omega
    · exact hin j j' hj hj' hl

theorem Numbered.keep (h : Numbered t c) (hi : i < t.numEntries) {s : Slot κ ν W}
    (hs : t'.slots = t.slots.set i s) (hn : t'.nextEnumIndex = t.nextEnumIndex)
    (hoc : s.isOccupied →
      (t.slot i).isOccupied = true ∧ t'.enumIndexAt i = t.enumIndexAt i) : Numbered t' c := by
  obtain ⟨label, hl, hin⟩ := h.labels
  have hsl := slot_set hs hi
  have ho : ∀ j, (t'.slot j).isOccupied →
      (t.slot j).isOccupied = true ∧ t'.enumIndexAt j = t.enumIndexAt j := by
    intro j hj
    rw [hsl] at hj
    split_ifs at hj with hji
    · rw [hji]
      exact hoc hj
    · refine ⟨hj, ?_⟩
      rw [enumIndexAt, hsl, if_neg hji, enumIndexAt]
  refine ⟨by rw [hn, h.next], label, fun j hj => ?_, fun j j' hj hj' =>
    hin j j' (ho j hj).1 (ho j' hj').1⟩
  rw [(ho j hj).2]
  exact hl j (ho j hj).1

theorem Numbered.length_le (h : Numbered t c) : t.occupiedEntries.length ≤ c := by
  obtain ⟨label, hlb, hin⟩ := h.labels
  have hn : (t.occupiedEntries.map label).Nodup :=
    nodup_occupiedEntries.map_on fun i hi j hj =>
      hin i j (mem_occupiedEntries.mp hi) (mem_occupiedEntries.mp hj)
  have hs : t.occupiedEntries.map label ⊆ List.range c := by
    intro l hl
    obtain ⟨i, hi, rfl⟩ := List.mem_map.mp hl
    exact mem_range.mpr (hlb i (mem_occupiedEntries.mp hi)).1
  simpa using (List.Nodup.subperm hn hs).length_le

theorem Numbered.nodup (h : Numbered t c) (hc : c ≤ 2 ^ W) :
    (t.occupiedEntries.map t.enumIndexAt).Nodup := by
  obtain ⟨_, hl, hin⟩ := h.labels
  refine nodup_occupiedEntries.map_on fun i hi j hj he => ?_
  obtain ⟨hli, hei⟩ := hl i (mem_occupiedEntries.mp hi)
  obtain ⟨hlj, hej⟩ := hl j (mem_occupiedEntries.mp hj)
  refine hin i j (mem_occupiedEntries.mp hi) (mem_occupiedEntries.mp hj) ?_
  have hv := congrArg BitVec.toNat (hei.symm.trans (he.trans hej))
  rw [BitVec.toNat_ofNat, BitVec.toNat_ofNat, Nat.mod_eq_of_lt (by omega),
    Nat.mod_eq_of_lt (by omega)] at hv
  exact hv

/-- What the loop of `Copy` keeps: `done` are the entries of the old table copied so far. -/
structure CopyInv (T : KeyTraits κ) (it : IterTable) (source dest : HashTable κ ν W)
    (done : List ℕ) : Prop extends Inv T dest where
  noDeleted : dest.numDeleted = 0
  count : dest.numOccupied = (done.length : ℕ)
  entries : ∀ k v, dest.Entry k v ↔ ∃ j ∈ done, ∃ e, source.slot j = .occupied k (some v) e
  numbered : it = .enumIndex → Numbered dest done.length

theorem CopyInv.unused_eq (h : CopyInv T it source dest done) :
    dest.slots.countP Slot.isUnused + done.length = dest.numEntries := by
  have hs := countP_states dest.slots
  have ho := h.occupied_eq
  have hd := h.deleted_eq
  rw [h.count] at ho
  rw [h.noDeleted] at hd
  rw [numEntries]
  omega

theorem slot_initializeTable (t : HashTable κ ν W) (j : ℕ) :
    t.initializeTable.slot j = .unused := by
  simp only [slot, initializeTable, getD_eq_getElem?_getD, getElem?_replicate]
  split_ifs <;> rfl

theorem inv_initializeTable (T : KeyTraits κ) (hn : 0 < t.numEntries) :
    Inv T t.initializeTable := by
  have hs := slot_initializeTable t
  refine ⟨⟨fun hj => ?_, fun hj => ?_, fun hj => ?_⟩, ?_, ?_, ?_⟩
  any_goals
    simp [hs] at hj
  · simp [initializeTable, countP_replicate]
  · simp [initializeTable, countP_replicate]
  · simpa [initializeTable, countP_replicate] using hn

theorem numbered_initializeTable (t : HashTable κ ν W) : Numbered t.initializeTable 0 :=
  ⟨rfl, fun _ => 0, by simp [slot_initializeTable], by simp [slot_initializeTable]⟩

theorem copyInv_initializeTable (T : KeyTraits κ) (it : IterTable) (source dest : HashTable κ ν W)
    (hn : 0 < dest.numEntries) : CopyInv T it source dest.initializeTable [] :=
  { inv_initializeTable T hn with
    noDeleted := rfl
    count := rfl
    entries := fun k v => by simp [Entry, slot_initializeTable]
    numbered := fun _ => numbered_initializeTable dest }

theorem CopyInv.step (hT : T.Lawful) (hsr : Inv T source)
    (h : CopyInv T it source dest done) {j : ℕ} (hj : j ∉ done)
    (ho : (source.slot j).isOccupied) (hr : done.length + 1 < dest.numEntries) :
    ∃ dest', copyEntry T it source dest j = some dest' ∧ CopyInv T it source dest' (done ++ [j]) ∧
      dest'.numEntries = dest.numEntries := by
  obtain ⟨k, _, e, hk⟩ := exists_of_isOccupied ho
  obtain ⟨v, rfl⟩ := isSome_iff_exists.mp (hsr.stored hk)
  -- the key is not in the new table yet: its entries come from other entries of the old one
  have hn : ∀ x, ¬ MatchAt T dest k x := by
    rintro x ⟨k', _, e', hx, hm⟩
    obtain ⟨v', rfl⟩ := isSome_iff_exists.mp (h.stored hx)
    obtain ⟨_, hj', _, hs⟩ := (h.entries k' v').mp ⟨x, e', hx⟩
    exact hj (hsr.distinct hk hs hm ▸ hj')
  have hu := h.unused_eq
  rcases h.find_spec hT k with ⟨x, -, hm⟩ | ⟨x, hfind, hx⟩
  · exact absurd hm (hn x)
  refine ⟨(dest.insertKey it x k).updatePayload x (some v), ?_, ?_, ?_⟩
  · simp [copyEntry, hk, hfind]
  · rw [insertKey_updatePayload it hx.lt]
    have hd : (dest.slot x).isDeleted = false := by
      have hz : dest.slots.countP Slot.isDeleted = 0 := by
        have := h.deleted_eq
        rw [h.noDeleted] at this
        omega
      rw [countP_eq_zero] at hz
      rw [slot_eq_getElem hx.lt]
      exact Bool.eq_false_iff.mpr (hz _ (getElem_mem hx.lt))
    refine { h.insert hT hx (by omega) rfl rfl rfl with
      noDeleted := ?_, count := ?_, entries := ?_, numbered := ?_ }
    · simp [hd, h.noDeleted]
    · simp [h.count]
    · intro k₁ v₁
      rw [entry_insert hx rfl, h.entries]
      constructor
      · rintro (⟨y, hy, e', hs⟩ | ⟨rfl, rfl⟩)
        · exact ⟨y, by simp [hy], e', hs⟩
        · exact ⟨j, by simp, e, hk⟩
      · rintro ⟨y, hy, e', hs⟩
        rcases mem_append.mp hy with hy | hy
        · exact .inl ⟨y, hy, e', hs⟩
        · rw [mem_singleton.mp hy, hk] at hs
          cases hs
          exact .inr ⟨rfl, rfl⟩
    · rintro rfl
      rw [length_append]
      exact (h.numbered rfl).insert hx.lt rfl rfl
  · rw [insertKey_updatePayload it hx.lt, numEntries_set rfl]

theorem CopyInv.run (hT : T.Lawful) (hs : Inv T source) (js : List ℕ)
    (h : CopyInv T it source dest done) (hn : (done ++ js).Nodup)
    (ho : ∀ j ∈ js, (source.slot j).isOccupied)
    (hr : (done ++ js).length < dest.numEntries) :
    ∃ dest', js.foldlM (copyEntry T it source) dest = some dest' ∧
      CopyInv T it source dest' (done ++ js) ∧ dest'.numEntries = dest.numEntries := by
  induction js generalizing dest done with
  | nil => exact ⟨dest, rfl, by simpa using h, rfl⟩
  | cons j js ih =>
    have ha : done ++ j :: js = (done ++ [j]) ++ js := by simp
    have hj : j ∉ done := fun hm =>
      (nodup_append.mp hn).2.2 j hm j (by simp) rfl
    obtain ⟨_, hc, h₁, hn₁⟩ :=
      h.step hT hs hj (ho j (by simp)) (by simp at hr; omega)
    rw [ha] at hn hr ⊢
    obtain ⟨dest₂, hrs, h₂, hn₂⟩ :=
      ih h₁ hn (fun j' hj' => ho j' (by simp [hj'])) (by rw [hn₁]; exact hr)
    exact ⟨dest₂, by simp [foldlM_cons, hc, hrs], h₂, hn₂.trans hn₁⟩

theorem Represents.congr_entry (hM : Represents T source M)
    (he : ∀ k v, dest.Entry k v ↔ source.Entry k v) : Represents T dest M := by
  intro k v
  simp only [he, hM k v]

/-- **`Copy` keeps the entries when the iterator visits every occupied entry once.** -/
theorem copy_spec (hT : T.Lawful) (it : IterTable) (dest : HashTable κ ν W) (h : Inv T source)
    (hp : (source.iterate it).Perm source.occupiedEntries)
    (hr : source.numOccupied < dest.numEntries) :
    ∃ dest', copy T it source dest = some dest' ∧ Inv T dest' ∧
      (∀ k v, dest'.Entry k v ↔ source.Entry k v) ∧
      dest'.slots.countP Slot.isUnused + source.slots.countP Slot.isOccupied = dest.numEntries ∧
      (it = .enumIndex → Numbered dest' source.occupiedEntries.length) := by
  have hn : dest.initializeTable.numEntries = dest.numEntries := by
    simp [initializeTable, numEntries]
  have hl : (source.iterate it).length = source.slots.countP Slot.isOccupied := by
    rw [hp.length_eq, length_occupiedEntries]
  have hcn := h.occupied_eq
  obtain ⟨dest', hc, hi, hn'⟩ := (copyInv_initializeTable T it source dest (by omega)).run hT h
    (source.iterate it) (by simpa using hp.nodup_iff.mpr nodup_occupiedEntries)
    (fun j hj => mem_occupiedEntries.mp (hp.mem_iff.mp hj))
    (by rw [hn, nil_append, hl]; omega)
  rw [nil_append] at hi
  refine ⟨dest', hc, hi.toInv, fun k v => ?_, ?_, ?_⟩
  · rw [hi.entries]
    constructor
    · rintro ⟨j, -, e, hj⟩
      exact ⟨j, e, hj⟩
    · rintro ⟨j, e, hj⟩
      exact ⟨j, hp.mem_iff.mpr (mem_occupiedEntries.mpr (by simp [hj])), e, hj⟩
  · rw [← hl, hi.unused_eq, hn', hn]
  · rw [← hp.length_eq]
    exact hi.numbered

theorem stdMapSet_perm (key : ℤ) (value : ℕ) (m : List (ℤ × ℕ)) (h : key ∉ m.map Prod.fst) :
    (stdMapSet key value m).Perm ((key, value) :: m) := by
  induction m with
  | nil => exact .refl _
  | cons a m ih =>
    obtain ⟨k, x⟩ := a
    simp only [map_cons, mem_cons, not_or] at h
    rw [stdMapSet]
    split_ifs with h1 h2
    · exact .refl _
    · exact absurd h2 h.1
    · exact ((ih h.2).cons (k, x)).trans (List.Perm.swap _ _ _)

theorem foldl_stdMapSet_perm (f : ℕ → ℤ) (js : List ℕ) (m : List (ℤ × ℕ))
    (h : (m.map Prod.fst ++ js.map f).Nodup) :
    (js.foldl (fun m i => stdMapSet (f i) i m) m).Perm (js.map (fun i => (f i, i)) ++ m) := by
  induction js generalizing m with
  | nil => exact .refl _
  | cons j js ih =>
    have hs := stdMapSet_perm (f j) j m fun hm =>
      (nodup_append.mp h).2.2 _ hm (f j) (by simp) rfl
    have hk : ((stdMapSet (f j) j m).map Prod.fst ++ js.map f).Nodup := by
      refine ((hs.map Prod.fst).append_right _).nodup_iff.mpr ?_
      exact perm_middle.nodup_iff.mp h
    refine (ih _ hk).trans ?_
    exact (hs.append_left _).trans perm_middle

/-- The iterator of `EnumIndexHashTable` visits every occupied entry, unless two of them have the
same enumeration index: then `enum_to_entry` keeps only the last. -/
theorem iterate_perm (it : IterTable)
    (h : it = .enumIndex → (t.occupiedEntries.map t.enumIndexAt).Nodup) :
    (t.iterate it).Perm t.occupiedEntries := by
  cases it with
  | unordered => exact .refl _
  | enumIndex =>
    have hk : (t.occupiedEntries.map fun i => (t.enumIndexAt i).toInt).Nodup := by
      have hi : Function.Injective (BitVec.toInt : BitVec W → ℤ) :=
        fun _ _ => BitVec.eq_of_toInt_eq
      simpa [List.map_map, comp_def] using (h rfl).map hi
    have hp := foldl_stdMapSet_perm (fun i => (t.enumIndexAt i).toInt) t.occupiedEntries []
      (by simpa using hk)
    have := hp.map Prod.snd
    simpa [iterate, List.map_map, comp_def] using this

/-- If the table is about to be rebuilt, the iterator visits all of it. -/
def RebuildsWhole (it : IterTable) (t : HashTable κ ν W) : Prop :=
  it = .enumIndex → t.loadFactorOk = false → (t.occupiedEntries.map t.enumIndexAt).Nodup

/-- **`EnsureCapacity` keeps the entries and leaves two unused ones.** -/
theorem ensureCapacity_spec (hT : T.Lawful) (it : IterTable) (h : Inv T t)
    (hw : RebuildsWhole it t) :
    ∃ t', t.ensureCapacity T it = some t' ∧ Inv T t' ∧ (∀ k v, t'.Entry k v ↔ t.Entry k v) ∧
      2 ≤ t'.slots.countP Slot.isUnused ∧
      ∀ c, it = .enumIndex → Numbered t c → ∃ c' ≤ c, Numbered t' c' := by
  have ho := h.occupied_eq
  have hd := h.deleted_eq
  have hs := countP_states t.slots
  by_cases hload : t.loadFactorOk
  · refine ⟨t, by rw [ensureCapacity, if_pos hload], h, fun _ _ => .rfl, ?_, fun c _ hc => ⟨c, le_rfl, hc⟩⟩
    have hlt : 4 * (1 + t.numOccupied + t.numDeleted) < 3 * (t.numEntries : ℤ) := by
      simpa [loadFactorOk] using hload
    rw [numEntries] at hlt
    omega
  have hca : (t.newCapacity : ℤ) = 8 * (1 + t.numOccupied) / 3 := by
    rw [newCapacity]
    omega
  have hn : (new t.newCapacity : HashTable κ ν W).numEntries = t.newCapacity + 1 := by
    simp [new, numEntries]
  obtain ⟨t', hcp, h', he, hcn, hnm⟩ := copy_spec hT it (new t.newCapacity) h
    (iterate_perm it fun hit => hw hit (by simpa using hload)) (by rw [hn]; omega)
  refine ⟨t', by rw [ensureCapacity, if_neg hload, hcp], h', he, ?_,
    fun c hit hc => ⟨_, hc.length_le, hnm hit⟩⟩
  omega

end Rebuild

section Operations

/-- A call on a `HashMap`. -/
inductive Op (κ ν : Type)
  | updateOrInsert (key : κ) (value : ν)
  | insertOrGetValue (key : κ) (valueIfAbsent : ν)
  | remove (key : κ)
  | getOrNull (key : κ)
  | clear

/-- What a call returns: a flag, a value (`none` is the null object) or nothing. -/
inductive Result (ν : Type)
  | flag (b : Bool)
  | value (v : Option ν)
  | nothing
  deriving DecidableEq

section

variable (T : KeyTraits κ) (it : IterTable)

/-- The calls that begin with `EnsureCapacity`. -/
def Op.ensuresCapacity : Op κ ν → Bool
  | .updateOrInsert _ _ => true
  | .insertOrGetValue _ _ => true
  | _ => false

/-- One call; `none` is a call that does not return. -/
def step (t : HashTable κ ν W) : Op κ ν → Option (HashTable κ ν W × Result ν)
  | .updateOrInsert key value =>
    (t.updateOrInsert T it key value).map fun r => (r.1, .flag r.2)
  | .insertOrGetValue key value =>
    (t.insertOrGetValue T it key value).map fun r => (r.1, .value r.2)
  | .remove key => (t.remove T key).map fun r => (r.1, .flag r.2)
  | .getOrNull key => (t.getOrNull T key).map fun v => (t, .value v)
  | .clear => some (t.clear, .nothing)

def run (t : HashTable κ ν W) : List (Op κ ν) → Option (HashTable κ ν W × List (Result ν))
  | [] => some (t, [])
  | op :: ops =>
    (step T it t op).bind fun r => (run r.1 ops).map fun rs => (rs.1, r.2 :: rs.2)

/-- What a call does to a finite map, and returns. -/
def mapStep (M : κ → Option ν) : Op κ ν → (κ → Option ν) × Result ν
  | .updateOrInsert key value => (mapPut T M key value, .flag (M key).isSome)
  | .insertOrGetValue key value =>
    match M key with
    | some v => (M, .value (some v))
    | none => (mapPut T M key value, .value (some value))
  | .remove key => (mapErase T M key, .flag (M key).isSome)
  | .getOrNull key => (M, .value (M key))
  | .clear => (fun _ => none, .nothing)

def mapRun (M : κ → Option ν) : List (Op κ ν) → (κ → Option ν) × List (Result ν)
  | [] => (M, [])
  | op :: ops =>
    let r := mapStep T M op
    let rs := mapRun r.1 ops
    (rs.1, r.2 :: rs.2)

/-- No call of the run rebuilds a table in which two entries share an enumeration index. -/
def RebuildsWholeAlong (t : HashTable κ ν W) : List (Op κ ν) → Prop
  | [] => True
  | op :: ops =>
    (op.ensuresCapacity = true → RebuildsWhole it t) ∧
      ∀ r, step T it t op = some r → RebuildsWholeAlong r.1 ops

end

theorem Inv.getPayload_of_matchAt (h : Inv T t) (hM : Represents T t M)
    (hm : MatchAt T t key i) : t.getPayload i = M key ∧ (M key).isSome := by
  obtain ⟨k, _, e, hs, hk⟩ := hm
  obtain ⟨v, rfl⟩ := isSome_iff_exists.mp (h.stored hs)
  have hv : M key = some v := (hM key v).mpr ⟨k, hk, i, e, hs⟩
  simp [getPayload, hs, hv]

theorem Represents.eq_none (hM : Represents T t M) (hn : ∀ i, ¬ MatchAt T t key i) :
    M key = none := by
  refine eq_none_iff_forall_ne_some.mpr fun v hv => ?_
  obtain ⟨k, hk, i, e, hs⟩ := (hM key v).mp hv
  exact hn i ⟨k, some v, e, hs, hk⟩

/-- What a call leaves behind: a good table that holds the map, and at most one more enumeration
index given out. -/
structure After (T : KeyTraits κ) (it : IterTable) (t t' : HashTable κ ν W)
    (M : κ → Option ν) : Prop where
  inv : Inv T t'
  represents : Represents T t' M
  numbered : ∀ c, it = .enumIndex → Numbered t c → ∃ c' ≤ c + 1, Numbered t' c'

theorem After.refl (it : IterTable) (h : Inv T t) (hM : Represents T t M) : After T it t t M :=
  ⟨h, hM, fun c _ hc => ⟨c, by omega, hc⟩⟩

theorem After.of_ensured {t₁ : HashTable κ ν W} (ha : After T it t₁ t' M)
    (hnm : ∀ c, it = .enumIndex → Numbered t c → ∃ c' ≤ c, Numbered t₁ c') : After T it t t' M := by
  refine ⟨ha.inv, ha.represents, fun c hit hc => ?_⟩
  obtain ⟨c₁, hc₁, hn₁⟩ := hnm c hit hc
  obtain ⟨c', hc', hn⟩ := ha.numbered c₁ hit hn₁
  exact ⟨c', by omega, hn⟩

section

variable (hT : T.Lawful) (it : IterTable) (h : Inv T t) (hM : Represents T t M)

include hT h hM

theorem insert_spec (hr : 2 ≤ t.slots.countP Slot.isUnused) (hi : Vacant T t key i) (v : ν) :
    After T it t ((t.insertKey it i key).updatePayload i (some v)) (mapPut T M key v) := by
  rw [insertKey_updatePayload it hi.lt]
  refine ⟨h.insert hT hi hr rfl rfl rfl,
    hM.put hT hi.lt rfl (hT.refl key) (fun j _ => hi.none j) (by simp [hi.free]), ?_⟩
  rintro c rfl hc
  exact ⟨c + 1, le_rfl, hc.insert hi.lt rfl rfl⟩

theorem update_spec (hm : MatchAt T t key i) (v : ν) :
    After T it t (t.updatePayload i (some v)) (mapPut T M key v) := by
  have hlt := hm.lt
  have ho : ∀ j, j ≠ i → ¬ MatchAt T t key j := fun j hj hmj =>
    hj (h.eq_of_matchAt hT hmj hm)
  obtain ⟨k, payload, e, hs, hk⟩ := hm
  have hu : t.updatePayload i (some v) = t.setSlot i (.occupied k (some v) e) := by
    rw [updatePayload, hs]
  rw [hu]
  refine ⟨h.update hT hs, hM.put hT hlt rfl hk ho fun _ => ⟨k, payload, e, hs, hk⟩,
    fun c _ hc => ⟨c, by omega, hc.keep hlt rfl rfl fun _ => ?_⟩⟩
  have hn : (t.setSlot i (.occupied k (some v) e)).slot i = .occupied k (some v) e :=
    by rw [slot_set rfl hlt, if_pos rfl]
  simp [enumIndexAt, hs, hn]

theorem updateOrInsert_spec (hw : RebuildsWhole it t) (key : κ) (v : ν) :
    ∃ t', t.updateOrInsert T it key v = some (t', (M key).isSome) ∧
      After T it t t' (mapPut T M key v) := by
  obtain ⟨_, hc, h₁, he, hr, hn⟩ := ensureCapacity_spec hT it h hw
  have hM₁ := hM.congr_entry he
  rcases h₁.find_spec hT key with ⟨i, hf, hm⟩ | ⟨i, hf, hi⟩
  · refine ⟨_, ?_, (update_spec hT it h₁ hM₁ hm v).of_ensured hn⟩
    simp [updateOrInsert, hc, hf, (h₁.getPayload_of_matchAt hM₁ hm).2]
  · refine ⟨_, ?_, (insert_spec hT it h₁ hM₁ hr hi v).of_ensured hn⟩
    simp [updateOrInsert, hc, hf, hM₁.eq_none hi.none]

theorem insertOrGetValue_spec (hw : RebuildsWhole it t) (key : κ) (v : ν) :
    ∃ t', (t.insertOrGetValue T it key v).map (fun r => (r.1, Result.value r.2))
        = some (t', (mapStep T M (.insertOrGetValue key v)).2) ∧
      After T it t t' (mapStep T M (.insertOrGetValue key v)).1 := by
  obtain ⟨t₁, hc, h₁, he, hr, hn⟩ := ensureCapacity_spec hT it h hw
  have hM₁ := hM.congr_entry he
  rcases h₁.find_spec hT key with ⟨i, hf, hm⟩ | ⟨i, hf, hi⟩
  · obtain ⟨hg, hs⟩ := h₁.getPayload_of_matchAt hM₁ hm
    obtain ⟨w, hw⟩ := isSome_iff_exists.mp hs
    simp only [mapStep, hw]
    exact ⟨t₁, by simp [insertOrGetValue, hc, hf, hg, hw], (After.refl it h₁ hM₁).of_ensured hn⟩
  · simp only [mapStep, hM₁.eq_none hi.none]
    exact ⟨_, by simp [insertOrGetValue, hc, hf],
      (insert_spec hT it h₁ hM₁ hr hi v).of_ensured hn⟩

theorem getOrNull_spec (key : κ) : t.getOrNull T key = some (M key) := by
  rcases h.findKey_spec hT key with ⟨i, hf, hm⟩ | ⟨hf, hnone⟩
  · simp [getOrNull, hf, (h.getPayload_of_matchAt hM hm).1]
  · simp [getOrNull, hf, hM.eq_none hnone]

theorem remove_spec (key : κ) :
    ∃ t', t.remove T key = some (t', (M key).isSome) ∧ After T it t t' (mapErase T M key) := by
  rcases h.findKey_spec hT key with ⟨i, hf, hm⟩ | ⟨hf, hnone⟩
  · have hsm := (h.getPayload_of_matchAt hM hm).2
    refine ⟨t.deleteEntry i, by simp [remove, hf, hsm], ?_, hM.erase hT h.toShape hm,
      fun c _ hc => ⟨c, by omega, hc.keep hm.lt rfl rfl (by simp)⟩⟩
    obtain ⟨k, payload, e, hs, -⟩ := hm
    exact h.delete hT hs
  refine ⟨t, by simp [remove, hf, hM.eq_none hnone], .refl it h ?_⟩
  -- erasing an absent key changes nothing
  have he : mapErase T M key = M := by
    funext k
    rw [mapErase]
    split_ifs with hk
    · have hn' : ∀ i, ¬ MatchAt T t k i := by
        rintro i ⟨k', payload, e, hs, hk'⟩
        exact hnone i ⟨k', payload, e, hs, hT.trans (hT.symm hk) hk'⟩
      exact (hM.eq_none hn').symm
    · rfl
  rw [he]
  exact hM

/-- **A call keeps the invariant, and does to the table what it does to the map.** -/
theorem Inv.step (op : Op κ ν) (hw : op.ensuresCapacity → RebuildsWhole it t) :
    ∃ t', HashTable.step T it t op = some (t', (mapStep T M op).2) ∧
      After T it t t' (mapStep T M op).1 := by
  cases op with
  | updateOrInsert key v =>
    obtain ⟨t', hr, ha⟩ := updateOrInsert_spec hT it h hM (hw rfl) key v
    exact ⟨t', by simp [HashTable.step, hr, mapStep], ha⟩
  | insertOrGetValue key v => exact insertOrGetValue_spec hT it h hM (hw rfl) key v
  | remove key =>
    obtain ⟨t', hr, ha⟩ := remove_spec hT it h hM key
    exact ⟨t', by simp [HashTable.step, hr, mapStep], ha⟩
  | getOrNull key =>
    exact ⟨t, by simp [HashTable.step, getOrNull_spec hT h hM, mapStep], .refl it h hM⟩
  | clear =>
    refine ⟨t.clear, rfl, inv_initializeTable T ?_, ?_, fun c _ _ =>
      ⟨0, by omega, numbered_initializeTable t⟩⟩
    · obtain ⟨i, hi, -⟩ := exists_unused_slot h.unused_pos
      omega
    · intro k v
      simp [mapStep, Entry, clear, slot_initializeTable]

/-- **So does every sequence of calls.** -/
theorem Inv.run (ops : List (Op κ ν)) (hw : RebuildsWholeAlong T it t ops) :
    ∃ t', HashTable.run T it t ops = some (t', (mapRun T M ops).2) ∧ Inv T t' ∧
      Represents T t' (mapRun T M ops).1 := by
  induction ops generalizing t M with
  | nil => exact ⟨t, rfl, h, hM⟩
  | cons op ops ih =>
    obtain ⟨_, hs, ha⟩ := h.step hT it hM op hw.1
    obtain ⟨t₂, hr, h₂, hM₂⟩ := ih ha.inv ha.represents (hw.2 _ hs)
    exact ⟨t₂, by simp [HashTable.run, hs, hr, mapRun], h₂, hM₂⟩

/-- A run of at most `2 ^ W` calls never has to rebuild a table with two equal indices. -/
theorem Inv.rebuildsWholeAlong (ops : List (Op κ ν)) {c : ℕ} (hc : it = .enumIndex → Numbered t c)
    (hl : c + ops.length ≤ 2 ^ W) : RebuildsWholeAlong T it t ops := by
  induction ops generalizing t M c with
  | nil => trivial
  | cons op ops ih =>
    have hl' : c + 1 + ops.length ≤ 2 ^ W := by
      rw [length_cons] at hl
      omega
    have hw : RebuildsWhole it t := fun hit _ => (hc hit).nodup (by omega)
    refine ⟨fun _ => hw, fun r hr => ?_⟩
    obtain ⟨_, hs, ha⟩ := h.step hT it hM op fun _ => hw
    rw [hs] at hr
    cases hr
    by_cases hit : it = .enumIndex
    · obtain ⟨_, hc', hn⟩ := ha.numbered c hit (hc hit)
      exact ih ha.inv ha.represents (fun _ => hn) (by omega)
    · exact ih ha.inv ha.represents (fun h => absurd h hit) (by omega)

end

theorem initializeTable_new (capacity : ℕ) :
    (new capacity : HashTable κ ν W).initializeTable = new capacity := by
  simp [initializeTable, new, numEntries]

theorem inv_new (T : KeyTraits κ) (capacity : ℕ) : Inv T (new capacity : HashTable κ ν W) := by
  rw [← initializeTable_new]
  exact inv_initializeTable T (by simp [new, numEntries])

theorem represents_new (T : KeyTraits κ) (capacity : ℕ) :
    Represents T (new capacity : HashTable κ ν W) fun _ => none := by
  intro k v
  rw [← initializeTable_new]
  simp [Entry, slot_initializeTable]

theorem rebuildsWholeAlong_unordered (T : KeyTraits κ) (t : HashTable κ ν W)
    (ops : List (Op κ ν)) : RebuildsWholeAlong T .unordered t ops := by
  induction ops generalizing t with
  | nil => trivial
  | cons _ ops ih =>
    refine ⟨fun _ => ?_, fun r _ => ih r.1⟩
    rintro ⟨⟩

/-- **A map behaves as a finite map.**  From a new table, every sequence of calls that does not
rebuild a table with two equal enumeration indices returns what the calls return on a finite map
and leaves a table that holds this map; its counts are right, it has an unused entry, its
searches end, and no two of its entries match.  The table of an `UnorderedHashMap` has no
enumeration indices, and the first `2 ^ W` calls on an `EnumIndexHashMap` use no index twice. -/
theorem hashMap_run (hT : T.Lawful) (it : IterTable) (capacity : ℕ) (ops : List (Op κ ν))
    (hw : it = .unordered ∨ ops.length ≤ 2 ^ W ∨
      RebuildsWholeAlong T it (new capacity : HashTable κ ν W) ops) :
    ∃ t : HashTable κ ν W,
      run T it (new capacity) ops = some (t, (mapRun T (fun _ => none) ops).2) ∧
      (∀ key, t.getOrNull T key = some ((mapRun T (fun _ => none) ops).1 key)) ∧
      t.numOccupied = (t.slots.countP Slot.isOccupied : ℕ) ∧
      t.numDeleted = (t.slots.countP Slot.isDeleted : ℕ) ∧
      (∃ i < t.numEntries, t.slot i = .unused) ∧
      (∀ key, (t.findKey T key).isSome = true ∧ (t.findKeyOrDeletedOrUnused T key).isSome = true) ∧
      ∀ i j k payload e k' payload' e', t.slot i = .occupied k payload e →
        t.slot j = .occupied k' payload' e' → T.isMatch k k' = true → i = j := by
  have hw' : RebuildsWholeAlong T it (new capacity : HashTable κ ν W) ops := by
    rcases hw with rfl | hl | hw
    · exact rebuildsWholeAlong_unordered T _ ops
    · refine (inv_new T capacity).rebuildsWholeAlong hT it (represents_new T capacity) ops (c := 0)
        (fun _ => ?_) (by omega)
      rw [← initializeTable_new]
      exact numbered_initializeTable _
    · exact hw
  obtain ⟨t, hr, h, hM⟩ := (inv_new T capacity).run hT it (represents_new T capacity) ops hw'
  refine ⟨t, hr, getOrNull_spec hT h hM, h.occupied_eq, h.deleted_eq,
    exists_unused_slot h.unused_pos, fun key => ⟨?_, ?_⟩, fun i j k payload e k' payload' e' =>
      h.distinct⟩
  · rcases h.findKey_spec hT key with ⟨i, hf, -⟩ | ⟨hf, -⟩ <;> simp [hf]
  · rcases h.find_spec hT key with ⟨i, hf, -⟩ | ⟨i, hf, -⟩ <;> simp [hf]

def natTraits : KeyTraits ℕ := ⟨id, fun a b => a == b⟩

theorem natTraits_lawful : natTraits.Lawful := by
  refine ⟨?_, ?_, ?_, ?_⟩ <;> simp [natTraits]

/-- Five calls on an `EnumIndexHashMap` of capacity 0, which is rebuilt on the way. -/
theorem hashMap_run_grown :
    ∃ t : HashTable ℕ ℕ 63,
      run natTraits .enumIndex (new 0)
          [.updateOrInsert 5 50, .updateOrInsert 8 80, .remove 5, .insertOrGetValue 8 81,
            .getOrNull 5]
        = some (t, [.flag false, .flag false, .flag true, .value (some 80), .value none]) ∧
      ∃ i < t.numEntries, t.slot i = .unused := by
  obtain ⟨t, hr, -, -, -, hu, -⟩ := hashMap_run (W := 63) natTraits_lawful .enumIndex 0
    [.updateOrInsert 5 50, .updateOrInsert 8 80, .remove 5, .insertOrGetValue 8 81, .getOrNull 5]
    (.inr (.inl (by decide)))
  exact ⟨t, hr, hu⟩

end Operations

section Overflow

def insertRemove : List (Op ℕ ℕ) := [.updateOrInsert 1 11, .remove 1]

/-- Insert the key 0, insert and remove the key 1 until the next enumeration index is 0 again,
and insert three keys. -/
def wrapAround : List (Op ℕ ℕ) :=
  .updateOrInsert 0 10 :: insertRemove ++ (List.replicate (2 ^ 63 - 2) insertRemove).flatten ++
    [.updateOrInsert 1 11, .updateOrInsert 2 12, .updateOrInsert 3 13]

/-- The table during these calls, before each of them that inserts the key 1 again. -/
def wrapTable (next : BitVec 63) : HashTable ℕ ℕ 63 :=
  { numOccupied := 1, numDeleted := 1, nextEnumIndex := next,
    slots := [.occupied 0 (some 10) 0#63, .deleted, .unused, .unused, .unused] }

def rebuiltTable : HashTable ℕ ℕ 63 :=
  { numOccupied := 3, numDeleted := 0, nextEnumIndex := 3#63,
    slots := [.unused, .occupied 1 (some 11) 0#63, .occupied 2 (some 12) 1#63,
      .occupied 3 (some 13) 2#63] ++ List.replicate 7 .unused }

theorem run_append (T : KeyTraits κ) (it : IterTable)
    (t : HashTable κ ν W) (ops ops' : List (Op κ ν)) :
    run T it t (ops ++ ops') =
      (run T it t ops).bind fun r => (run T it r.1 ops').map fun r' => (r'.1, r.2 ++ r'.2) := by
  induction ops generalizing t with
  | nil => simp [run]
  | cons op ops ih =>
    simp only [cons_append, run, ih]
    cases step T it t op with
    | none => rfl
    | some r =>
      simp only [bind_some]
      cases run T it r.1 ops with
      | none => rfl
      | some rs =>
        simp only [bind_some, map_some]
        cases run T it rs.1 ops' <;> rfl

theorem run_insertRemove (next : BitVec 63) :
    run natTraits .enumIndex (wrapTable next) insertRemove
      = some (wrapTable (next + 1#63), [.flag false, .flag true]) := rfl

theorem run_rounds (n : ℕ) (next : BitVec 63) :
    ∃ rs, run natTraits .enumIndex (wrapTable next) (List.replicate n insertRemove).flatten
      = some (wrapTable (next + BitVec.ofNat 63 n), rs) := by
  induction n generalizing next with
  | zero => exact ⟨[], by simp [run]⟩
  | succ n ih =>
    obtain ⟨rs, hrs⟩ := ih (next + 1#63)
    refine ⟨[.flag false, .flag true] ++ rs, ?_⟩
    rw [replicate_succ, flatten_cons, run_append, run_insertRemove, bind_some, hrs,
      map_some, BitVec.add_assoc, ← BitVec.ofNat_add, Nat.add_comm 1 n]

theorem mapRun_append (T : KeyTraits κ) (M : κ → Option ν) (ops ops' : List (Op κ ν)) :
    (mapRun T M (ops ++ ops')).1 = (mapRun T (mapRun T M ops).1 ops').1 := by
  induction ops generalizing M with
  | nil => rfl
  | cons _ ops ih => exact ih _

theorem mapRun_rounds (n : ℕ) (M : ℕ → Option ℕ) :
    (mapRun natTraits M (List.replicate n insertRemove).flatten).1 0 = M 0 := by
  induction n generalizing M with
  | zero => rfl
  | succ n ih =>
    rw [replicate_succ, flatten_cons, mapRun_append, ih]
    rfl

/-- After `2 ^ 63` insertions the key 1 gets the index of the key 0.  The next rebuild keeps only
one of the two, and the key 0, which was never removed, is gone. -/
theorem wrapAround_loses_key :
    ∃ t rs, run natTraits .enumIndex (new 4 : HashTable ℕ ℕ 63) wrapAround = some (t, rs) ∧
      t.getOrNull natTraits 0 = some none ∧
      (mapRun natTraits (fun _ => none) wrapAround).1 0 = some 10 := by
  have hf : run natTraits .enumIndex (new 4 : HashTable ℕ ℕ 63)
      (.updateOrInsert 0 10 :: insertRemove)
        = some (wrapTable 2#63, [.flag false, .flag false, .flag true]) := rfl
  obtain ⟨rs, hr⟩ := run_rounds (2 ^ 63 - 2) 2#63
  have hn : 2#63 + BitVec.ofNat 63 (2 ^ 63 - 2) = 0#63 := by decide +kernel
  rw [hn] at hr
  -- the indices of the entries 0 and 1 are now both 0; the last call rebuilds the table
  have hl : run natTraits .enumIndex (wrapTable 0#63)
      [.updateOrInsert 1 11, .updateOrInsert 2 12, .updateOrInsert 3 13]
        = some (rebuiltTable, [.flag false, .flag false, .flag false]) := by
    decide +kernel
  refine ⟨rebuiltTable, [.flag false, .flag false, .flag true] ++ rs ++ [.flag false, .flag false,
    .flag false], ?_, by decide, ?_⟩
  · rw [wrapAround, run_append, run_append, hf, bind_some, hr, map_some,
      bind_some, hl, map_some]
  · have hk : ∀ M : ℕ → Option ℕ, (mapRun natTraits M
        [.updateOrInsert 1 11, .updateOrInsert 2 12, .updateOrInsert 3 13]).1 0 = M 0 :=
      fun _ => rfl
    rw [wrapAround, mapRun_append, mapRun_append, hk, mapRun_rounds]
    rfl

end Overflow

end HashTable

end DartSdk.Vm
