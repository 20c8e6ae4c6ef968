import Mathlib.Data.Int.Notation
import Mathlib.Data.List.Basic

/-!
# The ring of object ids

The service protocol names objects by ids.  An id is a serial number, which starts again at zero
below `max_serial_`, and the object of an id is in the slot that is the id modulo the capacity.

* `Inv.call`: every call keeps the slots and the flag in step with the ids that have been allocated;
* `run_ids`: **an id names its object while fewer than `capacity` ids are newer**; all others are
  expired.
-/

namespace DartSdk.Vm

inductive LookupResult
  | valid
  | invalid
  | collected
  | expired
  deriving DecidableEq

inductive IdPolicy
  | allocateId
  | reuseId
  deriving DecidableEq

def kInvalidId : ℤ := -1

/-- The null object is `none`. -/
structure ObjectIdRing (Obj : Type) where
  table : ℤ → Option Obj
  maxSerial : ℤ
  capacity : ℤ
  serialNum : ℤ
  wrapped : Bool

namespace ObjectIdRing

variable {Obj : Type}

/-- `SetCapacityAndMaxSerial` on a new ring. -/
def new (capacity maxSerial : ℤ) : ObjectIdRing Obj where
  table _ := none
  maxSerial := maxSerial - maxSerial % capacity
  capacity := capacity
  serialNum := 0
  wrapped := false

def nextSerial (ring : ObjectIdRing Obj) : ObjectIdRing Obj × ℤ :=
  let wraps : Bool := ring.maxSerial ≤ ring.serialNum + 1
  ({ ring with
      serialNum := if wraps then 0 else ring.serialNum + 1
      wrapped := wraps || ring.wrapped }, ring.serialNum)

def isValidContiguous (ring : ObjectIdRing Obj) (id : ℤ) : Bool :=
  if ring.serialNum ≤ id then false
  else (if ring.capacity ≤ ring.serialNum then ring.serialNum - ring.capacity else 0) ≤ id

/-- The flag is cleared as soon as the serial numbers are contiguous again. -/
def isValidId (ring : ObjectIdRing Obj) (id : ℤ) : ObjectIdRing Obj × Bool :=
  if id = kInvalidId then (ring, false)
  else if id < 0 then (ring, false)
  else if ring.maxSerial ≤ id then (ring, false)
  else if ring.wrapped then
    if ring.capacity ≤ ring.serialNum then
      ({ ring with wrapped := false }, { ring with wrapped := false }.isValidContiguous id)
    else if id < ring.serialNum then (ring, true)
    else
      let bottom := ring.maxSerial - (ring.capacity - ring.serialNum)
      (ring, bottom ≤ id ∧ bottom < ring.maxSerial)
  else (ring, ring.isValidContiguous id)

def indexOfId (ring : ObjectIdRing Obj) (id : ℤ) : ObjectIdRing Obj × ℤ :=
  let valid := ring.isValidId id
  (valid.1, if valid.2 then id % ring.capacity else kInvalidId)

def idOfIndex (ring : ObjectIdRing Obj) (index : ℤ) : ℤ :=
  if index < 0 then kInvalidId
  else if ring.capacity ≤ index then kInvalidId
  else if ring.wrapped then
    if index < ring.serialNum then index else ring.maxSerial - ring.capacity + index
  else if index < ring.serialNum then
    let splitPoint := ring.serialNum % ring.capacity
    if index < splitPoint then ring.serialNum - splitPoint + index
    else ring.serialNum - ring.capacity - splitPoint + index
  else kInvalidId

def allocateNewId (ring : ObjectIdRing Obj) (object : Obj) : ObjectIdRing Obj × ℤ :=
  let serial := ring.nextSerial
  let index := serial.1.indexOfId serial.2
  ({ index.1 with table := Function.update index.1.table index.2 (some object) }, serial.2)

def getObjectForId (ring : ObjectIdRing Obj) (id : ℤ) :
    ObjectIdRing Obj × LookupResult × Option Obj :=
  let index := ring.indexOfId id
  if index.2 = kInvalidId then (index.1, .expired, none)
  else
    match index.1.table index.2 with
    | none => (index.1, .collected, none)
    | some object => (index.1, .valid, some object)

variable [DecidableEq Obj]

def findExistingIdForObject (ring : ObjectIdRing Obj) (object : Obj) : ℤ :=
  match (List.range ring.capacity.toNat).find? fun i : ℕ => ring.table i = some object with
  | none => kInvalidId
  | some i => ring.idOfIndex i

def getIdForObject (ring : ObjectIdRing Obj) (object : Obj) : IdPolicy → ObjectIdRing Obj × ℤ
  | .allocateId => ring.allocateNewId object
  | .reuseId =>
    let id := ring.findExistingIdForObject object
    if id ≠ kInvalidId then (ring, id) else ring.allocateNewId object

end ObjectIdRing

open ObjectIdRing List Option Function

inductive RingCall (Obj : Type)
  | getIdForObject (object : Obj) (policy : IdPolicy)
  | getObjectForId (id : ℤ)

/-- A ring in use, with the ids that it has allocated, in order, and their objects. -/
structure RingSession (Obj : Type) where
  ring : ObjectIdRing Obj
  log : List (ℤ × Obj)

namespace RingSession

variable {Obj : Type}

/-- The id names the object: it is found, and its slot has it as its id. -/
def Resolves (s : RingSession Obj) (id : ℤ) (object : Obj) : Prop :=
  (s.ring.getObjectForId id).2 = (.valid, some object) ∧
    s.ring.idOfIndex (s.ring.indexOfId id).2 = id

variable [DecidableEq Obj]

def call (s : RingSession Obj) : RingCall Obj → RingSession Obj
  | .getIdForObject object policy =>
    { ring := (s.ring.getIdForObject object policy).1
      log :=
        if policy = .reuseId ∧ s.ring.findExistingIdForObject object ≠ kInvalidId then s.log
        else s.log ++ [((s.ring.getIdForObject object policy).2, object)] }
  | .getObjectForId id => { s with ring := (s.ring.getObjectForId id).1 }

def run (s : RingSession Obj) (calls : List (RingCall Obj)) : RingSession Obj := calls.foldl call s

def new (capacity maxSerial : ℤ) : RingSession Obj := ⟨.new capacity maxSerial, []⟩

end RingSession

section Ring

variable {Obj : Type} {ring : ObjectIdRing Obj} {i n : ℕ} {id m : ℤ}

theorem emod_before (hlt : i < n) (hle : n ≤ i + m) :
    (i : ℤ) % m = if (n : ℤ) % m < n - i then n % m - (n - i) + m else n % m - (n - i) := by
  have hd := Int.emod_add_mul_ediv n m
  have hn := Int.emod_nonneg n (show m ≠ 0 by omega)
  have hm := Int.emod_lt_of_pos n (show 0 < m by omega)
  split_ifs with h
  · refine ((Int.ediv_emod_unique (q := n / m - 1) (by omega)).mpr ⟨?_, by omega, by omega⟩).2
    rw [Int.mul_sub]
    omega
  · exact ((Int.ediv_emod_unique (q := n / m) (by omega)).mpr ⟨by omega, by omega, by omega⟩).2

theorem emod_eq_iff (hlt : i < n) (hle : n ≤ i + m) : (i : ℤ) % m = n % m ↔ n = i + m := by
  have := Int.emod_nonneg n (show m ≠ 0 by omega)
  have := Int.emod_lt_of_pos n (show 0 < m by omega)
  rw [emod_before hlt hle]
  split_ifs <;> omega

/-- The serial number counts the ids; the flag is set while the last ones span the wrap. -/
structure ObjectIdRing.Counts (ring : ObjectIdRing Obj) (n : ℕ) : Prop where
  pos : 0 < ring.capacity
  le : ring.capacity ≤ ring.maxSerial
  dvd : ring.capacity ∣ ring.maxSerial
  serial : ring.serialNum = n % ring.maxSerial
  after : ring.wrapped = true → ring.maxSerial ≤ n
  flag : ring.wrapped = false → ring.maxSerial ≤ n → ring.capacity ≤ ring.serialNum

theorem ObjectIdRing.Counts.bounds (h : ring.Counts n) : 0 ≤ ring.serialNum ∧
    ring.serialNum < ring.maxSerial ∧ (n < ring.maxSerial → ring.serialNum = n) := by
  have hp : 0 < ring.maxSerial := Int.lt_of_lt_of_le h.pos h.le
  rw [h.serial]
  exact ⟨Int.emod_nonneg _ (by omega), Int.emod_lt_of_pos _ hp, Int.emod_eq_of_lt (by omega)⟩

theorem isValidId_range (ring : ObjectIdRing Obj) (id : ℤ) :
    (ring.isValidId id).2 ↔ 0 ≤ id ∧ id < ring.maxSerial ∧
      (id < ring.serialNum ∧ ring.serialNum ≤ id + ring.capacity ∨
        ring.wrapped = true ∧ ring.serialNum < ring.capacity ∧
          ring.serialNum + ring.maxSerial ≤ id + ring.capacity) := by
  simp only [isValidId, isValidContiguous, kInvalidId]
  split_ifs <;> simp_all <;> omega

theorem isValidId_iff (h : ring.Counts n) (id : ℤ) : (ring.isValidId id).2 ↔
    ∃ i : ℕ, i < n ∧ n ≤ i + ring.capacity ∧ i % ring.maxSerial = id := by
  obtain ⟨hnn, hlt, hfr⟩ := h.bounds
  obtain ⟨hp, hle, -, hs, ha, hf⟩ := h
  rw [isValidId_range]
  constructor
  · rintro ⟨hid, hidm, ⟨h1, h2⟩ | ⟨hw, h1, h2⟩⟩
    · refine ⟨(n - (ring.serialNum - id)).toNat, by omega, by omega, ?_⟩
      rw [emod_before (n := n) (by omega) (by omega), ← hs]
      split_ifs <;> omega
    · have := ha hw
      refine ⟨(n - (ring.serialNum - id + ring.maxSerial)).toNat, by omega, by omega, ?_⟩
      rw [emod_before (n := n) (by omega) (by omega), ← hs]
      split_ifs <;> omega
  · rintro ⟨i, hi, hn, rfl⟩
    rw [emod_before hi (by omega), ← hs]
    split_ifs with h
    · cases hw : ring.wrapped with
      | false =>
        have := hf hw
        omega
      | true =>
        have := ha hw
        exact ⟨by omega, by omega, .inr ⟨rfl, by omega, by omega⟩⟩
    · exact ⟨by omega, by omega, .inl ⟨by omega, by omega⟩⟩

/-- The flag is cleared when it is out of date, by a number in the range of the serial numbers. -/
theorem isValidId_ring (hid : ring.wrapped → ring.capacity ≤ ring.serialNum →
    0 ≤ id ∧ id < ring.maxSerial) : (ring.isValidId id).1 =
      { ring with wrapped := ring.wrapped && decide (ring.serialNum < ring.capacity) } := by
  cases ring with
  | mk table maxSerial capacity serialNum wrapped =>
    dsimp only at hid
    simp only [isValidId, kInvalidId]
    by_cases hold : wrapped ∧ capacity ≤ serialNum
    · have := hid hold.1 hold.2
      rw [if_neg (by omega), if_neg (by omega), if_neg (by omega), if_pos hold.1, if_pos hold.2]
      simp [hold.2]
    · split_ifs <;> simp_all

theorem nextSerial_counts (h : ring.Counts n) : ring.nextSerial.1.Counts (n + 1) := by
  obtain ⟨hnn, hlt, hfr⟩ := h.bounds
  obtain ⟨hp, hle, hd, hs, ha, hf⟩ := h
  have hb : (n : ℤ) % ring.maxSerial = _ := emod_before (n := n + 1) (by omega) (by omega)
  have hnn' := Int.emod_nonneg (n + 1 : ℕ) (show ring.maxSerial ≠ 0 by omega)
  have hlt' := Int.emod_lt_of_pos (n + 1 : ℕ) (show 0 < ring.maxSerial by omega)
  rw [← hs] at hb
  refine ⟨hp, hle, hd, ?_, fun hw => ?_, fun hw hn => ?_⟩
  · simp only [nextSerial, decide_eq_true_eq]
    split_ifs at hb ⊢ <;> omega
  · simp only [nextSerial, Bool.or_eq_true, decide_eq_true_eq] at hw ⊢
    rcases hw with hw | hw
    · omega
    · have := ha hw
      omega
  · simp only [nextSerial, Bool.or_eq_false_iff, decide_eq_false_iff_not,
      decide_eq_true_eq] at hw hn ⊢
    have := hf hw.2
    rw [if_neg hw.1]
    omega

theorem idOfIndex_slot (h : ring.Counts n)
    (he : ring.wrapped → ring.serialNum < ring.capacity) (hi : i < n)
    (hn : n ≤ i + ring.capacity) :
    ring.idOfIndex (i % ring.capacity) = i % ring.maxSerial := by
  obtain ⟨hnn, hlt, hfr⟩ := h.bounds
  obtain ⟨hp, hle, hd, hs, ha, hf⟩ := h
  have hsl : (n : ℤ) % ring.capacity = ring.serialNum % ring.capacity := by
    rw [hs, Int.emod_emod_of_dvd _ hd]
  have hsp := Int.emod_nonneg ring.serialNum (show ring.capacity ≠ 0 by omega)
  have hst := Int.emod_lt_of_pos ring.serialNum hp
  have hsm : ring.serialNum < ring.capacity → ring.serialNum % ring.capacity = ring.serialNum :=
    Int.emod_eq_of_lt hnn
  rw [emod_before hi hn, emod_before hi (by omega), ← hs, hsl]
  dsimp only [idOfIndex]
  cases hw : ring.wrapped with
  | false =>
    have hf := hf hw
    rw [if_neg Bool.false_ne_true]
    split_ifs <;> omega
  | true =>
    have ha := ha hw
    have he := he hw
    rw [if_pos rfl]
    split_ifs <;> omega

end Ring

namespace RingSession

variable {Obj : Type} {s : RingSession Obj} {c id : ℤ} {object : Obj}

/-- The slots hold the objects of the last ids. -/
structure Inv (capacity : ℤ) (s : RingSession Obj) : Prop where
  capacity : s.ring.capacity = capacity
  counts : s.ring.Counts s.log.length
  exact : s.ring.wrapped = true → s.ring.serialNum < s.ring.capacity
  ids : ∀ (i : ℕ) entry, s.log[i]? = some entry → entry.1 = i % s.ring.maxSerial
  table : ∀ slot object, s.ring.table slot = some object ↔ ∃ i : ℕ, i % s.ring.capacity = slot ∧
    s.log.length ≤ i + s.ring.capacity ∧ s.log[i]?.map Prod.snd = some object

theorem inv_new {capacity maxSerial : ℤ} (hc : 0 < capacity) (hm : capacity ≤ maxSerial) :
    (new capacity maxSerial : RingSession Obj).Inv capacity := by
  have hlt := Int.emod_lt_of_pos maxSerial hc
  have hd : capacity ∣ maxSerial - maxSerial % capacity := Int.dvd_self_sub_emod
  have hle := Int.le_of_dvd (by omega) hd
  refine ⟨rfl, ⟨hc, hle, hd, rfl, nofun, fun _ h => ?_⟩, nofun, by simp [new],
    by simp [new, ObjectIdRing.new]⟩
  exact absurd h (by simp [new, ObjectIdRing.new]; omega)

theorem getElem?_concat {α : Type} (l : List α) (e : α) (i : ℕ) :
    (l ++ [e])[i]? = if i = l.length then some e else l[i]? := by
  grind

variable (h : s.Inv c)

include h

theorem Inv.indexOfId_ring (id : ℤ) : (s.ring.indexOfId id).1 = s.ring := by
  refine (isValidId_ring fun hw hc => absurd (h.exact hw) (by omega)).trans ?_
  have hf : (s.ring.wrapped && decide (s.ring.serialNum < s.ring.capacity)) = s.ring.wrapped := by
    simpa using h.exact
  rw [hf]

theorem Inv.resolves {i : ℕ} (hl : s.log[i]? = some (id, object))
    (hi : s.log.length ≤ i + c) : s.Resolves id object := by
  rw [← h.capacity] at hi
  have hlt : i < s.log.length := (List.getElem?_eq_some_iff.mp hl).1
  have hid : id = i % s.ring.maxSerial := h.ids i _ hl
  have hs : id % s.ring.capacity = i % s.ring.capacity := by
    rw [hid, Int.emod_emod_of_dvd _ h.counts.dvd]
  have hin : (s.ring.indexOfId id).2 = i % s.ring.capacity := by
    rw [indexOfId, ← hs]
    exact if_pos ((isValidId_iff h.counts id).mpr ⟨i, hlt, hi, hid.symm⟩)
  have hn := Int.emod_nonneg i (Int.ne_of_gt h.counts.pos)
  have ht := (h.table (i % s.ring.capacity) object).mpr ⟨i, rfl, hi, by rw [hl]; rfl⟩
  constructor
  · rw [getObjectForId, h.indexOfId_ring, hin, if_neg (by rw [kInvalidId]; omega), ht]
  · rw [hin, idOfIndex_slot h.counts h.exact hlt hi, hid]

theorem Inv.expired (hn : ∀ (i : ℕ) object, s.log[i]? = some (id, object) → i + c < s.log.length) :
    (s.ring.getObjectForId id).2 = (.expired, none) := by
  have hv : (s.ring.isValidId id).2 = false := by
    rw [← Bool.not_eq_true, isValidId_iff h.counts]
    rintro ⟨i, hlt, hi, hid⟩
    have hl := getElem?_eq_getElem hlt
    rw [h.capacity] at hi
    have := hn i s.log[i].2 (by rw [hl, ← hid, ← h.ids i _ hl])
    omega
  simp [getObjectForId, indexOfId, hv]

theorem Inv.lookup (id : ℤ) : (s.ring.getObjectForId id).1 = s.ring := by
  rw [getObjectForId, h.indexOfId_ring]
  split
  · rfl
  · split <;> rfl

theorem Inv.table_allocate (id slot : ℤ) (object x : Obj) :
    update s.ring.table (s.log.length % s.ring.capacity) (some object) slot = some x ↔
      ∃ i : ℕ, i % s.ring.capacity = slot ∧ s.log.length + 1 ≤ i + s.ring.capacity ∧
        (s.log ++ [(id, object)])[i]?.map Prod.snd = some x := by
  have hp := h.counts.pos
  have hlt {i : ℕ} (hl : s.log[i]?.map Prod.snd = some x) : i < s.log.length := by
    by_contra hi
    simp [getElem?_eq_none (Nat.le_of_not_lt hi)] at hl
  simp only [getElem?_concat, update_apply]
  constructor
  · split_ifs with hs
    · rintro ⟨⟩
      exact ⟨s.log.length, hs.symm, by omega, by rw [if_pos rfl]; rfl⟩
    · intro hx
      obtain ⟨i, rfl, hn, hl⟩ := (h.table slot x).mp hx
      have := mt (emod_eq_iff (hlt hl) hn).mpr hs
      exact ⟨i, rfl, by omega, by rw [if_neg (Nat.ne_of_lt (hlt hl))]; exact hl⟩
  · rintro ⟨i, rfl, hn, hl⟩
    split_ifs at hl with hi
    · rw [hi, if_pos rfl]
      exact hl
    · have := emod_eq_iff (hlt hl) (show s.log.length ≤ i + s.ring.capacity by omega)
      rw [if_neg (by omega)]
      exact (h.table _ x).mpr ⟨i, rfl, by omega, hl⟩

theorem Inv.allocate (object : Obj) :
    (⟨(s.ring.allocateNewId object).1, s.log ++ [((s.ring.allocateNewId object).2, object)]⟩ :
      RingSession Obj).Inv c := by
  have hcn := nextSerial_counts h.counts
  obtain ⟨hnn, hlt, -⟩ := h.counts.bounds
  have hid : s.ring.nextSerial.2 = s.log.length % s.ring.maxSerial := h.counts.serial
  have hv : (s.ring.nextSerial.1.isValidId s.ring.nextSerial.2).2 := by
    rw [isValidId_iff hcn]
    exact ⟨s.log.length, by omega, by have := hcn.pos; omega, hid.symm⟩
  have hr : (s.ring.nextSerial.1.isValidId s.ring.nextSerial.2).1 = _ :=
    isValidId_ring fun _ _ => ⟨hnn, hlt⟩
  have hs : s.ring.nextSerial.2 % s.ring.nextSerial.1.capacity =
      s.log.length % s.ring.capacity := by
    rw [hid]
    exact Int.emod_emod_of_dvd _ h.counts.dvd
  rw [allocateNewId]
  dsimp only [indexOfId]
  rw [hr, if_pos hv, hs, hid]
  refine ⟨h.capacity, ⟨hcn.pos, hcn.le, hcn.dvd, ?_, fun hw => ?_, fun hw hn => ?_⟩,
    fun hw => ?_, fun i entry he => ?_, fun slot x => ?_⟩
  all_goals dsimp only at *
  · simpa using hcn.serial
  · simpa using hcn.after (Bool.and_eq_true_iff.mp hw).1
  · by_contra hc
    rw [decide_eq_true (by omega), Bool.and_true] at hw
    exact hc (hcn.flag hw (by simpa using hn))
  · exact of_decide_eq_true (Bool.and_eq_true_iff.mp hw).2
  · rw [getElem?_concat] at he
    split_ifs at he with hi
    · rw [← some.inj he, hi]
      rfl
    · exact h.ids i entry he
  · rw [length_append, length_singleton, Int.natCast_succ]
    exact h.table_allocate _ slot object x

variable [DecidableEq Obj]

theorem Inv.found (hf : s.ring.findExistingIdForObject object ≠ kInvalidId) :
    ∃ i : ℕ, s.log[i]? = some (s.ring.findExistingIdForObject object, object) ∧
      s.log.length ≤ i + c := by
  unfold findExistingIdForObject at hf ⊢
  split at hf
  · exact absurd rfl hf
  next slot hfn =>
    have ht : s.ring.table slot = some object := by simpa using find?_some hfn
    obtain ⟨i, hs, hi, hl⟩ := (h.table slot object).mp ht
    obtain ⟨entry, he, ho⟩ := map_eq_some_iff.mp hl
    have hlt := (List.getElem?_eq_some_iff.mp he).1
    refine ⟨i, ?_, h.capacity ▸ hi⟩
    rw [he, ← hs, idOfIndex_slot h.counts h.exact hlt hi, ← h.ids i entry he, ← ho]

/-- **One call**: the invariant stays, and the id that is returned is a recent id of the object. -/
theorem Inv.getId (object : Obj) (policy : IdPolicy) :
    (s.call (.getIdForObject object policy)).Inv c ∧
      s.log <+: (s.call (.getIdForObject object policy)).log ∧ ∃ i : ℕ,
        (s.call (.getIdForObject object policy)).log[i]? =
          some ((s.ring.getIdForObject object policy).2, object) ∧
        (s.call (.getIdForObject object policy)).log.length ≤ i + c := by
  have hn : ((s.log ++ [((s.ring.allocateNewId object).2, object)]).length : ℤ) ≤
      s.log.length + c := by
    have := h.counts.pos
    rw [h.capacity] at this
    simp
    omega
  by_cases hf : policy = .reuseId ∧ s.ring.findExistingIdForObject object ≠ kInvalidId
  · obtain ⟨rfl, hf⟩ := hf
    simpa [call, getIdForObject, hf] using ⟨h, h.found hf⟩
  have hid : s.ring.getIdForObject object policy = s.ring.allocateNewId object := by
    cases policy with
    | allocateId => rfl
    | reuseId => exact if_neg (by simpa using hf)
  rw [call, if_neg hf, hid]
  exact ⟨h.allocate object, prefix_append _ _, s.log.length, by simp, hn⟩

theorem Inv.call (request : RingCall Obj) :
    (s.call request).Inv c ∧ s.log <+: (s.call request).log := by
  cases request with
  | getIdForObject object policy => exact ⟨(h.getId object policy).1, (h.getId object policy).2.1⟩
  | getObjectForId id =>
    rw [RingSession.call, h.lookup]
    exact ⟨h, prefix_rfl⟩

theorem Inv.run (calls : List (RingCall Obj)) :
    (s.run calls).Inv c ∧ s.log <+: (s.run calls).log := by
  induction calls generalizing s with
  | nil => exact ⟨h, prefix_rfl⟩
  | cons request calls ih =>
    obtain ⟨hi, hl⟩ := h.call request
    exact ⟨(ih hi).1, hl.trans (ih hi).2⟩

omit h

/-- **An id names its object while fewer than `capacity` ids are newer**, and an id that is not one
of the last `capacity` ids is expired: at any point of any run. -/
theorem run_ids {capacity maxSerial : ℤ} (hc : 0 < capacity) (hm : capacity ≤ maxSerial)
    (calls later : List (RingCall Obj)) (object : Obj) (policy : IdPolicy) :
    let s := (new capacity maxSerial).run calls
    let t := s.call (.getIdForObject object policy)
    let id := (s.ring.getIdForObject object policy).2
    (∃ i : ℕ, t.log[i]? = some (id, object) ∧ t.log.length - (i + 1) < capacity ∧
      t.log <+: (t.run later).log ∧
      ((t.run later).log.length - (i + 1) < capacity → (t.run later).Resolves id object)) ∧
      ∀ id, (∀ (i : ℕ) object, s.log[i]? = some (id, object) → capacity ≤ s.log.length - (i + 1)) →
        (s.ring.getObjectForId id).2 = (.expired, none) := by
  intro s t id
  have hin : s.Inv capacity := ((inv_new hc hm).run calls).1
  obtain ⟨(ht : t.Inv capacity), -, i, hl, (hi : t.log.length ≤ i + capacity)⟩ :=
    hin.getId object policy
  obtain ⟨hlt, hg⟩ := ht.run later
  refine ⟨⟨i, hl, by omega, hg, fun hr => hlt.resolves (i := i) ?_ (by omega)⟩,
    fun id hold => hin.expired fun i object hl => ?_⟩
  · obtain ⟨newest, hn⟩ := hg
    rw [← hn, getElem?_append_left (List.getElem?_eq_some_iff.mp hl).1]
    exact hl
  · have := hold i object hl
    omega

/-- The serial numbers start again with the fifth id: 0 names the fifth object now, and 3, of the
fourth, is expired. -/
theorem run_ids_wrapped :
    let s := (new 2 5).run ([7, 8, 9, 10, 11, 12].map (.getIdForObject · .allocateId))
    s.Resolves 0 11 ∧ (s.ring.getObjectForId 3).2 = (.expired, none) := by
  intro s
  have hf : (((new 2 5).run ([7, 8, 9, 10].map (.getIdForObject · .allocateId))).call
      (.getIdForObject 11 .allocateId)).log = [(0, 7), (1, 8), (2, 9), (3, 10), (0, 11)] := by decide
  have ha : s.log = [(0, 7), (1, 8), (2, 9), (3, 10), (0, 11), (1, 12)] := by decide
  constructor
  · obtain ⟨i, hi, -, -, hr⟩ := (run_ids (by decide : (0 : ℤ) < 2) (by decide : (2 : ℤ) ≤ 5)
      ([7, 8, 9, 10].map (.getIdForObject · .allocateId)) [.getIdForObject 12 .allocateId] 11
      .allocateId).1
    obtain rfl : i = 4 := by
      rw [hf] at hi
      rcases i with _ | _ | _ | _ | _ | i <;> simp at hi ⊢
    exact hr (by decide)
  · refine (run_ids (by decide : (0 : ℤ) < 2) (by decide : (2 : ℤ) ≤ 5) _ [] 7 .reuseId).2 3 ?_
    intro i object hl
    show 2 ≤ (s.log.length : ℤ) - (i + 1)
    have hl' : s.log[i]? = some (3, object) := hl
    rw [ha] at hl' ⊢
    rcases i with _ | _ | _ | _ | _ | _ | i <;> simp at hl' ⊢

end RingSession

end DartSdk.Vm
