import DartSdk.Lib.Entries
import DartSdk.Lib.Probing
import Mathlib.Data.List.Nodup
import Mathlib.Data.List.Perm.Basic
import Mathlib.Data.Nat.Bitwise

/-!
# The megamorphic cache

`MegamorphicCache` finds the target of a call by the class id of its receiver.  The buckets are
probed linearly from the class id; an entry that is not filled has the illegal class id and the miss
handler.  The lookup is the one of the machine code, from `StubCode::EmitMegamorphicLookup`.

* `insert_spec`, `ensureCapacity_spec`: what the calls do to what has been inserted;
* `insertAll_lookup`: **the cache is a finite map**, however often it grows.

Class ids are small, so the comparison with the load limit is exact.
-/

namespace DartSdk.Vm

open List Option DartSdk.Probing

/-- Each bucket holds a class id and a target. -/
structure MegamorphicCache (Target : Type) where
  buckets : List (ℕ × Target)
  mask : ℕ
  filledEntryCount : ℕ

namespace MegamorphicCache

variable {Target : Type} (handler : Target)

section Model

def kInitialCapacity : ℕ := 16

def kIllegalCid : ℕ := 0

def empty (capacity : ℕ) : MegamorphicCache Target where
  buckets := replicate capacity (kIllegalCid, handler)
  mask := capacity - 1
  filledEntryCount := 0

def new : MegamorphicCache Target := empty handler kInitialCapacity

variable (c : MegamorphicCache Target) (classId : ℕ) (target : Target)

def getEntry (i : ℕ) : ℕ × Target := c.buckets.getD i (kIllegalCid, handler)

def setEntry (i : ℕ) : MegamorphicCache Target :=
  { c with
    buckets := c.buckets.set i (classId, target)
    filledEntryCount := c.filledEntryCount + 1 }

/-- The loop of `Insert`; `none` is `UNREACHABLE()`. -/
def insertLoop (index : ℕ) : ℕ → ℕ → Option (MegamorphicCache Target)
  | 0, _ => none
  | fuel + 1, i =>
    if (c.getEntry handler i).1 = kIllegalCid then some (c.setEntry classId target i)
    else if (i + 1) &&& c.mask = index then none
    else insertLoop index fuel ((i + 1) &&& c.mask)

/-- `Insert`; `none` if the assertion on the load fails. -/
def insert : Option (MegamorphicCache Target) :=
  if 4 * (c.filledEntryCount + 1) ≤ 3 * (c.mask + 1) then
    insertLoop handler c classId target (classId &&& c.mask) (c.mask + 1) (classId &&& c.mask)
  else none

/-- The loop of `EnsureCapacity` over the old buckets. -/
def rehash (c : MegamorphicCache Target) : List (ℕ × Target) → Option (MegamorphicCache Target)
  | [] => some c
  | entry :: old =>
    if entry.1 = kIllegalCid then rehash c old
    else (c.insert handler entry.1 entry.2).bind fun c => rehash c old

def ensureCapacity : Option (MegamorphicCache Target) :=
  if 3 * (c.mask + 1) < 4 * (c.filledEntryCount + 1) then
    rehash handler (empty handler ((c.mask + 1) * 2)) c.buckets
  else some c

/-- The loop of the lookup: the entry with the target that is called. -/
def lookupLoop : ℕ → ℕ → Option (ℕ × Target)
  | 0, _ => none
  | fuel + 1, i =>
    let entry := c.getEntry handler (i &&& c.mask)
    if entry.1 = kIllegalCid ∨ entry.1 = classId then some entry
    else lookupLoop fuel ((i &&& c.mask) + 1)

def lookup : Option (ℕ × Target) := lookupLoop handler c classId (c.mask + 1) classId

/-- Class ids are inserted with their targets, each after `EnsureCapacity`. -/
def insertAll (c : MegamorphicCache Target) : List (ℕ × Target) → Option (MegamorphicCache Target)
  | [] => some c
  | entry :: entries => do
    let c ← c.ensureCapacity handler
    let c ← c.insert handler entry.1 entry.2
    insertAll c entries

end Model

def filled (entries : List (ℕ × Target)) : List (ℕ × Target) :=
  entries.filter fun entry => entry.1 ≠ kIllegalCid

abbrev Free (c : MegamorphicCache Target) (i : ℕ) : Prop := (c.getEntry handler i).1 = kIllegalCid

/-- **The cache holds these entries**, where a search finds them. -/
structure Holds (c : MegamorphicCache Target) (entries : List (ℕ × Target)) : Prop where
  capacity : ∃ k, c.mask + 1 = 2 ^ (k + 1)
  length : c.buckets.length = c.mask + 1
  count : c.filledEntryCount = entries.length
  perm : filled c.buckets ~ entries
  target : ∀ entry ∈ c.buckets, entry.1 = kIllegalCid → entry.2 = handler
  reaches : ∀ i < c.mask + 1, ¬c.Free handler i →
    Reaches (c.Free handler) (c.mask + 1) (c.getEntry handler i).1 i

variable {handler} {c : MegamorphicCache Target} {entries entries' : List (ℕ × Target)}
  {classId D d fuel i : ℕ}

theorem getEntry_eq (hi : i < c.buckets.length) : c.getEntry handler i = c.buckets[i] :=
  getD_eq_getElem _ _ hi

theorem holds_empty (k : ℕ) : Holds handler (empty handler (2 ^ (k + 1))) [] := by
  have hm : (empty handler (2 ^ (k + 1))).mask + 1 = 2 ^ (k + 1) :=
    Nat.sub_add_cancel (Nat.two_pow_pos _)
  have hl : (empty handler (2 ^ (k + 1))).buckets.length = 2 ^ (k + 1) := length_replicate
  refine ⟨⟨k, hm⟩, hl.trans hm.symm, rfl, ?_, ?_, ?_⟩
  · rw [filled, empty, filter_replicate_of_neg (by simp)]
  · intro entry he _
    rw [eq_of_mem_replicate he]
  · intro i hi hf
    have hlt := (hi.trans_eq hm).trans_eq hl.symm
    refine absurd ?_ hf
    rw [Free, getEntry_eq hlt, eq_of_mem_replicate (getElem_mem hlt)]

namespace Holds

variable (h : Holds handler c entries)

include h

theorem of_perm (hp : entries ~ entries') : Holds handler c entries' :=
  ⟨h.capacity, h.length, h.count.trans hp.length_eq, h.perm.trans hp, h.target, h.reaches⟩

theorem and_mask (i : ℕ) : i &&& c.mask = i % (c.mask + 1) := by
  obtain ⟨k, hk⟩ := h.capacity
  have hm : c.mask = 2 ^ (k + 1) - 1 := by omega
  rw [hk, hm, Nat.and_two_pow_sub_one_eq_mod]

theorem mem_iff {entry : ℕ × Target} :
    entry ∈ entries ↔ entry ∈ c.buckets ∧ entry.1 ≠ kIllegalCid := by
  rw [← h.perm.mem_iff, filled, mem_filter, decide_eq_true_eq]

theorem probe_lt_length : probe (c.mask + 1) classId D < c.buckets.length := by
  rw [h.length]
  exact probe_lt (Nat.succ_pos _) ..

theorem exists_free (hld : entries.length < c.mask + 1) : ∃ i < c.mask + 1, c.Free handler i := by
  by_contra hfull
  have ha : filled c.buckets = c.buckets := by
    refine filter_eq_self.mpr fun entry he => decide_eq_true fun hf => ?_
    obtain ⟨i, hi, rfl⟩ := getElem_of_mem he
    exact hfull ⟨i, hi.trans_eq h.length, by rwa [Free, getEntry_eq hi]⟩
  have hl := h.perm.length_eq
  rw [ha, h.length] at hl
  omega

/-- A free entry is filled, where the search for the class id gets to it. -/
theorem setEntry (hi : i < c.buckets.length) (hfr : c.Free handler i)
    (hr : Reaches (c.Free handler) (c.mask + 1) classId i) (hid : classId ≠ kIllegalCid)
    (target : Target) :
    Holds handler (c.setEntry classId target i) ((classId, target) :: entries) := by
  have he (j : ℕ) : (c.setEntry classId target i).getEntry handler j =
      if i = j then (classId, target) else c.getEntry handler j := Entries.getD_set hi _ _ j
  have hm (j : ℕ) (hj : (c.setEntry classId target i).Free handler j) : c.Free handler j := by
    rw [Free, he] at hj
    split_ifs at hj
    · exact absurd hj hid
    · exact hj
  refine ⟨h.capacity, length_set.trans h.length, congrArg (· + 1) h.count, ?_, ?_, ?_⟩
  · rw [Free, getEntry_eq hi] at hfr
    have ho := (getElem_cons_eraseIdx_perm hi).filter fun entry => entry.1 ≠ kIllegalCid
    have hn := (set_perm_cons_eraseIdx hi (classId, target)).filter fun entry =>
      entry.1 ≠ kIllegalCid
    rw [filter_cons_of_neg (by simp [hfr])] at ho
    rw [filter_cons_of_pos (by simp [hid])] at hn
    exact hn.trans ((ho.trans h.perm).cons _)
  · intro entry hmm hil
    rcases mem_or_eq_of_mem_set hmm with hmm | rfl
    · exact h.target entry hmm hil
    · exact absurd hil hid
  · intro j hj hf
    rw [Free, he] at hf
    rw [he]
    split_ifs at hf ⊢ with hji
    · exact hji ▸ hr.mono hm
    · exact (h.reaches j hj hf).mono hm

theorem insertLoop_eq (hD : FirstFree (c.Free handler) (c.mask + 1) classId D) (hd : d ≤ D)
    (hf : D - d < fuel) (target : Target) :
    insertLoop handler c classId target (classId % (c.mask + 1)) fuel
        (probe (c.mask + 1) classId d) =
      some (c.setEntry classId target (probe (c.mask + 1) classId D)) := by
  induction fuel generalizing d with
  | zero => omega
  | succ fuel ih =>
    rw [insertLoop]
    rcases Nat.lt_or_eq_of_le hd with hlt | rfl
    · have hb : probe (c.mask + 1) classId (d + 1) ≠ classId % (c.mask + 1) := by
        intro hb
        have hm := Nat.sub_mod_eq_zero_of_mod_eq hb
        have := hD.lt
        rw [Nat.add_sub_cancel_left, Nat.mod_eq_of_lt (by omega)] at hm
        omega
      rw [if_neg (hD.before d hlt), h.and_mask, probe_succ, if_neg hb]
      exact ih hlt (by omega)
    · exact if_pos hD.free_at

theorem insert_spec (hid : classId ≠ kIllegalCid)
    (hl : 4 * (entries.length + 1) ≤ 3 * (c.mask + 1)) (target : Target) :
    ∃ c', c.insert handler classId target = some c' ∧ c'.mask = c.mask ∧
      Holds handler c' ((classId, target) :: entries) := by
  obtain ⟨D, hD⟩ := exists_firstFree classId (h.exists_free (by omega))
  refine ⟨c.setEntry classId target (probe (c.mask + 1) classId D), ?_, rfl,
    h.setEntry h.probe_lt_length hD.free_at (hD.reaches (Nat.le_refl D)) hid target⟩
  rw [insert, if_pos (by rwa [h.count]), h.and_mask]
  exact h.insertLoop_eq hD (Nat.zero_le D) hD.lt target

theorem rehash_spec (old : List (ℕ × Target))
    (hl : 4 * ((filled old).length + entries.length) ≤ 3 * (c.mask + 1)) :
    ∃ c', rehash handler c old = some c' ∧ c'.mask = c.mask ∧
      Holds handler c' (filled old ++ entries) := by
  induction old generalizing c entries with
  | nil => exact ⟨c, rfl, rfl, h⟩
  | cons entry old ih =>
    rw [rehash]
    by_cases hid : entry.1 = kIllegalCid
    · have hs : filled (entry :: old) = filled old := filter_cons_of_neg (by simp [hid])
      rw [hs] at hl ⊢
      rw [if_pos hid]
      exact ih h hl
    · have hk : filled (entry :: old) = entry :: filled old := filter_cons_of_pos (by simp [hid])
      rw [hk] at hl ⊢
      rw [length_cons] at hl
      obtain ⟨c', hi, hm, h'⟩ := h.insert_spec hid (by omega) entry.2
      obtain ⟨c'', hr, hm', h''⟩ := ih h' (by rw [length_cons, hm]; omega)
      rw [if_neg hid, hi]
      exact ⟨c'', hr, hm'.trans hm, h''.of_perm perm_middle⟩

theorem ensureCapacity_spec : ∃ c', c.ensureCapacity handler = some c' ∧
    Holds handler c' entries ∧ 4 * (entries.length + 1) ≤ 3 * (c'.mask + 1) := by
  rw [ensureCapacity, h.count]
  split_ifs with hf
  · obtain ⟨k, hk⟩ := h.capacity
    have hl : entries.length ≤ c.mask + 1 := by
      rw [← h.perm.length_eq, ← h.length]
      exact length_filter_le ..
    have hp : 0 < 2 ^ k := Nat.two_pow_pos k
    have hm : (empty handler ((c.mask + 1) * 2)).mask + 1 = (c.mask + 1) * 2 :=
      Nat.sub_add_cancel (by omega)
    have he : Holds handler (empty handler (2 ^ (k + 1 + 1))) [] := holds_empty (k + 1)
    rw [Nat.pow_succ, ← hk] at he
    rw [Nat.pow_succ] at hk
    obtain ⟨c', hr, hm', h'⟩ := he.rehash_spec c.buckets (by
      rw [hm, h.perm.length_eq, length_nil]
      omega)
    rw [append_nil] at h'
    exact ⟨c', hr, h'.of_perm h.perm, by omega⟩
  · exact ⟨c, rfl, h, by omega⟩

/-- The loop of the lookup gets to the first entry that is free or has the class id. -/
theorem lookupLoop_eq (hD : FirstFree
      (fun i => c.Free handler i ∨ (c.getEntry handler i).1 = classId) (c.mask + 1) classId D)
    (hd : d ≤ D) (hi : i % (c.mask + 1) = probe (c.mask + 1) classId d) (hf : D - d < fuel) :
    lookupLoop handler c classId fuel i =
      some (c.getEntry handler (probe (c.mask + 1) classId D)) := by
  induction fuel generalizing d i with
  | zero => omega
  | succ fuel ih =>
    rw [lookupLoop, h.and_mask, hi]
    rcases Nat.lt_or_eq_of_le hd with hlt | rfl
    · exact (if_neg (hD.before d hlt)).trans (ih hlt (probe_succ ..) (by omega))
    · exact if_pos hD.free_at

/-- **A lookup** finds what has been inserted, and an empty entry otherwise. -/
theorem lookup_spec (hld : entries.length < c.mask + 1) (hd : (entries.map Prod.fst).Nodup) :
    (∀ entry ∈ entries, c.lookup handler entry.1 = some entry) ∧
      ∀ classId ∉ entries.map Prod.fst, c.lookup handler classId = some (kIllegalCid, handler) := by
  have hfn (classId : ℕ) : ∃ found ∈ c.buckets, c.lookup handler classId = some found ∧
      (found.1 ≠ classId → found.1 = kIllegalCid ∧ ∀ entry ∈ entries, entry.1 ≠ classId) := by
    have hs : ∃ i < c.mask + 1, c.Free handler i ∨ (c.getEntry handler i).1 = classId :=
      (h.exists_free hld).imp fun i hi => ⟨hi.1, .inl hi.2⟩
    obtain ⟨D, hD⟩ := exists_firstFree classId hs
    refine ⟨_, ?_, h.lookupLoop_eq hD (Nat.zero_le D) rfl hD.lt, fun ho => ?_⟩
    · rw [getEntry_eq h.probe_lt_length]
      exact getElem_mem _
    have hil := hD.free_at.resolve_right ho
    refine ⟨hil, fun entry he hid => ?_⟩
    obtain ⟨hm, hf⟩ := h.mem_iff.mp he
    obtain ⟨j, hj, rfl⟩ := getElem_of_mem hm
    rw [← @getEntry_eq _ handler c j hj] at hid hf
    have hr := h.reaches j (hj.trans_eq h.length) hf
    rw [hid] at hr
    exact hD.not_found hil hr hf hid
  constructor
  · intro entry he
    obtain ⟨found, hm, hl, ho⟩ := hfn entry.1
    have hid : found.1 = entry.1 := by
      by_contra hne
      exact (ho hne).2 entry he rfl
    have hfd := h.mem_iff.mpr ⟨hm, hid ▸ (h.mem_iff.mp he).2⟩
    rw [hl, inj_on_of_nodup_map hd hfd he hid]
  · intro classId ha
    obtain ⟨found, hm, hl, ho⟩ := hfn classId
    have hil : found.1 = kIllegalCid := by
      by_contra hf
      refine hf (ho ?_).1
      rintro rfl
      exact ha (mem_map_of_mem (h.mem_iff.mpr ⟨hm, hf⟩))
    rw [hl, ← hil, ← h.target found hm hil]

theorem insertAll_spec (hl : entries.length < c.mask + 1) (calls : List (ℕ × Target))
    (hid : ∀ entry ∈ calls, entry.1 ≠ kIllegalCid) :
    ∃ c', insertAll handler c calls = some c' ∧ Holds handler c' (calls ++ entries) ∧
      (calls ++ entries).length < c'.mask + 1 := by
  induction calls generalizing c entries with
  | nil => exact ⟨c, rfl, h, hl⟩
  | cons entry calls ih =>
    obtain ⟨c₁, he, h₁, hl₁⟩ := h.ensureCapacity_spec
    obtain ⟨c₂, hi, hm, h₂⟩ :=
      h₁.insert_spec (hid entry (mem_cons_self ..)) hl₁ entry.2
    obtain ⟨c', hr, h', hl'⟩ := ih h₂ (by rw [length_cons, hm]; omega)
      fun entry hmm => hid entry (mem_cons_of_mem _ hmm)
    refine ⟨c', ?_, h'.of_perm perm_middle, by rwa [perm_middle.length_eq] at hl'⟩
    rw [insertAll, he, bind_eq_bind, bind_some, hi]
    exact hr

end Holds

/-- **The cache is a finite map**: class ids that have been inserted are found with their targets,
the lookup of others ends at an empty entry, and the entries are counted. -/
theorem insertAll_lookup (handler : Target) (calls : List (ℕ × Target))
    (hids : ∀ entry ∈ calls, entry.1 ≠ kIllegalCid) (hdistinct : (calls.map Prod.fst).Nodup) :
    ∃ c, insertAll handler (new handler) calls = some c ∧ c.filledEntryCount = calls.length ∧
      (∀ entry ∈ calls, c.lookup handler entry.1 = some entry) ∧
      ∀ classId ∉ calls.map Prod.fst, c.lookup handler classId = some (kIllegalCid, handler) := by
  obtain ⟨c, hi, h, hl⟩ := (holds_empty 3).insertAll_spec (Nat.succ_pos _) calls hids
  rw [append_nil] at h hl
  exact ⟨c, hi, h.count, h.lookup_spec hl hdistinct⟩

theorem insertAll_lookup_collision : ∃ c, insertAll 0 (new 0) [(5, 1), (21, 2)] = some c ∧
    c.filledEntryCount = 2 ∧ (∀ entry ∈ [(5, 1), (21, 2)], c.lookup 0 entry.1 = some entry) ∧
    ∀ classId ∉ [5, 21], c.lookup 0 classId = some (kIllegalCid, 0) :=
  insertAll_lookup 0 [(5, 1), (21, 2)] (by decide) (by decide)

end MegamorphicCache

end DartSdk.Vm
