import DartSdk.Vm.HashTable

/-!
# Sets of canonical objects (`HashSet`)

A set is a table whose entries have no component of their own.  `InsertOrGet` and `InsertNewOrGet`
return the key object that is stored already, or else the new one.

* `hashSet_canonical_iff`: `InsertNewOrGet` does so; `InsertOrGet` **does so if and only if the key is
  absent**, for it reads a component that the entry does not have.
-/

namespace DartSdk.Vm.HashTable

variable {κ : Type} {W : ℕ}

section Model

/-- An object of the backing array; `outside` is beyond its end. -/
inductive RawObject (κ : Type) (W : ℕ)
  | key (k : κ)
  | smi (value : BitVec W)
  | unused
  | deleted
  | outside
  deriving DecidableEq

variable (T : KeyTraits κ) (it : IterTable) (t : HashTable κ Unit W) (key : κ) (entry : ℕ)

/-- `InternalGetKey`. -/
def getKey : RawObject κ W :=
  match t.slot entry with
  | .unused => .unused
  | .deleted => .deleted
  | .occupied k _ _ => .key k

/-- `GetPayload(entry, 0)`: the component after the key is the enumeration index or, where there is
none, the key of the next entry. -/
def getPayloadObject : RawObject κ W :=
  match it with
  | .enumIndex => .smi (t.enumIndexAt entry)
  | .unordered => if entry + 1 < t.numEntries then t.getKey (entry + 1) else .outside

/-- The common part of `InsertOrGet` and `InsertNewOrGet`: `new` is the key that is inserted, and
`read` what is returned for one that is present.  The unit stands for the absent value. -/
def insertOrRead (read : HashTable κ Unit W → ℕ → RawObject κ W) (new : κ) :
    Option (HashTable κ Unit W × RawObject κ W) := do
  let t ← t.ensureCapacity T it
  let (present, entry) ← t.findKeyOrDeletedOrUnused T key
  if present then return (t, read t entry)
  else return ((t.insertKey it entry new).updatePayload entry (some ()), .key new)

def insertOrGet : Option (HashTable κ Unit W × RawObject κ W) :=
  t.insertOrRead T it key (getPayloadObject it) key

def insertNewOrGet (newKey : κ → κ) : Option (HashTable κ Unit W × RawObject κ W) :=
  t.insertOrRead T it key getKey (newKey key)

/-- `HashSet::GetOrNull`; the inner `none` is null. -/
def getKeyOrNull : Option (Option (RawObject κ W)) := (t.findKey T key).map (·.map t.getKey)

end Model

variable {T : KeyTraits κ} {it : IterTable} {t t' : HashTable κ Unit W} {key k new : κ}

/-- What a call is to return for `key`, which is matched by `new`: the key object that is stored then,
the previous one if there is one. -/
def Canonical (T : KeyTraits κ) (t : HashTable κ Unit W) (key new : κ)
    (result : Option (HashTable κ Unit W × RawObject κ W)) : Prop :=
  ∃ t' k, result = some (t', .key k) ∧ (∀ k', t'.Entry k' () ↔ t.Entry k' () ∨ k' = k) ∧
    t'.getKeyOrNull T key = some (some (.key k)) ∧
    (t.getKeyOrNull T key = some (some (.key k)) ∨ t.getKeyOrNull T key = some none ∧ k = new)

section

variable (hT : T.Lawful) (h : Inv T t)

include hT h

theorem getKeyOrNull_of_entry (he : t.Entry k ()) (hk : T.isMatch key k) :
    t.getKeyOrNull T key = some (some (.key k)) := by
  obtain ⟨j, e, hj⟩ := he
  rcases h.findKey_spec hT key with ⟨i, hf, k', _, _, hi, hk'⟩ | ⟨-, hnone⟩
  · obtain rfl := h.distinct hi hj (hT.trans (hT.symm hk') hk)
    rw [hj] at hi
    cases hi
    simp [getKeyOrNull, hf, getKey, hj]
  · exact absurd ⟨k, _, e, hj, hk⟩ (hnone j)

theorem getKeyOrNull_eq_none (hn : ∀ k, t.Entry k () → ¬ T.isMatch key k) :
    t.getKeyOrNull T key = some none := by
  rcases h.findKey_spec hT key with ⟨i, -, k, _, e, hi, hk⟩ | ⟨hf, -⟩
  · obtain ⟨_, rfl⟩ := Option.isSome_iff_exists.mp (h.stored hi)
    exact absurd hk (hn k ⟨i, e, hi⟩)
  · simp [getKeyOrNull, hf]

/-- A key that is present is read, and one that is absent is inserted. -/
theorem insertOrRead_spec (read : HashTable κ Unit W → ℕ → RawObject κ W)
    (hw : RebuildsWhole it t) (hn : T.isMatch key new) :
    (∃ t' i k payload e, t.insertOrRead T it key read new = some (t', read t' i) ∧ Inv T t' ∧
      t'.slot i = .occupied k payload e ∧ (∀ k', t'.Entry k' () ↔ t.Entry k' () ∨ k' = k) ∧
      t'.getKeyOrNull T key = some (some (.key k)) ∧
      t.getKeyOrNull T key = some (some (.key k))) ∨
    t.getKeyOrNull T key = some none ∧ Canonical T t key new (t.insertOrRead T it key read new) := by
  obtain ⟨t₁, hc, h₁, hen, hr, -⟩ := ensureCapacity_spec hT it h hw
  rcases h₁.find_spec hT key with ⟨i, hf, k, _, e, hi, hk⟩ | ⟨i, hf, hvacant⟩
  · obtain ⟨_, rfl⟩ := Option.isSome_iff_exists.mp (h₁.stored hi)
    have he : t₁.Entry k () := ⟨i, e, hi⟩
    refine .inl ⟨t₁, i, k, _, e, by simp [insertOrRead, hc, hf], h₁, hi, fun k' => ?_,
      getKeyOrNull_of_entry hT h₁ he hk, getKeyOrNull_of_entry hT h ((hen k ()).mp he) hk⟩
    rw [hen, iff_self_or]
    rintro rfl
    exact (hen _ ()).mp he
  · have ha : t.getKeyOrNull T key = some none := by
      refine getKeyOrNull_eq_none hT h fun k he hk => ?_
      obtain ⟨j, e, hj⟩ := (hen k ()).mpr he
      exact hvacant.none j ⟨k, _, e, hj, hk⟩
    have hi : Vacant T t₁ new i := by
      refine { hvacant with none := ?_, reached := ?_ }
      · rintro j ⟨k, _, e, hj, hk⟩
        exact hvacant.none j ⟨k, _, e, hj, hT.trans hn hk⟩
      · rw [Reached, ← hT.hash_eq hn]
        exact hvacant.reached
    have h₂ : (t₁.insertKey it i new).updatePayload i (some ()) = _ :=
      insertKey_updatePayload it hi.lt (some ())
    have hin := h₁.insert hT hi hr (congrArg slots h₂)
      (congrArg numOccupied h₂) (congrArg numDeleted h₂)
    have het (k' : κ) : Entry _ k' () ↔ _ := entry_insert hi (congrArg slots h₂)
    refine .inr ⟨ha, _, new, by simp [insertOrRead, hc, hf], fun k' => ?_,
      getKeyOrNull_of_entry hT hin ((het new).mpr (.inr ⟨rfl, rfl⟩)) hn,
      .inr ⟨ha, rfl⟩⟩
    rw [het, hen, and_iff_left rfl]

end

theorem getPayloadObject_ne (hT : T.Lawful) (h : Inv T t) {i : ℕ} {payload : Option Unit}
    {e : BitVec W} (hi : t.slot i = .occupied k payload e) :
    t.getPayloadObject it i ≠ .key k := by
  cases it with
  | enumIndex => exact nofun
  | unordered =>
    rw [getPayloadObject]
    split_ifs with hlt
    · rw [getKey]
      split
      · exact nofun
      · exact nofun
      · rename_i k' _ _ hn
        rintro ⟨⟩
        have := h.distinct hi hn (hT.refl k)
        omega
    · exact nofun

/-- **`InsertNewOrGet` returns the key object that is stored, and `InsertOrGet` does so if and only if
the key is absent**: for every set that calls can make, `.insertOrGetValue key ()` being what an
insertion does to the table, unless a table with two equal enumeration indices has been rebuilt. -/
theorem hashSet_canonical_iff (hT : T.Lawful) {newKey : κ → κ}
    (hnew : ∀ k, T.isMatch k (newKey k) = true) (it : IterTable) (capacity : ℕ)
    (ops : List (Op κ Unit)) (key : κ)
    (hw : RebuildsWholeAlong T it (.new capacity : HashTable κ Unit W) ops) :
    ∃ t rs, run T it (.new capacity : HashTable κ Unit W) ops = some (t, rs) ∧
      (RebuildsWhole it t →
        Canonical T t key (newKey key) (t.insertNewOrGet T it key newKey) ∧
        (Canonical T t key key (t.insertOrGet T it key) ↔ t.getKeyOrNull T key = some none)) := by
  obtain ⟨t, hrn, h, -⟩ := (inv_new T capacity).run hT it (represents_new T capacity) ops hw
  refine ⟨t, _, hrn, fun hw => ⟨?_, ?_, ?_⟩⟩
  · obtain ⟨t', i, k, payload, e, hr, -, hi, hrs⟩ | ⟨-, hc⟩ :=
      insertOrRead_spec hT h getKey hw (hnew key)
    · have hk : t'.getKey i = .key k := by rw [getKey, hi]
      rw [hk] at hr
      exact ⟨t', k, hr, hrs.1, hrs.2.1, .inl hrs.2.2⟩
    · exact hc
  · rintro ⟨t', k, hr, -, -, ho | ⟨ha, -⟩⟩
    · obtain ⟨t₁, i, k', payload, e, hrd, h₁, hi, -, -, ho'⟩ | ⟨ha, -⟩ :=
        insertOrRead_spec hT h (getPayloadObject it) hw (hT.refl key)
      · -- the component that is read is not the key of the entry
        cases ho.symm.trans ho'
        have heq : t₁.getPayloadObject it i = .key k :=
          congrArg Prod.snd (Option.some.inj (hrd.symm.trans hr))
        exact absurd heq (getPayloadObject_ne hT h₁ hi)
      · exact ha
    · exact ha
  · intro ha
    obtain ⟨_, _, _, _, _, -, -, -, -, -, ho⟩ | ⟨-, hc⟩ :=
      insertOrRead_spec hT h (getPayloadObject it) hw (hT.refl key)
    · cases ha.symm.trans ho
    · exact hc

theorem hashSet_canonical_iff_one : ∃ t : HashTable ℕ Unit 63,
    Canonical natTraits t 1 1 (t.insertNewOrGet natTraits .unordered 1 id) ∧
      ¬ Canonical natTraits t 1 1 (t.insertOrGet natTraits .unordered 1) := by
  obtain ⟨t, _, hr, h⟩ := hashSet_canonical_iff (W := 63) natTraits_lawful
    natTraits_lawful.refl .unordered 3 [.insertOrGetValue 1 ()] 1 (rebuildsWholeAlong_unordered ..)
  cases hr
  exact ⟨_, (h nofun).1, fun hc => absurd ((h nofun).2.mp hc) (by decide)⟩

/-- For a key that is present, `InsertOrGet` returns its enumeration index or the next entry. -/
theorem insertOrGet_present :
    ((run natTraits .enumIndex (.new 3 : HashTable ℕ Unit 63) [.insertOrGetValue 1 ()]).bind
      fun r => r.1.insertOrGet natTraits .enumIndex 1).map Prod.snd = some (.smi 0) ∧
    ((run natTraits .unordered (.new 3 : HashTable ℕ Unit 63) [.insertOrGetValue 1 ()]).bind
      fun r => r.1.insertOrGet natTraits .unordered 1).map Prod.snd = some .unused := by
  decide

end DartSdk.Vm.HashTable
