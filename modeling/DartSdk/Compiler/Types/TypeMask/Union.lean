import DartSdk.Compiler.Types.TypeMask
import Mathlib.Data.List.Induction

/-!
# The union of type masks

The values of a mask are the instances of its live classes, and `null` if it is nullable.  Masks cover
others if they have the values of these, and `null` only if one of these has it.

* `contains_normalized`: normalizing a mask does not lose live classes;
* `union_flat`: the union of flat masks covers both;
* `unionOf_spec`: so does `unionOf`, with the masks that absorb each other and with `flatten`;
* `union_sound`: the union of any two masks contains what either of them contains.
-/

namespace DartSdk.Compiler.Types

open ClassHierarchy List

variable {C : Type} [DecidableEq C] {w : ClassWorld C}

namespace FlatTypeMask

section Contains

variable {base c : C} {flags : Flags}

theorem contains_exact {n : Bool} : (of base ⟨.exact, n⟩).contains w c ↔ c = base := by
  simp [contains, eq_comm]

theorem contains_subclass {n : Bool} :
    (of base ⟨.subclass, n⟩).contains w c ↔ w.isSubclassOf c base := by
  simp only [contains]
  split
  · next h => simp [h]
  · rfl

theorem contains_subtype {n : Bool} :
    (of base ⟨.subtype, n⟩).contains w c ↔ w.isSubtypeOf c base := by
  simp only [contains]
  split
  · next h => simp [h]
  · rfl

theorem contains_congr {flags' : Flags} (h : flags.kind = flags'.kind) :
    (of base flags).contains w c = (of base flags').contains w c := by
  simp only [contains, h]

theorem contains_base : (of base flags).contains w base := by simp [contains]

/-- A class of the mask is a subtype of its base, and a subclass unless the mask is a subtype mask. -/
theorem isSubtypeOf_of_contains (h : (of base flags).contains w c) :
    w.isSubtypeOf c base := by
  obtain ⟨kind, n⟩ := flags
  cases kind with
  | exact =>
    rw [contains_exact.mp h]
    exact isSubtypeOf_refl base
  | subclass => exact isSubtypeOf_of_isSubclassOf (contains_subclass.mp h)
  | subtype => exact contains_subtype.mp h

theorem isSubclassOf_of_contains (h : (of base flags).contains w c) (hk : flags.kind ≠ .subtype) :
    w.isSubclassOf c base := by
  obtain ⟨kind, n⟩ := flags
  cases kind with
  | exact =>
    rw [contains_exact.mp h]
    exact isSubclassOf_refl base
  | subclass => exact contains_subclass.mp h
  | subtype => exact absurd rfl hk

theorem contains_mono {flags' : Flags} (h : (of base flags).contains w c)
    (hk : flags.kind.toNat ≤ flags'.kind.toNat) : (of base flags').contains w c := by
  obtain ⟨kind', _⟩ := flags'
  cases kind' with
  | exact =>
    obtain ⟨kind, n⟩ := flags
    cases kind with
    | exact => exact contains_exact.mpr (contains_exact.mp h)
    | subclass | subtype => simp [Kind.toNat] at hk
  | subclass =>
    refine contains_subclass.mpr (isSubclassOf_of_contains h ?_)
    intro hs
    simp [hs, Kind.toNat] at hk
  | subtype => exact contains_subtype.mpr (isSubtypeOf_of_contains h)

theorem contains_normalized (hc : c ∈ w.live) (h : (of base flags).contains w c) :
    (normalized w base flags).contains w c := by
  by_cases hbase : c = base
  · subst hbase
    exact contains_base
  -- A subtype mask becomes a subclass mask only if all live subtypes are subclasses.
  have hsb : flags.kind = .subtype →
      (!w.hasAnyStrictSubtype base || w.hasOnlySubclasses base) = true →
      w.isSubclassOf c base = true := by
    intro _ hn
    have hm := ClassWorld.mem_strictSubtypesOf.mpr ⟨hc, isSubtypeOf_of_contains h, hbase⟩
    rcases Bool.or_eq_true_iff.mp hn with hnn | ho
    · rw [ClassWorld.hasAnyStrictSubtype_of_mem hm] at hnn
      exact nomatch hnn
    · rw [← ClassWorld.strictSubclassesOf_eq ho] at hm
      exact (ClassWorld.mem_strictSubclassesOf.mp hm).2.1
  -- A subclass mask with a live subclass stays one.
  have ha : w.isSubclassOf c base → w.hasAnyStrictSubclass base := by
    intro hs
    exact ClassWorld.hasAnyStrictSubclass_of_mem
      (ClassWorld.mem_strictSubclassesOf.mpr ⟨hc, hs, hbase⟩)
  obtain ⟨kind, n⟩ := flags
  unfold normalized normalizedKind
  cases kind with
  | exact => exact h
  | subclass =>
    have hs := contains_subclass.mp h
    simp only [reduceCtorEq, false_and, ↓reduceIte, ha hs, Bool.not_true, Bool.false_eq_true, and_false]
    exact h
  | subtype =>
    by_cases hn : (!w.hasAnyStrictSubtype base || w.hasOnlySubclasses base) = true
    · have hs := hsb rfl hn
      simp only [hn, and_self, ↓reduceIte, ha hs, Bool.not_true, Bool.false_eq_true, and_false]
      exact contains_subclass.mpr hs
    · simp only [hn, and_false, ↓reduceIte, reduceCtorEq, false_and]
      exact h

end Contains

section Flags

variable {flags other : Flags}

@[simp] theorem isNullable_weaken :
    (flags.weaken other).isNullable = (flags.isNullable || other.isNullable) := by
  unfold Flags.weaken
  split
  · rfl
  · exact Bool.or_comm _ _

theorem le_weaken (flags other : Flags) :
    flags.kind.toNat ≤ (flags.weaken other).kind.toNat ∧
      other.kind.toNat ≤ (flags.weaken other).kind.toNat := by
  have hb : ∀ b : Bool, b.toNat ≤ 1 := fun b => by cases b <;> decide
  have h₁ := hb flags.isNullable
  have h₂ := hb other.isNullable
  unfold Flags.weaken
  split
  · next h =>
    simp only [Flags.toNat] at h
    exact ⟨Nat.le_refl _, by dsimp only; omega⟩
  · next h =>
    simp only [Flags.toNat] at h
    exact ⟨by dsimp only; omega, Nat.le_refl _⟩

end Flags

section Values

/-- The mask has the value: `null`, or an instance of a live class. -/
def has (w : ClassWorld C) (m : FlatTypeMask C) : Option C → Prop
  | none => m.isNullable = true
  | some c => c ∈ w.live ∧ m.contains w c = true

def Has (w : ClassWorld C) (l : List (FlatTypeMask C)) (v : Option C) : Prop := ∃ m ∈ l, m.has w v

/-- The masks `r` have the values of the masks `l`, and `null` only if one of these has it. -/
def Covers (w : ClassWorld C) (r l : List (FlatTypeMask C)) : Prop :=
  (∀ v, Has w l v → Has w r v) ∧ (Has w r none → Has w l none)

variable {v : Option C} {m : FlatTypeMask C} {l l' r : List (FlatTypeMask C)}

theorem has_append : Has w (l ++ l') v ↔ Has w l v ∨ Has w l' v := by
  simp only [Has, mem_append, or_and_right, exists_or]

theorem has_cons : Has w (m :: l) v ↔ m.has w v ∨ Has w l v := by
  simp only [Has, mem_cons, or_and_right, exists_or, exists_eq_left]

theorem not_has_nil : ¬ Has w [] v := nofun

theorem has_singleton : Has w [m] v ↔ m.has w v := by
  rw [has_cons, or_iff_left not_has_nil]

theorem Covers.refl : Covers w l l := ⟨fun _ h => h, fun h => h⟩

theorem Covers.trans (h : Covers w r l) (h' : Covers w l l') : Covers w r l' :=
  ⟨fun v hv => h.1 v (h'.1 v hv), fun hv => h'.2 (h.2 hv)⟩

theorem Covers.append (h : Covers w r l) (l' : List (FlatTypeMask C)) :
    Covers w (r ++ l') (l ++ l') := by
  refine ⟨fun v hv => ?_, fun hv => ?_⟩
  · exact has_append.mpr ((has_append.mp hv).imp_left (h.1 v))
  · exact has_append.mpr ((has_append.mp hv).imp_left h.2)

theorem Covers.comm (h : Covers w r (l ++ l')) : Covers w r (l' ++ l) :=
  ⟨fun v hv => h.1 v (has_append.mpr (has_append.mp hv).symm),
    fun hv => has_append.mpr (has_append.mp (h.2 hv)).symm⟩

theorem covers_pair {m a b : FlatTypeMask C}
    (hcn : ∀ c ∈ w.live, a.contains w c ∨ b.contains w c → m.contains w c)
    (hn : m.isNullable = (a.isNullable || b.isNullable)) : Covers w [m] [a, b] := by
  refine ⟨fun v hv => has_singleton.mpr ?_, fun h => ?_⟩
  · rw [has_cons, has_singleton] at hv
    cases v with
    | none => exact hn.trans (Bool.or_eq_true_iff.mpr hv)
    | some c =>
      have hc : c ∈ w.live := hv.elim And.left And.left
      exact ⟨hc, hcn c hc (hv.imp And.right And.right)⟩
  · rw [has_cons, has_singleton]
    exact Bool.or_eq_true_iff.mp (hn.symm.trans (has_singleton.mp h))

end Values

section Pairs

variable {base otherBase : C} {flags other : Flags}

theorem covers_of (combined : Flags) {r : FlatTypeMask C}
    (hr : r = of base combined ∨ r = normalized w base combined)
    (hn : combined.isNullable = (flags.isNullable || other.isNullable))
    (ht : ∀ c, (of base flags).contains w c → (of base combined).contains w c)
    (ho : ∀ c, (of otherBase other).contains w c → (of base combined).contains w c) :
    Covers w [r] [of base flags, of otherBase other] := by
  refine covers_pair (fun c hc h => ?_) ?_
  · have hcm := h.elim (ht c) (ho c)
    rcases hr with rfl | rfl
    · exact hcm
    · exact contains_normalized hc hcm
  · rcases hr with rfl | rfl <;> exact hn

theorem covers_unionSame : Covers w [unionSame w base flags other] [of base flags, of base other] := by
  obtain ⟨h₁, h₂⟩ := le_weaken flags other
  refine covers_of (flags.weaken other) ?_ isNullable_weaken
    (fun c h => contains_mono h h₁) (fun c h => contains_mono h h₂)
  unfold unionSame
  dsimp only
  split_ifs with hf ho
  · exact .inl (by rw [← hf])
  · exact .inl (by rw [← ho])
  · exact .inr rfl

theorem covers_unionStrictSubclass (hsb : w.isSubclassOf otherBase base) :
    Covers w [unionStrictSubclass w base flags other] [of base flags, of otherBase other] := by
  have hf : ∀ combined : Flags, (if flags ≠ combined then normalized w base combined else of base flags) =
      of base combined ∨ (if flags ≠ combined then normalized w base combined else of base flags) =
        normalized w base combined := by
    intro combined
    split_ifs with hne
    · exact .inr rfl
    · exact .inl (by rw [← not_not.mp hne])
  unfold unionStrictSubclass
  by_cases hc : (flags.kind = .exact ∧ other.kind = .exact) ∨ base = w.objectClass
  · -- Two exact masks, or the root: the subclasses of the base.
    rw [if_pos hc]
    refine covers_of _ (hf _) rfl (fun c h => contains_subclass.mpr ?_)
      (fun c h => contains_subclass.mpr ?_)
    · rcases hc with ⟨he, -⟩ | rfl
      · exact isSubclassOf_of_contains h (by rw [he]; exact nofun)
      · exact isSubclassOf_object c
    · rcases hc with ⟨-, he⟩ | rfl
      · exact isSubclassOf_trans (isSubclassOf_of_contains h (by rw [he]; exact nofun)) hsb
      · exact isSubclassOf_object c
  · rw [if_neg hc]
    obtain ⟨h₁, h₂⟩ := le_weaken flags other
    refine covers_of _ (hf _) isNullable_weaken (fun c h => contains_mono h h₁) (fun c h => ?_)
    generalize flags.weaken other = combined at h₁ h₂
    obtain ⟨kind, n⟩ := combined
    cases kind with
    | exact =>
      -- Then both are exact, which is the other case.
      refine absurd (.inl ⟨?_, ?_⟩) hc
      · cases hk : flags.kind <;> simp_all [Kind.toNat]
      · cases hk : other.kind <;> simp_all [Kind.toNat]
    | subclass =>
      refine contains_subclass.mpr (isSubclassOf_trans (isSubclassOf_of_contains h ?_) hsb)
      intro hs
      simp [hs, Kind.toNat] at h₂
    | subtype =>
      exact contains_subtype.mpr
        (isSubtypeOf_trans (isSubtypeOf_of_contains h) (isSubtypeOf_of_isSubclassOf hsb))

theorem covers_unionStrictSubtype (hs : w.isSubtypeOf otherBase base) :
    Covers w [unionStrictSubtype w base flags other] [of base flags, of otherBase other] := by
  refine covers_of ⟨.subtype, flags.isNullable || other.isNullable⟩ ?_ rfl
    (fun c h => contains_subtype.mpr (isSubtypeOf_of_contains h))
    (fun c h => contains_subtype.mpr (isSubtypeOf_trans (isSubtypeOf_of_contains h) hs))
  unfold unionStrictSubtype
  dsimp only
  split_ifs with hne
  · exact .inr rfl
  · exact .inl (by rw [← not_not.mp hne])

end Pairs

theorem contains_nullable (m : FlatTypeMask C) (c : C) : m.nullable.contains w c = m.contains w c := by
  cases m with
  | empty => rfl
  | of _ _ => exact contains_congr rfl

theorem covers_empty (n : Bool) (m : FlatTypeMask C) :
    Covers w [if n then m.nullable else m] [empty n, m] := by
  refine covers_pair (fun c _ h => ?_) ?_
  · have hm : m.contains w c := h.resolve_left nofun
    split
    · rw [contains_nullable, hm]
    · exact hm
  · cases n <;> cases m <;> rfl

/-- **The union of two flat masks covers both.** -/
theorem union_flat (a b : FlatTypeMask C) : Covers w (a.union w b).parts ([a] ++ [b]) := by
  unfold union
  split
  · exact covers_empty _ _
  · exact .comm (covers_empty _ _)
  split_ifs with heq h₁ h₂ h₃ h₄
  · subst heq
    exact covers_unionSame
  · exact covers_unionStrictSubclass h₁
  · exact .comm (covers_unionStrictSubclass h₂)
  · exact covers_unionStrictSubtype h₃
  · exact .comm (covers_unionStrictSubtype h₄)
  · exact .refl

end FlatTypeMask

namespace UnionTypeMask

open FlatTypeMask

/-- What the loop knows: where the mask has been put. -/
def Placed (flatMask : FlatTypeMask C) (seen : List (FlatTypeMask C)) : Option ℕ → Prop
  | none => True
  | some i => seen[i]? = some flatMask

/-- The masks that are seen, without the place where the mask had been put. -/
def unplaced (seen : List (FlatTypeMask C)) : Option ℕ → List (FlatTypeMask C)
  | some i => seen.eraseIdx i
  | none => seen

variable {m a b flatMask last : FlatTypeMask C} {disjoint seen rest result : List (FlatTypeMask C)}
  {inListIndex : Option ℕ}

omit [DecidableEq C] in
theorem mem_unplaced (hp : Placed flatMask seen inListIndex) (hm : m ∈ seen) :
    m = flatMask ∨ m ∈ unplaced seen inListIndex := by
  cases inListIndex with
  | none => exact .inr hm
  | some i =>
    obtain ⟨j, hj⟩ := mem_iff_getElem?.mp hm
    by_cases hij : j = i
    · subst hij
      exact .inl (Option.some.inj (hj.symm.trans hp))
    · exact .inr (mem_eraseIdx_iff_getElem?.mpr ⟨j, hij, hj⟩)

omit [DecidableEq C] in
theorem mem_of_mem_unplaced (hm : m ∈ unplaced seen inListIndex) : m ∈ seen := by
  cases inListIndex with
  | none => exact hm
  | some i => exact mem_of_mem_eraseIdx hm

theorem coverLoop_uncovered
    (h : coverLoop w flatMask inListIndex inListIndex.isSome seen rest = (result, false, last)) :
    inListIndex = none ∧ result = seen ++ rest ∧ last = flatMask := by
  induction rest generalizing flatMask inListIndex seen with
  | nil =>
    obtain ⟨rfl, hn, rfl⟩ : seen = result ∧ inListIndex = none ∧ flatMask = last := by
      simpa [coverLoop] using h
    exact ⟨hn, (append_nil _).symm, rfl⟩
  | cons current rest ih =>
    unfold coverLoop at h
    split at h
    · have := ih h
      rwa [append_assoc] at this
    · split at h
      · exact nomatch h
      · exact nomatch (@ih _ _ (some _) h).1

/-- **What a mask has and its union with another one keeps, is kept**: if the mask or one in the list has the
property `P`, a mask of the new list has it. -/
theorem coverLoop_some {P : FlatTypeMask C → Prop}
    (hP : ∀ a b m, a.union w b = .ofFlat m → P a ∨ P b → P m) (hp : Placed flatMask seen inListIndex)
    (h : coverLoop w flatMask inListIndex inListIndex.isSome seen rest = (result, true, last))
    (hs : P flatMask ∨ ∃ m ∈ seen ++ rest, P m) : ∃ m ∈ result, P m := by
  induction rest generalizing flatMask inListIndex seen with
  | nil =>
    obtain ⟨rfl, hcovered, rfl⟩ : seen = result ∧ inListIndex.isSome ∧ flatMask = last := by
      simpa [coverLoop] using h
    obtain ⟨i, rfl⟩ := Option.isSome_iff_exists.mp hcovered
    rw [append_nil] at hs
    exact hs.elim (fun h => ⟨flatMask, mem_iff_getElem?.mpr ⟨i, hp⟩, h⟩) id
  | cons current rest ih =>
    unfold coverLoop at h
    split at h
    · -- Disjoint from the mask: go on.
      refine ih ?_ h (by rwa [append_assoc])
      cases inListIndex with
      | none => trivial
      | some i =>
        exact (getElem?_append_left (List.getElem?_eq_some_iff.mp hp).1).trans hp
    next newMask hu =>
    have hn := hP flatMask current newMask hu
    split at h
    · -- The mask is covered by this one.
      next heq =>
      obtain ⟨rfl, -⟩ : seen ++ current :: rest = result ∧ flatMask = last := by simpa using h
      subst heq
      exact hs.elim (fun h => ⟨current, by simp, hn (.inl h)⟩) id
    -- The new mask takes its place, and that of the mask it has absorbed is given up.
    have h' : coverLoop w newMask (some (unplaced seen inListIndex).length) true
        (unplaced seen inListIndex ++ [newMask]) rest = (result, true, last) := by
      cases inListIndex <;> exact h
    refine @ih newMask _ (some _) getElem?_concat_length h' ?_
    rcases hs with h | ⟨m, hm, hPm⟩
    · exact .inl (hn (.inl h))
    rcases mem_append.mp hm with hm | hm
    · rcases mem_unplaced hp hm with rfl | hm
      · exact .inl (hn (.inl hPm))
      · exact .inr ⟨m, mem_append_left _ (mem_append_left _ hm), hPm⟩
    · rcases mem_cons.mp hm with rfl | hm
      · exact .inl (hn (.inr hPm))
      · exact .inr ⟨m, mem_append_right _ hm, hPm⟩

/-- If all masks have the property `Q`, and their unions, all masks of the new list have it. -/
theorem coverLoop_all {Q : FlatTypeMask C → Prop}
    (hQ : ∀ a b m, a.union w b = .ofFlat m → Q a → Q b → Q m) {covered : Bool} (hf : Q flatMask)
    (ha : ∀ m ∈ seen ++ rest, Q m) :
    ∀ m ∈ (coverLoop w flatMask inListIndex covered seen rest).1, Q m := by
  induction rest generalizing flatMask inListIndex covered seen with
  | nil =>
    intro m hm
    exact ha m (mem_append_left _ hm)
  | cons current rest ih =>
    unfold coverLoop
    split
    · exact ih hf (by rwa [append_assoc])
    next newMask hu =>
    split
    · exact ha
    have hn := hQ _ _ _ hu hf (ha current (by simp))
    have hnx := @ih newMask (unplaced seen inListIndex ++ [newMask])
      (some (unplaced seen inListIndex).length) true hn (by
        intro m hm
        rcases mem_append.mp hm with hm | hm
        · rcases mem_append.mp hm with hm | hm
          · exact ha m (mem_append_left _ (mem_of_mem_unplaced hm))
          · rw [mem_singleton.mp hm]
            exact hn
        · exact ha m (mem_append_right _ (mem_cons_of_mem _ hm)))
    cases inListIndex <;> exact hnx

theorem addMask_cases (disjoint : List (FlatTypeMask C)) (mask : FlatTypeMask C) :
    (mask = .empty false ∧ addMask w disjoint mask = disjoint) ∨
      (∃ result last, coverLoop w mask none false [] disjoint = (result, true, last) ∧
        addMask w disjoint mask = result) ∨
      addMask w disjoint mask = disjoint ++ [mask] := by
  unfold addMask
  split
  · next he =>
    cases mask with
    | of => exact nomatch he
    | empty n => cases n with
      | false => exact .inl ⟨rfl, rfl⟩
      | true => exact nomatch he
  · split
    · next result last h => exact .inr (.inl ⟨result, last, h, rfl⟩)
    · next result last h =>
      obtain ⟨-, rfl, rfl⟩ := @coverLoop_uncovered _ _ _ mask _ [] _ _ none h
      exact .inr (.inr rfl)

theorem addMask_some {P : FlatTypeMask C → Prop} (hP : ∀ a b m, a.union w b = .ofFlat m → P a ∨ P b → P m)
    (hem : ¬ P (.empty false)) {mask : FlatTypeMask C}
    (h : ∃ m ∈ disjoint ++ [mask], P m) : ∃ m ∈ addMask w disjoint mask, P m := by
  have hs : P mask ∨ ∃ m ∈ disjoint, P m := by
    obtain ⟨m, hm, h⟩ := h
    rcases mem_append.mp hm with hm | hm
    · exact .inr ⟨m, hm, h⟩
    · exact .inl (mem_singleton.mp hm ▸ h)
  rcases addMask_cases disjoint mask with ⟨rfl, he⟩ | ⟨_, _, hl, he⟩ | he <;> rw [he]
  · exact hs.resolve_left hem
  · exact @coverLoop_some _ _ _ mask _ [] _ _ none _ hP trivial hl hs
  · exact h

theorem addMask_all {Q : FlatTypeMask C → Prop} (hQ : ∀ a b m, a.union w b = .ofFlat m → Q a → Q b → Q m)
    {mask : FlatTypeMask C} (h : ∀ m ∈ disjoint ++ [mask], Q m) :
    ∀ m ∈ addMask w disjoint mask, Q m := by
  have ha : ∀ m ∈ disjoint, Q m := fun m hm => h m (mem_append_left _ hm)
  rcases addMask_cases disjoint mask with ⟨rfl, he⟩ | ⟨_, _, hl, he⟩ | he <;> rw [he]
  · exact ha
  · have := @coverLoop_all _ _ _ mask [] _ none _ hQ false (h mask (by simp)) ha
    rwa [hl] at this
  · exact h

theorem has_union (h : a.union w b = .ofFlat m) {v : Option C} (hv : a.has w v ∨ b.has w v) :
    m.has w v := by
  have hc := (union_flat a b).1 v (has_cons.mpr (hv.imp_right has_singleton.mpr))
  rw [h] at hc
  exact has_singleton.mp hc

theorem isNullable_union (h : a.union w b = .ofFlat m) (hm : m.isNullable) :
    a.isNullable ∨ b.isNullable := by
  have hc := (union_flat (w := w) a b).2
  rw [h] at hc
  exact (has_cons.mp (hc (has_singleton.mpr hm))).imp_right has_singleton.mp

theorem addMask_spec (disjoint : List (FlatTypeMask C)) (mask : FlatTypeMask C) :
    Covers w (addMask w disjoint mask) (disjoint ++ [mask]) := by
  constructor
  · intro v
    refine addMask_some (fun a b m hm => has_union hm) ?_
    cases v <;> exact nofun
  · -- If no mask is nullable, none of the new list is.
    rintro ⟨m, hm, hnull⟩
    by_contra hnone
    refine addMask_all (Q := fun m => ¬ m.isNullable) (fun a b m hm ha hb h => ?_)
      (fun m hm h => hnone ⟨m, hm, h⟩) m hm hnull
    exact (isNullable_union hm h).elim ha hb

variable (masks : List (FlatTypeMask C))

theorem foldl_addMask_spec (disjoint : List (FlatTypeMask C)) :
    Covers w (masks.foldl (addMask w) disjoint) (disjoint ++ masks) := by
  induction masks generalizing disjoint with
  | nil =>
    rw [append_nil]
    exact .refl
  | cons mask masks ih =>
    rw [foldl_cons, append_cons]
    exact (ih _).trans ((addMask_spec disjoint mask).append masks)

theorem unionOfHelper_eq (masks : List (TypeMask C)) (disjoint : List (FlatTypeMask C)) :
    unionOfHelper w masks disjoint = (masks.flatMap TypeMask.parts).foldl (addMask w) disjoint := by
  induction masks generalizing disjoint with
  | nil => rfl
  | cons mask masks ih =>
    rw [flatMap_cons, foldl_append, ← ih]
    cases mask <;> rfl

/-! ### Flattening -/

theorem candidateKind_cases (candidate : C) :
    (candidateKind w masks candidate).1 = .subtype ∨
      (candidateKind w masks candidate).1 = .subclass ∧ ∀ base flags, of base flags ∈ masks →
        flags.kind ≠ .subtype ∧ w.isSubclassOf base candidate := by
  unfold candidateKind
  dsimp only
  split_ifs with hu ha ha
  · refine .inr ⟨rfl, fun base flags hm => ?_⟩
    rw [all_eq_true] at hu ha
    have hb := ha _ hm
    have hk := hu _ hm
    simp only [base?, Option.any_some, contains_iff_mem] at hb
    refine ⟨fun hs => ?_, (ClassWorld.mem_strictSubclassesOf.mp hb).2.1⟩
    simp [isKind, hs] at hk
  · exact .inl rfl
  · refine .inr ⟨rfl, fun base flags hm => ?_⟩
    have hb := all_eq_true.mp ha _ hm
    simp [base?] at hb
  · exact .inl rfl

theorem foldl_some {α β : Type} {f : Option α → β → Option α} {P : α → Prop} {l : List β} (hne : l ≠ [])
    (hf : ∀ best, ∀ x ∈ l, (∀ a ∈ best, P a) → ∃ a, f best x = some a ∧ P a) :
    ∃ a, l.foldl f none = some a ∧ P a := by
  induction l using reverseRecOn with
  | nil => exact absurd rfl hne
  | append_singleton l x ih =>
    rw [foldl_append]
    refine hf _ x (by simp) ?_
    by_cases hl : l = []
    · subst hl
      exact fun _ h => absurd h (Option.not_mem_none _)
    · obtain ⟨a, ha, hP⟩ := ih hl fun best y hy => hf best y (mem_append_left _ hy)
      rintro b hb
      obtain rfl := Option.some.inj (ha.symm.trans hb)
      exact hP

/-- The loop of `flatten` ends with one of the candidates and its kind. -/
theorem bestCandidate_spec (candidates : List C)
    (hne : candidates ≠ []) : ∃ element size, element ∈ candidates ∧
      bestCandidate w masks candidates = some (element, (candidateKind w masks element).1, size) := by
  have hf : ∃ best : C × Kind × ℕ, bestCandidate w masks candidates = some best ∧
      best.1 ∈ candidates ∧ best.2.1 = (candidateKind w masks best.1).1 := by
    refine foldl_some hne fun best candidate hm hb => ?_
    cases best with
    | none => exact ⟨_, rfl, hm, rfl⟩
    | some best =>
      by_cases hsize : (candidateKind w masks candidate).2 < best.2.2
      · exact ⟨_, if_pos hsize, hm, rfl⟩
      · exact ⟨_, if_neg hsize, hb _ rfl⟩
  obtain ⟨best, hb, hm, hk⟩ := hf
  exact ⟨best.1, best.2.2, hm, hk ▸ hb⟩

/-- **A flattened union covers its parts.** -/
theorem flatten_spec : Covers w [flatten w masks] masks := by
  have hn : (flatten w masks).isNullable = masks.any isNullable := by
    unfold flatten
    split <;> rfl
  refine ⟨fun v hv => has_singleton.mpr ?_, fun h => ?_⟩
  · cases v with
    | none => exact hn.trans (any_eq_true.mpr hv)
    | some c =>
    obtain ⟨m, hm, hc, hmc⟩ := hv
    refine ⟨hc, ?_⟩
    cases m with
    | empty => exact nomatch hmc
    | of base flags =>
      have hb : base ∈ masks.filterMap base? := mem_filterMap.mpr ⟨_, hm, rfl⟩
      have hne : masks.filterMap base? ≠ [] := ne_nil_of_mem hb
      have ho : w.objectClass ∈ w.commonSupertypesOf (masks.filterMap base?) :=
        (w.mem_commonSupertypesOf hne).mpr fun y _ => isSubtypeOf_of_isSubclassOf (isSubclassOf_object y)
      obtain ⟨element, _, he, hbs⟩ :=
        bestCandidate_spec masks _ (ne_nil_of_mem ho)
      have hs := (w.mem_commonSupertypesOf hne).mp he base hb
      unfold flatten
      rw [hbs]
      refine contains_normalized hc ?_
      rcases candidateKind_cases masks element with hkn | ⟨hkn, hall⟩
      · rw [hkn]
        exact contains_subtype.mpr (isSubtypeOf_trans (isSubtypeOf_of_contains hmc) hs)
      · obtain ⟨hk, hsb⟩ := hall base flags hm
        rw [hkn]
        exact contains_subclass.mpr (isSubclassOf_trans (isSubclassOf_of_contains hmc hk) hsb)
  · exact any_eq_true.mp (hn.symm.trans (has_singleton.mp h))

/-- **`unionOf` covers all masks of the list.** -/
theorem unionOf_spec (masks : List (TypeMask C)) :
    Covers w (unionOf w masks).parts (masks.flatMap TypeMask.parts) := by
  have h := foldl_addMask_spec (w := w) (masks.flatMap TypeMask.parts) []
  rw [← unionOfHelper_eq, nil_append] at h
  unfold unionOf
  generalize unionOfHelper w masks [] = disjoint at h ⊢
  split
  · refine ⟨fun v hv => absurd (h.1 v hv) not_has_nil, fun hv => ?_⟩
    exact nomatch has_singleton.mp hv
  · exact h
  · split
    · exact (flatten_spec _).trans h
    · exact h

theorem union_spec (this : UnionTypeMask C) (other : TypeMask C) :
    Covers w (this.union w other).parts (this.disjointMasks ++ other.parts) := by
  -- The parts of the two, one by one.
  have hl : ∀ l : List (FlatTypeMask C),
      Covers w (unionOf w ((this.disjointMasks ++ l).map .ofFlat)).parts (this.disjointMasks ++ l) := by
    intro l
    have h := unionOf_spec (w := w) ((this.disjointMasks ++ l).map .ofFlat)
    rw [flatMap_map] at h
    exact (flatMap_singleton' _).subst h
  cases other with
  | ofFlat mask =>
    unfold union
    dsimp only
    split
    · next hm =>
      rw [contains_iff_mem] at hm
      refine ⟨fun v hv => (has_append.mp hv).elim id fun h => ?_, fun hv => has_append.mpr (.inl hv)⟩
      exact ⟨mask, hm, has_singleton.mp h⟩
    · exact hl [mask]
  | ofUnion mask => exact hl mask.disjointMasks

end UnionTypeMask

namespace TypeMask

open FlatTypeMask

theorem has_none {m : TypeMask C} : Has w m.parts none ↔ m.isNullable := any_eq_true.symm

theorem has_some {m : TypeMask C} {c : C} (hc : c ∈ w.live) :
    Has w m.parts (some c) ↔ m.contains w c := by
  rw [contains, any_eq_true]
  exact exists_congr fun m => and_congr_right fun _ => and_iff_right hc

/-- **The union of two masks contains every live class of both**, and it is nullable exactly if one of them
is. -/
theorem union_sound (w : ClassWorld C) (a b : TypeMask C) :
    (∀ c ∈ w.live, a.contains w c = true ∨ b.contains w c = true → (a.union w b).contains w c = true) ∧
      (a.union w b).isNullable = (a.isNullable || b.isNullable) := by
  have h : Covers w (a.union w b).parts (a.parts ++ b.parts) := by
    cases a with
    | ofUnion a => exact UnionTypeMask.union_spec a b
    | ofFlat a =>
      cases b with
      | ofUnion b => exact (UnionTypeMask.union_spec b (.ofFlat a)).comm
      | ofFlat b => exact union_flat a b
  constructor
  · intro c hc hab
    refine (has_some hc).mp (h.1 _ (has_append.mpr ?_))
    exact hab.imp (has_some hc).mpr (has_some hc).mpr
  · rw [Bool.eq_iff_iff, Bool.or_eq_true, ← has_none (w := w), ← has_none (w := w),
      ← has_none (w := w), ← has_append]
    exact ⟨h.2, h.1 none⟩

end TypeMask

end DartSdk.Compiler.Types
