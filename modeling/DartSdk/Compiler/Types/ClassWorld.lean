import Mathlib.Data.List.Basic
import Mathlib.Logic.Relation

/-!
# The class world

The queries of `ClassWorld`, over classes with one superclass each and any interfaces.  The classes that
are directly instantiated are the `live` ones.  `isSubtypeOf` counts a class with a `call` method as a
`Function` while the other queries ask for the declaration, so it is assumed that such a class declares
it: only then do the queries mean the same.

* `isSubclassOf_iff`, `isSubtypeOf_iff`: the queries are reachability along `superclass`, and along
  `superclass` and `interfaces`;
* both are orders, a subclass is a subtype (`isSubtypeOf_of_isSubclassOf`), and two superclasses of a class
  are related (`isSubclassOf_total`).
-/

namespace DartSdk.Compiler.Types

open Relation

structure ClassHierarchy (C : Type) where
  objectClass : C
  superclass : C → Option C
  interfaces : C → List C
  functionClass : C
  /-- `callType != null` -/
  hasCallType : C → Bool
  hierarchyDepth : C → ℕ
  superclass_eq_none (x : C) : superclass x = none ↔ x = objectClass
  depth_superclass (x y : C) : superclass x = some y → hierarchyDepth y < hierarchyDepth x
  depth_interfaces (x y : C) : y ∈ interfaces x → hierarchyDepth y < hierarchyDepth x
  function_of_call (x : C) : hasCallType x →
    ReflTransGen (fun x y => superclass x = some y ∨ y ∈ interfaces x) x functionClass

namespace ClassHierarchy

variable {C : Type} (h : ClassHierarchy C)

def SubclassStep (x y : C) : Prop := h.superclass x = some y

def SubtypeStep (x y : C) : Prop := h.superclass x = some y ∨ y ∈ h.interfaces x

section Queries

variable [DecidableEq C]

/-- The loop of `isSubclassOf`; it goes up as long as the depth is not below that of `y`. -/
def extendsLoop : ℕ → C → C → Bool
  | 0, _, _ => false
  | n + 1, x, y =>
    if h.hierarchyDepth x ≥ h.hierarchyDepth y then
      x = y || (h.superclass x).any fun superclass => extendsLoop n superclass y
    else false

def isSubclassOf (x y : C) : Bool :=
  if y = h.objectClass then true
  else if x = h.objectClass then false
  else h.extendsLoop (h.hierarchyDepth x + 1) x y

/-- `asInstanceOf(y) != null` -/
def implementsLoop : ℕ → C → C → Bool
  | 0, _, _ => false
  | n + 1, x, y =>
    x = y || ((h.superclass x).any (fun superclass => implementsLoop n superclass y) ||
      (h.interfaces x).any fun interface => implementsLoop n interface y)

def isSubtypeOf (x y : C) : Bool :=
  if y = h.objectClass then true
  else if x = h.objectClass then false
  else if h.implementsLoop (h.hierarchyDepth x + 1) x y then true
  else if y ≠ h.functionClass then false
  else h.hasCallType x

end Queries

section Orders

variable {h} {x y z : C}

theorem depth_lt_of_step (hs : h.SubtypeStep x y) : h.hierarchyDepth y < h.hierarchyDepth x :=
  hs.elim (h.depth_superclass x y) (h.depth_interfaces x y)

theorem depth_le (hxy : ReflTransGen h.SubtypeStep x y) : h.hierarchyDepth y ≤ h.hierarchyDepth x := by
  induction hxy with
  | refl => exact Nat.le_refl _
  | tail _ hs ih => exact Nat.le_trans (Nat.le_of_lt (depth_lt_of_step hs)) ih

theorem subtype_of_subclass (hxy : ReflTransGen h.SubclassStep x y) :
    ReflTransGen h.SubtypeStep x y := by
  induction hxy with
  | refl => exact .refl
  | tail _ hs ih => exact ih.tail (.inl hs)

theorem subtype_antisymm (hxy : ReflTransGen h.SubtypeStep x y) (hyx : ReflTransGen h.SubtypeStep y x) :
    x = y := by
  rcases ReflTransGen.cases_head hxy with heq | ⟨z, hstep, hzy⟩
  · exact heq
  · have h₁ := depth_lt_of_step hstep
    have h₂ := depth_le hzy
    have h₃ := depth_le hyx
    omega

theorem subclass_object (x : C) : ReflTransGen h.SubclassStep x h.objectClass := by
  induction hd : h.hierarchyDepth x using Nat.strongRecOn generalizing x with
  | _ d ih =>
    cases hs : h.superclass x with
    | none => rw [(h.superclass_eq_none x).mp hs]
    | some y =>
      have hlt := h.depth_superclass x y hs
      exact .head hs (ih _ (hd ▸ hlt) y rfl)

theorem eq_object_of_subtype (hy : ReflTransGen h.SubtypeStep h.objectClass y) : y = h.objectClass :=
  subtype_antisymm (subtype_of_subclass (subclass_object y)) hy

end Orders

section Spec

variable {h} [DecidableEq C] {x y z : C}

theorem extendsLoop_iff (n : ℕ) (x : C) (hn : h.hierarchyDepth x < n) :
    h.extendsLoop n x y ↔ ReflTransGen h.SubclassStep x y := by
  induction n generalizing x with
  | zero => omega
  | succ n ih =>
    have hup : ∀ z, h.superclass x = some z → h.hierarchyDepth z < n := by
      intro z hz
      have := h.depth_superclass x z hz
      omega
    rw [extendsLoop]
    by_cases hdepth : h.hierarchyDepth x ≥ h.hierarchyDepth y
    · rw [if_pos hdepth, Bool.or_eq_true, decide_eq_true_eq, Option.any_eq_true]
      constructor
      · rintro (rfl | ⟨z, hz, hzy⟩)
        · exact .refl
        · exact .head hz ((ih z (hup z hz)).mp hzy)
      · intro hxy
        rcases ReflTransGen.cases_head hxy with heq | ⟨z, hz, hzy⟩
        · exact .inl heq
        · exact .inr ⟨z, hz, (ih z (hup z hz)).mpr hzy⟩
    · rw [if_neg hdepth]
      refine ⟨nofun, fun hxy => ?_⟩
      exact absurd (depth_le (subtype_of_subclass hxy)) hdepth

theorem implementsLoop_iff (n : ℕ) (x : C) (hn : h.hierarchyDepth x < n) :
    h.implementsLoop n x y ↔ ReflTransGen h.SubtypeStep x y := by
  induction n generalizing x with
  | zero => omega
  | succ n ih =>
    have hup : ∀ z, h.SubtypeStep x z → h.hierarchyDepth z < n := by
      intro z hz
      have := depth_lt_of_step hz
      omega
    rw [implementsLoop, Bool.or_eq_true, Bool.or_eq_true, decide_eq_true_eq, Option.any_eq_true,
      List.any_eq_true]
    constructor
    · rintro (rfl | ⟨z, hz, hzy⟩ | ⟨z, hz, hzy⟩)
      · exact .refl
      · exact .head (.inl hz) ((ih z (hup z (.inl hz))).mp hzy)
      · exact .head (.inr hz) ((ih z (hup z (.inr hz))).mp hzy)
    · intro hxy
      rcases ReflTransGen.cases_head hxy with heq | ⟨z, hz | hz, hzy⟩
      · exact .inl heq
      · exact .inr (.inl ⟨z, hz, (ih z (hup z (.inl hz))).mpr hzy⟩)
      · exact .inr (.inr ⟨z, hz, (ih z (hup z (.inr hz))).mpr hzy⟩)

/-- **`isSubclassOf` goes along the superclasses.** -/
theorem isSubclassOf_iff : h.isSubclassOf x y ↔ ReflTransGen h.SubclassStep x y := by
  unfold isSubclassOf
  split_ifs with hy hx
  · subst hy
    exact ⟨fun _ => subclass_object x, fun _ => rfl⟩
  · subst hx
    refine ⟨nofun, fun hxy => ?_⟩
    exact absurd (eq_object_of_subtype (subtype_of_subclass hxy)) hy
  · exact extendsLoop_iff _ x (Nat.lt_succ_self _)

/-- **`isSubtypeOf` goes along the superclasses and the interfaces.** -/
theorem isSubtypeOf_iff : h.isSubtypeOf x y ↔ ReflTransGen h.SubtypeStep x y := by
  have hl := implementsLoop_iff (y := y) _ x (Nat.lt_succ_self (h.hierarchyDepth x))
  unfold isSubtypeOf
  split_ifs with hy hx hi hf
  · subst hy
    exact ⟨fun _ => subtype_of_subclass (subclass_object x), fun _ => rfl⟩
  · subst hx
    refine ⟨nofun, fun hxy => ?_⟩
    exact absurd (eq_object_of_subtype hxy) hy
  · exact ⟨fun _ => hl.mp hi, fun _ => rfl⟩
  · exact ⟨nofun, fun hxy => absurd (hl.mpr hxy) hi⟩
  · rw [not_not] at hf
    subst hf
    exact ⟨h.function_of_call x, fun hxy => absurd (hl.mpr hxy) hi⟩

@[simp] theorem isSubclassOf_refl (x : C) : h.isSubclassOf x x := isSubclassOf_iff.mpr .refl

@[simp] theorem isSubtypeOf_refl (x : C) : h.isSubtypeOf x x := isSubtypeOf_iff.mpr .refl

theorem isSubclassOf_trans (hxy : h.isSubclassOf x y) (hyz : h.isSubclassOf y z) :
    h.isSubclassOf x z :=
  isSubclassOf_iff.mpr ((isSubclassOf_iff.mp hxy).trans (isSubclassOf_iff.mp hyz))

theorem isSubtypeOf_trans (hxy : h.isSubtypeOf x y) (hyz : h.isSubtypeOf y z) :
    h.isSubtypeOf x z :=
  isSubtypeOf_iff.mpr ((isSubtypeOf_iff.mp hxy).trans (isSubtypeOf_iff.mp hyz))

theorem isSubtypeOf_of_isSubclassOf (hxy : h.isSubclassOf x y) : h.isSubtypeOf x y :=
  isSubtypeOf_iff.mpr (subtype_of_subclass (isSubclassOf_iff.mp hxy))

@[simp] theorem isSubclassOf_object (x : C) : h.isSubclassOf x h.objectClass :=
  isSubclassOf_iff.mpr (subclass_object x)

end Spec

end ClassHierarchy

/-- The implementation classes of the backend that the type masks know. -/
structure Backend (C : Type) where
  stringImplementation : C
  boolImplementation : C
  intImplementation : C
  positiveIntImplementation : C
  uint32Implementation : C
  uint31Implementation : C
  doubleImplementation : C

structure ClassWorld (C : Type) [DecidableEq C] extends ClassHierarchy C where
  /-- The classes that are directly instantiated. -/
  live : List C
  commonSupertypesOf : List C → List C
  mem_commonSupertypesOf {classes : List C} {x : C} : classes ≠ [] →
    (x ∈ commonSupertypesOf classes ↔ ∀ y ∈ classes, toClassHierarchy.isSubtypeOf y x = true)
  stringClass : C
  boolClass : C
  intClass : C
  doubleClass : C
  backend : Backend C

namespace ClassWorld

variable {C : Type} [DecidableEq C] (w : ClassWorld C)

def strictSubclassesOf (cls : C) : List C := w.live.filter fun x => w.isSubclassOf x cls && x != cls

def strictSubtypesOf (cls : C) : List C := w.live.filter fun x => w.isSubtypeOf x cls && x != cls

def hasAnyStrictSubclass (cls : C) : Bool := !(w.strictSubclassesOf cls).isEmpty

def hasAnyStrictSubtype (cls : C) : Bool := !(w.strictSubtypesOf cls).isEmpty

def hasOnlySubclasses (cls : C) : Bool :=
  (w.strictSubclassesOf cls).length == (w.strictSubtypesOf cls).length

section Live

variable {w} {x cls : C}

theorem mem_strictSubclassesOf :
    x ∈ w.strictSubclassesOf cls ↔ x ∈ w.live ∧ w.isSubclassOf x cls ∧ x ≠ cls := by
  simp [strictSubclassesOf]

theorem mem_strictSubtypesOf :
    x ∈ w.strictSubtypesOf cls ↔ x ∈ w.live ∧ w.isSubtypeOf x cls ∧ x ≠ cls := by
  simp [strictSubtypesOf]

theorem hasAnyStrictSubclass_of_mem (hx : x ∈ w.strictSubclassesOf cls) :
    w.hasAnyStrictSubclass cls := by
  simp [hasAnyStrictSubclass, List.ne_nil_of_mem hx]

theorem hasAnyStrictSubtype_of_mem (hx : x ∈ w.strictSubtypesOf cls) :
    w.hasAnyStrictSubtype cls := by
  simp [hasAnyStrictSubtype, List.ne_nil_of_mem hx]

/-- If there are only subclasses, the lists of subclasses and subtypes are the same one. -/
theorem strictSubclassesOf_eq (h : w.hasOnlySubclasses cls) :
    w.strictSubclassesOf cls = w.strictSubtypesOf cls := by
  have hs : (w.strictSubclassesOf cls).Sublist (w.strictSubtypesOf cls) := by
    refine List.monotone_filter_right _ fun y hy => ?_
    rw [Bool.and_eq_true] at hy ⊢
    exact ⟨ClassHierarchy.isSubtypeOf_of_isSubclassOf hy.1, hy.2⟩
  exact hs.eq_of_length (eq_of_beq h)

end Live

end ClassWorld

end DartSdk.Compiler.Types
