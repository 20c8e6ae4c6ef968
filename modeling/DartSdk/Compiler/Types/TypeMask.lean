import DartSdk.Compiler.Types.ClassWorld

/-!
# Type masks

`FlatTypeMask` and `UnionTypeMask`: their union, their intersection and the containment tests.  The flags
of a flat mask are its kind and its nullability; where the source compares flags as numbers, so does
`Flags.toNat`.  The base of the empty mask is `null`.  Masks that the world has canonicalized are equal to
new ones, so the cache is left out.
-/

namespace DartSdk.Compiler.Types

inductive Kind
  | exact
  | subclass
  | subtype
  deriving DecidableEq, Repr

def Kind.toNat : Kind → ℕ
  | exact => 1
  | subclass => 2
  | subtype => 3

structure Flags where
  kind : Kind
  isNullable : Bool
  deriving DecidableEq, Repr

namespace Flags

/-- `(kind << 1) | (isNullable ? 1 : 0)` -/
def toNat (flags : Flags) : ℕ := flags.kind.toNat * 2 + flags.isNullable.toNat

/-- The least constraining kind of the two, nullable if one of them is. -/
def weaken (flags other : Flags) : Flags :=
  if flags.toNat > other.toNat then ⟨flags.kind, flags.isNullable || other.isNullable⟩
  else ⟨other.kind, other.isNullable || flags.isNullable⟩

/-- The most constraining kind of the two, nullable if both are. -/
def strengthen (flags other : Flags) : Flags :=
  if flags.toNat < other.toNat then ⟨flags.kind, flags.isNullable && other.isNullable⟩
  else ⟨other.kind, other.isNullable && flags.isNullable⟩

/-- `other.flags & ((flags & 1) | ~1)` -/
def restrict (flags other : Flags) : Flags := ⟨other.kind, other.isNullable && flags.isNullable⟩

end Flags

inductive FlatTypeMask (C : Type)
  | empty (isNullable : Bool)
  | of (base : C) (flags : Flags)
  deriving DecidableEq, Repr

/-- A union has at least two disjoint masks. -/
structure UnionTypeMask (C : Type) where
  disjointMasks : List (FlatTypeMask C)
  one_lt_length : 1 < disjointMasks.length

inductive TypeMask (C : Type)
  | ofFlat (mask : FlatTypeMask C)
  | ofUnion (mask : UnionTypeMask C)

variable {C : Type}

namespace FlatTypeMask

def base? : FlatTypeMask C → Option C
  | empty _ => none
  | of base _ => some base

def isEmpty : FlatTypeMask C → Bool
  | empty _ => true
  | of _ _ => false

def isNullable : FlatTypeMask C → Bool
  | empty isNullable => isNullable
  | of _ flags => flags.isNullable

def isKind (kind : Kind) : FlatTypeMask C → Bool
  | empty _ => false
  | of _ flags => flags.kind = kind

def nullable : FlatTypeMask C → FlatTypeMask C
  | empty _ => empty true
  | of base flags => of base ⟨flags.kind, true⟩

end FlatTypeMask

namespace TypeMask

/-- The flat masks that a mask consists of. -/
def parts : TypeMask C → List (FlatTypeMask C)
  | ofFlat mask => [mask]
  | ofUnion mask => mask.disjointMasks

def isNullable (mask : TypeMask C) : Bool := mask.parts.any FlatTypeMask.isNullable

end TypeMask

variable [DecidableEq C] (w : ClassWorld C)

namespace FlatTypeMask

/-- The kind that `normalized` gives a mask. -/
def normalizedKind (base : C) (kind : Kind) : Kind :=
  let kind :=
    if kind = .subtype ∧ (!w.hasAnyStrictSubtype base || w.hasOnlySubclasses base) = true then .subclass
    else kind
  if kind = .subclass ∧ (!w.hasAnyStrictSubclass base) = true then .exact else kind

def normalized (base : C) (flags : Flags) : FlatTypeMask C :=
  of base ⟨normalizedKind w base flags.kind, flags.isNullable⟩

def contains (mask : FlatTypeMask C) (type : C) : Bool :=
  match mask with
  | empty _ => false
  | of base flags =>
    if base = type then true
    else
      match flags.kind with
      | .exact => false
      | .subclass => w.isSubclassOf type base
      | .subtype => w.isSubtypeOf type base

/-! ### Union -/

def unionSame (base : C) (flags other : Flags) : FlatTypeMask C :=
  let combined := flags.weaken other
  if flags = combined then of base flags
  else if other = combined then of base other
  else normalized w base combined

def unionStrictSubclass (base : C) (flags other : Flags) : FlatTypeMask C :=
  let combined : Flags :=
    if (flags.kind = .exact ∧ other.kind = .exact) ∨ base = w.objectClass then
      ⟨.subclass, flags.isNullable || other.isNullable⟩
    else flags.weaken other
  if flags ≠ combined then normalized w base combined else of base flags

def unionStrictSubtype (base : C) (flags other : Flags) : FlatTypeMask C :=
  let combined : Flags := ⟨.subtype, flags.isNullable || other.isNullable⟩
  if flags ≠ combined then normalized w base combined else of base flags

/-- `union` of two flat masks. -/
def union (this other : FlatTypeMask C) : TypeMask C :=
  match this, other with
  | empty isNullable, other => .ofFlat (if isNullable then other.nullable else other)
  | this, empty isNullable => .ofFlat (if isNullable then this.nullable else this)
  | of base flags, of otherBase otherFlags =>
    if base = otherBase then .ofFlat (unionSame w base flags otherFlags)
    else if w.isSubclassOf otherBase base then .ofFlat (unionStrictSubclass w base flags otherFlags)
    else if w.isSubclassOf base otherBase then .ofFlat (unionStrictSubclass w otherBase otherFlags flags)
    else if w.isSubtypeOf otherBase base then .ofFlat (unionStrictSubtype w base flags otherFlags)
    else if w.isSubtypeOf base otherBase then .ofFlat (unionStrictSubtype w otherBase otherFlags flags)
    else .ofUnion ⟨[of base flags, of otherBase otherFlags], by simp⟩

end FlatTypeMask

namespace UnionTypeMask

variable (masks : List (FlatTypeMask C))

def MAX_UNION_LENGTH : ℕ := 4

/-- The inner loop of `unionOfHelper` for one mask.  `seen` are the disjoint masks before the index, and
`inListIndex` is where the mask was put into them.  The second component is `covered`, the third the mask
as it is at the end. -/
def coverLoop (flatMask : FlatTypeMask C) (inListIndex : Option ℕ) (covered : Bool)
    (seen : List (FlatTypeMask C)) :
    List (FlatTypeMask C) → List (FlatTypeMask C) × Bool × FlatTypeMask C
  | [] => (seen, covered, flatMask)
  | current :: rest =>
    match flatMask.union w current with
    | .ofUnion _ => coverLoop flatMask inListIndex covered (seen ++ [current]) rest
    | .ofFlat newMask =>
      if current = newMask then (seen ++ current :: rest, true, flatMask)
      else
        let seen :=
          match inListIndex with
          | some i => seen.eraseIdx i
          | none => seen
        coverLoop newMask (some seen.length) true (seen ++ [newMask]) rest

/-- One flat mask of `unionOfHelper`. -/
def addMask (disjoint : List (FlatTypeMask C)) (mask : FlatTypeMask C) : List (FlatTypeMask C) :=
  if mask.isEmpty && !mask.isNullable then disjoint
  else
    match coverLoop w mask none false [] disjoint with
    | (disjoint, true, _) => disjoint
    | (disjoint, false, flatMask) => disjoint ++ [flatMask]

def unionOfHelper (masks : List (TypeMask C)) (disjoint : List (FlatTypeMask C)) :
    List (FlatTypeMask C) :=
  masks.foldl (fun disjoint mask =>
    match mask with
    | .ofFlat mask => addMask w disjoint mask
    | .ofUnion mask => mask.disjointMasks.foldl (addMask w) disjoint) disjoint

/-- The kind of a candidate of `flatten`, and how many classes it has. -/
def candidateKind (candidate : C) : Kind × ℕ :=
  let useSubclass := masks.all fun mask => !mask.isKind .subtype
  let subclasses := if useSubclass then w.strictSubclassesOf candidate else []
  if masks.all fun mask => mask.base?.any fun base => subclasses.contains base then
    (.subclass, subclasses.length)
  else (.subtype, (w.strictSubtypesOf candidate).length)

/-- The loop of `flatten`: the best candidate, its kind and its size. -/
def bestCandidate (candidates : List C) : Option (C × Kind × ℕ) :=
  candidates.foldl (fun best candidate =>
    let (kind, size) := candidateKind w masks candidate
    match best with
    | none => some (candidate, kind, size)
    | some (_, _, bestSize) => if size < bestSize then some (candidate, kind, size) else best) none

def flatten : FlatTypeMask C :=
  let isNullable := masks.any FlatTypeMask.isNullable
  match bestCandidate w masks (w.commonSupertypesOf (masks.filterMap FlatTypeMask.base?)) with
  | some (element, kind, _) => FlatTypeMask.normalized w element ⟨kind, isNullable⟩
  | none => .empty isNullable

def unionOf (masks : List (TypeMask C)) : TypeMask C :=
  match unionOfHelper w masks [] with
  | [] => .ofFlat (.empty false)
  | [mask] => .ofFlat mask
  | mask :: mask' :: rest =>
    if (mask :: mask' :: rest).length > MAX_UNION_LENGTH then .ofFlat (flatten w (mask :: mask' :: rest))
    else .ofUnion ⟨mask :: mask' :: rest, by simp⟩

end UnionTypeMask

def TypeMask.contains (mask : TypeMask C) (type : C) : Bool :=
  mask.parts.any fun part => part.contains w type

namespace UnionTypeMask

def union (this : UnionTypeMask C) (other : TypeMask C) : TypeMask C :=
  match other with
  | .ofFlat mask =>
    if this.disjointMasks.contains mask then .ofUnion this
    else unionOf w ((this.disjointMasks ++ [mask]).map .ofFlat)
  | .ofUnion mask => unionOf w ((this.disjointMasks ++ mask.disjointMasks).map .ofFlat)

end UnionTypeMask

/-! ### Intersection -/

namespace FlatTypeMask

section

variable (base : C) (flags : Flags) (otherBase : C) (other : Flags)

def intersectionEmpty (flags other : Flags) : FlatTypeMask C :=
  empty (flags.isNullable && other.isNullable)

def intersectionSame (flags other : Flags) : FlatTypeMask C :=
  let combined := flags.strengthen other
  if flags = combined then of base flags
  else if other = combined then of base other
  else normalized w base combined

/-- The mask of `other`, with the nullability of both. -/
def intersectionRestrict : FlatTypeMask C :=
  let combined := flags.restrict other
  if other = combined then of otherBase other else normalized w otherBase combined

def intersectionStrictSubclass : FlatTypeMask C :=
  if flags.kind = .exact then intersectionEmpty flags other
  else intersectionRestrict w flags otherBase other

def containedSubset (kind : Kind) : Option (List C) :=
  match kind with
  | .exact => none
  | .subclass => some (w.strictSubclassesOf base)
  | .subtype => some (w.strictSubtypesOf base)

def commonContainedClasses (kind : Kind) (otherBase : C) (otherKind : Kind) : Option (List C) :=
  match containedSubset w base kind, containedSubset w otherBase otherKind with
  | some xSubset, some ySubset =>
    some (if xSubset.length ≤ ySubset.length then
      (xSubset.filter fun each => ySubset.contains each).eraseDups
    else (ySubset.filter fun each => xSubset.contains each).eraseDups)
  | _, _ => none

/-- No direct supertype of the class will be a better candidate. -/
def isCandidate (kind : Kind) (common : List C) (each : C) : Bool :=
  let containsSuperclass := (w.superclass each).any fun superclass => common.contains superclass
  if containsSuperclass || kind = .subclass then !containsSuperclass
  else (w.interfaces each).all fun interface => !common.contains interface

def intersectionHelper : TypeMask C :=
  if flags.kind = .exact ∨ other.kind = .exact then .ofFlat (intersectionEmpty flags other)
  else if flags.kind = .subclass ∧ other.kind = .subclass then .ofFlat (intersectionEmpty flags other)
  else
    let kind : Kind := if flags.kind = .subclass ∨ other.kind = .subclass then .subclass else .subtype
    match commonContainedClasses w base flags.kind otherBase other.kind with
    | none | some [] => .ofFlat (intersectionEmpty flags other)
    | some (each :: rest) =>
      let common := each :: rest
      let combined : Flags := ⟨kind, flags.isNullable && other.isNullable⟩
      UnionTypeMask.unionOf w
        ((common.filter (isCandidate w kind common)).map fun cls => .ofFlat (normalized w cls combined))

def intersectionStrictSubtype : TypeMask C :=
  if flags.kind ≠ .subtype then intersectionHelper w base flags otherBase other
  else .ofFlat (intersectionRestrict w flags otherBase other)

end

/-- `intersection` of two flat masks. -/
def intersection (this other : FlatTypeMask C) : TypeMask C :=
  match this, other with
  | empty isNullable, other => .ofFlat (if other.isNullable then empty isNullable else empty false)
  | this, empty isNullable => .ofFlat (if this.isNullable then empty isNullable else empty false)
  | of base flags, of otherBase otherFlags =>
    if base = otherBase then .ofFlat (intersectionSame w base flags otherFlags)
    else if w.isSubclassOf otherBase base then
      .ofFlat (intersectionStrictSubclass w flags otherBase otherFlags)
    else if w.isSubclassOf base otherBase then .ofFlat (intersectionStrictSubclass w otherFlags base flags)
    else if w.isSubtypeOf otherBase base then intersectionStrictSubtype w base flags otherBase otherFlags
    else if w.isSubtypeOf base otherBase then intersectionStrictSubtype w otherBase otherFlags base flags
    else intersectionHelper w base flags otherBase otherFlags

end FlatTypeMask

namespace UnionTypeMask

def intersection (this : UnionTypeMask C) (other : TypeMask C) : TypeMask C :=
  match other with
  | .ofFlat mask =>
    if this.disjointMasks.contains mask then .ofFlat mask
    else unionOf w (this.disjointMasks.map fun current => current.intersection w mask)
  | .ofUnion mask =>
    unionOf w (this.disjointMasks.flatMap fun current =>
      mask.disjointMasks.map fun flatOther => current.intersection w flatOther)

end UnionTypeMask

/-! ### Containment -/

namespace FlatTypeMask

def containsOnlyString (base : C) : Bool := base = w.stringClass || base = w.backend.stringImplementation

def containsOnlyBool (base : C) : Bool := base = w.boolClass || base = w.backend.boolImplementation

def containsOnlyInt (base : C) : Bool :=
  base = w.intClass || base = w.backend.intImplementation ||
    base = w.backend.positiveIntImplementation || base = w.backend.uint31Implementation ||
    base = w.backend.uint32Implementation

def containsOnlyDouble (base : C) : Bool := base = w.doubleClass || base = w.backend.doubleImplementation

/-- `isSingleImplementationOf` of a mask with the base `base`. -/
def isSingleImplementationOf (base cls : C) : Bool :=
  if containsOnlyString w base then cls = w.stringClass || cls = w.backend.stringImplementation
  else if containsOnlyBool w base then cls = w.boolClass || cls = w.backend.boolImplementation
  else if containsOnlyInt w base then
    cls = w.intClass || cls = w.backend.intImplementation ||
      cls = w.backend.positiveIntImplementation || cls = w.backend.uint32Implementation ||
      cls = w.backend.uint31Implementation
  else if containsOnlyDouble w base then cls = w.doubleClass || cls = w.backend.doubleImplementation
  else false

end FlatTypeMask

namespace UnionTypeMask

end UnionTypeMask

namespace TypeMask

def union (this other : TypeMask C) : TypeMask C :=
  match this, other with
  | ofFlat this, ofFlat other => this.union w other
  | ofFlat this, ofUnion other => other.union w (.ofFlat this)
  | ofUnion this, other => this.union w other

def intersection (this other : TypeMask C) : TypeMask C :=
  match this, other with
  | ofFlat this, ofFlat other => this.intersection w other
  | ofFlat this, ofUnion other => other.intersection w (.ofFlat this)
  | ofUnion this, other => this.intersection w other

end TypeMask

end DartSdk.Compiler.Types
