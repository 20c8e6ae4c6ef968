import Mathlib.Data.List.Basic

/-!
# Code with forward jumps

An instruction may jump to a label, and labels are bound further on.  A run goes through the code
once: it executes instructions, or it is on its way to a label.

* `run_append`: running code in two parts;
* `run_skip`: a jump goes past code that does not bind its label.
-/

namespace DartSdk.ForwardCode

variable {I L : Type} [DecidableEq L] (branch binds : I → Option L)

/-- `none` while instructions are executed, and the label while on the way to one. -/
def step : Option L → I → Option L
  | none, i => branch i
  | some l, i => if binds i = some l then none else some l

def run (p : Option L) (code : List I) : Option L := code.foldl (step branch binds) p

variable {branch binds} {p : Option L} {l : L} {code code' : List I} {i : I}

@[simp] theorem run_nil : run branch binds p [] = p := rfl

@[simp] theorem run_cons : run branch binds p (i :: code) =
    run branch binds (step branch binds p i) code := rfl

theorem run_append : run branch binds p (code ++ code') =
    run branch binds (run branch binds p code) code' := List.foldl_append

theorem run_skip (h : ∀ i ∈ code, binds i ≠ some l) : run branch binds (some l) code = some l := by
  induction code with
  | nil => rfl
  | cons i code ih =>
    rw [run_cons, step, if_neg (h i List.mem_cons_self)]
    exact ih fun j hj => h j (List.mem_cons_of_mem i hj)

end DartSdk.ForwardCode
