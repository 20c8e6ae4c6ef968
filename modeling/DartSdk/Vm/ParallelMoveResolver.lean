import DartSdk.Lib.Entries
import Mathlib.Data.List.Nodup
import Mathlib.Data.List.Perm.Subperm
import Mathlib.Data.List.Chain
import Mathlib.Logic.Equiv.Basic

/-!
# The parallel move resolver (`flow_graph_compiler.cc`)

A parallel move is a list of moves that all read their sources before any of them writes its
destination.  `ParallelMoveResolver::EmitNativeCode` turns it into a sequence of single moves and
swaps.  `PerformMove` first performs the moves that read its destination, marking itself as
pending; a move that is blocked by a pending one closes a cycle, and is performed by a swap, after
which the sources of the other moves are rewritten.

* The model: `performMove`, `emitNativeCode`, and `exec`, what the emitted events do to a machine.
* `Shape`, `Moved`: what holds whenever `performMove` is called, with the stack of pending moves.  A
  pending move reads the destination of the one below it on the stack.
* `finishMove_spec` and `performMove_spec`: performing a move keeps it, and eliminates the move.
* **`emitNativeCode_spec`**: every destination gets the initial value of its source, nothing else
  changes, and every move that is not redundant is performed once.
-/

namespace DartSdk.Vm.ParallelMoveResolver

open List Option Function

/-- The locations the register allocator leaves in a parallel move.  Locations of different kinds
never point to the same place. -/
inductive Location
  | invalid
  | constant (instr : ℕ)
  | register (reg : ℕ)
  | fpuRegister (reg : ℕ)
  | stackSlot (base : ℕ) (index : ℤ)
  | doubleStackSlot (index : ℤ)
  | quadStackSlot (index : ℤ)
  deriving DecidableEq

def Location.isConstant : Location → Bool
  | .constant _ => true
  | _ => false

@[ext] structure MoveOperands where
  dest : Location
  src : Location
  deriving DecidableEq

namespace MoveOperands

section

variable (m : MoveOperands)

/-- Both operands are cleared to mark a move as eliminated. -/
def eliminated : MoveOperands := ⟨.invalid, .invalid⟩

/-- The destination of a pending move is cleared; its source is not. -/
def markPending : MoveOperands := { m with dest := .invalid }

def clearPending (dest : Location) : MoveOperands := { m with dest := dest }

def isPending : Bool := m.dest == .invalid && m.src != .invalid

def isEliminated : Bool := m.src == .invalid

def blocks (loc : Location) : Bool := !m.isEliminated && m.src == loc

def isRedundant : Bool :=
  m.isEliminated || m.dest == .invalid || m.src == m.dest

end

end MoveOperands

open MoveOperands

/-- What becomes of a move: it is emitted as a move or as a swap of its operands, or it is dropped
because its destination already has the value. -/
inductive Event
  | move (index : ℕ) (dest src : Location)
  | swap (index : ℕ) (dest src : Location)
  | drop (index : ℕ)
  deriving DecidableEq

def Event.index : Event → ℕ
  | .move index _ _ => index
  | .swap index _ _ => index
  | .drop index => index

/-- The resolver: its list of moves and what it has emitted. -/
structure Resolver where
  moves : List MoveOperands
  emitted : List Event
  deriving DecidableEq

namespace Resolver

/-- `moves_[i]`. -/
def moveAt (r : Resolver) (i : ℕ) : MoveOperands := r.moves.getD i .eliminated

def setMove (r : Resolver) (i : ℕ) (m : MoveOperands) : Resolver :=
  { r with moves := r.moves.set i m }

def emit (r : Resolver) (e : Event) : Resolver := { r with emitted := r.emitted ++ [e] }

end Resolver

open Resolver

def emitMove (r : Resolver) (index : ℕ) : Resolver :=
  (r.setMove index .eliminated).emit (.move index (r.moveAt index).dest (r.moveAt index).src)

/-- The source of another move after `source` and `destination` have been exchanged. -/
def redirect (source destination : Location) (m : MoveOperands) : MoveOperands :=
  if m.blocks source then { m with src := destination }
  else if m.blocks destination then { m with src := source }
  else m

def emitSwap (r : Resolver) (index : ℕ) : Resolver :=
  let source := (r.moveAt index).src
  let destination := (r.moveAt index).dest
  let r := (r.setMove index .eliminated).emit (.swap index destination source)
  { r with moves := r.moves.map (redirect source destination) }

/-- The end of `PerformMove`, after the loop over the moves that block this one. -/
def finishMove (r : Resolver) (index : ℕ) (destination : Location) : Resolver :=
  let r := r.setMove index ((r.moveAt index).clearPending destination)
  if (r.moveAt index).src = destination then
    (r.setMove index .eliminated).emit (.drop index)
  else if r.moves.any (fun other => other.blocks destination) then emitSwap r index
  else emitMove r index

/-- `PerformMove`; the fuel bounds the depth of the recursion. -/
def performMove : ℕ → Resolver → ℕ → Option Resolver
  | 0, _, _ => none
  | fuel + 1, r, index =>
    let destination := (r.moveAt index).dest
    ((List.range r.moves.length).foldlM (fun r i =>
        if (r.moveAt i).blocks destination && !(r.moveAt i).isPending then performMove fuel r i
        else some r)
      (r.setMove index (r.moveAt index).markPending)).map
      fun r => finishMove r index destination

def buildInitialMoveList (parallelMove : List MoveOperands) : List MoveOperands :=
  parallelMove.filter fun m => !m.isRedundant

/-- `EmitNativeCode`, up to the final `moves_.Clear()`: the moves with a constant source come
last. -/
def emitNativeCode (parallelMove : List MoveOperands) : Option Resolver :=
  let moves := buildInitialMoveList parallelMove
  ((List.range moves.length).foldlM (fun r i =>
      if !(r.moveAt i).isEliminated && !(r.moveAt i).src.isConstant then
        performMove moves.length r i
      else some r)
    ⟨moves, []⟩).map fun r =>
      (List.range moves.length).foldl
        (fun r i => if !(r.moveAt i).isEliminated then emitMove r i else r) r

variable {V : Type}

section Machine

variable (constantValue : ℕ → V)

/-- The value of a location in a machine state. -/
def read (σ : Location → V) : Location → V
  | .constant instr => constantValue instr
  | loc => σ loc

def Event.exec (σ : Location → V) : Event → Location → V
  | .move _ dest src => Function.update σ dest (read constantValue σ src)
  | .swap _ dest src => σ ∘ Equiv.swap dest src
  | .drop _ => σ

def exec (σ : Location → V) (events : List Event) : Location → V :=
  events.foldl (Event.exec constantValue) σ

end Machine

variable {r : Resolver} {i : ℕ}

section Access

variable {j : ℕ} {m : MoveOperands}

@[simp] theorem blocks_iff {loc : Location} :
    m.blocks loc ↔ m.src ≠ .invalid ∧ m.src = loc := by
  simp [blocks, isEliminated]

@[simp] theorem isEliminated_iff : m.isEliminated ↔ m.src = .invalid := by
  simp [isEliminated]

theorem isRedundant_eq_false :
    m.isRedundant = false ↔ m.src ≠ .invalid ∧ m.dest ≠ .invalid ∧ m.src ≠ m.dest := by
  simp [isRedundant, isEliminated, and_assoc]

section

variable (a b : Location) (m : MoveOperands)

theorem moveAt_setMove (hi : i < r.moves.length) (m : MoveOperands) (j : ℕ) :
    (r.setMove i m).moveAt j = if j = i then m else r.moveAt j :=
  (Entries.getD_set hi m _ j).trans (if_congr eq_comm rfl rfl)

@[simp] theorem length_setMove : (r.setMove i m).moves.length = r.moves.length := by
  simp [setMove]

theorem moveAt_of_lt (hi : i < r.moves.length) : r.moveAt i = r.moves[i] := by
  rw [moveAt, getD_eq_getElem _ _ hi]

/-- A move other than the exchanged one: its source follows the value. -/
theorem redirect_src (hm : m.src ≠ .invalid) :
    (redirect a b m).src = if m.src = a then b else if m.src = b then a else m.src := by
  by_cases ha : m.src = a
  · rw [redirect, if_pos (by simp [ha, ha ▸ hm]), if_pos ha]
  · by_cases hb : m.src = b
    · rw [redirect, if_neg (by simp [ha]), if_pos (by simp [hb, hb ▸ hm]), if_neg ha, if_pos hb]
    · rw [redirect, if_neg (by simp [ha]), if_neg (by simp [hb]), if_neg ha, if_neg hb]

theorem redirect_dest : (redirect a b m).dest = m.dest := by
  rw [redirect]
  split_ifs <;> rfl

end

theorem redirect_src_eq_invalid {a b : Location} (ha : a ≠ .invalid) (hb : b ≠ .invalid)
    (m : MoveOperands) : (redirect a b m).src = .invalid ↔ m.src = .invalid := by
  by_cases hm : m.src = .invalid
  · simp [redirect, hm]
  · rw [redirect_src a b m hm]
    split_ifs <;> simp_all

end Access

section Machine

variable {constantValue : ℕ → V} {σ : Location → V} {a b loc : Location}

theorem read_of_not_constant (h : loc.isConstant = false) : read constantValue σ loc = σ loc := by
  cases loc <;> first | rfl | simp [Location.isConstant] at h

theorem exec_concat (events : List Event) (e : Event) :
    exec constantValue σ (events ++ [e]) = e.exec constantValue (exec constantValue σ events) := by
  simp [exec]

theorem read_update_of_ne {v : V} (h : loc ≠ a) :
    read constantValue (Function.update σ a v) loc = read constantValue σ loc := by
  cases loc <;> simp [read, update_of_ne h]

theorem read_swap_of_ne (ha : loc ≠ a) (hb : loc ≠ b) :
    read constantValue (σ ∘ Equiv.swap a b) loc = read constantValue σ loc := by
  cases loc <;> simp [read, Equiv.swap_apply_of_ne_of_ne ha hb]

end Machine

section Invariant

/-- The destinations of the moves: places that can be written, no two the same. -/
structure Dests (n : ℕ) (D : ℕ → Location) : Prop where
  valid : ∀ i < n, D i ≠ .invalid
  writable : ∀ i < n, (D i).isConstant = false
  injective : ∀ i < n, ∀ j < n, D i = D j → i = j

/-- What the moves have to do in a machine that starts in `σ`: the `i`-th destination gets `v i`. -/
structure Task (V : Type) (n : ℕ) (D : ℕ → Location) extends Dests n D where
  constantValue : ℕ → V
  σ : Location → V
  v : ℕ → V

/-- The machine after the code that has been emitted. -/
def Task.after {n : ℕ} {D : ℕ → Location} (G : Task V n D) (r : Resolver) : Location → V :=
  exec G.constantValue G.σ r.emitted

/-- The moves as `PerformMove` finds them, when the moves of `stack` are pending (the latest
first).  `D` are the destinations all moves had at the start. -/
structure Shape (n : ℕ) (D : ℕ → Location) (r : Resolver) (stack : List ℕ) : Prop where
  length : r.moves.length = n
  nodup : stack.Nodup
  lt : ∀ i ∈ stack, i < n
  pending : ∀ i ∈ stack, (r.moveAt i).dest = .invalid ∧ (r.moveAt i).src ≠ .invalid
  others : ∀ i < n, i ∉ stack → r.moveAt i = .eliminated ∨
    (r.moveAt i).dest = D i ∧ (r.moveAt i).src ≠ .invalid
  /-- A pending move blocks the one that is below it on the stack. -/
  chain : stack.IsChain fun x y => (r.moveAt x).src = D y
  once : (r.emitted.map Event.index).Nodup
  emitted : ∀ i, i ∈ r.emitted.map Event.index ↔ i < n ∧ (r.moveAt i).src = .invalid

/-- What the emitted code has done. -/
structure Moved {n : ℕ} {D : ℕ → Location} (G : Task V n D) (r : Resolver) : Prop where
  live : ∀ i < n, (r.moveAt i).src ≠ .invalid →
    read G.constantValue (G.after r) (r.moveAt i).src = G.v i
  done : ∀ i < n, (r.moveAt i).src = .invalid → G.after r (D i) = G.v i
  frame : ∀ loc, (∀ i < n, D i ≠ loc) → G.after r loc = G.σ loc

/-- How moves that are not on the stack change while a move is performed: eliminated ones stay so,
and the source of another one stays, or is a destination whose move is now eliminated. -/
structure Advances (n : ℕ) (D : ℕ → Location) (stack : List ℕ) (r r' : Resolver) : Prop where
  eliminated : ∀ i < n, (r.moveAt i).src = .invalid → (r'.moveAt i).src = .invalid
  source : ∀ i < n, i ∉ stack → (r'.moveAt i).src ≠ .invalid →
    (r'.moveAt i).src = (r.moveAt i).src ∨
    (r.moveAt i).src.isConstant = false ∧
      ∃ j < n, j ∉ stack ∧ (r'.moveAt i).src = D j ∧ (r'.moveAt j).src = .invalid

variable {n : ℕ} {D : ℕ → Location} {G : Task V n D} {stack : List ℕ} {r' r'' : Resolver}

theorem Advances.refl (r : Resolver) : Advances n D stack r r :=
  ⟨fun _ _ h => h, fun _ _ _ _ => .inl rfl⟩

/-- Pending moves that have been eliminated need not be excepted any more. -/
theorem Advances.trans_pop {stack' : List ℕ} (h : Advances n D stack' r r')
    (h' : Advances n D stack r' r'') (hsb : stack ⊆ stack')
    (hp : ∀ j ∈ stack', j ∉ stack → (r''.moveAt j).src = .invalid) : Advances n D stack r r'' := by
  refine ⟨fun j hj hej => h'.eliminated j hj (h.eliminated j hj hej), fun j hj hs hv => ?_⟩
  have hv' : (r'.moveAt j).src ≠ .invalid := fun hej => hv (h'.eliminated j hj hej)
  have hf := h.source j hj (fun hmm => hv (hp j hmm hs)) hv'
  rcases h'.source j hj hs hv with heq | ⟨hc, hrest⟩
  · rw [heq]
    rcases hf with heq' | ⟨hc, k, hk, hks, hsrc, hel⟩
    · exact .inl heq'
    · exact .inr ⟨hc, k, hk, fun hmm => hks (hsb hmm), hsrc, h'.eliminated k hk hel⟩
  · refine .inr ⟨?_, hrest⟩
    rcases hf with heq' | ⟨hc', -⟩
    · rw [← heq']
      exact hc
    · exact hc'

theorem Advances.trans (h : Advances n D stack r r') (h' : Advances n D stack r' r'') :
    Advances n D stack r r'' :=
  h.trans_pop h' (Subset.refl _) fun _ hmm hs => absurd hmm hs

theorem Shape.notMem (h : Shape n D r (i :: stack)) : i ∉ stack :=
  (nodup_cons.mp h.nodup).1

theorem Shape.dest (h : Shape n D r stack) (hi : i < n) (his : i ∉ stack)
    (hv : (r.moveAt i).src ≠ .invalid) : (r.moveAt i).dest = D i := by
  rcases h.others i hi his with he | ⟨hd, -⟩
  · exact absurd (by rw [he]; rfl) hv
  · exact hd

theorem Shape.dest_ne (hD : Dests n D) (h : Shape n D r (i :: stack)) {y : ℕ} (hy : y ∈ stack) :
    D y ≠ D i := by
  intro heq
  have hyi : y = i := hD.injective y (h.lt y (by simp [hy])) i (h.lt i (by simp)) heq
  exact h.notMem (hyi ▸ hy)

/-- Move `i` is eliminated with the event `e`, and the other moves are rewritten by `f`. -/
structure Eliminates (n i : ℕ) (e : Event) (f : MoveOperands → MoveOperands) (r r' : Resolver) :
    Prop where
  index : e.index = i
  length : r'.moves.length = n
  emitted : r'.emitted = r.emitted ++ [e]
  moveAt : ∀ j, r'.moveAt j = if j = i then .eliminated else f (r.moveAt j)
  dest : ∀ m, (f m).dest = m.dest
  src : ∀ m, (f m).src = .invalid ↔ m.src = .invalid

section

variable {e : Event} {f : MoveOperands → MoveOperands}

theorem Eliminates.of_moves (hl : r.moves.length = n) (hi : i < n)
    (hmv : r'.moves = (r.moves.set i .eliminated).map f) (hem : r'.emitted = r.emitted ++ [e])
    (hin : e.index = i) (hd : ∀ m, (f m).dest = m.dest)
    (hs : ∀ m, (f m).src = .invalid ↔ m.src = .invalid) : Eliminates n i e f r r' := by
  have hf : f .eliminated = .eliminated := MoveOperands.ext (hd _) ((hs _).mpr rfl)
  refine ⟨hin, by simp [hmv, hl], hem, fun j => ?_, hd, hs⟩
  have hat : r'.moveAt j = f ((r.setMove i .eliminated).moveAt j) := by
    rw [Resolver.moveAt, hmv, ← hf, List.getD_map, hf]
    rfl
  rw [hat, moveAt_setMove (hl ▸ hi)]
  split_ifs
  · exact hf
  · rfl

variable (he : Eliminates n i e f r r')

include he

theorem Eliminates.gone : r'.moveAt i = .eliminated := by rw [he.moveAt, if_pos rfl]

theorem Eliminates.other {j : ℕ} (hj : j ≠ i) : r'.moveAt j = f (r.moveAt j) := by
  rw [he.moveAt, if_neg hj]

theorem Eliminates.after : G.after r' = e.exec G.constantValue (G.after r) := by
  rw [Task.after, he.emitted, exec_concat]
  rfl

theorem Shape.eliminate (h : Shape n D r (i :: stack))
    (hc : ∀ x ∈ stack, ∀ y ∈ stack.tail, (r.moveAt x).src = D y → (f (r.moveAt x)).src = D y) :
    Shape n D r' stack := by
  have hi : i < n := h.lt i (by simp)
  have hne : ∀ {j}, j ∈ stack → j ≠ i := fun hj heq => h.notMem (heq ▸ hj)
  refine ⟨he.length, (nodup_cons.mp h.nodup).2, fun j hj => h.lt j (by simp [hj]), ?_, ?_, ?_, ?_, ?_⟩
  · intro j hj
    rw [he.other (hne hj), he.dest, Ne, he.src]
    exact h.pending j (by simp [hj])
  · intro j hj hs
    by_cases hji : j = i
    · exact .inl (hji ▸ he.gone)
    rw [he.other hji]
    rcases h.others j hj (by simp [hji, hs]) with hel | ⟨hd, hv⟩
    · rw [hel]
      exact .inl (MoveOperands.ext (he.dest _) ((he.src _).mpr rfl))
    · rw [he.dest, Ne, he.src]
      exact .inr ⟨hd, hv⟩
  · refine h.chain.tail.imp_of_mem_tail_imp fun x y hx hy hxy => ?_
    rw [he.other (hne hx)]
    exact hc x hx y hy hxy
  · have hn : i ∉ r.emitted.map Event.index := fun hmm =>
      (h.pending i (by simp)).2 ((h.emitted i).mp hmm).2
    rw [he.emitted, map_append, map_cons, map_nil, he.index]
    exact nodup_append.mpr ⟨h.once, by simp, by
      rintro x hx y hy rfl
      rw [mem_singleton] at hy
      exact hn (hy ▸ hx)⟩
  · intro j
    rw [he.emitted, map_append, mem_append, h.emitted]
    by_cases hji : j = i
    · subst hji
      simp [he.index, hi, he.gone, eliminated]
    · simp [he.index, hji, he.other hji, he.src]

/-- The event gives the move its value, the other moves find theirs, and nothing but the destinations
of moves that are still to be performed is touched. -/
theorem Moved.eliminate (hm : Moved G r) (hi : i < n)
    (hs : e.exec G.constantValue (G.after r) (D i) = G.v i)
    (hlv : ∀ j < n, j ≠ i → (r.moveAt j).src ≠ .invalid →
      read G.constantValue (e.exec G.constantValue (G.after r)) (f (r.moveAt j)).src = G.v j)
    (hkp : ∀ loc ≠ D i, (∀ j < n, (r.moveAt j).src ≠ .invalid → D j ≠ loc) →
      e.exec G.constantValue (G.after r) loc = G.after r loc) : Moved G r' := by
  refine ⟨fun j hj hvj => ?_, fun j hj hej => ?_, fun loc hl => ?_⟩ <;> rw [he.after]
  · by_cases hji : j = i
    · rw [hji, he.gone] at hvj
      exact absurd rfl hvj
    · rw [he.other hji] at hvj ⊢
      exact hlv j hj hji fun hej => hvj ((he.src _).mpr hej)
  · by_cases hji : j = i
    · exact hji ▸ hs
    rw [he.other hji, he.src] at hej
    rw [hkp (D j) fun heq => hji (G.injective j hj i hi heq)]
    · exact hm.done j hj hej
    · rintro k hk hv heq
      obtain rfl := G.injective k hk j hj heq
      exact hv hej
  · rw [hkp loc (hl i hi).symm fun j hj _ => hl j hj]
    exact hm.frame loc hl

end

section Finish

section

variable (hm : Moved G r) (hi : i < n)

include hm hi

theorem Moved.drop (hv : (r.moveAt i).src ≠ .invalid) (heq : (r.moveAt i).src = D i)
    (he : Eliminates n i (.drop i) id r r') : Moved G r' := by
  refine hm.eliminate he hi ?_ (fun j hj _ hv => hm.live j hj hv) fun _ _ _ => rfl
  rw [← hm.live i hi hv, heq, read_of_not_constant (G.writable i hi)]
  rfl

/-- The move is emitted as a move: no other move reads its destination. -/
theorem Moved.move (hv : (r.moveAt i).src ≠ .invalid)
    (hf : ∀ j < n, j ≠ i → (r.moveAt j).src ≠ D i)
    (he : Eliminates n i (.move i (D i) (r.moveAt i).src) id r r') : Moved G r' := by
  refine hm.eliminate he hi ?_ (fun j hj hji hvj => ?_) fun loc hl _ => update_of_ne hl ..
  · rw [← hm.live i hi hv]
    exact update_self ..
  · rw [← hm.live j hj hvj]
    exact read_update_of_ne (hf j hj hji)

/-- The move is emitted as a swap: its source is the destination of a move that is still to be
performed, and the other moves find their values where the swap has put them. -/
theorem Moved.swap {y : ℕ} (hy : y < n) (hl : (r.moveAt y).src ≠ .invalid)
    (hs : (r.moveAt i).src = D y)
    (he : Eliminates n i (.swap i (D i) (D y)) (redirect (D y) (D i)) r r') : Moved G r' := by
  refine hm.eliminate he hi ?_ (fun j hj hji hvj => ?_) fun loc hlo hlc => ?_
  · rw [← hm.live i hi (by rw [hs]; exact G.valid y hy), hs,
      read_of_not_constant (G.writable y hy), Event.exec]
    simp
  · rw [redirect_src _ _ _ hvj, ← hm.live j hj hvj, Event.exec]
    split_ifs with hjy hji'
    · rw [hjy, read_of_not_constant (G.writable i hi), read_of_not_constant (G.writable y hy)]
      simp
    · rw [hji', read_of_not_constant (G.writable i hi), read_of_not_constant (G.writable y hy)]
      simp
    · rw [read_swap_of_ne hji' hjy]
  · rw [Event.exec, comp_apply, Equiv.swap_apply_of_ne_of_ne hlo (hlc y hy hl).symm]

end

/-- The resolver has come from `r` to `r'`. -/
structure Goes (G : Task V n D) (stack : List ℕ) (r r' : Resolver) : Prop where
  shape : Shape n D r' stack
  moved : Moved G r'
  advances : Advances n D stack r r'

/-- What performing move `i` achieves. -/
structure Performed (G : Task V n D) (stack : List ℕ) (i : ℕ) (r r' : Resolver) : Prop
    extends Goes G stack r r' where
  gone : (r'.moveAt i).src = .invalid

/-- A move is eliminated: what pending moves read stays, and the others read what they did or the
destination of this one. -/
theorem Performed.of_eliminates {e : Event} {f : MoveOperands → MoveOperands}
    (h : Shape n D r (i :: stack)) (he : Eliminates n i e f r r') (hm : Moved G r')
    (hch : ∀ x ∈ stack, ∀ y ∈ stack.tail, (r.moveAt x).src = D y → (f (r.moveAt x)).src = D y)
    (hsr : ∀ j < n, j ∉ i :: stack → (r.moveAt j).src ≠ .invalid →
      (f (r.moveAt j)).src = (r.moveAt j).src ∨
        (r.moveAt j).src.isConstant = false ∧ (f (r.moveAt j)).src = D i) :
    Performed G stack i r r' := by
  have hg : (r'.moveAt i).src = .invalid := by
    rw [he.gone]
    rfl
  refine ⟨⟨h.eliminate he hch, hm, ⟨fun j hj hej => ?_, fun j hj hs hv => ?_⟩⟩, hg⟩
  · by_cases hji : j = i
    · rw [hji, hg]
    · rw [he.other hji, he.src]
      exact hej
  · have hji : j ≠ i := by
      rintro rfl
      exact hv hg
    rw [he.other hji] at hv ⊢
    rcases hsr j hj (by simp [hji, hs]) fun hej => hv ((he.src _).mpr hej) with heq | ⟨hc, hsrc⟩
    · exact .inl heq
    · exact .inr ⟨hc, i, h.lt i (by simp), h.notMem, hsrc, hg⟩

theorem Performed.of_keep (h : Shape n D r (i :: stack)) {e : Event} (he : Eliminates n i e id r r')
    (hm : Moved G r') : Performed G stack i r r' :=
  .of_eliminates h he hm (fun _ _ _ _ hxy => hxy) fun _ _ _ _ => .inl rfl

/-- A move is eliminated by a swap with the destination of the pending move below it; of the moves
that read its own destination only pending ones are left. -/
theorem Performed.of_swap {y : ℕ} (h : Shape n D r (i :: y :: stack))
    (hn : ∀ j < n, j ∉ i :: y :: stack → (r.moveAt j).src ≠ D i)
    (he : Eliminates n i (.swap i (D i) (D y)) (redirect (D y) (D i)) r r')
    (hm : Moved G r) : Performed G (y :: stack) i r r' := by
  have hy : y < n := h.lt y (by simp)
  have hsr := (isChain_cons_cons.mp h.chain).1
  refine .of_eliminates h he (hm.swap (h.lt i (by simp)) hy (h.pending y (by simp)).2 hsr he)
    (fun x hx z hz hxz => ?_) fun j hj hs hv => ?_
  · -- a pending move reads the destination of one further down, which the swap does not touch
    have hzs : z ∈ y :: stack := mem_cons_of_mem y hz
    have hzy : z ≠ y := by
      rintro rfl
      exact (nodup_cons.mp (nodup_cons.mp h.nodup).2).1 hz
    have h1 : D z ≠ D y := fun heq => hzy (G.injective z (h.lt z (by simp [hzs])) y hy heq)
    have h2 : D z ≠ D i := h.dest_ne G.toDests hzs
    rw [redirect_src _ _ _ (h.pending x (by simp [hx])).2, hxz, if_neg h1, if_neg h2]
  · rw [redirect_src _ _ _ hv]
    split_ifs with hjy hji'
    · rw [hjy]
      exact .inr ⟨G.writable y hy, rfl⟩
    · exact absurd hji' (hn j hj hs)
    · exact .inl rfl

/-- **The end of `PerformMove`**, when only pending moves can still read the destination. -/
theorem finishMove_spec (h : Shape n D r (i :: stack)) (hm : Moved G r)
    (hn : ∀ j < n, j ∉ i :: stack → (r.moveAt j).src ≠ D i) :
    Performed G stack i r (finishMove r i (D i)) := by
  have hi : i < n := h.lt i (by simp)
  have hl : i < r.moves.length := h.length ▸ hi
  have hv : (r.moveAt i).src ≠ .invalid := (h.pending i (by simp)).2
  -- the moves after the destination has been put back
  obtain ⟨r₁, hr₁⟩ : ∃ r₁, r₁ = r.setMove i ((r.moveAt i).clearPending (D i)) := ⟨_, rfl⟩
  have hat₁ : ∀ j, r₁.moveAt j = if j = i then ⟨D i, (r.moveAt i).src⟩ else r.moveAt j := by
    rw [hr₁]
    exact moveAt_setMove hl _
  have hsl : r₁.moveAt i = ⟨D i, (r.moveAt i).src⟩ := by rw [hat₁, if_pos rfl]
  have hl₁ : r₁.moves.length = n := by rw [hr₁, length_setMove, h.length]
  have hst₁ : r₁.moves.set i .eliminated = r.moves.set i .eliminated := by simp [hr₁, setMove]
  have hem₁ : r₁.emitted = r.emitted := by rw [hr₁]; rfl
  have hbl : r₁.moves.any (fun other => other.blocks (D i)) = true ↔
      ∃ j < n, (r₁.moveAt j).src = D i := by
    rw [List.any_eq_true]
    constructor
    · rintro ⟨m, hmem, hb⟩
      obtain ⟨j, hj, rfl⟩ := getElem_of_mem hmem
      exact ⟨j, hl₁ ▸ hj, by rw [moveAt_of_lt hj]; exact (blocks_iff.mp hb).2⟩
    · rintro ⟨j, hj, hs⟩
      have hj₁ : j < r₁.moves.length := hl₁ ▸ hj
      rw [moveAt_of_lt hj₁] at hs
      exact ⟨_, getElem_mem hj₁, blocks_iff.mpr ⟨hs ▸ G.valid i hi, hs⟩⟩
  rw [finishMove, ← hr₁]
  split_ifs with heq hbc
  · rw [hsl] at heq
    have he : Eliminates n i (.drop i) id r ((r₁.setMove i .eliminated).emit (.drop i)) :=
      .of_moves h.length hi (by simp [emit, setMove, hst₁]) (by rw [← hem₁]; rfl) rfl
        (fun _ => rfl) fun _ => .rfl
    exact .of_keep h he (hm.drop hi hv heq he)
  · -- the blocking move is pending, so the stack is not empty
    obtain ⟨j, hj, hs⟩ := hbl.mp hbc
    have hji : j ≠ i := by
      rintro rfl
      exact heq hs
    have hjs : j ∈ stack := by
      by_contra hns
      rw [hat₁, if_neg hji] at hs
      exact hn j hj (by simp [hji, hns]) hs
    obtain ⟨y, _, rfl⟩ := exists_cons_of_ne_nil (ne_nil_of_mem hjs)
    have hsr := (isChain_cons_cons.mp h.chain).1
    have hy : y < n := h.lt y (by simp)
    refine .of_swap h hn (.of_moves h.length hi ?_ ?_ rfl (redirect_dest _ _)
      (redirect_src_eq_invalid (G.valid y hy) (G.valid i hi))) hm
    · simp [emitSwap, emit, setMove, hsl, hsr, hst₁]
    · simp [emitSwap, emit, setMove, hsl, hsr, hem₁]
  · have he : Eliminates n i (.move i (D i) (r.moveAt i).src) id r (emitMove r₁ i) := by
      refine .of_moves h.length hi ?_ ?_ rfl (fun _ => rfl) fun _ => .rfl
      · simp [emitMove, emit, setMove, hst₁]
      · simp [emitMove, emit, setMove, hsl, hem₁]
    refine .of_keep h he (hm.move hi hv (fun j hj hji hs => ?_) he)
    exact hbc (hbl.mpr ⟨j, hj, by rw [hat₁, if_neg hji]; exact hs⟩)

end Finish

section Perform

/-- A move that does not read the destination of a pending move does not come to read it. -/
theorem Advances.src_ne (hD : Dests n D) (h : Advances n D stack r r') {i j : ℕ} (hi : i < n)
    (his : i ∈ stack) (hj : j < n) (hjs : j ∉ stack) (hne : (r.moveAt j).src ≠ D i) :
    (r'.moveAt j).src ≠ D i := by
  intro heq
  rcases h.source j hj hjs (heq ▸ hD.valid i hi) with hs | ⟨-, k, hk, hks, hsrc, -⟩
  · exact hne (hs.symm.trans heq)
  · have hki : k = i := hD.injective k hk i hi (hsrc.symm.trans heq)
    exact hks (hki ▸ his)

theorem src_markPending (hi : i < r.moves.length) (j : ℕ) :
    ((r.setMove i (r.moveAt i).markPending).moveAt j).src = (r.moveAt j).src := by
  rw [moveAt_setMove hi]
  split_ifs with hji
  · rw [hji]
    rfl
  · rfl

theorem Shape.markPending (h : Shape n D r stack) (hi : i < n) (his : i ∉ stack)
    (hv : (r.moveAt i).src ≠ .invalid) (hh : ∀ y ∈ stack.head?, (r.moveAt i).src = D y) :
    Shape n D (r.setMove i (r.moveAt i).markPending) (i :: stack) := by
  have hl : i < r.moves.length := h.length ▸ hi
  have hat := moveAt_setMove hl (r.moveAt i).markPending
  have hs := src_markPending hl
  have hd : ∀ j, j ≠ i → (r.setMove i (r.moveAt i).markPending).moveAt j = r.moveAt j :=
    fun j hj => by rw [hat, if_neg hj]
  refine ⟨by rw [length_setMove, h.length], nodup_cons.mpr ⟨his, h.nodup⟩,
    forall_mem_cons.mpr ⟨hi, h.lt⟩, ?_, ?_, ?_, h.once, ?_⟩
  · intro j hj
    rw [hs]
    rcases mem_cons.mp hj with rfl | hj
    · exact ⟨by rw [hat, if_pos rfl]; rfl, hv⟩
    · rw [hd j fun hji => his (hji ▸ hj)]
      exact h.pending j hj
  · intro j hj hjs
    simp only [mem_cons, not_or] at hjs
    rw [hd j hjs.1]
    exact h.others j hj hjs.2
  · simp only [hs]
    exact h.chain.cons hh
  · intro j
    rw [hs]
    exact h.emitted j

theorem Moved.markPending (hm : Moved G r) (hi : i < r.moves.length) :
    Moved G (r.setMove i (r.moveAt i).markPending) := by
  have hs := src_markPending hi
  refine ⟨fun j hj hv => ?_, fun j hj he => ?_, hm.frame⟩
  · rw [hs] at hv ⊢
    exact hm.live j hj hv
  · rw [hs] at he
    exact hm.done j hj he

theorem Advances.markPending (hi : i < r.moves.length) :
    Advances n D stack r (r.setMove i (r.moveAt i).markPending) := by
  have hs := src_markPending hi
  exact ⟨fun j _ he => (hs j).trans he, fun j _ _ _ => .inl (hs j)⟩

theorem Goes.refl (h : Shape n D r stack) (hm : Moved G r) : Goes G stack r r := ⟨h, hm, .refl r⟩

theorem Goes.trans (h : Goes G stack r r') (h' : Goes G stack r' r'') : Goes G stack r r'' :=
  ⟨h'.shape, h'.moved, h.advances.trans h'.advances⟩

/-- A loop over all moves, where what a round says of its move stays. -/
theorem Goes.foldlM {step : Resolver → ℕ → Option Resolver} {Q : Resolver → ℕ → Prop}
    (hs : ∀ r', ∀ j < n, Goes G stack r r' → ∃ r'', step r' j = some r'' ∧ Goes G stack r' r'' ∧ Q r'' j)
    (hkp : ∀ r r', ∀ j < n, Advances n D stack r r' → Q r j → Q r' j)
    (h : Shape n D r stack) (hm : Moved G r) :
    ∃ r', (List.range n).foldlM step r = some r' ∧ Goes G stack r r' ∧ ∀ j < n, Q r' j := by
  have hl : ∀ (js : List ℕ) (r₀ : Resolver), (∀ j ∈ js, j < n) → Goes G stack r r₀ →
      ∃ r', js.foldlM step r₀ = some r' ∧ Goes G stack r₀ r' ∧ ∀ j ∈ js, Q r' j := by
    intro js
    induction js with
    | nil => exact fun r₀ _ h => ⟨r₀, rfl, .refl h.shape h.moved, by simp⟩
    | cons j js ih =>
      intro r₀ hjs h
      have hj : j < n := hjs j (by simp)
      obtain ⟨r₁, hr₁, h₁, hq₁⟩ := hs r₀ j hj h
      obtain ⟨r₂, hr₂, h₂, hq₂⟩ := ih r₁ (fun k hk => hjs k (by simp [hk])) (h.trans h₁)
      refine ⟨r₂, by rw [foldlM_cons, hr₁]; exact hr₂, h₁.trans h₂, fun k hk => ?_⟩
      rcases mem_cons.mp hk with rfl | hk
      · exact hkp r₁ r₂ k hj h₂.advances hq₁
      · exact hq₂ k hk
  obtain ⟨r', hr', h', hq⟩ := hl (List.range n) r (fun j => mem_range.mp) (.refl h hm)
  exact ⟨r', hr', h', fun j hj => hq j (mem_range.mpr hj)⟩

/-- What `performMove` does, for a given fuel. -/
def PerformsAll (G : Task V n D) (fuel : ℕ) : Prop :=
  ∀ (r : Resolver) (stack : List ℕ) (i : ℕ), Shape n D r stack → Moved G r → i < n → i ∉ stack →
    (r.moveAt i).src ≠ .invalid → (∀ y ∈ stack.head?, (r.moveAt i).src = D y) →
    n ≤ fuel + stack.length → ∃ r', performMove fuel r i = some r' ∧ Performed G stack i r r'

/-- **The loop of `PerformMove`**: it performs every move that blocks the pending move `i`, and
misses none. -/
theorem blockers_spec {fuel : ℕ} (hr : PerformsAll G fuel)
    (h : Shape n D r (i :: stack)) (hm : Moved G r) (hf : n ≤ fuel + (i :: stack).length) :
    ∃ r', (List.range n).foldlM (fun r j =>
        if (r.moveAt j).blocks (D i) && !(r.moveAt j).isPending then performMove fuel r j
        else some r) r = some r' ∧
      Goes G (i :: stack) r r' ∧ ∀ j < n, j ∉ i :: stack → (r'.moveAt j).src ≠ D i := by
  have hi : i < n := h.lt i (by simp)
  refine Goes.foldlM (Q := fun r j => j ∉ i :: stack → (r.moveAt j).src ≠ D i) ?_
    (fun r r' j hj ha hne hjs => ha.src_ne G.toDests hi (by simp) hj hjs (hne hjs)) h hm
  rintro r j hj ⟨h, hm, -⟩
  by_cases hb : ((r.moveAt j).blocks (D i) && !(r.moveAt j).isPending) = true
  · rw [if_pos hb]
    rw [Bool.and_eq_true, blocks_iff, Bool.not_eq_true'] at hb
    obtain ⟨⟨hv, hs⟩, hnp⟩ := hb
    have hjs : j ∉ i :: stack := fun hmm => by
      have hp := h.pending j hmm
      simp [isPending, hp] at hnp
    obtain ⟨r₁, hr₁, hp⟩ := hr r (i :: stack) j h hm hj hjs hv (by simpa using hs) hf
    exact ⟨r₁, hr₁, hp.toGoes, fun _ heq => G.valid i hi (heq.symm.trans hp.gone)⟩
  · rw [if_neg hb]
    refine ⟨r, rfl, .refl h hm, fun hjs heq => hb ?_⟩
    have hv : (r.moveAt j).src ≠ .invalid := heq ▸ G.valid i hi
    have hd : (r.moveAt j).dest ≠ .invalid := by
      rw [h.dest hj hjs hv]
      exact G.valid j hj
    rw [Bool.and_eq_true, blocks_iff]
    exact ⟨⟨hv, heq⟩, by simp [isPending, hd]⟩

/-- **`PerformMove` performs its move**, whatever the moves and the stack of pending ones. -/
theorem performMove_spec (fuel : ℕ) : PerformsAll G fuel := by
  induction fuel with
  | zero =>
    -- there is always fuel: the stack holds different moves
    intro r stack i h _ hi his _ _ hfl
    exfalso
    have hs : i :: stack ⊆ List.range n :=
      cons_subset.mpr ⟨mem_range.mpr hi, fun j hj => mem_range.mpr (h.lt j hj)⟩
    have hle := (List.Nodup.subperm (nodup_cons.mpr ⟨his, h.nodup⟩) hs).length_le
    rw [length_cons, length_range] at hle
    omega
  | succ fuel ih =>
    intro r stack i h hm hi his hv hh hfl
    have hl : i < r.moves.length := h.length ▸ hi
    have hmr := h.markPending hi his hv hh
    obtain ⟨r₂, hr₂, h₂, hne₂⟩ := blockers_spec ih hmr (hm.markPending hl)
      (by rw [length_cons]; omega)
    have hf := finishMove_spec h₂.shape h₂.moved hne₂
    refine ⟨finishMove r₂ i (D i), ?_, ⟨hf.shape, hf.moved, ?_⟩, hf.gone⟩
    · rw [performMove, h.dest hi his hv, h.length, hr₂]
      rfl
    · refine ((Advances.markPending hl).trans h₂.advances).trans_pop hf.advances
        (subset_cons_self ..) fun j hj hjs => ?_
      rw [(mem_cons.mp hj).resolve_right hjs]
      exact hf.gone

end Perform

section Emit

/-- The move is performed, or it has a constant source. -/
def DoneOrConstant (r : Resolver) (j : ℕ) : Prop :=
  (r.moveAt j).src = .invalid ∨ (r.moveAt j).src.isConstant = true

theorem Advances.done_or_constant (h : Advances n D [] r r') {j : ℕ} (hj : j < n)
    (hq : DoneOrConstant r j) : DoneOrConstant r' j := by
  by_cases he : (r'.moveAt j).src = .invalid
  · exact .inl he
  rcases hq with hq | hq
  · exact .inl (h.eliminated j hj hq)
  · rcases h.source j hj (by simp) he with heq | ⟨hc, -⟩
    · exact .inr (heq ▸ hq)
    · rw [hq] at hc
      cases hc

/-- The first loop of `EmitNativeCode`: only moves with a constant source are left. -/
theorem performAll_spec (h : Shape n D r []) (hm : Moved G r) :
    ∃ r', (List.range n).foldlM (fun r j =>
        if !(r.moveAt j).isEliminated && !(r.moveAt j).src.isConstant then performMove n r j
        else some r) r = some r' ∧
      Goes G [] r r' ∧ ∀ j < n, DoneOrConstant r' j := by
  refine Goes.foldlM (Q := DoneOrConstant) ?_ (fun r r' j hj ha => ha.done_or_constant hj) h hm
  rintro r j hj ⟨h, hm, -⟩
  by_cases hb : (!(r.moveAt j).isEliminated && !(r.moveAt j).src.isConstant) = true
  · rw [if_pos hb]
    have hv : (r.moveAt j).src ≠ .invalid := by
      rw [Bool.and_eq_true, Bool.not_eq_true', ← Bool.not_eq_true, isEliminated_iff] at hb
      exact hb.1
    obtain ⟨r₁, hr₁, hp⟩ := performMove_spec n r [] j h hm hj (by simp) hv (by simp) (by simp)
    exact ⟨r₁, hr₁, hp.toGoes, .inl hp.gone⟩
  · rw [if_neg hb]
    refine ⟨r, rfl, .refl h hm, ?_⟩
    by_cases he : (r.moveAt j).src = .invalid
    · exact .inl he
    · right
      simpa [isEliminated, he] using hb

theorem emitMove_spec (h : Shape n D r []) (hm : Moved G r) (hi : i < n)
    (hv : (r.moveAt i).src ≠ .invalid) (hf : ∀ j < n, j ≠ i → (r.moveAt j).src ≠ D i) :
    Performed G [] i r (emitMove r i) := by
  have hl : i < r.moves.length := h.length ▸ hi
  have hem : (emitMove r i).emitted = r.emitted ++ [.move i (D i) (r.moveAt i).src] := by
    rw [← h.dest hi (by simp) hv]
    rfl
  have he : Eliminates n i _ id r (emitMove r i) :=
    .of_moves h.length hi (map_id _).symm hem rfl (fun _ => rfl) fun _ => .rfl
  have hmr := h.markPending hi (by simp) hv (by simp)
  have hp := Performed.of_keep hmr
    (.of_moves hmr.length hi (by simp [emitMove, emit, setMove]) hem rfl (fun _ => rfl) fun _ => .rfl)
    (hm.move hi hv hf he)
  exact ⟨⟨hp.shape, hp.moved, (Advances.markPending hl).trans hp.advances⟩, hp.gone⟩

theorem emitConstants_spec (h : Shape n D r []) (hm : Moved G r) (hq : ∀ j < n, DoneOrConstant r j) :
    ∃ r', (List.range n).foldlM (fun r j =>
        some (if !(r.moveAt j).isEliminated then emitMove r j else r)) r = some r' ∧
      Goes G [] r r' ∧ ∀ j < n, (r'.moveAt j).src = .invalid := by
  refine Goes.foldlM (Q := fun r j => (r.moveAt j).src = .invalid) (fun r' j hj h => ?_)
    (fun r r' j hj ha => ha.eliminated j hj) h hm
  by_cases he : (r'.moveAt j).src = .invalid
  · rw [if_neg (by simp [isEliminated, he])]
    exact ⟨r', rfl, .refl h.shape h.moved, he⟩
  rw [if_pos (by simp [isEliminated, he])]
  -- what is left to perform reads constants, so no move reads this one's destination
  have hp := emitMove_spec h.shape h.moved hj he fun k hk _ heq => by
    rcases h.advances.done_or_constant hk (hq k hk) with hk' | hk'
    · exact G.valid j hj (heq.symm.trans hk')
    · rw [heq, G.writable j hj] at hk'
      cases hk'
  exact ⟨_, rfl, hp.toGoes, hp.gone⟩

end Emit

end Invariant

section Main

/-- The moves of a `ParallelMoveInstr`: no two have the same destination (a cleared one is to be
ignored), and none writes a constant. -/
structure ParallelMove where
  moves : List MoveOperands
  distinct : moves.Pairwise fun m m' => m.dest = m'.dest → m.dest = .invalid
  writable : ∀ m ∈ moves, m.dest.isConstant = false
  operands : ∀ m ∈ moves, m.src = .invalid → m.dest = .invalid

namespace ParallelMove

variable (p : ParallelMove)

abbrev count : ℕ := (buildInitialMoveList p.moves).length

/-- The destination and the source the `i`-th move of the initial list starts with. -/
def destOf (i : ℕ) : Location := ((buildInitialMoveList p.moves).getD i .eliminated).dest

def srcOf (i : ℕ) : Location := ((buildInitialMoveList p.moves).getD i .eliminated).src

section

variable {i : ℕ} (hi : i < p.count)

include hi

theorem mem_initial :
    ∃ m ∈ p.moves, m.isRedundant = false ∧ p.destOf i = m.dest ∧ p.srcOf i = m.src := by
  have hmm := getElem_mem hi
  obtain ⟨hm, hr⟩ := mem_filter.mp hmm
  refine ⟨_, hm, by simpa using hr, ?_, ?_⟩
  · rw [destOf, getD_eq_getElem _ _ hi]
  · rw [srcOf, getD_eq_getElem _ _ hi]

theorem destOf_valid : p.destOf i ≠ .invalid := by
  obtain ⟨m, -, hr, hd, -⟩ := p.mem_initial hi
  rw [hd]
  exact (isRedundant_eq_false.mp hr).2.1

theorem srcOf_valid : p.srcOf i ≠ .invalid := by
  obtain ⟨m, -, hr, -, hs⟩ := p.mem_initial hi
  rw [hs]
  exact (isRedundant_eq_false.mp hr).1

end

theorem dest_eq {m m' : MoveOperands} (hm : m ∈ p.moves) (hm' : m' ∈ p.moves) (hne : m ≠ m')
    (heq : m.dest = m'.dest) : m.dest = .invalid := by
  have _ : Std.Symm fun m m' : MoveOperands => m.dest = m'.dest → m.dest = .invalid :=
    ⟨fun _ _ h hba => hba.trans (h hba.symm)⟩
  exact p.distinct.forall hm hm' hne heq

theorem dests : Dests p.count p.destOf := by
  refine ⟨fun i hi => p.destOf_valid hi, fun i hi => ?_, fun i hi j hj heq => ?_⟩
  · obtain ⟨m, hm, -, hd, -⟩ := p.mem_initial hi
    rw [hd]
    exact p.writable m hm
  · -- two moves of the list with one destination would be two of the parallel move
    have hp : (buildInitialMoveList p.moves).Pairwise
        fun m m' => m.dest = m'.dest → m.dest = .invalid := p.distinct.filter _
    have hg : ∀ k (hk : k < p.count),
        (buildInitialMoveList p.moves)[k].dest = p.destOf k := fun k hk => by
      rw [destOf, getD_eq_getElem _ _ hk]
    rw [pairwise_iff_getElem] at hp
    by_contra hne
    wlog hlt : i < j generalizing i j
    · exact this j hj i hi heq.symm (Ne.symm hne) (by omega)
    refine p.destOf_valid hi ?_
    rw [← hg i hi]
    exact hp i j hi hj hlt (by rw [hg, hg, heq])

theorem shape_initial :
    Shape p.count p.destOf ⟨buildInitialMoveList p.moves, []⟩ [] :=
  ⟨rfl, by simp, by simp, by simp, fun i hi _ => .inr ⟨rfl, p.srcOf_valid hi⟩, by simp, by simp,
    fun i => ⟨by simp, fun ⟨hi, he⟩ => absurd he (p.srcOf_valid hi)⟩⟩

def task {V : Type} (constantValue : ℕ → V) (σ : Location → V) :
    Task V p.count p.destOf :=
  ⟨p.dests, constantValue, σ, fun i => read constantValue σ (p.srcOf i)⟩

/-- `EmitNativeCode` ends, and its code is right for one machine. -/
theorem emitNativeCode_moved {V : Type} (constantValue : ℕ → V) (σ : Location → V) :
    ∃ r, emitNativeCode p.moves = some r ∧
      Shape p.count p.destOf r [] ∧
      Moved (p.task constantValue σ) r ∧
      ∀ i < p.count, (r.moveAt i).src = .invalid := by
  have hmv : Moved (p.task constantValue σ) ⟨buildInitialMoveList p.moves, []⟩ :=
    ⟨fun i _ _ => rfl, fun i hi he => absurd he (p.srcOf_valid hi), fun loc _ => rfl⟩
  obtain ⟨_, hr₁, h₁, hq₁⟩ := performAll_spec p.shape_initial hmv
  obtain ⟨r, hr, h₂, hg⟩ := emitConstants_spec h₁.shape h₁.moved hq₁
  refine ⟨r, ?_, h₂.shape, h₂.moved, hg⟩
  rw [emitNativeCode, hr₁, ← hr]
  exact (foldlM_pure (m := Option) ..).symm

/-- **The emitted code performs the parallel move.**  `EmitNativeCode` ends with no move left or
pending; every move that is not redundant has been performed once; and from every machine state
the code leaves in every destination what its source held at the start, and all else as it was. -/
theorem emitNativeCode_spec :
    ∃ r, emitNativeCode p.moves = some r ∧
      (∀ m ∈ r.moves, m = .eliminated) ∧
      (r.emitted.map Event.index).Perm (List.range (buildInitialMoveList p.moves).length) ∧
      ∀ (V : Type) (constantValue : ℕ → V) (σ : Location → V),
        (∀ m ∈ p.moves, m.dest ≠ .invalid →
          exec constantValue σ r.emitted m.dest = read constantValue σ m.src) ∧
        ∀ loc, (∀ m ∈ p.moves, m.dest ≠ loc) → exec constantValue σ r.emitted loc = σ loc := by
  obtain ⟨r, hr, h, -, hg⟩ := p.emitNativeCode_moved (fun _ => ()) (fun _ => ())
  refine ⟨r, hr, fun m hm => ?_, ?_, fun V constantValue σ => ?_⟩
  · obtain ⟨i, hi, rfl⟩ := getElem_of_mem hm
    have hin : i < p.count := h.length ▸ hi
    rw [← moveAt_of_lt hi]
    rcases h.others i hin (by simp) with he | ⟨-, hv⟩
    · exact he
    · exact absurd (hg i hin) hv
  · refine (perm_ext_iff_of_nodup h.once nodup_range).mpr fun i => ?_
    rw [h.emitted, mem_range]
    exact ⟨fun hi => hi.1, fun hi => ⟨hi, hg i hi⟩⟩
  · obtain ⟨r', hr', -, hm, hg'⟩ := p.emitNativeCode_moved constantValue σ
    obtain rfl : r = r' := some.inj (hr.symm.trans hr')
    have hf : ∀ loc, (∀ m ∈ p.moves, m.isRedundant = false → m.dest ≠ loc) →
        exec constantValue σ r.emitted loc = σ loc := by
      intro loc hl
      refine hm.frame loc fun i hi => ?_
      obtain ⟨m, hmm, hrd, hd, -⟩ := p.mem_initial hi
      rw [hd]
      exact hl m hmm hrd
    refine ⟨fun m hmm hd => ?_, fun loc hl => hf loc fun m hmm _ => hl m hmm⟩
    have hs : m.src ≠ .invalid := fun he => hd (p.operands m hmm he)
    by_cases hrd : m.isRedundant = false
    · have hin : m ∈ buildInitialMoveList p.moves := mem_filter.mpr ⟨hmm, by simp [hrd]⟩
      obtain ⟨i, hi, rfl⟩ := getElem_of_mem hin
      have hdn : exec constantValue σ r.emitted (p.destOf i) = read constantValue σ (p.srcOf i) :=
        hm.done i hi (hg' i hi)
      rwa [destOf, srcOf, getD_eq_getElem _ _ hi] at hdn
    -- a redundant move with both operands is from its destination to itself
    have hsl : m.src = m.dest := by
      by_contra hne
      exact hrd (isRedundant_eq_false.mpr ⟨hs, hd, hne⟩)
    rw [hsl, read_of_not_constant (p.writable m hmm)]
    refine hf m.dest fun m' hmm' hrd' heq => hd ?_
    have hne : m ≠ m' := by
      rintro rfl
      exact hrd hrd'
    exact p.dest_eq hmm hmm' hne heq.symm

/-- Two registers that change places, a third one and a stack slot that are set from them and
from a constant. -/
def exchange : ParallelMove where
  moves := [⟨.register 1, .register 0⟩, ⟨.register 2, .register 0⟩, ⟨.stackSlot 5 3, .constant 7⟩,
    ⟨.register 0, .register 1⟩]
  distinct := by decide
  writable := by decide
  operands := by decide

theorem emitNativeCode_spec_exchange :
    ∃ r, emitNativeCode exchange.moves = some r ∧
      exec (fun c => 100 * c) (fun loc => if loc = .register 0 then 10 else 11) r.emitted
        (.register 0) = 11 := by
  obtain ⟨r, hr, -, -, hex⟩ := exchange.emitNativeCode_spec
  exact ⟨r, hr, (hex ℕ _ _).1 ⟨.register 0, .register 1⟩ (by decide) (by decide)⟩

end ParallelMove

end Main

end DartSdk.Vm.ParallelMoveResolver
