import Mathlib.Data.List.Chain

/-!
# Linked rings

A doubly linked list that starts and ends at a root.  `Cyclic` is such a list over a relation between
neighbours; `Ring` is one over two maps from nodes to nodes, as the way from the root to itself through
a list of nodes.

* `Cyclic.insert`, `Cyclic.erase`: a new node comes between two neighbours, and a node is taken out;
* `Ring.insert`: a new node just before the root is the last one of the list;
* `Ring.unlink`: a node is taken out.
-/

namespace DartSdk.LinkedRing

open List

section Chains

variable {α : Type} {R S : α → α → Prop} {x root : α} {l l₁ l₂ : List α}

/-- **The nodes of `l`, in order, between the root and itself**, each related to the next one. -/
structure Cyclic (R : α → α → Prop) (root : α) (l : List α) : Prop where
  chain : IsChain R (root :: (l ++ [root]))
  nodup : (root :: l).Nodup

theorem append_root_eq (l : List α) (root : α) : ∃ l', l ++ [root] = l.headD root :: l' := by
  cases l with
  | nil => exact ⟨[], rfl⟩
  | cons y l => exact ⟨l ++ [root], rfl⟩

theorem Cyclic.imp (h : Cyclic R root l)
    (hk : ∀ u v, u ∈ root :: l → v ∈ root :: l → R u v → S u v) : Cyclic S root l :=
  ⟨h.chain.imp_of_mem_imp fun u v hu hv => hk u v (by grind) (by grind), h.nodup⟩

theorem Cyclic.neighbours (h : Cyclic R root (l₁ ++ x :: l₂)) :
    (∃ u ∈ root :: l₁, R u x) ∧ R x (l₂.headD root) := by
  obtain ⟨l, hl⟩ := append_root_eq l₂ root
  have hc := h.chain
  rw [append_assoc, cons_append, hl, isChain_cons_append_cons_cons, ← cons_append, isChain_append]
    at hc
  obtain ⟨⟨-, -, hls⟩, hnext, -⟩ := hc
  exact ⟨⟨_, getLast_mem (cons_ne_nil root l₁), hls _ (getLast?_eq_some_getLast _) x rfl⟩, hnext⟩

theorem Cyclic.root_neighbours (h : Cyclic R root l) :
    (∃ u ∈ root :: l, R u root) ∧ R root (l.headD root) := by
  obtain ⟨hc, -⟩ := h
  constructor
  · rw [← cons_append, isChain_append] at hc
    exact ⟨_, getLast_mem (cons_ne_nil root l), hc.2.2 _ (getLast?_eq_some_getLast _) root rfl⟩
  · obtain ⟨l', hl⟩ := append_root_eq l root
    rw [hl] at hc
    exact (isChain_cons_cons.mp hc).1

/-- A new node `x` comes between the nodes of `l₁` and what is after them. -/
theorem Cyclic.insert (h : Cyclic R root (l₁ ++ l₂)) (hx : x ∉ root :: (l₁ ++ l₂))
    (hk : ∀ u v, u ≠ x → v ≠ x → v ≠ l₂.headD root → R u v → S u v)
    (hb : ∀ u, u ≠ x → R u (l₂.headD root) → S u x) (ha : S x (l₂.headD root)) :
    Cyclic S root (l₁ ++ x :: l₂) := by
  obtain ⟨hc, hn⟩ := h
  obtain ⟨l, hl⟩ := append_root_eq l₂ root
  have hr : (l₁ ++ l₂.headD root :: l).Nodup := by
    rw [← hl, ← append_assoc]
    exact (perm_append_singleton root _).nodup_iff.mpr hn
  refine ⟨?_, by grind⟩
  rw [append_assoc, hl, isChain_cons_split, ← cons_append, isChain_append] at hc
  rw [append_assoc, cons_append, hl, isChain_cons_append_cons_cons, ← cons_append, isChain_append]
  obtain ⟨⟨hlf, -, hls⟩, hright⟩ := hc
  refine ⟨⟨hlf.imp_of_mem_tail_imp fun u v hu hv => hk u v ?_ ?_ ?_, .singleton x, ?_⟩, ha,
    hright.imp_of_mem_tail_imp fun u v hu hv => hk u v ?_ ?_ ?_⟩
  all_goals grind

theorem Cyclic.erase (h : Cyclic R root (l₁ ++ x :: l₂))
    (hk : ∀ u v, u ≠ x → v ≠ x → R u v → S u v)
    (hj : ∀ u v, u ≠ x → v ≠ x → R u x → R x v → S u v) : Cyclic S root (l₁ ++ l₂) := by
  obtain ⟨hc, hn⟩ := h
  obtain ⟨l, hl⟩ := append_root_eq l₂ root
  have hx : x ∉ root :: l₁ ∧ x ∉ l₂.headD root :: l := by
    rw [← hl]
    grind
  refine ⟨?_, by grind⟩
  rw [append_assoc, cons_append, hl, isChain_cons_append_cons_cons, ← cons_append, isChain_append]
    at hc
  rw [append_assoc, hl, ← cons_append, isChain_append]
  obtain ⟨⟨hlf, -, hls⟩, hnext, hright⟩ := hc
  refine ⟨hlf.imp_of_mem_imp fun u v hu hv => hk u v ?_ ?_,
    hright.imp_of_mem_imp fun u v hu hv => hk u v ?_ ?_, fun u hu v hv => hj u v ?_ ?_ ?_ ?_⟩
  all_goals grind

end Chains

variable {α : Type} {next previous next' previous' : α → α} {a b x root : α} {l l₁ l₂ : List α}

/-- From `a` through the nodes of `l` to `b`, in both directions. -/
def Segment (next previous : α → α) (a : α) : List α → α → Prop
  | [], b => next a = b ∧ previous b = a
  | x :: l, b => next a = x ∧ previous x = a ∧ Segment next previous x l b

/-- The first node leads to the second one, and back. -/
def Joined (next previous : α → α) (u v : α) : Prop := next u = v ∧ previous v = u

theorem segment_iff : Segment next previous a l b ↔
    IsChain (Joined next previous) (a :: (l ++ [b])) := by
  induction l generalizing a with
  | nil => simp [Segment, Joined]
  | cons x l ih => simp only [Segment, ih, cons_append, isChain_cons_cons, Joined, and_assoc]

/-- **The nodes of `l`, in order, between the root and itself.** -/
structure Ring (next previous : α → α) (root : α) (l : List α) : Prop where
  segment : Segment next previous root l root
  nodup : (root :: l).Nodup

theorem ring_iff : Ring next previous root l ↔ Cyclic (Joined next previous) root l :=
  ⟨fun h => ⟨segment_iff.mp h.segment, h.nodup⟩, fun h => ⟨segment_iff.mpr h.chain, h.nodup⟩⟩

theorem Ring.previous_mem_of_mem (h : Ring next previous root (l₁ ++ x :: l₂)) :
    previous x ∈ root :: l₁ := by
  obtain ⟨u, hu, hx⟩ := (ring_iff.mp h).neighbours.1
  exact hx.2 ▸ hu

theorem Ring.next_eq (h : Ring next previous root (l₁ ++ x :: l₂)) : next x = l₂.headD root :=
  (ring_iff.mp h).neighbours.2.1

section

variable (h : Ring next previous root l)

include h

theorem Ring.congr (hn : ∀ y ∈ root :: l, next' y = next y)
    (hp : ∀ y ∈ root :: l, previous' y = previous y) : Ring next' previous' root l :=
  ring_iff.mpr ((ring_iff.mp h).imp fun u v hu hv huv =>
    ⟨(hn u hu).trans huv.1, (hp v hv).trans huv.2⟩)

theorem Ring.previous_mem : previous root ∈ root :: l := by
  obtain ⟨u, hu, hr⟩ := (ring_iff.mp h).root_neighbours.1
  exact hr.2 ▸ hu

theorem Ring.next_root : next root = l.headD root :=
  (ring_iff.mp h).root_neighbours.2.1

theorem Ring.next_root_eq : next root = root ↔ l = [] := by
  rw [h.next_root]
  cases l with
  | nil => simp
  | cons x l =>
    refine ⟨fun hx => ?_, nofun⟩
    have hn := h.nodup
    rw [show x = root from hx] at hn
    simp at hn

theorem Ring.next_ne (hx : x ∈ l) : next x ≠ x := by
  obtain ⟨_, l₂, rfl⟩ := append_of_mem hx
  rw [h.next_eq]
  have hn := h.nodup
  cases l₂ with
  | nil | cons y l₂ => grind

end

section Update

variable [DecidableEq α]

/-- The next nodes after `x` is put before the root. -/
def insertNext (next previous : α → α) (root x : α) : α → α :=
  Function.update (Function.update next x root) (previous root) x

def insertPrevious (previous : α → α) (root x : α) : α → α :=
  Function.update (Function.update previous x (previous root)) root x

theorem Ring.insert (h : Ring next previous root l) (hx : x ∉ root :: l) :
    Ring (insertNext next previous root x) (insertPrevious previous root x) root (l ++ [x]) := by
  have hne : x ≠ root := fun h => hx (h ▸ mem_cons_self)
  have hl : x ≠ previous root := fun heq => hx (heq ▸ h.previous_mem)
  have hb : next (previous root) = root := by
    obtain ⟨u, -, hr⟩ := (ring_iff.mp h).root_neighbours.1
    rw [hr.2, hr.1]
  have hc := ring_iff.mp h
  rw [← append_nil l] at hc hx
  refine ring_iff.mpr (hc.insert hx (fun u v hu hv hr huv => ?_) (fun u hu huv => ?_) ?_)
  · have hup : u ≠ previous root := by
      rintro rfl
      exact hr (huv.1.symm.trans hb)
    have hr' : v ≠ root := hr
    exact ⟨by simp [insertNext, hu, hup, huv.1], by simp [insertPrevious, hv, hr', huv.2]⟩
  · have hu' : previous root = u := huv.2
    exact ⟨by simp [insertNext, ← hu'], by simp [insertPrevious, hne, hu']⟩
  · exact ⟨by simp [insertNext, hl], by simp [insertPrevious]⟩

/-- The next nodes after `x` is taken out; it leads to itself. -/
def unlinkNext (next previous : α → α) (x : α) : α → α :=
  Function.update (Function.update next (previous x) (next x)) x x

def unlinkPrevious (next previous : α → α) (x : α) : α → α :=
  Function.update (Function.update previous (next x) (previous x)) x x

/-- **The node is not there any more.** -/
theorem Ring.unlink (h : Ring next previous root (l₁ ++ x :: l₂)) :
    Ring (unlinkNext next previous x) (unlinkPrevious next previous x) root (l₁ ++ l₂) := by
  have hc := ring_iff.mp h
  obtain ⟨⟨p, -, hp⟩, hn⟩ := hc.neighbours
  refine ring_iff.mpr (hc.erase (fun u v hu hv huv => ?_) fun u v hu hv hux hxv => ?_)
  · -- A node other than `x` does not lead to it, so it is neither of its neighbours.
    have hup : u ≠ previous x := fun heq => hv (by rw [← huv.1, heq, hp.2, hp.1])
    have hvn : v ≠ next x := fun heq => hu (by rw [← huv.2, heq, hn.1, hn.2])
    exact ⟨by simp [unlinkNext, hu, hup, huv.1], by simp [unlinkPrevious, hv, hvn, huv.2]⟩
  · exact ⟨by simp [unlinkNext, hu, hux.2, hxv.1], by simp [unlinkPrevious, hv, hux.2, hxv.1]⟩

end Update

end DartSdk.LinkedRing
