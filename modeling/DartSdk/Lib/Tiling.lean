import Mathlib.Data.List.Perm.Basic
import Mathlib.Data.Set.Basic

/-!
# Tiling — sets of addresses cut into disjoint blocks

A block is a start address and a size.  `Tiles bs G` says that the blocks `bs` do not overlap and
that their addresses are those of `G`.  An allocator moves memory between the blocks it keeps and
the blocks it has handed out; what it may do to a tiling is

* rearrange the blocks (`Tiles.perm`),
* cut one in two (`Tiles.split`),
* take in a new block, which may swallow blocks that lie inside it (`Tiles.give`).
-/

namespace DartSdk.Tiling

open List

/-- The addresses from `addr` up to, but without, `addr + size`. -/
structure Block where
  addr : ℕ
  size : ℕ
deriving DecidableEq, Repr

namespace Block

def endAddr (b : Block) : ℕ := b.addr + b.size

instance : Membership ℕ Block := ⟨fun b a => b.addr ≤ a ∧ a < b.endAddr⟩

instance (a : ℕ) (b : Block) : Decidable (a ∈ b) :=
  inferInstanceAs (Decidable (b.addr ≤ a ∧ a < b.endAddr))

/-- One block ends before the other begins. -/
def Disjoint (b c : Block) : Prop := b.endAddr ≤ c.addr ∨ c.endAddr ≤ b.addr

instance (b c : Block) : Decidable (b.Disjoint c) := inferInstanceAs (Decidable (_ ∨ _))

/-- `c` lies inside `b`. -/
def Inside (c b : Block) : Prop := b.addr ≤ c.addr ∧ c.endAddr ≤ b.endAddr

instance (b c : Block) : Decidable (c.Inside b) := inferInstanceAs (Decidable (_ ∧ _))

theorem mem_iff {a : ℕ} {b : Block} : a ∈ b ↔ b.addr ≤ a ∧ a < b.addr + b.size := Iff.rfl

theorem Disjoint.symm {b c : Block} (h : b.Disjoint c) : c.Disjoint b := Or.symm h

theorem Inside.mem {b c : Block} (h : c.Inside b) {a : ℕ} (ha : a ∈ c) : a ∈ b := by
  obtain ⟨h1, h2⟩ := h
  obtain ⟨h3, h4⟩ := ha
  exact ⟨by omega, by omega⟩

end Block

/-- The blocks are disjoint and make up `G`. -/
structure Tiles (bs : List Block) (G : Set ℕ) : Prop where
  pairwise : bs.Pairwise Block.Disjoint
  cover : ∀ a, a ∈ G ↔ ∃ b ∈ bs, a ∈ b

section

variable {bs cs : List Block} {G : Set ℕ} {b : Block}

theorem Tiles.nil : Tiles [] ∅ := ⟨List.Pairwise.nil, by simp⟩

theorem Tiles.perm (h : Tiles bs G) (hp : bs.Perm cs) : Tiles cs G := by
  refine ⟨hp.pairwise h.pairwise Block.Disjoint.symm, ?_⟩
  intro a
  rw [h.cover]
  exact exists_congr (fun b => and_congr_left' hp.mem_iff)

theorem Tiles.split {a m n : ℕ} (h : Tiles (⟨a, m + n⟩ :: bs) G) :
    Tiles (⟨a, m⟩ :: ⟨a + m, n⟩ :: bs) G := by
  obtain ⟨hd, hbs⟩ := pairwise_cons.mp h.pairwise
  refine ⟨?_, ?_⟩
  · refine pairwise_cons.mpr ⟨?_, pairwise_cons.mpr ⟨?_, hbs⟩⟩
    · intro c hc
      rcases mem_cons.mp hc with rfl | hc
      · exact .inl (le_rfl)
      · rcases hd c hc with h1 | h1
        · left; simp only [Block.endAddr] at h1 ⊢; omega
        · right; simp only [Block.endAddr] at h1 ⊢; omega
    · intro c hc
      rcases hd c hc with h1 | h1
      · left; simp only [Block.endAddr] at h1 ⊢; omega
      · right; simp only [Block.endAddr] at h1 ⊢; omega
  · intro x
    have hx : x ∈ (⟨a, m + n⟩ : Block) ↔ x ∈ (⟨a, m⟩ : Block) ∨ x ∈ (⟨a + m, n⟩ : Block) := by
      simp only [Block.mem_iff]
      omega
    rw [h.cover]
    simp only [mem_cons, exists_eq_or_imp, hx, or_assoc]

/-- A block that overlaps none of the blocks kept, and swallows whole blocks of the others. -/
theorem Tiles.give (h : Tiles (bs ++ cs) G) (hb : ∀ c ∈ bs, b.Disjoint c)
    (hc : ∀ c ∈ cs, c.Inside b ∨ b.Disjoint c) :
    Tiles ((b :: bs) ++ cs.filter (fun c => b.Disjoint c)) (G ∪ {a | a ∈ b}) := by
  obtain ⟨hbs, hcs, hbc⟩ := pairwise_append.mp h.pairwise
  refine ⟨?_, ?_⟩
  · refine pairwise_append.mpr ⟨pairwise_cons.mpr ⟨hb, hbs⟩, hcs.filter _, ?_⟩
    intro x hx y hy
    obtain ⟨hy, hby⟩ := mem_filter.mp hy
    rcases mem_cons.mp hx with rfl | hx
    · exact of_decide_eq_true hby
    · exact hbc x hx y hy
  · intro a
    constructor
    · rintro (ha | ha)
      · obtain ⟨c, hcm, hac⟩ := (h.cover a).mp ha
        rcases mem_append.mp hcm with hc' | hc'
        · exact ⟨c, by simp [hc'], hac⟩
        · rcases hc c hc' with hin | hd
          · exact ⟨b, by simp, hin.mem hac⟩
          · exact ⟨c, by simp [hc', hd], hac⟩
      · exact ⟨b, by simp, ha⟩
    · rintro ⟨c, hcm, hac⟩
      simp only [cons_append, mem_cons, mem_append, mem_filter] at hcm
      rcases hcm with rfl | hc' | ⟨hc', -⟩
      · exact .inr hac
      · exact .inl ((h.cover a).mpr ⟨c, by simp [hc'], hac⟩)
      · exact .inl ((h.cover a).mpr ⟨c, by simp [hc'], hac⟩)

end

end DartSdk.Tiling
