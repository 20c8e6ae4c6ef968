import Mathlib.Algebra.GroupWithZero.Nat
import Mathlib.Tactic.SplitIfs

/-!
# Unicode encoding forms

Code points up to `0x10FFFF` as UTF-8 bytes and as UTF-16 code units.  Surrogates are code points
like any other, so that a sequence of code units need not be well formed.

* `utf8_append_inj`: no encoding of a code point is the start of another one;
* `WellFormed`: sequences of shortest forms;
* `flatMap_utf16_codePoints`: the code points of a sequence of code units give the sequence back.
-/

namespace DartSdk.Unicode

open List

def maxCodePoint : ℕ := 0x10FFFF

/-- The shortest form. -/
def utf8 (c : ℕ) : List ℕ :=
  if c < 0x80 then [c]
  else if c < 0x800 then [0xC0 + c / 64, 0x80 + c % 64]
  else if c < 0x10000 then [0xE0 + c / 4096, 0x80 + c / 64 % 64, 0x80 + c % 64]
  else [0xF0 + c / 262144, 0x80 + c / 4096 % 64, 0x80 + c / 64 % 64, 0x80 + c % 64]

def utf16 (c : ℕ) : List ℕ :=
  if c < 0x10000 then [c] else [0xD7C0 + c / 1024, 0xDC00 + c % 1024]

def IsLead (u : ℕ) : Prop := u / 1024 = 0x36
def IsTrail (u : ℕ) : Prop := u / 1024 = 0x37

instance (u : ℕ) : Decidable (IsLead u) := inferInstanceAs (Decidable (u / 1024 = 0x36))
instance (u : ℕ) : Decidable (IsTrail u) := inferInstanceAs (Decidable (u / 1024 = 0x37))

def pair (u v : ℕ) : ℕ := 0x10000 + u % 1024 * 1024 + v % 1024

/-- The code points of a sequence of code units.  A surrogate without its other half stands for
itself. -/
def codePoints : List ℕ → List ℕ
  | [] => []
  | [u] => [u]
  | u :: v :: us =>
    if IsLead u ∧ IsTrail v then pair u v :: codePoints us else u :: codePoints (v :: us)

section Utf8

variable {c c' b : ℕ} {l l' : List ℕ}

theorem utf8_one (h : c < 0x80) : utf8 c = [c] := if_pos h

theorem utf8_two (h : 0x80 ≤ c) (h' : c < 0x800) : utf8 c = [0xC0 + c / 64, 0x80 + c % 64] := by
  rw [utf8, if_neg (by omega), if_pos h']

theorem utf8_three (h : 0x800 ≤ c) (h' : c < 0x10000) :
    utf8 c = [0xE0 + c / 4096, 0x80 + c / 64 % 64, 0x80 + c % 64] := by
  rw [utf8, if_neg (by omega), if_neg (by omega), if_pos h']

theorem utf8_four (h : 0x10000 ≤ c) :
    utf8 c = [0xF0 + c / 262144, 0x80 + c / 4096 % 64, 0x80 + c / 64 % 64, 0x80 + c % 64] := by
  rw [utf8, if_neg (by omega), if_neg (by omega), if_neg (by omega)]

theorem utf8_cases (c : ℕ) :
    (c < 0x80 ∧ utf8 c = [c]) ∨
    (0x80 ≤ c ∧ c < 0x800 ∧ utf8 c = [0xC0 + c / 64, 0x80 + c % 64]) ∨
    (0x800 ≤ c ∧ c < 0x10000 ∧ utf8 c = [0xE0 + c / 4096, 0x80 + c / 64 % 64, 0x80 + c % 64]) ∨
    (0x10000 ≤ c ∧
      utf8 c = [0xF0 + c / 262144, 0x80 + c / 4096 % 64, 0x80 + c / 64 % 64, 0x80 + c % 64]) := by
  by_cases h1 : c < 0x80
  · exact .inl ⟨h1, utf8_one h1⟩
  by_cases h2 : c < 0x800
  · exact .inr (.inl ⟨by omega, h2, utf8_two (by omega) h2⟩)
  by_cases h3 : c < 0x10000
  · exact .inr (.inr (.inl ⟨by omega, h3, utf8_three (by omega) h3⟩))
  · exact .inr (.inr (.inr ⟨by omega, utf8_four (by omega)⟩))

theorem toNat_lead {lead n x : ℕ} (h : ∀ y < n, (lead ||| y) % 2 ^ 8 = lead + y) (hx : x < n) :
    (UInt8.ofNat (lead ||| x)).toNat = lead + x := by
  rw [UInt8.toNat_ofNat']
  exact h x hx

theorem utf8_ne_nil : utf8 c ≠ [] := by
  rcases utf8_cases c with ⟨-, h⟩ | ⟨-, -, h⟩ | ⟨-, -, h⟩ | ⟨-, h⟩ <;> simp [h]

theorem utf8_append_inj (hc : c ≤ maxCodePoint) (hc' : c' ≤ maxCodePoint)
    (h : utf8 c ++ l = utf8 c' ++ l') : c = c' ∧ l = l' := by
  rw [maxCodePoint] at hc hc'
  -- the first byte tells the length
  rcases utf8_cases c with ⟨h1, he⟩ | ⟨h1, h2, he⟩ | ⟨h1, h2, he⟩ | ⟨h1, he⟩ <;>
  rcases utf8_cases c' with ⟨h1', he'⟩ | ⟨h1', h2', he'⟩ | ⟨h1', h2', he'⟩ | ⟨h1', he'⟩ <;>
  simp only [he, he', cons_append, nil_append, List.cons.injEq] at h <;>
  first | (exfalso; omega) | refine ⟨by omega, ?_⟩
  all_goals first | exact h.2 | exact h.2.2 | exact h.2.2.2 | exact h.2.2.2.2

/-- Shortest forms of code points. -/
def WellFormed (l : List ℕ) : Prop :=
  ∃ cs : List ℕ, (∀ c ∈ cs, c ≤ maxCodePoint) ∧ l = cs.flatMap utf8

theorem wellFormed_nil : WellFormed [] := ⟨[], nofun, rfl⟩

theorem WellFormed.head (h : WellFormed l) (hl : l ≠ []) :
    ∃ c l', c ≤ maxCodePoint ∧ l = utf8 c ++ l' := by
  obtain ⟨cs, hcs, rfl⟩ := h
  cases cs with
  | nil => exact absurd rfl hl
  | cons c cs => exact ⟨c, cs.flatMap utf8, hcs c mem_cons_self, flatMap_cons⟩

theorem wellFormed_append (hc : c ≤ maxCodePoint) : WellFormed (utf8 c ++ l) ↔ WellFormed l := by
  constructor
  · rintro ⟨cs, hcs, h⟩
    cases cs with
    | nil => exact absurd (append_eq_nil_iff.mp h).1 utf8_ne_nil
    | cons c' cs =>
      rw [flatMap_cons] at h
      have hl := (utf8_append_inj hc (hcs c' mem_cons_self) h).2
      exact ⟨cs, fun c hc => hcs c (mem_cons_of_mem c' hc), hl⟩
  · rintro ⟨cs, hcs, rfl⟩
    refine ⟨c :: cs, fun c' hc' => ?_, flatMap_cons.symm⟩
    rcases mem_cons.mp hc' with rfl | hc'
    · exact hc
    · exact hcs c' hc'

theorem utf8_eq_cons (hc : c ≤ maxCodePoint) :
    ∃ b l, utf8 c = b :: l ∧ b / 64 ≠ 2 ∧ (0xF0 ≤ b ↔ 0x10000 ≤ c) ∧ (b ≤ 0xC3 ↔ c ≤ 0xFF) := by
  rw [maxCodePoint] at hc
  rcases utf8_cases c with ⟨h1, he⟩ | ⟨h1, h2, he⟩ | ⟨h1, h2, he⟩ | ⟨h1, he⟩
  all_goals exact ⟨_, _, he, by omega, by omega, by omega⟩

theorem eq_nil_of_flatMap_utf8 {cs : List ℕ} (h : cs.flatMap utf8 = []) : cs = [] := by
  cases cs with
  | nil => rfl
  | cons c cs => exact absurd (append_eq_nil_iff.mp (flatMap_cons ▸ h)).1 utf8_ne_nil

/-- The number of code units that a byte of UTF-8 stands for: the first byte of a sequence stands for
all of them. -/
def weight (b : ℕ) : ℕ := if b / 64 = 2 then 0 else if 0xF0 ≤ b then 2 else 1

theorem sum_weight_utf8 (hc : c ≤ maxCodePoint) : ((utf8 c).map weight).sum = (utf16 c).length := by
  have ht (x : ℕ) : weight (0x80 + x % 64) = 0 := if_pos (by omega)
  have hs (h : c < 0x10000) : (utf16 c).length = 1 := by rw [utf16, if_pos h]; rfl
  have ho {b : ℕ} (h : b / 64 ≠ 2) (h' : b < 0xF0) : weight b = 1 := by
    rw [weight, if_neg h, if_neg (by omega)]
  rw [maxCodePoint] at hc
  rcases utf8_cases c with ⟨h1, he⟩ | ⟨h1, h2, he⟩ | ⟨h1, h2, he⟩ | ⟨h1, he⟩
  · rw [he, hs (by omega)]
    simp [ho (b := c) (by omega) (by omega)]
  · rw [he, hs (by omega)]
    simp [ht, ho (b := 0xC0 + c / 64) (by omega) (by omega)]
  · rw [he, hs (by omega)]
    simp [ht, ho (b := 0xE0 + c / 4096) (by omega) (by omega)]
  have htw : weight (0xF0 + c / 262144) = 2 := by
    rw [weight, if_neg (by omega), if_pos (by omega)]
  have hp : (utf16 c).length = 2 := by rw [utf16, if_neg (by omega)]; rfl
  rw [he, hp]
  simp [ht, htw]

end Utf8

section Utf16

variable {u v c : ℕ} {us : List ℕ}

theorem utf16_ne_nil : utf16 c ≠ [] := by
  rw [utf16]
  split_ifs <;> simp

theorem utf16_pair (hu : IsLead u) (hv : IsTrail v) : utf16 (pair u v) = [u, v] := by
  rw [IsLead] at hu
  rw [IsTrail] at hv
  rw [utf16, pair, if_neg (by omega)]
  congr 1
  · omega
  · congr 1
    omega

theorem flatMap_utf16_codePoints (h : ∀ u ∈ us, u < 0x10000) :
    (codePoints us).flatMap utf16 = us := by
  induction us using codePoints.induct with
  | case1 => rfl
  | case2 u =>
    have hu : utf16 u = [u] := if_pos (h u mem_cons_self)
    simp [codePoints, hu]
  | case3 u v us hp ih =>
    rw [codePoints, if_pos hp, flatMap_cons, utf16_pair hp.1 hp.2,
      ih fun w hw => h w (mem_cons_of_mem u (mem_cons_of_mem v hw))]
    rfl
  | case4 u v us hp ih =>
    have hu : utf16 u = [u] := if_pos (h u mem_cons_self)
    rw [codePoints, if_neg hp, flatMap_cons, hu, ih fun w hw => h w (mem_cons_of_mem u hw)]
    rfl

theorem codePoints_le (h : ∀ u ∈ us, u < 0x10000) : ∀ c ∈ codePoints us, c ≤ maxCodePoint := by
  have hun {u : ℕ} (hu : u < 0x10000) : u ≤ maxCodePoint := by
    rw [maxCodePoint]
    omega
  induction us using codePoints.induct with
  | case1 => exact nofun
  | case2 u =>
    intro c hc
    rw [codePoints, mem_singleton] at hc
    exact hc ▸ hun (h u mem_cons_self)
  | case3 u v us hp ih =>
    intro c hc
    rw [codePoints, if_pos hp] at hc
    rcases mem_cons.mp hc with rfl | hc
    · rw [pair, maxCodePoint]
      omega
    · exact ih (fun w hw => h w (mem_cons_of_mem u (mem_cons_of_mem v hw))) c hc
  | case4 u v us hp ih =>
    intro c hc
    rw [codePoints, if_neg hp] at hc
    rcases mem_cons.mp hc with rfl | hc
    · exact hun (h c mem_cons_self)
    · exact ih (fun w hw => h w (mem_cons_of_mem u hw)) c hc

end Utf16

end DartSdk.Unicode
