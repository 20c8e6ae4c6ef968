import DartSdk.Convert.Utf

/-!
# The UTF-8 decoder

The decoder takes ASCII characters in runs and loops over the bytes of the others; it does what a
machine does that takes the bytes one by one.

* `continueWith_eq_run`: this machine, on every chunk;
* `decodeChunks_eq_decode`: **the way in which the bytes are cut does not matter**;
* `run_utf8`: the bytes of a code point, from a state in which no character is begun.
-/

namespace DartSdk.Convert.Utf8Decoder

open Transducer Unicode List Option

variable (allowMalformed : Bool)

section Machine

def single (d : Utf8Decoder) (unit : UInt8) : Result :=
  if isOneByte unit then .ok ({ d with isFirstCharacter := false }, [unit.toUInt16])
  else startMultibyte allowMalformed d unit

def step (d : Utf8Decoder) (unit : UInt8) : Result :=
  if 0 < d.expectedUnits then
    if unit &&& 0xC0 ≠ 0x80 then
      if !allowMalformed then .error (.badEncoding unit)
      else
        emit (writeCharCode UNICODE_REPLACEMENT_CHARACTER_RUNE)
          (single allowMalformed { d with expectedUnits := 0, isFirstCharacter := false } unit)
    else if 0 < (addUnit d unit).expectedUnits then .ok (addUnit d unit, [])
    else endMultibyte allowMalformed (addUnit d unit)
  else single allowMalformed d unit

/-- The state that is kept between chunks, after every byte. -/
def stepSaved (d : Utf8Decoder) (unit : UInt8) : Result :=
  (step allowMalformed d unit).map (Prod.map save id)

variable {allowMalformed} {d : Utf8Decoder}

/-- The rest of a chunk, after a byte. -/
def continueWith (allowMalformed : Bool) (rest : List UInt8) (d : Utf8Decoder) : Result :=
  if 0 < d.expectedUnits then multibyte allowMalformed d rest else oneBytes allowMalformed d rest

/-- What follows a run of ASCII characters. -/
def afterRun (allowMalformed : Bool) (d : Utf8Decoder) : List UInt8 → Result
  | [] => .ok (d, [])
  | unit :: rest => andThen (startMultibyte allowMalformed d unit) (continueWith allowMalformed rest)

theorem oneBytes_eq (units : List UInt8) :
    oneBytes allowMalformed d units =
      emit ((units.takeWhile isOneByte).map UInt8.toUInt16) (afterRun allowMalformed
          (if 0 < (units.takeWhile isOneByte).length then { d with isFirstCharacter := false } else d)
          (units.dropWhile isOneByte)) := by
  rw [oneBytes]
  congr 1
  split
  next hr =>
    rw [hr]
    rfl
  next unit rest hr =>
    rw [hr]
    rfl

theorem oneBytes_nil : oneBytes allowMalformed d [] = .ok (d, []) := oneBytes_eq []

theorem oneBytes_cons (hd : d.expectedUnits = 0) (unit : UInt8) (rest : List UInt8) :
    oneBytes allowMalformed d (unit :: rest) =
      andThen (single allowMalformed d unit) (continueWith allowMalformed rest) := by
  by_cases hunit : isOneByte unit
  · rw [single, if_pos hunit, andThen_ok, continueWith, if_neg (by simp [hd]), oneBytes_eq, oneBytes_eq,
      takeWhile_cons_of_pos hunit, dropWhile_cons_of_pos hunit, emit_emit, ite_self, if_pos (by simp)]
    rfl
  · rw [oneBytes_eq, takeWhile_cons_of_neg hunit, dropWhile_cons_of_neg hunit, single, if_neg hunit]
    exact emit_nil

theorem multibyte_cons (hd : 0 < d.expectedUnits) (unit : UInt8) (rest : List UInt8) :
    multibyte allowMalformed d (unit :: rest) =
      andThen (step allowMalformed d unit) (continueWith allowMalformed rest) := by
  have hn : ∀ d', endMultibyte allowMalformed (addUnit d unit) = .ok d' →
      ¬0 < (addUnit d unit).expectedUnits → ¬0 < d'.1.expectedUnits := by
    intro d' he hz
    unfold endMultibyte at he
    dsimp only at he
    split_ifs at he <;> cases he <;> simp_all
  rw [multibyte, step, if_pos hd]
  split_ifs with ht hs hm
  · rfl
  · rw [andThen_emit, oneBytes_cons rfl]
  · rw [andThen_ok, emit_nil, continueWith, if_pos hm]
  cases he : endMultibyte allowMalformed (addUnit d unit) with
  | error e => rfl
  | ok d' =>
    obtain ⟨d', _⟩ := d'
    rw [andThen_ok, andThen_ok, continueWith, if_neg (hn _ he hm)]

theorem continueWith_eq_run (units : List UInt8) (d : Utf8Decoder) :
    continueWith allowMalformed units d = run (step allowMalformed) d units := by
  induction units generalizing d with
  | nil =>
    rw [continueWith, oneBytes_nil, multibyte, ite_self]
    rfl
  | cons unit rest ih =>
    have hc : continueWith allowMalformed (unit :: rest) d =
        andThen (step allowMalformed d unit) (continueWith allowMalformed rest) := by
      rw [continueWith]
      split_ifs with hd
      · exact multibyte_cons hd unit rest
      · rw [oneBytes_cons (by omega), step, if_neg hd]
    rw [hc, run]
    congr 1
    funext d
    exact ih d

theorem save_save : save (save d) = save d := by
  by_cases hd : 0 < d.expectedUnits
  · simp [save, hd]
  · simp [save, hd]

theorem step_save (d : Utf8Decoder) (unit : UInt8) :
    (step allowMalformed (save d) unit).map (Prod.map save id) =
      (step allowMalformed d unit).map (Prod.map save id) := by
  by_cases hd : 0 < d.expectedUnits
  · rw [save, if_pos hd]
  · rw [save, if_neg hd, step, step, if_neg (by simp), if_neg hd, single, single]
    split_ifs
    · simp [save, hd, Except.map]
    · simp only [startMultibyte]

theorem decodeChunks_eq_decode (allowMalformed : Bool) (chunks : List (List UInt8)) :
    decodeChunks allowMalformed chunks = decode allowMalformed chunks.flatten := by
  have hsv (d unit d' out) (_ : save d = d) (h : stepSaved allowMalformed d unit = .ok (d', out)) :
      save d' = d' := by
    unfold stepSaved at h
    cases hs : step allowMalformed d unit with
    | error e =>
      rw [hs] at h
      cases h
    | ok r =>
      rw [hs] at h
      cases h
      exact save_save
  have hc (d codeUnits) (hd : save d = d) :
      convert allowMalformed d codeUnits = run (stepSaved allowMalformed) d codeUnits := by
    have hr := run_normal save (@step_save allowMalformed) d codeUnits
    rw [hd, ← continueWith_eq_run] at hr
    exact hr
  rw [decodeChunks, decode, feed_flatten hsv hc rfl chunks]

end Machine

section CodePoints

variable {allowMalformed} {d : Utf8Decoder} {unit : UInt8}

/-- The masks of the first bits, for all bytes. -/
theorem mask_iff : ∀ n < 256, (n &&& 0x7F = n ↔ n < 0x80) ∧ (n &&& 0xC0 = 0x80 ↔ n / 64 = 2) ∧
    (n &&& 0xE0 = 0xC0 ↔ n / 32 = 6) ∧ (n &&& 0xF0 = 0xE0 ↔ n / 16 = 14) ∧
    (n &&& 0xF8 = 0xF0 ↔ n / 8 = 30) := by
  decide +kernel

theorem and_iff {mask bits : UInt8} :
    unit &&& mask = bits ↔ unit.toNat &&& mask.toNat = bits.toNat := by
  rw [← UInt8.toNat_inj, UInt8.toNat_and]

theorem isOneByte_iff : isOneByte unit ↔ unit.toNat < 0x80 := by
  rw [isOneByte, decide_eq_true_eq]
  exact and_iff.trans (mask_iff _ unit.toNat_lt).1

theorem trail_iff : unit &&& 0xC0 = 0x80 ↔ unit.toNat / 64 = 2 :=
  and_iff.trans (mask_iff _ unit.toNat_lt).2.1

theorem two_iff : unit &&& 0xE0 = 0xC0 ↔ unit.toNat / 32 = 6 :=
  and_iff.trans (mask_iff _ unit.toNat_lt).2.2.1

theorem three_iff : unit &&& 0xF0 = 0xE0 ↔ unit.toNat / 16 = 14 :=
  and_iff.trans (mask_iff _ unit.toNat_lt).2.2.2.1

theorem four_iff : unit &&& 0xF8 = 0xF0 ↔ unit.toNat / 8 = 30 :=
  and_iff.trans (mask_iff _ unit.toNat_lt).2.2.2.2

theorem value_addUnit : (addUnit d unit).value = d.value * 64 + unit.toNat % 64 := by
  have hm : (unit &&& 0x3F).toNat = unit.toNat % 64 := by
    rw [UInt8.toNat_and]
    exact Nat.and_two_pow_sub_one_eq_mod unit.toNat 6
  rw [addUnit, hm, ← Nat.shiftLeft_add_eq_or_of_lt (Nat.mod_lt _ (by decide)), Nat.shiftLeft_eq]

/-- What is written for a code point: a byte order mark at the start is not. -/
def written (d : Utf8Decoder) (c : ℕ) : List UInt16 :=
  if d.isFirstCharacter = true ∧ c = UNICODE_BOM_CHARACTER_RUNE then [] else writeCharCode c

theorem toNat_mask (k : ℕ) (hk : 2 ^ k - 1 < 256) :
    (unit &&& UInt8.ofNat (2 ^ k - 1)).toNat = unit.toNat % 2 ^ k := by
  rw [UInt8.toNat_and, UInt8.toNat_ofNat', Nat.mod_eq_of_lt hk, Nat.and_two_pow_sub_one_eq_mod]

theorem startMultibyte_two (h : unit.toNat / 32 = 6) : startMultibyte allowMalformed d unit =
    .ok ({ d with value := unit.toNat % 32, expectedUnits := 1, extraUnits := 1 }, []) := by
  have hm : (unit &&& 31).toNat = unit.toNat % 32 := toNat_mask 5 (by decide)
  rw [startMultibyte, if_pos (two_iff.mpr h), ← hm]

theorem startMultibyte_three (h : unit.toNat / 16 = 14) : startMultibyte allowMalformed d unit =
    .ok ({ d with value := unit.toNat % 16, expectedUnits := 2, extraUnits := 2 }, []) := by
  have hm : (unit &&& 15).toNat = unit.toNat % 16 := toNat_mask 4 (by decide)
  rw [startMultibyte, if_neg (by rw [two_iff]; omega), if_pos (three_iff.mpr h), ← hm]

theorem startMultibyte_four (h : 0xF0 ≤ unit.toNat) (h' : unit.toNat < 0xF5) :
    startMultibyte allowMalformed d unit =
      .ok ({ d with value := unit.toNat % 8, expectedUnits := 3, extraUnits := 3 }, []) := by
  have hlt : unit < 0xF5 := h'
  have hm : (unit &&& 7).toNat = unit.toNat % 8 := toNat_mask 3 (by decide)
  rw [startMultibyte, if_neg (by rw [two_iff]; omega), if_neg (by rw [three_iff]; omega),
    if_pos ⟨four_iff.mpr (by omega), hlt⟩, ← hm]

/-- The first byte of a character that is not ASCII, when none is begun. -/
theorem step_start (hd : d.expectedUnits = 0) (h : 0x80 ≤ unit.toNat) :
    step allowMalformed d unit = startMultibyte allowMalformed d unit := by
  rw [step, if_neg (by omega), single, if_neg (by rw [isOneByte_iff]; omega)]

theorem step_trail (hd : 1 < d.expectedUnits) (h : unit.toNat / 64 = 2) :
    step allowMalformed d unit = .ok (addUnit d unit, []) := by
  have hm : 0 < (addUnit d unit).expectedUnits := by
    show 0 < d.expectedUnits - 1
    omega
  rw [step, if_pos (by omega), if_neg (by rw [not_not, trail_iff]; exact h), if_pos hm]

theorem step_last (hd : d.expectedUnits = 1) (h : unit.toNat / 64 = 2)
    (hs : LIMITS.getD (d.extraUnits - 1) 0 < (addUnit d unit).value)
    (hr : (addUnit d unit).value ≤ FOUR_BYTE_LIMIT) :
    step allowMalformed d unit =
      .ok ({ addUnit d unit with isFirstCharacter := false }, written d (addUnit d unit).value) := by
  have hdn : ¬0 < (addUnit d unit).expectedUnits := by
    show ¬0 < d.expectedUnits - 1
    omega
  have hs' : ¬(addUnit d unit).value ≤ LIMITS.getD ((addUnit d unit).extraUnits - 1) 0 :=
    Nat.not_le.mpr hs
  rw [step, if_pos (by omega), if_neg (by rw [not_not, trail_iff]; exact h), if_neg hdn,
    endMultibyte, if_neg fun hl => hs' hl.1]
  simp only [if_neg hs', Nat.not_lt.mpr hr, false_and, if_false]
  congr 2
  rw [written]
  by_cases hfirst : d.isFirstCharacter
  · by_cases hbom : (addUnit d unit).value = UNICODE_BOM_CHARACTER_RUNE
    · rw [if_neg (by simp [addUnit, hfirst] at hbom ⊢; exact hbom), if_pos ⟨hfirst, hbom⟩]
    · rw [if_pos (.inr hbom), if_neg fun h => hbom h.2]
  · rw [if_pos (.inl (by simpa [addUnit] using hfirst)), if_neg fun h => hfirst h.1]

/-- The bytes of a character are decoded to `out`, and no other is begun. -/
def Decodes (allowMalformed : Bool) (d : Utf8Decoder) (units : List UInt8) (out : List UInt16) :
    Prop :=
  ∃ d', run (step allowMalformed) d units = .ok (d', out) ∧ d'.expectedUnits = 0 ∧
    d'.isFirstCharacter = false

variable {units : List UInt8}

/-- The bytes after the first one, if the character is in its shortest form. -/
theorem run_trail (hne : units ≠ []) (hd : d.expectedUnits = units.length)
    (ht : ∀ unit ∈ units, unit.toNat / 64 = 2) {c : ℕ}
    (hv : units.foldl (fun value unit => value * 64 + unit.toNat % 64) d.value = c)
    (hs : LIMITS.getD (d.extraUnits - 1) 0 < c) (hr : c ≤ FOUR_BYTE_LIMIT) :
    Decodes allowMalformed d units (written d c) := by
  induction units generalizing d with
  | nil => exact absurd rfl hne
  | cons unit units ih =>
    have hun : unit.toNat / 64 = 2 := ht unit mem_cons_self
    rw [foldl_cons, ← value_addUnit] at hv
    rw [length_cons] at hd
    cases units with
    | nil =>
      rw [foldl_nil] at hv
      have hl : step allowMalformed d unit =
          .ok ({ addUnit d unit with isFirstCharacter := false }, written d c) := by
        rw [step_last hd hun (hv ▸ hs) (hv ▸ hr), hv]
      refine ⟨{ addUnit d unit with isFirstCharacter := false }, ?_, ?_, rfl⟩
      · rw [run, hl, andThen_ok, run, emit_ok, append_nil]
      · show d.expectedUnits - 1 = 0
        rw [hd]
        rfl
    | cons unit' units =>
      have hm : (addUnit d unit).expectedUnits = (unit' :: units).length := by
        show d.expectedUnits - 1 = _
        rw [hd]
        rfl
      obtain ⟨d', hrn, hd'⟩ := ih (cons_ne_nil unit' units) hm
        (fun u hu => ht u (mem_cons_of_mem unit hu)) hv hs
      refine ⟨d', ?_, hd'⟩
      rw [run, step_trail (by rw [hd, length_cons]; omega) hun, andThen_ok, emit_nil]
      exact hrn

/-- The bytes of a code point in its shortest form, when no character is begun. -/
theorem run_utf8 {c : ℕ} (hc : c ≤ maxCodePoint) (hd : d.expectedUnits = 0)
    (hu : units.map UInt8.toNat = utf8 c) : Decodes allowMalformed d units (written d c) := by
  have hs {unit : UInt8} {units : List UInt8} {d₁ : Utf8Decoder} (hun : 0x80 ≤ unit.toNat)
      (hs : startMultibyte allowMalformed d unit = .ok (d₁, []))
      (hr : Decodes allowMalformed d₁ units (written d₁ c))
      (hf : d₁.isFirstCharacter = d.isFirstCharacter) :
      Decodes allowMalformed d (unit :: units) (written d c) := by
    obtain ⟨d', hrn, hd'⟩ := hr
    refine ⟨d', ?_, hd'⟩
    rw [run, step_start hd hun, hs, andThen_ok, emit_nil, hrn, written, written, hf]
  rw [maxCodePoint] at hc
  rcases utf8_cases c with ⟨h1, he⟩ | ⟨h1, h2, he⟩ | ⟨h1, h2, he⟩ | ⟨h1, he⟩
  · rw [he] at hu
    obtain ⟨a, _, rfl, ha, hn⟩ := map_eq_cons_iff.mp hu
    obtain rfl := map_eq_nil_iff.mp hn
    have ho : step allowMalformed d a =
        .ok ({ d with isFirstCharacter := false }, [a.toUInt16]) := by
      rw [step, if_neg (by omega), single, if_pos (isOneByte_iff.mpr (by omega))]
    have hw : written d c = [a.toUInt16] := by
      have hbm : c ≠ UNICODE_BOM_CHARACTER_RUNE := by
        rw [UNICODE_BOM_CHARACTER_RUNE]
        omega
      rw [written, if_neg fun h => hbm h.2, writeCharCode, utf16, if_pos (by omega), ← ha]
      simp
    refine ⟨{ d with isFirstCharacter := false }, ?_, hd, rfl⟩
    rw [run, ho, hw]
    rfl
  · rw [he] at hu
    obtain ⟨a, units, rfl, ha, hr⟩ := map_eq_cons_iff.mp hu
    obtain ⟨b, _, rfl, hb, hn⟩ := map_eq_cons_iff.mp hr
    obtain rfl := map_eq_nil_iff.mp hn
    refine hs (by omega) (startMultibyte_two (by omega)) ?_ rfl
    refine run_trail (by simp) rfl (by simp; omega) ?_ (Nat.lt_of_lt_of_le (by simp [LIMITS, ONE_BYTE_LIMIT]) h1) hc
    show a.toNat % 32 * 64 + b.toNat % 64 = c
    omega
  · rw [he] at hu
    obtain ⟨a, units, rfl, ha, hr⟩ := map_eq_cons_iff.mp hu
    obtain ⟨b, _, rfl, hb, hr⟩ := map_eq_cons_iff.mp hr
    obtain ⟨b', _, rfl, hb', hn⟩ := map_eq_cons_iff.mp hr
    obtain rfl := map_eq_nil_iff.mp hn
    refine hs (by omega) (startMultibyte_three (by omega)) ?_ rfl
    refine run_trail (by simp) rfl (by simp; omega) ?_ (Nat.lt_of_lt_of_le (by simp [LIMITS, TWO_BYTE_LIMIT]) h1) hc
    show (a.toNat % 16 * 64 + b.toNat % 64) * 64 + b'.toNat % 64 = c
    omega
  · rw [he] at hu
    obtain ⟨a, units, rfl, ha, hr⟩ := map_eq_cons_iff.mp hu
    obtain ⟨b, _, rfl, hb, hr⟩ := map_eq_cons_iff.mp hr
    obtain ⟨b', _, rfl, hb', hr⟩ := map_eq_cons_iff.mp hr
    obtain ⟨b'', _, rfl, hb'', hn⟩ := map_eq_cons_iff.mp hr
    obtain rfl := map_eq_nil_iff.mp hn
    refine hs (by omega) (startMultibyte_four (by omega) (by omega)) ?_ rfl
    refine run_trail (by simp) rfl (by simp; omega) ?_ (Nat.lt_of_lt_of_le (by simp [LIMITS, THREE_BYTE_LIMIT]) h1) hc
    show ((a.toNat % 8 * 64 + b.toNat % 64) * 64 + b'.toNat % 64) * 64 + b''.toNat % 64 = c
    omega

/-- The bytes of a sequence of code points, after the first character. -/
theorem run_flatMap_utf8 {cs : List ℕ} (hcs : ∀ c ∈ cs, c ≤ maxCodePoint) (hd : d.expectedUnits = 0)
    (hf : d.isFirstCharacter = false)
    (hu : units.map UInt8.toNat = cs.flatMap utf8) :
    ∃ d', run (step allowMalformed) d units = .ok (d', cs.flatMap writeCharCode) ∧
      d'.expectedUnits = 0 := by
  induction cs generalizing d units with
  | nil =>
    obtain rfl := map_eq_nil_iff.mp hu
    exact ⟨d, rfl, hd⟩
  | cons c cs ih =>
    rw [flatMap_cons] at hu
    obtain ⟨_, _, rfl, h₁, h₂⟩ := map_eq_append_iff.mp hu
    obtain ⟨_, hr₁, hd₁, hf₁⟩ := run_utf8 (hcs c mem_cons_self) hd h₁
    obtain ⟨d₂, hr₂, hd₂⟩ := ih (fun c hc => hcs c (mem_cons_of_mem _ hc)) hd₁ hf₁ h₂
    refine ⟨d₂, ?_, hd₂⟩
    rw [run_append, hr₁, andThen_ok, hr₂, emit_ok, written, if_neg (by simp [hf])]
    rfl

/-- **Well-formed UTF-8 is decoded to its code points**, without a byte order mark at its start. -/
theorem decode_utf8 {cs : List ℕ} (hcs : ∀ c ∈ cs, c ≤ maxCodePoint)
    (hu : units.map UInt8.toNat = cs.flatMap utf8) :
    decode allowMalformed units =
      .ok ((if cs.head? = some UNICODE_BOM_CHARACTER_RUNE then cs.tail else cs).flatMap
        writeCharCode) := by
  have hf {d : Utf8Decoder} {out : List UInt16} (hd : d.expectedUnits = 0)
      (hr : run (step allowMalformed) new units = .ok (d, out)) :
      decode allowMalformed units = .ok out := by
    have hcn : convert allowMalformed new units = .ok (save d, out) := by
      have hr' : continueWith allowMalformed units new = .ok (d, out) := by
        rw [continueWith_eq_run, hr]
      show (continueWith allowMalformed units new).map _ = _
      rw [hr']
      rfl
    have hn : flush allowMalformed (save d) = .ok (save d, []) := by
      rw [flush, if_neg]
      simp [save, hd]
    rw [decode, hcn, andThen_ok, hn, emit_ok, append_nil]
    rfl
  cases cs with
  | nil =>
    obtain rfl := map_eq_nil_iff.mp hu
    exact hf rfl rfl
  | cons c cs =>
    rw [flatMap_cons] at hu
    obtain ⟨units₁, units₂, rfl, h₁, h₂⟩ := map_eq_append_iff.mp hu
    obtain ⟨_, hr₁, hd₁, hfr₁⟩ := run_utf8 (d := new) (hcs c mem_cons_self) rfl h₁
    obtain ⟨d₂, hr₂, hd₂⟩ :=
      run_flatMap_utf8 (fun c hc => hcs c (mem_cons_of_mem _ hc)) hd₁ hfr₁ h₂
    have hr : run (step allowMalformed) new (units₁ ++ units₂) =
        .ok (d₂, written new c ++ cs.flatMap writeCharCode) := by
      rw [run_append, hr₁, andThen_ok, hr₂, emit_ok]
    rw [hf hd₂ hr, written, head?_cons, tail_cons]
    by_cases hb : c = UNICODE_BOM_CHARACTER_RUNE
    · rw [if_pos ⟨rfl, hb⟩, if_pos (congrArg some hb)]
      rfl
    · rw [if_neg fun h => hb h.2, if_neg fun h => hb (some.inj h)]
      rfl

end CodePoints

end DartSdk.Convert.Utf8Decoder
