import DartSdk.Io.HttpHeaders.Mutable

/-!
# The framing that the headers declare

A message says where its body ends in two of its headers, and `_HttpHeaders` keeps the same facts in
two fields.

* `Consistent`: the fields say what the headers say, and not both ways are in force;
* `ensures_setChunkedTransferEncoding`, `ensures_setContentLength`: the setters keep it so, in spite
  of the calls that they make to each other;
* `ensures_setContentLength_restores`: a new content length even repairs a header that is lost.
-/

namespace DartSdk.Io.HttpHeaders

open Throwing List Option Function

abbrev CONTENT_LENGTH : Text := text "content-length"

abbrev TRANSFER_ENCODING : Text := text "transfer-encoding"

abbrev CHUNKED : Text := text "chunked"

variable {h : HttpHeaders} {name : Text} {vs : List Text}

section Lookup

variable {other : Text}

theorem lookup_filter_ne (l : List (Text × List Text)) (hne : other ≠ name) :
    (l.filter fun p => p.1 ≠ name).lookup other = l.lookup other := by
  induction l with
  | nil => rfl
  | cons p l ih =>
    obtain ⟨k, w⟩ := p
    by_cases hk : k = name
    · subst hk
      rw [filter_cons_of_neg (by simp), ih, lookup_cons, beq_false_of_ne hne]
    · rw [filter_cons_of_pos (by simpa using hk), lookup_cons, lookup_cons, ih]

@[simp] theorem lookup_removeAll_self : (h.removeAll name).lookup name = none := by
  refine lookup_eq_none_iff.mpr fun p hp => ?_
  have hne : p.1 ≠ name := by simpa using (mem_filter.mp hp).2
  simpa using hne.symm

theorem lookup_removeAll_ne (hne : other ≠ name) :
    (h.removeAll name).lookup other = h.lookup other := lookup_filter_ne h.headers hne

@[simp] theorem lookup_put_self : (h.put name vs).lookup name = some vs := by
  have hn : (h.removeAll name).headers.lookup name = none := lookup_removeAll_self
  simp only [lookup, put, lookup_append, hn, none_or, lookup_cons, beq_self_eq_true]

theorem lookup_put_ne (hne : other ≠ name) : (h.put name vs).lookup other = h.lookup other := by
  have hs : (h.removeAll name).headers.lookup other = h.headers.lookup other :=
    lookup_removeAll_ne hne
  simp only [lookup, put, lookup_append, hs, lookup_cons, beq_false_of_ne hne,
    lookup_nil, or_none]

theorem values_eq : h.values name = (h.lookup name).getD [] := rfl

end Lookup

section Framing

/-- What is said about the body: the two fields and the two headers. -/
structure Framing where
  contentLength : ℤ
  chunked : Bool
  lengths : Option (List Text)
  encodings : List Text

def framing (h : HttpHeaders) : Framing where
  contentLength := h.contentLength
  chunked := h.chunkedTransferEncoding
  lengths := h.lookup (text "content-length")
  encodings := h.values (text "transfer-encoding")

/-- The fields say what the headers say, and not both ways are in force.  A content length comes with
a header of just this value, and without one there is no such header. -/
structure Framing.Consistent (f : Framing) : Prop where
  lengths : f.lengths =
    if 0 ≤ f.contentLength then some [text (toString f.contentLength)] else none
  encodings : f.chunked = true ↔ text "chunked" ∈ f.encodings
  exclusive : ¬(0 ≤ f.contentLength ∧ f.chunked = true)

def Consistent (h : HttpHeaders) : Prop := h.framing.Consistent

/-- The invariant of a run: moreover, there is nothing left when `chunked` is removed. -/
structure Framing.Kept (f : Framing) : Prop extends f.Consistent where
  once : f.encodings.count (text "chunked") ≤ 1

theorem framing_put (hcl : name ≠ CONTENT_LENGTH) (hte : name ≠ TRANSFER_ENCODING) :
    (h.put name vs).framing = h.framing := by
  simp only [framing, values_eq, lookup_put_ne hcl.symm, lookup_put_ne hte.symm]
  rfl

theorem framing_removeAll (hcl : name ≠ CONTENT_LENGTH)
    (hte : name ≠ TRANSFER_ENCODING) : (h.removeAll name).framing = h.framing := by
  simp only [framing, values_eq, lookup_removeAll_ne hcl.symm, lookup_removeAll_ne hte.symm]
  rfl

theorem contentLength_ne : CONTENT_LENGTH ≠ TRANSFER_ENCODING := by decide

@[simp] theorem framing_put_contentLength : (h.put CONTENT_LENGTH vs).framing =
    { h.framing with lengths := some vs } := by
  simp only [framing, values_eq, lookup_put_self, lookup_put_ne contentLength_ne.symm]
  rfl

@[simp] theorem framing_put_transferEncoding : (h.put TRANSFER_ENCODING vs).framing =
    { h.framing with encodings := vs } := by
  simp only [framing, values_eq, lookup_put_self, lookup_put_ne contentLength_ne]
  rfl

@[simp] theorem framing_removeAll_contentLength : (h.removeAll CONTENT_LENGTH).framing =
    { h.framing with lengths := none } := by
  simp only [framing, values_eq, lookup_removeAll_self, lookup_removeAll_ne contentLength_ne.symm]
  rfl

@[simp] theorem framing_removeAll_transferEncoding :
    (h.removeAll TRANSFER_ENCODING).framing = { h.framing with encodings := [] } := by
  simp only [framing, values_eq, lookup_removeAll_self, lookup_removeAll_ne contentLength_ne]
  rfl

/-- Without `chunked` among them the encodings say nothing about the body. -/
theorem Framing.Kept.append {f : Framing} (hf : f.Kept) {t : Text} (ht : t ≠ CHUNKED) :
    Framing.Kept { f with encodings := f.encodings ++ [t] } where
  lengths := hf.lengths
  encodings := by
    rw [hf.encodings]
    simp [ht.symm]
  exclusive := hf.exclusive
  once := by
    have hc : [t].count CHUNKED = 0 := count_eq_zero.mpr (by simpa using ht.symm)
    simpa only [count_append, hc, Nat.add_zero] using hf.once

/-- When its only `chunked` is removed the message is not chunked any more. -/
theorem Framing.Kept.erase {f : Framing} (hf : f.Kept) :
    Framing.Kept
      { f with chunked := false, encodings := f.encodings.erase CHUNKED } where
  lengths := hf.lengths
  encodings := by
    have ha : CHUNKED ∉ f.encodings.erase CHUNKED := by
      rw [← count_eq_zero, count_erase_self]
      exact Nat.sub_eq_zero_of_le hf.once
    simpa using ha
  exclusive := by simp
  once := by
    rw [count_erase_self]
    exact Nat.le_trans (Nat.sub_le _ _) hf.once

end Framing

section Values

/-- The text under which a value goes into the list of a header, if it is one that can. -/
def Value.stored : Value → Option Text
  | .dateTime formatted => some formatted
  | .string value => some (narrow value)
  | .int value =>
    let printed := widen (text (toString value))
    if printed.all isValueChar then some (narrow printed) else none
  | .other printed => if printed.all isValueChar then some (narrow printed) else none

/-- A string, or something else that does not print as `chunked`. -/
def Value.Plain : Value → Prop
  | .string _ => True
  | value => value.stored ≠ some (text "chunked")

/-- A string that has been checked, or something else. -/
def Value.Valid (v : Value) : Prop := ∀ s, v = .string s → s.all isValueChar

theorem widen_narrow {s : List UInt16} (hs : ∀ u ∈ s, u < 128) : widen (narrow s) = s := by
  have hun : ∀ u ∈ s, (UInt8.toUInt16 ∘ UInt16.toUInt8) u = id u := by
    intro u hu
    have hlt : u.toNat < 128 := UInt16.lt_iff_toNat_lt.mp (hs u hu)
    refine UInt16.toNat.inj ?_
    simp only [comp_apply, UInt8.toNat_toUInt16, UInt16.toNat_toUInt8, id_eq]
    omega
  rw [widen, narrow, List.map_map, map_congr_left hun, List.map_id]

theorem isValueChar_lt {u : UInt16} (hu : isValueChar u) : u < 128 := by
  simp only [isValueChar, decide_eq_true_eq] at hu
  rcases hu with ⟨-, hlt⟩ | rfl | rfl
  · exact hlt
  · decide
  · decide

theorem narrow_ne {s : List UInt16} (hs : s.all isValueChar) {t : Text} (hne : s ≠ widen t) :
    narrow s ≠ t := by
  rintro rfl
  exact hne (widen_narrow fun u hu => isValueChar_lt (List.all_eq_true.mp hs u hu)).symm

/-- A checked value is stored as `chunked` only if it is this string. -/
theorem stored_ne_chunked {v : Value} (hp : v.Plain) (hne : v ≠ .string (widen CHUNKED))
    (hvl : v.Valid) : v.stored ≠ some CHUNKED := by
  cases v with
  | string s =>
    intro hs
    exact narrow_ne (hvl s rfl) (fun heq => hne (heq ▸ rfl)) (some.inj hs)
  | int n | dateTime t | other t => exact hp

theorem eraseFrom_singleton {v : Value} {t : Text} (hne : v ≠ .string (widen t))
    (hvl : v.Valid) : v.eraseFrom [t] = [t] := by
  cases v with
  | string s =>
    have hs : narrow s ≠ t := narrow_ne (hvl s rfl) fun heq => hne (heq ▸ rfl)
    exact erase_of_not_mem (by simpa using hs)
  | int n | dateTime t | other t => rfl

theorem Framing.Kept.eraseFrom {f : Framing} (hf : f.Kept) {v : Value}
    (hne : v ≠ .string (widen CHUNKED)) (hvl : v.Valid) :
    Framing.Kept { f with encodings := v.eraseFrom f.encodings } := by
  cases v with
  | string s =>
    have hs : CHUNKED ≠ narrow s :=
      (narrow_ne (hvl s rfl) fun heq => hne (heq ▸ rfl)).symm
    refine ⟨⟨hf.lengths, ?_, hf.exclusive⟩, ?_⟩
    · exact hf.encodings.trans (mem_erase_of_ne hs).symm
    · rw [Value.eraseFrom, count_erase_of_ne hs]
      exact hf.once
  | int n | dateTime t | other t => exact hf

end Values

section Operations

variable {v : Value} {depth : ℕ}

def prepare (h : HttpHeaders) (name : Text) : HttpHeaders :=
  if h.lookup name = none then h.put name [] else h

theorem framing_prepare (hcl : name ≠ CONTENT_LENGTH) :
    (h.prepare name).framing = h.framing := by
  unfold prepare
  split_ifs with hn
  · by_cases hte : name = TRANSFER_ENCODING
    · subst hte
      have hnl : h.framing.encodings = [] := by
        simp only [framing, values_eq, hn, getD_none]
      rw [framing_put_transferEncoding, ← hnl]
    · exact framing_put hcl hte
  · rfl

/-- The invariant is kept, also by an exception. -/
abbrev Keeps {α : Type} (x : Operation α) (h : HttpHeaders) : Prop :=
  Ensures x h (fun _ h' => h'.framing.Kept) fun _ h' => h'.framing.Kept

/-- What is said about the body does not change. -/
abbrev KeepsFraming {α : Type} (x : Operation α) (h : HttpHeaders) : Prop :=
  Ensures x h (fun _ h' => h'.framing = h.framing) fun _ h' => h'.framing = h.framing

namespace Operation

theorem ensures_validateValue :
    Ensures (validateValue v) h (fun v' h' => h' = h ∧ v' = v ∧ v.Valid) fun _ h' => h' = h := by
  cases v with
  | string s =>
    simp only [validateValue]
    split_ifs with hs
    · exact ensures_pure ⟨rfl, rfl, fun s' hs' => by cases hs'; exact hs⟩
    · exact ensures_throw rfl
  | int n | dateTime t | other t => exact ensures_pure ⟨rfl, rfl, nofun⟩

theorem ensures_addValue :
    Ensures (addValue name v) h
      (fun _ h' => ∃ t, v.stored = some t ∧ h' = HttpHeaders.addValue (h.prepare name) name t)
      fun _ h' => h' = h.prepare name := by
  have hp : Ensures (makeList name) h (fun _ h' => h' = h.prepare name)
      fun _ h' => h' = h.prepare name := by
    refine ensures_get_bind ?_
    unfold prepare
    split_ifs
    · exact ensures_modify rfl
    · exact ensures_pure rfl
  have hpr : ∀ printed : List UInt16, Ensures (do
      let value ← validatePrinted printed
      modify (HttpHeaders.addValue · name value)) (h.prepare name)
      (fun _ h' => ∃ t, (if printed.all isValueChar then some (narrow printed) else none) = some t ∧
        h' = HttpHeaders.addValue (h.prepare name) name t)
      fun _ h' => h' = h.prepare name := by
    intro printed
    by_cases hvalid : printed.all isValueChar
    · rw [validatePrinted, if_pos hvalid, if_pos hvalid]
      exact ⟨_, rfl, rfl⟩
    · rw [validatePrinted, if_neg hvalid]
      exact ensures_throw rfl
  refine hp.bind fun _ h' heq => ?_
  subst heq
  cases v with
  | string s | dateTime t => exact ensures_modify ⟨_, rfl, rfl⟩
  | int n | other printed => exact hpr _

theorem ensures_addValue_other (hcl : name ≠ CONTENT_LENGTH)
    (hte : name ≠ TRANSFER_ENCODING) :
    KeepsFraming (addValue name v) h := by
  refine ensures_addValue.mono ?_ ?_
  · rintro - h' ⟨t, -, rfl⟩
    rw [HttpHeaders.addValue, framing_put hcl hte, framing_prepare hcl]
  · rintro - h' rfl
    exact framing_prepare hcl

theorem ensures_addValue_transferEncoding :
    Ensures (addValue TRANSFER_ENCODING v) h (fun _ h' => ∃ t, v.stored = some t ∧
        h'.framing = { h.framing with encodings := h.framing.encodings ++ [t] } ∧
        h'.protocolVersion = h.protocolVersion)
      fun _ h' => h'.framing = h.framing := by
  have hp : (h.prepare TRANSFER_ENCODING).framing = h.framing :=
    framing_prepare (by decide)
  have hv : (h.prepare TRANSFER_ENCODING).protocolVersion = h.protocolVersion := by
    unfold prepare
    split_ifs <;> rfl
  refine ensures_addValue.mono ?_ ?_
  · rintro - h' ⟨t, ht, rfl⟩
    refine ⟨t, ht, ?_, hv⟩
    have hvl : (h.prepare TRANSFER_ENCODING).values TRANSFER_ENCODING =
        h.framing.encodings := by
      rw [← hp]
      rfl
    rw [HttpHeaders.addValue, framing_put_transferEncoding, hp, hvl]
  · rintro - h' rfl
    exact hp

theorem ensures_removeFrom_other (hcl : name ≠ CONTENT_LENGTH)
    (hte : name ≠ TRANSFER_ENCODING) :
    KeepsFraming (removeFrom name v) h := by
  refine ensures_get_bind ?_
  split
  · exact ensures_pure rfl
  · split_ifs
    · exact ensures_modify (framing_removeAll hcl hte)
    · exact ensures_modify (framing_put hcl hte)

theorem ensures_removeFrom_transferEncoding :
    Ensures (removeFrom TRANSFER_ENCODING v) h (fun _ h' => h'.framing =
        { h.framing with encodings := v.eraseFrom h.framing.encodings })
      fun _ _ => False := by
  refine ensures_get_bind ?_
  split
  next hl =>
    have hvl : h.framing.encodings = [] := by
      simp only [framing, values_eq, hl, getD_none]
    have he : v.eraseFrom [] = [] := by cases v <;> rfl
    refine ensures_pure ?_
    rw [hvl, he, ← hvl]
  next values hl =>
    have hvl : h.framing.encodings = values := by
      simp only [framing, values_eq, hl, getD_some]
    rw [hvl]
    split_ifs with hn
    · refine ensures_modify ?_
      rw [framing_removeAll_transferEncoding, hn]
    · exact ensures_modify framing_put_transferEncoding

theorem narrow_chunked : narrow (widen CHUNKED) = CHUNKED := by decide

theorem validateField_widen (ht : (widen name).all isTokenChar)
    (hlw : toLowerCase (narrow (widen name)) = name) :
    validateField (widen name) = pure name := by
  rw [validateField, if_pos ht, hlw]

theorem validateField_contentLength :
    validateField (widen CONTENT_LENGTH) = pure CONTENT_LENGTH :=
  validateField_widen (by decide) (by decide)

theorem ensures_remove_chunked :
    Ensures (remove (widen TRANSFER_ENCODING) (.string (widen CHUNKED))) h
      (fun _ h' => h'.framing =
        { h.framing with chunked := false, encodings := h.framing.encodings.erase CHUNKED })
      fun _ _ => False := by
  have hn : validateField (widen TRANSFER_ENCODING) = pure TRANSFER_ENCODING :=
    validateField_widen (by decide) (by decide)
  have hvl : validateValue (.string (widen CHUNKED)) =
      pure (.string (widen CHUNKED)) := by
    have hvd : (widen CHUNKED).all isValueChar := by decide
    rw [validateValue, if_pos hvd]
  rw [remove, hn, pure_bind, hvl, pure_bind]
  refine ensures_removeFrom_transferEncoding.bind fun _ h' hf => ?_
  rw [if_pos ⟨rfl, rfl⟩]
  refine ensures_modify ?_
  simp only [Value.eraseFrom, narrow_chunked] at hf
  change ({ h'.framing with chunked := false } : Framing) = _
  rw [hf]

section Setters

variable (hv : h.protocolVersion ≠ .http10)

include hv

theorem ensures_setContentLength_same (hln : h.contentLength = -1) :
    Ensures (setContentLength (depth + 1) (-1)) h (fun _ h' => h' = h) fun _ _ => False := by
  rw [setContentLength]
  refine ensures_get_bind ?_
  rw [if_neg fun ho => hv ho.1, if_pos hln]
  exact ensures_pure rfl

variable (hl : h.lookup TRANSFER_ENCODING = some vs)
  (hls : vs.getLast? = some CHUNKED) (hfl : h.chunkedTransferEncoding = false)

include hl hls hfl

theorem ensures_setChunked_declared (hln : h.contentLength = -1) :
    Ensures (setChunkedTransferEncoding (depth + 2) true) h
      (fun _ h' => h' = { h with chunkedTransferEncoding := true }) fun _ _ => False := by
  have ha : Ensures appendChunked h (fun _ h' => h' = h) fun _ _ => False := by
    refine ensures_get_bind ?_
    rw [hl]
    simp only [hls, ne_eq, not_true_eq_false, if_false]
    exact ensures_pure rfl
  rw [setChunkedTransferEncoding]
  refine ensures_get_bind ?_
  rw [if_neg fun ho => hv ho.2, if_neg (by rw [hfl]; decide), if_pos rfl]
  refine Ensures.bind (R := fun _ h' => h' = h) ?_ fun _ h' heq => ?_
  · refine ha.bind fun _ h' heq => ?_
    subst heq
    exact ensures_setContentLength_same hv hln
  · subst heq
    exact ensures_modify rfl

theorem ensures_setContentLength_clear :
    Ensures (setContentLength (depth + 3) (-1)) h (fun _ h' => ∃ b, h'.framing =
        { h.framing with
          contentLength := -1
          chunked := b
          lengths := if h.contentLength = -1 then h.framing.lengths else none })
      fun _ _ => False := by
  by_cases hlength : h.contentLength = -1
  · refine (ensures_setContentLength_same hv hlength).mono ?_ fun _ _ => id
    rintro - h' rfl
    exact ⟨h'.chunkedTransferEncoding, by rw [if_pos hlength, ← hlength]; rfl⟩
  rw [setContentLength]
  refine ensures_get_bind ?_
  rw [if_neg fun ho => hv ho.1, if_neg hlength]
  refine ensures_modify_bind ?_
  rw [if_neg (by decide), removeAll, validateField_contentLength, pure_bind]
  refine ensures_modify_bind ?_
  let cleared := { h with contentLength := -1 }.removeAll CONTENT_LENGTH
  have hf : cleared.framing = { h.framing with contentLength := -1, lengths := none } :=
    framing_removeAll_contentLength
  by_cases hnew : h.protocolVersion = .http11
  · have hkp : cleared.lookup TRANSFER_ENCODING = some vs := by
      rw [← hl]
      exact lookup_removeAll_ne (by decide)
    rw [if_pos hnew]
    refine (ensures_setChunked_declared (h := cleared) hv hkp hls hfl rfl).mono ?_
      fun _ _ => id
    rintro - h' rfl
    refine ⟨true, ?_⟩
    change ({ cleared.framing with chunked := true } : Framing) = _
    rw [hf, if_neg hlength]
  · rw [if_neg hnew]
    exact ensures_pure ⟨h.chunkedTransferEncoding, by rw [if_neg hlength]; exact hf⟩

end Setters

section Chunked

variable (hkp : h.framing.Kept) (hfl : h.chunkedTransferEncoding = false)

include hkp hfl

theorem chunked_notMem : CHUNKED ∉ h.framing.encodings := by
  rw [← hkp.encodings]
  change ¬h.chunkedTransferEncoding
  rw [hfl]
  decide

theorem ensures_appendChunked :
    Ensures appendChunked h (fun _ h' => h'.framing =
          { h.framing with encodings := h.framing.encodings ++ [CHUNKED] } ∧
        h'.protocolVersion = h.protocolVersion)
      fun _ h' => h'.framing.Kept := by
  have ha : Ensures (addValue TRANSFER_ENCODING (.string (widen CHUNKED))) h
      (fun _ h' => h'.framing =
          { h.framing with encodings := h.framing.encodings ++ [CHUNKED] } ∧
        h'.protocolVersion = h.protocolVersion)
      fun _ h' => h'.framing.Kept := by
    refine ensures_addValue_transferEncoding.mono ?_ fun _ h' hs => hs ▸ hkp
    rintro - h' ⟨t, ht, hframing, hv⟩
    have ht' : t = CHUNKED := by
      rw [← narrow_chunked]
      exact (some.inj ht).symm
    exact ⟨ht' ▸ hframing, hv⟩
  refine ensures_get_bind ?_
  split
  next => exact ha
  next vs hl =>
    have hvl : h.framing.encodings = vs := by
      simp only [framing, values_eq, hl, getD_some]
    split
    next => exact ensures_throw hkp
    next last hls =>
      rw [if_pos]
      · exact ha
      · rintro rfl
        exact chunked_notMem hkp hfl (hvl ▸ mem_of_getLast? hls)

/-- Once the header says `chunked`, there is no content length any more. -/
theorem ensures_declareChunked (hv : h.protocolVersion ≠ .http10) :
    Ensures (do appendChunked; setContentLength (depth + 3) (-1)) h (fun _ h' => ∃ b, h'.framing =
        { contentLength := -1
          chunked := b
          lengths := none
          encodings := h.framing.encodings ++ [CHUNKED] })
      fun _ h' => h'.framing.Kept := by
  refine (ensures_appendChunked hkp hfl).bind fun _ h₁ hf => ?_
  have hvr₁ : h₁.protocolVersion ≠ .http10 := hf.2 ▸ hv
  have he : h₁.values TRANSFER_ENCODING =
      h.framing.encodings ++ [CHUNKED] := congrArg Framing.encodings hf.1
  have hfg₁ : h₁.chunkedTransferEncoding = false :=
    (congrArg Framing.chunked hf.1).trans hfl
  have hln₁ : h₁.contentLength = h.contentLength := congrArg Framing.contentLength hf.1
  rw [values_eq] at he
  obtain ⟨vs, hl⟩ : ∃ vs, h₁.lookup TRANSFER_ENCODING = some vs := by
    cases hl : h₁.lookup TRANSFER_ENCODING with
    | none => simp [hl] at he
    | some vs => exact ⟨vs, rfl⟩
  have hls : vs.getLast? = some CHUNKED := by
    rw [hl, getD_some] at he
    rw [he, getLast?_concat]
  have hn : (if h.contentLength = -1 then h.framing.lengths else none) = none := by
    split_ifs with hln
    · rw [hkp.lengths, if_neg]
      change ¬0 ≤ h.contentLength
      omega
    · rfl
  refine (ensures_setContentLength_clear hvr₁ hl hls hfg₁).mono ?_ fun _ _ => False.elim
  rintro - h' ⟨b, hframing'⟩
  refine ⟨b, ?_⟩
  rw [hframing', hf.1, hln₁, hn]

end Chunked

theorem ensures_setChunked_clear (hfl : h.chunkedTransferEncoding) :
    Ensures (setChunkedTransferEncoding (depth + 1) false) h (fun _ h' => h'.framing =
        { h.framing with chunked := false, encodings := h.framing.encodings.erase CHUNKED })
      fun _ _ => False := by
  rw [setChunkedTransferEncoding]
  refine ensures_get_bind ?_
  rw [if_neg (by simp), if_neg (by rw [hfl]; decide), if_neg (by decide)]
  refine ensures_remove_chunked.bind fun _ h' hf => ?_
  refine ensures_modify ?_
  change ({ h'.framing with chunked := false } : Framing) = _
  rw [hf]

theorem ensures_setChunkedTransferEncoding (hkp : h.framing.Kept) (b : Bool) :
    Keeps (setChunkedTransferEncoding (depth + 4) b) h := by
  by_cases hsame : b = h.chunkedTransferEncoding
  · rw [setChunkedTransferEncoding]
    refine ensures_get_bind ?_
    split_ifs
    · exact ensures_throw hkp
    · exact ensures_pure hkp
  cases b with
  | true =>
    have hfl : h.chunkedTransferEncoding = false :=
      Bool.eq_false_iff.mpr fun ht => hsame ht.symm
    rw [setChunkedTransferEncoding]
    refine ensures_get_bind ?_
    by_cases hv : h.protocolVersion = .http10
    · rw [if_pos ⟨rfl, hv⟩]
      exact ensures_throw hkp
    -- `chunked` is not there yet, and it goes to the end of the list
    rw [if_neg fun ho => hv ho.2, if_neg hsame, if_pos rfl]
    refine (ensures_declareChunked hkp hfl hv).bind fun _ h' hf => ?_
    obtain ⟨b, hf⟩ := hf
    refine ensures_modify ?_
    change Framing.Kept { h'.framing with chunked := true }
    rw [hf]
    refine ⟨⟨rfl, by simp, by simp⟩, ?_⟩
    simp only [count_append, count_eq_zero.mpr (chunked_notMem hkp hfl)]
    decide
  | false =>
    have hfl : h.chunkedTransferEncoding :=
      Bool.of_not_eq_false fun hfs => hsame hfs.symm
    exact (ensures_setChunked_clear hfl).mono (fun _ h' hf => hf ▸ hkp.erase)
      fun _ _ => False.elim

theorem ensures_setContentLength_restores {n : ℤ} {lengths : Option (List Text)}
    (hkp : Framing.Kept { h.framing with lengths := lengths })
    (hs : h.protocolVersion = .http10 ∧ h.persistentConnection ∧ n = -1 ∨
      h.contentLength = n → h.framing.Kept) :
    Keeps (setContentLength (depth + 5) n) h := by
  rw [setContentLength]
  refine ensures_get_bind ?_
  by_cases hclear : h.protocolVersion = .http10 ∧ h.persistentConnection ∧ n = -1
  · rw [if_pos hclear]
    exact ensures_throw (hs (.inl hclear))
  by_cases hln : h.contentLength = n
  · rw [if_neg hclear, if_pos hln]
    exact ensures_pure (hs (.inr hln))
  rw [if_neg hclear, if_neg hln]
  refine ensures_modify_bind ?_
  by_cases hn : 0 ≤ n
  · have hst : ∀ h' : HttpHeaders, h'.framing.contentLength = n → h'.framing.chunked = false →
        CHUNKED ∉ h'.framing.encodings →
        Keeps (setValue CONTENT_LENGTH (text (toString n))) h' := by
      intro h' hln hfl he
      refine ensures_modify ?_
      rw [HttpHeaders.set, framing_put_contentLength]
      refine ⟨⟨?_, ?_, ?_⟩, ?_⟩
      · simp only [hln, hn, if_true]
      · simp only [hfl, he, Bool.false_eq_true]
      · simp only [hfl, Bool.false_eq_true, and_false, not_false_eq_true]
      · simp only [count_eq_zero.mpr he, Nat.zero_le]
    rw [if_pos hn]
    by_cases hfl : h.chunkedTransferEncoding
    · rw [if_pos hfl]
      refine Ensures.bind (R := fun _ h' => h'.framing =
          { h.framing with
            contentLength := n
            chunked := false
            encodings := h.framing.encodings.erase CHUNKED })
        ((ensures_setChunked_clear (h := { h with contentLength := n }) hfl).mono (fun _ _ => id)
          fun _ _ => False.elim)
        fun _ h' hf => ?_
      have he := hkp.erase.encodings
      refine hst h' (by rw [hf]) (by rw [hf]) ?_
      rw [hf]
      simpa using he
    · rw [if_neg hfl]
      refine ensures_pure_bind (hst _ rfl (Bool.eq_false_iff.mpr hfl) ?_)
      exact fun hm => hfl (hkp.encodings.mpr hm)
  · rw [if_neg hn, removeAll, validateField_contentLength, pure_bind]
    refine ensures_modify_bind ?_
    have hc : Framing.Kept
        ({ h with contentLength := n }.removeAll CONTENT_LENGTH).framing := by
      rw [framing_removeAll_contentLength]
      exact ⟨⟨(if_neg hn).symm, hkp.encodings, fun hb => hn hb.1⟩, hkp.once⟩
    split_ifs
    · exact ensures_setChunkedTransferEncoding hc true
    · exact ensures_pure hc

theorem ensures_setContentLength (hkp : h.framing.Kept) (n : ℤ) :
    Keeps (setContentLength (depth + 5) n) h :=
  ensures_setContentLength_restores hkp fun _ => hkp

end Operation

end Operations

end DartSdk.Io.HttpHeaders
