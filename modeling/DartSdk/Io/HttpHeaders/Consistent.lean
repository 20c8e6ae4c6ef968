import DartSdk.Io.HttpHeaders.Framing

/-!
# Runs on mutable headers

* `Safe`: the calls that keep the framing consistent, seen from the headers they are made on;
* `kept_call`: a safe call keeps the invariant, also when it throws;
* `consistent_of_safe`: **a run of safe calls keeps the framing consistent**;
* `inconsistent_of_removeAll`: others do not, since `removeAll` forgets the fields.
-/

namespace DartSdk.Io.HttpHeaders

open Throwing

section Operations

variable {h : HttpHeaders} {name : Text} {v : Value} {parseInt : Text → Option ℤ}

namespace Operation

theorem ensures_addContentLength (hk : h.framing.Kept) :
    Keeps (addContentLength parseInt v) h := by
  cases v with
  | int n => exact ensures_setContentLength hk n
  | string s =>
    rw [addContentLength]
    split
    next n _ => exact ensures_setContentLength hk n
    next => exact ensures_throw hk
  | dateTime t | other t => exact ensures_throw hk

theorem ensures_addTransferEncoding (hk : h.framing.Kept) (hp : v.Plain)
    (hv : v.Valid) : Keeps (addTransferEncoding v) h := by
  rw [addTransferEncoding]
  split_ifs with hc
  · exact ensures_setChunkedTransferEncoding hk true
  refine ensures_addValue_transferEncoding.mono ?_ fun _ h' hs => hs ▸ hk
  rintro - h' ⟨t, ht, hframing, -⟩
  have hne : t ≠ CHUNKED := by
    rintro rfl
    exact stored_ne_chunked hp hc hv ht
  exact hframing ▸ hk.append hne

theorem ensures_addOne_other (hcl : name ≠ CONTENT_LENGTH)
    (hte : name ≠ TRANSFER_ENCODING) :
    KeepsFraming (addOne parseInt name v) h := by
  have hs : ∀ (other : Text) (t : Text), other ≠ CONTENT_LENGTH →
      other ≠ TRANSFER_ENCODING →
      KeepsFraming (setValue other t) h :=
    fun _ _ hcl hte => ensures_modify (framing_put hcl hte)
  have hd : ∀ other : String, text other ≠ CONTENT_LENGTH →
      text other ≠ TRANSFER_ENCODING →
      KeepsFraming (addDate other v) h := by
    intro other hcl hte
    cases v with
    | string s | dateTime t => exact hs _ _ hcl hte
    | int n | other t => exact ensures_throw rfl
  unfold addOne
  split_ifs with h1 h2 h3 h4 h5 h6
  · exact hd "date" (by decide) (by decide)
  · cases v with
    | string s => exact hs _ _ (by decide) (by decide)
    | dateTime t | int n | other t => exact ensures_throw rfl
  · exact hd "expires" (by decide) (by decide)
  · cases v with
    | string s =>
      refine ensures_modify ?_
      rw [HttpHeaders.addConnection]
      refine (framing_put (by decide) (by decide)).trans ?_
      split_ifs <;> rfl
    | dateTime t | int n | other t => exact ensures_throw rfl
  · cases v with
    | string s => exact hs _ _ (by decide) (by decide)
    | dateTime t | int n | other t => exact ensures_throw rfl
  · exact hd "if-modified-since" (by decide) (by decide)
  · exact ensures_addValue_other hcl hte

/-- Adding a value keeps the invariant, unless it is `chunked` in disguise. -/
theorem ensures_addOne (hk : h.framing.Kept) (hp : name = TRANSFER_ENCODING → v.Plain)
    (hv : v.Valid) : Keeps (addOne parseInt name v) h := by
  by_cases hcl : name = CONTENT_LENGTH
  · subst hcl
    exact ensures_addContentLength hk
  by_cases hte : name = TRANSFER_ENCODING
  · subst hte
    exact ensures_addTransferEncoding hk (hp rfl) hv
  · exact (ensures_addOne_other hcl hte).mono (fun _ _ hs => hs ▸ hk)
      fun _ _ hs => hs ▸ hk

theorem keeps_bind {α : Type} {x : Operation α} {f : α → Operation Unit} {P : α → Prop}
    (hk : h.framing.Kept) (hx : Ensures x h (fun a h' => h' = h ∧ P a) fun _ h' => h' = h)
    (hf : ∀ a, P a → Keeps (f a) h) : Keeps (x >>= f) h := by
  refine (hx.mono (fun _ _ => id) ?_).bind ?_
  · rintro - h' rfl
    exact hk
  · rintro a h' ⟨rfl, ha⟩
    exact hf a ha

theorem ensures_addAll {values : List Value} (hk : h.framing.Kept)
    (hp : name = TRANSFER_ENCODING → ∀ v ∈ values, v.Plain) :
    Keeps (forM values fun v => do addOne parseInt name (← validateValue v)) h := by
  refine ensures_forM (fun v hv h hk => ?_) hk
  refine keeps_bind hk ensures_validateValue fun v' hv' => ?_
  obtain ⟨rfl, hvl⟩ := hv'
  exact ensures_addOne hk (fun hte => hp hte v' hv) hvl

/-- A value that is removed keeps the invariant if it is not the content length. -/
theorem ensures_removeValue (hk : h.framing.Kept)
    (hcl : name = CONTENT_LENGTH → 0 ≤ h.contentLength →
      v ≠ .string (widen (text (toString h.contentLength)))) (hv : v.Valid) :
    Keeps (removeValue name v) h := by
  by_cases hlength : name = CONTENT_LENGTH
  · subst hlength
    refine Ensures.bind (R := fun _ h' => h'.framing = h.framing) ?_ fun _ h' hs => ?_
    · refine ensures_get_bind ?_
      split
      next => exact ensures_pure rfl
      next values hlk =>
        have hl : h.framing.lengths = some values := hlk
        rw [hk.lengths] at hl
        have he : v.eraseFrom values = values ∧ values ≠ [] := by
          split_ifs at hl with hp
          cases hl
          exact ⟨eraseFrom_singleton (hcl rfl hp) hv, by simp⟩
        rw [if_neg (he.1.symm ▸ he.2), he.1]
        refine ensures_modify ?_
        rw [framing_put_contentLength, ← hlk]
        rfl
    · rw [if_neg fun hte => absurd hte.1 (by decide)]
      exact ensures_pure (hs ▸ hk)
  by_cases hte : name = TRANSFER_ENCODING
  · subst hte
    refine Ensures.bind
      (ensures_removeFrom_transferEncoding.mono (fun _ _ => id) fun _ _ => False.elim)
      fun _ h' hf => ?_
    split_ifs with hc
    · refine ensures_modify ?_
      change Framing.Kept { h'.framing with chunked := false }
      rw [hf, hc.2]
      exact hk.erase
    · refine ensures_pure ?_
      rw [hf]
      exact hk.eraseFrom (fun heq => hc ⟨rfl, heq⟩) hv
  · refine ((ensures_removeFrom_other hlength hte).mono (fun _ _ => id) fun _ _ hs =>
      hs ▸ hk).bind fun _ h' hs => ?_
    rw [if_neg fun h => hte h.1]
    exact ensures_pure (hs ▸ hk)

end Operation

end Operations

section Runs

variable (parseInt : Text → Option ℤ) {h : HttpHeaders}

/-- The name of a header, whatever the case of its letters. -/
def Names (name : List UInt16) (header : Text) : Prop :=
  name.all isTokenChar = true ∧ toLowerCase (narrow name) = header

def Value.denotes : Value → Option ℤ
  | .int value => some value
  | .string value => if value.all isValueChar then parseInt (narrow value) else none
  | _ => none

/-- One after the other, the values give the content length that is there and then another one that
can be set. -/
def Restores (h : HttpHeaders) : List Value → Prop
  | [] => False
  | value :: values => ∃ n, value.denotes parseInt = some n ∧
    (n = h.contentLength ∧ Restores h values ∨
      n ≠ h.contentLength ∧ ¬(h.protocolVersion = .http10 ∧ h.persistentConnection = true ∧ n = -1))

/-- What the code leaves to its callers: a header that frames the body is not removed behind the back
of its field, a content length is not replaced by itself or by something that cannot be set, and
`chunked` is given as a string. -/
def Safe (h : HttpHeaders) : Call → Prop
  | .add name argument => Names name (text "transfer-encoding") → ∀ v ∈ argument.toList, v.Plain
  | .set name argument =>
    (Names name (text "transfer-encoding") → ∀ v ∈ argument.toList, v.Plain) ∧
      (Names name (text "content-length") → 0 ≤ h.contentLength →
        Restores parseInt h argument.toList)
  | .remove name value => Names name (text "content-length") → 0 ≤ h.contentLength →
    value ≠ .string (widen (text (toString h.contentLength)))
  | .removeAll name => (Names name (text "content-length") → h.contentLength < 0) ∧
    (Names name (text "transfer-encoding") → h.chunkedTransferEncoding = false)
  | .contentLength _ => True
  | .chunkedTransferEncoding _ => True
  | .persistentConnection _ => True
  | .clear => True

/-- The initial headers are consistent and have no list of transfer codings, which the headers that are
made from them would share: what is added to it or removed from it is so in all of them. -/
def SafeInitial (initial : HttpHeaders) : Prop :=
  initial.Consistent ∧ initial.lookup (text "transfer-encoding") = none

def SafeRun : HttpHeaders → List Call → Prop
  | _, [] => True
  | h, c :: cs => Safe parseInt h c ∧ SafeRun (h.call parseInt c) cs

variable {parseInt}

open Operation

variable {name : List UInt16}

theorem ensures_validateField :
    Ensures (validateField name) h (fun t h' => h' = h ∧ Names name t) fun _ h' => h' = h := by
  rw [validateField]
  split_ifs with hn
  · exact ensures_pure ⟨rfl, hn, rfl⟩
  · exact ensures_throw rfl

theorem ensures_restore (lengths : Option (List Text)) {values : List Value}
    (hl : Framing.Kept { h.framing with lengths := lengths }) (hp : 0 ≤ h.contentLength)
    (hr : Restores parseInt h values) :
    Keeps (forM values fun v => do
        addOne parseInt CONTENT_LENGTH (← validateValue v)) h := by
  induction values with
  | nil => exact hr.elim
  | cons v values ih =>
    obtain ⟨n, hn, hcs⟩ := hr
    have ho : (do addOne parseInt CONTENT_LENGTH (← validateValue v)) =
        Operation.setContentLength setterDepth n := by
      cases v with
      | int m =>
        cases hn
        rfl
      | string s =>
        rw [Value.denotes] at hn
        split_ifs at hn with hv
        rw [validateValue, if_pos hv, pure_bind]
        change Operation.addContentLength parseInt (.string s) = _
        rw [Operation.addContentLength, hn]
      | dateTime t | other t => cases hn
    rw [List.forM_cons, ho]
    rcases hcs with ⟨rfl, hrs⟩ | ⟨hne, hc⟩
    · refine Ensures.bind (R := fun _ h' => h' = h) ?_ fun _ h' heq => ?_
      · rw [setterDepth, Operation.setContentLength]
        refine ensures_get_bind ?_
        rw [if_neg fun hc => by omega, if_pos rfl]
        exact ensures_pure rfl
      · subst heq
        exact ih hrs
    · refine (ensures_setContentLength_restores hl (or_imp.mpr
        ⟨hc.elim, fun heq => absurd heq.symm hne⟩)).bind fun _ h' hk => ?_
      exact ensures_addAll hk fun hte => absurd hte (by decide)

theorem Restores.removeAll {name : Text} {values : List Value}
    (hr : Restores parseInt h values) : Restores parseInt (h.removeAll name) values := by
  induction values with
  | nil => exact hr
  | cons v values ih =>
    obtain ⟨n, hn, hc⟩ := hr
    exact ⟨n, hn, hc.imp (And.imp_right ih) id⟩

theorem kept_empty (hh : h.headers = []) (hl : h.contentLength = -1)
    (hf : h.chunkedTransferEncoding = false) : h.framing.Kept := by
  refine ⟨⟨?_, ?_, ?_⟩, ?_⟩
  · simp [framing, lookup, hh, hl]
  · simp [framing, values, hh, hf]
  · simp [framing, hf]
  · simp [framing, values, hh]

theorem kept_new {version : HttpVersion} {initialHeaders : Option HttpHeaders}
    (hi : ∀ initial ∈ initialHeaders, SafeInitial initial) :
    (new version initialHeaders).framing.Kept := by
  cases initialHeaders with
  | none => exact kept_empty rfl rfl rfl
  | some initial =>
    obtain ⟨⟨hl, he, -⟩, hnone⟩ := hi initial rfl
    have hv : (new version (some initial)).framing.encodings = [] := by
      change (initial.lookup TRANSFER_ENCODING).getD [] = []
      rw [hnone, Option.getD_none]
    have hf : initial.framing.chunked = false := by
      refine Bool.eq_false_iff.mpr fun hc => ?_
      have hm : CHUNKED ∈ (new version (some initial)).framing.encodings := he.mp hc
      rw [hv] at hm
      exact nomatch hm
    have hc : (new version (some initial)).framing.chunked = false := by
      change (initial.framing.chunked && _) = false
      rw [hf, Bool.false_and]
    exact ⟨⟨hl, by simp [hc, hv], by simp [hc]⟩, by simp [hv]⟩

theorem SafeRun.left {calls calls' : List Call} (hs : SafeRun parseInt h (calls ++ calls')) :
    SafeRun parseInt h calls := by
  induction calls generalizing h with
  | nil => trivial
  | cons c _ ih => exact ⟨hs.1, ih hs.2⟩

variable (hk : h.framing.Kept)

include hk

theorem ensures_add {argument : Argument}
    (hp : Names name TRANSFER_ENCODING → ∀ v ∈ argument.toList, v.Plain) :
    Keeps (Operation.add parseInt name argument) h := by
  refine keeps_bind hk ensures_validateField fun t hn => ?_
  exact ensures_addAll hk fun hte => hp (hte ▸ hn)

theorem ensures_set {argument : Argument} (hs : Safe parseInt h (.set name argument)) :
    Keeps (Operation.set parseInt name argument) h := by
  refine keeps_bind hk ensures_validateField fun t hn => ?_
  refine ensures_modify_bind ?_
  by_cases hcl : t = CONTENT_LENGTH
  · subst hcl
    rw [if_neg (by decide)]
    refine ensures_pure_bind ?_
    have hf := framing_removeAll_contentLength (h := h)
    by_cases hpos : 0 ≤ h.contentLength
    · exact ensures_restore h.framing.lengths (hf ▸ hk) hpos
        (hs.2 hn hpos).removeAll
    have hnn : h.framing.lengths = none := by
      rw [hk.lengths]
      exact if_neg hpos
    refine ensures_addAll ?_ fun hte => absurd hte (by decide)
    rw [hf, ← hnn]
    exact hk
  by_cases hte : t = TRANSFER_ENCODING
  · subst hte
    rw [if_pos rfl]
    refine ensures_modify_bind (ensures_addAll ?_ fun _ => hs.1 hn)
    change Framing.Kept { (h.removeAll TRANSFER_ENCODING).framing with chunked := false }
    rw [framing_removeAll_transferEncoding]
    exact ⟨⟨hk.lengths, by simp, by simp⟩, Nat.zero_le 1⟩
  · rw [if_neg hte]
    refine ensures_pure_bind (ensures_addAll ?_ fun hte' => absurd hte' hte)
    rw [framing_removeAll hcl hte]
    exact hk

theorem ensures_remove {v : Value} (hs : Names name CONTENT_LENGTH → 0 ≤ h.contentLength →
      v ≠ .string (widen (text (toString h.contentLength)))) :
    Keeps (Operation.remove name v) h := by
  refine keeps_bind hk ensures_validateField fun t hn => ?_
  refine keeps_bind hk ensures_validateValue fun v' hv' => ?_
  obtain ⟨rfl, hv⟩ := hv'
  exact ensures_removeValue hk (fun hcl => hs (hcl ▸ hn)) hv

theorem ensures_removeAll (hs : Safe parseInt h (.removeAll name)) :
    Keeps (Operation.removeAll name) h := by
  refine keeps_bind hk ensures_validateField fun t hn => ?_
  refine ensures_modify ?_
  by_cases hcl : t = CONTENT_LENGTH
  · subst hcl
    have hng : ¬0 ≤ h.framing.contentLength := Int.not_le.mpr (hs.1 hn)
    rw [framing_removeAll_contentLength]
    exact ⟨⟨(if_neg hng).symm, hk.encodings, hk.exclusive⟩, hk.once⟩
  by_cases hte : t = TRANSFER_ENCODING
  · subst hte
    have hf : h.framing.chunked = false := hs.2 hn
    rw [framing_removeAll_transferEncoding]
    exact ⟨⟨hk.lengths, by simp [hf], hk.exclusive⟩, Nat.zero_le 1⟩
  · rw [framing_removeAll hcl hte]
    exact hk

theorem ensures_setPersistentConnection {b : Bool} :
    Keeps (Operation.setPersistentConnection parseInt b) h := by
  have hc : ∀ header : Text, header ≠ text "connection" →
      ¬Names (widen (text "connection")) header := by
    rintro header hne ⟨-, rfl⟩
    exact hne (by decide)
  have hr : ∀ v, Keeps (Operation.remove (widen (text "connection")) v) h := fun v =>
    ensures_remove hk fun hn => absurd hn (hc _ (by decide))
  have ha : ∀ argument, Keeps (Operation.add parseInt (widen (text "connection")) argument) h :=
    fun argument =>
    ensures_add hk fun hn => absurd hn (hc _ (by decide))
  refine ensures_get_bind ?_
  split_ifs
  · exact ensures_pure hk
  · exact (hr _).bind fun _ h' hkp' => ensures_modify hkp'
  · exact (ensures_throw hk).bind fun _ h' hkp' => ensures_modify hkp'
  · exact (ha _).bind fun _ h' hkp' => ensures_modify hkp'
  · exact (ha _).bind fun _ h' hkp' => ensures_modify hkp'
  · exact (hr _).bind fun _ h' hkp' => ensures_modify hkp'

theorem kept_call {c : Call} (hs : Safe parseInt h c) :
    (h.call parseInt c).framing.Kept := by
  refine Ensures.final (P := fun h : HttpHeaders => h.framing.Kept) ?_
  cases c with
  | add name argument => exact ensures_add hk hs
  | set name argument => exact ensures_set hk hs
  | remove name _ => exact ensures_remove hk hs
  | removeAll name => exact ensures_removeAll hk hs
  | contentLength n => exact ensures_setContentLength hk n
  | chunkedTransferEncoding b => exact ensures_setChunkedTransferEncoding hk b
  | persistentConnection b => exact ensures_setPersistentConnection hk
  | clear => exact ensures_modify (kept_empty rfl rfl rfl)

theorem kept_foldl {calls : List Call} (hs : SafeRun parseInt h calls) :
    (calls.foldl (call parseInt) h).framing.Kept := by
  induction calls generalizing h with
  | nil => exact hk
  | cons c _ ih => exact ih (kept_call hk hs.1) hs.2

omit hk

/-- **A run of safe calls keeps the framing consistent**, in every state that it goes through, on headers
that are made from none or from safe ones. -/
theorem consistent_of_safe (parseInt : Text → Option ℤ) (version : HttpVersion)
    (initialHeaders : Option HttpHeaders) (calls : List Call)
    (hinitial : ∀ initial ∈ initialHeaders, SafeInitial initial)
    (hsafe : SafeRun parseInt (new version initialHeaders) calls) :
    ∀ done, done <+: calls → (done.foldl (call parseInt) (new version initialHeaders)).Consistent := by
  rintro done ⟨_, rfl⟩
  exact (kept_foldl (kept_new hinitial) hsafe.left).toConsistent

/-- The response to a request of version 1.0, made from default headers with a content length. -/
theorem consistent_of_safe_length :
    SafeRun (fun _ => some 6) (new .http10 ((new .http11).call (fun _ => none) (.contentLength 5)))
        [.set (widen (text "Content-Length")) (.single (.string [0x36])),
          .remove (widen (text "content-length")) (.int 5)] ∧
      ([.set (widen (text "Content-Length")) (.single (.string [0x36])),
          .remove (widen (text "content-length")) (.int 5)].foldl (call fun _ => some 6)
        (new .http10 ((new .http11).call (fun _ => none) (.contentLength 5)))).Consistent := by
  refine ⟨?hsafe, consistent_of_safe _ _ _ _ ?hinitial ?hsafe _ List.prefix_rfl⟩
  · refine ⟨⟨fun hn => absurd hn.2 (by decide), fun _ _ => ⟨6, rfl, .inr (by decide)⟩⟩, nofun,
      trivial⟩
  · rintro initial ⟨⟩
    exact ⟨⟨by decide, by decide, by decide⟩, by decide⟩

/-- A header that is removed leaves its field behind, and a response to a request of version 1.0 is not
chunked, whatever its default headers say. -/
theorem inconsistent_of_removeAll :
    ¬([Call.contentLength 5, .removeAll (widen (text "content-length"))].foldl
        (call fun _ => none) (new .http11)).Consistent ∧
      ¬([Call.chunkedTransferEncoding true, .removeAll (widen (text "transfer-encoding"))].foldl
        (call fun _ => none) (new .http11)).Consistent ∧
      ¬(new .http10 ((new .http11).call (fun _ => none) (.chunkedTransferEncoding true))).Consistent := by
  refine ⟨fun hc => ?_, fun hc => ?_, fun hc => ?_⟩
  · have hl := hc.lengths
    revert hl
    decide
  · have he := hc.encodings
    revert he
    decide
  · have he := hc.encodings
    revert he
    decide

end Runs

end DartSdk.Io.HttpHeaders
