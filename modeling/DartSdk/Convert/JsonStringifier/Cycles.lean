import DartSdk.Convert.JsonStringifier.Rendering

/-!
# Cycles

The objects that are being written lead to the one that is written next, so an error about a cycle
means that there is one (`writeObject_returns`).
-/

namespace DartSdk.Convert

open ChunkedJsonParser Throwing List JsonStringifier

section Graph

namespace JsonEncoder

variable (e : JsonEncoder)

/-- What `writeJsonValue` does not write. -/
def Unwritten : Value → Prop
  | .double _ isFinite => isFinite = false
  | .object address =>
    match e.heap address with
    | .list _ => False
    | .map entries => stringKeys entries = none
    | .other => True
  | _ => False

/-- What is written for an object: its elements, its values or what it is encoded as. -/
inductive Edge : Value → Value → Prop
  | element {address : ℕ} {elements : List Value} {x : Value} (h : e.heap address = .list elements)
    (hx : x ∈ elements) : Edge (.object address) x
  | value {address : ℕ} {entries : List (Value × Value)} {keyValueList : List (List ℕ × Value)}
    {key : List ℕ} {x : Value} (h : e.heap address = .map entries)
    (hkeys : stringKeys entries = some keyValueList) (hx : (key, x) ∈ keyValueList) :
    Edge (.object address) x
  | custom {object x : Value} (h : e.Unwritten object) (hx : e.toEncodable object = some x) :
    Edge object x

/-- No cycle can be reached from the object. -/
def Acyclic (object : Value) : Prop :=
  ∀ x, Relation.ReflTransGen e.Edge object x → ¬Relation.TransGen e.Edge x x

variable {e}

theorem Acyclic.edge {object x : Value} (h : e.Acyclic object) (hx : e.Edge object x) : e.Acyclic x :=
  fun y hy => h y (hy.head hx)

end JsonEncoder

/-- The cycle check threw, or it is the cause of the error. -/
def JsonError.IsCyclic : JsonError → Prop
  | .cyclicError _ => True
  | .unsupportedObjectError _ (some cause) => cause.IsCyclic
  | _ => False

end Graph

section Cycles

variable {e : JsonEncoder} {object : Value} {seen : List Value} {F : JsonError → Prop}
  {writeObject : Value → JsonStringifier → Except JsonError JsonStringifier} {w : JsonStringifier}

@[simp] theorem writeString_seen (s : List ℕ) : (w.writeString s).seen = w.seen := rfl

@[simp] theorem writeStringContent_seen (s : List ℕ) : (w.writeStringContent s).seen = w.seen := by
  rw [writeStringContent_eq, writeString_seen]

@[simp] theorem writeIndentation_seen (indent : List ℕ) (count : ℕ) :
    (writeIndentation indent count w).seen = w.seen := by
  rw [writeIndentation_eq, writeString_seen]

theorem writeList_returns {list : List Value}
    (h : ∀ x ∈ list, ∀ w : JsonStringifier, w.seen = seen → Returns (writeObject x w) (·.seen = seen) F)
    (hw : w.seen = seen) : Returns (e.writeList writeObject list w) (·.seen = seen) F := by
  unfold JsonEncoder.writeList
  split
  all_goals
    cases list with
    | nil => exact hw
    | cons first rest =>
      refine (h first mem_cons_self _ (by simpa using hw)).bind fun w' hw' => ?_
      refine Returns.bind ?_ fun w'' (hw'' : w''.seen = seen) => show _ = seen by simpa using hw''
      refine returns_foldlM (fun w hw x hx => ?_) hw'
      exact h x (mem_cons_of_mem _ hx) _ (by simpa using hw)

theorem writeMap_returns {entries : List (Value × Value)}
    (h : ∀ keyValueList key x, stringKeys entries = some keyValueList →
      (key, x) ∈ keyValueList →
      ∀ w : JsonStringifier, w.seen = seen → Returns (writeObject x w) (·.seen = seen) F)
    (hw : w.seen = seen) :
    Returns (e.writeMap writeObject entries w) (fun r => r.1.seen = seen ∧
      (r.2 = false → stringKeys entries = none)) F := by
  unfold JsonEncoder.writeMap writeMap prettyWriteMap
  split
  all_goals
    split
    · exact ⟨hw, by simp⟩
    split
    · rename_i hk
      exact ⟨hw, fun _ => hk⟩
    · rename_i keyValueList hk
      refine Returns.bind ?_ fun r hr => ⟨by simpa using hr, by simp⟩
      refine returns_foldlM (fun r hr entry he => ?_) hw
      exact (h keyValueList entry.1 entry.2 hk he _ (by simpa using hr)).bind fun w' hw' => hw'

/-- An object that is reached from all objects that are being written, and not from itself. -/
theorem checkCycle_ok (h : e.Acyclic object)
    (hw : ∀ s ∈ w.seen, Relation.TransGen e.Edge s object) :
    w.checkCycle object = .ok { w with seen := w.seen ++ [object] } := by
  unfold checkCycle
  rw [if_neg fun hm => h object .refl (hw object hm)]

theorem seen_edge {x s : Value} (hsn : ∀ s ∈ seen, Relation.TransGen e.Edge s object)
    (hx : e.Edge object x) (hs : s ∈ seen ++ [object]) : Relation.TransGen e.Edge s x := by
  rcases mem_append.mp hs with hs | hs
  · exact (hsn s hs).tail hx
  · rw [mem_singleton.mp hs]
    exact .single hx

/-- What holds of `writeObject` on the objects that can be reached. -/
def NoCyclicError (e : JsonEncoder)
    (writeObject : Value → JsonStringifier → Except JsonError JsonStringifier) : Prop :=
  ∀ (x : Value) (w : JsonStringifier), e.Acyclic x →
    (∀ s ∈ w.seen, Relation.TransGen e.Edge s x) →
    Returns (writeObject x w) (·.seen = w.seen) fun error => ¬error.IsCyclic

theorem writeJsonValue_returns (h : NoCyclicError e writeObject) (ha : e.Acyclic object)
    (hw : ∀ s ∈ w.seen, Relation.TransGen e.Edge s object) :
    Returns (e.writeJsonValue writeObject object w)
      (fun r => r.1.seen = w.seen ∧ (r.2 = false → e.Unwritten object))
      fun error => ¬error.IsCyclic := by
  have hc : ∀ x, e.Edge object x → ∀ w' : JsonStringifier, w'.seen = w.seen ++ [object] →
      Returns (writeObject x w') (·.seen = w.seen ++ [object]) fun error => ¬error.IsCyclic := by
    intro x hx w' hw'
    have := h x w' (ha.edge hx) (by rw [hw']; exact fun s hs => seen_edge hw hx hs)
    rwa [hw'] at this
  unfold JsonEncoder.writeJsonValue
  cases object with
  | int n => exact ⟨rfl, by simp⟩
  | double _ isFinite =>
    dsimp only
    split_ifs with hf
    · exact ⟨rfl, by simp⟩
    · exact ⟨rfl, fun _ => (Bool.not_eq_true isFinite).mp hf⟩
  | bool b => cases b <;> exact ⟨rfl, by simp⟩
  | null => exact ⟨rfl, by simp⟩
  | string s => exact ⟨by simp, by simp⟩
  | object _ =>
    dsimp only
    split
    · rename_i elements hh
      rw [checkCycle_ok ha hw]
      refine (writeList_returns (fun x hx => hc x (.element hh hx)) rfl).bind fun w' hw' => ?_
      refine ⟨?_, by simp⟩
      show w'.seen.dropLast = w.seen
      rw [hw', dropLast_concat]
    · rename_i entries hh
      rw [checkCycle_ok ha hw]
      refine (writeMap_returns (fun keyValueList key x hk hx => hc x (.value hh hk hx))
        rfl).bind fun r hr => ?_
      refine ⟨?_, fun hfl => ?_⟩
      · show r.1.seen.dropLast = w.seen
        rw [hr.1, dropLast_concat]
      · simp only [JsonEncoder.Unwritten, hh]
        exact hr.2 hfl
    · rename_i hh
      exact ⟨rfl, fun _ => by simp only [JsonEncoder.Unwritten, hh]⟩

theorem unsupported_returns {x : Except JsonError JsonStringifier} {P : JsonStringifier → Prop}
    (h : Returns x P fun error => ¬error.IsCyclic) :
    Returns (JsonEncoder.unsupported object x) P fun error => ¬error.IsCyclic := by
  unfold JsonEncoder.unsupported
  split
  · exact h
  · exact fun h => h
  · exact h

/-- **Without a cycle there is no error about one.** -/
theorem writeObject_returns (fuel : ℕ) : NoCyclicError e (e.writeObject fuel) := by
  induction fuel with
  | zero =>
    intro object w ha hw h
    exact h
  | succ fuel ih =>
    intro object w ha hw
    refine (writeJsonValue_returns ih ha hw).bind ?_
    rintro ⟨_, _⟩ ⟨hseen, hu⟩
    dsimp only at hseen hu ⊢
    split_ifs with hwr
    · exact hseen
    have hu := hu (by simpa using hwr)
    rw [checkCycle_ok ha (by rw [hseen]; exact hw)]
    refine unsupported_returns ?_
    cases hc : e.toEncodable object with
    | none => exact fun h => h
    | some _ =>
      have he := JsonEncoder.Edge.custom hu hc
      refine (writeJsonValue_returns ih (ha.edge he) ?_).bind ?_
      · exact fun s hs => seen_edge (by rw [hseen]; exact hw) he hs
      · rintro ⟨w'', _⟩ ⟨hseen'', -⟩
        split_ifs
        · show w''.seen.dropLast = w.seen
          rw [hseen'', dropLast_concat, hseen]
        · exact fun h => h

end Cycles

end DartSdk.Convert
