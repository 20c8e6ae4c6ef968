import DartSdk.Io.HttpOutgoing

/-!
# Chunked bodies that are written and read

The parser in its chunk-size state reads what `_HttpOutgoing` writes.

* `roundTrip`: **the blocks that are written are the body that is read, in any buffering, and the
  message ends with the last byte**.
-/

namespace DartSdk.Io.HttpParser

open List

variable {Uri : Type} {core : Core Uri} {p q : Parser}

section Connections

/-- A parser on a connection that is going to deliver the buffers. -/
def resumeWith (p : Parser) (paused bodyPaused : Bool) (buffers : List (List UInt8)) :
    Connection Uri where
  parser := p
  paused := paused
  bodyPaused := bodyPaused
  buffer := none
  pending := buffers
  isDone := false
  trace := []

theorem observe_of_finished {paused bodyPaused : Bool} {buffers : List (List UInt8)}
    {c : Connection Uri} (hr : Run core (resumeWith p paused bodyPaused buffers) c)
    (hf : c.Finished) : observe c.trace = meaning core p buffers.flatten :=
  (conserves core).observe_of_finished hr.forget hf

end Connections

end DartSdk.Io.HttpParser

namespace DartSdk.Io.HttpOutgoing

open HttpParser

variable {Uri : Type}

/-- **The blocks that are written are the body that is read.**  The bytes after those that were in the
buffer already are the body.  In whatever buffers they come, followed by anything, and whoever pauses,
the parser reports the blocks as the body and starts the next message after the last of them; if the
connection ends before the last of them, the body is not complete. -/
theorem roundTrip (core : Core Uri) (o : Outgoing) (hready : Ready o)
    (hpending : o.pendingChunkedFooter = 0) (blocks : List (List UInt8)) (p : Parser)
    (hstate : p.state = .chunkSize) (hremaining : p.remainingContent = 0)
    (hchunked : p.chunked = true) (hincoming : p.incoming = true) :
    ∃ out body, emit o blocks = some out ∧ out.flatten = buffered o ++ body ∧
      (∀ paused bodyPaused buffers rest, buffers.flatten = body ++ rest →
        ∃ p', Fresh p.requestParser p' ∧ ∀ c : Connection Uri,
          Run core (resumeWith p paused bodyPaused buffers) c →
            (∃ d, Run core c d ∧ d.Finished) ∧
            (c.Finished → observe c.trace =
              dataEvents blocks.flatten ++ .bodyDone :: meaning core p' rest)) ∧
      ∀ paused bodyPaused buffers, buffers.flatten <+: body → buffers.flatten ≠ body →
        ∀ c : Connection Uri, Run core (resumeWith p paused bodyPaused buffers) c → c.Finished →
          ∃ d, d <+: blocks.flatten ∧ observe c.trace = dataEvents d ++ closedInBody := by
  obtain ⟨out, he, hb⟩ := exists_emit hready blocks
  have hft : footer o = [] := by simp [footer, hpending]
  have hi : Inside p := ⟨hincoming, hchunked, by simp [hstate]⟩
  obtain ⟨hr, hcut⟩ : _ ∧ Cut core p (bodyOf blocks).bytes (bodyOf blocks).data :=
    meaning_chunkedBody hi hstate hremaining (bodyOf blocks)
  refine ⟨out, (bodyOf blocks).bytes, he, by rw [hb, hft]; rfl, ?_, ?_⟩
  · intro paused bodyPaused buffers rest hs
    obtain ⟨p', hfr, hm⟩ := hr rest
    refine ⟨p', hfr, fun c hrn => ⟨exists_finished c, fun hf => ?_⟩⟩
    rw [observe_of_finished hrn hf, hs, hm, data_bodyOf]
  · intro paused bodyPaused buffers hp hne c hrn hf
    rw [observe_of_finished hrn hf, ← data_bodyOf]
    exact hcut _ hp hne

theorem roundTrip_hello :
    ∃ out body, emit ⟨true, some [], 0⟩ [text "hel", text "lo"] = some out ∧ out.flatten = body ∧
      ∃ p', Fresh false p' ∧ ∀ c : Connection Text,
        Run ⟨fun _ => none, some⟩ (resumeWith
              { new false false with
                state := .chunkSize, remainingContent := 0, chunked := true, incoming := true }
              false false [body]) c →
          c.Finished → observe c.trace =
            dataEvents (text "hello") ++ .bodyDone :: meaning ⟨fun _ => none, some⟩ p' [] := by
  obtain ⟨out, body, he, hb, hr, -⟩ := roundTrip (⟨fun _ => none, some⟩ : Core Text)
    ⟨true, some [], 0⟩ ⟨by simp, .inl rfl⟩ rfl [text "hel", text "lo"]
    { new false false with
      state := .chunkSize, remainingContent := 0, chunked := true, incoming := true } rfl rfl rfl rfl
  obtain ⟨p', hf, hrn⟩ := hr false false [body] [] (by simp)
  exact ⟨out, body, he, hb, p', hf, fun c hc => (hrn c hc).2⟩

end DartSdk.Io.HttpOutgoing
