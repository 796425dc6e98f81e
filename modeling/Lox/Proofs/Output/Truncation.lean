import Lox.Proofs.Machine.Contexts
import Lox.Proofs.Output.Sinks

/-!
# Runs on a sink that fills up

A run on a sink that takes a limited number of bytes does what it does on an unlimited one, up to the
first line that does not fit. From there on it only leaves its pending tasks, so that the sink holds
the first bytes of the whole output.
-/

namespace Lox

namespace Sink

variable {s s' s'' : Sink} {n : Nat}

/-- The sink that takes at most `n` bytes and holds the first ones of the same output. -/
def upTo (s : Sink) (n : Nat) : Sink :=
  ⟨s.written.extract 0 n, some n, s.refusesFlush⟩

theorem written_write (h : s.limit = none) (text : String) :
    (s.write text).written = s.written ++ text.toUTF8 := by
  simp only [write, room, h, ByteArray.extract_zero_size]

theorem extract_zero_congr {bytes : ByteArray} {i j : Nat}
    (h : min i bytes.size = min j bytes.size) : bytes.extract 0 i = bytes.extract 0 j := by
  refine ByteArray.ext ?_
  rw [ByteArray.data_extract, ByteArray.data_extract, Array.extract_eq_extract_right]
  simpa using h

/-- Of a text that is written, the limited sink holds the first bytes, as of everything before. -/
theorem write_upTo (h : s.limit = none) (n : Nat) (text : String) :
    (s.upTo n).write text = (s.write text).upTo n := by
  have hroom : text.toUTF8.extract 0 ((s.upTo n).room text.toUTF8.size)
      = text.toUTF8.extract 0 (n - s.written.size) := by
    apply extract_zero_congr
    simp only [room, upTo, ByteArray.size_extract]
    omega
  have hwritten : (s.upTo n).written ++ text.toUTF8.extract 0 ((s.upTo n).room text.toUTF8.size)
      = (s.write text).written.extract 0 n := by
    rw [hroom, written_write h, ByteArray.extract_append, Nat.zero_sub]
    rfl
  unfold write
  dsimp only
  rw [hwritten]
  rfl

theorem fits_of_limit_eq_none (h : s.limit = none) (size : Nat) : s.fits size = true := by
  simp [fits, room, h]

/-- A text fits if the limited sink then still holds the whole output. -/
theorem fits_upTo (h : s.limit = none) (hsize : s.written.size ≤ n) (text : String) :
    (s.upTo n).fits text.utf8ByteSize = true ↔ (s.write text).written.size ≤ n := by
  have htext : text.toUTF8.size = text.utf8ByteSize := rfl
  rw [written_write h, ByteArray.size_append, htext]
  simp only [fits, room, upTo, ByteArray.size_extract, beq_iff_eq]
  omega

/-- The second sink is the first one after more output. Both are unlimited. -/
structure Grows (s s' : Sink) : Prop where
  limit : s'.limit = none
  refusesFlush : s'.refusesFlush = s.refusesFlush
  written : ∃ more, s'.written = s.written ++ more

theorem Grows.refl (h : s.limit = none) : Grows s s :=
  ⟨h, rfl, .empty, by simp⟩

theorem Grows.trans (h : Grows s s') (h' : Grows s' s'') : Grows s s'' := by
  obtain ⟨more, hmore⟩ := h.written
  obtain ⟨more', hmore'⟩ := h'.written
  refine ⟨h'.limit, h'.refusesFlush.trans h.refusesFlush, more ++ more', ?_⟩
  rw [hmore', hmore, ByteArray.append_assoc]

theorem grows_write (h : s.limit = none) (text : String) : Grows s (s.write text) :=
  ⟨h, rfl, _, written_write h text⟩

/-- The first bytes are no others after more output. -/
theorem Grows.upTo_eq (h : Grows s s') (hfull : n ≤ s.written.size) : s'.upTo n = s.upTo n := by
  obtain ⟨more, hmore⟩ := h.written
  have hfirst : s'.written.extract 0 n = s.written.extract 0 n := by
    have hnone : n - s.written.size = 0 := Nat.sub_eq_zero_of_le hfull
    rw [hmore, ByteArray.extract_append, Nat.zero_sub, hnone, ByteArray.extract_same,
      ByteArray.append_empty]
  rw [upTo, upTo, hfirst, h.refusesFlush]

theorem Grows.size_le (h : Grows s s') : s.written.size ≤ s'.written.size := by
  obtain ⟨more, hmore⟩ := h.written
  rw [hmore, ByteArray.size_append]
  exact Nat.le_add_right _ _

end Sink

namespace Machine

variable {final : Answer}

namespace Config

variable {c c' : Config final} {o : Outcome final} {n : Nat}

theorem grows_step (hlimit : c.state.sink.limit = none) (h : c.step = .inl c') :
    c.state.sink.Grows c'.state.sink := by
  cases hprinting : c.printing? with
  | none =>
      rw [sink_of_step hprinting h]
      exact .refl hlimit
  | some printed =>
      have hsink : c'.state.sink = c.state.sink.write (printed.1 ++ "\n") := by
        rw [step_printing hprinting, Sum.inl.injEq] at h
        rw [← h]
        split <;> rfl
      rw [hsink]
      exact Sink.grows_write hlimit _

/-- The output of a run begins with what is written at any moment of it. -/
theorem grows_end (hlimit : c.state.sink.limit = none) {steps : Nat}
    (h : c.advance steps = .inr o) : c.state.sink.Grows o.σ.sink := by
  obtain ⟨d, last, -, hlast, hend⟩ := exists_end h
  rw [(sink_of_step_end hend).2]
  refine holds_of_advance (P := fun _ d => c.state.sink.Grows d.state.sink) (.refl hlimit) ?_ hlast
  exact fun _ hgrows hstep => hgrows.trans (grows_step hgrows.limit hstep)

/-- A failure leaves all pending tasks and prints nothing more. -/
theorem exists_end_of_fail (failure : Failure) {a : Answer} (stack : Stack final a) (σ : State) :
    ∃ d o', (fail failure stack σ : Config final).advance d = .inr o'
      ∧ o'.result = .error failure ∧ o'.σ.sink = σ.sink := by
  induction stack generalizing σ with
  | done => exact ⟨1, ⟨.error failure, σ⟩, rfl, rfl, rfl⟩
  | push task below ih =>
      obtain ⟨d, o', hrun, hresult, hsink⟩ := ih (task.leave σ)
      refine ⟨d + 1, o', hrun, hresult, hsink.trans ?_⟩
      cases task <;> rfl

/-- The end of a run on a sink that takes at most `n` bytes, beside its end `o` on an unlimited one:
the first bytes of the output are there, and the result is the same if that is all of it. -/
structure Truncates (n : Nat) (o o' : Outcome final) : Prop where
  sink : o'.σ.sink = o.σ.sink.upTo n
  fits : o.σ.sink.written.size ≤ n → o'.result = o.result
  full : n < o.σ.sink.written.size → o'.result = .error (.output .sinkFull)

/-- The moment of a run on a sink that takes at most `n` bytes. -/
def upTo (c : Config final) (n : Nat) : Config final :=
  c.withSink (c.state.sink.upTo n)

theorem step_upTo (hsilent : c.printing? = none) :
    (c.upTo n).step = c.step.map (withSink · (c.state.sink.upTo n))
      (Outcome.withSink · (c.state.sink.upTo n)) :=
  step_withSink hsilent rfl

/-- As long as all output fits, a step is the same on the limited sink. The first line that does not
fit makes the run fail there. -/
theorem step_upTo_printing (hlimit : c.state.sink.limit = none)
    (hsize : c.state.sink.written.size ≤ n) {line : String} {stack : Stack final .flow}
    (hprinting : c.printing? = some (line, stack)) (h : c.step = .inl c') :
    (c.upTo n).step = .inl (if c'.state.sink.written.size ≤ n then c'.upTo n
      else .fail (.output .sinkFull) stack (c'.upTo n).state) := by
  have hsame : (c.upTo n).printing? = some (line, stack) :=
    (printing?_withSink c _).trans hprinting
  have hfits : c.state.canPrint line = true := Sink.fits_of_limit_eq_none hlimit _
  rw [step_printing hprinting, hfits, if_pos rfl, Sum.inl.injEq] at h
  subst h
  have hwrite := Sink.write_upTo hlimit n (line ++ "\n")
  have hstate : (c.upTo n).state.print line
      = (c.state.print line).withSink ((c.state.print line).sink.upTo n) := by
    rw [upTo, state_withSink]
    change (c.state.withSink _).withSink _ = _
    rw [State.sink_withSink, hwrite]
    rfl
  have hcan : (c.upTo n).state.canPrint line = true
      ↔ (c.state.print line).sink.written.size ≤ n := by
    rw [upTo, state_withSink]
    exact Sink.fits_upTo hlimit hsize (line ++ "\n")
  rw [step_printing hsame, hstate]
  simp only [hcan]
  rfl

/-- A run that ends on an unlimited sink also ends on a limited one. -/
theorem exists_truncated_end (hlimit : c.state.sink.limit = none)
    (hsize : c.state.sink.written.size ≤ n) {steps : Nat} (h : c.advance steps = .inr o) :
    ∃ d o', (c.upTo n).advance d = .inr o' ∧ Truncates n o o' := by
  -- Up to the first line that does not fit, both runs take the same steps.
  induction steps generalizing c with
  | zero => cases h
  | succ steps ih =>
      rw [advance] at h
      cases hstep : c.step with
      | inr o₁ =>
          rw [hstep] at h
          cases h
          obtain ⟨hsilent, hsink⟩ := sink_of_step_end hstep
          have hend := step_upTo (n := n) hsilent
          rw [hstep, Sum.map_inr] at hend
          refine ⟨1, o.withSink (c.state.sink.upTo n), ?_, ?_, fun _ => rfl, fun hfull => ?_⟩
          · rw [advance, hend]
          · rw [hsink]
            rfl
          · rw [hsink] at hfull
            omega
      | inl c₁ =>
          rw [hstep] at h
          have hgrows := grows_step hlimit hstep
          cases hprinting : c.printing? with
          | none =>
              have hsink := sink_of_step hprinting hstep
              have hnext := step_upTo (n := n) hprinting
              rw [hstep, Sum.map_inl, ← hsink] at hnext
              obtain ⟨d, o', hrun, htruncates⟩ := ih hgrows.limit (hsink ▸ hsize) h
              refine ⟨d + 1, o', ?_, htruncates⟩
              rw [advance, hnext]
              exact hrun
          | some printed =>
              have hnext := step_upTo_printing hlimit hsize hprinting hstep
              by_cases hfits : c₁.state.sink.written.size ≤ n
              · rw [if_pos hfits] at hnext
                obtain ⟨d, o', hrun, htruncates⟩ := ih hgrows.limit hfits h
                refine ⟨d + 1, o', ?_, htruncates⟩
                rw [advance, hnext]
                exact hrun
              -- The limited run fails at this line. What the other one writes later has no room.
              · rw [if_neg hfits] at hnext
                obtain ⟨d, o', hrun, hresult, hsink⟩ :=
                  exists_end_of_fail (.output .sinkFull) printed.2 (c₁.upTo n).state
                have hlater := grows_end hgrows.limit h
                have hle := hlater.size_le
                refine ⟨d + 1, o', ?_, ?_, fun _ => by omega, fun _ => hresult⟩
                · rw [advance, hnext]
                  exact hrun
                · rw [hsink, hlater.upTo_eq (by omega), upTo, state_withSink,
                    State.sink_withSink]

end Config

end Machine

end Lox
