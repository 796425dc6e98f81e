import Lox.Proofs.Output.Truncation
import Lox.Proofs.Session.Invariant

/-!
# Output that does not fit

A source that runs to its end prints the first bytes of its output on a sink with limited room. If
that is all of it, then the run ends as it does with unlimited room, and otherwise it ends with the
failure of the sink alone.
-/

namespace Lox

open Machine (Config Outcome)

/-- An empty sink with room for this many bytes. -/
def Sink.ofRoom (n : Nat) : Sink :=
  ⟨.empty, some n, false⟩

namespace Session

variable {s : Session} {source : String} {time : Nat → Float} {status : Status} {steps n : Nat}

def withSink (s : Session) (k : Sink) : Session :=
  { s with σ := s.σ.withSink k }

/-- The checks of a source do not depend on the sink. -/
theorem check_withSink (s : Session) (k : Sink) (source : String) :
    (s.withSink k).check source = ((s.check source).1, (s.check source).2.withSink k) := by
  have hparse : (s.withSink k).parse source
      = ((s.parse source).1, (s.parse source).2.withSink k) := rfl
  unfold check
  rw [hparse]
  generalize s.parse source = parsed
  obtain ⟨⟨program, failed⟩, t⟩ := parsed
  cases failed with
  | true => rfl
  | false =>
      dsimp only
      unfold resolve
      cases Resolution.resolve program <;> rfl

theorem initial_ofRoom (n : Nat) (time : Nat → Float) :
    initial (.ofRoom n) time = (initial .unlimited time).withSink (Sink.unlimited.upTo n) := by
  have hempty : ByteArray.empty.extract 0 n = .empty := by simp
  unfold Sink.upTo Sink.unlimited
  rw [hempty]
  rfl

/-- A checked session still has the sink that it had. -/
theorem sink_of_check {program? : Option (List Stmt)} {t : Session}
    (h : s.check source = (program?, t)) : t.σ.sink = s.σ.sink := by
  have hsame := check_withSink s s.σ.sink source
  rw [show s.withSink s.σ.sink = s from rfl, h, Prod.mk.injEq] at hsame
  exact congrArg (fun t => t.σ.sink) hsame.2

/-- A source that passes its checks leaves no diagnostics. -/
theorem diagnostics_of_check {program : List Stmt} {t : Session}
    (h : s.check source = (some program, t)) : t.diagnostics = s.diagnostics := by
  unfold check parse at h
  dsimp only at h
  split at h
  · cases h
  · next parsed u hparse =>
    obtain ⟨⟨-, hclean⟩, rfl⟩ : (_ ∧ _) ∧ _ := by simpa using hparse
    unfold resolve at h
    split at h
    · cases h
    · next hresolve =>
      cases hres : Resolution.resolve parsed with
      | ok found =>
          rw [hres] at hresolve
          cases hresolve
          cases h
          simp [report, hclean]
      | error errors =>
          rw [hres] at hresolve
          cases hresolve

/-- The end of a run whose output is cut to its first bytes. -/
theorem finish_truncates {t : Session} {k : Sink} {o o' : Outcome .flow}
    (h : Config.Truncates n o o') :
    ((t.withSink k).finish o').2.σ.sink = (t.finish o).2.σ.sink.upTo n
      ∧ ((t.finish o).2.σ.sink.written.size ≤ n →
        ((t.withSink k).finish o').1 = (t.finish o).1
          ∧ ((t.withSink k).finish o').2.diagnostics = (t.finish o).2.diagnostics)
      ∧ (n < (t.finish o).2.σ.sink.written.size →
        ((t.withSink k).finish o').1 = .runtimeError
          ∧ ((t.withSink k).finish o').2.diagnostics
            = t.diagnostics ++ [.failure (.output .sinkFull)]) := by
  have hσ (t : Session) (o : Outcome .flow) : (t.finish o).2.σ = o.σ := by
    unfold finish
    split <;> rfl
  rw [hσ, hσ]
  refine ⟨h.sink, fun hsize => ?_, fun hsize => ?_⟩
  · have hresult := h.fits hsize
    unfold finish
    rw [hresult]
    cases o.result <;> exact ⟨rfl, rfl⟩
  · have hresult := h.full hsize
    unfold finish
    rw [hresult]
    exact ⟨rfl, rfl⟩

/-- A source whose run in a new session ends with unlimited room ends also with room for `n` bytes.
Its output is then cut to the first `n` bytes. If that is all of it, the status and the diagnostics
are the same, and otherwise the only diagnostic is the failure of the sink. -/
theorem output_cut_to_room (h : (initial .unlimited time).run steps source = some (status, s))
    (n : Nat) :
    ∃ status' s', (∃ d, ∀ m, (initial (.ofRoom n) time).run (d + m) source = some (status', s'))
      ∧ s'.σ.sink.written = s.σ.sink.written.extract 0 (min n s.σ.sink.written.size)
      ∧ (s.σ.sink.written.size ≤ n → status' = status ∧ s'.diagnostics = s.diagnostics)
      ∧ (n < s.σ.sink.written.size → status' = .runtimeError
        ∧ ∃ d, s'.diagnostics = [d] ∧ d.isRuntime ∧ d.message = "sink full" ∧ d.line = 0) := by
  have hcut (w : ByteArray) : w.extract 0 n = w.extract 0 (min n w.size) :=
    Sink.extract_zero_congr (by omega)
  unfold run at h
  simp only [initial_ofRoom, run, check_withSink]
  cases hcheck : (initial .unlimited time).check source with
  | mk program? t =>
      have hsink : t.σ.sink = .unlimited := sink_of_check hcheck
      rw [hcheck] at h
      cases program? with
      | none =>
          obtain ⟨rfl, rfl⟩ : Status.staticError = status ∧ t = s := by simpa using h
          refine ⟨.staticError, t.withSink (Sink.unlimited.upTo n), ⟨0, fun _ => rfl⟩, ?_,
            fun _ => ⟨rfl, rfl⟩, fun hfull => ?_⟩
          · rw [hsink, ← hcut]
            rfl
          · rw [hsink] at hfull
            exact absurd hfull (Nat.not_lt_zero n)
      | some program =>
          obtain ⟨o, hrun, hfinish, -⟩ := exists_outcome h
          have hlimited : Config.ofProgram program (t.withSink (Sink.unlimited.upTo n)).σ
              = (Config.ofProgram program t.σ).upTo n := by
            have hflush : (Sink.unlimited.upTo n).refusesFlush = t.σ.sink.refusesFlush := by
              rw [hsink]
              rfl
            rw [Config.upTo, Config.sink_ofProgram, hsink]
            exact (Config.withSink_ofProgram hflush program).symm
          have hempty : (Config.ofProgram program t.σ).state.sink = .unlimited :=
            (Config.sink_ofProgram program t.σ).trans hsink
          obtain ⟨d, o', hrun', htruncates⟩ := Config.exists_truncated_end (n := n)
            (congrArg Sink.limit hempty) (by rw [hempty]; exact Nat.zero_le n) hrun
          obtain ⟨hwritten, hfits, hfull⟩ :=
            finish_truncates (t := t) (k := Sink.unlimited.upTo n) htruncates
          rw [hfinish] at hwritten hfits hfull
          have hclean : t.diagnostics = [] := diagnostics_of_check hcheck
          refine ⟨_, _, ⟨d, fun m => ?_⟩, ?_, hfits, fun hsize => ?_⟩
          · dsimp only
            rw [interpret, hlimited, Config.run, Config.advance_of_end hrun' m]
            rfl
          · rw [hwritten, ← hcut]
            rfl
          · obtain ⟨hstatus, hdiagnostics⟩ := hfull hsize
            rw [hclean, List.nil_append] at hdiagnostics
            exact ⟨hstatus, _, hdiagnostics, rfl, rfl, rfl⟩

/-- An initializer prints inside a block, and the source fails after that. With room for one byte
the run already fails at the first line. -/
theorem output_cut_inside_initializer :
    let source := "class A { init() { { print true; } print nil; } } A(); b;"
    ∃ s s', (initial .unlimited fun _ => 0).run 60 source = some (.runtimeError, s)
      ∧ s.σ.sink.written = "true\nnil\n".toUTF8
      ∧ (∃ d, ∀ m, (initial (.ofRoom 1) fun _ => 0).run (d + m) source = some (.runtimeError, s'))
      ∧ s'.σ.sink.written = "t".toUTF8 ∧ s'.diagnostics.map Diagnostic.message = ["sink full"] := by
  intro source
  have hrun : ((initial .unlimited fun _ => 0).run 60 source).map
      (fun r => (r.1, r.2.σ.sink.written.data)) = some (.runtimeError, "true\nnil\n".toUTF8.data) := by
    decide +kernel
  obtain ⟨⟨status, s⟩, hfirst, hseen⟩ := Option.map_eq_some_iff.mp hrun
  obtain ⟨rfl, hdata⟩ := Prod.mk.inj hseen
  have hwritten : s.σ.sink.written = "true\nnil\n".toUTF8 := ByteArray.ext hdata
  obtain ⟨status', s', hends, hcut, -, hfull⟩ := output_cut_to_room hfirst 1
  rw [hwritten] at hcut hfull
  obtain ⟨rfl, d, hdiagnostics, -, hmessage, -⟩ := hfull (by decide)
  refine ⟨s, s', hfirst, hwritten, hends, hcut.trans ?_, ?_⟩
  · decide +kernel
  · rw [hdiagnostics, List.map_singleton, hmessage]

end Session

end Lox
