import Lox.Proofs.Relabelling.Sessions

/-!
# Rejected sources

A source that fails its checks prints nothing, and the other sources of its session are seen to run
as if it had never been there, although it has used up identities.
-/

namespace Lox

open Machine (State Config Outcome)

/-- What is seen of the run of a source. A run that has not ended has no status yet. -/
structure Observation where
  status : Option Status
  output : List UInt8
  diagnostics : List Diagnostic

namespace Session

/-- The state after this many steps of the run of a source, or at its end if it ends before. -/
def stateAfter (s : Session) (steps : Nat) (source : String) : State :=
  match s.check source with
  | (none, s) => s.σ
  | (some program, s) =>
      match (Config.ofProgram program s.σ).advance steps with
      | .inl c => c.state
      | .inr outcome => outcome.σ

/-- What is seen of this many steps of the run of a source. -/
def observe (s : Session) (steps : Nat) (source : String) : Observation where
  status := (s.run steps source).map Prod.fst
  output := (s.stateAfter steps source).sink.since s.σ.sink.written.size
  diagnostics :=
    match s.run steps source with
    | none => []
    | some (_, s') => s'.diagnostics.drop s.diagnostics.length

/-- What is seen of sources that are run one after the other, each for this many steps; none is run
after one that has not ended. -/
def observations (steps : Nat) : Session → List String → List Observation
  | _, [] => []
  | s, source :: sources =>
      s.observe steps source ::
        match s.run steps source with
        | none => []
        | some (_, s') => observations steps s' sources

variable {n k : Nat} {before before' : List Diagnostic} {s s' t : Session} {source : String}
  {steps : Nat}

theorem Shifted.sink_eq (h : Shifted n k before before' s t) : t.σ.sink = s.σ.sink := by
  rw [h.state]
  rfl

theorem Shifted.sink_stateAfter (h : Shifted n k before before' s t) (steps : Nat)
    (source : String) : (t.stateAfter steps source).sink = (s.stateAfter steps source).sink := by
  obtain ⟨hcheck, hchecked⟩ := h.check source
  unfold stateAfter
  generalize s.check source = r at hcheck hchecked ⊢
  generalize t.check source = r' at hcheck hchecked ⊢
  obtain ⟨program?, s₁⟩ := r
  obtain ⟨program?', t₁⟩ := r'
  obtain rfl : program?' = _ := hcheck
  cases program? with
  | none => exact hchecked.sink_eq
  | some program =>
      simp only [Option.map_some, hchecked.advance program steps]
      cases (Config.ofProgram program s₁.σ).advance steps with
      | inl c => exact c.sink_relabel
      | inr outcome => rfl

theorem Shifted.observe (h : Shifted n k before before' s t) (steps : Nat) (source : String) :
    t.observe steps source = s.observe steps source := by
  have hrun := h.rebase.run steps source
  unfold Session.observe
  rw [h.sink_stateAfter, h.sink_eq]
  generalize s.run steps source = r at hrun ⊢
  generalize t.run steps source = r' at hrun ⊢
  cases hrun with
  | none => rfl
  | @some r r' hends =>
      obtain ⟨hstatus, hshifted⟩ := hends
      obtain ⟨ds, hs, ht⟩ := hshifted.diagnostics
      simp [hstatus, hs, ht]

/-- Whatever is run in both sessions is seen alike. -/
theorem Shifted.observations (h : Shifted n k before before' s t) (steps : Nat)
    (sources : List String) :
    Session.observations steps t sources = Session.observations steps s sources := by
  induction sources generalizing s t before before' with
  | nil => rfl
  | cons source sources ih =>
      have hrun := h.run steps source
      rw [Session.observations, Session.observations, h.observe]
      generalize s.run steps source = r at hrun ⊢
      generalize t.run steps source = r' at hrun ⊢
      cases hrun with
      | none => rfl
      | some hends => exact congrArg _ (ih hends.2)

theorem finish_status_ne (s : Session) (outcome : Outcome .flow) :
    (s.finish outcome).1 ≠ .staticError := by
  obtain ⟨result, σ⟩ := outcome
  cases result <;> simp [finish]

/-- A run is rejected only by the checks. -/
theorem check_of_rejected (h : (s.observe steps source).status = some .staticError) :
    s.check source = (none, (s.check source).2) := by
  unfold observe run at h
  cases hcheck : s.check source with
  | mk program? s' =>
      rw [hcheck] at h
      cases program? with
      | none => rfl
      | some program =>
          simp only [interpret, Option.map_map, Option.map_eq_some_iff, Function.comp_apply] at h
          obtain ⟨outcome, -, hstatus⟩ := h
          exact absurd hstatus (finish_status_ne s' outcome)

theorem since_size (sink : Sink) : sink.since sink.written.size = [] := by
  simp [Sink.since]

/-- What a rejected source leaves behind is the session with other identities to come. -/
theorem observations_of_check (hs : s.Reachable) (hcheck : s.check source = (none, s'))
    (steps : Nat) (sources : List String) :
    (s.observe steps source).output = []
      ∧ s.observations steps (source :: sources)
        = s.observe steps source :: s.observations steps sources := by
  obtain ⟨hle, hσ⟩ := check_eq_none hcheck
  constructor
  · simp only [observe, stateAfter, hcheck, hσ, since_size]
  · have hused := Shifted.of_used hs.sound hs.settled hle hσ
    simp only [observations, run, hcheck, hused.observations]

theorem rejected_of_reachable (hs : s.Reachable) {sources : List String} {i : Nat}
    {o : Observation} (h : (s.observations steps sources)[i]? = some o)
    (hrejected : o.status = some .staticError) :
    o.output = [] ∧ s.observations steps (sources.eraseIdx i)
      = (s.observations steps sources).eraseIdx i := by
  induction i generalizing s sources with
  | zero =>
      cases sources with
      | nil => simp [observations] at h
      | cons source sources =>
          obtain rfl : s.observe steps source = o := by simpa [observations] using h
          obtain ⟨houtput, hrest⟩ :=
            observations_of_check hs (check_of_rejected hrejected) steps sources
          refine ⟨houtput, ?_⟩
          rw [hrest]
          rfl
  | succ i ih =>
      cases sources with
      | nil => simp [observations] at h
      | cons source sources =>
          simp only [observations, List.eraseIdx_cons_succ, List.getElem?_cons_succ] at h ⊢
          cases hrun : s.run steps source with
          | none => simp [hrun] at h
          | some r =>
              obtain ⟨status, s'⟩ := r
              rw [hrun] at h
              obtain ⟨houtput, hrest⟩ := ih (hs.run hrun) h
              exact ⟨houtput, congrArg _ hrest⟩

/-- Among sources that are run one after the other in a new session, one that is rejected prints
nothing. Without it, the others print the same, end the same way and have the same diagnostics. -/
theorem rejected_source_has_no_effect (sink : Sink) (time : Nat → Float) (steps : Nat)
    (sources : List String) (i : Nat) (o : Observation)
    (h : ((initial sink time).observations steps sources)[i]? = some o)
    (hrejected : o.status = some .staticError) :
    o.output = [] ∧ (initial sink time).observations steps (sources.eraseIdx i)
      = ((initial sink time).observations steps sources).eraseIdx i :=
  rejected_of_reachable (.initial sink time) h hrejected

/-- A program that returns at the top level is rejected after its variable has got an identity, and
a block that refers to the same variable runs as it would have before. -/
theorem rejected_return_between_runs :
    let s₀ := initial .unlimited fun _ => 0
    let sources := ["var a = true;", "return a;", "{ var b = a; print b; }"]
    ∃ o, (s₀.observations 40 sources)[1]? = some o ∧ o.status = some .staticError ∧ o.output = []
      ∧ s₀.nextId < (s₀.check "return a;").2.nextId
      ∧ s₀.observations 40 (sources.eraseIdx 1) = (s₀.observations 40 sources).eraseIdx 1
      ∧ (s₀.observations 40 (sources.eraseIdx 1)).map (fun o => (o.status, o.output))
        = [(some .ok, []), (some .ok, "true\n".toUTF8.toList)] := by
  intro s₀ sources
  have hstatus : ((s₀.observations 40 sources)[1]?).bind Observation.status
      = some .staticError := by
    decide +kernel
  rw [Option.bind_eq_some_iff] at hstatus
  obtain ⟨o, ho, hrejected⟩ := hstatus
  obtain ⟨houtput, hrest⟩ :=
    rejected_source_has_no_effect .unlimited (fun _ => 0) 40 sources 1 o ho hrejected
  refine ⟨o, ho, hrejected, houtput, ?_, hrest, ?_⟩
  · decide +kernel
  · decide +kernel

end Session

end Lox
