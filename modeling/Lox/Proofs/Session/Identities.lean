import Lox.Proofs.Relabelling.Runs
import Lox.Proofs.Session.Invariant

/-!
# Identities of nodes in a session

A host parses, resolves and interprets programs in a session, in any order and with any result, or
runs whole sources. Every parse takes its identities where the one before has stopped, so that no
two nodes of the session ever share one. What is recorded for one program therefore never touches
the nodes of another.
-/

namespace Lox

open Machine (State Config Distances)
open Resolution (ofStmts)

/-- What is recorded for other nodes does not change the entry of a node. -/
theorem Machine.Distances.getElem?_add_of_notMem {distances : Distances}
    {found : List (NodeId × Nat)} {id : NodeId} (h : id ∉ found.map Prod.fst) :
    (distances.add found)[id]? = distances[id]? := by
  induction found generalizing distances with
  | nil => rfl
  | cons p found ih =>
      rw [List.map_cons, List.mem_cons, not_or] at h
      have hstep : (distances.add (p :: found))[id]? = (distances.insert p.1 p.2)[id]? := ih h.2
      rw [hstep, Std.TreeMap.getElem?_insert]
      simp [Ne.symm h.1]

namespace Session

/-- A call that a host makes on a session. -/
inductive Call
  | parse (source : String)
  | resolve (program : List Stmt)
  | interpret (steps : Nat) (program : List Stmt)
  | run (steps : Nat) (source : String)

/-- The session after a call. There is none as long as the call has not returned. -/
def after? (s : Session) : Call → Option Session
  | .parse source => some (s.parse source).2
  | .resolve program => some (s.resolve program).2
  | .interpret steps program => (s.interpret steps program).map Prod.snd
  | .run steps source => (s.run steps source).map Prod.snd

/-- The programs that are parsed during a call. What parses of a source with errors counts too. -/
def programsOf (s : Session) : Call → List (List Stmt)
  | .parse source => [(s.parse source).1.1]
  | .run _ source => [(s.parse source).1.1]
  | _ => []

/-- The session is reached from a new one by calls in which these programs were parsed. -/
inductive HasParsed : Session → List (List Stmt) → Prop
  | initial (sink : Sink) (time : Nat → Float) : HasParsed (.initial sink time) []
  | call {s s' : Session} {programs : List (List Stmt)} {c : Call} (h : s.HasParsed programs)
      (hc : s.after? c = some s') : HasParsed s' (programs ++ s.programsOf c)

variable {s s' : Session} {source : String} {program : List Stmt} {status : Status} {steps : Nat}
  {id : NodeId}

theorem nextId_resolve (s : Session) (program : List Stmt) :
    (s.resolve program).2.nextId = s.nextId := by
  unfold Session.resolve
  split <;> rfl

theorem nextId_interpret (h : s.interpret steps program = some (status, s')) :
    s'.nextId = s.nextId := by
  obtain ⟨-, -, -, -, hid⟩ := exists_outcome h
  exact hid

/-- The checks of a source use up the identities of its parse, whatever they find. -/
theorem nextId_check (s : Session) (source : String) :
    (s.check source).2.nextId = (s.parse source).2.nextId := by
  unfold Session.check
  obtain ⟨⟨program, failed⟩, t⟩ := s.parse source
  cases failed with
  | true => rfl
  | false =>
      have hid := t.nextId_resolve program
      dsimp only
      split
      · next r hr => exact (congrArg (·.2.nextId) hr).symm.trans hid
      · next r hr => exact (congrArg (·.2.nextId) hr).symm.trans hid

theorem nextId_run (h : s.run steps source = some (status, s')) :
    s'.nextId = (s.parse source).2.nextId := by
  have hid := s.nextId_check source
  rcases run_cases h with ⟨hcheck, -⟩ | ⟨program, t, hcheck, hrun⟩
  · rwa [hcheck] at hid
  · rw [nextId_interpret hrun]
    rwa [hcheck] at hid

/-- A call hands out identities from the next one on, and each of them once. -/
theorem distinctWithin_programsOf {c : Call} (h : s.after? c = some s') :
    s.nextId ≤ s'.nextId
      ∧ DistinctWithin s.nextId s'.nextId ((s.programsOf c).flatMap Stmt.listIds) := by
  have hparse (source : String) : (s.parse source).2.σ = s.σ ∧ _ :=
    grown_parse (fun _ _ => trivial) s
  cases c with
  | parse source =>
      obtain ⟨-, hle, hgrown⟩ := hparse source
      cases h
      exact ⟨hle, by simpa [programsOf] using hgrown.ids⟩
  | resolve program =>
      cases h
      exact ⟨(s.nextId_resolve program).ge, .nil⟩
  | interpret steps program =>
      obtain ⟨⟨status, t⟩, hrun, rfl⟩ := Option.map_eq_some_iff.mp h
      exact ⟨(nextId_interpret hrun).ge, .nil⟩
  | run steps source =>
      obtain ⟨-, hle, hgrown⟩ := hparse source
      obtain ⟨⟨status, t⟩, hrun, rfl⟩ := Option.map_eq_some_iff.mp h
      have hid : t.nextId = (s.parse source).2.nextId := nextId_run hrun
      exact ⟨hid ▸ hle, by simpa [programsOf, hid] using hgrown.ids⟩

/-- The identities of all programs that a session has parsed are distinct, and the next one is
above them. -/
theorem HasParsed.distinctWithin {programs : List (List Stmt)} (h : s.HasParsed programs) :
    DistinctWithin 0 s.nextId (programs.flatMap Stmt.listIds) := by
  induction h with
  | initial sink time => exact .nil
  | @call s s' programs c _ hc ih =>
      obtain ⟨hle, hnew⟩ := distinctWithin_programsOf hc
      rw [List.flatMap_append]
      exact ih.append hnew (Nat.zero_le _) hle

/-- To resolve a program changes the entries of its own nodes only. -/
theorem distances_resolve_of_notMem (s : Session) (h : id ∉ Stmt.listIds program) :
    (s.resolve program).2.σ.distances[id]? = s.σ.distances[id]? := by
  unfold Session.resolve Resolution.resolve
  by_cases herrors : (ofStmts .program [] program).errors = []
  · simp only [herrors, List.isEmpty_nil, if_true]
    apply Distances.getElem?_add_of_notMem
    exact fun hid => h ((Resolution.keys_ofStmts .program [] program).subset hid)
  · simp [herrors, report]

theorem distances_interpret (h : s.interpret steps program = some (status, s')) :
    s'.σ.distances = s.σ.distances := by
  obtain ⟨outcome, hadvance, -, hσ, -⟩ := exists_outcome h
  rw [hσ, Config.distances_outcome hadvance, Config.distances_ofProgram]

/-- The checks of a source change no entries but those of its own nodes. -/
theorem distances_check_of_notMem (s : Session) (h : id ∉ Stmt.listIds (s.parse source).1.1) :
    (s.check source).2.σ.distances[id]? = s.σ.distances[id]? := by
  have hparse : (s.parse source).2.σ = s.σ := rfl
  unfold Session.check
  generalize s.parse source = r at h hparse
  obtain ⟨⟨program, failed⟩, t⟩ := r
  cases failed with
  | true => exact congrArg (·.distances[id]?) hparse
  | false =>
      have hresolve := t.distances_resolve_of_notMem h
      rw [show t.σ = s.σ from hparse] at hresolve
      dsimp only
      split
      · next r hr => exact (congrArg (·.2.σ.distances[id]?) hr).symm.trans hresolve
      · next r hr => exact (congrArg (·.2.σ.distances[id]?) hr).symm.trans hresolve

theorem distances_run_of_notMem (h : s.run steps source = some (status, s'))
    (hid : id ∉ Stmt.listIds (s.parse source).1.1) :
    s'.σ.distances[id]? = s.σ.distances[id]? := by
  have hcheck := s.distances_check_of_notMem hid
  rcases run_cases h with ⟨ht, -⟩ | ⟨program, t, ht, hrun⟩
  · rwa [ht] at hcheck
  · rw [distances_interpret hrun]
    rwa [ht] at hcheck

/-- No call but one that resolves some program by itself changes the entry of a node that was
parsed before. -/
theorem distances_after?_of_lt {c : Call} (hc : s.after? c = some s')
    (hresolve : ∀ program, c ≠ .resolve program) (hid : id < s.nextId) :
    s'.σ.distances[id]? = s.σ.distances[id]? := by
  cases c with
  | parse source =>
      cases hc
      rfl
  | resolve program => exact absurd rfl (hresolve program)
  | interpret steps program =>
      obtain ⟨⟨status, t⟩, hrun, rfl⟩ := Option.map_eq_some_iff.mp hc
      exact congrArg (·[id]?) (distances_interpret hrun)
  | run steps source =>
      obtain ⟨⟨status, t⟩, hrun, rfl⟩ := Option.map_eq_some_iff.mp hc
      refine distances_run_of_notMem hrun fun hmem => ?_
      obtain ⟨-, -, hgrown⟩ := grown_parse (fun _ _ => trivial) s
      exact Nat.not_le_of_lt hid (hgrown.ids.bounds id hmem).1

/-- Two programs of a session share no node. -/
theorem HasParsed.notMem_of_ne {programs : List (List Stmt)} (h : s.HasParsed programs) {i j : Nat}
    (hij : i ≠ j) {p q : List Stmt} (hp : programs[i]? = some p) (hq : programs[j]? = some q)
    (hid : id ∈ Stmt.listIds q) : id ∉ Stmt.listIds p := by
  have hdisjoint := (List.nodup_flatMap.mp h.distinctWithin.nodup).2
  obtain ⟨hi, rfl⟩ := List.getElem?_eq_some_iff.mp hp
  obtain ⟨hj, rfl⟩ := List.getElem?_eq_some_iff.mp hq
  rw [List.pairwise_iff_getElem] at hdisjoint
  rcases Nat.lt_or_gt_of_ne hij with hlt | hlt
  · exact fun hmem => hdisjoint i j hi hj hlt hmem hid
  · exact hdisjoint j i hj hi hlt hid

/-- In a session with any history of calls, the identities of the nodes of all programs that were
ever parsed are distinct and below the next one. To record the distances of one of these programs
therefore changes no entry for a node of another one, and no further parse, run or execution changes
an entry for a node of any of them. -/
theorem identities_distinct_and_entries_kept {programs : List (List Stmt)}
    (h : s.HasParsed programs) :
    (programs.flatMap Stmt.listIds).Nodup
      ∧ (∀ program ∈ programs, ∀ id ∈ Stmt.listIds program, id < s.nextId)
      ∧ (∀ (i j : Nat) (p q : List Stmt), i ≠ j → programs[i]? = some p → programs[j]? = some q →
        ∀ id ∈ Stmt.listIds q, (s.resolve p).2.σ.distances[id]? = s.σ.distances[id]?)
      ∧ ∀ c s', s.after? c = some s' → (∀ program, c ≠ .resolve program) →
        ∀ program ∈ programs, ∀ id ∈ Stmt.listIds program,
          s'.σ.distances[id]? = s.σ.distances[id]? := by
  have hids := h.distinctWithin
  have hbelow : ∀ program ∈ programs, ∀ id ∈ Stmt.listIds program, id < s.nextId :=
    fun program hprogram id hid =>
      (hids.bounds id (List.mem_flatMap.mpr ⟨program, hprogram, hid⟩)).2
  refine ⟨hids.nodup, hbelow, fun i j p q hij hp hq id hid => ?_,
    fun c s' hc hresolve program hprogram id hid => ?_⟩
  · exact s.distances_resolve_of_notMem (h.notMem_of_ne hij hp hq hid)
  · exact distances_after?_of_lt hc hresolve (hbelow program hprogram id hid)

/-- A statement that is abandoned and a target that becomes an assignment use up identities. What is
recorded for the program after them stays when the program before is resolved later. -/
theorem entry_kept_after_abandoned_statement :
    ∃ (s : Session) (p q : List Stmt), s.HasParsed [p, q]
      ∧ Stmt.listIds p = [2, 3] ∧ Stmt.listIds q = [5, 6] ∧ s.nextId = 7
      ∧ s.σ.distances[6]? = some 0 ∧ (s.resolve p).2.σ.distances[6]? = some 0 := by
  let s₀ := initial .unlimited fun _ => 0
  let s₁ := (s₀.parse "a = ; b = c;").2
  let p := (s₀.parse "a = ; b = c;").1.1
  let q := (s₁.parse "{ var d; d = e; }").1.1
  have h : ((s₁.run 40 "{ var d; d = e; }").map fun r => (r.1, r.2.nextId, r.2.σ.distances[6]?))
      = some (.runtimeError, 7, some 0) := by
    decide +kernel
  obtain ⟨⟨status, s⟩, hrun, hfacts⟩ := Option.map_eq_some_iff.mp h
  obtain ⟨-, hnext, hentry⟩ : status = .runtimeError ∧ s.nextId = 7 ∧ s.σ.distances[6]? = some 0 := by
    simpa using hfacts
  have hfirst : s₁.HasParsed [p] :=
    .call (c := .parse "a = ; b = c;") (.initial .unlimited fun _ => 0) rfl
  have hparsed : s.HasParsed [p, q] :=
    hfirst.call (c := .run 40 "{ var d; d = e; }") (congrArg (Option.map Prod.snd) hrun)
  have hp : Stmt.listIds p = [2, 3] := by decide +kernel
  have hq : Stmt.listIds q = [5, 6] := by decide +kernel
  obtain ⟨-, -, hkept, -⟩ := identities_distinct_and_entries_kept hparsed
  have hkept := hkept 0 1 p q (by decide) rfl rfl 6 (by rw [hq]; decide)
  exact ⟨s, p, q, hparsed, hp, hq, hnext, hentry, hkept.trans hentry⟩

end Session

end Lox
