import Lox.Session
import Lox.Proofs.Grammar.Programs
import Lox.Proofs.Machine.Preservation
import Lox.Proofs.Scope.Acceptance

/-!
# Sessions stay scoped

Whatever sources a session has run, and however these runs ended, its state is scoped and at the top
level, and no distance is recorded for a node that is still to come. A program that the session
accepts is well scoped with the distances that are then recorded.
-/

namespace Lox

open Machine (State Config Outcome Distances globalChain Realizes Place)
open Resolution (ofStmts Accepts)

/-- What is added under distinct identities is recorded, and nothing else changes. -/
theorem Machine.Distances.getElem?_add {distances : Distances} {found : List (NodeId × Nat)}
    (hn : (found.map Prod.fst).Nodup) (id : NodeId) :
    (distances.add found)[id]? = (found.lookup id).or distances[id]? := by
  induction found generalizing distances with
  | nil => rfl
  | cons p found ih =>
      obtain ⟨key, d⟩ := p
      rw [List.map_cons, List.nodup_cons] at hn
      have hstep : (distances.add ((key, d) :: found))[id]?
          = (found.lookup id).or (distances.insert key d)[id]? := ih hn.2
      rw [hstep, List.lookup_cons]
      by_cases h : id = key
      · subst h
        have hnone := Resolution.lookup_eq_none_of_sublist (List.Sublist.refl _) hn.1
        simp [hnone]
      · have hne : (id == key) = false := by simpa using h
        rw [hne, Std.TreeMap.getElem?_insert]
        simp [Ne.symm h]

namespace Session

/-- What a session has recorded for the nodes it has seen. -/
def Known (s : Session) (id : NodeId) (r : Option Nat) : Prop :=
  id < s.nextId ∧ s.σ.distances[id]? = r

/-- The session is scoped and at the top level. -/
structure Sound (s : Session) : Prop where
  state : s.σ.Scoped s.Known
  chain_eq : s.σ.chain = globalChain
  fresh : ∀ id, s.nextId ≤ id → s.σ.distances[id]? = none

variable {s s' : Session} {source : String} {program : List Stmt}

/-- The statements of a source are built from its tokens, and their nodes are new. -/
theorem grown_parse {Q : Token → Prop} (hQ : ∀ t ∈ Lexer.tokens source, Q t) (s : Session) :
    (s.parse source).2.σ = s.σ ∧ s.nextId ≤ (s.parse source).2.nextId ∧
      Grammar.GrownStmts Q s.nextId (s.parse source).2.nextId (s.parse source).1.1 := by
  obtain ⟨hle, hgrown⟩ := Grammar.grown_parseProgram hQ s.nextId
  exact ⟨rfl, hle, hgrown⟩

/-- What is found in a program that passes all checks, and what the checks change. -/
theorem check_eq_some {Q : Token → Prop} (hQ : ∀ t ∈ Lexer.tokens source, Q t)
    (h : s.check source = (some program, s')) :
    s.nextId ≤ s'.nextId ∧ Grammar.GrownStmts Q s.nextId s'.nextId program
      ∧ (ofStmts .program [] program).errors = []
      ∧ s'.σ = { s.σ with distances := s.σ.distances.add (ofStmts .program [] program).locals } := by
  obtain ⟨hσ, hle, hgrown⟩ := grown_parse hQ s
  unfold check at h
  generalize s.parse source = r at h hσ hle hgrown
  obtain ⟨⟨parsed, failed⟩, t⟩ := r
  cases failed with
  | true => simp at h
  | false =>
      simp only at h hσ hle hgrown
      unfold resolve Resolution.resolve at h
      by_cases herrors : (ofStmts .program [] parsed).errors = []
      · simp only [herrors, List.isEmpty_nil, if_true, Prod.mk.injEq, Option.some.injEq] at h
        obtain ⟨rfl, rfl⟩ := h
        exact ⟨hle, hgrown, herrors, by rw [hσ]⟩
      · simp [herrors] at h

theorem check_eq_none (h : s.check source = (none, s')) :
    s.nextId ≤ s'.nextId ∧ s'.σ = s.σ := by
  obtain ⟨hσ, hle, -⟩ := grown_parse (fun t _ => trivial) s
  unfold check at h
  generalize s.parse source = r at h hσ hle
  obtain ⟨⟨parsed, failed⟩, t⟩ := r
  cases failed with
  | true =>
      simp only [Prod.mk.injEq, true_and] at h
      subst h
      exact ⟨hle, hσ⟩
  | false =>
      simp only at h hσ hle
      unfold resolve at h
      cases hr : Resolution.resolve parsed with
      | ok found => simp [hr] at h
      | error errors =>
          simp only [hr, Prod.mk.injEq, true_and] at h
          subst h
          exact ⟨hle, hσ⟩

theorem accepts_of_check (hs : s.Sound) (h : s.check source = (some program, s')) :
    Accepts s'.Known (ofStmts .program [] program) (Stmt.listIds program)
      ∧ ∀ id, id < s.nextId ∨ s'.nextId ≤ id → s'.σ.distances[id]? = s.σ.distances[id]? := by
  obtain ⟨hle, hgrown, herrors, hσ⟩ := check_eq_some (fun _ => Lexer.spelled_of_mem_tokens) h
  have hkeys := Resolution.keys_ofStmts .program [] program
  have hadd (id : NodeId) : s'.σ.distances[id]?
      = ((ofStmts .program [] program).locals.lookup id).or s.σ.distances[id]? := by
    rw [hσ]
    exact Machine.Distances.getElem?_add (hgrown.ids.nodup.sublist hkeys) id
  refine ⟨⟨herrors, hgrown.ids.nodup, fun id hid => ?_⟩, fun id hid => ?_⟩
  · have hbounds := hgrown.ids.bounds id hid
    refine ⟨hbounds.2, ?_⟩
    rw [hadd, hs.fresh id hbounds.1, Option.or_none]
  · have hnone : (ofStmts .program [] program).locals.lookup id = none := by
      refine Resolution.lookup_eq_none_of_sublist hkeys fun hmem => ?_
      have hbounds := hgrown.ids.bounds id hmem
      rcases hid with hid | hid
      · exact Nat.lt_irrefl _ (Nat.lt_of_lt_of_le hid hbounds.1)
      · exact Nat.lt_irrefl _ (Nat.lt_of_lt_of_le hbounds.2 hid)
    rw [hadd, hnone, Option.none_or]

/-- Recording distances for new nodes keeps a session sound. -/
theorem Sound.record (h : s.Sound) (hle : s.nextId ≤ s'.nextId) {distances : Distances}
    (hσ : s'.σ = { s.σ with distances := distances })
    (hsame : ∀ id, id < s.nextId ∨ s'.nextId ≤ id → s'.σ.distances[id]? = s.σ.distances[id]?) :
    s'.Sound := by
  refine ⟨?_, ?_, fun id hid => ?_⟩
  · have himp : State.Scoped s'.Known { s.σ with distances := distances } :=
      h.state.imp
        (fun id r hk => ⟨Nat.lt_of_lt_of_le hk.1 hle, (hsame id (.inl hk.1)).trans hk.2⟩)
        (fun id r hk => by rw [← hk.2, hσ])
    rwa [← hσ] at himp
  · rw [hσ]
    exact h.chain_eq
  · rw [hsame id (.inr hid)]
    exact h.fresh id (Nat.le_trans hle hid)

/-- An accepted program is well scoped: there is no class around it. -/
theorem wellScoped_program {known : NodeId → Option Nat → Prop}
    (hb : Stmt.ListBuilt Token.Spelled program)
    (ha : Accepts known (ofStmts .program [] program) (Stmt.listIds program)) :
    Stmt.ListWellScoped known [] program := by
  have hsuits : Resolution.Suits Resolution.Context.program.enclosingClass [] := trivial
  exact Resolution.wellScoped_of_ofStmts hsuits hb ha

/-- A program that passes the checks of a sound session is well scoped with the distances that they
record. -/
theorem Sound.of_check (h : s.Sound) (hcheck : s.check source = (some program, s')) :
    s'.Sound ∧ Stmt.ListWellScoped s'.Known [] program := by
  obtain ⟨hle, hgrown, -, hσ⟩ := check_eq_some (fun _ => Lexer.spelled_of_mem_tokens) hcheck
  obtain ⟨haccepts, hsame⟩ := accepts_of_check h hcheck
  exact ⟨h.record hle hσ hsame, wellScoped_program hgrown.built haccepts⟩

theorem Sound.of_check_none (h : s.Sound) (hcheck : s.check source = (none, s')) : s'.Sound := by
  obtain ⟨hle, hσ⟩ := check_eq_none hcheck
  exact h.record hle hσ fun id _ => by rw [hσ]

/-- The run of a program at the top level begins scoped, for everything that is known of the state
of the session. -/
theorem scoped_ofProgram {known : NodeId → Option Nat → Prop} {σ : State} (hσ : σ.Scoped known)
    (hchain : σ.chain = globalChain) (hprogram : Stmt.ListWellScoped known [] program) :
    (Config.ofProgram program σ).Scoped known := by
  refine .inProgram ⟨hσ, ?_⟩ hprogram .done
  rw [hchain]
  exact ⟨.global, trivial, nofun⟩

/-- A program that is interpreted comes to an end, whose state the session goes on with. -/
theorem exists_outcome {steps : Nat} {status : Status}
    (h : s.interpret steps program = some (status, s')) :
    ∃ outcome, (Config.ofProgram program s.σ).advance steps = .inr outcome
      ∧ s.finish outcome = (status, s') ∧ s'.σ = outcome.σ ∧ s'.nextId = s.nextId := by
  obtain ⟨outcome, hout, hfinish⟩ := Option.map_eq_some_iff.mp h
  refine ⟨outcome, Sum.getRight?_eq_some_iff.mp hout, hfinish, ?_⟩
  unfold finish at hfinish
  split at hfinish <;> cases hfinish <;> exact ⟨rfl, rfl⟩

theorem Sound.state_all (h : s.Sound) : s.σ.Scoped fun id r => s.σ.distances[id]? = r :=
  h.state.imp (fun _ _ hk => hk.2) fun _ _ hk => hk

theorem Sound.interpret (h : s.Sound) (hprogram : Stmt.ListWellScoped s.Known [] program)
    {steps : Nat} {status : Status} (hrun : s.interpret steps program = some (status, s')) :
    s'.Sound := by
  obtain ⟨outcome, hrun, -, hσ, hid⟩ := exists_outcome hrun
  -- With everything known, distances stay as they are; with less known, they may still grow.
  have hsound := (scoped_ofProgram h.state h.chain_eq hprogram).advance steps
  have hall := (scoped_ofProgram h.state_all h.chain_eq
    (Stmt.ListWellScoped.imp (fun id r hk => hk.2) hprogram)).advance steps
  rw [hrun] at hsound hall
  have hdistances (id : NodeId) : outcome.σ.distances[id]? = s.σ.distances[id]? :=
    hall.sound.knows rfl
  refine ⟨?_, ?_, fun id hle => ?_⟩
  · have hknown : s'.Known = s.Known := by
      funext id r
      simp only [Known, hσ, hid, hdistances]
    rw [hknown, hσ]
    exact hsound.sound
  · rw [hσ]
    exact hsound.chain_eq
  · rw [hσ, hdistances]
    exact h.fresh id (hid ▸ hle)

/-- The session is reached from a new one by running sources, whose runs may end in any way. -/
inductive Reachable : Session → Prop
  | initial (sink : Sink) (time : Nat → Float) : Reachable (.initial sink time)
  | run {s s' : Session} {steps : Nat} {source : String} {status : Status} (h : Reachable s)
      (hrun : s.run steps source = some (status, s')) : Reachable s'

theorem sound_initial (sink : Sink) (time : Nat → Float) : (Session.initial sink time).Sound where
  state := by
    refine ⟨by simp [initial, State.initial], fun {f x v} hv => ?_, fun {i o} ho => ?_,
      fun {i o x v} ho => ?_, fun hk => hk.2⟩
    · rcases Frames.get?_push_eq_some hv with hv | ⟨-, hv⟩
      · simp [Frames.get?, Frames.bindings, Frames.empty] at hv
      · obtain rfl := Bindings.eq_of_get?_singleton hv
        trivial
    · simp [initial, State.initial] at ho
    · simp [initial, State.initial] at ho
  chain_eq := rfl
  fresh := fun id _ => by simp [initial, State.initial]

/-- A run rejects its source, or interprets the program that the source is accepted as. -/
theorem run_cases {steps : Nat} {status : Status} (h : s.run steps source = some (status, s')) :
    (s.check source = (none, s') ∧ status = .staticError)
      ∨ ∃ program t, s.check source = (some program, t)
        ∧ t.interpret steps program = some (status, s') := by
  unfold run at h
  split at h
  · next t hcheck =>
    cases h
    exact .inl ⟨hcheck, rfl⟩
  · next program t hcheck => exact .inr ⟨program, t, hcheck, h⟩

/-- Every session that is reached is sound. -/
theorem Reachable.sound (h : s.Reachable) : s.Sound := by
  induction h with
  | initial sink time => exact sound_initial sink time
  | @run s s' steps source status _ hrun ih =>
      rcases run_cases hrun with ⟨hcheck, -⟩ | ⟨program, t, hcheck, hrun⟩
      · exact ih.of_check_none hcheck
      · obtain ⟨ht, hprogram⟩ := ih.of_check hcheck
        exact ht.interpret hprogram hrun

/-- Every moment of a run in a session that is reached is scoped. -/
theorem Reachable.scoped_advance (h : s.Reachable) (hcheck : s.check source = (some program, s'))
    {n : Nat} {c : Config .flow} (hc : (Config.ofProgram program s'.σ).advance n = .inl c) :
    c.Scoped s'.Known := by
  obtain ⟨hs', hprogram⟩ := h.sound.of_check hcheck
  exact (scoped_ofProgram hs'.state hs'.chain_eq hprogram).of_advance hc

end Session

end Lox
