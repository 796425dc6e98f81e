import Lox.Proofs.Relabelling.Parsing
import Lox.Proofs.Relabelling.Resolution
import Lox.Proofs.Relabelling.Runs
import Lox.Proofs.Session.Invariant
import Lox.Proofs.Token.Scanning

/-!
# Relabelling sessions

A session that has used up some identities goes on as if it had not: whatever it checks or runs from
then on is relabelled, and its answers are the same. What a session holds is built from nodes that
it has seen, so that new identities for later nodes leave it as it is.
-/

namespace Lox

open Machine (State Config Outcome)
open Resolution (ofStmts)

namespace Relabelling

/-- Nodes from a bound on get identities that are later by some number. -/
def shiftFrom (n k : Nat) : Relabelling where
  id i := if i < n then i else i + k
  line l := l

/-- Tokens keep their lines, old nodes their identities, and new nodes get no old identities. -/
structure Keeps (φ : Relabelling) (n : Nat) : Prop where
  line : φ.line = refl.line
  old : ∀ i < n, φ.id i = i
  new : ∀ i, n ≤ i → n ≤ φ.id i

variable {φ : Relabelling} {n k : Nat}

theorem Keeps.mono {m : Nat} (h : φ.Keeps n) (hle : m ≤ n) : φ.Keeps m where
  line := h.line
  old i hi := h.old i (Nat.lt_of_lt_of_le hi hle)
  new i hi := by
    rcases Nat.lt_or_ge i n with hn | hn
    · rwa [h.old i hn]
    · exact Nat.le_trans hle (h.new i hn)

/-- A table without entries for new nodes is as good under the new identities. -/
theorem Keeps.matches {σ : State} (h : φ.Keeps n) (hfresh : ∀ i, n ≤ i → σ.distances[i]? = none) :
    σ.Matches φ σ.distances := by
  intro i
  rcases Nat.lt_or_ge i n with hn | hn
  · rw [h.old i hn]
  · rw [hfresh i hn, hfresh _ (h.new i hn)]

/-- A program of old nodes stays as it is. -/
theorem Keeps.listRelabel {program : List Stmt} (h : φ.Keeps n)
    (hids : ∀ i ∈ Stmt.listIds program, i < n) : Stmt.listRelabel φ program = program := by
  have hcongr := Stmt.listRelabel_congr (ψ := refl) h.line fun i hi => h.old i (hids i hi)
  rw [hcongr, Stmt.listRelabel_refl]

theorem shiftFrom_of_le {i : NodeId} (h : n ≤ i) : (shiftFrom n k).id i = i + k :=
  if_neg (Nat.not_lt.mpr h)

theorem keeps_shiftFrom (n k : Nat) : (shiftFrom n k).Keeps n where
  line := rfl
  old i hi := if_pos hi
  new i hi := by
    rw [shiftFrom_of_le hi]
    exact Nat.le_add_right_of_le hi

theorem shiftFrom_injective : Function.Injective (shiftFrom n k).id := by
  intro (i : Nat) (j : Nat) (h : (if i < n then i else i + k) = if j < n then j else j + k)
  change (i : Nat) = j
  split at h <;> split at h <;> omega

theorem successive_shiftFrom (k : Nat) : (shiftFrom 0 k).Successive := by
  intro i
  rw [shiftFrom_of_le (Nat.zero_le _), shiftFrom_of_le (Nat.zero_le _)]
  exact Nat.add_right_comm i 1 k

theorem shiftFrom_token : (shiftFrom n k).token = fun t => t := rfl

theorem shiftFrom_grammarError : Grammar.Error.relabel (shiftFrom n k) = fun e => e := rfl

theorem shiftFrom_resolutionError : Resolution.Error.relabel (shiftFrom n k) = fun e => e := rfl

theorem shiftFrom_failure (f : Machine.Failure) : f.relabel (shiftFrom n k) = f := by
  cases f <;> rfl

end Relabelling

/-- Every source has an end of input. -/
theorem Lexer.any_isEnd_tokens (source : String) : (tokens source).any Grammar.isEnd = true := by
  have hitems : ∀ (ps : List Piece) (line : Nat),
      ((itemsFrom line ps).filterMap Item.token?).any Grammar.isEnd = true := by
    intro ps
    induction ps with
    | nil => exact fun line => rfl
    | cons p ps ih =>
        intro line
        unfold itemsFrom
        cases p with
        | token kind text => simp [Piece.item?, Item.token?, ih]
        | _ => simpa [Piece.item?, Item.token?] using ih _
  rw [tokens, items_eq_itemsFrom]
  exact hitems _ 1

namespace Session

/-- New identities for nodes that are still to come leave the state of the session as it is. -/
def Settled (s : Session) : Prop :=
  ∀ φ : Relabelling, φ.Keeps s.nextId → s.σ.relabel φ s.σ.distances = s.σ

variable {s s' : Session} {source : String} {program : List Stmt}

theorem Settled.relabel (h : s.Settled) {φ : Relabelling} (hφ : φ.Keeps s.nextId)
    (D : Machine.Distances) : s.σ.relabel φ D = { s.σ with distances := D } := by
  have hs : s.σ.relabel φ s.σ.distances = s.σ := h φ hφ
  calc
    s.σ.relabel φ D = { s.σ.relabel φ s.σ.distances with distances := D } := rfl
    _ = { s.σ with distances := D } := by rw [hs]

theorem Settled.record (h : s.Settled) (hle : s.nextId ≤ s'.nextId) {D : Machine.Distances}
    (hσ : s'.σ = { s.σ with distances := D }) : s'.Settled := by
  intro φ hφ
  rw [hσ]
  exact h.relabel (hφ.mono hle) D

/-- What a session holds after a run of old nodes is built from old nodes. -/
theorem Settled.interpret (h : s.Settled) (hs : s.Sound)
    (hids : ∀ i ∈ Stmt.listIds program, i < s.nextId) {steps : Nat} {status : Status}
    (hrun : s.interpret steps program = some (status, s')) : s'.Settled := by
  obtain ⟨outcome, hend, -, hs', hid⟩ := exists_outcome hrun
  intro φ hφ
  rw [hid] at hφ
  have hmatches : (Config.ofProgram program s.σ).state.Matches φ s.σ.distances := by
    intro i
    rw [Config.distances_ofProgram]
    exact hφ.matches hs.fresh i
  have hadvance := Config.relabel_advance hmatches steps
  rw [← Config.relabel_ofProgram, hφ.listRelabel hids, h φ hφ]
    at hadvance
  rw [hend, Sum.map_inr, Sum.inr.injEq] at hadvance
  have hσ : outcome.σ = outcome.σ.relabel φ s.σ.distances := congrArg Outcome.σ hadvance
  have hdistances : outcome.σ.distances = s.σ.distances := by rw [hσ, State.relabel_distances]
  rw [hs', hdistances]
  exact hσ.symm

theorem ids_of_check (h : s.check source = (some program, s')) :
    ∀ i ∈ Stmt.listIds program, s.nextId ≤ i ∧ i < s'.nextId := by
  obtain ⟨-, hgrown, -⟩ := check_eq_some (fun t _ => trivial) h
  exact hgrown.ids.bounds

theorem settled_initial (sink : Sink) (time : Nat → Float) : (initial sink time).Settled := by
  intro φ hφ
  have hframes := Frames.push_map (Value.relabel φ) .empty [(Native.clock.name, .native .clock)]
  have hempty : (Frames.empty : Frames Value).map (Value.relabel φ) = .empty := by
    simp [Frames.map, Frames.empty]
  rw [hempty] at hframes
  simp only [initial, State.initial, State.relabel, ← hframes, List.map_toArray, List.map_nil]
  rfl

/-- Every session that is reached holds nothing but what is built from nodes that it has seen. -/
theorem Reachable.settled (h : s.Reachable) : s.Settled := by
  induction h with
  | initial sink time => exact settled_initial sink time
  | @run s s' steps source status hs hrun ih =>
      rcases run_cases hrun with ⟨hcheck, -⟩ | ⟨program, t, hcheck, hrun⟩
      · obtain ⟨hle, hσ⟩ := check_eq_none hcheck
        exact ih.record hle (D := s.σ.distances) hσ
      · obtain ⟨hle, -, -, hσ⟩ := check_eq_some (fun t _ => trivial) hcheck
        obtain ⟨ht, -⟩ := hs.sound.of_check hcheck
        have hids : ∀ i ∈ Stmt.listIds program, i < t.nextId :=
          fun i hi => (ids_of_check hcheck i hi).2
        exact (ih.record hle hσ).interpret ht hids hrun

/-! ## Sessions side by side -/

/-- The second session is the first one with later identities for the nodes from a bound on. From
some moment on, when they had reported these diagnostics, both have reported the same. -/
structure Shifted (n k : Nat) (before before' : List Diagnostic) (s t : Session) : Prop where
  le : n ≤ s.nextId
  nextId : t.nextId = s.nextId + k
  state : t.σ = s.σ.relabel (.shiftFrom n k) t.σ.distances
  distances : s.σ.Matches (.shiftFrom n k) t.σ.distances
  diagnostics : ∃ ds, s.diagnostics = before ++ ds ∧ t.diagnostics = before' ++ ds

variable {n k : Nat} {before before' : List Diagnostic} {t : Session}

/-- A session that has only used up identities is a shifted one. -/
theorem Shifted.of_used (hs : s.Sound) (hsettled : s.Settled) (hle : s.nextId ≤ t.nextId)
    (hσ : t.σ = s.σ) :
    Shifted s.nextId (t.nextId - s.nextId) s.diagnostics t.diagnostics s t := by
  have hkeeps := Relabelling.keeps_shiftFrom s.nextId (t.nextId - s.nextId)
  refine ⟨Nat.le_refl _, (Nat.add_sub_of_le hle).symm, ?_, ?_, [], by simp, by simp⟩
  · rw [hσ]
    exact (hsettled _ hkeeps).symm
  · rw [hσ]
    exact hkeeps.matches hs.fresh

theorem Shifted.rebase (h : Shifted n k before before' s t) :
    Shifted n k s.diagnostics t.diagnostics s t :=
  { h with diagnostics := ⟨[], by simp, by simp⟩ }

theorem Shifted.report (h : Shifted n k before before' s t) (ds : List Diagnostic) :
    Shifted n k before before' (s.report ds) (t.report ds) := by
  obtain ⟨old, hs, ht⟩ := h.diagnostics
  refine { h with diagnostics := ⟨old ++ ds, ?_, ?_⟩ }
  · simp [Session.report, hs]
  · simp [Session.report, ht]

/-- Both sessions parse a source alike. -/
theorem Shifted.parse (h : Shifted n k before before' s t) (source : String) :
    (t.parse source).1 = (Stmt.listRelabel (.shiftFrom n k) (s.parse source).1.1,
        (s.parse source).1.2)
      ∧ Shifted n k before before' (s.parse source).2 (t.parse source).2 := by
  obtain ⟨-, hle, hgrown⟩ :=
    grown_parse (fun (t : Token) (_ : t ∈ Lexer.tokens source) => trivial) s
  have hparse := Grammar.relabel_parseProgram (Relabelling.successive_shiftFrom k)
    (Lexer.any_isEnd_tokens source) s.nextId
  rw [Relabelling.shiftFrom_token, List.map_id', Relabelling.shiftFrom_grammarError, List.map_id',
    Relabelling.shiftFrom_of_le (Nat.zero_le _), Relabelling.shiftFrom_of_le (Nat.zero_le _),
    ← h.nextId] at hparse
  have hprogram : Stmt.listRelabel (.shiftFrom 0 k) (s.parse source).1.1
      = Stmt.listRelabel (.shiftFrom n k) (s.parse source).1.1 := by
    have hline : (Relabelling.shiftFrom 0 k).line = (Relabelling.shiftFrom n k).line := rfl
    refine Stmt.listRelabel_congr hline fun i hi => ?_
    have hbounds := hgrown.ids.bounds i hi
    rw [Relabelling.shiftFrom_of_le (Nat.zero_le _),
      Relabelling.shiftFrom_of_le (Nat.le_trans h.le hbounds.1)]
  constructor
  · rw [← hprogram]
    simp only [Session.parse, hparse]
  · have hused : Shifted n k before before'
        { s with nextId := (Grammar.parseProgram (Lexer.tokens source) s.nextId).nextId }
        { t with nextId := (Grammar.parseProgram (Lexer.tokens source) t.nextId).nextId } :=
      { h with le := Nat.le_trans h.le hle, nextId := by rw [hparse] }
    have hreport := hused.report ((Lexer.errors source).map .lexical
      ++ (Grammar.parseProgram (Lexer.tokens source) s.nextId).errors.map Diagnostic.grammar)
    simpa only [Session.parse, hparse] using hreport

theorem lookup_map_key {f : NodeId → NodeId} (hf : Function.Injective f)
    (found : List (NodeId × Nat)) (i : NodeId) :
    (found.map fun (j, d) => (f j, d)).lookup (f i) = found.lookup i := by
  induction found with
  | nil => rfl
  | cons p found ih =>
      have hkey : (f i == f p.1) = (i == p.1) := by
        rw [Bool.eq_iff_iff, beq_iff_eq, beq_iff_eq]
        exact hf.eq_iff
      rw [List.map_cons, List.lookup_cons, List.lookup_cons, hkey, ih]

/-- Both sessions resolve a program alike. -/
theorem Shifted.resolve (h : Shifted n k before before' s t)
    (hnodup : (Stmt.listIds program).Nodup) :
    (t.resolve (Stmt.listRelabel (.shiftFrom n k) program)).1 = (s.resolve program).1
      ∧ Shifted n k before before' (s.resolve program).2
          (t.resolve (Stmt.listRelabel (.shiftFrom n k) program)).2 := by
  have hfound := Resolution.relabel_ofStmts (φ := .shiftFrom n k) .program [] program
  have hkeys : ((ofStmts .program [] program).locals.map Prod.fst).Nodup :=
    hnodup.sublist (Resolution.keys_ofStmts .program [] program)
  have herrors : (ofStmts .program [] (Stmt.listRelabel (.shiftFrom n k) program)).errors
      = (ofStmts .program [] program).errors := by
    rw [hfound, Resolution.Findings.relabel, Relabelling.shiftFrom_resolutionError, List.map_id']
  unfold Session.resolve Resolution.resolve
  dsimp only
  rw [herrors]
  by_cases hnone : (ofStmts .program [] program).errors.isEmpty = true
  · simp only [if_pos hnone, true_and]
    refine { h with state := ?_, distances := fun i => ?_ }
    · rw [h.state]
      rfl
    -- The shift keeps keys distinct, so that each entry is found under its new identity.
    · have hkeys' : ((ofStmts .program []
          (Stmt.listRelabel (.shiftFrom n k) program)).locals.map Prod.fst).Nodup := by
        have hmap := hkeys.map (Relabelling.shiftFrom_injective (n := n) (k := k))
        rw [hfound]
        simpa [Resolution.Findings.relabel, Function.comp_def] using hmap
      dsimp only
      rw [Machine.Distances.getElem?_add hkeys', Machine.Distances.getElem?_add hkeys,
        h.distances i, hfound]
      exact congrArg (Option.or · _)
        (lookup_map_key Relabelling.shiftFrom_injective (ofStmts .program [] program).locals i)
  · simp only [if_neg hnone, true_and]
    exact h.report _

/-- Both sessions check a source alike. -/
theorem Shifted.check (h : Shifted n k before before' s t) (source : String) :
    (t.check source).1 = (s.check source).1.map (Stmt.listRelabel (.shiftFrom n k))
      ∧ Shifted n k before before' (s.check source).2 (t.check source).2 := by
  obtain ⟨hparse, hparsed⟩ := h.parse source
  obtain ⟨-, -, hgrown⟩ :=
    grown_parse (fun (t : Token) (_ : t ∈ Lexer.tokens source) => trivial) s
  unfold Session.check
  generalize s.parse source = r at hparse hparsed hgrown ⊢
  generalize t.parse source = r' at hparse hparsed ⊢
  obtain ⟨⟨program, failed⟩, s₁⟩ := r
  obtain ⟨⟨program', failed'⟩, t₁⟩ := r'
  obtain ⟨rfl, rfl⟩ := Prod.mk.inj hparse
  cases failed' with
  | true => exact ⟨rfl, hparsed⟩
  | false =>
      obtain ⟨hresolve, hresolved⟩ := hparsed.resolve hgrown.ids.nodup
      dsimp only at hresolve hresolved ⊢
      generalize s₁.resolve program = q at hresolve hresolved ⊢
      generalize t₁.resolve (Stmt.listRelabel (.shiftFrom n k) program) = q'
        at hresolve hresolved ⊢
      obtain ⟨broken, s₂⟩ := q
      obtain ⟨broken', t₂⟩ := q'
      obtain rfl : broken' = broken := hresolve
      cases broken' <;> exact ⟨rfl, hresolved⟩

/-! ## Runs side by side -/

/-- The moments of both runs are the same up to the shift. -/
theorem Shifted.advance (h : Shifted n k before before' s t) (program : List Stmt) (steps : Nat) :
    (Config.ofProgram (Stmt.listRelabel (.shiftFrom n k) program) t.σ).advance steps
      = ((Config.ofProgram program s.σ).advance steps).map
          (Config.relabel (.shiftFrom n k) t.σ.distances)
          (Outcome.relabel (.shiftFrom n k) t.σ.distances) := by
  have hmatches : (Config.ofProgram program s.σ).state.Matches (.shiftFrom n k) t.σ.distances := by
    intro i
    rw [Config.distances_ofProgram]
    exact h.distances i
  have hadvance := Config.relabel_advance hmatches steps
  rwa [← Config.relabel_ofProgram, ← h.state] at hadvance

/-- How two runs of shifted sessions end. -/
def ShiftedEnds (n k : Nat) (before before' : List Diagnostic) (r r' : Status × Session) : Prop :=
  r'.1 = r.1 ∧ Shifted n k before before' r.2 r'.2

theorem Shifted.finish (h : Shifted n k before before' s t) {outcome : Outcome .flow}
    (hdistances : outcome.σ.distances = s.σ.distances) :
    ShiftedEnds n k before before' (s.finish outcome)
      (t.finish (outcome.relabel (.shiftFrom n k) t.σ.distances)) := by
  have hstate : Shifted n k before before' { s with σ := outcome.σ }
      { t with σ := outcome.σ.relabel (.shiftFrom n k) t.σ.distances } := by
    refine { h with state := rfl, distances := fun i => ?_ }
    rw [hdistances]
    exact h.distances i
  obtain ⟨result, σ⟩ := outcome
  cases result with
  | ok flow => exact ⟨rfl, hstate⟩
  | error failure =>
      constructor
      · rfl
      · have hreport := hstate.report [.failure failure]
        simpa only [Session.finish, Outcome.relabel, Machine.relabelResult,
          Relabelling.shiftFrom_failure] using hreport

/-- Both sessions run a program alike. -/
theorem Shifted.interpret (h : Shifted n k before before' s t) (program : List Stmt)
    (steps : Nat) :
    Option.Rel (ShiftedEnds n k before before') (s.interpret steps program)
      (t.interpret steps (Stmt.listRelabel (.shiftFrom n k) program)) := by
  have hadvance := h.advance program steps
  unfold Session.interpret Config.run
  rw [hadvance]
  cases hend : (Config.ofProgram program s.σ).advance steps with
  | inl c => exact .none
  | inr outcome =>
      have hdistances := Config.distances_outcome hend
      rw [Config.distances_ofProgram] at hdistances
      exact .some (h.finish hdistances)

/-- Both sessions run a source alike. -/
theorem Shifted.run (h : Shifted n k before before' s t) (steps : Nat) (source : String) :
    Option.Rel (ShiftedEnds n k before before') (s.run steps source) (t.run steps source) := by
  obtain ⟨hcheck, hchecked⟩ := h.check source
  unfold Session.run
  generalize s.check source = r at hcheck hchecked ⊢
  generalize t.check source = r' at hcheck hchecked ⊢
  obtain ⟨program?, s₁⟩ := r
  obtain ⟨program?', t₁⟩ := r'
  obtain rfl : program?' = _ := hcheck
  cases program? with
  | none => exact .some ⟨rfl, hchecked⟩
  | some program => exact hchecked.interpret program steps

end Session

end Lox
