import Lox.Proofs.Concatenation.Programs
import Lox.Proofs.Concatenation.Runs
import Lox.Proofs.Session.Rejected

/-!
# Sources one by one and in a row

Two sources that are run one after the other in a session do what one source does that contains both
on separate lines. Only the lines of the second source are others.
-/

namespace Lox

open Machine (State Config Outcome Distances)
open Resolution (ofStmts)

/-- All tokens stand on one line. -/
def Relabelling.lineless : Relabelling where
  id i := i
  line _ := 0

theorem Relabelling.lineless_below (k : Nat) (tokens : List Token) :
    (tokens.map (below k).token).map lineless.token = tokens.map lineless.token := by
  rw [List.map_map]
  rfl

namespace Grammar

variable {tokens tokens' : List Token}

/-- Tokens that differ only in their lines parse alike. -/
theorem parseProgram_lineless (h : tokens'.map Relabelling.lineless.token
      = tokens.map Relabelling.lineless.token)
    (hend : tokens.any isEnd = true) (hend' : tokens'.any isEnd = true) (firstId : NodeId) :
    Stmt.listRelabel .lineless (parseProgram tokens' firstId).result
        = Stmt.listRelabel .lineless (parseProgram tokens firstId).result
      ∧ ((parseProgram tokens firstId).errors = [] → (parseProgram tokens' firstId).errors = [])
      ∧ (parseProgram tokens' firstId).nextId = (parseProgram tokens firstId).nextId := by
  have hsuccessive : Relabelling.lineless.Successive := fun _ => rfl
  have hparse := relabel_parseProgram hsuccessive hend firstId
  have hparse' := relabel_parseProgram hsuccessive hend' firstId
  rw [h, hparse, Parsed.mk.injEq] at hparse'
  obtain ⟨hresult, herrors, hid⟩ := hparse'
  refine ⟨hresult.symm, fun hnil => ?_, hid.symm⟩
  rw [hnil, List.map_nil] at herrors
  exact List.map_eq_nil_iff.mp herrors.symm

end Grammar

namespace Resolution

variable {program program' : List Stmt}

/-- In programs that differ only in their lines, the same distances and as many errors are found. -/
theorem ofStmts_lineless
    (h : Stmt.listRelabel .lineless program' = Stmt.listRelabel .lineless program) :
    (ofStmts .program [] program').locals = (ofStmts .program [] program).locals
      ∧ ((ofStmts .program [] program).errors = []
        → (ofStmts .program [] program').errors = []) := by
  have hfound := relabel_ofStmts (φ := .lineless) .program [] program
  have hfound' := relabel_ofStmts (φ := .lineless) .program [] program'
  rw [h, hfound] at hfound'
  constructor
  · have hlocals := congrArg Findings.locals hfound'
    simpa [Findings.relabel, Relabelling.lineless] using hlocals.symm
  · intro hnil
    have herrors := congrArg Findings.errors hfound'
    rw [Findings.relabel, Findings.relabel, hnil] at herrors
    exact List.map_eq_nil_iff.mp herrors.symm

/-- Global declarations leave no scope behind. -/
theorem ofStmts_append (context : Context) (first second : List Stmt) :
    ofStmts context [] (first ++ second)
      = ofStmts context [] first ++ ofStmts context [] second := by
  induction first with
  | nil => rfl
  | cons s first ih =>
      rw [List.cons_append, ofStmts, ofStmts, after_nil, ih]
      exact congrArg₂ Findings.mk (List.append_assoc ..).symm (List.append_assoc ..).symm

end Resolution

namespace Session

/-- The parse of a source whose nodes have identities from `firstId` on. -/
def parsed (source : String) (firstId : NodeId) : Grammar.Parsed (List Stmt) :=
  Grammar.parseProgram (Lexer.tokens source) firstId

/-- No check finds an error in the source. -/
structure Clean (source : String) (firstId : NodeId) : Prop where
  lexical : Lexer.errors source = []
  grammar : (parsed source firstId).errors = []
  resolution : (ofStmts .program [] (parsed source firstId).result).errors = []

variable {s s' : Session} {source first second : String} {program : List Stmt} {sink : Sink}
  {time : Nat → Float}

/-- What the checks of a source without errors do. -/
theorem Clean.check (h : Clean source s.nextId) :
    ∃ s', s.check source = (some (parsed source s.nextId).result, s')
      ∧ s'.σ = { s.σ with
          distances := s.σ.distances.add
            (ofStmts .program [] (parsed source s.nextId).result).locals }
      ∧ s'.nextId = (parsed source s.nextId).nextId ∧ s'.diagnostics = s.diagnostics := by
  have hparse : s.parse source = (((parsed source s.nextId).result, false),
      { s with nextId := (parsed source s.nextId).nextId }) := by
    unfold Session.parse Session.report
    simp [h.lexical, show (Grammar.parseProgram (Lexer.tokens source) s.nextId).errors = []
      from h.grammar, parsed]
  unfold Session.check
  rw [hparse]
  simp only [Session.resolve, Resolution.resolve, h.resolution, List.isEmpty_nil, if_true]
  exact ⟨_, rfl, rfl, rfl, rfl⟩

/-- A source that is accepted has no errors. -/
theorem clean_of_check (h : s.check source = (some program, s')) : Clean source s.nextId := by
  obtain ⟨-, -, hresolution, -⟩ := check_eq_some (fun t _ => trivial) h
  have hparse : (s.parse source).1 = (program, false) := by
    unfold Session.check at h
    generalize s.parse source = r at h ⊢
    obtain ⟨⟨parsed, failed⟩, t⟩ := r
    cases failed with
    | true => simp at h
    | false =>
        dsimp only at h
        split at h
        · simp at h
        · simp only [Prod.mk.injEq, Option.some.injEq] at h
          rw [h.1]
  obtain ⟨hprogram, hclean⟩ := Prod.mk.inj hparse
  simp only [Bool.not_eq_false', List.isEmpty_iff, List.append_eq_nil_iff,
    List.map_eq_nil_iff] at hclean
  refine ⟨hclean.1, hclean.2, ?_⟩
  rw [← hprogram] at hresolution
  exact hresolution

/-- Whether a source has errors does not depend on the identities of its nodes. -/
theorem Clean.shift (h : Clean source 0) (k : Nat) : Clean source k := by
  have hparse := Grammar.relabel_parseProgram (Relabelling.successive_shiftFrom k)
    (Lexer.any_isEnd_tokens source) 0
  rw [Relabelling.shiftFrom_token, List.map_id', Relabelling.shiftFrom_of_le (Nat.zero_le _),
    Nat.zero_add] at hparse
  refine ⟨h.lexical, ?_, ?_⟩
  · have hgrammar : (Grammar.parseProgram (Lexer.tokens source) 0).errors = [] := h.grammar
    rw [parsed, hparse, hgrammar]
    rfl
  · have hresolution : (ofStmts .program []
        (Grammar.parseProgram (Lexer.tokens source) 0).result).errors = [] := h.resolution
    rw [parsed, hparse, Resolution.relabel_ofStmts, Resolution.Findings.relabel, hresolution]
    rfl

/-! ## Two sources in a row -/

/-- Two sources with a line break between them. -/
def joined (first second : String) : String :=
  first ++ "\n" ++ second

/-- Two sources without errors have none in a row. Their programs stand in a row, with the second
one on other lines, and the same distances are found. -/
theorem clean_joined {n : NodeId} (hfirst : Clean first n)
    (hsecond : Clean second (parsed first n).nextId) :
    Clean (joined first second) n ∧ ∃ program, Stmt.listRelabel .lineless program
        = Stmt.listRelabel .lineless (parsed second (parsed first n).nextId).result
      ∧ (parsed (joined first second) n).result = (parsed first n).result ++ program
      ∧ (ofStmts .program [] ((parsed first n).result ++ program)).locals
        = (ofStmts .program [] (parsed first n).result).locals
          ++ (ofStmts .program [] (parsed second (parsed first n).nextId).result).locals := by
  obtain ⟨body, last, htokens, hbody, hjoined, hlexical⟩ :=
    Lexer.tokens_append hfirst.lexical second
  have hbelow := Relabelling.lineless_below (first.toList.count '\n' + 1) (Lexer.tokens second)
  have hend : (Lexer.tokens second).any Grammar.isEnd = true := Lexer.any_isEnd_tokens second
  have hend' : ((Lexer.tokens second).map
      (Relabelling.below (first.toList.count '\n' + 1)).token).any Grammar.isEnd = true := by
    rw [List.any_map]
    exact hend
  obtain ⟨hresult, hgrammar, -⟩ :=
    Grammar.parseProgram_lineless hbelow hend hend' (parsed first n).nextId
  have hparsed : parsed first n = Grammar.parseProgram (body ++ [.endAt last]) n := by
    rw [parsed, htokens]
  have hclean : (Grammar.parseProgram (body ++ [.endAt last]) n).errors = [] :=
    hparsed ▸ hfirst.grammar
  have happend := Grammar.parseProgram_append hbody hclean (hparsed ▸ hgrammar hsecond.grammar)
  rw [← hparsed, ← hjoined] at happend
  obtain ⟨hlocals, hresolution⟩ := Resolution.ofStmts_lineless hresult
  refine ⟨⟨hlexical hsecond.lexical, congrArg Grammar.Parsed.errors happend, ?_⟩, _, hresult,
    congrArg Grammar.Parsed.result happend, ?_⟩
  · rw [joined, parsed, happend, Resolution.ofStmts_append, Resolution.Findings.errors_append,
      hfirst.resolution, List.nil_append]
    exact hresolution hsecond.resolution
  · rw [Resolution.ofStmts_append, Resolution.Findings.locals_append, hlocals]
    rfl

/-! ## Runs -/

/-- What is reported of the end of a run: its status, the sink with all output, and the wordings of
all diagnostics. -/
def summary (r : Status × Session) : Status × Sink × List String :=
  (r.1, r.2.σ.sink, r.2.diagnostics.map Diagnostic.message)

/-- Programs that differ only in their lines run alike. -/
theorem advance_lineless {program' : List Stmt}
    (h : Stmt.listRelabel .lineless program' = Stmt.listRelabel .lineless program) (σ : State)
    (n : Nat) :
    ((Config.ofProgram program' σ).advance n).map (Config.relabel .lineless σ.distances)
        (Outcome.relabel .lineless σ.distances)
      = ((Config.ofProgram program σ).advance n).map (Config.relabel .lineless σ.distances)
        (Outcome.relabel .lineless σ.distances) := by
  have hmatches (program : List Stmt) :
      (Config.ofProgram program σ).state.Matches .lineless σ.distances := by
    intro i
    rw [Config.distances_ofProgram]
    rfl
  rw [← Config.relabel_advance (hmatches program'), ← Config.relabel_advance (hmatches program),
    ← Config.relabel_ofProgram, ← Config.relabel_ofProgram, h]

theorem summary_finish {t t' : Session} {φ : Relabelling} {D : Distances}
    {o o' : Outcome .flow} (ht : t'.diagnostics = t.diagnostics)
    (ho : o'.relabel φ D = o.relabel φ D) : summary (t'.finish o') = summary (t.finish o) := by
  obtain ⟨result, σ⟩ := o
  obtain ⟨result', σ'⟩ := o'
  rw [Outcome.relabel, Outcome.relabel, Outcome.mk.injEq] at ho
  obtain ⟨hresult, hσ⟩ := ho
  have hsink : σ'.sink = σ.sink := (congrArg State.sink hσ :)
  cases result with
  | ok flow =>
      cases result' with
      | ok flow' => simp [summary, finish, hsink, ht]
      | error failure' => cases hresult
  | error failure =>
      cases result' with
      | ok flow' => cases hresult
      | error failure' =>
          have hfailure : failure'.relabel φ = failure.relabel φ := Except.error.inj hresult
          have hmessage : failure'.message = failure.message := by
            rw [← Machine.Failure.relabel_message φ failure', hfailure,
              Machine.Failure.relabel_message]
          simp [summary, finish, report, hsink, ht, Diagnostic.message, hmessage]

theorem stateAfter_eq (h : s.check source = (some program, s')) (steps : Nat) :
    s.stateAfter steps source
      = ((Config.ofProgram program s'.σ).advance steps).elim Config.state Outcome.σ := by
  unfold stateAfter
  rw [h]
  dsimp only
  cases (Config.ofProgram program s'.σ).advance steps <;> rfl

theorem run_eq (h : s.check source = (some program, s')) (steps : Nat) :
    s.run steps source
      = ((Config.ofProgram program s'.σ).advance steps).getRight?.map s'.finish := by
  unfold run
  rw [h]
  rfl

/-- Two moments of runs that differ only in their lines have printed the same, and if the runs have
ended, they have the same summary. -/
theorem seen_of_lineless {t t' : Session} {φ : Relabelling} {D : Distances}
    {x x' : Config .flow ⊕ Outcome .flow} (ht : t'.diagnostics = t.diagnostics)
    (h : x'.map (Config.relabel φ D) (Outcome.relabel φ D)
      = x.map (Config.relabel φ D) (Outcome.relabel φ D)) :
    (x'.elim Config.state Outcome.σ).sink = (x.elim Config.state Outcome.σ).sink
      ∧ (x'.getRight?.map t'.finish).map summary = (x.getRight?.map t.finish).map summary := by
  cases x with
  | inl c =>
      cases x' with
      | inl c' =>
          have hsink : (c'.relabel φ D).state.sink = (c.relabel φ D).state.sink :=
            congrArg (fun c => c.state.sink) (Sum.inl.inj h)
          rw [Config.sink_relabel, Config.sink_relabel] at hsink
          exact ⟨hsink, rfl⟩
      | inr o' => cases h
  | inr o =>
      cases x' with
      | inl c' => cases h
      | inr o' =>
          have ho := Sum.inr.inj h
          have hsink : (o'.relabel φ D).σ.sink = (o.relabel φ D).σ.sink :=
            congrArg (fun o => o.σ.sink) ho
          exact ⟨hsink, congrArg some (summary_finish ht ho)⟩

theorem add_append (distances : Distances) (found more : List (NodeId × Nat)) :
    distances.add (found ++ more) = (distances.add found).add more :=
  List.foldl_append

/-- A run that ends without a failure does so whatever distances are recorded for later nodes. -/
theorem advance_later {t u : Session} {n steps : Nat} {flow : Machine.Flow} (ht : t.Sound)
    (hsettled : t.Settled) (hu : u.Settled) (hid : u.nextId = t.nextId)
    (hids : ∀ i ∈ Stmt.listIds program, i < t.nextId) {D : Distances}
    (hD : ∀ i, i < t.nextId ∨ n ≤ i → D[i]? = t.σ.distances[i]?)
    (hrun : (Config.ofProgram program t.σ).advance steps = .inr ⟨.ok flow, u.σ⟩) :
    ∃ flow', (Config.ofProgram program { t.σ with distances := D }).advance steps
      = .inr ⟨.ok flow', { u.σ with distances := D }⟩ := by
  have hkeeps := Relabelling.keeps_shiftFrom t.nextId n
  have hmatches : (Config.ofProgram program t.σ).state.Matches (.shiftFrom t.nextId n) D := by
    intro i
    rw [Config.distances_ofProgram]
    rcases Nat.lt_or_ge i t.nextId with hi | hi
    · rw [hkeeps.old i hi]
      exact hD i (.inl hi)
    · rw [Relabelling.shiftFrom_of_le hi, hD _ (.inr (Nat.le_add_left n i)), ht.fresh i hi,
        ht.fresh _ (Nat.le_add_right_of_le hi)]
  have hadvance := Config.relabel_advance hmatches steps
  rw [← Config.relabel_ofProgram, hkeeps.listRelabel hids, hsettled.relabel hkeeps,
    hrun] at hadvance
  refine ⟨flow.relabel (.shiftFrom t.nextId n), hadvance.trans ?_⟩
  rw [← hid] at hkeeps
  rw [← hu.relabel hkeeps, hid]
  rfl

theorem interpret_eq_ok {t : Session} {steps : Nat}
    (h : t.interpret steps program = some (.ok, s)) :
    ∃ flow, (Config.ofProgram program t.σ).advance steps = .inr ⟨.ok flow, s.σ⟩
      ∧ s.nextId = t.nextId ∧ s.diagnostics = t.diagnostics := by
  unfold Session.interpret Config.run at h
  cases hadvance : (Config.ofProgram program t.σ).advance steps with
  | inl c => simp [hadvance] at h
  | inr o =>
      obtain ⟨result, σ⟩ := o
      simp only [hadvance, Sum.getRight?_inr, Option.map_some, Option.some.injEq] at h
      cases result with
      | error failure => simp [finish] at h
      | ok flow =>
          obtain rfl : { t with σ := σ } = s := (Prod.mk.inj h).2
          exact ⟨flow, rfl, rfl, rfl⟩

theorem nextId_initial : (initial sink time).nextId = 0 := rfl

/-- What is left of a source that ran without a failure. -/
theorem exists_run {steps : Nat} (hrun : (initial sink time).run steps first = some (.ok, s)) :
    Clean first 0 ∧ ∃ t flow, (initial sink time).check first = (some (parsed first 0).result, t)
      ∧ t.σ = { (initial sink time).σ with
          distances := (initial sink time).σ.distances.add
            (ofStmts .program [] (parsed first 0).result).locals }
      ∧ (Config.ofProgram (parsed first 0).result t.σ).advance steps = .inr ⟨.ok flow, s.σ⟩
      ∧ t.nextId = (parsed first 0).nextId ∧ s.nextId = t.nextId ∧ s.diagnostics = [] := by
  rcases run_cases hrun with ⟨-, hstatus⟩ | ⟨program, t, hcheck, hrun⟩
  · cases hstatus
  · have hclean : Clean first 0 := clean_of_check hcheck
    obtain ⟨t', hcheck', hσ, hid, hdiagnostics⟩ := Clean.check (s := initial sink time) hclean
    obtain ⟨hprogram, rfl⟩ := Prod.mk.inj (hcheck'.symm.trans hcheck)
    obtain rfl := Option.some.inj hprogram
    obtain ⟨flow, hadvance, hsid, hsdiagnostics⟩ := interpret_eq_ok hrun
    exact ⟨hclean, t', flow, hcheck, hσ, hadvance, hid, hsid, hsdiagnostics.trans hdiagnostics⟩

/-- After a source that ran without a failure, a session accepts a second one, and a new session
accepts both in a row. The run of both comes to the run of the second program. -/
theorem exists_moment {steps : Nat} (hfirst : (initial sink time).run steps first = some (.ok, s))
    (hsecond : Clean second 0) :
    ∃ program program' t b d, s.check second = (some program, t) ∧ t.diagnostics = []
      ∧ (initial sink time).check (joined first second) = (some program', b) ∧ b.diagnostics = []
      ∧ ∃ program'', Stmt.listRelabel .lineless program'' = Stmt.listRelabel .lineless program
        ∧ (Config.ofProgram program' b.σ).advance d = .inl (Config.ofProgram program'' t.σ) := by
  have hs₀ : (initial sink time).Reachable := .initial sink time
  have hs : s.Reachable := hs₀.run hfirst
  obtain ⟨hclean, t, flow, hcheck, htσ, hadvance, htid, hid, hdiagnostics⟩ := exists_run hfirst
  have hnext : s.nextId = (parsed first 0).nextId := hid.trans htid
  have hdistances : s.σ.distances = t.σ.distances := by
    rw [← Config.distances_ofProgram (parsed first 0).result t.σ]
    exact Config.distances_outcome hadvance
  obtain ⟨u, hcheck', huσ, -, hudiagnostics⟩ := (hsecond.shift s.nextId).check
  obtain ⟨hjoined, program, hlines, hresult, hlocals⟩ :=
    clean_joined hclean (hnext ▸ hsecond.shift s.nextId)
  rw [← hnext] at hlines hlocals
  obtain ⟨b, hcheck'', hbσ, -, hbdiagnostics⟩ := Clean.check (s := initial sink time) hjoined
  rw [nextId_initial, hresult] at hcheck'' hbσ
  -- When the first program has run, both sessions have the same state but for the distances.
  replace hbσ : b.σ = { t.σ with distances := u.σ.distances } := by
    have hadd : b.σ.distances = u.σ.distances := by
      rw [hbσ, huσ, hdistances, htσ, hlocals]
      exact add_append _ _ _
    rw [← hadd, htσ, hbσ]
  replace huσ : u.σ = { s.σ with distances := u.σ.distances } := by
    rw [huσ]
  have hD : ∀ i, i < t.nextId ∨ u.nextId ≤ i → u.σ.distances[i]? = t.σ.distances[i]? := by
    rw [← hid, ← hdistances]
    exact (accepts_of_check hs.sound hcheck').2
  obtain ⟨ht, -⟩ := hs₀.sound.of_check hcheck
  have hsettled : t.Settled := by
    obtain ⟨hle, -, -, hσ⟩ := check_eq_some (fun _ _ => trivial) hcheck
    exact hs₀.settled.record hle hσ
  obtain ⟨flow', hlater⟩ := advance_later ht hsettled hs.settled hid
    (fun i hi => (ids_of_check hcheck i hi).2) hD hadvance
  rw [← hbσ, ← huσ] at hlater
  obtain ⟨d, hmoment⟩ := Config.advance_append program hlater
  exact ⟨_, _, u, b, d, hcheck', hudiagnostics.trans hdiagnostics, hcheck'', hbdiagnostics,
    program, hlines, hmoment⟩

/-- Two sources, the first of which runs without a failure in a new session and the second of which
is accepted, run one after the other as they do in a row. The whole is accepted. From some moment
on, its run has printed the same as the runs of both sources so far, and it ends when the second one
does, with the same status and diagnostics that differ only in their lines. -/
theorem prompt_agrees_with_batch {steps : Nat}
    (hfirst : (initial sink time).run steps first = some (.ok, s))
    (hsecond : ((initial sink time).check second).1.isSome) :
    ((initial sink time).check (first ++ "\n" ++ second)).1.isSome ∧ ∃ d, ∀ n,
      ((initial sink time).stateAfter (d + n) (first ++ "\n" ++ second)).sink
          = (s.stateAfter n second).sink
        ∧ ((initial sink time).run (d + n) (first ++ "\n" ++ second)).map summary
          = (s.run n second).map summary := by
  obtain ⟨accepted, haccepted⟩ := Option.isSome_iff_exists.mp hsecond
  have hclean : Clean second 0 :=
    clean_of_check (s := initial sink time) (Prod.ext haccepted rfl)
  obtain ⟨program, program', t, b, d, hcheck, ht, hcheck', hb, program'', hlines, hmoment⟩ :=
    exists_moment hfirst hclean
  rw [joined] at hcheck'
  refine ⟨by rw [hcheck']; rfl, d, fun n => ?_⟩
  have hsame := advance_lineless hlines t.σ n
  have hadvance := Config.advance_add hmoment n
  rw [stateAfter_eq hcheck, stateAfter_eq hcheck', run_eq hcheck, run_eq hcheck', hadvance]
  exact seen_of_lineless (hb.trans ht.symm) hsame

/-- A function of the first source prints a variable that the second source assigns to. The second
source then fails, in a row on a later line than alone. -/
theorem prompt_agrees_with_batch_up_to_failure :
    let s₀ := initial .unlimited fun _ => 0
    let first := "var a = nil; fun f() { print a; }"
    let second := "a = true; f(); b;"
    ∃ s d, s₀.run 20 first = some (.ok, s) ∧ (s₀.check second).1.isSome
      ∧ (s₀.run (d + 40) (first ++ "\n" ++ second)).map summary = (s.run 40 second).map summary
      ∧ ((s.run 40 second).map summary).map
          (fun r => (r.1, String.fromUTF8? r.2.1.written, r.2.2))
        = some (.runtimeError, some "true\n", ["Undefined variable 'b'."]) := by
  intro s₀ first second
  have hrun : ((s₀.run 20 first).bind fun r => if r.1 = .ok then
      ((r.2.run 40 second).map summary).map (fun r => (r.1, String.fromUTF8? r.2.1.written, r.2.2))
        else none) = some (.runtimeError, some "true\n", ["Undefined variable 'b'."]) := by
    decide +kernel
  obtain ⟨⟨status, s⟩, hfirst, hsecond⟩ := Option.bind_eq_some_iff.mp hrun
  obtain rfl : status = .ok := by
    by_contra hstatus
    simp [hstatus] at hsecond
  have haccepted : (s₀.check second).1.isSome := by
    decide +kernel
  obtain ⟨-, d, hbatch⟩ := prompt_agrees_with_batch hfirst haccepted
  exact ⟨s, d, hfirst, haccepted, (hbatch 40).2, hsecond⟩

end Session

end Lox
