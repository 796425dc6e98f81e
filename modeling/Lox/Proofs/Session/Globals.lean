import Lox.Proofs.Machine.TopLevel
import Lox.Proofs.Session.Invariant

/-!
# Global names of a session

The run of a source adds to the global names those that its top-level statements declare, as far as
these statements have completed. Blocks, calls and assignments add none, and no name is ever removed.
-/

namespace Lox

open Machine (State Config Outcome globalChain globalFrame)

/-- The names that the statements of a list declare themselves. -/
def Stmt.listDeclared (statements : List Stmt) : List String :=
  statements.filterMap fun s => s.declaredName?.map Token.lexeme

theorem Stmt.mem_listDeclared_cons {s : Stmt} {rest : List Stmt} {x : String} :
    x ∈ listDeclared (s :: rest)
      ↔ s.declaredName?.map Token.lexeme = some x ∨ x ∈ listDeclared rest := by
  simp only [listDeclared, List.mem_filterMap, List.mem_cons, or_and_right, exists_or,
    exists_eq_left]

namespace Machine

variable {known : NodeId → Option Nat → Prop} {σ τ : State} {program done rest : List Stmt}
  {s : Stmt}

/-- The statement, executed at the top level, ends without a failure and leads from the first state
to the second. -/
def Completes (s : Stmt) (σ τ : State) : Prop :=
  ∃ n flow, (Config.exec s .done σ : Config .flow).advance n = .inr ⟨.ok flow, τ⟩

/-- The statement, executed at the top level, ends with a failure. -/
def Fails (s : Stmt) (σ : State) : Prop :=
  ∃ n failure τ, (Config.exec s .done σ : Config .flow).advance n = .inr ⟨.error failure, τ⟩

/-- The statements complete one after the other and lead from the first state to the second. -/
inductive CompleteInOrder : List Stmt → State → State → Prop
  | nil (σ : State) : CompleteInOrder [] σ σ
  | cons {s : Stmt} {rest : List Stmt} {σ σ' τ : State} (hs : Completes s σ σ')
      (hrest : CompleteInOrder rest σ' τ) : CompleteInOrder (s :: rest) σ τ

/-- How a program ends in which these statements are left to complete. -/
inductive Ends : List Stmt → State → Outcome .flow → Prop
  | flushed {τ : State} (h : τ.sink.refusesFlush = false) : Ends [] τ ⟨.ok .normal, τ⟩
  | notFlushed {τ : State} (h : τ.sink.refusesFlush = true) :
      Ends [] τ ⟨.error (.output .flushFailed), τ⟩
  | failed {s : Stmt} {rest : List Stmt} {τ τ' : State} {n : Nat} {failure : Failure}
      (h : (Config.exec s .done τ : Config .flow).advance n = .inr ⟨.error failure, τ'⟩) :
      Ends (s :: rest) τ ⟨.error failure, τ'.reset⟩

namespace Config

/-- A run that goes on belongs to one statement of the program, and the statements before it have
completed. -/
theorem exists_statement {n : Nat} {c c' : Config .flow}
    (h : (ofProgram program σ).advance n = .inl c) (hstep : c.step = .inl c') :
    ∃ done s rest τ d c₁, program = done ++ s :: rest ∧ CompleteInOrder done σ τ
      ∧ (exec s .done τ : Config .flow).advance d = .inl c₁
      ∧ c = c₁.onto (.push (.program rest) .done) := by
  induction program generalizing σ n with
  | nil =>
      rw [ofProgram, inProgram_nil] at h
      split at h
      · cases eq_of_end rfl h
        cases hstep
      · cases eq_of_end rfl h
        cases hstep
  | cons s rest ih =>
      cases hrun : (exec s .done σ : Config .flow).advance n with
      | inl c₁ =>
          have honto : (ofProgram (s :: rest) σ).advance n
              = .inl (c₁.onto (.push (.program rest) .done)) := advance_onto hrun
          rw [honto] at h
          exact ⟨[], s, rest, σ, n, c₁, rfl, .nil σ, hrun, (Sum.inl.inj h).symm⟩
      | inr o =>
          obtain ⟨d, c₁, hd, hinside, hend⟩ := exists_end hrun
          obtain ⟨k, rfl⟩ := Nat.exists_eq_add_of_le hd
          have hfirst := advance_statement hinside hend rest
          obtain ⟨result, σ₁⟩ := o
          cases result with
          | error failure =>
              rw [advance_add hfirst] at h
              cases eq_of_end rfl h
              cases hstep
          | ok flow =>
              rw [advance_add hfirst] at h
              obtain ⟨done, s', rest', τ, d', c₂, rfl, hdone, hrun', hc⟩ := ih h
              exact ⟨s :: done, s', rest', τ, d', c₂, rfl, .cons ⟨_, flow, hrun⟩ hdone, hrun', hc⟩

/-- A program ends behind its last statement, or with the first statement that fails. -/
theorem exists_completed {n : Nat} {o : Outcome .flow}
    (h : (ofProgram program σ).advance n = .inr o) :
    ∃ done rest τ, program = done ++ rest ∧ CompleteInOrder done σ τ ∧ Ends rest τ o := by
  induction program generalizing σ n with
  | nil =>
      refine ⟨[], [], σ, rfl, .nil σ, ?_⟩
      rw [ofProgram, inProgram_nil] at h
      split at h
      · next hflush =>
        cases outcome_eq_of_end rfl h
        exact .notFlushed hflush
      · next hflush =>
        cases outcome_eq_of_end rfl h
        exact .flushed (Bool.eq_false_iff.mpr hflush)
  | cons s rest ih =>
      obtain ⟨d, k, c, ⟨result, σ₁⟩, rfl, hrun, hend⟩ := exists_statement_end h
      have hstatement : (exec s .done σ : Config .flow).advance (d + 1) = .inr ⟨result, σ₁⟩ :=
        advance_succ_of_end hrun hend
      have hfirst := advance_statement hrun hend rest
      cases result with
      | error failure =>
          rw [advance_add hfirst] at h
          cases outcome_eq_of_end rfl h
          exact ⟨[], s :: rest, σ, rfl, .nil σ, .failed hstatement⟩
      | ok flow =>
          rw [advance_add hfirst] at h
          obtain ⟨done, rest', τ, rfl, hdone, hends⟩ := ih h
          exact ⟨s :: done, rest', τ, rfl, .cons ⟨_, flow, hstatement⟩ hdone, hends⟩

/-! ## Names of the global frame -/

/-- A statement at the top level starts as one that is to bind the names that it declares. -/
theorem accounts_exec (s : Stmt) (σ : State) :
    (exec s .done σ : Config .flow).Accounts (fun x => σ.frames.binds globalFrame x = true)
      (Resolution.declaredNames s) :=
  .inl ⟨.exec (.whole rfl), fun _ => Iff.rfl⟩

theorem scoped_exec (hσ : σ.Scoped known) (hchain : σ.chain = globalChain)
    (hs : s.WellScoped known []) : (exec s .done σ : Config .flow).Scoped known := by
  have hat : σ.At known (.settled []) := ⟨hσ, hchain ▸ ⟨.global, trivial, nofun⟩⟩
  refine .exec hat hs ?_
  rw [Resolution.after_nil, hchain]
  exact .done

end Config

/-- A statement that completes has added the name that it declares to the global ones. -/
theorem Completes.globals (h : Completes s σ τ) (hσ : σ.Scoped known)
    (hchain : σ.chain = globalChain) (hs : s.WellScoped known []) :
    τ.Scoped known ∧ τ.chain = globalChain ∧ ∀ x, τ.frames.binds globalFrame x = true
      ↔ σ.frames.binds globalFrame x = true ∨ s.declaredName?.map Token.lexeme = some x := by
  obtain ⟨n, flow, hrun⟩ := h
  have hscoped := Config.scoped_exec hσ hchain hs
  have hend := hscoped.advance n
  have hglobals := (Config.accounts_exec s σ).advance hscoped n
  rw [hrun] at hend hglobals
  refine ⟨hend.sound, hend.chain_eq, fun x => ?_⟩
  rw [hglobals x, hs.declaredNames_eq]
  cases s.declaredName? <;> simp [eq_comm (a := x)]

/-- Statements that complete one after the other have added the names that they declare to the
global ones. -/
theorem CompleteInOrder.globals (h : CompleteInOrder done σ τ) (hσ : σ.Scoped known)
    (hchain : σ.chain = globalChain) (hdone : ∀ s ∈ done, s.WellScoped known []) :
    τ.Scoped known ∧ τ.chain = globalChain ∧ ∀ x, τ.frames.binds globalFrame x = true
      ↔ σ.frames.binds globalFrame x = true ∨ x ∈ Stmt.listDeclared done := by
  induction h with
  | nil σ => exact ⟨hσ, hchain, by simp [Stmt.listDeclared]⟩
  | @cons s rest σ σ' τ hs hrest ih =>
      rw [List.forall_mem_cons] at hdone
      obtain ⟨hσ', hchain', hfirst⟩ := hs.globals hσ hchain hdone.1
      obtain ⟨hτ, hchainτ, hrest⟩ := ih hσ' hchain' hdone.2
      refine ⟨hτ, hchainτ, fun x => ?_⟩
      rw [hrest, hfirst, Stmt.mem_listDeclared_cons, or_assoc]

/-- A statement that fails has not changed the global names, and nothing is added behind the last
statement. -/
theorem Ends.globals {o : Outcome .flow} (h : Ends rest τ o) (hτ : τ.Scoped known)
    (hchain : τ.chain = globalChain) (hrest : ∀ s ∈ rest, s.WellScoped known []) (x : String) :
    o.σ.frames.binds globalFrame x = true ↔ τ.frames.binds globalFrame x = true := by
  cases h with
  | flushed h => rfl
  | notFlushed h => rfl
  | @failed s rest _ τ' n failure hrun =>
      have hscoped := Config.scoped_exec hτ hchain (hrest s (.head _))
      have hglobals := (Config.accounts_exec s τ).advance hscoped n
      rw [hrun] at hglobals
      exact (hglobals x).trans (by simp)

namespace Config

/-! ## Steps of a program -/

/-- Below a statement, a program waits. -/
theorem declaring?_onto {inner final : Answer} {base : Stack final inner} {c : Config inner}
    {name : Token} {stack : Stack inner .flow} (h : c.declaring? = some (name, stack)) :
    (c.onto base).declaring? = some (name, stack.onto base) := by
  unfold declaring? at h
  split at h <;> cases h <;> rfl

/-- The step with which a statement of a program ends leaves the names of all frames as they are. -/
theorem globals_step_of_end {c : Config .flow} {c' : Config .flow} {o : Outcome .flow}
    (hend : c.step = .inr o) (hstep : (c.onto (.push (.program rest) .done)).step = .inl c')
    (x : String) : c'.globals x ↔ c.globals x := by
  obtain ⟨result, σ⟩ := o
  obtain rfl := step_eq_inr_iff.mp hend
  rw [onto_of_end hend] at hstep
  cases result with
  | ok flow =>
      cases hstep
      change (inProgram rest .done σ).state.frames.binds globalFrame x = true ↔ _
      rw [frames_inProgram]
      rfl
  | error failure =>
      cases hstep
      rfl

theorem state_onto {inner final : Answer} {base : Stack final inner} (c : Config inner) :
    (c.onto base).state = c.state := by
  cases c <;> rfl

end Config

end Machine

namespace Session

open Machine (CompleteInOrder Fails Ends)

variable {s s' : Session} {source : String} {program : List Stmt}

theorem mem_wellScoped {known : NodeId → Option Nat → Prop}
    (h : Stmt.ListWellScoped known [] program) : ∀ st ∈ program, st.WellScoped known [] := by
  induction program with
  | nil => nofun
  | cons st rest ih =>
      simp only [Stmt.ListWellScoped, Resolution.after_nil] at h
      exact List.forall_mem_cons.mpr ⟨h.1, ih h.2⟩

/-- A step of the run of an accepted source changes the global names only if it completes a
declaration that is itself a statement of the source, and then it adds the name declared. -/
theorem globals_step (hs : s.Reachable) (hcheck : s.check source = (some program, s')) {n : Nat}
    {c c' : Config .flow} (hc : (Config.ofProgram program s'.σ).advance n = .inl c)
    (hstep : c.step = .inl c') :
    (∀ x, c'.globals x ↔ c.globals x)
      ∨ ∃ done st rest name, program = done ++ st :: rest ∧ st.declaredName? = some name
        ∧ c.declaring? = some (name, .push (.program rest) .done)
        ∧ ∀ x, c'.globals x ↔ c.globals x ∨ x = name.lexeme := by
  obtain ⟨hs', hprogram⟩ := hs.sound.of_check hcheck
  have hscoped := mem_wellScoped hprogram
  obtain ⟨done, st, rest, τ, d, c₁, rfl, hdone, hrun, rfl⟩ := Config.exists_statement hc hstep
  have hst := hscoped st (by simp)
  obtain ⟨hτ, hchain, -⟩ := hdone.globals hs'.state hs'.chain_eq
    fun t ht => hscoped t (List.mem_append_left _ ht)
  have hstart := Config.scoped_exec hτ hchain hst
  have hinside := hstart.advance d
  have haccounts := (Config.accounts_exec st τ).advance hstart d
  rw [hrun] at hinside haccounts
  -- The statements that wait do not change what the global frame has.
  have hglobals (c : Config .flow) (x : String) :
      (c.onto (.push (.program rest) .done)).globals x ↔ c.globals x := by
    rw [Config.globals, Config.state_onto]
    rfl
  simp only [hglobals]
  cases hnext : c₁.step with
  | inr o => exact .inl (Config.globals_step_of_end hnext hstep)
  | inl c₂ =>
      rw [Config.step_onto hnext] at hstep
      obtain rfl := Sum.inl.inj hstep
      simp only [hglobals]
      rcases haccounts with ⟨hwithin, -⟩ | ⟨flow, σ, rfl, -⟩
      · rcases hwithin.globals_step hinside hnext with ⟨name, hdeclaring, hnames, -, hnew⟩ | h
        · refine .inr ⟨done, st, rest, name, rfl, ?_, Config.declaring?_onto hdeclaring, hnew⟩
          rw [hst.declaredNames_eq] at hnames
          exact Option.toList_eq_singleton_iff.mp hnames
        · exact .inl h.2
      · cases hnext

/-- What a run leaves in the global frame, given how it ends. -/
theorem globals_interpret (hs' : s'.Sound) (hprogram : Stmt.ListWellScoped s'.Known [] program)
    {steps : Nat} {status : Status} {t : Session}
    (hrun : s'.interpret steps program = some (status, t)) :
    ∃ done rest τ, program = done ++ rest ∧ CompleteInOrder done s'.σ τ
      ∧ (status = .ok ∧ rest = []
        ∨ status = .runtimeError ∧ (rest = [] ∧ τ.sink.refusesFlush = true
          ∨ ∃ st more, rest = st :: more ∧ Fails st τ))
      ∧ ∀ x, t.σ.frames.binds globalFrame x = true
        ↔ s'.σ.frames.binds globalFrame x = true ∨ x ∈ Stmt.listDeclared done := by
  obtain ⟨outcome, hadvance, hfinish, hσ, -⟩ := exists_outcome hrun
  obtain ⟨done, rest, τ, rfl, hdone, hends⟩ := Config.exists_completed hadvance
  have hscoped := mem_wellScoped hprogram
  obtain ⟨hτ, hchain, hnames⟩ := hdone.globals hs'.state hs'.chain_eq
    fun st hst => hscoped st (List.mem_append_left _ hst)
  refine ⟨done, rest, τ, rfl, hdone, ?_, fun x => ?_⟩
  · cases hends with
    | flushed h =>
        cases hfinish
        exact .inl ⟨rfl, rfl⟩
    | notFlushed h =>
        cases hfinish
        exact .inr ⟨rfl, .inl ⟨rfl, h⟩⟩
    | failed h =>
        cases hfinish
        exact .inr ⟨rfl, .inr ⟨_, _, rfl, _, _, _, h⟩⟩
  · rw [hσ, hends.globals hτ hchain fun st hst => hscoped st (List.mem_append_right _ hst)]
    exact hnames x

/-- In a session with any history, the run of an accepted source adds to the global names those that
its completed statements declare: all statements if the run ends well or only its output cannot be
flushed, and those before the first one that fails otherwise. During the run, a global name is added
only by the last step of such a declaration, and none is removed. -/
theorem global_names_after_run (hs : s.Reachable)
    (hcheck : s.check source = (some program, s')) :
    (∀ steps status t, s.run steps source = some (status, t) →
      ∃ done rest τ, program = done ++ rest ∧ CompleteInOrder done s'.σ τ
        ∧ (status = .ok ∧ rest = []
          ∨ status = .runtimeError ∧ (rest = [] ∧ τ.sink.refusesFlush = true
            ∨ ∃ st more, rest = st :: more ∧ Fails st τ))
        ∧ ∀ x, t.σ.frames.binds globalFrame x = true
          ↔ s.σ.frames.binds globalFrame x = true ∨ x ∈ Stmt.listDeclared done)
      ∧ ∀ n c c', (Config.ofProgram program s'.σ).advance n = .inl c → c.step = .inl c' →
        (∀ x, c'.globals x ↔ c.globals x)
          ∨ ∃ done st rest name, program = done ++ st :: rest ∧ st.declaredName? = some name
            ∧ c.declaring? = some (name, .push (.program rest) .done)
            ∧ ∀ x, c'.globals x ↔ c.globals x ∨ x = name.lexeme := by
  refine ⟨fun steps status t hrun => ?_, fun n c c' hc hstep => globals_step hs hcheck hc hstep⟩
  obtain ⟨hs', hprogram⟩ := hs.sound.of_check hcheck
  obtain ⟨-, -, -, hσ⟩ := check_eq_some (fun _ _ => trivial) hcheck
  have hframes : s.σ.frames = s'.σ.frames := by rw [hσ]
  unfold run at hrun
  rw [hcheck] at hrun
  rw [hframes]
  exact globals_interpret hs' hprogram hrun

/-- What is computed of two sources that are run one after the other holds of the sessions between
and after them. -/
theorem exists_runs (first source : String) (n m : Nat) {α : Type}
    (facts : Session → List Stmt → Session → α) {status : Status} {a : α}
    (h : (((initial .unlimited fun _ => 0).run n first).bind fun r =>
        (r.2.check source).1.bind fun program =>
          ((r.2.check source).2.interpret m program).map fun q => (q.1, facts r.2 program q.2))
      = some (status, a)) :
    ∃ s program t, s.Reachable ∧ s.check source = (some program, (s.check source).2)
      ∧ (s.check source).2.interpret m program = some (status, t) ∧ facts s program t = a := by
  simp only [Option.bind_eq_some_iff, Option.map_eq_some_iff, Prod.mk.injEq] at h
  obtain ⟨⟨status', s⟩, hfirst, program, hprogram, ⟨status, t⟩, hrun, rfl, hfacts⟩ := h
  exact ⟨s, program, t, .run (.initial ..) hfirst, by rw [← hprogram], hrun, hfacts⟩

/-- A run that fails leaves the names that its statements before the failure declare, and none of a
block, a loop, a function or an initializer. -/
theorem global_names_after_failed_run :
    ∃ (s s' t : Session) (program done rest : List Stmt) (st : Stmt) (τ : State), s.Reachable
      ∧ s.check ("fun g(d) { var e = d; b = e; } g(a); class K { init() { var h; } } K();"
          ++ "{ var c; fun f() {} } for (var i = a; i; i = false) b = i; n = b; var z;")
        = (some program, s')
      ∧ s'.interpret 200 program = some (.runtimeError, t)
      ∧ program = done ++ st :: rest ∧ CompleteInOrder done s'.σ τ ∧ Fails st τ
      ∧ (∀ x ∈ ["g", "K"], x ∈ Stmt.listDeclared done) ∧ "z" ∈ Stmt.listDeclared program
      ∧ (∀ x ∈ ["a", "b", "g", "K"], t.σ.frames.binds globalFrame x = true)
      ∧ ∀ x ∈ ["d", "e", "h", "c", "f", "i", "n", "z"],
        t.σ.frames.binds globalFrame x = false ∧ x ∉ Stmt.listDeclared done := by
  obtain ⟨s, program, t, hreachable, hcheck, hrun, hfacts⟩ := exists_runs "var a = true; var b;"
    ("fun g(d) { var e = d; b = e; } g(a); class K { init() { var h; } } K();"
      ++ "{ var c; fun f() {} } for (var i = a; i; i = false) b = i; n = b; var z;") 20 200
    (fun s program t => (decide ("z" ∈ Stmt.listDeclared program),
      ["g", "K"].all fun x => !s.σ.frames.binds globalFrame x,
      ["a", "b", "g", "K"].all fun x => t.σ.frames.binds globalFrame x,
      ["d", "e", "h", "c", "f", "i", "n", "z"].all fun x => !t.σ.frames.binds globalFrame x))
    (show _ = some (.runtimeError, true, true, true, true) by decide +kernel)
  simp only [Prod.mk.injEq, decide_eq_true_eq, List.all_eq_true, Bool.not_eq_true'] at hfacts
  obtain ⟨hz, hnew, hbound, hunbound⟩ := hfacts
  have hglobals := (global_names_after_run hreachable hcheck).1
  obtain ⟨done, rest, τ, hsplit, hdone, hend, hnames⟩ := hglobals 200 .runtimeError t (by
    unfold run
    rw [hcheck]
    exact hrun)
  have hnotAdded : ∀ x ∈ ["d", "e", "h", "c", "f", "i", "n", "z"],
      t.σ.frames.binds globalFrame x = false ∧ x ∉ Stmt.listDeclared done := by
    refine fun x hx => ⟨hunbound x hx, fun hmem => ?_⟩
    have hb := (hnames x).mpr (.inr hmem)
    rw [hunbound x hx] at hb
    cases hb
  obtain ⟨hok, -⟩ | ⟨-, ⟨rfl, -⟩ | ⟨st, more, rfl, hfails⟩⟩ := hend
  · cases hok
  · rw [hsplit, List.append_nil] at hz
    exact absurd hz (hnotAdded "z" (by decide)).2
  · refine ⟨s, _, t, program, done, more, st, τ, hreachable, hcheck, hrun, hsplit, hdone, hfails,
      fun x hx => ?_, hz, hbound, hnotAdded⟩
    have hsubset : x ∈ ["a", "b", "g", "K"] := List.mem_cons_of_mem _ (List.mem_cons_of_mem _ hx)
    refine ((hnames x).mp (hbound x hsubset)).resolve_left fun hb => ?_
    rw [hnew x hx] at hb
    cases hb

end Session

end Lox
