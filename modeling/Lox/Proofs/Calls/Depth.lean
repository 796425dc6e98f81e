import Lox.Proofs.Calls.Overflow
import Lox.Proofs.Machine.Declarations
import Lox.Proofs.Machine.Growth
import Lox.Proofs.Relabelling.Runs

/-!
# Execution restores the interpreter

Blocks, calls and class declarations change the environment and the depth of calls for a while. The
tasks that are pending say what is to be restored, and each of them restores it alike on the way of an
answer and on the way of a failure. So whatever is executed, in whatever state, and however it ends,
the environment and the depth are in the end as they were.
-/

namespace Lox.Machine

variable {final : Answer} {σ₀ σ σ' : State}

/-- The calls that a task ends. -/
def Pending.bodies {a b : Answer} : Pending a b → Nat
  | .body _ _ => 1
  | _ => 0

/-- The bodies of functions that were entered and not yet left. -/
def Stack.bodies : {a : Answer} → Stack final a → Nat
  | _, .done => 0
  | _, .push task below => below.bodies + task.bodies

def Config.bodies : Config final → Nat
  | .eval _ stack _ => stack.bodies
  | .exec _ stack _ => stack.bodies
  | .answer _ stack _ => stack.bodies
  | .fail _ stack _ => stack.bodies

/-- A task that belongs to the execution of a statement or an expression. The end of a program starts
again from the top level instead. -/
def Pending.BelongsIn (σ : State) {a b : Answer} : Pending a b → Prop
  | .program _ => False
  | .body _ _ => 0 < σ.depth
  | _ => True

/-- To leave all tasks of the stack restores the environment and the depth of the first state. -/
inductive Stack.Restores (σ₀ : State) : {a : Answer} → Stack final a → State → Prop
  | done {σ : State} (hchain : σ.chain = σ₀.chain) (hdepth : σ.depth = σ₀.depth) :
      Restores σ₀ .done σ
  | push {a b : Answer} {task : Pending a b} {below : Stack final b} {σ : State}
      (htask : task.BelongsIn σ) (hbelow : Restores σ₀ below (task.leave σ)) :
      Restores σ₀ (.push task below) σ

theorem Pending.leave_congr {a b : Answer} (task : Pending a b) (hchain : σ'.chain = σ.chain)
    (hdepth : σ'.depth = σ.depth) :
    (task.leave σ').chain = (task.leave σ).chain ∧ (task.leave σ').depth = (task.leave σ).depth := by
  cases task with
  | block rest outer => exact ⟨rfl, hdepth⟩
  | body f paren => exact ⟨hchain, congrArg (· - 1) hdepth⟩
  | program rest => exact ⟨rfl, rfl⟩
  | _ => exact ⟨hchain, hdepth⟩

theorem Pending.BelongsIn.congr {a b : Answer} {task : Pending a b} (h : task.BelongsIn σ)
    (hdepth : σ'.depth = σ.depth) : task.BelongsIn σ' := by
  cases task with
  | program rest => exact h
  | body f paren =>
      change 0 < σ'.depth
      rwa [hdepth]
  | _ => trivial

/-- Only the environment and the depth count. -/
theorem Stack.Restores.congr {a : Answer} {stack : Stack final a} (h : stack.Restores σ₀ σ)
    (hchain : σ'.chain = σ.chain) (hdepth : σ'.depth = σ.depth) : stack.Restores σ₀ σ' := by
  induction h generalizing σ' with
  | done hchain₀ hdepth₀ => exact .done (hchain.trans hchain₀) (hdepth.trans hdepth₀)
  | @push a b task below σ htask hbelow ih =>
      obtain ⟨hchain', hdepth'⟩ := task.leave_congr hchain hdepth
      exact .push (htask.congr hdepth) (ih hchain' hdepth')

/-- The depth counts the bodies that were entered and not yet left. -/
theorem Stack.Restores.depth_eq {a : Answer} {stack : Stack final a} (h : stack.Restores σ₀ σ) :
    σ.depth = σ₀.depth + stack.bodies := by
  induction h with
  | done hchain hdepth => exact hdepth
  | @push a b task below σ htask hbelow ih =>
      have hleave : (task.leave σ).depth + task.bodies = σ.depth := by
        cases task with
        | program rest => exact htask.elim
        | body f paren => exact Nat.sub_add_cancel htask
        | _ => rfl
      rw [Stack.bodies, ← hleave, ih, Nat.add_assoc]

/-- The depth is allowed, and to leave all pending tasks restores the first state. -/
structure RestoresAt (σ₀ : State) {a : Answer} (stack : Stack final a) (σ : State) : Prop where
  depth_le : σ.depth ≤ maxDepth
  stack : stack.Restores σ₀ σ

/-- The moment is one from which the environment and the depth of the first state are restored. -/
def Config.Restores (σ₀ : State) : Config final → Prop
  | .eval _ stack σ => RestoresAt σ₀ stack σ
  | .exec _ stack σ => RestoresAt σ₀ stack σ
  | .answer _ stack σ => RestoresAt σ₀ stack σ
  | .fail _ stack σ => RestoresAt σ₀ stack σ

namespace RestoresAt

variable {a b : Answer} {stack : Stack final a}

theorem congr (h : RestoresAt σ₀ stack σ) (hchain : σ'.chain = σ.chain)
    (hdepth : σ'.depth = σ.depth) : RestoresAt σ₀ stack σ' :=
  ⟨hdepth ▸ h.depth_le, h.stack.congr hchain hdepth⟩

/-- The name is bound, if at all, in the current environment, which stays the same. -/
theorem define (h : RestoresAt σ₀ stack σ) (x : String) (v : Value) :
    RestoresAt σ₀ stack (σ.define x v) := by
  unfold State.define
  split
  · exact h
  · exact h.congr rfl rfl

theorem makeMethods (h : RestoresAt σ₀ stack σ) (methods : List FunctionDecl) :
    RestoresAt σ₀ stack (σ.makeMethods methods).2 := by
  obtain ⟨n, hn⟩ := σ.makeMethods_eq methods
  rw [hn]
  exact h.congr rfl rfl

/-- The environment of the methods is left again. -/
theorem makeClass (h : RestoresAt σ₀ stack σ) (name : String) (superclass : Option Class)
    (methods : List FunctionDecl) : RestoresAt σ₀ stack (σ.makeClass name superclass methods).2 := by
  refine h.congr (σ.keepsNames_makeClass name superclass methods).2 ?_
  cases superclass with
  | none =>
      obtain ⟨n, hn⟩ := σ.makeMethods_eq methods
      simp only [State.makeClass, hn]
      rfl
  | some c =>
      obtain ⟨n, hn⟩ := (σ.enter [("super", .cls c)] σ.chain).makeMethods_eq methods
      simp only [State.makeClass, hn]
      rfl

end RestoresAt

namespace Config

variable {stack : Stack final .value}

/-! ## Steps -/

theorem restores_ofExcept {a : Answer} {stack : Stack final a} (h : RestoresAt σ₀ stack σ)
    (result : Except Failure a.Carrier) : (ofExcept stack σ result).Restores σ₀ := by
  cases result <;> exact h

/-- A block is left for the environment that the pending tasks expect. -/
theorem restores_inBlock {stack : Stack final .flow} (outer : Chain)
    (h : RestoresAt σ₀ stack (σ.within outer)) (body : List Stmt) :
    (inBlock body outer stack σ).Restores σ₀ := by
  cases body with
  | nil => exact h
  | cons s rest => exact ⟨h.depth_le, .push trivial h.stack⟩

/-- The call is counted when its body is entered, and a body is entered only below the limit. -/
theorem restores_callFunction (h : RestoresAt σ₀ stack σ) (f : Closure) (paren : Token)
    (arguments : List Value) : (callFunction f paren arguments stack σ).Restores σ₀ := by
  unfold callFunction
  split
  · exact h
  · next hlt =>
    let pushed : Stack final .flow := .push (.body f paren) stack
    refine restores_inBlock σ.chain (?_ : RestoresAt σ₀ pushed _) f.decl.body
    exact ⟨Nat.lt_of_not_le hlt, .push (Nat.succ_pos _) (h.stack.congr rfl rfl)⟩

theorem restores_callClass (h : RestoresAt σ₀ stack σ) (c : Class) (paren : Token)
    (arguments : List Value) : (callClass c paren arguments stack σ).Restores σ₀ := by
  unfold callClass
  dsimp only
  split
  · exact h.congr rfl rfl
  · let pushed : Stack final .value := .push (.construct σ.objects.size) stack
    refine restores_callFunction (?_ : RestoresAt σ₀ pushed _) _ _ _
    exact ⟨h.depth_le, .push trivial (h.stack.congr rfl rfl)⟩

theorem restores_call (h : RestoresAt σ₀ stack σ) (callee : Value) (paren : Token)
    (arguments : List Value) : (call callee paren arguments stack σ).Restores σ₀ := by
  rcases call_cases callee paren arguments stack σ with
    ⟨fault, -, heq⟩ | ⟨f, -, heq⟩ | ⟨f, -, -, heq⟩ | ⟨c, -, -, heq⟩ <;> rw [heq]
  · exact h
  · cases f
    exact h.congr rfl rfl
  · exact restores_callFunction h f paren arguments
  · exact restores_callClass h c paren arguments

theorem restores_callWith (h : RestoresAt σ₀ stack σ) (callee : Value) (paren : Token)
    (done : List Value) (rest : List Expr) :
    (callWith callee paren done rest stack σ).Restores σ₀ := by
  cases rest with
  | nil => exact restores_call h callee paren done.reverse
  | cons e rest => exact ⟨h.depth_le, .push trivial h.stack⟩

theorem restores_endCall {f : Closure} {paren : Token}
    (h : RestoresAt σ₀ (.push (.body f paren) stack) σ) (flow : Flow) :
    (endCall f paren flow stack σ).Restores σ₀ := by
  obtain ⟨hdepth, hstack⟩ := h
  cases hstack with
  | push _ hbelow =>
      have hleft : RestoresAt σ₀ stack { σ with depth := σ.depth - 1 } :=
        ⟨Nat.le_trans (Nat.sub_le _ _) hdepth, hbelow⟩
      unfold endCall
      dsimp only
      split
      · split <;> exact hleft
      · cases flow <;> exact hleft

theorem restores_declareClass {stack : Stack final .flow} (h : RestoresAt σ₀ stack σ)
    (name : Token) (superclass : Option Class) (methods : List FunctionDecl) :
    (declareClass name superclass methods stack σ).Restores σ₀ := by
  have hmade := (h.define name.lexeme .nil).makeClass name.lexeme superclass methods
  unfold declareClass
  dsimp only
  split
  · exact hmade.congr rfl rfl
  · exact hmade

theorem restores_readVariable (h : RestoresAt σ₀ stack σ) (id : NodeId) (name : Token) :
    (readVariable id name stack σ).Restores σ₀ := by
  unfold readVariable
  split <;> exact h

theorem restores_evalStep (h : RestoresAt σ₀ stack σ) (e : Expr) :
    (evalStep e stack σ).Restores σ₀ := by
  have hpush {task : Pending .value .value} (htask : task.BelongsIn σ) (hleave : task.leave σ = σ) :
      RestoresAt σ₀ (.push task stack) σ :=
    ⟨h.depth_le, .push htask (by rw [hleave]; exact h.stack)⟩
  cases e with
  | var id name => exact restores_readVariable h id name
  | this id keyword => exact restores_readVariable h id keyword
  | super id keyword method =>
      rw [evalStep, readSuper]
      split
      · exact h.congr rfl rfl
      · exact h
  | literal literal => exact h
  | group inner => exact h
  | _ => exact hpush trivial rfl

theorem restores_execStep {stack : Stack final .flow} (h : RestoresAt σ₀ stack σ) (s : Stmt) :
    (execStep s stack σ).Restores σ₀ := by
  have hpush {task : Pending .value .flow} (htask : task.BelongsIn σ) (hleave : task.leave σ = σ) :
      RestoresAt σ₀ (.push task stack) σ :=
    ⟨h.depth_le, .push htask (by rw [hleave]; exact h.stack)⟩
  cases s with
  | var name initializer =>
      cases initializer with
      | none => exact h.define name.lexeme .nil
      | some e => exact hpush trivial rfl
  | block body =>
      exact restores_inBlock (σ := σ.enter [] σ.chain) σ.chain (h.congr rfl rfl) body
  | function decl =>
      have hused : RestoresAt σ₀ stack σ.useIdentity := h.congr rfl rfl
      exact hused.define _ _
  | ret keyword value =>
      cases value with
      | none => exact h
      | some e => exact hpush trivial rfl
  | classDecl name superclass methods =>
      cases superclass with
      | none => exact restores_declareClass h name none methods
      | some e => exact hpush trivial rfl
  | _ => exact hpush trivial rfl

theorem restores_resumeValue {b : Answer} {task : Pending .value b} {stack : Stack final b}
    (h : RestoresAt σ₀ stack σ) (v : Value) : (resumeValue v task stack σ).Restores σ₀ := by
  cases task with
  | print =>
      rw [resumeValue_print]
      split <;> exact h.congr rfl rfl
  | define name => exact h.define name.lexeme v
  | branch t e =>
      rw [resumeValue_branch]
      split
      · exact h
      · cases e <;> exact h
  | loopTest c body =>
      rw [resumeValue_loopTest]
      split
      · exact ⟨h.depth_le, .push trivial h.stack⟩
      · exact h
  | superclass name blame methods =>
      cases v with
      | cls c => exact restores_declareClass h name (some c) methods
      | _ => exact h
  | unary operator => exact restores_ofExcept (a := .value) h _
  | binaryLeft operator right => exact ⟨h.depth_le, .push trivial h.stack⟩
  | binaryRight left operator => exact restores_ofExcept (a := .value) h _
  | logical operator right =>
      rw [resumeValue_logical]
      split <;> exact h
  | conditional t e =>
      rw [resumeValue_conditional]
      split <;> exact h
  | assign id name =>
      rw [resumeValue, assignVariable]
      split
      · exact h.congr rfl rfl
      · exact h
  | callee paren arguments => exact restores_callWith h v paren [] arguments
  | argument callee paren done rest => exact restores_callWith h callee paren (v :: done) rest
  | get name =>
      cases v with
      | object object =>
          rw [resumeValue, readProperty]
          split
          · exact h
          · exact h.congr rfl rfl
          · exact h
      | _ => exact h
  | setObject name value =>
      cases v with
      | object object => exact ⟨h.depth_le, .push trivial h.stack⟩
      | _ => exact h
  | setField object name => exact h.congr rfl rfl
  | _ => exact h

theorem restores_resumeFlow {b : Answer} {task : Pending .flow b} {stack : Stack final b}
    (h : RestoresAt σ₀ (.push task stack) σ) (flow : Flow) :
    (resumeFlow flow task stack σ).Restores σ₀ := by
  obtain ⟨hdepth, hstack⟩ := h
  cases hstack with
  | push htask hbelow =>
      cases task with
      | loopBody c body =>
          cases flow with
          | normal => exact ⟨hdepth, .push trivial hbelow⟩
          | returned v => exact ⟨hdepth, hbelow⟩
      | block rest outer =>
          cases flow with
          | normal => exact restores_inBlock outer ⟨hdepth, hbelow⟩ rest
          | returned v => exact ⟨hdepth, hbelow⟩
      | body f paren => exact restores_endCall ⟨hdepth, .push htask hbelow⟩ flow
      | program rest => exact htask.elim

/-- Every step leads to a moment from which the first state is restored. -/
theorem Restores.step {c c' : Config final} (hc : c.Restores σ₀) (h : c.step = .inl c') :
    c'.Restores σ₀ := by
  cases steps_of_step h with
  | eval e stack σ => exact restores_evalStep hc e
  | exec s stack σ => exact restores_execStep hc s
  | value v task below σ =>
      obtain ⟨hdepth, hstack⟩ := hc
      cases hstack with
      | push htask hbelow =>
          have hleave : task.leave σ = σ := by cases task <;> rfl
          rw [hleave] at hbelow
          exact restores_resumeValue ⟨hdepth, hbelow⟩ v
  | flow flow task below σ => exact restores_resumeFlow hc flow
  | leave failure task below σ =>
      obtain ⟨hdepth, hstack⟩ := hc
      cases hstack with
      | push htask hbelow =>
          refine ⟨Nat.le_trans ?_ hdepth, hbelow⟩
          cases task with
          | body f paren => exact Nat.sub_le _ _
          | program rest => exact htask.elim
          | _ => exact Nat.le_refl _

theorem Restores.end {c : Config final} {o : Outcome final} (hc : c.Restores σ₀)
    (h : c.step = .inr o) : o.σ.chain = σ₀.chain ∧ o.σ.depth = σ₀.depth := by
  obtain ⟨result, σ⟩ := o
  rw [step_eq_inr_iff.mp h] at hc
  have hdone : RestoresAt σ₀ (.done : Stack final final) σ := by cases result <;> exact hc
  cases hdone.stack with
  | done hchain hdepth => exact ⟨hchain, hdepth⟩

/-! ## Runs -/

theorem Restores.advance {c c' : Config final} {n : Nat} (hc : c.Restores σ₀)
    (h : c.advance n = .inl c') : c'.Restores σ₀ := by
  exact holds_of_advance (P := fun _ d => d.Restores σ₀) hc (fun _ hd hstep => hd.step hstep) h

theorem Restores.depth_eq {c : Config final} (hc : c.Restores σ₀) :
    c.state.depth = σ₀.depth + c.bodies := by
  cases c <;> exact (RestoresAt.stack hc).depth_eq

theorem Restores.depth_le {c : Config final} (hc : c.Restores σ₀) : c.state.depth ≤ maxDepth := by
  cases c <;> exact RestoresAt.depth_le hc

/-- The execution of a statement, of the statements of a block in an environment of its own, or of an
expression, which begins in the state. -/
inductive Executes (σ : State) : {final : Answer} → Config final → Prop
  | statement (s : Stmt) : Executes σ (.exec s .done σ : Config .flow)
  | block (body : List Stmt) (inner : Chain) :
      Executes σ (.inBlock body σ.chain .done (σ.within inner) : Config .flow)
  | expression (e : Expr) : Executes σ (.eval e .done σ : Config .value)

theorem Executes.restores {start : Config final} (h : start.Executes σ)
    (hdepth : σ.depth ≤ maxDepth) : start.Restores σ := by
  have hdone {a : Answer} : RestoresAt σ (.done : Stack a a) σ := ⟨hdepth, .done rfl rfl⟩
  cases h with
  | statement s => exact hdone
  | block body inner => exact restores_inBlock (σ := σ.within inner) σ.chain hdone body
  | expression e => exact hdone

theorem Executes.distances_eq {start : Config final} (h : start.Executes σ) :
    start.state.distances = σ.distances := by
  cases h with
  | statement s => rfl
  | block body inner => cases body <;> rfl
  | expression e => rfl

theorem Executes.frames_eq {start : Config final} (h : start.Executes σ) :
    start.state.frames = σ.frames := by
  cases h with
  | statement s => rfl
  | block body inner => exact frames_inBlock body σ.chain .done
  | expression e => rfl

/-- Whatever is executed in whatever state with an allowed depth, and however it ends: the environment,
the depth and the table of distances are in the end as they were, and the global frame is still there
with all its names. At every moment in between, the depth is what it was at the beginning and the
number of bodies that were entered and not yet left; it never exceeds the limit; and the next step
overflows exactly when it calls a value that runs a body, with the number of arguments that it takes,
while the depth is at the limit. -/
theorem execution_restores {start : Config final} (hstart : start.Executes σ)
    (hdepth : σ.depth ≤ maxDepth) :
    (∀ (n : Nat) (o : Outcome final), start.advance n = .inr o →
        o.σ.chain = σ.chain ∧ o.σ.depth = σ.depth ∧ o.σ.distances = σ.distances
          ∧ ∀ x, σ.frames.binds globalFrame x = true → o.σ.frames.binds globalFrame x = true)
      ∧ ∀ (n : Nat) (c : Config final), start.advance n = .inl c →
        c.state.depth = σ.depth + c.bodies ∧ c.state.depth ≤ maxDepth
          ∧ ∀ c', ¬ c.Overflows → c.step = .inl c' →
            (c'.Overflows ↔ ∃ k : Call final, c.calling? = some k ∧ k.Suits
              ∧ runsBody k.callee = true ∧ c.state.depth = maxDepth) := by
  have hrestores := hstart.restores hdepth
  constructor
  · intro n o ho
    obtain ⟨d, c, -, hc, hend⟩ := exists_end ho
    obtain ⟨hchain, hdepth'⟩ := (hrestores.advance hc).end hend
    have hdistances := (distances_outcome ho).trans hstart.distances_eq
    refine ⟨hchain, hdepth', hdistances, fun x hx => ?_⟩
    have hgrows := grows_of_end (W := fun _ => True) ho fun _ _ _ _ _ => trivial
    rw [← hstart.frames_eq] at hx
    exact hgrows.binds hx
  · intro n c hc
    have hnow := hrestores.advance hc
    refine ⟨hnow.depth_eq, hnow.depth_le, fun c' hover hstep => ?_⟩
    simp only [overflows_step_iff hover hstep, Nat.le_antisymm_iff, hnow.depth_le, true_and]

end Config

/-- The function `fun f() { f(); }`. -/
def endless : Closure where
  id := 0
  decl := ⟨.ofName "f" 1, [], [.expression (.call (.var 0 (.ofName "f" 1)) (.ofName ")" 1) [])]⟩
  chain := globalChain
  isInitializer := false

/-- A state in which only one more call fits, with an environment that no program has set up. -/
def nearLimit : State :=
  { State.initial .unlimited fun _ => 0 with
    frames := ⟨#[[("f", .function endless)], []]⟩
    chain := [1, 7]
    depth := 4095 }

/-- The second call of the function is refused, and everything is restored. -/
theorem endless_calls_restore :
    ∃ (o : Outcome .flow) (c c' : Config .flow),
      (Config.exec (.block endless.decl.body) .done nearLimit).advance 20 = .inr o
        ∧ (Config.exec (.block endless.decl.body) .done nearLimit).advance 8 = .inl c
        ∧ c.state.depth = 4095 + c.bodies ∧ c.step = .inl c' ∧ c'.Overflows
        ∧ o.σ.chain = [1, 7] ∧ o.σ.depth = 4095
        ∧ o.σ.frames.binds globalFrame "f" = true := by
  have hends : ((Config.exec (.block endless.decl.body) .done nearLimit).run 20).isSome = true := by
    decide +kernel
  have hcalls : (((Config.exec (.block endless.decl.body) .done nearLimit).advance 8).getLeft?.bind
      fun c => c.calling?.map fun k => (c.state.depth, arity? k.callee == some k.arguments.length
        && runsBody k.callee)) = some (4096, true) := by
    decide +kernel
  obtain ⟨o, ho⟩ := Option.isSome_iff_exists.mp hends
  obtain ⟨c, hc, hk⟩ := Option.bind_eq_some_iff.mp hcalls
  obtain ⟨k, hk, heq⟩ := Option.map_eq_some_iff.mp hk
  obtain ⟨hdepth, hsuits, hruns⟩ : c.state.depth = 4096 ∧ k.Suits ∧ runsBody k.callee = true := by
    simpa [Call.Suits] using heq
  have hadvance := Sum.getRight?_eq_some_iff.mp ho
  have hmoment := Sum.getLeft?_eq_some_iff.mp hc
  obtain ⟨hend, hmoments⟩ := Config.execution_restores (.statement (.block endless.decl.body))
    (by decide : nearLimit.depth ≤ maxDepth)
  obtain ⟨hchain, hdepth', -, hglobal⟩ := hend 20 o hadvance
  obtain ⟨hbodies, -, hover⟩ := hmoments 8 c hmoment
  have hstep := Config.step_of_calling? hk
  refine ⟨o, c, _, hadvance, hmoment, hbodies, hstep, ?_, hchain, hdepth',
    hglobal "f" (by decide +kernel)⟩
  exact (hover _ (Config.not_overflows_of_calling? hk) hstep).mpr ⟨k, hk, hsuits, hruns, hdepth⟩

end Lox.Machine
