import Lox.Proofs.Calls.Depth
import Lox.Proofs.Scope.Places

/-!
# Activations

The statements that an execution runs itself are those that it executes while no call is pending above
it. As long as none of them is a return statement, no return reaches the tasks of the activation
itself: those that are pending inside of the calls that it makes end there.
-/

namespace Lox

/-- The statements that a statement runs in its own activation. -/
def Stmt.runs : Stmt → List Stmt
  | .block body => body
  | s => s.branches

namespace Machine

variable {inner final : Answer} {σ : State} {P : Stmt → Prop}

namespace Config

/-- The statement that the next step begins, and the number of calls that it is executed in. -/
def executing? : Config final → Option (Stmt × Nat)
  | .exec s stack _ => some (s, stack.bodies)
  | _ => none

/-- The next step begins a return statement, inside of this number of calls. -/
def Returns (c : Config final) (level : Nat) : Prop :=
  ∃ keyword value, c.executing? = some (.ret keyword value, level)

end Config

theorem Stack.bodies_onto {a : Answer} (stack : Stack inner a) (base : Stack final inner) :
    (stack.onto base).bodies = stack.bodies + base.bodies := by
  induction stack with
  | done => exact (Nat.zero_add _).symm
  | push task below ih => rw [onto, bodies, bodies, ih, Nat.add_right_comm]

theorem Config.executing?_onto (c : Config inner) (base : Stack final inner) :
    (c.onto base).executing? = c.executing?.map fun (s, level) => (s, level + base.bodies) := by
  cases c with
  | exec s stack σ => exact congrArg (fun n => some (s, n)) (stack.bodies_onto base)
  | _ => rfl

/-- Only the end of a call makes a value of how control leaves a statement. -/
theorem Stack.bodies_pos {a : Answer} (stack : Stack .value a) (ha : a = .flow) :
    0 < stack.bodies := by
  induction stack with
  | done => cases ha
  | @push a b task below ih =>
      subst ha
      cases task with
      | body f paren => exact Nat.succ_pos _
      | _ => exact ih rfl

/-- The statements that the task runs have the property, and it does not return. -/
def Pending.Guarded (P : Stmt → Prop) {a b : Answer} : Pending a b → Prop
  | .branch t e => P t ∧ ∀ s, e = some s → P s
  | .loopTest _ s => P s
  | .loopBody _ s => P s
  | .block rest _ => ∀ s ∈ rest, P s
  | .program rest => ∀ s ∈ rest, P s
  | .ret => False
  | _ => True

/-- The tasks below all calls are guarded. -/
def Stack.Guarded (P : Stmt → Prop) : {a : Answer} → Stack final a → Prop
  | _, .done => True
  | _, .push task below => (below.bodies + task.bodies = 0 → task.Guarded P) ∧ below.Guarded P

/-- The answer is none of a return. -/
def AnswerNormal : (a : Answer) → a.Carrier → Prop
  | .value, _ => True
  | .flow, flow => flow = .normal

/-- What the activation itself is to run has the property, and it has not returned. -/
def Config.Guarded (P : Stmt → Prop) : Config final → Prop
  | .eval _ stack _ => stack.Guarded P
  | .exec s stack _ => (stack.bodies = 0 → P s) ∧ stack.Guarded P
  | .answer (a := a) x stack _ => (stack.bodies = 0 → AnswerNormal a x) ∧ stack.Guarded P
  | .fail _ _ _ => True

namespace Config

theorem guarded_ofExcept {stack : Stack final .value} (h : stack.Guarded P)
    (result : Except Failure Value) : (ofExcept (a := .value) stack σ result).Guarded P := by
  cases result with
  | ok v => exact ⟨fun _ => trivial, h⟩
  | error failure => trivial

theorem guarded_inBlock {stack : Stack final .flow} {body : List Stmt}
    (hbody : stack.bodies = 0 → ∀ s ∈ body, P s) (h : stack.Guarded P) (outer : Chain) :
    (inBlock body outer stack σ).Guarded P := by
  cases body with
  | nil => exact ⟨fun _ => rfl, h⟩
  | cons s rest =>
      exact ⟨fun h0 => hbody h0 s List.mem_cons_self,
        fun h0 t ht => hbody h0 t (List.mem_cons_of_mem s ht), h⟩

theorem guarded_inProgram {stack : Stack final .flow} {statements : List Stmt}
    (hs : stack.bodies = 0 → ∀ s ∈ statements, P s) (h : stack.Guarded P) :
    (inProgram statements stack σ).Guarded P := by
  cases statements with
  | nil =>
      rw [inProgram_nil]
      split
      · trivial
      · exact ⟨fun _ => rfl, h⟩
  | cons s rest =>
      exact ⟨fun h0 => hs h0 s List.mem_cons_self,
        fun h0 t ht => hs h0 t (List.mem_cons_of_mem s ht), h⟩

section Values

variable {stack : Stack final .value}

/-- The body of a function is run inside of a call. -/
theorem guarded_callFunction (h : stack.Guarded P) (f : Closure) (paren : Token)
    (arguments : List Value) : (callFunction f paren arguments stack σ).Guarded P := by
  have hcall : Stack.Guarded P (.push (.body f paren) stack) := ⟨nofun, h⟩
  unfold callFunction
  split
  · trivial
  · exact guarded_inBlock nofun hcall _

theorem guarded_call (h : stack.Guarded P) (callee : Value) (paren : Token)
    (arguments : List Value) : (call callee paren arguments stack σ).Guarded P := by
  rcases call_cases callee paren arguments stack σ with
    ⟨fault, -, heq⟩ | ⟨f, -, heq⟩ | ⟨f, -, -, heq⟩ | ⟨c, -, -, heq⟩ <;> rw [heq]
  · trivial
  · exact ⟨fun _ => trivial, h⟩
  · exact guarded_callFunction h f paren arguments
  · unfold callClass
    dsimp only
    split
    · exact ⟨fun _ => trivial, h⟩
    · have hstack : Stack.Guarded P (.push (.construct σ.objects.size) stack) :=
        ⟨fun _ => trivial, h⟩
      exact guarded_callFunction hstack _ paren arguments

theorem guarded_callWith (h : stack.Guarded P) (callee : Value) (paren : Token)
    (done : List Value) (rest : List Expr) :
    (callWith callee paren done rest stack σ).Guarded P := by
  cases rest with
  | nil => exact guarded_call h callee paren done.reverse
  | cons e rest => exact ⟨fun _ => trivial, h⟩

theorem guarded_endCall (h : stack.Guarded P) (f : Closure) (paren : Token) (flow : Flow) :
    (endCall f paren flow stack σ).Guarded P := by
  unfold endCall
  dsimp only
  split
  · split
    · exact ⟨fun _ => trivial, h⟩
    · trivial
  · cases flow <;> exact ⟨fun _ => trivial, h⟩

theorem guarded_readVariable (h : stack.Guarded P) (id : NodeId) (name : Token) :
    (readVariable id name stack σ).Guarded P := by
  unfold readVariable
  split
  · exact ⟨fun _ => trivial, h⟩
  · trivial

theorem guarded_evalStep (h : stack.Guarded P) (e : Expr) : (evalStep e stack σ).Guarded P := by
  cases e with
  | literal literal => exact ⟨fun _ => trivial, h⟩
  | group e => exact h
  | var id name => exact guarded_readVariable h id name
  | this id keyword => exact guarded_readVariable h id keyword
  | super id keyword method =>
      rw [evalStep, readSuper]
      split
      · exact ⟨fun _ => trivial, h⟩
      · trivial
  | _ => exact ⟨fun _ => trivial, h⟩

end Values

theorem guarded_declareClass {stack : Stack final .flow} (h : stack.Guarded P) (name : Token)
    (superclass : Option Class) (methods : List FunctionDecl) :
    (declareClass name superclass methods stack σ).Guarded P := by
  unfold declareClass
  dsimp only
  split
  · exact ⟨fun _ => rfl, h⟩
  · trivial

/-- A statement that is no return leaves a guarded moment. -/
theorem guarded_execStep (hP : ∀ s, P s → ∀ t ∈ s.runs, P t) {s : Stmt} {stack : Stack final .flow}
    (hs : stack.bodies = 0 → P s) (h : stack.Guarded P)
    (hret : ¬ (exec s stack σ).Returns 0) : (execStep s stack σ).Guarded P := by
  cases s with
  | var name initializer =>
      cases initializer with
      | none => exact ⟨fun _ => rfl, h⟩
      | some e => exact ⟨fun _ => trivial, h⟩
  | block body => exact guarded_inBlock (fun h0 => hP _ (hs h0)) h σ.chain
  | ifThen c t =>
      exact ⟨fun h0 => ⟨hP _ (hs h0) t (by simp [Stmt.runs, Stmt.branches]), nofun⟩, h⟩
  | ifElse c t e =>
      refine ⟨fun h0 => ⟨hP _ (hs h0) t (by simp [Stmt.runs, Stmt.branches]), ?_⟩, h⟩
      rintro s ⟨⟩
      exact hP _ (hs h0) e (by simp [Stmt.runs, Stmt.branches])
  | loop c body =>
      exact ⟨fun h0 => hP _ (hs h0) body (by simp [Stmt.runs, Stmt.branches]), h⟩
  | function decl => exact ⟨fun _ => rfl, h⟩
  | ret keyword value =>
      -- The activation itself does not return, so that this return is inside of a call.
      have hinside : stack.bodies ≠ 0 := fun h0 =>
        hret ⟨keyword, value, congrArg (fun n => some (Stmt.ret keyword value, n)) h0⟩
      cases value with
      | none => exact ⟨fun h0 => absurd h0 hinside, h⟩
      | some e => exact ⟨fun h0 => absurd h0 hinside, h⟩
  | classDecl name superclass methods =>
      cases superclass with
      | none => exact guarded_declareClass h name none methods
      | some e => exact ⟨fun _ => trivial, h⟩
  | _ => exact ⟨fun _ => trivial, h⟩

theorem guarded_resumeValue {b : Answer} {task : Pending .value b} {stack : Stack final b}
    (htask : stack.bodies + task.bodies = 0 → task.Guarded P) (h : stack.Guarded P) (v : Value) :
    (resumeValue v task stack σ).Guarded P := by
  cases task with
  | discard => exact ⟨fun _ => rfl, h⟩
  | print =>
      rw [resumeValue_print]
      split
      · exact ⟨fun _ => rfl, h⟩
      · trivial
  | define name => exact ⟨fun _ => rfl, h⟩
  | branch t e =>
      rw [resumeValue_branch]
      split
      · exact ⟨fun h0 => (htask h0).1, h⟩
      · cases e with
        | none => exact ⟨fun _ => rfl, h⟩
        | some e => exact ⟨fun h0 => (htask h0).2 e rfl, h⟩
  | loopTest c body =>
      rw [resumeValue_loopTest]
      split
      · exact ⟨htask, htask, h⟩
      · exact ⟨fun _ => rfl, h⟩
  | ret => exact ⟨fun h0 => (htask h0).elim, h⟩
  | superclass name blame methods =>
      cases v with
      | cls c => exact guarded_declareClass h name (some c) methods
      | _ => trivial
  | unary operator => exact guarded_ofExcept h _
  | binaryLeft operator right => exact ⟨fun _ => trivial, h⟩
  | binaryRight left operator => exact guarded_ofExcept h _
  | logical operator right =>
      rw [resumeValue_logical]
      split
      · exact ⟨fun _ => trivial, h⟩
      · exact h
  | conditional t e =>
      rw [resumeValue_conditional]
      split <;> exact h
  | assign id name =>
      rw [resumeValue, assignVariable]
      split
      · exact ⟨fun _ => trivial, h⟩
      · trivial
  | callee paren arguments => exact guarded_callWith h v paren [] arguments
  | argument callee paren done rest => exact guarded_callWith h callee paren (v :: done) rest
  | get name =>
      cases v with
      | object object =>
          rw [resumeValue, readProperty]
          split
          · exact ⟨fun _ => trivial, h⟩
          · exact ⟨fun _ => trivial, h⟩
          · trivial
      | _ => trivial
  | setObject name value =>
      cases v with
      | object object => exact ⟨fun _ => trivial, h⟩
      | _ => trivial
  | setField object name => exact ⟨fun _ => trivial, h⟩
  | construct object => exact ⟨fun _ => trivial, h⟩

theorem guarded_resumeFlow {b : Answer} {task : Pending .flow b} {stack : Stack final b}
    {flow : Flow} (hflow : stack.bodies + task.bodies = 0 → flow = .normal)
    (htask : stack.bodies + task.bodies = 0 → task.Guarded P) (h : stack.Guarded P) :
    (resumeFlow flow task stack σ).Guarded P := by
  cases task with
  | loopBody c body =>
      cases flow with
      | normal => exact ⟨htask, h⟩
      | returned v => exact ⟨hflow, h⟩
  | block rest outer =>
      cases flow with
      | normal => exact guarded_inBlock htask h outer
      | returned v => exact ⟨hflow, h⟩
  | body f paren => exact guarded_endCall h f paren flow
  | program rest => exact guarded_inProgram htask h

/-- A step that begins no return statement of the activation itself leads from a guarded moment to a
guarded one. -/
theorem Guarded.step (hP : ∀ s, P s → ∀ t ∈ s.runs, P t) {c c' : Config final} (hc : c.Guarded P)
    (hret : ¬ c.Returns 0) (h : c.step = .inl c') : c'.Guarded P := by
  cases steps_of_step h with
  | eval e stack σ => exact guarded_evalStep hc e
  | exec s stack σ => exact guarded_execStep hP hc.1 hc.2 hret
  | value v task below σ => exact guarded_resumeValue hc.2.1 hc.2.2 v
  | flow flow task below σ => exact guarded_resumeFlow hc.1 hc.2.1 hc.2.2
  | leave failure task below σ => trivial

/-- A run stays guarded as long as the activation itself begins no return statement. -/
theorem Guarded.advance (hP : ∀ s, P s → ∀ t ∈ s.runs, P t) {c c' : Config final} {n : Nat}
    (hc : c.Guarded P)
    (hret : ∀ k d, k < n → c.advance k = .inl d → d.Guarded P → ¬ d.Returns 0)
    (h : c.advance n = .inl c') : c'.Guarded P := by
  refine holds_of_advance (P := fun k d => k ≤ n → d.Guarded P) (fun _ => hc) ?_ h (Nat.le_refl n)
  intro k d d' hd hguarded hstep hk
  have hd' := hguarded (Nat.le_of_succ_le hk)
  exact hd'.step hP (hret k d hk hd hd') hstep

/-- An execution that stays guarded does not end with a return. -/
theorem Guarded.normal_of_end {c : Config .flow} {flow : Flow} {τ : State} (hc : c.Guarded P)
    (h : c.step = .inr ⟨.ok flow, τ⟩) : flow = .normal := by
  rw [step_eq_inr_iff.mp h] at hc
  exact hc.1 rfl

end Config

end Machine

end Lox
