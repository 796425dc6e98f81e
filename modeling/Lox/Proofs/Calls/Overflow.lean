import Lox.Proofs.Machine.Contexts

/-!
# Calls and their refusal

The steps at which a value is called, and those of them that are refused because calls are nested
too deeply. Nothing but a call shows this fault.
-/

namespace Lox.Machine

variable {final : Answer} {σ : State}

/-- A call that is about to be made, and what waits for its value. -/
structure Call (final : Answer) where
  callee : Value
  paren : Token
  arguments : List Value
  stack : Stack final .value

/-- The call by itself, from its beginning to its value. -/
def Call.start (k : Call final) (σ : State) : Config .value :=
  .call k.callee k.paren k.arguments .done σ

/-- The number of arguments is what the callee takes. -/
def Call.Suits (k : Call final) : Prop :=
  arity? k.callee = some k.arguments.length

/-- The value runs statements when it is called: a function does, and so does a class that has an
initializer. -/
def runsBody : Value → Bool
  | .function _ => true
  | .cls c => (c.findMethod? initializerName).isSome
  | _ => false

namespace Config

/-- The call that the next step makes: all of its arguments are evaluated. -/
def calling? : Config final → Option (Call final)
  | .answer (a := .value) v (.push (.callee paren []) stack) _ => some ⟨v, paren, [], stack⟩
  | .answer (a := .value) v (.push (.argument callee paren done []) stack) _ =>
      some ⟨callee, paren, (v :: done).reverse, stack⟩
  | _ => none

variable {c c' : Config final} {k : Call final}

theorem step_of_calling? (h : c.calling? = some k) :
    c.step = .inl (call k.callee k.paren k.arguments k.stack c.state) := by
  unfold calling? at h
  split at h <;> cases h <;> rfl

/-- A call goes through the moments of the call by itself, on top of what waits for its value. -/
theorem step_of_calling?_onto (h : c.calling? = some k) :
    c.step = .inl ((k.start c.state).onto k.stack) := by
  rw [step_of_calling? h, Call.start, onto_call]
  rfl

end Config

theorem append_ne {start rest text : String} (h : ¬ start.toList <+: text.toList) :
    start ++ rest ≠ text := by
  rintro rfl
  exact h (by simp)

/-- No other fault has the wording of a stack overflow. -/
theorem Fault.message_ne {fault : Fault} (h : fault ≠ .stackOverflow) :
    fault.message ≠ "Stack overflow." := by
  cases fault with
  | stackOverflow => exact absurd rfl h
  | undefinedVariable name =>
      change "Undefined variable '" ++ name ++ "'." ≠ _
      rw [String.append_assoc]
      exact append_ne (by decide +kernel)
  | undefinedProperty name =>
      change "Undefined property '" ++ name ++ "'." ≠ _
      rw [String.append_assoc]
      exact append_ne (by decide +kernel)
  | wrongArity expected got =>
      change "Expected " ++ Nat.repr expected ++ " arguments but got " ++ Nat.repr got ++ "." ≠ _
      simp only [String.append_assoc]
      exact append_ne (by decide +kernel)
  | _ => decide

theorem Failure.message_ne {fault : Fault} (h : fault ≠ .stackOverflow) (token : Token) :
    (Failure.atToken fault token).message ≠ "Stack overflow." :=
  Fault.message_ne h

def Config.Overflows : Config final → Prop
  | .fail failure _ _ => failure.message = "Stack overflow."
  | _ => False

theorem Config.not_overflows_of_calling? {c : Config final} {k : Call final}
    (h : c.calling? = some k) : ¬ c.Overflows := by
  unfold calling? at h
  split at h <;> first | exact id | cases h

theorem message_of_applyUnary {operator : Token} {v : Value} {failure : Failure}
    (h : applyUnary operator v = .error failure) : failure.message ≠ "Stack overflow." := by
  unfold applyUnary at h
  split at h
  · split at h <;> cases h
    exact Failure.message_ne (by nofun) _
  · cases h
  · cases h
    exact Failure.message_ne (by nofun) _

theorem message_of_applyPlus {operator : Token} {v w : Value} {failure : Failure}
    (h : applyPlus operator v w = .error failure) : failure.message ≠ "Stack overflow." := by
  unfold applyPlus at h
  split at h <;> cases h
  exact Failure.message_ne (by nofun) _

theorem message_of_applyNumeric {operator : Token} {x y : Float} {failure : Failure}
    (h : applyNumeric operator x y = .error failure) : failure.message ≠ "Stack overflow." := by
  unfold applyNumeric at h
  split at h <;> cases h
  exact Failure.message_ne (by nofun) _

theorem message_of_applyBinary {operator : Token} {v w : Value} {failure : Failure}
    (h : applyBinary v operator w = .error failure) : failure.message ≠ "Stack overflow." := by
  unfold applyBinary at h
  split at h
  · cases h
  · cases h
  · exact message_of_applyPlus h
  · split at h
    · exact message_of_applyNumeric h
    · cases h
      exact Failure.message_ne (by nofun) _

theorem message_of_superMethod {id : NodeId} {keyword method : Token} {failure : Failure}
    (h : σ.superMethod id keyword method = .error failure) :
    failure.message ≠ "Stack overflow." := by
  unfold State.superMethod at h
  repeat' split at h
  all_goals cases h
  all_goals exact Failure.message_ne (by nofun) _

namespace Config

theorem not_overflows_faultAt {a : Answer} {fault : Fault} (token : Token) (stack : Stack final a)
    (h : fault ≠ .stackOverflow) : ¬ (faultAt fault token stack σ).Overflows :=
  Failure.message_ne h token

theorem not_overflows_ofExcept {a : Answer} {result : Except Failure a.Carrier}
    (stack : Stack final a)
    (h : ∀ failure, result = .error failure → failure.message ≠ "Stack overflow.") :
    ¬ (ofExcept stack σ result).Overflows := by
  cases result with
  | ok x => exact id
  | error failure => exact h failure rfl

theorem not_overflows_inBlock (body : List Stmt) (outer : Chain) (stack : Stack final .flow) :
    ¬ (inBlock body outer stack σ).Overflows := by
  cases body <;> exact id

theorem not_overflows_readVariable (id : NodeId) (name : Token) (stack : Stack final .value) :
    ¬ (readVariable id name stack σ).Overflows := by
  unfold readVariable
  split
  · exact fun h => h
  · exact not_overflows_faultAt name stack nofun

theorem not_overflows_declareClass (name : Token) (superclass : Option Class)
    (methods : List FunctionDecl) (stack : Stack final .flow) :
    ¬ (declareClass name superclass methods stack σ).Overflows := by
  unfold declareClass
  dsimp only
  split
  · exact fun h => h
  · exact not_overflows_faultAt name stack nofun

theorem not_overflows_evalStep (e : Expr) (stack : Stack final .value) :
    ¬ (evalStep e stack σ).Overflows := by
  cases e with
  | var id name => exact not_overflows_readVariable id name stack
  | this id keyword => exact not_overflows_readVariable id keyword stack
  | super id keyword method =>
      rw [evalStep, readSuper]
      split
      · exact fun h => h
      · next h => exact message_of_superMethod h
  | _ => exact id

theorem not_overflows_execStep (s : Stmt) (stack : Stack final .flow) :
    ¬ (execStep s stack σ).Overflows := by
  cases s with
  | var name initializer => cases initializer <;> exact id
  | block body => exact not_overflows_inBlock body σ.chain stack
  | ret keyword value => cases value <;> exact id
  | classDecl name superclass methods =>
      cases superclass with
      | none => exact not_overflows_declareClass name none methods stack
      | some e => exact id
  | _ => exact id

theorem not_overflows_resumeValue {b : Answer} (v : Value) (task : Pending .value b)
    (stack : Stack final b)
    (h : (answer (a := .value) v (.push task stack) σ).calling? = none) :
    ¬ (resumeValue v task stack σ).Overflows := by
  cases task with
  | print =>
      rw [resumeValue_print]
      split
      · exact id
      · exact (by decide : OutputError.sinkFull.message ≠ "Stack overflow.")
  | branch t e =>
      rw [resumeValue_branch]
      split
      · exact id
      · cases e <;> exact id
  | loopTest c body =>
      rw [resumeValue_loopTest]
      split <;> exact id
  | superclass name blame methods =>
      cases v with
      | cls c => exact not_overflows_declareClass name (some c) methods stack
      | _ => exact not_overflows_faultAt blame stack nofun
  | unary operator =>
      exact not_overflows_ofExcept (a := .value) stack fun failure => message_of_applyUnary
  | binaryRight left operator =>
      exact not_overflows_ofExcept (a := .value) stack fun failure => message_of_applyBinary
  | logical operator right =>
      rw [resumeValue_logical]
      split <;> exact id
  | conditional t e =>
      rw [resumeValue_conditional]
      split <;> exact id
  | assign id name =>
      rw [resumeValue, assignVariable]
      split
      · exact fun h => h
      · exact not_overflows_faultAt name stack nofun
  | callee paren arguments =>
      cases arguments with
      | nil => cases h
      | cons e rest => exact id
  | argument callee paren done rest =>
      cases rest with
      | nil => cases h
      | cons e rest => exact id
  | get name =>
      cases v with
      | object object =>
          rw [resumeValue, readProperty]
          split
          · exact id
          · exact id
          · exact not_overflows_faultAt name stack nofun
      | _ => exact not_overflows_faultAt name stack nofun
  | setObject name value =>
      cases v with
      | object object => exact id
      | _ => exact not_overflows_faultAt name stack nofun
  | _ => exact id

theorem not_overflows_resumeFlow {b : Answer} (flow : Flow) (task : Pending .flow b)
    (stack : Stack final b) : ¬ (resumeFlow flow task stack σ).Overflows := by
  cases task with
  | loopBody c body => cases flow <;> exact id
  | block rest outer =>
      cases flow with
      | normal => exact not_overflows_inBlock rest outer stack
      | returned v => exact id
  | body f paren =>
      change ¬ (endCall f paren flow stack σ).Overflows
      unfold endCall
      dsimp only
      split
      · split
        · exact id
        · exact not_overflows_faultAt paren stack nofun
      · cases flow <;> exact id
  | program rest =>
      cases rest with
      | nil =>
          rw [resumeFlow, inProgram]
          split
          · exact (by decide : OutputError.flushFailed.message ≠ "Stack overflow.")
          · exact id
      | cons s rest => exact id

/-- A step that calls nothing does not overflow. -/
theorem not_overflows_step {c c' : Config final} (hc : ¬ c.Overflows) (hcall : c.calling? = none)
    (h : c.step = .inl c') : ¬ c'.Overflows := by
  cases steps_of_step h with
  | eval e stack σ => exact not_overflows_evalStep e stack
  | exec s stack σ => exact not_overflows_execStep s stack
  | value v task below σ => exact not_overflows_resumeValue v task below hcall
  | flow flow task below σ => exact not_overflows_resumeFlow flow task below
  | leave failure task below σ => exact hc

theorem overflows_callFunction_iff (f : Closure) (paren : Token) (arguments : List Value)
    (stack : Stack final .value) :
    (callFunction f paren arguments stack σ).Overflows ↔ maxDepth ≤ σ.depth := by
  unfold callFunction
  split
  · next h => exact iff_of_true rfl h
  · next h => exact iff_of_false (not_overflows_inBlock _ _ _) h

theorem overflows_callClass_iff (c : Class) (paren : Token) (arguments : List Value)
    (stack : Stack final .value) :
    (callClass c paren arguments stack σ).Overflows
      ↔ runsBody (.cls c) = true ∧ maxDepth ≤ σ.depth := by
  unfold callClass runsBody
  dsimp only
  split
  · next h =>
    rw [h]
    exact iff_of_false id fun h => absurd h.1 Bool.false_ne_true
  · next init h =>
    rw [h, overflows_callFunction_iff]
    exact (and_iff_right rfl).symm

theorem overflows_call_iff (callee : Value) (paren : Token) (arguments : List Value)
    (stack : Stack final .value) :
    (call callee paren arguments stack σ).Overflows
      ↔ arity? callee = some arguments.length ∧ runsBody callee = true ∧ maxDepth ≤ σ.depth := by
  unfold call
  split
  · next h =>
    rw [h]
    exact iff_of_false (not_overflows_faultAt paren stack nofun) nofun
  · next expected h =>
    rw [h, Option.some.injEq]
    split
    · next hne => exact iff_of_false (not_overflows_faultAt paren stack nofun) fun h => hne h.1
    · next heq =>
      rw [and_iff_right (Decidable.not_not.mp heq)]
      cases callee with
      | native f => exact iff_of_false id fun h => absurd h.1 Bool.false_ne_true
      | function f =>
          rw [overflows_callFunction_iff]
          exact (and_iff_right rfl).symm
      | cls c => exact overflows_callClass_iff c paren arguments stack
      | _ => cases h

/-- A step overflows exactly when it calls a value that runs a body, with the number of arguments
that it takes, while the limit of nested calls is reached. -/
theorem overflows_step_iff {c c' : Config final} (hc : ¬ c.Overflows) (h : c.step = .inl c') :
    c'.Overflows ↔ ∃ k : Call final, c.calling? = some k ∧ k.Suits ∧ runsBody k.callee = true
      ∧ maxDepth ≤ c.state.depth := by
  cases hcall : c.calling? with
  | none =>
      refine iff_of_false (not_overflows_step hc hcall h) ?_
      rintro ⟨k, ⟨⟩, -⟩
  | some k =>
      obtain rfl : call k.callee k.paren k.arguments k.stack c.state = c' := by
        rw [step_of_calling? hcall] at h
        exact Sum.inl.inj h
      rw [overflows_call_iff]
      constructor
      · exact fun hk => ⟨k, rfl, hk⟩
      · rintro ⟨k', hk', hrest⟩
        cases hk'
        exact hrest

end Config

end Lox.Machine
