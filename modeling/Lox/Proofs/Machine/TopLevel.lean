import Lox.Proofs.Concatenation.Runs
import Lox.Proofs.Machine.Declarations

/-!
# Names that a statement binds at the top level

A statement of a program binds the name that it declares in the global frame, in its last step. All
other declarations that are executed on the way stand in blocks or bodies, so that they bind names in
other frames. If the statement fails, the names of the global frame are as they were.
-/

namespace Lox.Machine

open Resolution (declaredNames after_nil)

variable {known : NodeId → Option Nat → Prop} {names : List Token} {σ : State}

/-- The name that the task binds in the environment in which its answer arrives. -/
def Pending.bound? : {a b : Answer} → Pending a b → Option Token
  | _, _, .define name => some name
  | _, _, .superclass name _ _ => some name
  | _, _, _ => none

/-- The task belongs to the execution of one statement and binds no name. -/
def Pending.Inner : {a b : Answer} → Pending a b → Prop
  | _, _, .define _ => False
  | _, _, .superclass _ _ _ => False
  | _, _, .program _ => False
  | _, _, _ => True

/-- The rest of a block waits for the answer. -/
def Stack.IsBlock {final : Answer} (stack : Stack final .flow) : Prop :=
  ∃ rest outer below, stack = .push (.block rest outer) below

/-- At its end the stack binds these names, in the environment at its bottom. Every other declaration
that waits stands in a block. -/
inductive Stack.Open : {a : Answer} → List Token → Stack .flow a → Prop
  | done : Open [] .done
  | last {a : Answer} {task : Pending a .flow} {name : Token} (htask : task.bound? = some name) :
      Open [name] (.push task .done)
  | inner {a b : Answer} {task : Pending a b} {below : Stack .flow b} {names : List Token}
      (htask : task.Inner) (hbelow : below.Open names) : Open names (.push task below)
  | inBlock {a : Answer} {task : Pending a .flow} {below : Stack .flow .flow} {name : Token}
      {names : List Token} (htask : task.bound? = some name) (hblock : below.IsBlock)
      (hbelow : below.Open names) : Open names (.push task below)

/-- What the first step of a declaration, or a task that binds a name, stands on. -/
inductive Stack.Declaring (stack : Stack .flow .flow) (name : Token) : List Token → Prop
  | last (h : stack = .done) : Declaring stack name [name]
  | inBlock {names : List Token} (hblock : stack.IsBlock) (hstack : stack.Open names) :
      Declaring stack name names

theorem Stack.Open.of_inner {a b : Answer} {task : Pending a b} {below : Stack .flow b}
    (h : Stack.Open names (.push task below)) (htask : task.Inner) : below.Open names := by
  cases h with
  | inner _ hbelow => exact hbelow
  | @last _ task _ hbound => cases task <;> first | exact htask.elim | cases hbound
  | inBlock _ _ hbelow => exact hbelow

theorem Stack.Open.of_bound {a : Answer} {task : Pending a .flow} {below : Stack .flow .flow}
    {name : Token} (h : Stack.Open names (.push task below)) (htask : task.bound? = some name) :
    below.Declaring name names := by
  cases h with
  | inner hinner _ => cases task <;> first | exact hinner.elim | cases htask
  | last hbound =>
      obtain rfl := Option.some.inj (hbound.symm.trans htask)
      exact .last rfl
  | inBlock _ hblock hbelow => exact .inBlock hblock hbelow

theorem Stack.Declaring.push {a : Answer} {task : Pending a .flow} {stack : Stack .flow .flow}
    {name : Token} (h : stack.Declaring name names) (htask : task.bound? = some name) :
    Stack.Open names (.push task stack) := by
  cases h with
  | last hdone =>
      subst hdone
      exact .last htask
  | inBlock hblock hstack => exact .inBlock htask hblock hstack

/-- A statement that declares something stands in a block, or it is the whole statement. -/
inductive Stack.Takes (stack : Stack .flow .flow) (s : Stmt) : List Token → Prop
  | whole (h : stack = .done) : Takes stack s (declaredNames s)
  | inBlock {names : List Token} (hblock : stack.IsBlock) (hstack : stack.Open names) :
      Takes stack s names
  | branch {names : List Token} (hs : declaredNames s = []) (hstack : stack.Open names) :
      Takes stack s names

theorem Stack.Takes.open {stack : Stack .flow .flow} {s : Stmt} (h : stack.Takes s names)
    (hs : declaredNames s = []) : stack.Open names := by
  cases h with
  | whole hdone =>
      subst hdone
      rw [hs]
      exact .done
  | inBlock _ hstack => exact hstack
  | branch _ hstack => exact hstack

theorem Stack.Takes.declaring {stack : Stack .flow .flow} {s : Stmt} {name : Token}
    (h : stack.Takes s names) (hs : declaredNames s = [name]) : stack.Declaring name names := by
  cases h with
  | whole hdone =>
      rw [hs]
      exact .last hdone
  | inBlock hblock hstack => exact .inBlock hblock hstack
  | branch hnone _ =>
      rw [hnone] at hs
      cases hs

namespace Config

/-- The moment belongs to the execution of a statement that is still to bind these names. -/
inductive Within : List Token → Config .flow → Prop
  | eval {names : List Token} {e : Expr} {stack : Stack .flow .value} {σ : State}
      (hstack : stack.Open names) : Within names (.eval e stack σ)
  | exec {names : List Token} {s : Stmt} {stack : Stack .flow .flow} {σ : State}
      (hstack : stack.Takes s names) : Within names (.exec s stack σ)
  | answer {names : List Token} {a : Answer} {x : a.Carrier} {stack : Stack .flow a} {σ : State}
      (hstack : stack.Open names) : Within names (.answer x stack σ)
  | fail (names : List Token) {a : Answer} (failure : Failure) (stack : Stack .flow a) (σ : State) :
      Within names (.fail failure stack σ)

/-! ## Steps -/

theorem Within.inBlock {stack : Stack .flow .flow} (h : stack.Open names) (body : List Stmt)
    (outer : Chain) : (Config.inBlock body outer stack σ).Within names := by
  cases body with
  | nil => exact .answer h
  | cons s rest => exact .exec (.inBlock ⟨rest, outer, stack, rfl⟩ (.inner trivial h))

theorem Within.callFunction {stack : Stack .flow .value} (h : stack.Open names) (f : Closure)
    (paren : Token) (arguments : List Value) :
    (Config.callFunction f paren arguments stack σ).Within names := by
  have hstack : Stack.Open names (.push (.body f paren) stack) := .inner trivial h
  unfold Config.callFunction
  split
  · exact .fail ..
  · exact .inBlock hstack _ _

theorem Within.call {stack : Stack .flow .value} (h : stack.Open names) (callee : Value)
    (paren : Token) (arguments : List Value) :
    (Config.call callee paren arguments stack σ).Within names := by
  rcases Config.call_cases callee paren arguments stack σ with
    ⟨fault, -, heq⟩ | ⟨f, -, heq⟩ | ⟨f, -, -, heq⟩ | ⟨c, -, -, heq⟩ <;> rw [heq]
  · exact .fail ..
  · exact .answer (a := .value) h
  · exact .callFunction h f paren arguments
  · unfold Config.callClass
    dsimp only
    split
    · exact .answer (a := .value) h
    · have hstack : Stack.Open names (.push (.construct σ.objects.size) stack) :=
        .inner trivial h
      exact .callFunction hstack _ paren arguments

theorem Within.callWith {stack : Stack .flow .value} (h : stack.Open names) (callee : Value)
    (paren : Token) (done : List Value) (rest : List Expr) :
    (Config.callWith callee paren done rest stack σ).Within names := by
  cases rest with
  | nil => exact .call h callee paren done.reverse
  | cons e rest => exact .eval (.inner trivial h)

theorem Within.endCall {stack : Stack .flow .value} (h : stack.Open names) (f : Closure)
    (paren : Token) (flow : Flow) : (Config.endCall f paren flow stack σ).Within names := by
  unfold Config.endCall
  dsimp only
  split
  · split
    · exact .answer (a := .value) h
    · exact .fail ..
  · cases flow with
    | normal => exact .answer (a := .value) h
    | returned v => exact .answer (a := .value) h

theorem Within.readVariable {stack : Stack .flow .value} (h : stack.Open names) (id : NodeId)
    (name : Token) : (Config.readVariable id name stack σ).Within names := by
  unfold Config.readVariable
  split
  · exact .answer (a := .value) h
  · exact .fail ..

theorem Within.evalStep {stack : Stack .flow .value} (h : stack.Open names) (e : Expr) :
    (Config.evalStep e stack σ).Within names := by
  cases e with
  | literal literal => exact .answer (a := .value) h
  | group inner => exact .eval h
  | var id name => exact .readVariable h id name
  | this id keyword => exact .readVariable h id keyword
  | super id keyword method =>
      rw [Config.evalStep]
      unfold Config.readSuper
      split
      · exact .answer (a := .value) h
      · exact .fail ..
  | _ => exact .eval (.inner trivial h)

/-- What a step leads to: either it completes the declaration of the statement, or the names are
still to be bound, and a declaration that it completes stands in a block. -/
inductive Progress (names : List Token) (declared : Option (Token × Stack .flow .flow))
    (c : Config .flow) : Prop
  | binds {name : Token} (hdeclared : declared = some (name, .done)) (hnames : names = [name])
  | goesOn (hc : c.Within names)
      (hblock : ∀ name stack, declared = some (name, stack) → stack.IsBlock)

theorem Progress.of_none {c : Config .flow} (hc : c.Within names) : Progress names none c :=
  .goesOn hc nofun

/-- The last step of a declaration. -/
theorem Progress.of_declaring {stack : Stack .flow .flow} {name : Token} {c : Config .flow}
    {f : FrameId} {chain : Chain} {fs : Frames Value} (h : stack.Declaring name names)
    (hc : Declares fs f name stack chain c) : Progress names (some (name, stack)) c := by
  cases h with
  | last hdone => exact .binds (by rw [hdone]) rfl
  | inBlock hblock hstack =>
      obtain ⟨⟨σ', rfl, -⟩, -⟩ := hc
      refine .goesOn (.answer hstack) fun name' stack' h => ?_
      cases h
      exact hblock

theorem progress_execStep {s : Stmt} {stack : Stack .flow .flow} {scopes : Scopes} {f : FrameId}
    {outer : Chain} (hchain : σ.chain = f :: outer) (hf : f < σ.frames.size)
    (h : stack.Takes s names) (hs : s.WellScoped known scopes) :
    Progress names (Config.exec s stack σ).declaring? (execStep s stack σ) := by
  cases s with
  | expression e => exact .of_none (.eval (.inner trivial (h.open rfl)))
  | print e => exact .of_none (.eval (.inner trivial (h.open rfl)))
  | var name initializer =>
      have hdeclaring : stack.Declaring name names := h.declaring rfl
      cases initializer with
      | none => exact .of_declaring hdeclaring (declares_define hchain hf name .nil stack)
      | some e => exact .of_none (.eval (hdeclaring.push rfl))
  | block body => exact .of_none (.inBlock (h.open rfl) body σ.chain)
  | ifThen c t =>
      simp only [Stmt.WellScoped] at hs
      exact .of_none (.eval (.inner trivial (h.open (by simp [hs.2.2]))))
  | ifElse c t e =>
      simp only [Stmt.WellScoped] at hs
      exact .of_none (.eval (.inner trivial (h.open (by simp [hs.2.1.2, hs.2.2.2]))))
  | loop c body =>
      simp only [Stmt.WellScoped] at hs
      exact .of_none (.eval (.inner trivial (h.open (by simp [hs.2.2]))))
  | function decl =>
      have hdeclaring : stack.Declaring decl.name names := h.declaring (by simp)
      exact .of_declaring hdeclaring (declares_define (σ := σ.useIdentity) hchain hf decl.name _ stack)
  | ret keyword value =>
      cases value with
      | none => exact .of_none (.answer (a := .flow) (h.open rfl))
      | some e => exact .of_none (.eval (.inner trivial (h.open rfl)))
  | classDecl name superclass methods =>
      have hdeclaring : stack.Declaring name names := h.declaring (by simp)
      cases superclass with
      | none =>
          exact .of_declaring hdeclaring
            (declares_declareClass hchain hf name none methods stack)
      | some e => exact .of_none (.eval (hdeclaring.push rfl))

theorem Within.ofExcept {stack : Stack .flow .value} (h : stack.Open names)
    (result : Except Failure Value) :
    (Config.ofExcept (a := .value) stack σ result).Within names := by
  cases result with
  | ok v => exact .answer (a := .value) h
  | error failure => exact .fail ..

theorem progress_resumeValue {b : Answer} {v : Value} {task : Pending .value b}
    {stack : Stack .flow b} {p p' : Place} {chain chain' : Chain} {f : FrameId} {outer : Chain}
    (hchain : σ.chain = f :: outer) (hf : f < σ.frames.size)
    (h : Stack.Open names (.push task stack))
    (htask : task.Leads known σ.frames p chain p' chain') :
    Progress names (Config.answer (a := .value) v (.push task stack) σ).declaring?
      (resumeValue v task stack σ) := by
  cases htask with
  | discard => exact .of_none (.answer (h.of_inner trivial))
  | print =>
      refine .of_none ?_
      rw [Config.resumeValue_print]
      split
      · exact .answer (h.of_inner trivial)
      · exact .fail ..
  | @define scopes name _ hname =>
      exact .of_declaring (h.of_bound rfl) (declares_define hchain hf name v stack)
  | branch _ ht he =>
      have hbelow := h.of_inner trivial
      refine .of_none ?_
      rw [Config.resumeValue_branch]
      split
      · exact .exec (.branch ht.2 hbelow)
      · split
        · exact .exec (.branch (he _ rfl).2 hbelow)
        · exact .answer hbelow
  | loopTest _ hc hbody =>
      have hbelow := h.of_inner trivial
      refine .of_none ?_
      rw [Config.resumeValue_loopTest]
      split
      · exact .exec (.branch hbody.2 (.inner trivial hbelow))
      · exact .answer hbelow
  | ret => exact .of_none (.answer (a := .flow) (h.of_inner trivial))
  | @superclass scopes name methods e _ blame hname hmethods =>
      cases v with
      | cls c =>
          exact .of_declaring (h.of_bound rfl)
            (declares_declareClass hchain hf name (some c) methods stack)
      | _ => exact .of_none (.fail ..)
  | unary _ _ operator => exact .of_none (.ofExcept (h.of_inner trivial) _)
  | binaryLeft _ operator hright => exact .of_none (.eval (.inner trivial (h.of_inner trivial)))
  | binaryRight _ _ operator hleft => exact .of_none (.ofExcept (h.of_inner trivial) _)
  | logical _ operator hright =>
      refine .of_none ?_
      rw [Config.resumeValue_logical]
      split
      · exact .answer (a := .value) (h.of_inner trivial)
      · exact .eval (h.of_inner trivial)
  | conditional _ ht he =>
      refine .of_none ?_
      rw [Config.resumeValue_conditional]
      split
      · exact .eval (h.of_inner trivial)
      · exact .eval (h.of_inner trivial)
  | @assign _ id name _ hname hid =>
      refine .of_none ?_
      unfold Config.resumeValue Config.assignVariable
      dsimp only
      split
      · exact .answer (a := .value) (h.of_inner trivial)
      · exact .fail ..
  | callee _ paren harguments => exact .of_none (.callWith (h.of_inner trivial) _ _ _ _)
  | argument _ paren hcallee hdone hrest =>
      exact .of_none (.callWith (h.of_inner trivial) _ _ _ _)
  | get _ _ name =>
      refine .of_none ?_
      unfold Config.resumeValue
      dsimp only
      split
      · unfold Config.readProperty
        split
        · exact .answer (a := .value) (h.of_inner trivial)
        · exact .answer (a := .value) (h.of_inner trivial)
        · exact .fail ..
      · exact .fail ..
  | setObject _ name hvalue =>
      refine .of_none ?_
      unfold Config.resumeValue
      dsimp only
      split
      · exact .eval (.inner trivial (h.of_inner trivial))
      · exact .fail ..
  | setField _ _ object name => exact .of_none (.answer (a := .value) (h.of_inner trivial))
  | construct _ _ object => exact .of_none (.answer (a := .value) (h.of_inner trivial))

theorem Within.resumeFlow {b : Answer} {flow : Flow} {task : Pending .flow b}
    {stack : Stack .flow b} (h : Stack.Open names (.push task stack)) :
    (Config.resumeFlow flow task stack σ).Within names := by
  cases task with
  | loopBody c body =>
      cases flow with
      | normal => exact .eval (.inner trivial (h.of_inner trivial))
      | returned v => exact .answer (a := .flow) (h.of_inner trivial)
  | block rest outer =>
      cases flow with
      | normal => exact .inBlock (h.of_inner trivial) rest outer
      | returned v => exact .answer (a := .flow) (h.of_inner trivial)
  | body f paren => exact .endCall (h.of_inner trivial) f paren flow
  | program rest =>
      cases h with
      | inner hinner _ => exact hinner.elim
      | last hbound => cases hbound
      | inBlock hbound _ _ => cases hbound

/-- A step of a statement that is still to bind its names. -/
theorem Within.step {c c' : Config .flow} (hc : c.Within names) (hscoped : c.Scoped known)
    (h : c.step = .inl c') : Progress names c.declaring? c' := by
  cases steps_of_step h with
  | eval e stack σ =>
      cases hc with
      | eval hstack => exact .of_none (.evalStep hstack e)
  | exec s stack σ =>
      cases hc with
      | exec hstack =>
          cases hscoped with
          | exec hσ hs _ =>
              obtain ⟨f, outer, hchain, hf⟩ := hσ.stands.realizes.exists_head hσ.sound.size_pos
              exact progress_execStep hchain hf hstack hs
  | value v task below σ =>
      cases hc with
      | answer hstack =>
          cases hscoped with
          | answer hσ hv hscope =>
              obtain ⟨f, outer, hchain, hf⟩ := hσ.stands.realizes.exists_head hσ.sound.size_pos
              obtain ⟨p', chain', htask, hbelow⟩ := hscope.of_push
              exact progress_resumeValue hchain hf hstack htask
  | flow flow task below σ =>
      cases hc with
      | answer hstack => exact .of_none (.resumeFlow hstack)
  | leave failure task below σ => exact .of_none (.fail ..)

/-! ## Names of the global frame -/

/-- The names of the global frame. -/
def globals (c : Config .flow) (x : String) : Prop :=
  c.state.frames.binds globalFrame x = true

/-- While a statement is under way, the global frame has the names `G`. When it has ended, the frame
has also the names that the statement declares. -/
def Accounts (G : String → Prop) (names : List Token) (c : Config .flow) : Prop :=
  (c.Within names ∧ ∀ x, c.globals x ↔ G x)
    ∨ ∃ flow σ, c = .answer (a := .flow) flow .done σ
      ∧ ∀ x, c.globals x ↔ G x ∨ x ∈ names.map Token.lexeme

/-- A block runs in a frame of its own. -/
theorem lt_headD_of_leads {fs : Frames Value} {p p' : Place} {chain chain' : Chain}
    {rest : List Stmt} {outer : Chain}
    (h : (Pending.block rest outer).Leads known fs p chain p' chain') :
    globalFrame < chain.headD globalFrame := by
  cases h with
  | block _ _ hlt => exact Nat.lt_of_le_of_lt (Nat.zero_le _) hlt

/-- Behind a declaration in a block, the innermost frame is not the global one. -/
theorem headD_ne_of_isBlock {stack : Stack .flow .flow} (hblock : stack.IsBlock)
    (hc : Config.Scoped known (.answer (a := .flow) .normal stack σ)) :
    σ.chain.headD globalFrame ≠ globalFrame := by
  obtain ⟨rest, outer, below, rfl⟩ := hblock
  cases hc with
  | answer _ _ hstack =>
      obtain ⟨p', chain', htask, -⟩ := hstack.of_push
      exact Nat.ne_of_gt (lt_headD_of_leads htask)

/-- A declaration whose end nothing waits for binds a global name. -/
theorem Scoped.headD_eq {flow : Flow} (hc : Config.Scoped known
    (.answer (a := .flow) flow .done σ : Config .flow)) :
    σ.chain.headD globalFrame = globalFrame := by
  cases hc with
  | answer _ _ hstack =>
      rw [hstack.chain_of_done]
      rfl

theorem Scoped.size_pos {c : Config .flow} (hc : c.Scoped known) :
    globalFrame < c.state.frames.size := by
  cases hc with
  | eval hσ => exact hσ.sound.size_pos
  | exec hσ => exact hσ.sound.size_pos
  | answer hσ => exact hσ.sound.size_pos
  | fail hσ => exact hσ.size_pos

/-- A step inside a statement changes the names of the global frame only if it completes the
declaration that the whole statement is. -/
theorem Within.globals_step {c c' : Config .flow} (hc : c.Within names) (hscoped : c.Scoped known)
    (h : c.step = .inl c') :
    (∃ name, c.declaring? = some (name, .done) ∧ names = [name]
        ∧ (∃ σ, c' = .answer (a := .flow) .normal .done σ)
        ∧ ∀ x, c'.globals x ↔ c.globals x ∨ x = name.lexeme)
      ∨ c'.Within names ∧ ∀ x, c'.globals x ↔ c.globals x := by
  have heffect := hscoped.effect_step h
  have hscoped' := hscoped.step
  rw [h] at hscoped'
  have hpos := hscoped.size_pos
  cases hc.step hscoped h with
  | @binds name hdeclared hnames =>
      rw [hdeclared] at heffect
      obtain ⟨⟨σ', rfl, hchain⟩, hbinds⟩ := heffect
      have hhead := hscoped'.headD_eq
      rw [hchain] at hhead
      refine .inl ⟨name, hdeclared, hnames, ⟨σ', rfl⟩, fun x => ?_⟩
      rw [globals, hbinds hpos, hhead, eq_self, true_and]
      rfl
  | goesOn hwithin hblock =>
      refine .inr ⟨hwithin, fun x => ?_⟩
      cases hdeclared : c.declaring? with
      | none =>
          rw [hdeclared] at heffect
          exact Bool.eq_iff_iff.mp (Frames.KeepsNames.binds_eq heffect hpos x)
      | some p =>
          obtain ⟨name, stack⟩ := p
          rw [hdeclared] at heffect
          obtain ⟨⟨σ', rfl, hchain⟩, hbinds⟩ := heffect
          have hne := headD_ne_of_isBlock (hblock name stack hdeclared) hscoped'
          rw [hchain] at hne
          refine (hbinds hpos).trans (or_iff_left fun ⟨hg, _⟩ => hne hg.symm)

theorem Accounts.step {G : String → Prop} {c c' : Config .flow} (hc : c.Accounts G names)
    (hscoped : c.Scoped known) (h : c.step = .inl c') : c'.Accounts G names := by
  rcases hc with ⟨hwithin, hG⟩ | ⟨flow, σ, rfl, -⟩
  · rcases hwithin.globals_step hscoped h with ⟨name, -, rfl, ⟨σ, rfl⟩, hnew⟩ | ⟨hwithin', hsame⟩
    · refine .inr ⟨_, σ, rfl, fun x => ?_⟩
      rw [hnew, hG]
      simp
    · exact .inl ⟨hwithin', fun x => (hsame x).trans (hG x)⟩
  · cases h

/-- At the end of a statement, its names are bound, unless it failed. -/
theorem Accounts.end {G : String → Prop} {c : Config .flow} {o : Outcome .flow}
    (hc : c.Accounts G names) (h : c.step = .inr o) (x : String) :
    o.σ.frames.binds globalFrame x = true
      ↔ G x ∨ (∃ flow, o.result = .ok flow) ∧ x ∈ names.map Token.lexeme := by
  rcases hc with ⟨hwithin, hG⟩ | ⟨flow, σ, rfl, hG⟩
  · obtain ⟨result, σ⟩ := o
    obtain rfl := step_eq_inr_iff.mp h
    cases result with
    | ok flow =>
        cases hwithin with
        | answer hstack =>
            cases hstack
            exact (hG x).trans (by simp)
    | error failure => exact (hG x).trans (by simp)
  · cases h
    exact (hG x).trans (by simp)

theorem Accounts.advance {G : String → Prop} {c : Config .flow} (hc : c.Accounts G names)
    (hscoped : c.Scoped known) (n : Nat) :
    match c.advance n with
    | .inl c' => c'.Accounts G names
    | .inr o => ∀ x, o.σ.frames.binds globalFrame x = true
        ↔ G x ∨ (∃ flow, o.result = .ok flow) ∧ x ∈ names.map Token.lexeme := by
  have hmoment {k : Nat} {d : Config .flow} (hd : c.advance k = .inl d) : d.Accounts G names :=
    holds_of_advance (P := fun _ d => d.Accounts G names) hc
      (fun hd haccounts hstep => haccounts.step (hscoped.of_advance hd) hstep) hd
  cases h : c.advance n with
  | inl c' => exact hmoment h
  | inr o =>
      obtain ⟨d, c', -, hd, hend⟩ := exists_end h
      exact (hmoment hd).end hend

end Config

end Lox.Machine
