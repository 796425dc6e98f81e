import Lox.Proofs.Machine.Preservation

/-!
# Names that a step binds

Only a declaration binds a name that a frame does not bind yet, and it does so in the innermost
frame of the environment at its last step. Every other step leaves the names of all existing frames
as they are: it adds frames, or it changes the values of names that are bound.
-/

namespace Lox

variable {α : Type} {fs fs' fs'' : Frames α}

theorem Frames.Extends.trans {h h' : Nat} (he : fs.Extends h fs') (he' : fs'.Extends h' fs'')
    (hle : h ≤ h') : fs.Extends h fs'' where
  size_le := Nat.le_trans he.size_le he'.size_le
  binds hb := he'.binds (he.binds hb)
  below hf hb := he.below hf (he'.below (Nat.lt_of_lt_of_le hf hle) hb)

/-- All names of the frames of the first store are as they were. -/
def Frames.KeepsNames (fs fs' : Frames α) : Prop :=
  fs.Extends fs.size fs'

namespace Frames.KeepsNames

theorem refl (fs : Frames α) : fs.KeepsNames fs :=
  Extends.refl _ fs

theorem trans (h : fs.KeepsNames fs') (h' : fs'.KeepsNames fs'') : fs.KeepsNames fs'' :=
  Extends.trans h h' h.size_le

theorem push (fs : Frames α) (b : Bindings α) : fs.KeepsNames (fs.push b) :=
  fs.extends_push b

theorem binds_eq (h : fs.KeepsNames fs') {f : FrameId} (hf : f < fs.size) (x : String) :
    fs'.binds f x = fs.binds f x := by
  rw [Bool.eq_iff_iff]
  exact ⟨h.below hf, h.binds⟩

end Frames.KeepsNames

namespace Machine

variable {final : Answer} {σ : State}

theorem State.keepsNames_makeClass (σ : State) (name : String) (superclass : Option Class)
    (methods : List FunctionDecl) :
    σ.frames.KeepsNames (σ.makeClass name superclass methods).2.frames
      ∧ (σ.makeClass name superclass methods).2.chain = σ.chain := by
  cases superclass with
  | none =>
      obtain ⟨n, hn⟩ := σ.makeMethods_eq methods
      refine ⟨?_, rfl⟩
      simp only [makeClass, hn, useIdentity, within]
      exact .refl _
  | some c =>
      obtain ⟨n, hn⟩ := (σ.enter [("super", .cls c)] σ.chain).makeMethods_eq methods
      refine ⟨?_, rfl⟩
      simp only [makeClass, hn, useIdentity, within]
      exact .push _ _

namespace Config

theorem frames_inBlock (body : List Stmt) (outer : Chain) (stack : Stack final .flow) :
    (inBlock body outer stack σ).state.frames = σ.frames := by
  cases body <;> rfl

theorem frames_inProgram (statements : List Stmt) (stack : Stack final .flow) :
    (inProgram statements stack σ).state.frames = σ.frames := by
  cases statements with
  | cons s rest => rfl
  | nil =>
      rw [inProgram_nil]
      split <;> rfl

theorem frames_ofExcept {a : Answer} (stack : Stack final a) (result : Except Failure a.Carrier) :
    (ofExcept stack σ result).state.frames = σ.frames := by
  cases result <;> rfl

theorem frames_readVariable (id : NodeId) (name : Token) (stack : Stack final .value) :
    (readVariable id name stack σ).state.frames = σ.frames := by
  unfold readVariable
  split <;> rfl

theorem frames_endCall (f : Closure) (paren : Token) (flow : Flow) (stack : Stack final .value) :
    (endCall f paren flow stack σ).state.frames = σ.frames := by
  unfold endCall
  dsimp only
  split
  · split <;> rfl
  · cases flow <;> rfl

theorem keepsNames_callFunction (f : Closure) (paren : Token) (arguments : List Value)
    (stack : Stack final .value) :
    σ.frames.KeepsNames (callFunction f paren arguments stack σ).state.frames := by
  unfold callFunction
  split
  · exact .refl _
  · dsimp only
    rw [frames_inBlock]
    exact .push _ _

theorem keepsNames_callClass (c : Class) (paren : Token) (arguments : List Value)
    (stack : Stack final .value) :
    σ.frames.KeepsNames (callClass c paren arguments stack σ).state.frames := by
  unfold callClass
  dsimp only
  split
  · exact .refl _
  · next init _ =>
    let bound := (σ.allocate c).bind init σ.objects.size
    have hbound : σ.frames.KeepsNames bound.2.frames := .push _ _
    exact hbound.trans (keepsNames_callFunction bound.1 paren arguments _)

theorem keepsNames_call (callee : Value) (paren : Token) (arguments : List Value)
    (stack : Stack final .value) :
    σ.frames.KeepsNames (call callee paren arguments stack σ).state.frames := by
  rcases call_cases callee paren arguments stack σ with
    ⟨fault, -, heq⟩ | ⟨f, -, heq⟩ | ⟨f, -, -, heq⟩ | ⟨c, -, -, heq⟩ <;> rw [heq]
  · exact .refl _
  · exact .refl _
  · exact keepsNames_callFunction f paren arguments stack
  · exact keepsNames_callClass c paren arguments stack

theorem keepsNames_callWith (callee : Value) (paren : Token) (done : List Value)
    (rest : List Expr) (stack : Stack final .value) :
    σ.frames.KeepsNames (callWith callee paren done rest stack σ).state.frames := by
  cases rest with
  | nil => exact keepsNames_call callee paren done.reverse stack
  | cons e rest => exact .refl _

theorem keepsNames_assignVariable (id : NodeId) (name : Token) (v : Value)
    (stack : Stack final .value) :
    σ.frames.KeepsNames (assignVariable id name v stack σ).state.frames := by
  unfold assignVariable
  split
  · next f hf => exact Frames.extends_define_of_binds _ (State.binds_of_target? hf)
  · exact .refl _

theorem keepsNames_readProperty (object : ObjectId) (name : Token) (stack : Stack final .value) :
    σ.frames.KeepsNames (readProperty object name stack σ).state.frames := by
  unfold readProperty
  split
  · exact .refl _
  · exact .push _ _
  · exact .refl _

theorem keepsNames_readSuper (id : NodeId) (keyword method : Token) (stack : Stack final .value) :
    σ.frames.KeepsNames (readSuper id keyword method stack σ).state.frames := by
  unfold readSuper
  split
  · exact .push _ _
  · exact .refl _

/-- The declaration that the next step completes: the name that it binds, and what waits for it. -/
def declaring? : Config final → Option (Token × Stack final .flow)
  | .exec (.var name none) stack _ => some (name, stack)
  | .exec (.function decl) stack _ => some (decl.name, stack)
  | .exec (.classDecl name none _) stack _ => some (name, stack)
  | .answer (a := .value) _ (.push (.define name) stack) _ => some (name, stack)
  | .answer (a := .value) (.cls _) (.push (.superclass name _ _) stack) _ => some (name, stack)
  | _ => none

/-- The step binds the name in the frame `f`, and no other name in a frame that exists. -/
structure Declares (fs : Frames Value) (f : FrameId) (name : Token) (stack : Stack final .flow)
    (chain : Chain) (c : Config final) : Prop where
  answers : ∃ σ', c = .answer (a := .flow) .normal stack σ' ∧ σ'.chain = chain
  binds_iff : ∀ {g x}, g < fs.size →
    (c.state.frames.binds g x = true ↔ fs.binds g x = true ∨ g = f ∧ x = name.lexeme)

theorem binds_define_iff {fs : Frames Value} {f g : FrameId} {x y : String} {v : Value}
    (hf : f < fs.size) : (fs.define f x v).binds g y = true
      ↔ fs.binds g y = true ∨ g = f ∧ y = x := by
  by_cases hne : g ≠ f ∨ y ≠ x
  · rw [Frames.binds_define_of_ne hne]
    refine ⟨.inl, fun h => h.resolve_right fun ⟨hg, hy⟩ => ?_⟩
    exact hne.elim (fun h => h hg) (fun h => h hy)
  · obtain ⟨rfl, rfl⟩ : g = f ∧ y = x := by simpa [not_or] using hne
    exact ⟨fun _ => .inr ⟨rfl, rfl⟩, fun _ => Frames.binds_define_self hf⟩

theorem declares_define {f : FrameId} {outer : Chain} (hchain : σ.chain = f :: outer)
    (hf : f < σ.frames.size) (name : Token) (v : Value) (stack : Stack final .flow) :
    Declares σ.frames f name stack σ.chain
      (.answer (a := .flow) .normal stack (σ.define name.lexeme v)) := by
  have hdefine : σ.define name.lexeme v = σ.defineIn f name.lexeme v := by
    simp [State.define, hchain]
  rw [hdefine]
  exact ⟨⟨_, rfl, rfl⟩, fun _ => binds_define_iff hf⟩

/-- A class declaration finds the name that it has bound before the class was made. -/
theorem declares_declareClass {f : FrameId} {outer : Chain} (hchain : σ.chain = f :: outer)
    (hf : f < σ.frames.size) (name : Token) (superclass : Option Class)
    (methods : List FunctionDecl) (stack : Stack final .flow) :
    Declares σ.frames f name stack σ.chain (declareClass name superclass methods stack σ) := by
  let τ := σ.define name.lexeme .nil
  have hτ : τ = σ.defineIn f name.lexeme .nil := by simp [τ, State.define, hchain]
  have hfτ : f < τ.frames.size := by simpa [hτ, State.defineIn] using hf
  obtain ⟨hkeeps, hsame⟩ := τ.keepsNames_makeClass name.lexeme superclass methods
  have hbound : (τ.makeClass name.lexeme superclass methods).2.frames.binds f name.lexeme
      = true := by
    rw [hkeeps.binds_eq hfτ, hτ]
    exact Frames.binds_define_self hf
  have hholder : (τ.makeClass name.lexeme superclass methods).2.frames.holder?
      (τ.makeClass name.lexeme superclass methods).2.chain name.lexeme = some f := by
    rw [hsame, hτ, State.defineIn, hchain, Frames.holder?, List.find?_cons]
    rw [hτ, State.defineIn] at hbound
    simp only [hchain] at hbound
    rw [hbound]
  refine ⟨⟨(τ.makeClass name.lexeme superclass methods).2.defineIn f name.lexeme
      (.cls (τ.makeClass name.lexeme superclass methods).1), ?_, ?_⟩, fun {g x} hg => ?_⟩
  · unfold declareClass
    dsimp only
    rw [hholder]
  · exact hsame.trans (by rw [hτ]; rfl)
  · have hgτ : g < τ.frames.size := by simpa [hτ, State.defineIn] using hg
    have hlt := Nat.lt_of_lt_of_le hfτ hkeeps.size_le
    have hdefined : τ.frames.binds g x = true
        ↔ σ.frames.binds g x = true ∨ g = f ∧ x = name.lexeme := by
      rw [hτ]
      exact binds_define_iff hf
    have hassigned := binds_define_iff (g := g) (y := x) (x := name.lexeme)
      (v := .cls (τ.makeClass name.lexeme superclass methods).1) hlt
    rw [hkeeps.binds_eq hgτ, hdefined, or_assoc, or_self] at hassigned
    unfold declareClass
    dsimp only
    rw [hholder]
    exact hassigned

theorem keepsNames_evalStep (e : Expr) (stack : Stack final .value) :
    σ.frames.KeepsNames (evalStep e stack σ).state.frames := by
  cases e with
  | var id name =>
      rw [evalStep, frames_readVariable]
      exact .refl _
  | this id keyword =>
      rw [evalStep, frames_readVariable]
      exact .refl _
  | super id keyword method => exact keepsNames_readSuper id keyword method stack
  | _ => exact .refl _

/-- What a step does to the names of the frames that exist, in terms of the declaration that it
completes. -/
def EffectOnNames (σ : State) (f : FrameId) (declared : Option (Token × Stack final .flow))
    (c : Config final) : Prop :=
  match declared with
  | none => σ.frames.KeepsNames c.state.frames
  | some (name, stack) => Declares σ.frames f name stack σ.chain c

theorem effect_execStep {f : FrameId} {outer : Chain} (hchain : σ.chain = f :: outer)
    (hf : f < σ.frames.size) (s : Stmt) (stack : Stack final .flow) :
    EffectOnNames σ f (Config.exec s stack σ).declaring? (execStep s stack σ) := by
  cases s with
  | var name initializer =>
      cases initializer with
      | none => exact declares_define hchain hf name .nil stack
      | some e => exact .refl _
  | block body =>
      change σ.frames.KeepsNames (inBlock body σ.chain stack (σ.enter [] σ.chain)).state.frames
      rw [frames_inBlock]
      exact .push _ _
  | function decl =>
      exact declares_define (σ := σ.useIdentity) hchain hf decl.name _ stack
  | ret keyword value => cases value <;> exact .refl _
  | classDecl name superclass methods =>
      cases superclass with
      | none => exact declares_declareClass hchain hf name none methods stack
      | some e => exact .refl _
  | _ => exact .refl _

theorem effect_resumeValue {f : FrameId} {outer : Chain} (hchain : σ.chain = f :: outer)
    (hf : f < σ.frames.size) {b : Answer} (v : Value) (task : Pending .value b)
    (stack : Stack final b) :
    EffectOnNames σ f (Config.answer (a := .value) v (.push task stack) σ).declaring?
      (resumeValue v task stack σ) := by
  cases task with
  | print =>
      rw [resumeValue_print]
      split <;> exact .refl _
  | define name => exact declares_define hchain hf name v stack
  | branch t e =>
      rw [resumeValue_branch]
      split
      · exact .refl _
      · cases e <;> exact .refl _
  | loopTest c body =>
      rw [resumeValue_loopTest]
      split <;> exact .refl _
  | superclass name blame methods =>
      cases v with
      | cls c => exact declares_declareClass hchain hf name (some c) methods stack
      | _ => exact .refl _
  | unary operator =>
      change σ.frames.KeepsNames (ofExcept (a := .value) stack σ _).state.frames
      rw [frames_ofExcept]
      exact .refl _
  | binaryRight left operator =>
      change σ.frames.KeepsNames (ofExcept (a := .value) stack σ _).state.frames
      rw [frames_ofExcept]
      exact .refl _
  | logical operator right =>
      rw [resumeValue_logical]
      split <;> exact .refl _
  | conditional t e =>
      rw [resumeValue_conditional]
      split <;> exact .refl _
  | assign id name => exact keepsNames_assignVariable id name v stack
  | callee paren arguments => exact keepsNames_callWith v paren [] arguments stack
  | argument callee paren done rest => exact keepsNames_callWith callee paren (v :: done) rest stack
  | get name =>
      cases v with
      | object object => exact keepsNames_readProperty object name stack
      | _ => exact .refl _
  | setObject name value => cases v <;> exact .refl _
  | _ => exact .refl _

theorem frames_resumeFlow {b : Answer} (flow : Flow) (task : Pending .flow b)
    (stack : Stack final b) : (resumeFlow flow task stack σ).state.frames = σ.frames := by
  cases task with
  | loopBody c body => cases flow <;> rfl
  | block rest outer =>
      cases flow with
      | normal => exact frames_inBlock rest outer stack
      | returned v => rfl
  | body f paren => exact frames_endCall f paren flow stack
  | program rest => exact frames_inProgram rest stack

theorem frames_leave {a b : Answer} (task : Pending a b) : (task.leave σ).frames = σ.frames := by
  cases task <;> rfl

/-- A step that completes a declaration binds its name in the innermost frame. Any other step leaves
the names of all existing frames as they are. -/
theorem Scoped.effect_step {known : NodeId → Option Nat → Prop} {c c' : Config final}
    (hc : c.Scoped known) (h : c.step = .inl c') :
    EffectOnNames c.state (c.state.chain.headD globalFrame) c.declaring? c' := by
  cases steps_of_step h with
  | eval e stack σ => exact keepsNames_evalStep e stack
  | exec s stack σ =>
      cases hc with
      | exec hσ hs hstack =>
          obtain ⟨f, outer, hchain, hf⟩ := hσ.stands.realizes.exists_head hσ.sound.size_pos
          rw [state, hchain]
          exact effect_execStep hchain hf s stack
  | value v task below σ =>
      cases hc with
      | answer hσ hv hstack =>
          obtain ⟨f, outer, hchain, hf⟩ := hσ.stands.realizes.exists_head hσ.sound.size_pos
          rw [state, hchain]
          exact effect_resumeValue hchain hf v task below
  | flow flow task below σ =>
      change σ.frames.KeepsNames (Config.resumeFlow flow task below σ).state.frames
      rw [frames_resumeFlow]
      exact .refl _
  | leave failure task below σ =>
      change σ.frames.KeepsNames (task.leave σ).frames
      rw [frames_leave]
      exact .refl _

end Config

end Machine

end Lox
