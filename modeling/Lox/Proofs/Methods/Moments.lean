import Lox.Proofs.Methods.Homes
import Lox.Proofs.Reach.Calls

/-!
# Moments with homes

At a moment of a run, the uses of `super` that are still to be evaluated have homes in the
environments in which they will be evaluated, and all values are housed. The operations that make up
the steps lead from such moments to such moments.
-/

namespace Lox

open Machine (State)

variable (past : Past) (fs : Frames Value) (chain : Chain)

/-- The expression is proper, and its uses of `super` have homes in the environment. -/
structure Expr.Housed (e : Expr) : Prop where
  proper : e.Proper
  homes : Homes past fs chain e.supers

structure Expr.ListHoused (es : List Expr) : Prop where
  proper : Expr.ListProper es
  homes : Homes past fs chain (Expr.listSupers es)

structure Stmt.Housed (s : Stmt) : Prop where
  proper : s.Proper past.known
  homes : Homes past fs chain s.supers

structure Stmt.ListHoused (ss : List Stmt) : Prop where
  proper : Stmt.ListProper past.known ss
  homes : Homes past fs chain (Stmt.listSupers ss)

variable {past fs chain} {past' : Past} {fs' : Frames Value}

theorem Expr.Housed.mono {e : Expr} (h : e.Housed past fs chain) (hp : past.Grows past')
    (hfs : fs.KeepsImplicit fs') : e.Housed past' fs' chain :=
  ⟨h.proper, h.homes.mono hp hfs⟩

theorem Expr.ListHoused.mono {es : List Expr} (h : Expr.ListHoused past fs chain es)
    (hp : past.Grows past') (hfs : fs.KeepsImplicit fs') : Expr.ListHoused past' fs' chain es :=
  ⟨h.proper, h.homes.mono hp hfs⟩

theorem Stmt.Housed.mono {s : Stmt} (h : s.Housed past fs chain) (hp : past.Grows past')
    (hfs : fs.KeepsImplicit fs') : s.Housed past' fs' chain :=
  ⟨h.proper.imp hp.known, h.homes.mono hp hfs⟩

theorem Stmt.ListHoused.mono {ss : List Stmt} (h : Stmt.ListHoused past fs chain ss)
    (hp : past.Grows past') (hfs : fs.KeepsImplicit fs') : Stmt.ListHoused past' fs' chain ss :=
  ⟨h.proper.imp hp.known, h.homes.mono hp hfs⟩

theorem Expr.ListHoused.of_cons {e : Expr} {es : List Expr}
    (h : Expr.ListHoused past fs chain (e :: es)) :
    e.Housed past fs chain ∧ Expr.ListHoused past fs chain es := by
  obtain ⟨hproper, hhomes⟩ := h
  simp only [Expr.ListProper, Expr.listSupers, homes_append] at hproper hhomes
  exact ⟨⟨hproper.1, hhomes.1⟩, hproper.2, hhomes.2⟩

theorem Stmt.ListHoused.of_cons {s : Stmt} {ss : List Stmt}
    (h : Stmt.ListHoused past fs chain (s :: ss)) :
    s.Housed past fs chain ∧ Stmt.ListHoused past fs chain ss := by
  obtain ⟨hproper, hhomes⟩ := h
  simp only [Stmt.ListProper, Stmt.listSupers, homes_append] at hproper hhomes
  exact ⟨⟨hproper.1, hhomes.1⟩, hproper.2, hhomes.2⟩

namespace Machine

variable {final : Answer} {σ : State}

/-- Faults that no program shows that passes the checks. -/
def Fault.Excluded : Fault → Prop
  | .superUnavailable => True
  | .invalidUnary => True
  | .invalidBinary => True
  | _ => False

def Failure.Excluded : Failure → Prop
  | .fault f _ => f.Excluded
  | .output _ => False

theorem not_excluded_of_applyUnary {operator : Token} {v : Value} {failure : Failure}
    (hoperator : operator.IsUnary) (h : applyUnary operator v = .error failure) :
    ¬ failure.Excluded := by
  obtain ⟨s, hs, hkind⟩ := hoperator
  unfold applyUnary at h
  simp only [List.mem_cons, List.not_mem_nil, or_false] at hs
  rcases hs with rfl | rfl
  · rw [hkind] at h
    cases h
  · rw [hkind] at h
    cases v <;> cases h <;> exact id

/-- An operator that is none of those for all values has a result for any two numbers. -/
theorem applyNumeric_ne_error {operator : Token} {x y : Float} {failure : Failure}
    (hoperator : operator.IsBinary) (hne : ∀ s ∈ [Symbol.equalEqual, .bangEqual, .plus],
      operator.kind ≠ .symbol s) : applyNumeric operator x y ≠ .error failure := by
  intro h
  obtain ⟨s, hs, hkind⟩ := hoperator
  unfold applyNumeric at h
  simp only [Symbol.binaries, List.mem_cons, List.not_mem_nil, or_false] at hs
  rcases hs with rfl | rfl | rfl | rfl | rfl | rfl | rfl | rfl | rfl | rfl
  · exact hne .equalEqual (by decide) hkind
  · exact hne .bangEqual (by decide) hkind
  · exact hne .plus (by decide) hkind
  all_goals
    rw [hkind] at h
    cases h

theorem not_excluded_of_applyBinary {operator : Token} {left right : Value} {failure : Failure}
    (hoperator : operator.IsBinary) (h : applyBinary left operator right = .error failure) :
    ¬ failure.Excluded := by
  unfold applyBinary at h
  split at h
  · cases h
  · cases h
  · unfold applyPlus at h
    split at h <;> cases h
    exact id
  · next hequal hbang hplus =>
    split at h
    · refine absurd h (applyNumeric_ne_error hoperator fun s hs hkind => ?_)
      simp only [List.mem_cons, List.not_mem_nil, or_false] at hs
      rcases hs with rfl | rfl | rfl
      · exact hequal hkind
      · exact hbang hkind
      · exact hplus hkind
    · cases h
      exact id

/-! ## Pending tasks -/

variable (past fs) in
def AnswerHoused : (a : Answer) → a.Carrier → Prop
  | .value, v => Value.Housed past fs v
  | .flow, .normal => True
  | .flow, .returned v => Value.Housed past fs v

variable (past fs) in
/-- What the task holds is housed, where `chain` is the environment in which its answer arrives. -/
def Pending.Housed (chain : Chain) : {a b : Answer} → Pending a b → Prop
  | _, _, .define name => ¬ Implicit name.lexeme
  | _, _, .branch t e => t.Housed past fs chain ∧ ∀ s, e = some s → s.Housed past fs chain
  | _, _, .loopTest c s => c.Housed past fs chain ∧ s.Housed past fs chain
  | _, _, .superclass name _ methods =>
      ¬ Implicit name.lexeme ∧ FunctionDecl.ListProper past.known methods
        ∧ ∀ m ∈ methods, m.SupersKnown past.known true
  | _, _, .unary operator => operator.IsUnary
  | _, _, .binaryLeft operator right => operator.IsBinary ∧ right.Housed past fs chain
  | _, _, .binaryRight _ operator => operator.IsBinary
  | _, _, .logical _ right => right.Housed past fs chain
  | _, _, .conditional t e => t.Housed past fs chain ∧ e.Housed past fs chain
  | _, _, .assign _ name => ¬ Implicit name.lexeme
  | _, _, .callee _ arguments => Expr.ListHoused past fs chain arguments
  | _, _, .argument f _ done rest =>
      f.Housed past fs ∧ (∀ v ∈ done, v.Housed past fs) ∧ Expr.ListHoused past fs chain rest
  | _, _, .setObject _ value => value.Housed past fs chain
  | _, _, .loopBody c s => c.Housed past fs chain ∧ s.Housed past fs chain
  | _, _, .block rest _ => Stmt.ListHoused past fs chain rest
  | _, _, .body f _ => f.Housed past fs
  | _, _, .program rest => Stmt.ListHoused past fs chain rest
  | _, _, _ => True

variable (past fs) in
/-- All tasks of the stack are housed, from this environment on. -/
inductive Stack.Housed : {a : Answer} → Chain → Stack final a → Prop
  | done (chain : Chain) : Housed chain .done
  | push {a b : Answer} {chain : Chain} {task : Pending a b} {below : Stack final b}
      (htask : task.Housed past fs chain) (hbelow : Housed (task.chainBelow chain) below) :
      Housed chain (.push task below)

theorem Pending.Housed.mono {a b : Answer} {task : Pending a b} (h : task.Housed past fs chain)
    (hp : past.Grows past') (hfs : fs.KeepsImplicit fs') : task.Housed past' fs' chain := by
  cases task with
  | define name => exact h
  | branch t e => exact ⟨h.1.mono hp hfs, fun s hs => (h.2 s hs).mono hp hfs⟩
  | loopTest c body => exact ⟨h.1.mono hp hfs, h.2.mono hp hfs⟩
  | superclass name blame methods =>
      exact ⟨h.1, h.2.1.imp hp.known, fun m hm => (h.2.2 m hm).imp hp.known⟩
  | unary operator => exact h
  | binaryLeft operator right => exact ⟨h.1, h.2.mono hp hfs⟩
  | binaryRight left operator => exact h
  | logical operator right => exact Expr.Housed.mono h hp hfs
  | conditional t e => exact ⟨h.1.mono hp hfs, h.2.mono hp hfs⟩
  | assign id name => exact h
  | callee paren arguments => exact Expr.ListHoused.mono h hp hfs
  | argument callee paren done rest =>
      exact ⟨h.1.mono hp hfs, fun v hv => (h.2.1 v hv).mono hp hfs, h.2.2.mono hp hfs⟩
  | setObject name value => exact Expr.Housed.mono h hp hfs
  | loopBody c body => exact ⟨h.1.mono hp hfs, h.2.mono hp hfs⟩
  | block rest outer => exact Stmt.ListHoused.mono h hp hfs
  | body f paren => exact Closure.Housed.mono h hp hfs
  | program rest => exact Stmt.ListHoused.mono h hp hfs
  | _ => trivial

theorem Stack.Housed.mono {a : Answer} {stack : Stack final a} (h : stack.Housed past fs chain)
    (hp : past.Grows past') (hfs : fs.KeepsImplicit fs') : stack.Housed past' fs' chain := by
  induction h with
  | done chain => exact .done chain
  | push htask _ ih => exact .push (htask.mono hp hfs) ih

/-- A later store, in the same past. -/
theorem Stack.Housed.keep {a : Answer} {stack : Stack final a} (h : stack.Housed past fs chain)
    (hfs : fs.KeepsImplicit fs') : stack.Housed past fs' chain :=
  h.mono (.refl past) hfs

/-! ## Configurations -/

/-- The head of the configuration and all pending tasks are housed, and a failure is none that the
checks exclude. -/
inductive Config.Housed (past : Past) : Config final → Prop
  | eval {e : Expr} {stack : Stack final .value} {σ : State} (hσ : σ.Housed past)
      (he : e.Housed past σ.frames σ.chain) (hstack : stack.Housed past σ.frames σ.chain) :
      Housed past (.eval e stack σ)
  | exec {s : Stmt} {stack : Stack final .flow} {σ : State} (hσ : σ.Housed past)
      (hs : s.Housed past σ.frames σ.chain) (hstack : stack.Housed past σ.frames σ.chain) :
      Housed past (.exec s stack σ)
  | answer {a : Answer} {x : a.Carrier} {stack : Stack final a} {σ : State} (hσ : σ.Housed past)
      (hx : AnswerHoused past σ.frames a x) (hstack : stack.Housed past σ.frames σ.chain) :
      Housed past (.answer x stack σ)
  | fail {a : Answer} {failure : Failure} {stack : Stack final a} {σ : State} (hσ : σ.Housed past)
      (hfailure : ¬ failure.Excluded) : Housed past (.fail failure stack σ)

namespace Config.Housed

theorem inBlock {body : List Stmt} {outer : Chain} {stack : Stack final .flow}
    (hσ : σ.Housed past) (hbody : Stmt.ListHoused past σ.frames σ.chain body)
    (hstack : stack.Housed past σ.frames outer) :
    (Config.inBlock body outer stack σ).Housed past := by
  cases body with
  | nil => exact .answer (hσ.congr rfl rfl) trivial hstack
  | cons s rest =>
      obtain ⟨hs, hrest⟩ := hbody.of_cons
      exact .exec hσ hs (.push hrest hstack)

theorem inProgram {statements : List Stmt} {stack : Stack final .flow} (hσ : σ.Housed past)
    (hs : Stmt.ListHoused past σ.frames σ.chain statements)
    (hstack : stack.Housed past σ.frames σ.chain) :
    (Config.inProgram statements stack σ).Housed past := by
  cases statements with
  | nil =>
      rw [Config.inProgram_nil]
      split
      · exact .fail hσ id
      · exact .answer hσ trivial hstack
  | cons s rest =>
      obtain ⟨hs, hrest⟩ := hs.of_cons
      exact .exec hσ hs (.push hrest hstack)

/-- The parameters of a function are no implicit names, so that its frame does not bind `this`. -/
theorem get?_this_params {params : List Token} (h : ∀ param ∈ params, ¬ Implicit param.lexeme)
    (arguments : List Value) :
    Bindings.get? "this" (.ofPairs ((params.map Token.lexeme).zip arguments)) = none := by
  rw [Option.eq_none_iff_forall_not_mem]
  intro v hv
  have hbound := Option.isSome_iff_exists.mpr ⟨v, hv⟩
  rw [Bindings.isSome_get?_ofPairs, List.contains_iff_mem] at hbound
  obtain ⟨pair, hpair, hthis⟩ := List.mem_map.mp hbound
  obtain ⟨param, hparam, hlexeme⟩ := List.mem_map.mp (List.of_mem_zip hpair).1
  exact h param hparam (.inl (hlexeme.trans hthis))

theorem callFunction {f : Closure} {arguments : List Value} {stack : Stack final .value}
    (paren : Token) (hσ : σ.Housed past) (hf : f.Housed past σ.frames)
    (hargs : ∀ v ∈ arguments, v.Housed past σ.frames)
    (hstack : stack.Housed past σ.frames σ.chain) :
    (Config.callFunction f paren arguments stack σ).Housed past := by
  unfold Config.callFunction
  split
  · exact .fail hσ id
  · obtain ⟨id, ⟨name, params, body⟩, chain, isInitializer⟩ := f
    have hproper := hf.proper
    have hhomes := hf.homes
    simp only [FunctionDecl.Proper, FunctionDecl.supers] at hproper hhomes
    have hparams : ∀ x v, Bindings.get? x
        (.ofPairs ((params.map Token.lexeme).zip arguments)) = some v → v.Housed past σ.frames := by
      intro x v hv
      obtain ⟨pair, hpair, rfl⟩ := List.mem_map.mp (Bindings.mem_of_get?_ofPairs hv)
      exact hargs _ (List.of_mem_zip hpair).2
    have hkeep : σ.frames.KeepsImplicit _ := .push σ.frames
      (.ofPairs ((params.map Token.lexeme).zip arguments))
    exact .inBlock ((hσ.enter chain hparams).congr rfl rfl)
      ⟨hproper.2, hhomes.enter (get?_this_params hproper.1 arguments)⟩
      (.push (hf.mono (.refl past) hkeep) (hstack.keep hkeep))

theorem callClass {c : Class} {arguments : List Value} {stack : Stack final .value}
    (paren : Token) (hσ : σ.Housed past) (hc : c.Housed past σ.frames)
    (hargs : ∀ v ∈ arguments, v.Housed past σ.frames)
    (hstack : stack.Housed past σ.frames σ.chain) :
    (Config.callClass c paren arguments stack σ).Housed past := by
  have hallocated := hσ.allocate hc
  unfold Config.callClass
  dsimp only
  split
  · exact .answer (a := .value) hallocated trivial hstack
  · next init hinit =>
    obtain ⟨hbound, hf, hkeep⟩ := hallocated.bind hc hinit σ.objects.size
    exact .callFunction paren hbound hf (fun v hv => (hargs v hv).keep hkeep)
      (.push trivial (hstack.keep hkeep))

theorem call {callee : Value} {arguments : List Value} {stack : Stack final .value}
    (paren : Token) (hσ : σ.Housed past) (hcallee : callee.Housed past σ.frames)
    (hargs : ∀ v ∈ arguments, v.Housed past σ.frames)
    (hstack : stack.Housed past σ.frames σ.chain) :
    (Config.call callee paren arguments stack σ).Housed past := by
  rcases Config.call_cases callee paren arguments stack σ with
    ⟨fault, hfault, heq⟩ | ⟨f, rfl, heq⟩ | ⟨f, rfl, -, heq⟩ | ⟨c, rfl, -, heq⟩ <;> rw [heq]
  · rcases hfault with rfl | ⟨expected, rfl⟩ <;> exact .fail hσ id
  · cases f with
    | clock => exact .answer (a := .value) (hσ.congr rfl rfl) trivial hstack
  · exact .callFunction paren hσ hcallee hargs hstack
  · exact .callClass paren hσ hcallee hargs hstack

theorem callWith {callee : Value} {done : List Value} {rest : List Expr}
    {stack : Stack final .value} (paren : Token) (hσ : σ.Housed past)
    (hcallee : callee.Housed past σ.frames) (hdone : ∀ v ∈ done, v.Housed past σ.frames)
    (hrest : Expr.ListHoused past σ.frames σ.chain rest)
    (hstack : stack.Housed past σ.frames σ.chain) :
    (Config.callWith callee paren done rest stack σ).Housed past := by
  cases rest with
  | nil => exact .call paren hσ hcallee (fun v hv => hdone v (List.mem_reverse.mp hv)) hstack
  | cons e rest =>
      obtain ⟨he, hrest⟩ := hrest.of_cons
      exact .eval hσ he (.push ⟨hcallee, hdone, hrest⟩ hstack)

theorem endCall {f : Closure} {flow : Flow} {stack : Stack final .value} (paren : Token)
    (hσ : σ.Housed past) (hflow : AnswerHoused past σ.frames .flow flow)
    (hstack : stack.Housed past σ.frames σ.chain) :
    (Config.endCall f paren flow stack σ).Housed past := by
  have hleft : State.Housed past { σ with depth := σ.depth - 1 } := hσ.congr rfl rfl
  unfold Config.endCall
  dsimp only
  split
  · split
    · next v hv => exact .answer (a := .value) hleft (hσ.getAt hv) hstack
    · exact .fail hleft id
  · cases flow with
    | normal => exact .answer (a := .value) hleft trivial hstack
    | returned v => exact .answer (a := .value) hleft hflow hstack

theorem readVariable {stack : Stack final .value} (id : NodeId) (name : Token)
    (hσ : σ.Housed past) (hstack : stack.Housed past σ.frames σ.chain) :
    (Config.readVariable id name stack σ).Housed past := by
  unfold Config.readVariable
  split
  · next v hv => exact .answer (a := .value) hσ (hσ.lookup? hv) hstack
  · exact .fail hσ (fun h => h)

theorem assignVariable {v : Value} {stack : Stack final .value} (id : NodeId) {name : Token}
    (hσ : σ.Housed past) (hname : ¬ Implicit name.lexeme) (hv : v.Housed past σ.frames)
    (hstack : stack.Housed past σ.frames σ.chain) :
    (Config.assignVariable id name v stack σ).Housed past := by
  unfold Config.assignVariable
  split
  · next f hf =>
    have hkeep := Frames.KeepsImplicit.define σ.frames f v hname
    exact .answer (a := .value) (hσ.defineIn f hname hv) (hv.keep hkeep) (hstack.keep hkeep)
  · exact .fail hσ (fun h => h)

theorem bindMethod {c : Class} {x : String} {m : Closure} {stack : Stack final .value}
    (hσ : σ.Housed past) (hc : c.Housed past σ.frames) (hm : c.findMethod? x = some m)
    (object : ObjectId) (hstack : stack.Housed past σ.frames σ.chain) :
    (Config.bindMethod m object stack σ).Housed past := by
  obtain ⟨hbound, hf, hkeep⟩ := hσ.bind hc hm object
  exact .answer (a := .value) hbound hf (hstack.keep hkeep)

theorem readProperty {stack : Stack final .value} (object : ObjectId) (name : Token)
    (hσ : σ.Housed past) (hstack : stack.Housed past σ.frames σ.chain) :
    (Config.readProperty object name stack σ).Housed past := by
  unfold Config.readProperty
  cases hproperty : σ.property? object name.lexeme with
  | none => exact .fail hσ (fun h => h)
  | some property =>
      unfold State.property? at hproperty
      split at hproperty
      · cases hproperty
      · next o ho =>
        split at hproperty
        · next v hv =>
          cases hproperty
          exact .answer (a := .value) hσ (hσ.fields ho hv) hstack
        · obtain ⟨m, hm, rfl⟩ := Option.map_eq_some_iff.mp hproperty
          exact bindMethod hσ (hσ.classes ho) hm object hstack

/-- A use of `super` with a home reads a method of the class that the home extends. -/
theorem readSuper {id : NodeId} {keyword : Token} {stack : Stack final .value}
    (method : Token) (hknown : ∀ id r, past.known id r → σ.distances[id]? = r)
    (hσ : σ.Housed past) (he : (Expr.super id keyword method).Housed past σ.frames σ.chain)
    (hstack : stack.Housed past σ.frames σ.chain) :
    (Config.readSuper id keyword method stack σ).Housed past := by
  obtain ⟨hkeyword, hhomes⟩ := he
  obtain ⟨c, m, k, f, o, hhome⟩ := hhomes (id, 0) (by simp)
  obtain ⟨parent, hparent, hsuper, -⟩ := hhome.exists_superclass
  have hclass : Value.Housed past σ.frames (.cls parent) := hσ.getAt hsuper
  unfold Config.readSuper
  rw [hhome.superMethod_eq (by simpa using hkeyword) hparent hknown]
  cases hfound : parent.findMethod? method.lexeme with
  | none => exact .fail hσ (fun h => h)
  | some found => exact bindMethod hσ hclass hfound o hstack

/-- The class that is declared belongs to the past from then on. -/
theorem declareClass {name : Token} {superclass : Option Class} {methods : List FunctionDecl}
    {stack : Stack final .flow} (hσ : σ.Housed past) (hname : ¬ Implicit name.lexeme)
    (hs : ∀ c, superclass = some c → c.Housed past σ.frames)
    (hproper : FunctionDecl.ListProper past.known methods)
    (hsupers : ∀ m ∈ methods, m.SupersKnown past.known superclass.isSome)
    (hstack : stack.Housed past σ.frames σ.chain) :
    (Config.declareClass name superclass methods stack σ).Housed
      (past.declare ((σ.define name.lexeme .nil).makeClass name.lexeme superclass methods).1) := by
  obtain ⟨hdefined, hkeep, hchain⟩ := hσ.define (v := .nil) hname trivial
  rcases hmade : (σ.define name.lexeme .nil).makeClass name.lexeme superclass methods with ⟨c, τ⟩
  obtain ⟨hτ, hclass, hkeep', hchain'⟩ := hdefined.makeClass name.lexeme
    (fun c hc => (hs c hc).mono (.refl past) hkeep) hproper hsupers hmade
  have hgrows := past.grows_declare c
  unfold Config.declareClass
  dsimp only
  rw [hmade]
  dsimp only
  split
  · next f hf =>
    have hkeep'' := Frames.KeepsImplicit.define τ.frames f (.cls c) hname
    refine .answer (a := .flow) (hτ.defineIn f hname hclass) trivial ?_
    have hbelow := hstack.mono hgrows ((hkeep.trans hkeep').trans hkeep'')
    rwa [← hchain, ← hchain'] at hbelow
  · exact .fail hτ (fun h => h)

end Config.Housed

end Machine

end Lox
