import Lox.Proofs.Machine.Operations
import Lox.Proofs.Machine.Runs

/-!
# Runs stay scoped

Every step of a run leads from a scoped configuration to a scoped one, and so does every run.
-/

namespace Lox.Machine

open Resolution (declaredNames after defineAll methodScopes after_nil after_eq_self after_eq_define)

variable {known : NodeId → Option Nat → Prop} {final : Answer} {σ : State} {p : Place}

/-- The innermost scope after these names are defined holds them as well. -/
theorem defineAll_cons (s : Scope) (scopes : Scopes) (names : List Token) :
    ∃ s', defineAll (s :: scopes) names = s' :: scopes
      ∧ ∀ x, s'.holds x = (s.holds x || (names.map Token.lexeme).contains x) := by
  induction names generalizing s with
  | nil => exact ⟨s, rfl, by simp⟩
  | cons name names ih =>
      obtain ⟨s', hs', hholds⟩ := ih ((name.lexeme, true) :: s)
      refine ⟨s', hs', fun x => ?_⟩
      rw [hholds, Scope.holds_cons, List.map_cons, List.contains_cons, Bool.or_assoc,
        Bool.or_left_comm]

/-- The scope of a callable holds its parameters, which is what its frame binds. -/
theorem exists_paramScope (scopes : Scopes) {params : List Token} {arguments : List Value}
    (h : params.length = arguments.length) :
    ∃ s, defineAll ([] :: scopes) params = s :: scopes ∧ ∀ x, s.holds x
      = (Bindings.get? x (.ofPairs ((params.map Token.lexeme).zip arguments))).isSome := by
  obtain ⟨s, hs, hholds⟩ := defineAll_cons [] scopes params
  refine ⟨s, hs, fun x => ?_⟩
  rw [hholds, Bindings.isSome_get?_ofPairs, List.map_fst_zip (by simp [h]), Scope.holds_nil,
    Bool.false_or]

theorem Config.Scoped.inBlock {scopes : Scopes} {body : List Stmt} {outer : Chain}
    {stack : Stack final .flow} (hσ : σ.At known (.settled scopes))
    (hbody : Stmt.ListWellScoped known scopes body) (hp : p.Stands σ.frames outer)
    (hlt : outer.headD globalFrame < σ.chain.headD globalFrame)
    (hstack : stack.Scoped known σ.frames p outer) :
    (Config.inBlock body outer stack σ).Scoped known := by
  cases body with
  | nil => exact .answer ⟨hσ.sound.congr rfl rfl rfl, hp⟩ trivial hstack
  | cons s rest =>
      simp only [Stmt.ListWellScoped] at hbody
      exact .exec hσ hbody.1 (.push (.block hbody.2 hp hlt) hstack)

theorem Config.Scoped.inProgram {statements : List Stmt} {stack : Stack final .flow}
    (hσ : σ.At known (.settled [])) (hs : Stmt.ListWellScoped known [] statements)
    (hstack : stack.Scoped known σ.frames (.settled []) globalChain) :
    (Config.inProgram statements stack σ).Scoped known := by
  have hchain : σ.chain = globalChain := by
    have hr := hσ.stands.realizes
    generalize σ.chain = chain at hr
    cases hr
    rfl
  rw [← hchain] at hstack
  cases statements with
  | nil =>
      rw [Config.inProgram_nil]
      split
      · exact .fail hσ.sound hstack
      · exact .answer hσ trivial hstack
  | cons s rest =>
      simp only [Stmt.ListWellScoped, after_nil] at hs
      refine .exec hσ hs.1 ?_
      rw [after_nil, hchain]
      exact .push (.program hs.2) (hchain ▸ hstack)

theorem Config.Scoped.callFunction {f : Closure} {arguments : List Value}
    {stack : Stack final .value} (paren : Token) (hσ : σ.At known p)
    (hf : f.Scoped known σ.frames) (harity : f.decl.arity = arguments.length)
    (hargs : ∀ v ∈ arguments, v.Scoped known σ.frames)
    (hstack : stack.Scoped known σ.frames p σ.chain) :
    (Config.callFunction f paren arguments stack σ).Scoped known := by
  unfold Config.callFunction
  split
  · exact .fail hσ.sound hstack
  · obtain ⟨id, ⟨name, params, body⟩, chain, isInitializer⟩ := f
    obtain ⟨scopes, hr, hd⟩ := hf
    simp only [FunctionDecl.WellScoped] at hd
    obtain ⟨s, hs, hholds⟩ := exists_paramScope scopes harity
    rw [hs] at hd
    have hb : ∀ x v, Bindings.get? x (.ofPairs ((params.map Token.lexeme).zip arguments)) = some v →
        v.Scoped known σ.frames := by
      intro x v hv
      obtain ⟨pair, hpair, rfl⟩ := List.mem_map.mp (Bindings.mem_of_get?_ofPairs hv)
      exact hargs _ (List.of_mem_zip hpair).2
    have hinside := hσ.sound.enter hr hb hholds
    exact .inBlock (hinside.congr rfl rfl rfl rfl) hd.2
      (hσ.stands.mono (σ.frames.extends_push _) hσ.headD_lt) hσ.headD_lt
      (.push (.body p σ.chain _ paren) (hstack.push_frame hσ _))

theorem Config.Scoped.callClass {c : Class} {arguments : List Value} {stack : Stack final .value}
    (paren : Token) (hσ : σ.At known p) (hc : c.Scoped known σ.frames)
    (harity : c.arity = arguments.length) (hargs : ∀ v ∈ arguments, v.Scoped known σ.frames)
    (hstack : stack.Scoped known σ.frames p σ.chain) :
    (Config.callClass c paren arguments stack σ).Scoped known := by
  have halloc := hσ.allocate hc
  unfold Config.callClass
  dsimp only
  split
  · exact .answer halloc trivial hstack
  · next init hinit =>
    obtain ⟨hσ', hbound⟩ := halloc.bind (hc.findMethod? hinit) σ.objects.size
    have he := σ.frames.extends_push [("this", Value.object σ.objects.size)]
    refine .callFunction paren hσ' hbound ?_ (fun v hv => (hargs v hv).mono he)
      (.push (.construct p σ.chain _) (hstack.push_frame hσ _))
    rw [← harity, Class.arity, hinit]
    rfl

theorem Config.Scoped.call {callee : Value} {arguments : List Value} {stack : Stack final .value}
    (paren : Token) (hσ : σ.At known p) (hcallee : callee.Scoped known σ.frames)
    (hargs : ∀ v ∈ arguments, v.Scoped known σ.frames)
    (hstack : stack.Scoped known σ.frames p σ.chain) :
    (Config.call callee paren arguments stack σ).Scoped known := by
  rcases Config.call_cases callee paren arguments stack σ with
    ⟨fault, -, heq⟩ | ⟨f, rfl, heq⟩ | ⟨f, rfl, harity, heq⟩ | ⟨c, rfl, harity, heq⟩ <;> rw [heq]
  · exact .fail hσ.sound hstack
  · cases f with
    | clock => exact .answer (hσ.congr rfl rfl rfl rfl) trivial hstack
  · exact .callFunction paren hσ hcallee harity hargs hstack
  · exact .callClass paren hσ hcallee harity hargs hstack

theorem Config.Scoped.callWith {callee : Value} {done : List Value} {rest : List Expr}
    {stack : Stack final .value} (paren : Token) (hσ : σ.At known p)
    (hcallee : callee.Scoped known σ.frames) (hdone : ∀ v ∈ done, v.Scoped known σ.frames)
    (hrest : Expr.ListWellScoped known p.visible rest)
    (hstack : stack.Scoped known σ.frames p σ.chain) :
    (Config.callWith callee paren done rest stack σ).Scoped known := by
  cases rest with
  | nil => exact .call paren hσ hcallee (fun v hv => hdone v (List.mem_reverse.mp hv)) hstack
  | cons e rest =>
      simp only [Expr.ListWellScoped] at hrest
      exact .eval hσ hrest.1 (.push (.argument σ.chain paren hcallee hdone hrest.2) hstack)

theorem Config.Scoped.endCall {flow : Flow} {stack : Stack final .value} (f : Closure)
    (paren : Token) (hσ : σ.At known p) (hflow : AnswerScoped known σ.frames .flow flow)
    (hstack : stack.Scoped known σ.frames p σ.chain) :
    (Config.endCall f paren flow stack σ).Scoped known := by
  have hσ' : State.At known p { σ with depth := σ.depth - 1 } := hσ.congr rfl rfl rfl rfl
  unfold Config.endCall
  dsimp only
  split
  · split
    · next v hv =>
      obtain ⟨g, -, hg⟩ := Frames.get?_of_getAt hv
      exact .answer hσ' (hσ.sound.frames hg) hstack
    · exact .fail hσ'.sound hstack
  · cases flow with
    | normal => exact .answer hσ' trivial hstack
    | returned v => exact .answer hσ' hflow hstack

theorem Config.Scoped.readVariable {stack : Stack final .value} (id : NodeId) (name : Token)
    (hσ : σ.At known p) (hstack : stack.Scoped known σ.frames p σ.chain) :
    (Config.readVariable id name stack σ).Scoped known := by
  unfold Config.readVariable
  split
  · next v hv => exact .answer hσ (hσ.sound.of_lookup? hv) hstack
  · exact .fail hσ.sound hstack

theorem State.binds_of_target? {id : NodeId} {x : String} {f : FrameId}
    (hf : σ.target? id x = some f) : σ.frames.binds f x = true := by
  unfold State.target? at hf
  split at hf
  · exact (Frames.binds_of_holderAt? hf).2
  · exact Frames.binds_of_holder? hf

theorem Config.Scoped.assignVariable {v : Value} {stack : Stack final .value} (id : NodeId)
    (name : Token) (hσ : σ.At known p) (hv : v.Scoped known σ.frames)
    (hstack : stack.Scoped known σ.frames p σ.chain) :
    (Config.assignVariable id name v stack σ).Scoped known := by
  unfold Config.assignVariable
  split
  · next f hf =>
    have hb := State.binds_of_target? hf
    exact .answer (hσ.assign hb hv) (hv.mono (σ.frames.extends_define f _ v)) (hstack.assign hb)
  · exact .fail hσ.sound hstack

theorem Config.Scoped.bindMethod {m : Closure} {stack : Stack final .value} (object : ObjectId)
    (hσ : σ.At known p) (hm : m.MethodScoped known σ.frames)
    (hstack : stack.Scoped known σ.frames p σ.chain) :
    (Config.bindMethod m object stack σ).Scoped known := by
  obtain ⟨hσ', hbound⟩ := hσ.bind hm object
  exact .answer hσ' hbound (hstack.push_frame hσ _)

theorem Config.Scoped.readProperty {stack : Stack final .value} (object : ObjectId) (name : Token)
    (hσ : σ.At known p) (hstack : stack.Scoped known σ.frames p σ.chain) :
    (Config.readProperty object name stack σ).Scoped known := by
  unfold Config.readProperty
  split
  · next v hv => exact .answer hσ (hσ.sound.of_property? hv) hstack
  · next m hm => exact .bindMethod object hσ (hσ.sound.of_property? hm) hstack
  · exact .fail hσ.sound hstack

theorem Config.Scoped.readSuper {stack : Stack final .value} (id : NodeId) (keyword method : Token)
    (hσ : σ.At known p) (hstack : stack.Scoped known σ.frames p σ.chain) :
    (Config.readSuper id keyword method stack σ).Scoped known := by
  unfold Config.readSuper
  split
  · next m object h => exact .bindMethod object hσ (hσ.sound.of_superMethod h) hstack
  · exact .fail hσ.sound hstack

/-- Making methods uses up identities, and nothing else of the state changes. -/
theorem State.makeMethods_eq (σ : State) (methods : List FunctionDecl) :
    ∃ n, (σ.makeMethods methods).2 = { σ with nextIdentity := n } := by
  induction methods generalizing σ with
  | nil => exact ⟨σ.nextIdentity, rfl⟩
  | cons m ms ih =>
      obtain ⟨n, hn⟩ := ih σ.useIdentity
      exact ⟨n, by rw [State.makeMethods]; exact hn⟩

theorem State.of_mem_makeMethods {methods : List FunctionDecl} {m : Closure}
    (hm : m ∈ (σ.makeMethods methods).1.map Prod.snd) : m.decl ∈ methods ∧ m.chain = σ.chain := by
  induction methods generalizing σ with
  | nil => simp [State.makeMethods] at hm
  | cons d ds ih =>
      rw [State.makeMethods, List.map_cons, List.mem_cons] at hm
      rcases hm with rfl | hm
      · exact ⟨List.mem_cons_self, rfl⟩
      · obtain ⟨hdecl, hchain⟩ := ih hm
        exact ⟨List.mem_cons_of_mem d hdecl, hchain⟩

theorem State.At.makeMethods {scopes : Scopes} {methods : List FunctionDecl}
    (hσ : σ.At known (.settled scopes))
    (hm : FunctionDecl.ListWellScoped known (scopes.enterWith "this") methods) (x : String)
    (m : Closure) (h : Bindings.get? x (.ofPairs (σ.makeMethods methods).1) = some m) :
    m.MethodScoped known σ.frames := by
  obtain ⟨hdecl, hchain⟩ := State.of_mem_makeMethods (Bindings.mem_of_get?_ofPairs h)
  exact ⟨scopes, hchain ▸ hσ.stands.realizes, hm.forall _ hdecl⟩

theorem State.At.makeClass {scopes : Scopes} {methods : List FunctionDecl}
    {superclass : Option Class} {e : Option Expr} (hσ : σ.At known (.settled scopes)) (name : String)
    (hsame : superclass.isSome = e.isSome)
    (hsuper : ∀ c, superclass = some c → c.Scoped known σ.frames)
    (hm : FunctionDecl.ListWellScoped known (methodScopes scopes e) methods) :
    ∃ h, σ.chain.headD globalFrame < h
      ∧ σ.frames.Extends h (σ.makeClass name superclass methods).2.frames
      ∧ (σ.makeClass name superclass methods).2.At known (.settled scopes)
      ∧ (σ.makeClass name superclass methods).2.chain = σ.chain
      ∧ (σ.makeClass name superclass methods).1.Scoped known
          (σ.makeClass name superclass methods).2.frames := by
  cases superclass with
  | none =>
      obtain rfl : e = none := by simpa using hsame
      obtain ⟨n, hn⟩ := σ.makeMethods_eq methods
      have hstate : (σ.makeClass name none methods).2
          = { σ with nextIdentity := n + 1 } := by
        simp only [State.makeClass, hn, State.useIdentity, State.within]
      have hclass : (σ.makeClass name none methods).1
          = .make n name (.ofPairs (σ.makeMethods methods).1) none := by
        simp only [State.makeClass, hn]
      have hscoped := Class.Scoped.make n name none (hσ.makeMethods hm) (fun _ h => nomatch h)
      rw [hstate, hclass]
      exact ⟨_, hσ.headD_lt, .refl _ _, hσ.congr rfl rfl rfl rfl, rfl, hscoped⟩
  | some c =>
      obtain ⟨e, rfl⟩ : ∃ e', e = some e' := by
        cases e with
        | none => simp at hsame
        | some e => exact ⟨e, rfl⟩
      have hsuper' := hsuper c rfl
      let τ := σ.enter [("super", .cls c)] σ.chain
      have hτ : τ.At known (.settled (scopes.enterWith "super")) :=
        hσ.enterWith (v := .cls c) "super" hsuper'
      have he : σ.frames.Extends σ.frames.size τ.frames := σ.frames.extends_push _
      obtain ⟨n, hn⟩ := τ.makeMethods_eq methods
      have hstate : (σ.makeClass name (some c) methods).2
          = { τ with nextIdentity := n + 1, chain := σ.chain } := by
        simp only [State.makeClass, τ, hn, State.useIdentity, State.within]
      have hclass : (σ.makeClass name (some c) methods).1
          = .make n name (.ofPairs (τ.makeMethods methods).1) (some c) := by
        simp only [State.makeClass, τ, hn]
      have hscoped := Class.Scoped.make n name (some c) (hτ.makeMethods hm) fun c' hc' => by
        cases hc'
        exact hsuper'.mono he
      rw [hstate, hclass]
      exact ⟨_, hσ.headD_lt, he,
        ⟨hτ.sound.congr rfl rfl rfl, hσ.stands.mono he hσ.headD_lt⟩, rfl, hscoped⟩

theorem Config.Scoped.declareClass {scopes : Scopes} {name : Token} {superclass : Option Class}
    {e : Option Expr} {methods : List FunctionDecl} {stack : Stack final .flow}
    (hσ : σ.At known (.settled scopes)) (hsame : superclass.isSome = e.isSome)
    (hsuper : ∀ c, superclass = some c → c.Scoped known σ.frames)
    (hm : FunctionDecl.ListWellScoped known (methodScopes (scopes.define name.lexeme) e) methods)
    (hstack : stack.Scoped known σ.frames (.settled (scopes.define name.lexeme)) σ.chain) :
    (Config.declareClass name superclass methods stack σ).Scoped known := by
  obtain ⟨hdefined, hframes, hchain⟩ := hσ.define (v := .nil) name.lexeme trivial
  have he := σ.frames.extends_define (σ.chain.headD globalFrame) name.lexeme .nil
  obtain ⟨h, hlt, hext, hmade, hchain', hclass⟩ := hdefined.makeClass (e := e) name.lexeme hsame
    (fun c hc => by rw [hframes]; exact (hsuper c hc).mono he) hm
  have hbelow := hstack.define name.lexeme .nil
  rw [← hframes, ← hchain] at hbelow
  replace hbelow := hbelow.mono hext (Nat.le_of_lt hlt)
  rw [← hchain'] at hbelow
  unfold Config.declareClass
  dsimp only
  split
  · next f hf =>
    have hb := Frames.binds_of_holder? hf
    exact .answer (hmade.assign hb hclass) trivial (hbelow.assign hb)
  · exact .fail hmade.sound hbelow

/-! ## Steps -/

theorem Config.Scoped.evalStep {e : Expr} {stack : Stack final .value} (hσ : σ.At known p)
    (he : e.WellScoped known p.visible) (hstack : stack.Scoped known σ.frames p σ.chain) :
    (Config.evalStep e stack σ).Scoped known := by
  cases e with
  | literal literal =>
      refine .answer hσ ?_ hstack
      cases literal <;> trivial
  | group inner =>
      simp only [Expr.WellScoped] at he
      exact .eval hσ he hstack
  | unary operator operand =>
      simp only [Expr.WellScoped] at he
      exact .eval hσ he (.push (.unary p _ operator) hstack)
  | binary left operator right =>
      simp only [Expr.WellScoped] at he
      exact .eval hσ he.1 (.push (.binaryLeft _ operator he.2) hstack)
  | logical left operator right =>
      simp only [Expr.WellScoped] at he
      exact .eval hσ he.1 (.push (.logical _ operator he.2) hstack)
  | conditional c t e =>
      simp only [Expr.WellScoped] at he
      exact .eval hσ he.1 (.push (.conditional _ he.2.1 he.2.2) hstack)
  | var id name => exact .readVariable id name hσ hstack
  | assign id name value =>
      simp only [Expr.WellScoped] at he
      exact .eval hσ he.1 (.push (.assign _ he.2.1 he.2.2) hstack)
  | call callee paren arguments =>
      simp only [Expr.WellScoped] at he
      exact .eval hσ he.1 (.push (.callee _ paren he.2) hstack)
  | get object name =>
      simp only [Expr.WellScoped] at he
      exact .eval hσ he (.push (.get p _ name) hstack)
  | set object name value =>
      simp only [Expr.WellScoped] at he
      exact .eval hσ he.1 (.push (.setObject _ name he.2) hstack)
  | this id keyword => exact .readVariable id keyword hσ hstack
  | super id keyword method => exact .readSuper id keyword method hσ hstack

/-- A branch or a loop body is executed at the place of the statement that it is part of. -/
theorem Config.Scoped.exec_of_declaredNames {scopes : Scopes} {s : Stmt} {stack : Stack final .flow}
    (hσ : σ.At known (.settled scopes))
    (hs : s.WellScoped known scopes ∧ declaredNames s = [])
    (hstack : stack.Scoped known σ.frames (.settled scopes) σ.chain) :
    Config.Scoped known (.exec s stack σ) :=
  .exec hσ hs.1 (by rwa [after_eq_self hs.2])

theorem Config.Scoped.execStep {scopes : Scopes} {s : Stmt} {stack : Stack final .flow}
    (hσ : σ.At known (.settled scopes)) (hs : s.WellScoped known scopes)
    (hstack : stack.Scoped known σ.frames (.settled (after scopes s)) σ.chain) :
    (Config.execStep s stack σ).Scoped known := by
  cases s with
  | expression e =>
      simp only [Stmt.WellScoped] at hs
      rw [after_eq_self (by simp only [declaredNames])] at hstack
      exact .eval hσ hs (.push (.discard scopes _) hstack)
  | print e =>
      simp only [Stmt.WellScoped] at hs
      rw [after_eq_self (by simp only [declaredNames])] at hstack
      exact .eval hσ hs (.push (.print scopes _) hstack)
  | var name initializer =>
      simp only [Stmt.WellScoped] at hs
      rw [after_eq_define name (by simp only [declaredNames])] at hstack
      cases initializer with
      | none =>
          obtain ⟨hσ', hframes, hchain⟩ := hσ.define (v := .nil) name.lexeme trivial
          refine .answer hσ' trivial ?_
          rw [hframes, hchain]
          exact hstack.define name.lexeme .nil
      | some e =>
          -- While the initializer runs, the name is declared and not bound yet.
          exact .eval ⟨hσ.sound, hσ.stands.declare hs.1⟩ hs.2 (.push (.define _ hs.1) hstack)
  | block body =>
      simp only [Stmt.WellScoped] at hs
      rw [after_eq_self (by simp only [declaredNames])] at hstack
      have hinside : (σ.enter [] σ.chain).At known (.settled ([] :: scopes)) :=
        hσ.sound.enter hσ.stands.realizes (by simp) (by simp)
      exact .inBlock hinside hs (hσ.stands.mono (σ.frames.extends_push []) hσ.headD_lt) hσ.headD_lt
        (hstack.push_frame hσ [])
  | ifThen c t =>
      simp only [Stmt.WellScoped] at hs
      rw [after_eq_self (by simp [hs.2.2])] at hstack
      exact .eval hσ hs.1 (.push (.branch _ hs.2 (by simp)) hstack)
  | ifElse c t e =>
      simp only [Stmt.WellScoped] at hs
      rw [after_eq_self (by simp [hs.2.1.2, hs.2.2.2])] at hstack
      refine .eval hσ hs.1 (.push (.branch _ hs.2.1 fun s h => ?_) hstack)
      cases h
      exact hs.2.2
  | loop c body =>
      simp only [Stmt.WellScoped] at hs
      rw [after_eq_self (by simp [hs.2.2])] at hstack
      exact .eval hσ hs.1 (.push (.loopTest _ hs.1 hs.2) hstack)
  | function decl =>
      simp only [Stmt.WellScoped] at hs
      rw [after_eq_define decl.name (by simp only [declaredNames])] at hstack
      have hσ' : σ.useIdentity.At known (.settled scopes) := hσ.congr rfl rfl rfl rfl
      obtain ⟨f, outer, hchain, -⟩ := hσ.stands.realizes.exists_head hσ.sound.size_pos
      have hr := hσ.stands.realizes
      rw [hchain] at hr
      have hf : Value.Scoped known (σ.frames.define (σ.chain.headD globalFrame) decl.name.lexeme
          (.function (σ.closure decl false))) (.function (σ.closure decl false)) := by
        refine ⟨scopes.define decl.name.lexeme, ?_, hs.2⟩
        simp only [State.closure, hchain]
        exact hr.define
      obtain ⟨hdefined, hframes, hchain'⟩ := hσ'.define decl.name.lexeme hf
      refine .answer hdefined trivial ?_
      rw [hframes, hchain']
      exact hstack.define decl.name.lexeme _
  | ret keyword value =>
      simp only [Stmt.WellScoped] at hs
      rw [after_eq_self (by simp only [declaredNames])] at hstack
      cases value with
      | none => exact .answer hσ trivial hstack
      | some e => exact .eval hσ hs (.push (.ret scopes _) hstack)
  | classDecl name superclass methods =>
      simp only [Stmt.WellScoped] at hs
      rw [after_eq_define name (by simp only [declaredNames])] at hstack
      cases superclass with
      | none =>
          rw [Config.execStep]
          exact .declareClass (e := none) hσ rfl (fun _ h => by cases h) hs.2.2 hstack
      | some e =>
          rw [Config.execStep]
          refine .eval hσ ?_ (.push (.superclass _ _ hs.1 hs.2.2) hstack)
          cases e with
          | var id superName => exact hs.2.1.2
          | _ => exact hs.2.1.elim

theorem Config.Scoped.ofExcept {result : Except Failure Value} {stack : Stack final .value}
    (hσ : σ.At known p) (hresult : ∀ w, result = .ok w → w.IsScalar)
    (hstack : stack.Scoped known σ.frames p σ.chain) :
    (Config.ofExcept (a := .value) stack σ result).Scoped known := by
  cases result with
  | error failure => exact .fail hσ.sound hstack
  | ok w => exact .answer hσ (hresult w rfl).scoped hstack

theorem Config.Scoped.resumeValue {b : Answer} {v : Value} {task : Pending .value b}
    {stack : Stack final b} {p' : Place} {chain' : Chain} (hσ : σ.At known p)
    (hv : v.Scoped known σ.frames) (htask : task.Leads known σ.frames p σ.chain p' chain')
    (hstack : stack.Scoped known σ.frames p' chain') :
    (Config.resumeValue v task stack σ).Scoped known := by
  cases htask with
  | discard scopes => exact .answer hσ trivial hstack
  | print scopes =>
      have hσ' : State.At known (.settled scopes) (σ.print (σ.display v)) :=
        hσ.congr rfl rfl rfl rfl
      rw [Config.resumeValue_print]
      split
      · exact .answer hσ' trivial hstack
      · exact .fail hσ'.sound hstack
  | @define scopes name _ hname =>
      obtain ⟨hσ', hframes, hchain⟩ :=
        hσ.define name.lexeme (hv.mono (σ.frames.extends_define _ _ v))
      refine .answer hσ' trivial ?_
      rw [hframes, hchain]
      exact hstack.define name.lexeme v
  | branch _ ht he =>
      rw [Config.resumeValue_branch]
      split
      · exact .exec_of_declaredNames hσ ht hstack
      · split
        · exact .exec_of_declaredNames hσ (he _ rfl) hstack
        · exact .answer hσ trivial hstack
  | loopTest _ hc hbody =>
      rw [Config.resumeValue_loopTest]
      split
      · exact .exec_of_declaredNames hσ hbody (.push (.loopBody _ hc hbody) hstack)
      · exact .answer hσ trivial hstack
  | ret scopes => exact .answer (a := .flow) hσ hv hstack
  | @superclass scopes name methods e _ blame hname hmethods =>
      unfold Config.resumeValue
      dsimp only
      split
      · next c =>
        refine .declareClass (e := some e) hσ rfl (fun c' hc' => ?_) hmethods hstack
        cases hc'
        exact hv
      · exact .fail hσ.sound hstack
  | unary _ _ operator => exact .ofExcept hσ (fun w hw => isScalar_of_applyUnary hw) hstack
  | binaryLeft _ operator hright =>
      exact .eval hσ hright (.push (.binaryRight p _ operator hv) hstack)
  | binaryRight _ _ operator hleft =>
      exact .ofExcept hσ (fun w hw => isScalar_of_applyBinary hw) hstack
  | logical _ operator hright =>
      rw [Config.resumeValue_logical]
      split
      · exact .answer (a := .value) hσ hv hstack
      · exact .eval hσ hright hstack
  | conditional _ ht he =>
      rw [Config.resumeValue_conditional]
      split
      · exact .eval hσ ht hstack
      · exact .eval hσ he hstack
  | @assign _ id name _ hname hid => exact .assignVariable id name hσ hv hstack
  | callee _ paren harguments => exact .callWith paren hσ hv (by simp) harguments hstack
  | argument _ paren hcallee hdone hrest =>
      refine .callWith paren hσ hcallee (fun w hw => ?_) hrest hstack
      rcases List.mem_cons.mp hw with rfl | hw
      · exact hv
      · exact hdone w hw
  | get _ _ name =>
      unfold Config.resumeValue
      dsimp only
      split
      · exact .readProperty _ name hσ hstack
      · exact .fail hσ.sound hstack
  | setObject _ name hvalue =>
      unfold Config.resumeValue
      dsimp only
      split
      · exact .eval hσ hvalue (.push (.setField p _ _ name) hstack)
      · exact .fail hσ.sound hstack
  | setField _ _ object name =>
      exact .answer (a := .value) (hσ.setField object name.lexeme hv) hv hstack
  | construct _ _ object => exact .answer (a := .value) hσ trivial hstack

theorem Config.Scoped.resumeFlow {b : Answer} {flow : Flow} {task : Pending .flow b}
    {stack : Stack final b} {p' : Place} {chain chain' : Chain} (hσ : σ.At known p)
    (hchain : σ.chain = chain) (hflow : AnswerScoped known σ.frames .flow flow)
    (htask : task.Leads known σ.frames p chain p' chain')
    (hstack : stack.Scoped known σ.frames p' chain') :
    (Config.resumeFlow flow task stack σ).Scoped known := by
  cases htask with
  | loopBody _ hc hbody =>
      subst hchain
      cases flow with
      | normal => exact .eval hσ hc (.push (.loopTest _ hc hbody) hstack)
      | returned v => exact .answer (a := .flow) hσ hflow hstack
  | block hrest hp hlt =>
      subst hchain
      cases flow with
      | normal => exact .inBlock hσ hrest hp hlt hstack
      | returned v =>
          exact .answer (a := .flow) ⟨hσ.sound.congr rfl rfl rfl, hp⟩ hflow hstack
  | body _ _ f paren =>
      subst hchain
      exact .endCall f paren hσ hflow hstack
  | program hrest => exact .inProgram hσ hrest hstack

/-- A failure leaves a task for the environment that the task leads to. -/
theorem Pending.Leads.leave {a b : Answer} {p' : Place} {chain chain' : Chain} {task : Pending a b}
    (hσ : σ.Scoped known) (hchain : σ.chain = chain)
    (htask : task.Leads known σ.frames p chain p' chain') :
    (task.leave σ).Scoped known ∧ (task.leave σ).frames = σ.frames
      ∧ (task.leave σ).chain = chain' := by
  cases htask with
  | block hrest hp hlt => exact ⟨hσ.congr rfl rfl rfl, rfl, rfl⟩
  | body => exact ⟨hσ.congr rfl rfl rfl, rfl, hchain⟩
  | program hrest => exact ⟨hσ.congr rfl rfl rfl, rfl, rfl⟩
  | _ => exact ⟨hσ, rfl, hchain⟩

/-! ## Runs -/

/-- The end of a run is scoped and back at the top level. -/
structure Outcome.Scoped (known : NodeId → Option Nat → Prop) (outcome : Outcome final) :
    Prop where
  sound : outcome.σ.Scoped known
  chain_eq : outcome.σ.chain = globalChain

/-- With nothing pending, a run is at the top level. -/
theorem Stack.Scoped.chain_of_done {fs : Frames Value} {chain : Chain}
    (h : Stack.Scoped known fs p chain (.done : Stack final final)) : chain = globalChain := by
  cases h
  rfl

theorem Stack.Scoped.of_push {fs : Frames Value} {chain : Chain} {a b : Answer}
    {task : Pending a b} {below : Stack final b}
    (h : Stack.Scoped known fs p chain (.push task below)) :
    ∃ p' chain', task.Leads known fs p chain p' chain' ∧ below.Scoped known fs p' chain' := by
  cases h with
  | push htask hbelow => exact ⟨_, _, htask, hbelow⟩

/-- A step of a scoped configuration leads to a scoped one, or to a scoped end. -/
theorem Config.Scoped.step {c : Config final} (hc : c.Scoped known) :
    match c.step with
    | .inl c' => c'.Scoped known
    | .inr outcome => outcome.Scoped known := by
  cases hc with
  | eval hσ he hstack => exact .evalStep hσ he hstack
  | exec hσ hs hstack => exact .execStep hσ hs hstack
  | @answer a p x stack σ hσ hx hstack =>
      cases stack with
      | done => exact ⟨hσ.sound, hstack.chain_of_done⟩
      | push task below =>
          obtain ⟨p', chain', htask, hbelow⟩ := hstack.of_push
          cases a with
          | value => exact .resumeValue hσ hx htask hbelow
          | flow => exact .resumeFlow hσ rfl hx htask hbelow
  | @fail a p failure stack σ hσ hstack =>
      cases stack with
      | done => exact ⟨hσ, hstack.chain_of_done⟩
      | push task below =>
          obtain ⟨p', chain', htask, hbelow⟩ := hstack.of_push
          obtain ⟨hσ', hframes, hchain⟩ := htask.leave hσ rfl
          rw [← hframes, ← hchain] at hbelow
          exact .fail hσ' hbelow

theorem Config.Scoped.knows {c : Config final} (hc : c.Scoped known) {id : NodeId} {r : Option Nat}
    (hid : known id r) : c.state.distances[id]? = r := by
  cases hc with
  | eval hσ => exact hσ.sound.knows hid
  | exec hσ => exact hσ.sound.knows hid
  | answer hσ => exact hσ.sound.knows hid
  | fail hσ => exact hσ.knows hid

/-- Every moment of the run of a scoped configuration is scoped, and so is its end. -/
theorem Config.Scoped.advance {c : Config final} (hc : c.Scoped known) (n : Nat) :
    match c.advance n with
    | .inl c' => c'.Scoped known
    | .inr outcome => outcome.Scoped known :=
  holds_advance (fun hd => hd.step) hc n

theorem Config.Scoped.of_advance {c c' : Config final} (hc : c.Scoped known) {n : Nat}
    (h : c.advance n = .inl c') : c'.Scoped known := by
  have hadvance := hc.advance n
  rwa [h] at hadvance

end Lox.Machine
