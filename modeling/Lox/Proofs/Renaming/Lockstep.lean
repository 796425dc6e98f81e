import Lox.Proofs.Machine.Preservation
import Lox.Proofs.Renaming.Operations

/-!
# Lockstep

A renamed program runs in lockstep with the program that it comes from: related configurations make
related steps, until both runs end, and then they end alike.
-/

namespace Lox.Machine

variable {ρ : Renaming} {tags marked marked' : List Bool} {final : Answer} {σ σ' : State}
variable {v v' : Value}

theorem Config.Renamed.inBlock {body : List Stmt} {outer : Chain} {stack stack' : Stack final .flow}
    (path : List Nat) (place : Nat) (hσ : σ.Renamed ρ tags σ')
    (hchain : Tagged tags marked σ.chain) (hbody : ListRenamable ρ marked body)
    (houter : Tagged tags marked' outer) (hstack : stack.Renamed ρ tags marked' stack') :
    (Config.inBlock body outer stack σ).Renamed ρ
      (Config.inBlock (Stmt.listRename ρ marked path place body) outer stack' σ') := by
  obtain ⟨hb, hk⟩ := hbody
  cases body with
  | nil =>
      simp only [Stmt.listRename]
      exact .answer (hσ.within outer) houter .normal hstack
  | cons s rest =>
      simp only [Stmt.ListBuilt, Stmt.listRename] at *
      have hrest : ListRenamable ρ marked rest :=
        ⟨hb.2, fun t ht => hk t (List.mem_cons_of_mem s ht)⟩
      exact .exec (place :: path) hσ hchain ⟨hb.1, hk s List.mem_cons_self⟩
        (.push (.block path (place + 1) hrest houter) hstack)

theorem Config.Renamed.inProgram {statements : List Stmt} {stack stack' : Stack final .flow}
    (path : List Nat) (place : Nat) (hσ : σ.Renamed ρ tags σ') (hchain : Tagged tags [] σ.chain)
    (hs : ListRenamable ρ [] statements) (hstack : stack.Renamed ρ tags [] stack') :
    (Config.inProgram statements stack σ).Renamed ρ
      (Config.inProgram (Stmt.listRename ρ [] path place statements) stack' σ') := by
  obtain ⟨hb, hk⟩ := hs
  cases statements with
  | nil =>
      have hsink : σ'.sink = σ.sink := by rw [hσ.rest_eq]
      simp only [Stmt.listRename, Config.inProgram, hsink]
      split
      · exact .fail hσ hstack
      · exact .answer hσ hchain .normal hstack
  | cons s rest =>
      simp only [Stmt.ListBuilt, Stmt.listRename] at *
      have hrest : ListRenamable ρ [] rest :=
        ⟨hb.2, fun t ht => hk t (List.mem_cons_of_mem s ht)⟩
      exact .exec (place :: path) hσ hchain ⟨hb.1, hk s List.mem_cons_self⟩
        (.push (.program path (place + 1) hrest) hstack)

theorem related_params {params : List Token} {arguments arguments' : List Value} (m : Bool)
    (hp : ∀ param ∈ params, param.lexeme ≠ ρ.new)
    (hargs : List.Forall₂ (Value.Renamed ρ tags) arguments arguments') :
    Bindings.Related (· ≠ ρ.new) (ρ.name m) (Value.Renamed ρ tags)
      (.ofPairs ((params.map Token.lexeme).zip arguments))
      (.ofPairs (((params.map (ρ.token m)).map Token.lexeme).zip arguments')) := by
  refine Bindings.Related.ofPairs (fun x y hx hy heq => Renaming.name_inj hx hy heq) ?_
  induction params generalizing arguments arguments' with
  | nil => exact .nil
  | cons param params ih =>
      cases hargs with
      | nil => exact .nil
      | cons hv hargs =>
          have hrest := ih (fun p h => hp p (List.mem_cons_of_mem param h)) hargs
          exact .cons ⟨rfl, hp param List.mem_cons_self, hv⟩ hrest

theorem Config.Renamed.callFunction {f f' : Closure} {arguments arguments' : List Value}
    {stack stack' : Stack final .value} (paren : Token) (hσ : σ.Renamed ρ tags σ')
    (hchain : Tagged tags marked σ.chain) (hf : f.Renamed ρ tags [] f')
    (hargs : List.Forall₂ (Value.Renamed ρ tags) arguments arguments')
    (hstack : stack.Renamed ρ tags marked stack') :
    (Config.callFunction f paren arguments stack σ).Renamed ρ
      (Config.callFunction f' paren arguments' stack' σ') := by
  have hf' := hf
  obtain ⟨inner, path, hinner, hb, rfl⟩ := hf
  obtain ⟨id, ⟨name, params, body⟩, chain, isInitializer⟩ := f
  have hdepth : σ'.depth = σ.depth := by rw [hσ.rest_eq]
  unfold Config.callFunction
  rw [hdepth]
  split
  · exact .fail hσ hstack
  · simp only [FunctionDecl.Built, FunctionDecl.rename, List.nil_append] at *
    obtain ⟨hentered, htagged⟩ := hσ.enter
      (related_params (ρ.marks path body) (fun p hp => (hb.2.1 p hp).1.ne) hargs) hinner
    have hbody : ListRenamable ρ (ρ.marks path body :: inner) body :=
      ⟨hb.2.2, fun s hs => Stmt.keepsCallables_of_mem hs path inner⟩
    rw [hσ.chain_eq]
    exact .inBlock path 0 (hentered.congr ⟨rfl, rfl, rfl⟩ (by rw [hentered.rest_eq])) htagged hbody
      (hchain.append _) (.push (.body marked paren (hf'.append _)) (hstack.append _))

theorem forall₂_append {arguments arguments' : List Value}
    (h : List.Forall₂ (Value.Renamed ρ tags) arguments arguments') (more : List Bool) :
    List.Forall₂ (Value.Renamed ρ (tags ++ more)) arguments arguments' :=
  h.imp fun _ _ hv => hv.append more

theorem Config.Renamed.callClass {c c' : Class} {arguments arguments' : List Value}
    {stack stack' : Stack final .value} (paren : Token) (hσ : σ.Renamed ρ tags σ')
    (hchain : Tagged tags marked σ.chain) (hc : c.Renamed ρ tags c')
    (hargs : List.Forall₂ (Value.Renamed ρ tags) arguments arguments')
    (hstack : stack.Renamed ρ tags marked stack') :
    (Config.callClass c paren arguments stack σ).Renamed ρ
      (Config.callClass c' paren arguments' stack' σ') := by
  have halloc := hσ.allocate hc
  have hmethod := hc.findMethod? initializerName
  unfold Config.callClass
  rw [← hσ.size_eq]
  dsimp only
  generalize c.findMethod? initializerName = m at hmethod ⊢
  generalize c'.findMethod? initializerName = m' at hmethod ⊢
  cases hmethod with
  | none => exact .answer halloc hchain (.value (.object _)) hstack
  | some hm =>
      obtain ⟨hbound, hclosure⟩ := halloc.bind hm σ.objects.size
      exact .callFunction paren hbound (hchain.append _) hclosure (forall₂_append hargs _)
        (.push (.construct marked _) (hstack.append _))

theorem Config.Renamed.call {callee callee' : Value} {arguments arguments' : List Value}
    {stack stack' : Stack final .value} (paren : Token) (hσ : σ.Renamed ρ tags σ')
    (hchain : Tagged tags marked σ.chain) (hcallee : callee.Renamed ρ tags callee')
    (hargs : List.Forall₂ (Value.Renamed ρ tags) arguments arguments')
    (hstack : stack.Renamed ρ tags marked stack') :
    (Config.call callee paren arguments stack σ).Renamed ρ
      (Config.call callee' paren arguments' stack' σ') := by
  unfold Config.call
  rw [arity?_eq hcallee, ← hargs.length_eq]
  split
  · exact .fail hσ hstack
  · split
    · exact .fail hσ hstack
    · cases hcallee with
      | native f =>
          cases f with
          | clock =>
              have hclock : σ'.clock = σ.clock := by rw [hσ.rest_eq]
              simp only [Config.callNative, State.callNative, hclock]
              exact .answer (hσ.congr ⟨rfl, rfl, rfl⟩ (by rw [hσ.rest_eq])) hchain
                (.value (.number _)) hstack
      | function hf => exact .callFunction paren hσ hchain hf hargs hstack
      | cls hc => exact .callClass paren hσ hchain hc hargs hstack
      | _ => exact .fail hσ hstack

theorem Config.Renamed.callWith {callee callee' : Value} {done done' : List Value}
    {rest : List Expr} {stack stack' : Stack final .value} (paren : Token)
    (hσ : σ.Renamed ρ tags σ') (hchain : Tagged tags marked σ.chain)
    (hcallee : callee.Renamed ρ tags callee')
    (hdone : List.Forall₂ (Value.Renamed ρ tags) done done')
    (hrest : Expr.ListBuilt ρ.Fresh rest) (hstack : stack.Renamed ρ tags marked stack') :
    (Config.callWith callee paren done rest stack σ).Renamed ρ
      (Config.callWith callee' paren done' (Expr.listRename ρ marked rest) stack' σ') := by
  cases rest with
  | nil =>
      simp only [Expr.listRename]
      exact .call paren hσ hchain hcallee (List.rel_reverse hdone) hstack
  | cons e rest =>
      simp only [Expr.ListBuilt, Expr.listRename] at *
      exact .eval hσ hchain hrest.1 (.push (.argument marked paren hcallee hdone hrest.2) hstack)

theorem Config.Renamed.endCall {f f' : Closure} {flow flow' : Flow}
    {stack stack' : Stack final .value} (paren : Token) (hσ : σ.Renamed ρ tags σ')
    (hchain : Tagged tags marked σ.chain) (hf : f.Renamed ρ tags [] f')
    (hflow : AnswerRenamed ρ tags .flow flow flow') (hstack : stack.Renamed ρ tags marked stack') :
    (Config.endCall f paren flow stack σ).Renamed ρ
      (Config.endCall f' paren flow' stack' σ') := by
  obtain ⟨inner, path, hinner, hb, rfl⟩ := hf
  have hleft : State.Renamed ρ tags { σ with depth := σ.depth - 1 }
      { σ' with depth := σ'.depth - 1 } :=
    hσ.congr ⟨rfl, rfl, rfl⟩ (by rw [hσ.rest_eq])
  unfold Config.endCall
  dsimp only
  split
  · have hthis := hσ.getAt_implicit hinner 0 (x := "this") (.inl rfl)
    generalize σ.frames.getAt f.chain 0 "this" = v at hthis ⊢
    generalize σ'.frames.getAt f.chain 0 "this" = v' at hthis ⊢
    cases hthis with
    | some hv => exact .answer hleft hchain (.value hv) hstack
    | none => exact .fail hleft hstack
  · cases hflow with
    | normal => exact .answer hleft hchain (.value .nil) hstack
    | returned hv => exact .answer hleft hchain (.value hv) hstack

theorem Config.Renamed.readVariable {stack stack' : Stack final .value} (id : NodeId)
    {name name' : Token} (hσ : σ.Renamed ρ tags σ') (hchain : Tagged tags marked σ.chain)
    (hvalue : Option.Rel (Value.Renamed ρ tags) (σ.lookup? id name.lexeme)
      (σ'.lookup? id name'.lexeme))
    (hstack : stack.Renamed ρ tags marked stack') :
    (Config.readVariable id name stack σ).Renamed ρ (Config.readVariable id name' stack' σ') := by
  unfold Config.readVariable
  generalize σ.lookup? id name.lexeme = v at hvalue ⊢
  generalize σ'.lookup? id name'.lexeme = v' at hvalue ⊢
  cases hvalue with
  | some hv => exact .answer hσ hchain (.value hv) hstack
  | none => exact .fail hσ hstack

theorem Config.Renamed.assignVariable {name : Token} {stack stack' : Stack final .value}
    (id : NodeId) (hσ : σ.Renamed ρ tags σ') (hchain : Tagged tags marked σ.chain)
    (hname : name.lexeme ≠ ρ.new) (hv : v.Renamed ρ tags v')
    (hstack : stack.Renamed ρ tags marked stack') :
    (Config.assignVariable id name v stack σ).Renamed ρ
      (Config.assignVariable id (ρ.token (ρ.refers marked id) name) v' stack' σ') := by
  unfold Config.assignVariable
  rw [Renaming.lexeme_token, hσ.target?_eq hchain id hname]
  split
  · next f hf =>
    exact .answer (hσ.defineIn (hσ.tag_of_target? hchain hf) hname hv) hchain (.value hv) hstack
  · exact .fail hσ hstack

theorem Config.Renamed.bindMethod {m m' : Closure} {stack stack' : Stack final .value}
    (object : ObjectId) (hσ : σ.Renamed ρ tags σ') (hchain : Tagged tags marked σ.chain)
    (hm : m.Renamed ρ tags [false] m') (hstack : stack.Renamed ρ tags marked stack') :
    (Config.bindMethod m object stack σ).Renamed ρ
      (Config.bindMethod m' object stack' σ') := by
  obtain ⟨hbound, hclosure⟩ := hσ.bind hm object
  exact .answer hbound (hchain.append _) (.value (.function hclosure)) (hstack.append _)

theorem Config.Renamed.readProperty {stack stack' : Stack final .value} (object : ObjectId)
    (name : Token) (hσ : σ.Renamed ρ tags σ') (hchain : Tagged tags marked σ.chain)
    (hstack : stack.Renamed ρ tags marked stack') :
    (Config.readProperty object name stack σ).Renamed ρ
      (Config.readProperty object name stack' σ') := by
  have hproperty := hσ.property? object name.lexeme
  unfold Config.readProperty
  split at hproperty
  · next h h' =>
    rw [h, h']
    exact .answer hσ hchain (.value hproperty) hstack
  · next h h' =>
    rw [h, h']
    exact .bindMethod object hσ hchain hproperty hstack
  · next h h' =>
    rw [h, h']
    exact .fail hσ hstack
  · exact hproperty.elim

theorem Config.Renamed.readSuper {stack stack' : Stack final .value} (id : NodeId)
    {keyword : Token} (method : Token) (hσ : σ.Renamed ρ tags σ')
    (hchain : Tagged tags marked σ.chain) (hx : Implicit keyword.lexeme)
    (hstack : stack.Renamed ρ tags marked stack') :
    (Config.readSuper id keyword method stack σ).Renamed ρ
      (Config.readSuper id keyword method stack' σ') := by
  have hsuper := hσ.superMethod hchain id method hx
  unfold Config.readSuper
  split at hsuper
  · next h h' =>
    obtain ⟨hm, rfl⟩ := hsuper
    rw [h, h']
    exact .bindMethod _ hσ hchain hm hstack
  · next h h' =>
    rw [h, h']
    exact .fail hσ hstack
  · exact hsuper.elim

theorem State.binds_makeClass {f : FrameId} {x : String} (hb : σ.frames.binds f x = true)
    (name : String) (superclass : Option Class) (methods : List FunctionDecl) :
    (σ.makeClass name superclass methods).2.frames.binds f x = true := by
  cases superclass with
  | none =>
      obtain ⟨n, hn⟩ := σ.makeMethods_eq methods
      simp only [State.makeClass, hn, State.useIdentity, State.within, hb]
  | some c =>
      obtain ⟨n, hn⟩ := (σ.enter [("super", .cls c)] σ.chain).makeMethods_eq methods
      simp only [State.makeClass, hn, State.useIdentity, State.within]
      exact (σ.frames.extends_push [("super", .cls c)]).binds hb

theorem State.Renamed.makeClass (hσ : σ.Renamed ρ tags σ') (hchain : Tagged tags marked σ.chain)
    (name : String) {c c' : Option Class} (hc : Option.Rel (Class.Renamed ρ tags) c c')
    {e : Option Expr} (hsame : c.isSome = e.isSome) {methods : List FunctionDecl}
    (hb : FunctionDecl.ListBuilt ρ.Fresh methods) (path : List Nat) (place : Nat)
    {methods' : List FunctionDecl}
    (hm : methods'
      = FunctionDecl.listRename ρ (Renaming.inClass marked e) path place methods) :
    ∃ more, (σ.makeClass name c methods).2.Renamed ρ (tags ++ more)
        (σ'.makeClass name c' methods').2
      ∧ (σ.makeClass name c methods).1.Renamed ρ (tags ++ more)
        (σ'.makeClass name c' methods').1
      ∧ (σ.makeClass name c methods).2.chain = σ.chain := by
  cases hc with
  | none =>
      obtain rfl : e = none := by simpa using hsame
      change methods' = FunctionDecl.listRename ρ (false :: marked) path place methods at hm
      subst hm
      obtain ⟨htable, hmade, -⟩ := hσ.makeMethods hchain hb path place
      have hmethods := Bindings.Pointwise.ofPairs htable
      refine ⟨[], ?_, ?_, rfl⟩
      · simp only [List.append_nil, State.makeClass, hσ.chain_eq]
        exact (hmade.useIdentity).within σ.chain
      · simp only [List.append_nil, State.makeClass, hmade.nextIdentity_eq]
        exact .make _ name hmethods .none
  | @some c c' hc =>
      obtain ⟨e, rfl⟩ : ∃ e', e = some e' := by
        cases e with
        | none => simp at hsame
        | some e => exact ⟨e, rfl⟩
      change methods' = FunctionDecl.listRename ρ (false :: false :: marked) path place methods
        at hm
      subst hm
      -- The new frame binds `super`, which no renaming is about, so that it is not marked.
      obtain ⟨hentered, htagged⟩ :=
        hσ.enter (related_implicit (x := "super") (.inr rfl) (.cls hc)) hchain
      obtain ⟨htable, hmade, -⟩ := hentered.makeMethods htagged hb path place
      have hmethods := Bindings.Pointwise.ofPairs htable
      refine ⟨[false], ?_, ?_, rfl⟩
      · simp only [State.makeClass, hσ.chain_eq]
        exact (hmade.useIdentity).within σ.chain
      · simp only [State.makeClass, hσ.chain_eq, hmade.nextIdentity_eq]
        exact .make _ name hmethods (.some (hc.append [false]))

theorem Config.Renamed.declareClass {name : Token} {c c' : Option Class} {e : Option Expr}
    {methods : List FunctionDecl} {stack stack' : Stack final .flow} (path : List Nat) (place : Nat)
    (hσ : σ.Renamed ρ tags σ') (hchain : Tagged tags marked σ.chain)
    (hname : name.lexeme ≠ ρ.new) (htoken : ρ.token (marked.headD false) name = name)
    (hc : Option.Rel (Class.Renamed ρ tags) c c') (hsame : c.isSome = e.isSome)
    (hb : FunctionDecl.ListBuilt ρ.Fresh methods) {methods' : List FunctionDecl}
    (hm : methods' = FunctionDecl.listRename ρ (Renaming.inClass marked e) path place methods)
    (hstack : stack.Renamed ρ tags marked stack') :
    (Config.declareClass name c methods stack σ).Renamed ρ
      (Config.declareClass name c' methods' stack' σ') := by
  have hlexeme : ρ.name (marked.headD false) name.lexeme = name.lexeme :=
    congrArg Token.lexeme htoken
  obtain ⟨hdefined, hchain'⟩ := hσ.define hchain hname .nil
  rw [hlexeme] at hdefined
  have htagged : Tagged tags marked (σ.define name.lexeme .nil).chain := by rwa [hchain']
  obtain ⟨more, hmade, hclass, hsame'⟩ :=
    hdefined.makeClass htagged name.lexeme hc hsame hb path place hm
  obtain ⟨f, outer, hf, htag⟩ := htagged.exists_head
  have hf' :
      ((σ.define name.lexeme .nil).makeClass name.lexeme c methods).2.chain = f :: outer := by
    rw [hsame', hf]
  have hbinds : ((σ.define name.lexeme .nil).makeClass name.lexeme c methods).2.frames.binds f
      name.lexeme = true := by
    refine State.binds_makeClass ?_ ..
    have hdefine : σ.define name.lexeme .nil = σ.defineIn f name.lexeme .nil := by
      simp [State.define, hchain' ▸ hf]
    rw [hdefine]
    apply Frames.binds_define_self
    rw [hσ.frames.size_eq]
    exact (List.getElem?_eq_some_iff.mp htag).1
  have htag' : (tags ++ more)[f]? = some (marked.headD false) := by
    rwa [List.getElem?_append_left (List.getElem?_eq_some_iff.mp htag).1]
  have hbinds' := hmade.frames.binds htag' hname
  rw [hlexeme, hbinds] at hbinds'
  unfold Config.declareClass
  dsimp only
  rw [Frames.holder?, Frames.holder?, hmade.chain_eq, hf', List.find?_cons, List.find?_cons, hbinds,
    hbinds']
  have hassigned := hmade.defineIn htag' hname (.cls hclass)
  rw [hlexeme] at hassigned
  refine .answer hassigned ?_ .normal (hstack.append more)
  rw [State.defineIn, hsame', hchain']
  exact hchain.append more

/-! ## Syntax and answers -/

theorem Config.Renamed.evalStep {e : Expr} {stack stack' : Stack final .value}
    (hσ : σ.Renamed ρ tags σ') (hchain : Tagged tags marked σ.chain) (he : e.Built ρ.Fresh)
    (hstack : stack.Renamed ρ tags marked stack') :
    (Config.evalStep e stack σ).Renamed ρ (Config.evalStep (e.rename ρ marked) stack' σ') := by
  cases e with
  | literal literal =>
      simp only [Expr.rename]
      refine .answer hσ hchain (.value ?_) hstack
      cases literal with
      | nil => exact .nil
      | boolean b => exact .boolean b
      | number x => exact .number x
      | string text => exact .string text
  | group inner =>
      simp only [Expr.Built, Expr.rename] at *
      exact .eval hσ hchain he hstack
  | unary operator operand =>
      simp only [Expr.Built, Expr.rename] at *
      exact .eval hσ hchain he (.push (.unary marked operator) hstack)
  | binary left operator right =>
      simp only [Expr.Built, Expr.rename] at *
      exact .eval hσ hchain he.1 (.push (.binaryLeft marked operator he.2) hstack)
  | logical left operator right =>
      simp only [Expr.Built, Expr.rename] at *
      exact .eval hσ hchain he.1 (.push (.logical marked operator he.2) hstack)
  | conditional c t e =>
      simp only [Expr.Built, Expr.rename] at *
      exact .eval hσ hchain he.1 (.push (.conditional marked he.2.1 he.2.2) hstack)
  | var id name =>
      simp only [Expr.Built, Expr.rename] at *
      exact .readVariable id hσ hchain (hσ.lookup? hchain id he.1.ne) hstack
  | assign id name value =>
      simp only [Expr.Built, Expr.rename] at *
      exact .eval hσ hchain he.2 (.push (.assign marked id he.1.1) hstack)
  | call callee paren arguments =>
      simp only [Expr.Built, Expr.rename] at *
      exact .eval hσ hchain he.1 (.push (.callee marked paren he.2) hstack)
  | get object name =>
      simp only [Expr.Built, Expr.rename] at *
      exact .eval hσ hchain he (.push (.get marked name) hstack)
  | set object name value =>
      simp only [Expr.Built, Expr.rename] at *
      exact .eval hσ hchain he.1 (.push (.setObject marked name he.2) hstack)
  | this id keyword =>
      simp only [Expr.Built, Expr.rename] at *
      have hthis : Implicit keyword.lexeme := .inl (he.1.spelled.lexeme_this he.2)
      exact .readVariable id hσ hchain (hσ.lookup?_implicit hchain id hthis) hstack
  | super id keyword method =>
      simp only [Expr.Built, Expr.rename] at *
      have hsuper : Implicit keyword.lexeme := .inr (he.1.spelled.lexeme_super he.2)
      exact .readSuper id method hσ hchain hsuper hstack

theorem Config.Renamed.execStep {s : Stmt} {stack stack' : Stack final .flow} (path : List Nat)
    (hσ : σ.Renamed ρ tags σ') (hchain : Tagged tags marked σ.chain) (hs : Renamable ρ marked s)
    (hstack : stack.Renamed ρ tags marked stack') :
    (Config.execStep s stack σ).Renamed ρ (Config.execStep (s.rename ρ marked path) stack' σ') := by
  obtain ⟨hb, hk⟩ := hs
  cases s with
  | expression e =>
      simp only [Stmt.Built, Stmt.rename] at *
      exact .eval hσ hchain hb (.push (.discard marked) hstack)
  | print e =>
      simp only [Stmt.Built, Stmt.rename] at *
      exact .eval hσ hchain hb (.push (.print marked) hstack)
  | var name initializer =>
      simp only [Stmt.Built, Stmt.rename] at *
      cases initializer with
      | none =>
          obtain ⟨hdefined, hsame⟩ := hσ.define hchain hb.1.1.ne .nil
          rw [Option.map_none, Config.execStep, Config.execStep]
          exact .answer hdefined (by rwa [hsame]) .normal hstack
      | some e =>
          rw [Option.map_some, Config.execStep, Config.execStep]
          exact .eval hσ hchain hb.2 (.push (.define marked hb.1.1) hstack)
  | block body =>
      simp only [Stmt.Built, Stmt.rename] at *
      have hnil : Bindings.Related (· ≠ ρ.new) (ρ.name (ρ.marks path body))
          (Value.Renamed ρ tags) [] [] := Bindings.related_nil
      obtain ⟨hentered, htagged⟩ := hσ.enter hnil hchain
      have hbody : ListRenamable ρ (ρ.marks path body :: marked) body :=
        ⟨hb, fun t ht => Stmt.keepsCallables_of_mem ht path marked⟩
      rw [Config.execStep, Config.execStep, hσ.chain_eq]
      exact .inBlock path 0 hentered htagged hbody (hchain.append _) (hstack.append _)
  | ifThen c t =>
      simp only [Stmt.Built, Stmt.rename] at *
      have ht : Renamable ρ marked t := ⟨hb.2.1, Stmt.keepsCallables_of_declaredNames hb.2.2⟩
      exact .eval hσ hchain hb.1 (.push (.branch (0 :: path) [] ht (by simp)) hstack)
  | ifElse c t e =>
      simp only [Stmt.Built, Stmt.rename] at *
      have ht : Renamable ρ marked t :=
        ⟨hb.2.1.1, Stmt.keepsCallables_of_declaredNames hb.2.1.2⟩
      have he : Renamable ρ marked e :=
        ⟨hb.2.2.1, Stmt.keepsCallables_of_declaredNames hb.2.2.2⟩
      refine .eval hσ hchain hb.1 (.push (.branch (0 :: path) (1 :: path) ht fun s hs => ?_) hstack)
      obtain rfl := Option.some.inj hs
      exact he
  | loop c body =>
      simp only [Stmt.Built, Stmt.rename] at *
      have hbody : Renamable ρ marked body :=
        ⟨hb.2.1, Stmt.keepsCallables_of_declaredNames hb.2.2⟩
      exact .eval hσ hchain hb.1 (.push (.loopTest (0 :: path) hb.1 hbody) hstack)
  | function decl =>
      simp only [Stmt.Built, Stmt.rename] at *
      have hname : decl.name.lexeme ≠ ρ.new := by
        cases decl
        simp only [FunctionDecl.Built] at hb
        exact hb.1.1.ne
      -- A scope that declares a function of the old name is not marked.
      have hlexeme : ρ.name (marked.headD false) decl.name.lexeme = decl.name.lexeme :=
        congrArg Token.lexeme (Renaming.token_function hk)
      have hclosure : (σ.closure decl false).Renamed ρ tags []
          (σ'.closure (decl.rename ρ marked path) false) := by
        refine ⟨marked, path, hchain, hb, ?_⟩
        simp only [State.closure, hσ.chain_eq, hσ.nextIdentity_eq, List.nil_append]
      obtain ⟨hdefined, hsame⟩ := hσ.useIdentity.define hchain hname (.function hclosure)
      rw [hlexeme] at hdefined
      rw [Config.execStep, Config.execStep, FunctionDecl.name_rename]
      exact .answer hdefined (by rwa [hsame]) .normal hstack
  | ret keyword value =>
      simp only [Stmt.Built, Stmt.rename] at *
      cases value with
      | none => exact .answer hσ hchain (.returned .nil) hstack
      | some e => exact .eval hσ hchain hb (.push (.ret marked) hstack)
  | classDecl name superclass methods =>
      simp only [Stmt.Built, Stmt.rename] at *
      have htoken := Renaming.token_classDecl hk
      cases superclass with
      | none =>
          rw [Option.map_none, Config.execStep, Config.execStep]
          exact .declareClass (e := none) path 0 hσ hchain hb.1.1.ne htoken .none rfl hb.2.2 rfl
            hstack
      | some e =>
          rw [Option.map_some, Config.execStep, Config.execStep]
          have he : e.Built ρ.Fresh := by
            cases e with
            | var id superName => exact hb.2.1
            | _ => exact hb.2.1.elim
          exact .eval hσ hchain he (.push (.superclass _ _ path 0 hb.1.1 htoken hb.2.2) hstack)

theorem Config.Renamed.ofExcept {result result' : Except Failure Value}
    {stack stack' : Stack final .value} (hσ : σ.Renamed ρ tags σ')
    (hchain : Tagged tags marked σ.chain) (hresult : ResultRenamed ρ tags result result')
    (hstack : stack.Renamed ρ tags marked stack') :
    (Config.ofExcept (a := .value) stack σ result).Renamed ρ
      (Config.ofExcept (a := .value) stack' σ' result') := by
  cases hresult with
  | ok hv => exact .answer hσ hchain (.value hv) hstack
  | error failure failure' => exact .fail hσ hstack

theorem Config.Renamed.resumeValue {b : Answer} {task task' : Pending .value b}
    {stack stack' : Stack final b} (hσ : σ.Renamed ρ tags σ')
    (hchain : Tagged tags marked σ.chain) (hv : v.Renamed ρ tags v')
    (htask : task.Renamed ρ tags marked task' marked')
    (hstack : stack.Renamed ρ tags marked' stack') :
    (Config.resumeValue v task stack σ).Renamed ρ (Config.resumeValue v' task' stack' σ') := by
  cases htask with
  | discard => exact .answer hσ hchain .normal hstack
  | print =>
      have hprinted := hσ.print (σ.display v)
      have hcan : σ'.canPrint (σ.display v) = σ.canPrint (σ.display v) := by rw [hσ.rest_eq]; rfl
      simp only [Config.resumeValue_print]
      rw [hσ.display_eq hv, hcan]
      split
      · exact .answer hprinted hchain .normal hstack
      · exact .fail hprinted hstack
  | define _ hname =>
      obtain ⟨hdefined, hsame⟩ := hσ.define hchain hname.ne hv
      exact .answer hdefined (by rwa [hsame]) .normal hstack
  | @branch _ t e path path' ht he =>
      simp only [Config.resumeValue_branch]
      rw [hv.truthy_eq]
      split
      · exact .exec path hσ hchain ht hstack
      · cases e with
        | some e => exact .exec path' hσ hchain (he e rfl) hstack
        | none => exact .answer hσ hchain .normal hstack
  | loopTest path hc hbody =>
      simp only [Config.resumeValue_loopTest]
      rw [hv.truthy_eq]
      split
      · exact .exec path hσ hchain hbody (.push (.loopBody path hc hbody) hstack)
      · exact .answer hσ hchain .normal hstack
  | ret => exact .answer hσ hchain (.returned hv) hstack
  | @superclass _ name methods blame blame' path place hname hsame hmethods =>
      cases hv with
      | cls hc =>
          exact .declareClass (e := some (.literal .nil)) path place hσ hchain hname.ne hsame
            (.some hc) rfl hmethods rfl hstack
      | _ => exact .fail hσ hstack
  | unary _ operator => exact .ofExcept hσ hchain (renamed_applyUnary operator hv) hstack
  | binaryLeft _ operator hright =>
      exact .eval hσ hchain hright (.push (.binaryRight marked operator hv) hstack)
  | binaryRight _ operator hleft =>
      exact .ofExcept hσ hchain (renamed_applyBinary operator hleft hv) hstack
  | logical _ operator hright =>
      have hdecides : decides operator v' = decides operator v := by
        unfold decides
        rw [hv.truthy_eq]
      simp only [Config.resumeValue_logical]
      rw [hdecides]
      split
      · exact .answer hσ hchain (.value hv) hstack
      · exact .eval hσ hchain hright hstack
  | conditional _ ht he =>
      simp only [Config.resumeValue_conditional]
      rw [hv.truthy_eq]
      split
      · exact .eval hσ hchain ht hstack
      · exact .eval hσ hchain he hstack
  | assign _ id hname => exact .assignVariable id hσ hchain hname.ne hv hstack
  | callee _ paren harguments => exact .callWith paren hσ hchain hv .nil harguments hstack
  | argument _ paren hcallee hdone hrest =>
      exact .callWith paren hσ hchain hcallee (.cons hv hdone) hrest hstack
  | get _ name =>
      cases hv with
      | object object => exact .readProperty object name hσ hchain hstack
      | _ => exact .fail hσ hstack
  | setObject _ name hvalue =>
      cases hv with
      | object object => exact .eval hσ hchain hvalue (.push (.setField marked object name) hstack)
      | _ => exact .fail hσ hstack
  | setField _ object name =>
      exact .answer (hσ.setField object name.lexeme hv) hchain (.value hv) hstack
  | construct _ object => exact .answer hσ hchain (.value (.object object)) hstack

theorem Config.Renamed.resumeFlow {b : Answer} {flow flow' : Flow} {task task' : Pending .flow b}
    {stack stack' : Stack final b} (hσ : σ.Renamed ρ tags σ')
    (hchain : Tagged tags marked σ.chain) (hflow : AnswerRenamed ρ tags .flow flow flow')
    (htask : task.Renamed ρ tags marked task' marked')
    (hstack : stack.Renamed ρ tags marked' stack') :
    (Config.resumeFlow flow task stack σ).Renamed ρ (Config.resumeFlow flow' task' stack' σ') := by
  cases htask with
  | loopBody path hc hbody =>
      cases hflow with
      | normal => exact .eval hσ hchain hc (.push (.loopTest path hc hbody) hstack)
      | returned hv => exact .answer hσ hchain (.returned hv) hstack
  | block path place hrest houter =>
      cases hflow with
      | normal => exact .inBlock path place hσ hchain hrest houter hstack
      | returned hv => exact .answer (hσ.within _) houter (.returned hv) hstack
  | body _ paren hf => exact .endCall paren hσ hchain hf hflow hstack
  | program path place hrest => exact .inProgram path place hσ hchain hrest hstack

theorem Pending.Renamed.leave {a b : Answer} {task task' : Pending a b} (hσ : σ.Renamed ρ tags σ')
    (htask : task.Renamed ρ tags marked task' marked') :
    (task.leave σ).Renamed ρ tags (task'.leave σ') := by
  cases htask with
  | block => exact hσ.within _
  | body => exact hσ.congr ⟨rfl, rfl, rfl⟩ (by rw [hσ.rest_eq]; rfl)
  | program => exact hσ.congr ⟨rfl, rfl, rfl⟩ (by rw [hσ.rest_eq]; rfl)
  | _ => exact hσ

/-! ## Runs -/

theorem Config.Renamed.step {c c' : Config final} (hc : c.Renamed ρ c') :
    match c.step, c'.step with
    | .inl d, .inl d' => d.Renamed ρ d'
    | .inr o, .inr o' => o.Alike o'
    | _, _ => False := by
  cases hc with
  | eval hσ hchain he hstack => exact .evalStep hσ hchain he hstack
  | exec path hσ hchain hs hstack => exact .execStep path hσ hchain hs hstack
  | @answer _ _ a _ _ _ _ _ _ hσ hchain hx hstack =>
      cases hstack with
      | done => exact ⟨rfl, by rw [hσ.rest_eq]⟩
      | push htask hbelow =>
          cases a with
          | value =>
              cases hx with
              | value hv => exact .resumeValue hσ hchain hv htask hbelow
          | flow => exact .resumeFlow hσ hchain hx htask hbelow
  | fail hσ hstack =>
      cases hstack with
      | done => exact ⟨rfl, by rw [hσ.rest_eq]⟩
      | push htask hbelow => exact .fail (htask.leave hσ) hbelow

/-- Two related runs are related after every number of steps, or have both ended alike. -/
theorem Config.Renamed.advance {c c' : Config final} (hc : c.Renamed ρ c') (n : Nat) :
    match c.advance n, c'.advance n with
    | .inl d, .inl d' => d.Renamed ρ d'
    | .inr o, .inr o' => o.Alike o'
    | _, _ => False := by
  induction n generalizing c c' with
  | zero => exact hc
  | succ n ih =>
      have hstep := hc.step
      rw [Config.advance, Config.advance]
      cases h : c.step with
      | inl d =>
          cases h' : c'.step with
          | inl d' =>
              rw [h, h'] at hstep
              exact ih hstep
          | inr o' => rw [h, h'] at hstep; exact hstep.elim
      | inr o =>
          cases h' : c'.step with
          | inl d' => rw [h, h'] at hstep; exact hstep.elim
          | inr o' =>
              rw [h, h'] at hstep
              exact hstep

theorem Config.Renamed.run {c c' : Config final} (hc : c.Renamed ρ c') (steps : Nat) :
    Option.Rel Outcome.Alike (c.run steps) (c'.run steps) := by
  have hadvance := hc.advance steps
  unfold Config.run
  generalize c.advance steps = r at hadvance ⊢
  generalize c'.advance steps = r' at hadvance ⊢
  cases r with
  | inl d =>
      cases r' with
      | inl d' => exact .none
      | inr o' => exact hadvance.elim
  | inr o =>
      cases r' with
      | inl d' => exact hadvance.elim
      | inr o' => exact .some hadvance

end Lox.Machine
