import Lox.Machine.Step
import Lox.Proofs.Renaming.Frames

/-!
# Runs before and after a renaming

Two configurations are related if the second is the first after a renaming: closures have renamed
declarations, frames are related, and all else is the same. Which of the scopes around a piece of
the program is marked is found again in the tags of its environment.
-/

namespace Lox

variable (ρ : Renaming) (tags : List Bool)

/-- The second closure has the renamed declaration of the first. The declaration stands in the scopes
of the environment, and in these further ones inside it. -/
def Closure.Renamed (inner : List Bool) (f f' : Closure) : Prop :=
  ∃ marked path, Tagged tags marked f.chain ∧ f.decl.Built ρ.Fresh
    ∧ f' = { f with decl := f.decl.rename ρ (inner ++ marked) path }

/-- The second class has the renamed methods of the first. -/
inductive Class.Renamed : Class → Class → Prop
  | root (id : Identity) (name : String) {methods methods' : Bindings Closure}
      (hm : Bindings.Pointwise (Closure.Renamed ρ tags [false]) methods methods') :
      Renamed (.root id name methods) (.root id name methods')
  | extending (id : Identity) (name : String) {methods methods' : Bindings Closure} {c c' : Class}
      (hm : Bindings.Pointwise (Closure.Renamed ρ tags [false]) methods methods')
      (hc : Renamed c c') :
      Renamed (.extending id name methods c) (.extending id name methods' c')

/-- The second value has the renamed closures of the first. -/
inductive Value.Renamed : Value → Value → Prop
  | nil : Renamed .nil .nil
  | boolean (b : Bool) : Renamed (.boolean b) (.boolean b)
  | number (x : Float) : Renamed (.number x) (.number x)
  | string (text : String) : Renamed (.string text) (.string text)
  | native (f : Native) : Renamed (.native f) (.native f)
  | function {f f' : Closure} (hf : f.Renamed ρ tags [] f') : Renamed (.function f) (.function f')
  | cls {c c' : Class} (hc : c.Renamed ρ tags c') : Renamed (.cls c) (.cls c')
  | object (id : ObjectId) : Renamed (.object id) (.object id)

structure Object.Renamed (o o' : Object) : Prop where
  cls : o.cls.Renamed ρ tags o'.cls
  fields : Bindings.Pointwise (Value.Renamed ρ tags) o.fields o'.fields

namespace Machine

inductive AnswerRenamed : (a : Answer) → a.Carrier → a.Carrier → Prop
  | value {v v' : Value} (hv : v.Renamed ρ tags v') : AnswerRenamed .value v v'
  | normal : AnswerRenamed .flow .normal .normal
  | returned {v v' : Value} (hv : v.Renamed ρ tags v') :
      AnswerRenamed .flow (.returned v) (.returned v')

/-- A statement that can be renamed in these scopes. -/
structure Renamable (ρ : Renaming) (marked : List Bool) (s : Stmt) : Prop where
  built : s.Built ρ.Fresh
  keeps : s.KeepsCallables ρ marked

structure ListRenamable (ρ : Renaming) (marked : List Bool) (ss : List Stmt) : Prop where
  built : Stmt.ListBuilt ρ.Fresh ss
  keeps : ∀ s ∈ ss, s.KeepsCallables ρ marked

/-- The second task is the first one renamed in the scopes where its answer arrives. The answer of
the task goes to the scopes at the end. -/
inductive Pending.Renamed :
    {a b : Answer} → List Bool → Pending a b → Pending a b → List Bool → Prop
  | discard (marked : List Bool) : Renamed marked .discard .discard marked
  | print (marked : List Bool) : Renamed marked .print .print marked
  | define {name : Token} (marked : List Bool) (hname : ρ.Fresh name) :
      Renamed marked (.define name) (.define (ρ.token (marked.headD false) name)) marked
  | branch {marked : List Bool} {t : Stmt} {e : Option Stmt} (path path' : List Nat)
      (ht : Renamable ρ marked t) (he : ∀ s, e = some s → Renamable ρ marked s) :
      Renamed marked (.branch t e)
        (.branch (t.rename ρ marked path) (e.map (·.rename ρ marked path'))) marked
  | loopTest {c : Expr} {marked : List Bool} {body : Stmt} (path : List Nat)
      (hc : c.Built ρ.Fresh) (hbody : Renamable ρ marked body) :
      Renamed marked (.loopTest c body)
        (.loopTest (c.rename ρ marked) (body.rename ρ marked path)) marked
  | ret (marked : List Bool) : Renamed marked .ret .ret marked
  | superclass {marked : List Bool} {name : Token} {methods : List FunctionDecl}
      (blame blame' : Token) (path : List Nat) (place : Nat) (hname : ρ.Fresh name)
      (hsame : ρ.token (marked.headD false) name = name)
      (hmethods : FunctionDecl.ListBuilt ρ.Fresh methods) :
      Renamed marked (.superclass name blame methods)
        (.superclass name blame'
          (FunctionDecl.listRename ρ (false :: false :: marked) path place methods)) marked
  | unary (marked : List Bool) (operator : Token) :
      Renamed marked (.unary operator) (.unary operator) marked
  | binaryLeft {right : Expr} (marked : List Bool) (operator : Token)
      (hright : right.Built ρ.Fresh) :
      Renamed marked (.binaryLeft operator right)
        (.binaryLeft operator (right.rename ρ marked)) marked
  | binaryRight {left left' : Value} (marked : List Bool) (operator : Token)
      (hleft : left.Renamed ρ tags left') :
      Renamed marked (.binaryRight left operator) (.binaryRight left' operator) marked
  | logical {right : Expr} (marked : List Bool) (operator : Token) (hright : right.Built ρ.Fresh) :
      Renamed marked (.logical operator right) (.logical operator (right.rename ρ marked)) marked
  | conditional {t e : Expr} (marked : List Bool) (ht : t.Built ρ.Fresh) (he : e.Built ρ.Fresh) :
      Renamed marked (.conditional t e) (.conditional (t.rename ρ marked) (e.rename ρ marked)) marked
  | assign {name : Token} (marked : List Bool) (id : NodeId) (hname : ρ.Fresh name) :
      Renamed marked (.assign id name) (.assign id (ρ.token (ρ.refers marked id) name)) marked
  | callee {arguments : List Expr} (marked : List Bool) (paren : Token)
      (harguments : Expr.ListBuilt ρ.Fresh arguments) :
      Renamed marked (.callee paren arguments)
        (.callee paren (Expr.listRename ρ marked arguments)) marked
  | argument {callee callee' : Value} {done done' : List Value} {rest : List Expr}
      (marked : List Bool) (paren : Token) (hcallee : callee.Renamed ρ tags callee')
      (hdone : List.Forall₂ (Value.Renamed ρ tags) done done')
      (hrest : Expr.ListBuilt ρ.Fresh rest) :
      Renamed marked (.argument callee paren done rest)
        (.argument callee' paren done' (Expr.listRename ρ marked rest)) marked
  | get (marked : List Bool) (name : Token) : Renamed marked (.get name) (.get name) marked
  | setObject {value : Expr} (marked : List Bool) (name : Token) (hvalue : value.Built ρ.Fresh) :
      Renamed marked (.setObject name value) (.setObject name (value.rename ρ marked)) marked
  | setField (marked : List Bool) (object : ObjectId) (name : Token) :
      Renamed marked (.setField object name) (.setField object name) marked
  | construct (marked : List Bool) (object : ObjectId) :
      Renamed marked (.construct object) (.construct object) marked
  | loopBody {c : Expr} {marked : List Bool} {body : Stmt} (path : List Nat)
      (hc : c.Built ρ.Fresh) (hbody : Renamable ρ marked body) :
      Renamed marked (.loopBody c body)
        (.loopBody (c.rename ρ marked) (body.rename ρ marked path)) marked
  | block {marked marked' : List Bool} {rest : List Stmt} {outer : Chain} (path : List Nat)
      (place : Nat) (hrest : ListRenamable ρ marked rest) (houter : Tagged tags marked' outer) :
      Renamed marked (.block rest outer) (.block (Stmt.listRename ρ marked path place rest) outer)
        marked'
  | body {f f' : Closure} (marked : List Bool) (paren : Token) (hf : f.Renamed ρ tags [] f') :
      Renamed marked (.body f paren) (.body f' paren) marked
  | program {rest : List Stmt} (path : List Nat) (place : Nat) (hrest : ListRenamable ρ [] rest) :
      Renamed [] (.program rest) (.program (Stmt.listRename ρ [] path place rest)) []

inductive Stack.Renamed {final : Answer} :
    {a : Answer} → List Bool → Stack final a → Stack final a → Prop
  | done : Renamed [] .done .done
  | push {a b : Answer} {marked marked' : List Bool} {task task' : Pending a b}
      {below below' : Stack final b} (htask : task.Renamed ρ tags marked task' marked')
      (hbelow : Renamed marked' below below') :
      Renamed marked (.push task below) (.push task' below')

/-- The second state has the renamed frames and objects of the first, and is otherwise the same. -/
structure State.Renamed (σ σ' : State) : Prop where
  rest_eq : σ' = { σ with frames := σ'.frames, objects := σ'.objects }
  frames : σ.frames.Related ρ tags (Value.Renamed ρ tags) σ'.frames
  size_eq : σ.objects.size = σ'.objects.size
  objects : ∀ i : Nat, Option.Rel (Object.Renamed ρ tags) σ.objects[i]? σ'.objects[i]?
  untagged : tags[globalFrame]? = some false
  distances : ∀ id, σ.distances[id]? = ρ.distance id

variable {final : Answer}

/-- The second configuration is the first one renamed. Failures may differ, since they name
variables. -/
inductive Config.Renamed : Config final → Config final → Prop
  | eval {tags marked : List Bool} {e : Expr} {stack stack' : Stack final .value} {σ σ' : State}
      (hσ : σ.Renamed ρ tags σ') (hchain : Tagged tags marked σ.chain) (he : e.Built ρ.Fresh)
      (hstack : stack.Renamed ρ tags marked stack') :
      Renamed (.eval e stack σ) (.eval (e.rename ρ marked) stack' σ')
  | exec {tags marked : List Bool} {s : Stmt} {stack stack' : Stack final .flow} {σ σ' : State}
      (path : List Nat) (hσ : σ.Renamed ρ tags σ') (hchain : Tagged tags marked σ.chain)
      (hs : Renamable ρ marked s) (hstack : stack.Renamed ρ tags marked stack') :
      Renamed (.exec s stack σ) (.exec (s.rename ρ marked path) stack' σ')
  | answer {tags marked : List Bool} {a : Answer} {x x' : a.Carrier} {stack stack' : Stack final a}
      {σ σ' : State} (hσ : σ.Renamed ρ tags σ') (hchain : Tagged tags marked σ.chain)
      (hx : AnswerRenamed ρ tags a x x') (hstack : stack.Renamed ρ tags marked stack') :
      Renamed (.answer x stack σ) (.answer x' stack' σ')
  | fail {tags marked : List Bool} {a : Answer} {failure failure' : Failure}
      {stack stack' : Stack final a} {σ σ' : State} (hσ : σ.Renamed ρ tags σ')
      (hstack : stack.Renamed ρ tags marked stack') :
      Renamed (.fail failure stack σ) (.fail failure' stack' σ')

/-- The two runs end alike, with the same output. -/
structure Outcome.Alike (o o' : Outcome final) : Prop where
  isOk_eq : o'.result.isOk = o.result.isOk
  sink_eq : o'.σ.sink = o.σ.sink

end Machine

variable {ρ tags}

theorem Closure.Renamed.append {inner : List Bool} {f f' : Closure}
    (hf : f.Renamed ρ tags inner f') (more : List Bool) : f.Renamed ρ (tags ++ more) inner f' := by
  obtain ⟨marked, path, hchain, hb, heq⟩ := hf
  exact ⟨marked, path, hchain.append more, hb, heq⟩

theorem Class.Renamed.append {c c' : Class} (hc : c.Renamed ρ tags c') (more : List Bool) :
    c.Renamed ρ (tags ++ more) c' := by
  induction hc with
  | root id name hm => exact .root id name (hm.mono fun _ _ hf => hf.append more)
  | extending id name hm _ ih => exact .extending id name (hm.mono fun _ _ hf => hf.append more) ih

theorem Value.Renamed.append {v v' : Value} (hv : v.Renamed ρ tags v') (more : List Bool) :
    v.Renamed ρ (tags ++ more) v' := by
  cases hv with
  | nil => exact .nil
  | boolean b => exact .boolean b
  | number x => exact .number x
  | string text => exact .string text
  | native f => exact .native f
  | function hf => exact .function (hf.append more)
  | cls hc => exact .cls (hc.append more)
  | object id => exact .object id

namespace Machine

theorem Pending.Renamed.append {a b : Answer} {marked marked' : List Bool} {task task' : Pending a b}
    (h : task.Renamed ρ tags marked task' marked') (more : List Bool) :
    task.Renamed ρ (tags ++ more) marked task' marked' := by
  cases h with
  | discard => exact .discard marked
  | print => exact .print marked
  | define _ hname => exact .define marked hname
  | branch path path' ht he => exact .branch path path' ht he
  | loopTest path hc hbody => exact .loopTest path hc hbody
  | ret => exact .ret marked
  | superclass blame blame' path place hname hsame hmethods =>
      exact .superclass blame blame' path place hname hsame hmethods
  | unary _ operator => exact .unary marked operator
  | binaryLeft _ operator hright => exact .binaryLeft marked operator hright
  | binaryRight _ operator hleft => exact .binaryRight marked operator (hleft.append more)
  | logical _ operator hright => exact .logical marked operator hright
  | conditional _ ht he => exact .conditional marked ht he
  | assign _ id hname => exact .assign marked id hname
  | callee _ paren harguments => exact .callee marked paren harguments
  | argument _ paren hcallee hdone hrest =>
      exact .argument marked paren (hcallee.append more)
        (hdone.imp fun _ _ hv => hv.append more) hrest
  | get _ name => exact .get marked name
  | setObject _ name hvalue => exact .setObject marked name hvalue
  | setField _ object name => exact .setField marked object name
  | construct _ object => exact .construct marked object
  | loopBody path hc hbody => exact .loopBody path hc hbody
  | block path place hrest houter => exact .block path place hrest (houter.append more)
  | body _ paren hf => exact .body marked paren (hf.append more)
  | program path place hrest => exact .program path place hrest

theorem Stack.Renamed.append {a : Answer} {marked : List Bool} {stack stack' : Stack final a}
    (h : stack.Renamed ρ tags marked stack') (more : List Bool) :
    stack.Renamed ρ (tags ++ more) marked stack' := by
  induction h with
  | done => exact .done
  | push htask _ ih => exact .push (htask.append more) ih

namespace State

variable {σ σ' : State} {marked : List Bool} {v v' : Value} {f : FrameId} {m : Bool} {x : String}

/-- What does not touch frames and objects is the same on both sides. -/
theorem Renamed.congr {τ τ' : State} (h : σ.Renamed ρ tags σ')
    (hτ : τ.frames = σ.frames ∧ τ.objects = σ.objects ∧ τ.distances = σ.distances)
    (hτ' : τ' = { τ with frames := σ'.frames, objects := σ'.objects }) : τ.Renamed ρ tags τ' := by
  obtain ⟨hframes, hobjects, hdistances⟩ := hτ
  subst hτ'
  obtain ⟨-, h₁, h₂, h₃, h₄, h₅⟩ := h
  exact ⟨rfl, hframes ▸ h₁, hobjects ▸ h₂, hobjects ▸ h₃, h₄, hdistances ▸ h₅⟩

theorem Renamed.chain_eq (h : σ.Renamed ρ tags σ') : σ'.chain = σ.chain := by
  rw [h.rest_eq]

theorem Renamed.nextIdentity_eq (h : σ.Renamed ρ tags σ') :
    σ'.nextIdentity = σ.nextIdentity := by
  rw [h.rest_eq]

theorem Renamed.within (h : σ.Renamed ρ tags σ') (chain : Chain) :
    (σ.within chain).Renamed ρ tags (σ'.within chain) :=
  h.congr ⟨rfl, rfl, rfl⟩ (by rw [h.rest_eq]; rfl)

theorem Renamed.useIdentity (h : σ.Renamed ρ tags σ') :
    σ.useIdentity.Renamed ρ tags σ'.useIdentity :=
  h.congr ⟨rfl, rfl, rfl⟩ (by rw [h.rest_eq]; rfl)

theorem Renamed.print (h : σ.Renamed ρ tags σ') (line : String) :
    (σ.print line).Renamed ρ tags (σ'.print line) :=
  h.congr ⟨rfl, rfl, rfl⟩ (by rw [h.rest_eq]; rfl)

theorem Renamed.push (h : σ.Renamed ρ tags σ') {b b' : Bindings Value}
    (hb : Bindings.Related (· ≠ ρ.new) (ρ.name m) (Value.Renamed ρ tags) b b') :
    Renamed ρ (tags ++ [m]) { σ with frames := σ.frames.push b }
      { σ' with frames := σ'.frames.push b' } := by
  obtain ⟨hrest, hframes, hsize, hobjects, huntagged, hdistances⟩ := h
  refine ⟨by rw [hrest], hframes.push (fun _ _ hv => hv.append [m])
    (hb.mono fun _ _ hv => hv.append [m]), hsize, fun i => ?_, ?_, hdistances⟩
  · have hrel := hobjects i
    generalize σ.objects[i]? = o at hrel ⊢
    generalize σ'.objects[i]? = o' at hrel ⊢
    cases hrel with
    | some ho =>
        exact .some ⟨ho.cls.append [m], ho.fields.mono fun _ _ hv => hv.append [m]⟩
    | none => exact .none
  · obtain ⟨hlt, -⟩ := List.getElem?_eq_some_iff.mp huntagged
    rwa [List.getElem?_append_left hlt]

theorem Renamed.defineIn (h : σ.Renamed ρ tags σ') (hf : tags[f]? = some m) (hx : x ≠ ρ.new)
    (hv : v.Renamed ρ tags v') :
    (σ.defineIn f x v).Renamed ρ tags (σ'.defineIn f (ρ.name m x) v') := by
  obtain ⟨hrest, hframes, hsize, hobjects, huntagged, hdistances⟩ := h
  exact ⟨by rw [hrest]; rfl, hframes.define hf hx hv, hsize, hobjects, huntagged, hdistances⟩

theorem Renamed.define (h : σ.Renamed ρ tags σ') (hchain : Tagged tags marked σ.chain)
    (hx : x ≠ ρ.new) (hv : v.Renamed ρ tags v') :
    (σ.define x v).Renamed ρ tags (σ'.define (ρ.name (marked.headD false) x) v')
      ∧ (σ.define x v).chain = σ.chain := by
  obtain ⟨f, outer, hf, htag⟩ := hchain.exists_head
  have hf' : σ'.chain = f :: outer := by rw [h.chain_eq, hf]
  have hdefine : σ.define x v = σ.defineIn f x v := by simp [State.define, hf]
  have hdefine' : σ'.define (ρ.name (marked.headD false) x) v'
      = σ'.defineIn f (ρ.name (marked.headD false) x) v' := by
    simp [State.define, hf']
  rw [hdefine, hdefine']
  exact ⟨h.defineIn htag hx hv, rfl⟩

end State

end Machine

end Lox
