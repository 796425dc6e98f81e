import Lox.Machine.Step
import Lox.Proofs.Machine.Environment

/-!
# Scoped values, tasks and configurations

A closure is scoped if its environment realizes scopes in which its declaration is well scoped. A
moment of a run is scoped if its environment belongs to the place of the program at its head, every
pending task fits the environment in which its answer arrives, and all closures are scoped.
-/

namespace Lox

open Machine (Realizes)

variable (known : NodeId → Option Nat → Prop)

/-- The declaration of a function is well scoped in the environment of the function. -/
def Closure.Scoped (fs : Frames Value) (f : Closure) : Prop :=
  ∃ scopes, Realizes fs scopes f.chain ∧ f.decl.WellScoped known scopes

/-- The declaration of a method is well scoped once `this` is bound around the environment of the
class. -/
def Closure.MethodScoped (fs : Frames Value) (m : Closure) : Prop :=
  ∃ scopes, Realizes fs scopes m.chain ∧ m.decl.WellScoped known (scopes.enterWith "this")

/-- All methods of a class and of those above it are scoped. -/
def Class.Scoped (fs : Frames Value) : Class → Prop
  | .root _ _ methods => ∀ x m, methods.get? x = some m → m.MethodScoped known fs
  | .extending _ _ methods superclass =>
      (∀ x m, methods.get? x = some m → m.MethodScoped known fs) ∧ superclass.Scoped fs

/-- The closures in a value are scoped. -/
def Value.Scoped (fs : Frames Value) : Value → Prop
  | .function f => f.Scoped known fs
  | .cls c => c.Scoped known fs
  | _ => True

namespace Machine

open Resolution (declaredNames after methodScopes)

def AnswerScoped (fs : Frames Value) : (a : Answer) → a.Carrier → Prop
  | .value, v => Value.Scoped known fs v
  | .flow, .normal => True
  | .flow, .returned v => Value.Scoped known fs v

/-- The task fits the environment `chain` of the place `p`, in which its answer arrives, and its own
answer goes to the environment `chain'` of the place `p'`. -/
inductive Pending.Leads (fs : Frames Value) :
    {a b : Answer} → Place → Chain → Pending a b → Place → Chain → Prop
  | discard (scopes : Scopes) (chain : Chain) :
      Leads fs (.settled scopes) chain .discard (.settled scopes) chain
  | print (scopes : Scopes) (chain : Chain) :
      Leads fs (.settled scopes) chain .print (.settled scopes) chain
  | define {scopes : Scopes} {name : Token} (chain : Chain) (hname : scopes.Admits name) :
      Leads fs ⟨scopes, some name.lexeme⟩ chain (.define name)
        (.settled (scopes.define name.lexeme)) chain
  | branch {scopes : Scopes} {t : Stmt} {e : Option Stmt} (chain : Chain)
      (ht : t.WellScoped known scopes ∧ declaredNames t = [])
      (he : ∀ s, e = some s → s.WellScoped known scopes ∧ declaredNames s = []) :
      Leads fs (.settled scopes) chain (.branch t e) (.settled scopes) chain
  | loopTest {scopes : Scopes} {c : Expr} {body : Stmt} (chain : Chain)
      (hc : c.WellScoped known scopes)
      (hbody : body.WellScoped known scopes ∧ declaredNames body = []) :
      Leads fs (.settled scopes) chain (.loopTest c body) (.settled scopes) chain
  | ret (scopes : Scopes) (chain : Chain) :
      Leads fs (.settled scopes) chain .ret (.settled scopes) chain
  | superclass {scopes : Scopes} {name : Token} {methods : List FunctionDecl} {e : Expr}
      (chain : Chain) (blame : Token) (hname : scopes.Admits name)
      (hmethods : FunctionDecl.ListWellScoped known
        (methodScopes (scopes.define name.lexeme) (some e)) methods) :
      Leads fs (.settled scopes) chain (.superclass name blame methods)
        (.settled (scopes.define name.lexeme)) chain
  | unary (p : Place) (chain : Chain) (operator : Token) :
      Leads fs p chain (.unary operator) p chain
  | binaryLeft {p : Place} {right : Expr} (chain : Chain) (operator : Token)
      (hright : right.WellScoped known p.visible) :
      Leads fs p chain (.binaryLeft operator right) p chain
  | binaryRight {left : Value} (p : Place) (chain : Chain) (operator : Token)
      (hleft : left.Scoped known fs) : Leads fs p chain (.binaryRight left operator) p chain
  | logical {p : Place} {right : Expr} (chain : Chain) (operator : Token)
      (hright : right.WellScoped known p.visible) :
      Leads fs p chain (.logical operator right) p chain
  | conditional {p : Place} {t e : Expr} (chain : Chain) (ht : t.WellScoped known p.visible)
      (he : e.WellScoped known p.visible) : Leads fs p chain (.conditional t e) p chain
  | assign {p : Place} {id : NodeId} {name : Token} (chain : Chain)
      (hname : ¬ Implicit name.lexeme) (hid : known id (p.visible.distance? name.lexeme)) :
      Leads fs p chain (.assign id name) p chain
  | callee {p : Place} {arguments : List Expr} (chain : Chain) (paren : Token)
      (harguments : Expr.ListWellScoped known p.visible arguments) :
      Leads fs p chain (.callee paren arguments) p chain
  | argument {p : Place} {callee : Value} {done : List Value} {rest : List Expr} (chain : Chain)
      (paren : Token) (hcallee : callee.Scoped known fs) (hdone : ∀ v ∈ done, v.Scoped known fs)
      (hrest : Expr.ListWellScoped known p.visible rest) :
      Leads fs p chain (.argument callee paren done rest) p chain
  | get (p : Place) (chain : Chain) (name : Token) : Leads fs p chain (.get name) p chain
  | setObject {p : Place} {value : Expr} (chain : Chain) (name : Token)
      (hvalue : value.WellScoped known p.visible) :
      Leads fs p chain (.setObject name value) p chain
  | setField (p : Place) (chain : Chain) (object : ObjectId) (name : Token) :
      Leads fs p chain (.setField object name) p chain
  | construct (p : Place) (chain : Chain) (object : ObjectId) :
      Leads fs p chain (.construct object) p chain
  | loopBody {scopes : Scopes} {c : Expr} {body : Stmt} (chain : Chain)
      (hc : c.WellScoped known scopes)
      (hbody : body.WellScoped known scopes ∧ declaredNames body = []) :
      Leads fs (.settled scopes) chain (.loopBody c body) (.settled scopes) chain
  | block {scopes : Scopes} {rest : List Stmt} {chain outer : Chain} {p : Place}
      (hrest : Stmt.ListWellScoped known scopes rest) (hp : p.Stands fs outer)
      (hlt : outer.headD globalFrame < chain.headD globalFrame) :
      Leads fs (.settled scopes) chain (.block rest outer) p outer
  | body (p : Place) (chain : Chain) (f : Closure) (paren : Token) :
      Leads fs p chain (.body f paren) p chain
  | program {rest : List Stmt} (hrest : Stmt.ListWellScoped known [] rest) :
      Leads fs (.settled []) globalChain (.program rest) (.settled []) globalChain

/-- Every task of the stack fits the environment in which its answer arrives. -/
inductive Stack.Scoped (fs : Frames Value) {final : Answer} :
    {a : Answer} → Place → Chain → Stack final a → Prop
  | done : Scoped fs (.settled []) globalChain .done
  | push {a b : Answer} {p p' : Place} {chain chain' : Chain} {task : Pending a b}
      {below : Stack final b} (htask : task.Leads known fs p chain p' chain')
      (hbelow : Scoped fs p' chain' below) : Scoped fs p chain (.push task below)

/-- All closures of a state are scoped, and its distances are the known ones. -/
structure State.Scoped (σ : State) : Prop where
  size_pos : 0 < σ.frames.size
  frames : ∀ {f : FrameId} {x : String} {v : Value}, σ.frames.get? f x = some v →
    v.Scoped known σ.frames
  classes : ∀ {i : ObjectId} {o : Object}, σ.objects[i]? = some o → o.cls.Scoped known σ.frames
  fields : ∀ {i : ObjectId} {o : Object} {x : String} {v : Value}, σ.objects[i]? = some o →
    o.fields.get? x = some v → v.Scoped known σ.frames
  knows : ∀ {id r}, known id r → σ.distances[id]? = r

/-- The state is scoped, and its environment belongs to the place. -/
structure State.At (p : Place) (σ : State) : Prop where
  sound : σ.Scoped known
  stands : p.Stands σ.frames σ.chain

/-- The head of the configuration is well scoped at its place, and so are all pending tasks. -/
inductive Config.Scoped {final : Answer} : Config final → Prop
  | eval {p : Place} {e : Expr} {stack : Stack final .value} {σ : State} (hσ : σ.At known p)
      (he : e.WellScoped known p.visible) (hstack : stack.Scoped known σ.frames p σ.chain) :
      Scoped (.eval e stack σ)
  | exec {scopes : Scopes} {s : Stmt} {stack : Stack final .flow} {σ : State}
      (hσ : σ.At known (.settled scopes)) (hs : s.WellScoped known scopes)
      (hstack : stack.Scoped known σ.frames (.settled (after scopes s)) σ.chain) :
      Scoped (.exec s stack σ)
  | answer {a : Answer} {p : Place} {x : a.Carrier} {stack : Stack final a} {σ : State}
      (hσ : σ.At known p) (hx : AnswerScoped known σ.frames a x)
      (hstack : stack.Scoped known σ.frames p σ.chain) : Scoped (.answer x stack σ)
  | fail {a : Answer} {p : Place} {failure : Failure} {stack : Stack final a} {σ : State}
      (hσ : σ.Scoped known) (hstack : stack.Scoped known σ.frames p σ.chain) :
      Scoped (.fail failure stack σ)

end Machine

variable {known} {fs fs' : Frames Value} {h : Nat}

theorem Closure.Scoped.mono {f : Closure} (hf : f.Scoped known fs) (he : fs.Extends h fs') :
    f.Scoped known fs' := by
  obtain ⟨scopes, hr, hd⟩ := hf
  exact ⟨scopes, hr.mono he, hd⟩

theorem Closure.MethodScoped.mono {m : Closure} (hm : m.MethodScoped known fs)
    (he : fs.Extends h fs') : m.MethodScoped known fs' := by
  obtain ⟨scopes, hr, hd⟩ := hm
  exact ⟨scopes, hr.mono he, hd⟩

theorem Class.Scoped.mono {c : Class} (hc : c.Scoped known fs) (he : fs.Extends h fs') :
    c.Scoped known fs' := by
  induction c with
  | root id name methods => exact fun x m hm => (hc x m hm).mono he
  | extending id name methods superclass ih =>
      exact ⟨fun x m hm => (hc.1 x m hm).mono he, ih hc.2⟩

theorem Value.Scoped.mono {v : Value} (hv : v.Scoped known fs) (he : fs.Extends h fs') :
    v.Scoped known fs' := by
  cases v with
  | function f => exact Closure.Scoped.mono hv he
  | cls c => exact Class.Scoped.mono hv he
  | _ => trivial

namespace Machine

/-- The environment from which a task leaves lies below the one in which it arrives. -/
theorem Pending.Leads.headD_le {a b : Answer} {p p' : Place} {chain chain' : Chain}
    {task : Pending a b} (ht : task.Leads known fs p chain p' chain') :
    chain'.headD globalFrame ≤ chain.headD globalFrame := by
  cases ht with
  | block hrest hp hlt => exact Nat.le_of_lt hlt
  | _ => exact Nat.le_refl _

theorem Pending.Leads.mono {a b : Answer} {p p' : Place} {chain chain' : Chain}
    {task : Pending a b} (ht : task.Leads known fs p chain p' chain') (he : fs.Extends h fs')
    (hle : chain.headD globalFrame ≤ h) : task.Leads known fs' p chain p' chain' := by
  cases ht with
  | discard scopes => exact .discard scopes chain
  | print scopes => exact .print scopes chain
  | define _ hname => exact .define chain hname
  | branch _ ht he => exact .branch chain ht he
  | loopTest _ hc hbody => exact .loopTest chain hc hbody
  | ret scopes => exact .ret scopes chain
  | superclass _ blame hname hmethods => exact .superclass chain blame hname hmethods
  | unary _ _ operator => exact .unary p chain operator
  | binaryLeft _ operator hright => exact .binaryLeft chain operator hright
  | binaryRight _ _ operator hleft => exact .binaryRight p chain operator (hleft.mono he)
  | logical _ operator hright => exact .logical chain operator hright
  | conditional _ ht he => exact .conditional chain ht he
  | assign _ hname hid => exact .assign chain hname hid
  | callee _ paren harguments => exact .callee chain paren harguments
  | argument _ paren hcallee hdone hrest =>
      exact .argument chain paren (hcallee.mono he) (fun v hv => (hdone v hv).mono he) hrest
  | get _ _ name => exact .get p chain name
  | setObject _ name hvalue => exact .setObject chain name hvalue
  | setField _ _ object name => exact .setField p chain object name
  | construct _ _ object => exact .construct p chain object
  | loopBody _ hc hbody => exact .loopBody chain hc hbody
  | block hrest hp hlt => exact .block hrest (hp.mono he (Nat.lt_of_lt_of_le hlt hle)) hlt
  | body _ _ f paren => exact .body p chain f paren
  | program hrest => exact .program hrest

theorem Stack.Scoped.mono {final a : Answer} {p : Place} {chain : Chain} {stack : Stack final a}
    (hs : stack.Scoped known fs p chain) (he : fs.Extends h fs')
    (hle : chain.headD globalFrame ≤ h) : stack.Scoped known fs' p chain := by
  induction hs with
  | done => exact .done
  | push htask _ ih => exact .push (htask.mono he hle) (ih (Nat.le_trans htask.headD_le hle))

end Machine

variable {known' : NodeId → Option Nat → Prop}

theorem Closure.Scoped.imp (hk : ∀ id r, known id r → known' id r) {f : Closure}
    (hf : f.Scoped known fs) : f.Scoped known' fs := by
  obtain ⟨scopes, hr, hd⟩ := hf
  exact ⟨scopes, hr, hd.imp hk⟩

theorem Class.Scoped.imp (hk : ∀ id r, known id r → known' id r) {c : Class}
    (hc : c.Scoped known fs) : c.Scoped known' fs := by
  have hmethod {m : Closure} (hm : m.MethodScoped known fs) : m.MethodScoped known' fs := by
    obtain ⟨scopes, hr, hd⟩ := hm
    exact ⟨scopes, hr, hd.imp hk⟩
  induction c with
  | root id name methods => exact fun x m hm => hmethod (hc x m hm)
  | extending id name methods superclass ih =>
      exact ⟨fun x m hm => hmethod (hc.1 x m hm), ih hc.2⟩

theorem Value.Scoped.imp (hk : ∀ id r, known id r → known' id r) {v : Value}
    (hv : v.Scoped known fs) : v.Scoped known' fs := by
  cases v with
  | function f => exact Closure.Scoped.imp hk hv
  | cls c => exact Class.Scoped.imp hk hv
  | _ => trivial

/-- A state stays scoped when distances of other nodes are added. -/
theorem Machine.State.Scoped.imp (hk : ∀ id r, known id r → known' id r) {σ : Machine.State}
    (hσ : σ.Scoped known) {distances : Machine.Distances}
    (hknows : ∀ id r, known' id r → distances[id]? = r) :
    Machine.State.Scoped known' { σ with distances := distances } where
  size_pos := hσ.size_pos
  frames := fun hv => (hσ.frames hv).imp hk
  classes := fun ho => (hσ.classes ho).imp hk
  fields := fun ho hv => (hσ.fields ho hv).imp hk
  knows := fun hid => hknows _ _ hid

end Lox
