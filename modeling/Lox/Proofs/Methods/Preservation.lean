import Lox.Proofs.Methods.Moments

/-!
# Runs keep homes

Every step of a run leads from a housed moment to a housed one, where the class that it declares
belongs to the past from then on. So the homes of all moments of a run come from classes that were
declared before.
-/

namespace Lox

namespace Machine

variable {past : Past} {final : Answer} {σ : State}

namespace Config

/-- The class that the next step declares, and the class that it extends. -/
def declares? : Config final → Option (Class × Option Class)
  | .exec (.classDecl name none methods) _ σ =>
      some (((σ.define name.lexeme .nil).makeClass name.lexeme none methods).1, none)
  | .answer (a := .value) v (.push (.superclass name _ methods) _) σ =>
      match v with
      | .cls parent =>
          some (((σ.define name.lexeme .nil).makeClass name.lexeme (some parent) methods).1,
            some parent)
      | _ => none
  | _ => none

/-- A class extends for good what it extends when it is declared. -/
theorem superclass?_of_declares? {c : Config final} {declared : Class} {parent : Option Class}
    (h : c.declares? = some (declared, parent)) : declared.superclass? = parent := by
  unfold declares? at h
  split at h
  · cases h
    exact State.superclass?_makeClass ..
  · split at h <;> cases h
    exact State.superclass?_makeClass ..
  · cases h

/-- The past after the next step. -/
def pastAfter (past : Past) (c : Config final) : Past :=
  match c.declares? with
  | none => past
  | some (d, _) => past.declare d

namespace Housed

/-! ## Single steps -/

theorem evalStep {e : Expr} {stack : Stack final .value}
    (hknown : ∀ id r, past.known id r → σ.distances[id]? = r) (hσ : σ.Housed past)
    (he : e.Housed past σ.frames σ.chain) (hstack : stack.Housed past σ.frames σ.chain) :
    (Config.evalStep e stack σ).Housed past := by
  have hproper := he.proper
  have hhomes := he.homes
  cases e with
  | literal literal =>
      refine .answer (a := .value) hσ ?_ hstack
      cases literal <;> trivial
  | group inner =>
      simp only [Expr.Proper, Expr.supers] at hproper hhomes
      exact .eval hσ ⟨hproper, hhomes⟩ hstack
  | unary operator operand =>
      simp only [Expr.Proper, Expr.supers] at hproper hhomes
      exact .eval hσ ⟨hproper.2, hhomes⟩ (.push hproper.1 hstack)
  | binary left operator right =>
      simp only [Expr.Proper, Expr.supers, homes_append] at hproper hhomes
      exact .eval hσ ⟨hproper.2.1, hhomes.1⟩
        (.push ⟨hproper.1, hproper.2.2, hhomes.2⟩ hstack)
  | logical left operator right =>
      simp only [Expr.Proper, Expr.supers, homes_append] at hproper hhomes
      exact .eval hσ ⟨hproper.1, hhomes.1⟩
        (.push ⟨hproper.2, hhomes.2⟩ hstack)
  | conditional c t e =>
      simp only [Expr.Proper, Expr.supers, homes_append] at hproper hhomes
      exact .eval hσ ⟨hproper.1, hhomes.1⟩
        (.push ⟨⟨hproper.2.1, hhomes.2.1⟩, hproper.2.2, hhomes.2.2⟩ hstack)
  | var id name => exact .readVariable id name hσ hstack
  | assign id name value =>
      simp only [Expr.Proper, Expr.supers] at hproper hhomes
      exact .eval hσ ⟨hproper.2, hhomes⟩ (.push hproper.1 hstack)
  | call callee paren arguments =>
      simp only [Expr.Proper, Expr.supers, homes_append] at hproper hhomes
      exact .eval hσ ⟨hproper.1, hhomes.1⟩
        (.push ⟨hproper.2, hhomes.2⟩ hstack)
  | get object name =>
      simp only [Expr.Proper, Expr.supers] at hproper hhomes
      exact .eval hσ ⟨hproper, hhomes⟩ (.push trivial hstack)
  | set object name value =>
      simp only [Expr.Proper, Expr.supers, homes_append] at hproper hhomes
      exact .eval hσ ⟨hproper.1, hhomes.1⟩
        (.push ⟨hproper.2, hhomes.2⟩ hstack)
  | this id keyword => exact .readVariable id keyword hσ hstack
  | super id keyword method => exact .readSuper method hknown hσ he hstack

/-- A function that is declared closes over the environment of its uses of `super`. -/
theorem closure {decl : FunctionDecl} (hproper : decl.Proper past.known)
    (hhomes : Homes past σ.frames σ.chain decl.supers) :
    Value.Housed past σ.frames (.function (σ.closure decl false)) :=
  ⟨hproper, hhomes, fun h => absurd h Bool.false_ne_true⟩

theorem execStep {s : Stmt} {stack : Stack final .flow}
    (hσ : σ.Housed past) (hs : s.Housed past σ.frames σ.chain)
    (hstack : stack.Housed past σ.frames σ.chain) :
    (Config.execStep s stack σ).Housed (pastAfter past (.exec s stack σ)) := by
  obtain ⟨hproper, hhomes⟩ := hs
  cases s with
  | expression e =>
      simp only [Stmt.Proper, Stmt.supers] at hproper hhomes
      exact .eval hσ ⟨hproper, hhomes⟩ (.push trivial hstack)
  | print e =>
      simp only [Stmt.Proper, Stmt.supers] at hproper hhomes
      exact .eval hσ ⟨hproper, hhomes⟩ (.push trivial hstack)
  | var name initializer =>
      simp only [Stmt.Proper, Stmt.supers] at hproper hhomes
      cases initializer with
      | none =>
          obtain ⟨hdefined, hkeep, hchain⟩ := hσ.define (v := .nil) hproper.1 trivial
          refine .answer (a := .flow) hdefined trivial ?_
          rw [hchain]
          exact hstack.keep hkeep
      | some e => exact .eval hσ ⟨hproper.2, hhomes⟩ (.push hproper.1 hstack)
  | block body =>
      simp only [Stmt.Proper, Stmt.supers] at hproper hhomes
      exact .inBlock (hσ.enter σ.chain (by simp)) ⟨hproper, hhomes.enter rfl⟩
        (hstack.keep (.push σ.frames []))
  | ifThen c t =>
      simp only [Stmt.Proper, Stmt.supers, homes_append] at hproper hhomes
      exact .eval hσ ⟨hproper.1, hhomes.1⟩
        (.push ⟨⟨hproper.2, hhomes.2⟩, by simp⟩ hstack)
  | ifElse c t e =>
      simp only [Stmt.Proper, Stmt.supers, homes_append] at hproper hhomes
      refine .eval hσ ⟨hproper.1, hhomes.1⟩
        (.push ⟨⟨hproper.2.1, hhomes.2.1⟩, fun s hs => ?_⟩ hstack)
      cases hs
      exact ⟨hproper.2.2, hhomes.2.2⟩
  | loop c body =>
      simp only [Stmt.Proper, Stmt.supers, homes_append] at hproper hhomes
      exact .eval hσ ⟨hproper.1, hhomes.1⟩
        (.push ⟨⟨hproper.1, hhomes.1⟩, hproper.2, hhomes.2⟩ hstack)
  | function decl =>
      simp only [Stmt.Proper, Stmt.supers] at hproper hhomes
      have hused : σ.useIdentity.Housed past := hσ.congr rfl rfl
      have hclosure : Value.Housed past σ.useIdentity.frames (.function (σ.closure decl false)) :=
        closure hproper.2 hhomes
      obtain ⟨hdefined, hkeep, hchain⟩ := hused.define hproper.1 hclosure
      refine .answer (a := .flow) hdefined trivial ?_
      rw [hchain]
      exact hstack.keep hkeep
  | ret keyword value =>
      simp only [Stmt.Proper, Stmt.supers] at hproper hhomes
      cases value with
      | none => exact .answer (a := .flow) hσ trivial hstack
      | some e => exact .eval hσ ⟨hproper, hhomes⟩ (.push trivial hstack)
  | classDecl name superclass methods =>
      simp only [Stmt.Proper, Stmt.supers] at hproper hhomes
      cases superclass with
      | none =>
          rw [Config.execStep]
          exact declareClass hσ hproper.1 (by simp) hproper.2.2.2 hproper.2.2.1 hstack
      | some e =>
          exact .eval hσ ⟨hproper.2.1, hhomes⟩
            (.push ⟨hproper.1, hproper.2.2.2, hproper.2.2.1⟩ hstack)

theorem ofExcept {result : Except Failure Value} {stack : Stack final .value} (hσ : σ.Housed past)
    (hok : ∀ w, result = .ok w → w.IsScalar)
    (herror : ∀ failure, result = .error failure → ¬ failure.Excluded)
    (hstack : stack.Housed past σ.frames σ.chain) :
    (Config.ofExcept (a := .value) stack σ result).Housed past := by
  cases result with
  | error failure => exact .fail hσ (herror failure rfl)
  | ok w => exact .answer (a := .value) hσ (hok w rfl).housed hstack

theorem resumeValue {b : Answer} {v : Value} {task : Pending .value b} {stack : Stack final b}
    (hσ : σ.Housed past) (hv : v.Housed past σ.frames) (htask : task.Housed past σ.frames σ.chain)
    (hstack : stack.Housed past σ.frames (task.chainBelow σ.chain)) :
    (Config.resumeValue v task stack σ).Housed
      (pastAfter past (.answer (a := .value) v (.push task stack) σ)) := by
  cases task with
  | discard => exact .answer (a := .flow) hσ trivial hstack
  | print =>
      have hprinted : (σ.print (σ.display v)).Housed past := hσ.congr rfl rfl
      rw [Config.resumeValue_print]
      split
      · exact .answer (a := .flow) hprinted trivial hstack
      · exact .fail hprinted id
  | define name =>
      obtain ⟨hdefined, hkeep, hchain⟩ := hσ.define htask hv
      refine .answer (a := .flow) hdefined trivial ?_
      rw [hchain]
      exact hstack.keep hkeep
  | branch t e =>
      rw [Config.resumeValue_branch]
      split
      · exact .exec hσ htask.1 hstack
      · split
        · exact .exec hσ (htask.2 _ rfl) hstack
        · exact .answer (a := .flow) hσ trivial hstack
  | loopTest c body =>
      rw [Config.resumeValue_loopTest]
      split
      · exact .exec hσ htask.2 (.push htask hstack)
      · exact .answer (a := .flow) hσ trivial hstack
  | ret => exact .answer (a := .flow) (x := .returned v) hσ hv hstack
  | superclass name blame methods =>
      cases v with
      | cls parent =>
          rw [Config.resumeValue]
          refine declareClass hσ htask.1 (fun c hc => ?_) htask.2.1 htask.2.2 hstack
          cases hc
          exact hv
      | _ => exact .fail hσ (fun h => h)
  | unary operator =>
      exact .ofExcept hσ (fun w hw => isScalar_of_applyUnary hw)
        (fun failure hf => not_excluded_of_applyUnary htask hf) hstack
  | binaryLeft operator right =>
      exact .eval hσ htask.2 (.push htask.1 hstack)
  | binaryRight left operator =>
      exact .ofExcept hσ (fun w hw => isScalar_of_applyBinary hw)
        (fun failure hf => not_excluded_of_applyBinary htask hf) hstack
  | logical operator right =>
      rw [Config.resumeValue_logical]
      split
      · exact .answer (a := .value) hσ hv hstack
      · exact .eval hσ htask hstack
  | conditional t e =>
      rw [Config.resumeValue_conditional]
      split
      · exact .eval hσ htask.1 hstack
      · exact .eval hσ htask.2 hstack
  | assign id name => exact .assignVariable id hσ htask hv hstack
  | callee paren arguments => exact .callWith paren hσ hv (by simp) htask hstack
  | argument callee paren done rest =>
      exact .callWith paren hσ htask.1 (List.forall_mem_cons.mpr ⟨hv, htask.2.1⟩) htask.2.2 hstack
  | get name =>
      cases v with
      | object object => exact .readProperty object name hσ hstack
      | _ => exact .fail hσ (fun h => h)
  | setObject name value =>
      cases v with
      | object object => exact .eval hσ htask (.push trivial hstack)
      | _ => exact .fail hσ (fun h => h)
  | setField object name =>
      exact .answer (a := .value) (hσ.setField object name.lexeme hv) hv hstack
  | construct object => exact .answer (a := .value) (x := .object object) hσ trivial hstack

theorem resumeFlow {b : Answer} {flow : Flow} {task : Pending .flow b} {stack : Stack final b}
    (hσ : σ.Housed past) (hflow : AnswerHoused past σ.frames .flow flow)
    (htask : task.Housed past σ.frames σ.chain)
    (hstack : stack.Housed past σ.frames (task.chainBelow σ.chain)) :
    (Config.resumeFlow flow task stack σ).Housed past := by
  cases task with
  | loopBody c body =>
      cases flow with
      | normal => exact .eval hσ htask.1 (.push htask hstack)
      | returned v => exact .answer (a := .flow) hσ hflow hstack
  | block rest outer =>
      cases flow with
      | normal => exact .inBlock hσ htask hstack
      | returned v => exact .answer (a := .flow) (hσ.congr rfl rfl) hflow hstack
  | body f paren => exact .endCall paren hσ hflow hstack
  | program rest => exact .inProgram hσ htask hstack

theorem leave {a b : Answer} (hσ : σ.Housed past) (task : Pending a b) :
    (task.leave σ).Housed past := by
  cases task <;> exact hσ.congr rfl rfl

/-! ## Runs -/

/-- A step from a housed moment leads to a housed one, or to an end at which all values are
housed. -/
theorem step {c : Config final} (hc : c.Housed past)
    (hknown : ∀ id r, past.known id r → c.state.distances[id]? = r) :
    match c.step with
    | .inl c' => c'.Housed (pastAfter past c)
    | .inr outcome => outcome.σ.Housed (pastAfter past c) := by
  cases hc with
  | eval hσ he hstack => exact .evalStep hknown hσ he hstack
  | exec hσ hs hstack => exact .execStep hσ hs hstack
  | @answer a x stack σ hσ hx hstack =>
      cases hstack with
      | done => cases final <;> exact hσ
      | push htask hbelow =>
          cases a with
          | value => exact .resumeValue hσ hx htask hbelow
          | flow => exact .resumeFlow hσ hx htask hbelow
  | @fail a failure stack σ hσ hfailure =>
      cases stack with
      | done => exact hσ
      | push task below => exact .fail (leave hσ task) hfailure

end Housed

/-- The moment is one of the first `n` of the run. -/
def Before (c : Config final) (n : Nat) (moment : Config final) : Prop :=
  ∃ k < n, c.advance k = .inl moment

theorem before_succ {c moment : Config final} {n : Nat} :
    c.Before (n + 1) moment ↔ moment = c ∨ ∃ c', c.step = .inl c' ∧ c'.Before n moment := by
  constructor
  · rintro ⟨k, hk, hmoment⟩
    cases k with
    | zero =>
        cases hmoment
        exact .inl rfl
    | succ k =>
        rw [advance] at hmoment
        split at hmoment
        · next c' hstep => exact .inr ⟨c', hstep, k, Nat.lt_of_succ_lt_succ hk, hmoment⟩
        · cases hmoment
  · rintro (rfl | ⟨c', hstep, k, hk, hmoment⟩)
    · exact ⟨0, Nat.zero_lt_succ n, rfl⟩
    · refine ⟨k + 1, Nat.succ_lt_succ hk, ?_⟩
      rw [advance, hstep]
      exact hmoment

theorem before_succ_last {c d moment : Config final} {n : Nat} (h : c.advance n = .inl d) :
    c.Before (n + 1) moment ↔ c.Before n moment ∨ moment = d := by
  constructor
  · rintro ⟨k, hk, hm⟩
    rcases Nat.lt_succ_iff_lt_or_eq.mp hk with hlt | rfl
    · exact .inl ⟨k, hlt, hm⟩
    · exact .inr (Sum.inl.inj (hm.symm.trans h))
  · rintro (⟨k, hk, hm⟩ | rfl)
    · exact ⟨k, Nat.lt_succ_of_lt hk, hm⟩
    · exact ⟨n, Nat.lt_succ_self n, h⟩

end Config

end Machine

open Machine (Answer Config)

variable {final : Answer} {known : NodeId → Option Nat → Prop} {moments : Config final → Prop}

/-- The class was declared at one of these moments, and this is what it was to extend. -/
def Class.DeclaredDuring (moments : Config final → Prop) (c : Class) (parent : Option Class) :
    Prop :=
  ∃ moment, moments moment ∧ moment.declares? = some (c, parent)

/-- The past that consists of these moments. -/
def Past.of (known : NodeId → Option Nat → Prop) (moments : Config final → Prop) : Past :=
  ⟨fun c => ∃ parent, c.DeclaredDuring moments parent, known⟩

/-- A moment adds the class that it declares. -/
theorem Machine.Config.pastAfter_of (c : Config final) :
    c.pastAfter (.of known moments) = .of known fun m => moments m ∨ m = c := by
  have hadds (d : Class) : (c.pastAfter (.of known moments)).declared d
      ↔ ∃ parent, d.DeclaredDuring (fun m => moments m ∨ m = c) parent := by
    have hsplit : (∃ parent, d.DeclaredDuring (fun m => moments m ∨ m = c) parent)
        ↔ (∃ parent, d.DeclaredDuring moments parent) ∨ ∃ parent, c.declares? = some (d, parent) := by
      simp only [Class.DeclaredDuring, or_and_right, exists_or, exists_eq_left]
    rw [hsplit, pastAfter]
    cases c.declares? with
    | none => simp [Past.of]
    | some r => simp [Past.of, Past.declare, Prod.ext_iff, eq_comm]
  have hknown : (c.pastAfter (.of known moments)).known = known := by
    unfold pastAfter
    split <;> rfl
  exact Past.ext (funext fun d => propext (hadds d)) hknown

/-- All moments of a run are housed, and so are the values at its end, where the past grows by the
moments of the run. -/
theorem Machine.Config.Housed.advance {c : Config final} (hc : c.Housed (.of known moments))
    (hscoped : c.Scoped known) (n : Nat) :
    match c.advance n with
    | .inl c' => c'.Housed (.of known fun m => moments m ∨ c.Before n m)
    | .inr outcome => outcome.σ.Housed (.of known fun m => moments m ∨ c.Before n m) := by
  induction n generalizing c moments with
  | zero =>
      have hsame : (fun m => moments m ∨ c.Before 0 m) = moments := by simp [Config.Before]
      rw [hsame]
      exact hc
  | succ n ih =>
      have hnext := hc.step fun id r hid => hscoped.knows hid
      have hscoped' := hscoped.step
      rw [c.pastAfter_of] at hnext
      simp only [Config.before_succ]
      rw [Config.advance]
      cases hstep : c.step with
      | inl c' =>
          rw [hstep] at hnext hscoped'
          simpa [or_assoc] using ih hnext hscoped'
      | inr outcome =>
          rw [hstep] at hnext
          simpa using hnext

end Lox
