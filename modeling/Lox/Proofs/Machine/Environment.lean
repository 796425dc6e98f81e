import Lox.Machine.State
import Lox.Proofs.Frames.Extension
import Lox.Proofs.Scope.WellScoped

/-!
# Scopes and environments

At every moment of a run the environment has one frame for each scope around the current place, in
the same order, in front of the global frame. Each of these frames binds the names that its scope
holds. The only name without a binding is the variable whose initializer is being evaluated.
-/

namespace Lox.Machine

variable {fs fs' : Frames Value} {scopes : Scopes} {s : Scope} {chain outer : Chain} {f h d : Nat}
variable {x y : String} {v : Value} {b : Bindings Value}

/-- The chain has a frame for each of the scopes, which binds all the names that the scope holds,
in front of the global frame. -/
inductive Realizes (fs : Frames Value) : Scopes → Chain → Prop
  | global : Realizes fs [] globalChain
  | cons {s : Scope} {scopes : Scopes} {f : FrameId} {chain : Chain} (hglobal : f ≠ globalFrame)
      (hf : f < fs.size) (hbinds : ∀ x, s.holds x = true → fs.binds f x = true)
      (outer : Realizes fs scopes chain) : Realizes fs (s :: scopes) (f :: chain)

namespace Realizes

theorem mono (he : fs.Extends h fs') (hr : Realizes fs scopes chain) :
    Realizes fs' scopes chain := by
  induction hr with
  | global => exact .global
  | cons hglobal hf hbinds _ ih =>
      exact .cons hglobal (Nat.lt_of_lt_of_le hf he.size_le) (fun x hx => he.binds (hbinds x hx)) ih

theorem exists_head (hr : Realizes fs scopes chain) (hne : 0 < fs.size) :
    ∃ f outer, chain = f :: outer ∧ f < fs.size := by
  cases hr with
  | global => exact ⟨globalFrame, [], rfl, hne⟩
  | cons _ hf _ _ => exact ⟨_, _, rfl, hf⟩

/-- The frame at the distance of a name is not the global one, and binds the name. -/
theorem binds_at (hr : Realizes fs scopes chain) (hd : scopes.distance? x = some d) :
    ∃ f, chain[d]? = some f ∧ f ≠ globalFrame ∧ fs.binds f x = true := by
  induction hr generalizing d with
  | global => simp at hd
  | @cons s scopes f chain hglobal hf hbinds _ ih =>
      rw [Scopes.distance?_cons] at hd
      by_cases hs : s.holds x = true
      · rw [if_pos hs, Option.some.injEq] at hd
        subst hd
        exact ⟨f, rfl, hglobal, hbinds x hs⟩
      · rw [if_neg hs, Option.map_eq_some_iff] at hd
        obtain ⟨n, hn, rfl⟩ := hd
        simpa using ih hn

theorem enter (hr : Realizes fs scopes chain) (hne : 0 < fs.size)
    (hb : ∀ x, s.holds x = true → (b.get? x).isSome = true) :
    Realizes (fs.push b) (s :: scopes) (fs.size :: chain) := by
  refine .cons (Nat.ne_of_gt hne) (by simp) (fun x hx => ?_) (hr.mono (fs.extends_push b))
  rw [Frames.binds, Frames.get?_push_size]
  exact hb x hx

theorem define (hr : Realizes fs scopes (f :: outer)) :
    Realizes (fs.define f x v) (scopes.define x) (f :: outer) := by
  have hmono := hr.mono (fs.extends_define f x v)
  cases hmono with
  | global => exact .global
  | cons hglobal hf hbinds houter =>
      refine .cons hglobal hf (fun y hy => ?_) houter
      by_cases hyx : y = x
      · subst hyx
        exact Frames.binds_define_self (by simpa using hf)
      · exact hbinds y (by simpa [hyx] using hy)

end Realizes

/-- The innermost frame binds no names other than those of the innermost scope. -/
def Owns (fs : Frames Value) : Scopes → Chain → Prop
  | s :: _, f :: _ => ∀ x, fs.binds f x = true → s.holds x = true
  | _, _ => True

theorem Owns.mono (ho : Owns fs scopes chain) (he : fs.Extends h fs')
    (hlt : chain.headD globalFrame < h) : Owns fs' scopes chain := by
  unfold Owns at *
  split at ho
  · exact fun x hx => ho x (he.below hlt hx)
  · trivial

theorem Owns.define (ho : Owns fs scopes (f :: outer)) :
    Owns (fs.define f x v) (scopes.define x) (f :: outer) := by
  cases scopes with
  | nil => trivial
  | cons s scopes =>
      intro y hy
      by_cases hyx : y = x
      · simp [hyx]
      · rw [Frames.binds_define_of_ne (.inr hyx)] at hy
        simp [ho y hy]

/-- A place of a running program. -/
structure Place where
  /-- The scopes around the place, with the names that are bound so far. -/
  scopes : Scopes
  /-- The variable of the innermost scope whose initializer is being evaluated. -/
  pending : Option String

namespace Place

/-- A place outside of initializers. -/
def settled (scopes : Scopes) : Place :=
  ⟨scopes, none⟩

/-- The scopes as resolution sees them. -/
def visible (p : Place) : Scopes :=
  match p.pending with
  | none => p.scopes
  | some x => p.scopes.declare x

@[simp] theorem visible_settled (scopes : Scopes) : (settled scopes).visible = scopes := rfl

@[simp] theorem scopes_settled (scopes : Scopes) : (settled scopes).scopes = scopes := rfl

@[simp] theorem pending_settled (scopes : Scopes) : (settled scopes).pending = none := rfl

@[simp] theorem visible_pending (scopes : Scopes) (x : String) :
    visible ⟨scopes, some x⟩ = scopes.declare x := rfl

/-- The environment is the one that belongs to the place. -/
structure Stands (p : Place) (fs : Frames Value) (chain : Chain) : Prop where
  realizes : Realizes fs p.scopes chain
  owns : Owns fs p.scopes chain
  admits : ∀ x, p.pending = some x → ¬ Implicit x ∧ p.scopes.redeclares x = false

namespace Stands

variable {p : Place}

/-- The environment of a place is not disturbed by what happens in later frames. -/
theorem mono (hp : p.Stands fs chain) (he : fs.Extends h fs')
    (hlt : chain.headD globalFrame < h) : p.Stands fs' chain :=
  ⟨hp.realizes.mono he, hp.owns.mono he hlt, hp.admits⟩

theorem headD_lt (hp : p.Stands fs chain) (hne : 0 < fs.size) :
    chain.headD globalFrame < fs.size := by
  obtain ⟨f, outer, rfl, hf⟩ := hp.realizes.exists_head hne
  exact hf

/-- A pending name is visible at distance 0 in the innermost scope, if that is not the global one. -/
theorem distance?_pending (hd : p.visible.distance? x = some d) (hx : p.pending = some x) :
    d = 0 ∧ ∃ s outer, p.scopes = s :: outer := by
  obtain ⟨scopes, pending⟩ := p
  cases hx
  cases scopes with
  | nil => simp [Scopes.declare] at hd
  | cons s outer =>
      rw [visible_pending, Scopes.distance?_declare_self, Option.some.injEq] at hd
      exact ⟨hd.symm, s, outer, rfl⟩

/-- All names but the pending one are seen as they are bound. -/
theorem distance?_visible (hx : p.pending ≠ some x) :
    p.visible.distance? x = p.scopes.distance? x := by
  obtain ⟨scopes, pending⟩ := p
  cases pending with
  | none => rfl
  | some y => exact Scopes.distance?_declare_of_ne (by rintro rfl; exact hx rfl)

/-- A name that is not pending is bound in the frame at its distance. -/
theorem binds_at (hp : p.Stands fs chain) (hd : p.visible.distance? x = some d)
    (hx : p.pending ≠ some x) :
    ∃ f, chain[d]? = some f ∧ f ≠ globalFrame ∧ fs.binds f x = true :=
  hp.realizes.binds_at (by rwa [distance?_visible hx] at hd)

/-- The frame at the distance of a pending name does not bind it. -/
theorem not_binds_at (hp : p.Stands fs chain) (hd : p.visible.distance? x = some d)
    (hx : p.pending = some x) : ∃ f, chain[d]? = some f ∧ fs.binds f x = false := by
  obtain ⟨rfl, s, outer, hs⟩ := distance?_pending hd hx
  obtain ⟨hrealizes, howns, hadmits⟩ := hp
  have hredeclares := (hadmits x hx).2
  rw [hs] at hrealizes howns hredeclares
  cases hrealizes with
  | cons hglobal hf hbinds houter =>
      refine ⟨_, rfl, ?_⟩
      rw [Bool.eq_false_iff]
      intro hb
      exact Bool.false_ne_true (hredeclares.symm.trans (howns x hb))

theorem pending_ne_of_implicit (hp : p.Stands fs chain) (hx : Implicit x) :
    p.pending ≠ some x :=
  fun hpending => (hp.admits x hpending).1 hx

/-- A name that may be read is not pending, or else it is global. -/
theorem pending_ne_of_isPending (hp : p.Stands fs chain) (hd : p.visible.distance? x = some d)
    (hx : p.visible.isPending x = false) : p.pending ≠ some x := by
  intro hpending
  obtain ⟨-, s, outer, hs⟩ := distance?_pending hd hpending
  have hredeclares := (hp.admits x hpending).2
  obtain ⟨scopes, pending⟩ := p
  cases hpending
  subst hs
  rw [visible_pending, Scopes.isPending_declare_of_not_redeclares hredeclares] at hx
  exact Bool.false_ne_true hx.symm

theorem enter (hr : Realizes fs scopes chain) (hne : 0 < fs.size)
    (hb : ∀ x, s.holds x = (b.get? x).isSome) :
    (settled (s :: scopes)).Stands (fs.push b) (fs.size :: chain) := by
  refine ⟨hr.enter hne fun x hx => (hb x).symm.trans hx, fun x hx => ?_, nofun⟩
  rw [Frames.binds, Frames.get?_push_size] at hx
  exact (hb x).trans hx

theorem define {pending : Option String} (hp : Stands ⟨scopes, pending⟩ fs (f :: outer)) :
    (settled (scopes.define x)).Stands (fs.define f x v) (f :: outer) :=
  ⟨hp.realizes.define, hp.owns.define, nofun⟩

theorem declare {name : Token} (hp : (settled scopes).Stands fs chain)
    (hname : scopes.Admits name) : Stands ⟨scopes, some name.lexeme⟩ fs chain := by
  refine ⟨hp.realizes, hp.owns, fun x hx => ?_⟩
  cases hx
  exact ⟨hname.not_implicit, hname.not_redeclares⟩

end Stands

end Place

end Lox.Machine
