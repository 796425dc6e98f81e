import Lox.Proofs.Frames.Extension
import Lox.Proofs.Renaming.Rename

/-!
# Renamed bindings and frames

Bindings of two runs are related if they give related values to corresponding names. The frames of
the marked scope carry a tag, by which the name of a variable in the second run is known.
-/

namespace Lox

variable {α β : Type} {R S : α → β → Prop}

namespace Bindings

variable {Q : String → Prop} {g : String → String} {b : Bindings α} {b' : Bindings β}

/-- The names with the property have related values, under the names that they have on the right. -/
def Related (Q : String → Prop) (g : String → String) (R : α → β → Prop) (b : Bindings α)
    (b' : Bindings β) : Prop :=
  ∀ x, Q x → Option.Rel R (b.get? x) (b'.get? (g x))

/-- All names have related values. -/
abbrev Pointwise (R : α → β → Prop) (b : Bindings α) (b' : Bindings β) : Prop :=
  Related (fun _ => True) (fun x => x) R b b'

theorem Related.mono (h : Related Q g R b b') (hRS : ∀ v w, R v w → S v w) :
    Related Q g S b b' := by
  intro x hx
  have hrel := h x hx
  generalize b.get? x = v at hrel ⊢
  generalize b'.get? (g x) = w at hrel ⊢
  cases hrel with
  | some hvw => exact .some (hRS _ _ hvw)
  | none => exact .none

theorem related_nil : Related Q g R [] [] :=
  fun _ _ => .none

/-- Binding a name on both sides keeps bindings related, if different names stay different. -/
theorem Related.set (h : Related Q g R b b') {x : String} {v : α} {w : β} (hx : Q x)
    (hg : ∀ y, Q y → g y = g x → y = x) (hvw : R v w) :
    Related Q g R (Bindings.set x v b) (Bindings.set (g x) w b') := by
  intro y hy
  by_cases hyx : y = x
  · subst hyx
    rw [get?_set_self, get?_set_self]
    exact .some hvw
  · rw [get?_set_of_ne hyx, get?_set_of_ne fun heq => hyx (hg y hy heq)]
    exact h y hy

/-- Pairs of corresponding names and related values give related bindings. -/
theorem Related.ofPairs {pairs : List (String × α)} {pairs' : List (String × β)}
    (hg : ∀ x y, Q x → Q y → g x = g y → x = y)
    (h : List.Forall₂ (fun p q => q.1 = g p.1 ∧ Q p.1 ∧ R p.2 q.2) pairs pairs') :
    Related Q g R (Bindings.ofPairs pairs) (Bindings.ofPairs pairs') := by
  unfold Bindings.ofPairs
  have hb : Related Q g R ([] : Bindings α) ([] : Bindings β) := related_nil
  generalize ([] : Bindings α) = b at hb
  generalize ([] : Bindings β) = b' at hb
  induction h generalizing b b' with
  | nil => exact hb
  | @cons p q pairs pairs' hpq _ ih =>
      obtain ⟨hname, hQ, hvalue⟩ := hpq
      have hset := hb.set hQ (fun y hy => hg y p.1 hy hQ) hvalue
      rw [← hname] at hset
      exact ih _ _ hset

theorem Pointwise.ofPairs {pairs : List (String × α)} {pairs' : List (String × β)}
    (h : List.Forall₂ (fun p q => q.1 = p.1 ∧ R p.2 q.2) pairs pairs') :
    Pointwise R (Bindings.ofPairs pairs) (Bindings.ofPairs pairs') :=
  Related.ofPairs (fun _ _ _ _ heq => heq) (h.imp fun _ _ hpq => ⟨hpq.1, trivial, hpq.2⟩)

end Bindings

variable {tags tags' : List Bool} {m : Bool} {marked : List Bool} {chain : List Nat} {f d : Nat}

/-- The frames of the environment are tagged like the scopes around a place, and the global frame is
not tagged. -/
inductive Tagged (tags : List Bool) : List Bool → List Nat → Prop
  | global (h : tags[0]? = some false) : Tagged tags [] [0]
  | cons {m : Bool} {marked : List Bool} {f : Nat} {chain : List Nat} (hf : tags[f]? = some m)
      (outer : Tagged tags marked chain) : Tagged tags (m :: marked) (f :: chain)

namespace Tagged

theorem append (h : Tagged tags marked chain) (more : List Bool) :
    Tagged (tags ++ more) marked chain := by
  have hget : ∀ {f : Nat} {m : Bool}, tags[f]? = some m → (tags ++ more)[f]? = some m := by
    intro f m hf
    obtain ⟨hlt, -⟩ := List.getElem?_eq_some_iff.mp hf
    rwa [List.getElem?_append_left hlt]
  induction h with
  | global h => exact .global (hget h)
  | cons hf _ ih => exact .cons (hget hf) ih

theorem push (h : Tagged tags marked chain) (m : Bool) :
    Tagged (tags ++ [m]) (m :: marked) (tags.length :: chain) :=
  .cons (by simp) (h.append [m])

theorem getElem? (h : Tagged tags marked chain) (hd : chain[d]? = some f) :
    tags[f]? = some (marked.getD d false) := by
  induction h generalizing d with
  | global h =>
      obtain ⟨rfl, rfl⟩ : d = 0 ∧ f = 0 := by
        cases d with
        | zero => simpa using hd.symm
        | succ d => simp at hd
      exact h
  | cons hf _ ih =>
      cases d with
      | zero =>
          obtain rfl := Option.some.inj hd
          exact hf
      | succ d => exact ih hd

theorem exists_head (h : Tagged tags marked chain) :
    ∃ f outer, chain = f :: outer ∧ tags[f]? = some (marked.headD false) := by
  cases h with
  | global h => exact ⟨0, [], rfl, h⟩
  | cons hf _ => exact ⟨_, _, rfl, hf⟩

end Tagged

variable {ρ : Renaming} {fs : Frames α} {fs' : Frames β}

/-- The frames bind the same names to related values, up to the renaming in the tagged ones. -/
structure Frames.Related (ρ : Renaming) (tags : List Bool) (R : α → β → Prop) (fs : Frames α)
    (fs' : Frames β) : Prop where
  size_eq : fs.size = tags.length
  size_eq' : fs'.size = tags.length
  bindings : ∀ f m, tags[f]? = some m →
    Bindings.Related (· ≠ ρ.new) (ρ.name m) R (fs.bindings f) (fs'.bindings f)

namespace Frames.Related

theorem push (h : fs.Related ρ tags R fs') (hRS : ∀ v w, R v w → S v w) {b : Bindings α}
    {b' : Bindings β} (hb : Bindings.Related (· ≠ ρ.new) (ρ.name m) S b b') :
    (fs.push b).Related ρ (tags ++ [m]) S (fs'.push b') := by
  refine ⟨by simp [h.size_eq], by simp [h.size_eq'], fun f n hf => ?_⟩
  obtain ⟨hlt, -⟩ := List.getElem?_eq_some_iff.mp hf
  by_cases hlast : f < tags.length
  · rw [List.getElem?_append_left hlast] at hf
    rw [bindings_push_of_lt fs b (by rwa [h.size_eq]),
      bindings_push_of_lt fs' b' (by rwa [h.size_eq'])]
    exact (h.bindings f n hf).mono hRS
  · obtain rfl : f = tags.length :=
      Nat.le_antisymm (Nat.le_of_lt_succ (by simpa using hlt)) (Nat.le_of_not_lt hlast)
    obtain rfl : m = n := by simpa using hf
    have hsize := bindings_push_size fs b
    have hsize' := bindings_push_size fs' b'
    rw [h.size_eq] at hsize
    rw [h.size_eq'] at hsize'
    rwa [hsize, hsize']

theorem define (h : fs.Related ρ tags R fs') (hf : tags[f]? = some m) {x : String} {v : α} {w : β}
    (hx : x ≠ ρ.new) (hvw : R v w) :
    (fs.define f x v).Related ρ tags R (fs'.define f (ρ.name m x) w) := by
  obtain ⟨hlt, -⟩ := List.getElem?_eq_some_iff.mp hf
  refine ⟨by rw [size_define, h.size_eq], by rw [size_define, h.size_eq'], fun g n hg => ?_⟩
  by_cases hgf : g = f
  · subst hgf
    obtain rfl : n = m := Option.some.inj (hg.symm.trans hf)
    rw [bindings_define_self fs (by rwa [h.size_eq]),
      bindings_define_self fs' (by rwa [h.size_eq'])]
    exact (h.bindings g n hg).set hx (fun y hy => Renaming.name_inj hy hx) hvw
  · rw [bindings_define_of_ne fs hgf, bindings_define_of_ne fs' hgf]
    exact h.bindings g n hg

theorem get? (h : fs.Related ρ tags R fs') (hf : tags[f]? = some m) {x : String} (hx : x ≠ ρ.new) :
    Option.Rel R (fs.get? f x) (fs'.get? f (ρ.name m x)) :=
  h.bindings f m hf x hx

theorem binds (h : fs.Related ρ tags R fs') (hf : tags[f]? = some m) {x : String}
    (hx : x ≠ ρ.new) : fs'.binds f (ρ.name m x) = fs.binds f x := by
  have hrel := h.get? hf hx
  unfold Frames.binds
  generalize fs.get? f x = v at hrel
  generalize fs'.get? f (ρ.name m x) = w at hrel
  cases hrel <;> rfl

end Frames.Related

end Lox
