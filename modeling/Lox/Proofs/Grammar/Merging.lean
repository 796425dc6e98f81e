import Lox.Proofs.Grammar.Words

/-!
# Expressions in a row

An expression that begins with a minus or with an opening parenthesis continues an expression that
stands before it. Together they are an expression as well, except that one assignment in it may have a
target that cannot be assigned to.
-/

namespace Lox.Grammar

open Ebnf (name)

variable {s : Symbol} {x y : Name} {u v w : List Terminal}

/-- A word of the name and one that begins with the symbol are a word of the name together. -/
def Merges (s : Symbol) (x : Name) : Prop :=
  ∀ u v, Derives (name x) u → Derives (name x) (.symbol s :: v) →
    Derives (name x) (u ++ .symbol s :: v)

theorem merges_call : Merges .leftParen .call := by
  intro u v hu hv
  obtain ⟨u₀, us, rfl, hu₀, hus⟩ := derives_call_iff.mp hu
  obtain ⟨v₀, vs, hv, hv₀, hvs⟩ := derives_call_iff.mp hv
  have hgroup : IsSuffix v₀ := by
    rw [derives_primary_iff] at hv₀
    rcases hv₀ with rfl | rfl | rfl | rfl | rfl | rfl | rfl | ⟨e, rfl, he⟩ | rfl
    · simp at hv
    · simp at hv
    · simp at hv
    · simp at hv
    · simp at hv
    · simp at hv
    · simp at hv
    · exact .inl ⟨e, rfl, .inr (derives_arguments_iff.mpr ⟨e, [], by simp, he, by simp, by simp⟩)⟩
    · simp at hv
  rw [hv]
  refine derives_call_iff.mpr ⟨u₀, us ++ v₀ :: vs, by simp, hu₀, fun w hw => ?_⟩
  rcases List.mem_append.mp hw with hw | hw
  · exact hus w hw
  rcases List.mem_cons.mp hw with rfl | hw
  · exact hgroup
  · exact hvs w hw

theorem merges_unary : Merges .leftParen .unary := by
  intro u v hu hv
  have hcall : Derives (name .call) (.symbol .leftParen :: v) := by
    rcases derives_unary_iff.mp hv with ⟨s, w, heq, hs, -⟩ | hv
    · obtain ⟨heq, -⟩ := List.cons_eq_cons.mp heq
      obtain rfl := Terminal.symbol.inj heq
      simp at hs
    · exact hv
  induction hn : u.length using Nat.strongRecOn generalizing u with
  | ind n ih =>
      rcases derives_unary_iff.mp hu with ⟨s, u', rfl, hs, hu'⟩ | hu
      · have hlt : u'.length < n := by simp [← hn]
        exact derives_unary_iff.mpr (.inl ⟨s, _, rfl, hs, ih _ hlt u' hu' rfl⟩)
      · exact derives_unary_iff.mpr (.inr (merges_call u v hu hcall))

/-- Where the first operand of the second word continues the last one of the first word, the two are
joined. -/
theorem Merges.joins {operators : List Symbol} (hjoins : Joins x operators y)
    (hne : ∀ {w}, Derives (name y) w → w ≠ []) (h : Merges s y) : Merges s x := by
  intro u v hu hv
  obtain ⟨u₀, us, rfl, hu₀, hus⟩ := (hjoins u).mp hu
  obtain ⟨v₀, vs, hv, hv₀, hvs⟩ := (hjoins _).mp hv
  obtain ⟨t, v', rfl⟩ := List.exists_cons_of_ne_nil (hne hv₀)
  obtain ⟨rfl, rfl⟩ := List.cons_eq_cons.mp hv
  refine (hjoins _).mpr ?_
  rcases List.eq_nil_or_concat us with rfl | ⟨us, last, rfl⟩
  · exact ⟨u₀ ++ .symbol s :: v', vs, by simp, h u₀ v' hu₀ hv₀, hvs⟩
  · rw [List.concat_eq_append, List.forall_mem_append] at hus
    obtain ⟨hus, hlast⟩ := hus
    obtain ⟨o, last, rfl, ho, hlast⟩ := hlast _ (List.mem_singleton_self _)
    refine ⟨u₀, us ++ (.symbol o :: (last ++ .symbol s :: v')) :: vs, by simp, hu₀, ?_⟩
    rw [List.forall_mem_append, List.forall_mem_cons]
    exact ⟨hus, ⟨o, _, rfl, ho, h last v' hlast hv₀⟩, hvs⟩

/-- Behind a minus at the front of an operand of a level there is such an operand. -/
theorem derives_behind_minus {ls : List Level} (h : Tower x ls)
    (hv : Derives (name x) (.symbol .minus :: v)) : Derives (name x) v := by
  induction h generalizing v with
  | unary =>
      rcases derives_unary_iff.mp hv with ⟨s, w, heq, -, hw⟩ | hv
      · rw [(List.cons_eq_cons.mp heq).2]
        exact hw
      · obtain ⟨t, w, heq, ht⟩ := begins_call hv
        rw [← (List.cons_eq_cons.mp heq).1] at ht
        exact absurd ht (by decide)
  | level hjoins _ _ htower ih =>
      obtain ⟨v₀, vs, hv, hv₀, hvs⟩ := (hjoins _).mp hv
      obtain ⟨t, v', rfl⟩ := List.exists_cons_of_ne_nil (htower.begins hv₀).ne_nil
      obtain ⟨rfl, rfl⟩ := List.cons_eq_cons.mp hv
      exact (hjoins _).mpr ⟨v', vs, rfl, ih hv₀, hvs⟩

theorem Tower.merges_leftParen {ls : List Level} (h : Tower x ls) : Merges .leftParen x := by
  induction h with
  | unary => exact merges_unary
  | level hjoins _ _ htower ih => exact ih.joins hjoins fun hw => (htower.begins hw).ne_nil

/-- A minus at the front of the second word joins it to the first, where it is an operator. -/
theorem Tower.merges_minus {ls : List Level} (h : Tower x ls)
    (hminus : ∃ level ∈ ls, .minus ∈ level.operators) : Merges .minus x := by
  induction h with
  | unary => simp at hminus
  | @level x y level tighter hjoins _ _ htower ih =>
      by_cases hlevel : .minus ∈ level.operators
      · intro u v hu hv
        obtain ⟨u₀, us, rfl, hu₀, hus⟩ := (hjoins u).mp hu
        obtain ⟨v₀, vs, hv, hv₀, hvs⟩ := (hjoins _).mp hv
        obtain ⟨t, v', rfl⟩ := List.exists_cons_of_ne_nil (htower.begins hv₀).ne_nil
        obtain ⟨rfl, rfl⟩ := List.cons_eq_cons.mp hv
        refine (hjoins _).mpr ⟨u₀, us ++ (.symbol .minus :: v') :: vs, by simp, hu₀, ?_⟩
        rw [List.forall_mem_append, List.forall_mem_cons]
        exact ⟨hus, ⟨.minus, v', rfl, hlevel, derives_behind_minus htower hv₀⟩, hvs⟩
      · have htighter : ∃ level ∈ tighter, .minus ∈ level.operators := by
          simpa [hlevel] using hminus
        exact (ih htighter).joins hjoins fun hw => (htower.begins hw).ne_nil

theorem Merges.ternary (h : Merges s .logicOr) : Merges s .ternary := by
  intro u v hu hv
  induction hn : u.length using Nat.strongRecOn generalizing u with
  | ind n ih =>
      obtain ⟨o, branches, rfl, ho, hbranches⟩ := derives_ternary_iff.mp hu
      rcases hbranches with rfl | ⟨v₁, v₂, rfl, hv₁, hv₂⟩
      · obtain ⟨o', branches', heq, ho', hbranches'⟩ := derives_ternary_iff.mp hv
        obtain ⟨t, w, rfl⟩ := List.exists_cons_of_ne_nil (tower_logicOr.begins ho').ne_nil
        obtain ⟨rfl, rfl⟩ := List.cons_eq_cons.mp heq
        exact derives_ternary_iff.mpr
          ⟨o ++ .symbol s :: w, branches', by simp, h o w ho ho', hbranches'⟩
      · have hlt : v₂.length < n := by
          simp only [List.length_append, List.length_cons] at hn
          omega
        refine derives_ternary_iff.mpr ⟨o, _, List.append_assoc .., ho, .inr ⟨v₁, _, ?_, hv₁,
          ih _ hlt v₂ hv₂ rfl⟩⟩
        simp

/-- The symbol continues an expression and can begin one. -/
def Continues (s : Symbol) : Prop :=
  s = .minus ∨ s = .leftParen

theorem merges_ternary (hs : Continues s) : Merges s .ternary := by
  rcases hs with rfl | rfl
  · exact (tower_logicOr.merges_minus (by decide)).ternary
  · exact tower_logicOr.merges_leftParen.ternary

theorem Tower.derives_of_unary {ls : List Level} (h : Tower x ls)
    (hw : Derives (name .unary) w) : Derives (name x) w := by
  induction h with
  | unary => exact hw
  | level hjoins _ _ _ ih => exact (hjoins w).mpr ⟨w, [], by simp, ih, by simp⟩

theorem IsTarget.derives (h : IsTarget w) : Derives (name .ternary) w := by
  have hcall : Derives (name .call) w := by
    rcases h with rfl | ⟨u, rfl, hu⟩
    · exact derives_call_iff.mpr ⟨[.identifier], [], rfl, by simp [derives_primary_iff], by simp⟩
    · obtain ⟨u₀, us, rfl, hu₀, hus⟩ := derives_call_iff.mp hu
      refine derives_call_iff.mpr
        ⟨u₀, us ++ [[.symbol .dot, .identifier]], by simp, hu₀, fun v hv => ?_⟩
      rcases List.mem_append.mp hv with hv | hv
      · exact hus v hv
      · exact .inr (List.mem_singleton.mp hv)
  have hor := tower_logicOr.derives_of_unary (derives_unary_iff.mpr (.inr hcall))
  exact derives_ternary_iff.mpr ⟨w, [], by simp, hor, .inl rfl⟩

/-- An expression, except that the target of one assignment may be any conditional. -/
inductive Lenient : List Terminal → Prop
  | strict {w : List Terminal} (h : Derives (name .expression) w) : Lenient w
  | invalid {u v : List Terminal} (hu : Derives (name .ternary) u)
      (hv : Derives (name .expression) v) : Lenient (u ++ .symbol .equal :: v)
  | assign {u v : List Terminal} (hu : IsTarget u) (hv : Lenient v) :
      Lenient (u ++ .symbol .equal :: v)

/-- Two expressions in a row are one, except for the target of an assignment that both make up. -/
theorem lenient_append (hs : Continues s) (hu : Derives (name .expression) u)
    (hv : Derives (name .expression) (.symbol s :: v)) : Lenient (u ++ .symbol s :: v) := by
  induction hn : u.length using Nat.strongRecOn generalizing u with
  | ind n ih =>
      rcases derives_expression_iff.mp hu with ⟨target, value, rfl, htarget, hvalue⟩ | hu
      · have hlt : value.length < n := by
          simp only [List.length_append, List.length_cons] at hn
          omega
        rw [List.append_assoc]
        exact .assign htarget (ih _ hlt hvalue rfl)
      rcases derives_expression_iff.mp hv with ⟨target, value, heq, htarget, hvalue⟩ | hv
      · obtain ⟨t, w, rfl⟩ := List.exists_cons_of_ne_nil htarget.begins.ne_nil
        obtain ⟨rfl, rfl⟩ := List.cons_eq_cons.mp heq
        have hmerged := merges_ternary hs u w hu htarget.derives
        simpa using Lenient.invalid hmerged hvalue
      · exact .strict (derives_expression_iff.mpr (.inr (merges_ternary hs u v hu hv)))

end Lox.Grammar
