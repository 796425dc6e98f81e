import Lox.Proofs.Printing.Trees
import Lox.Proofs.Session.Evaluation

/-!
# Texts of trees are unambiguous

Expressions that are composed of legible tokens and have the same text differ in nothing but the
identities of nodes, the lines of tokens, and numbers with the same text. Single expressions are so
composed if they are parsed from sources without strings and infinite numbers.
-/

namespace Lox

open Token (Legible)

/-- The literals are the same, or numbers with the same text. -/
inductive Literal.Matches : Literal → Literal → Prop
  | refl (value : Literal) : Matches value value
  | number {x y : Float} (h : Number.treeText x = Number.treeText y) :
      Matches (.number x) (.number y)

/-- The expressions differ at most in the identities of nodes, the lines of tokens, and numbers with
the same text. -/
inductive Expr.Matches : Expr → Expr → Prop
  | literal {v v' : Literal} (hv : v.Matches v') : Matches (.literal v) (.literal v')
  | group {e e' : Expr} (he : Matches e e') : Matches (.group e) (.group e')
  | unary {op op' : Token} {e e' : Expr} (hop : op.Matches op') (he : Matches e e') :
      Matches (.unary op e) (.unary op' e')
  | binary {l l' r r' : Expr} {op op' : Token} (hl : Matches l l') (hop : op.Matches op')
      (hr : Matches r r') : Matches (.binary l op r) (.binary l' op' r')
  | logical {l l' r r' : Expr} {op op' : Token} (hl : Matches l l') (hop : op.Matches op')
      (hr : Matches r r') : Matches (.logical l op r) (.logical l' op' r')
  | conditional {c c' t t' e e' : Expr} (hc : Matches c c') (ht : Matches t t')
      (he : Matches e e') : Matches (.conditional c t e) (.conditional c' t' e')
  | var {id id' : NodeId} {x x' : Token} (hx : x.Matches x') : Matches (.var id x) (.var id' x')
  | assign {id id' : NodeId} {x x' : Token} {e e' : Expr} (hx : x.Matches x')
      (he : Matches e e') : Matches (.assign id x e) (.assign id' x' e')
  | call {f f' : Expr} {p p' : Token} {as as' : List Expr} (hf : Matches f f')
      (hp : p.Matches p') (has : List.Forall₂ Matches as as') :
      Matches (.call f p as) (.call f' p' as')
  | get {e e' : Expr} {x x' : Token} (he : Matches e e') (hx : x.Matches x') :
      Matches (.get e x) (.get e' x')
  | set {e e' v v' : Expr} {x x' : Token} (he : Matches e e') (hx : x.Matches x')
      (hv : Matches v v') : Matches (.set e x v) (.set e' x' v')
  | this {id id' : NodeId} {k k' : Token} (hk : k.Matches k') :
      Matches (.this id k) (.this id' k')
  | super {id id' : NodeId} {k k' m m' : Token} (hk : k.Matches k') (hm : m.Matches m') :
      Matches (.super id k m) (.super id' k' m')

variable {v v' : Literal} {e e' : Expr}

theorem isDigit_head_literal (h : (Expr.literal v).Composed Legible) :
    v.treeText.toList.head?.any Char.isDigit = true ↔ ∃ x, v = .number x := by
  cases v with
  | nil => exact iff_of_false (by decide) nofun
  | boolean b => cases b <;> exact iff_of_false (by decide) nofun
  | string text => exact (not_string_literal h).elim
  | number x =>
      obtain ⟨d, cs, htext, hd⟩ := (numeric_of_literal h).lead
      refine iff_of_true ?_ ⟨x, rfl⟩
      rw [Literal.treeText, htext]
      simpa using hd

theorem matches_literal (h : (Expr.literal v).Composed Legible)
    (h' : (Expr.literal v').Composed Legible) (heq : v.treeText.toList = v'.treeText.toList) :
    v.Matches v' := by
  have hnumber : (∃ x, v = .number x) ↔ ∃ x, v' = .number x := by
    rw [← isDigit_head_literal h, heq, isDigit_head_literal h']
  cases v with
  | string text => exact (not_string_literal h).elim
  | number x =>
      obtain ⟨y, rfl⟩ := hnumber.mp ⟨x, rfl⟩
      exact .number (String.toList_inj.mp heq)
  | nil =>
      cases v' with
      | nil => exact .refl _
      | boolean b => cases b <;> exact absurd heq (by decide)
      | number y => exact absurd (hnumber.mpr ⟨y, rfl⟩) nofun
      | string text => exact (not_string_literal h').elim
  | boolean b =>
      cases v' with
      | nil => cases b <;> exact absurd heq (by decide)
      | boolean b' =>
          obtain rfl : b = b' := by
            cases b <;> cases b' <;> first | rfl | exact absurd heq (by decide)
          exact .refl _
      | number y => exact absurd (hnumber.mpr ⟨y, rfl⟩) nofun
      | string text => exact (not_string_literal h').elim

theorem matches_operator {t u : Token} {symbols : List Symbol} (ht : t.IsOneOf Legible symbols)
    (hu : u.IsOneOf Legible symbols) (h : t.lexeme.toList = u.lexeme.toList) : t.Matches u :=
  ht.1.matches_of_lexeme hu.1 h

theorem matches_name {t u : Token} (ht : t.IsName Legible) (hu : u.IsName Legible)
    (h : Bracketed.word t.lexeme.toList = .word u.lexeme.toList) : t.Matches u :=
  ht.1.matches_of_lexeme hu.1 (Bracketed.word.inj h)

theorem matches_symbol {t u : Token} {s : Symbol} (ht : t.IsSymbol Legible s)
    (hu : u.IsSymbol Legible s) : t.Matches u := by
  refine ht.1.matches_of_lexeme hu.1 ?_
  rw [ht.1.lexeme_of_symbol ht.2, hu.1.lexeme_of_symbol hu.2]

mutual

/-- Expressions with the same bracketed text match. -/
theorem matches_of_bracketed : ∀ {e e' : Expr}, e.Composed Legible → e'.Composed Legible →
    e.bracketed = e'.bracketed → e.Matches e'
  | .literal v, e', h, h', heq => by
      have hshape := shape_eq h h' heq
      cases e' with
      | literal v' => exact .literal (matches_literal h h' (Bracketed.word.inj heq))
      | _ => cases hshape
  | .group inner, e', h, h', heq => by
      have hshape := shape_eq h h' heq
      cases e' with
      | group inner' =>
          simp only [Expr.bracketed, Bracketed.node.injEq, List.cons.injEq] at heq
          exact .group (matches_of_bracketed h h' heq.2.1)
      | _ => cases hshape
  | .unary operator operand, e', h, h', heq => by
      have hshape := shape_eq h h' heq
      cases e' with
      | unary operator' operand' =>
          simp only [Expr.bracketed, Bracketed.node.injEq, List.cons.injEq] at heq
          exact .unary (matches_operator h.1 h'.1 heq.1) (matches_of_bracketed h.2 h'.2 heq.2.1)
      | _ => cases hshape
  | .binary left operator right, e', h, h', heq => by
      have hshape := shape_eq h h' heq
      cases e' with
      | binary left' operator' right' =>
          simp only [Expr.bracketed, Bracketed.node.injEq, List.cons.injEq] at heq
          obtain ⟨hoperator, hleft, hright, -⟩ := heq
          exact .binary (matches_of_bracketed h.1 h'.1 hleft)
            (matches_operator h.2.1 h'.2.1 hoperator) (matches_of_bracketed h.2.2 h'.2.2 hright)
      | _ => cases hshape
  | .logical left operator right, e', h, h', heq => by
      have hshape := shape_eq h h' heq
      cases e' with
      | logical left' operator' right' =>
          simp only [Expr.bracketed, Bracketed.node.injEq, List.cons.injEq] at heq
          obtain ⟨hoperator, hleft, hright, -⟩ := heq
          exact .logical (matches_of_bracketed h.1 h'.1 hleft)
            (matches_operator h.2.1 h'.2.1 hoperator) (matches_of_bracketed h.2.2 h'.2.2 hright)
      | _ => cases hshape
  | .conditional c t e, e', h, h', heq => by
      have hshape := shape_eq h h' heq
      cases e' with
      | conditional c' t' e' =>
          simp only [Expr.bracketed, Bracketed.node.injEq, List.cons.injEq] at heq
          obtain ⟨-, hc, ht, he, -⟩ := heq
          exact .conditional (matches_of_bracketed h.1 h'.1 hc)
            (matches_of_bracketed h.2.1 h'.2.1 ht) (matches_of_bracketed h.2.2 h'.2.2 he)
      | _ => cases hshape
  | .var id name, e', h, h', heq => by
      have hshape := shape_eq h h' heq
      cases e' with
      | var id' name' => exact .var (matches_name h h' heq)
      | _ => cases hshape
  | .assign id name value, e', h, h', heq => by
      have hshape := shape_eq h h' heq
      cases e' with
      | assign id' name' value' =>
          simp only [Expr.bracketed, Bracketed.node.injEq, List.cons.injEq] at heq
          obtain ⟨-, hname, hvalue, -⟩ := heq
          exact .assign (matches_name h.1 h'.1 hname) (matches_of_bracketed h.2 h'.2 hvalue)
      | _ => cases hshape
  | .call callee paren arguments, e', h, h', heq => by
      have hshape := shape_eq h h' heq
      cases e' with
      | call callee' paren' arguments' =>
          simp only [Expr.bracketed, Bracketed.node.injEq, List.cons.injEq] at heq
          obtain ⟨-, hcallee, harguments⟩ := heq
          exact .call (matches_of_bracketed h.1 h'.1 hcallee) (matches_symbol h.2.1 h'.2.1)
            (matches_of_listBracketed h.2.2 h'.2.2 harguments)
      | _ => cases hshape
  | .get object name, e', h, h', heq => by
      have hshape := shape_eq h h' heq
      cases e' with
      | get object' name' =>
          simp only [Expr.bracketed, Bracketed.node.injEq, List.cons.injEq] at heq
          obtain ⟨-, hobject, hname, -⟩ := heq
          exact .get (matches_of_bracketed h.1 h'.1 hobject) (matches_name h.2 h'.2 hname)
      | _ => cases hshape
  | .set object name value, e', h, h', heq => by
      have hshape := shape_eq h h' heq
      cases e' with
      | set object' name' value' =>
          simp only [Expr.bracketed, Bracketed.node.injEq, List.cons.injEq] at heq
          obtain ⟨-, hobject, hname, hvalue, -⟩ := heq
          exact .set (matches_of_bracketed h.1 h'.1 hobject) (matches_name h.2.1 h'.2.1 hname)
            (matches_of_bracketed h.2.2 h'.2.2 hvalue)
      | _ => cases hshape
  | .this id keyword, e', h, h', heq => by
      have hshape := shape_eq h h' heq
      cases e' with
      | this id' keyword' => exact .this (matches_symbol h h')
      | _ => cases hshape
  | .super id keyword method, e', h, h', heq => by
      have hshape := shape_eq h h' heq
      cases e' with
      | super id' keyword' method' =>
          simp only [Expr.bracketed, Bracketed.node.injEq, List.cons.injEq] at heq
          exact .super (matches_symbol h.1 h'.1) (matches_name h.2 h'.2 heq.2.1)
      | _ => cases hshape

theorem matches_of_listBracketed : ∀ {es es' : List Expr}, Expr.ListComposed Legible es →
    Expr.ListComposed Legible es' → Expr.listBracketed es = Expr.listBracketed es' →
      List.Forall₂ Expr.Matches es es'
  | [], [], _, _, _ => .nil
  | [], _ :: _, _, _, heq => (List.cons_ne_nil _ _ heq.symm).elim
  | _ :: _, [], _, _, heq => (List.cons_ne_nil _ _ heq).elim
  | e :: es, e' :: es', h, h', heq => by
      rw [Expr.listBracketed, Expr.listBracketed, List.cons.injEq] at heq
      exact .cons (matches_of_bracketed h.1 h'.1 heq.1) (matches_of_listBracketed h.2 h'.2 heq.2)

end

/-- Expressions that are composed of legible tokens match if they have the same text. -/
theorem matches_of_text (h : e.Composed Legible) (h' : e'.Composed Legible)
    (heq : e.text = e'.text) : e.Matches e' := by
  refine matches_of_bracketed h h' ?_
  refine Bracketed.eq_of_letters_eq (legible_bracketed h) (legible_bracketed h') ?_
  rw [letters_bracketed, letters_bracketed, heq]

namespace Grammar

/-- An expression that is parsed is composed of tokens of the input before its end. -/
theorem composed_of_parseExpression {Q : Token → Prop} {tokens : List Token} {n : NodeId}
    (hQ : ∀ t ∈ tokens, isEnd t = false → Q t)
    (h : (parseExpression tokens n).result = some e) : e.Composed Q := by
  obtain ⟨d, hrun, -⟩ := exists_expression_of_sole h
  have hinput : ∀ t ∈ (Cursor.ofTokens tokens n).rest, Q t := by
    intro t ht
    have hend := List.mem_takeWhile_imp ht
    exact hQ t (List.takeWhile_subset _ ht) (by simpa using hend)
  have hyields := composed_expression n _ hinput rfl
  rw [hrun] at hyields
  exact hyields.2

end Grammar

/-- Single expressions that are parsed from sources without strings and infinite numbers match if
they have the same text. -/
theorem parsed_expressions_match_of_text {source source' : String} {n n' : NodeId}
    (hplain : Lexer.Plain source) (hplain' : Lexer.Plain source')
    (h : (Grammar.parseExpression (Lexer.tokens source) n).result = some e)
    (h' : (Grammar.parseExpression (Lexer.tokens source') n').result = some e')
    (heq : e.text = e'.text) : e.Matches e' := by
  refine matches_of_text ?_ ?_ heq
  · exact Grammar.composed_of_parseExpression (fun _ => Lexer.legible_of_mem_tokens hplain) h
  · exact Grammar.composed_of_parseExpression (fun _ => Lexer.legible_of_mem_tokens hplain') h'

/-- The same difference on one line and on two, its number with and without a zero at the end. -/
theorem texts_of_spaced_product :
    Lexer.Plain "(x - -1.50) * f(y, 2)" ∧ Lexer.Plain "(x // on two lines\n - -1.5)*f(y,2.0)"
      ∧ ∃ e e', (Grammar.parseExpression (Lexer.tokens "(x - -1.50) * f(y, 2)") 0).result = some e
        ∧ (Grammar.parseExpression
          (Lexer.tokens "(x // on two lines\n - -1.5)*f(y,2.0)") 7).result = some e'
        ∧ e.text = "(* (group (- x (- 1.5))) (call f y 2.0))" ∧ e'.text = e.text
        ∧ e.ids = [0, 1, 2] ∧ e'.ids = [7, 8, 9] ∧ e.Matches e' := by
  have hplain : Lexer.Plain "(x - -1.50) * f(y, 2)" := by
    unfold Lexer.Plain
    decide +kernel
  have hplain' : Lexer.Plain "(x // on two lines\n - -1.5)*f(y,2.0)" := by
    unfold Lexer.Plain
    decide +kernel
  have hfacts : (Grammar.parseExpression
      (Lexer.tokens "(x - -1.50) * f(y, 2)") 0).result.map (fun e => (e.text, e.ids))
        = some ("(* (group (- x (- 1.5))) (call f y 2.0))", [0, 1, 2]) := by
    decide +kernel
  have hfacts' : (Grammar.parseExpression
      (Lexer.tokens "(x // on two lines\n - -1.5)*f(y,2.0)") 7).result.map
        (fun e => (e.text, e.ids))
        = some ("(* (group (- x (- 1.5))) (call f y 2.0))", [7, 8, 9]) := by
    decide +kernel
  obtain ⟨e, h, hpair⟩ := Option.map_eq_some_iff.mp hfacts
  obtain ⟨e', h', hpair'⟩ := Option.map_eq_some_iff.mp hfacts'
  obtain ⟨htext, hids⟩ := Prod.mk.inj hpair
  obtain ⟨htext', hids'⟩ := Prod.mk.inj hpair'
  have heq : e.text = e'.text := htext.trans htext'.symm
  exact ⟨hplain, hplain', e, e', h, h', htext, heq.symm, hids, hids',
    parsed_expressions_match_of_text hplain hplain' h h' heq⟩

end Lox
