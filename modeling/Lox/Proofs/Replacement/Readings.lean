import Lox.Proofs.Grammar.Complete.Statements
import Lox.Proofs.Replacement.Statements
import Lox.Proofs.Unparse.Statements

/-!
# What tokens stand for

The tokens of an expression or a statement are read as the same tree wherever they stand, as long as
what follows does not belong to it as well. So the tree of a statement is known from the trees of its
parts.
-/

namespace Lox.Grammar

open Ebnf (name)

variable {α γ : Type} {ts us rest : List Token} {n : Nat}

abbrev terminals (ts : List Token) : List Terminal :=
  ts.map Token.terminal

/-- On some input the rule makes this of the tokens in front of the rest. -/
def Makes (r : Rule α) (ts rest : List Token) (a : α) : Prop :=
  ∃ c d : Cursor, c.rest = ts ++ rest ∧ r c = .ok a d ∧ d.rest.length = rest.length
    ∧ d.errors = c.errors

theorem Takes.exists_makes {r : Rule α} {P : α → Prop}
    (h : Takes r (terminals ts) (terminals rest) P) : ∃ a, Makes r ts rest a := by
  obtain ⟨a, d, hrun, hinput, herrors, -⟩ := h ⟨ts ++ rest, 0, 0, []⟩ (by simp [Cursor.input])
  exact ⟨a, _, d, rfl, hrun, by rw [Cursor.length_rest hinput, List.length_map], herrors⟩

/-- What a rule makes of tokens in front of one rest it makes of them in front of the other. -/
theorem Makes.consumes {S : Seam} {m : Nat} {T : α → Prop} {f : α → γ} {r r' : Rule α} {a : α}
    (h : Makes r ts S.first a) (hr : Tracks S m T f r r') (hfloor : S.floor = S.first.length)
    (hm : (ts ++ S.second).length ≤ m) : Consumes r' ts S.second fun b => f b = f a := by
  obtain ⟨c, d, hc, hrun, hlen, herrors⟩ := h
  intro c' hc'
  obtain ⟨b, d', hrun', hsame, hmeets, hb⟩ := hr.found c a d hrun (congrArg List.length herrors)
    (hfloor.trans hlen.symm).le c' (.inl ⟨ts, hc, hc'⟩) (by rwa [hc'])
  refine ⟨b, d', hrun', ?_, hsame, hb⟩
  obtain ⟨u, hu, hd'⟩ | ⟨-, hlt, -⟩ := hmeets
  · have hnil : u = [] := by
      rw [hu, List.length_append] at hlen
      exact List.length_eq_zero_iff.mp (by omega)
    rw [hd', hnil, List.nil_append]
  · exact absurd hlen hlt.ne

/-- A seam at which no rule looks farther. -/
def Seam.closed (first second : List Token) : Seam :=
  ⟨first, second, first.length⟩

theorem Seam.fair_closed (first second : List Token) : (Seam.closed first second).Fair where
  first hlt := absurd hlt (Nat.lt_irrefl _)
  second hlt := absurd hlt (Nat.lt_irrefl _)

theorem Seam.filled_closed (first second : List Token) : (Seam.closed first second).Filled :=
  fun hlt => absurd hlt (Nat.lt_irrefl _)

/-- The tokens are read as the expression in front of everything with which it does not go on. -/
def ReadAsExpr (ts : List Token) (e : Expr) : Prop :=
  ∀ rest, StopsAt sought rest → Consumes expression ts rest e.Alike

/-- The tokens are read as the statement in front of the rest. -/
def ReadAs (ts rest : List Token) (s : Stmt) : Prop :=
  ∀ n, (ts ++ rest).length ≤ n → Consumes (statementUpTo n) ts rest s.Alike

/-- The tokens are read as the declaration in front of the rest. -/
def DeclaredAs (ts rest : List Token) (s : Stmt) : Prop :=
  ∀ n, (ts ++ rest).length ≤ n →
    Consumes (declarationUpTo n) ts rest fun s? => ∃ s', s? = some s' ∧ s.Alike s'

theorem Makes.readAsExpr {e : Expr} (h : Makes expression ts [.mark .semicolon] e) :
    ReadAsExpr ts e := by
  intro rest hrest
  have hcalm : (Seam.closed [.mark .semicolon] rest).Calm := by
    refine ⟨Seam.fair_closed _ _, ?_, fun h => by cases h⟩
    rintro s hs - t k rfl ht
    exact absurd (congrArg some (beq_iff_eq.mp ht)) (hrest s hs)
  exact (h.consumes (tracks_expression hcalm _) rfl le_rfl).mono fun _ h => h.symm

theorem exists_readAsExpr (h : Derives (name .expression) (terminals ts)) :
    ∃ e, ReadAsExpr ts e := by
  have hsemicolon : Stops Nonterminal.expression.continuing (terminals [.mark .semicolon]) :=
    stops_symbol (by decide)
  obtain ⟨e, he⟩ := (takes_expression h hsemicolon).exists_makes
  exact ⟨e, he.readAsExpr⟩

theorem readAsExpr_true {t : Token} (ht : t.terminal = .symbol .trueWord) :
    ReadAsExpr [t] (.literal (.boolean true)) := by
  obtain ⟨kind, lexeme, line⟩ := t
  obtain rfl : kind = .symbol .trueWord := kind_of_symbol ht
  apply Makes.readAsExpr
  exact ⟨⟨[⟨.symbol .trueWord, lexeme, line⟩, .mark .semicolon], 0, 0, []⟩,
    ⟨[.mark .semicolon], 0, 0, []⟩, rfl, rfl, rfl, rfl⟩

theorem exists_readAs {d : Bool} (h : Nearest d (terminals ts)) :
    ∃ s, ∀ rest, (d = true → StopsAt [.elseWord] rest) → ReadAs ts rest s := by
  let first : List Token := if d then [] else [.mark .elseWord]
  have hfirst : d = true → Stops [.elseWord] (terminals first) := by
    rintro rfl
    exact fun _ _ h => by cases h
  obtain ⟨s, hs⟩ := ((takes_upTo (ts ++ first).length).1 d _ (terminals first) (by simp) h
    hfirst).exists_makes
  refine ⟨s, fun rest hrest n hn => ?_⟩
  have helse : (Seam.closed first rest).Quiet (· == .symbol .elseWord) := by
    rintro - t k rfl ht
    cases d with
    | true => exact absurd (congrArg some (beq_iff_eq.mp ht)) (hrest rfl _ List.mem_cons_self)
    | false => exact ⟨_, _, rfl, rfl⟩
  have htracks := tracks_statementUpTo_declarationUpTo (Seam.fair_closed first rest) helse
    (Seam.filled_closed first rest) (ts ++ first).length n
  exact (hs.consumes htracks.1 rfl hn).mono fun _ h => h.symm

theorem ReadAsExpr.semicolon {e : Expr} (h : ReadAsExpr ts e) {semicolon : Token}
    (hs : semicolon.terminal = .symbol .semicolon) (rest : List Token) :
    Consumes expressionRule (ts ++ [semicolon]) rest (Stmt.expression e).Alike := by
  unfold expressionRule
  refine (h _ (stopsAt_symbol hs (by decide))).bind fun e' he => ?_
  exact (consumes_expect _ hs).last fun _ _ => .pure (congrArg Stmt.expression he)

/-- An expression and its semicolon are a statement. -/
theorem ReadAsExpr.readAs {e : Expr} (h : ReadAsExpr ts e)
    (hbegins : BeginsWith beginsExpression ts) {semicolon : Token}
    (hs : semicolon.terminal = .symbol .semicolon) (rest : List Token) :
    ReadAs (ts ++ [semicolon]) rest (.expression e) := by
  intro n hn
  cases n with
  | zero => simp at hn
  | succ n =>
      rw [statementUpTo]
      unfold statementRule
      refine (hbegins.append [semicolon]).consumes_peek fun t ht => ?_
      split
      iterate 6
        · next hkind => cases terminal_of_kind ht hkind
      · exact h.semicolon hs rest

theorem ReadAs.declaredAs {s : Stmt} (h : ReadAs ts rest s) (hbegins : BeginsWith beginsStmt ts) :
    DeclaredAs ts rest s := by
  intro n hn
  cases n with
  | zero =>
      have hpos := List.length_pos_iff.mpr hbegins.ne_nil
      rw [List.length_append] at hn
      omega
  | succ n =>
      have hs := h (n + 1) hn
      rw [statementUpTo] at hs
      rw [declarationUpTo]
      apply consumes_recover
      unfold declarationRule
      refine hbegins.consumes_peek fun t ht => ?_
      split
      iterate 3
        · next hkind => cases terminal_of_kind ht hkind
      · exact hs

theorem readAs_loop {c : Expr} {body : Stmt} {word leftParen rightParen : Token}
    (hword : word.terminal = .symbol .whileWord) (hleft : leftParen.terminal = .symbol .leftParen)
    (hright : rightParen.terminal = .symbol .rightParen) (hc : ReadAsExpr ts c)
    (hbody : ReadAs us rest body) :
    ReadAs (word :: leftParen :: (ts ++ rightParen :: us)) rest (.loop c body) := by
  intro n hn
  cases n with
  | zero => simp at hn
  | succ n =>
      rw [statementUpTo]
      unfold statementRule
      apply consumes_peek_bind
      simp only [kind_of_symbol hword]
      apply consumes_take_bind
      unfold whileRule
      refine (consumes_expect _ hleft).cons fun _ _ => ?_
      refine (hc _ (stopsAt_symbol hright (by decide))).bind fun c' hc' => ?_
      refine (consumes_expect _ hright).cons fun _ _ => ?_
      refine (hbody n ?_).last fun body' hbody' => .pure ?_
      · simp only [List.length_append, List.length_cons] at hn ⊢
        omega
      · simp only [Expr.Alike, Stmt.Alike, Stmt.relabel] at hc' hbody' ⊢
        rw [hc', hbody']

/-- Declarations and what they are read as make a block. -/
theorem readAs_block {items : List (List Token × Stmt)} {opening closing : Token}
    (hopening : opening.terminal = .symbol .leftBrace)
    (hclosing : closing.terminal = .symbol .rightBrace)
    (hbegins : ∀ x ∈ items, BeginsWith beginsDeclaration x.1)
    (hitems : ∀ i x, items[i]? = some x →
      DeclaredAs x.1 ((items.drop (i + 1)).flatMap Prod.fst ++ closing :: rest) x.2) :
    ReadAs (opening :: (items.flatMap Prod.fst ++ [closing])) rest
      (.block (items.map Prod.snd)) := by
  intro n hn
  cases n with
  | zero => simp at hn
  | succ n =>
      rw [statementUpTo]
      unfold statementRule
      apply consumes_peek_bind
      simp only [kind_of_symbol hopening]
      apply consumes_take_bind
      have hbody : Consumes (block (declarationUpTo n)) (items.flatMap Prod.fst ++ [closing]) rest
          fun body => Stmt.listRelabel .anonymous (items.map Prod.snd)
            = Stmt.listRelabel .anonymous body := by
        unfold block declarations
        refine Consumes.bind (P := fun body => Stmt.listRelabel .anonymous (items.map Prod.snd)
          = Stmt.listRelabel .anonymous body) ?_ fun body hbody =>
            (consumes_expect _ hclosing).last fun _ _ => .pure hbody
        refine (consumes_collect_beforeBrace (p := beginsDeclaration)
          (Q := fun x s? => ∃ s', s? = some s' ∧ x.2.Alike s') hclosing (by decide) hbegins
          fun i x hx => hitems i x hx n ?_).last fun found hfound => .pure ?_
        · have hbound := length_drop_flatMap Prod.fst hx
          simp only [List.length_append, List.length_cons] at hbound hn ⊢
          omega
        · exact relabel_filterMap (List.forall₂_map_left_iff.mpr hfound)
      exact hbody.last fun body hbody => .pure (congrArg Stmt.block hbody)

end Lox.Grammar
