import Lox.Proofs.Token.Scanning

/-!
# The spelling of tokens

In every source a symbol is spelled in its own way, and a name is never spelled like a reserved
word. No name is therefore `this` or `super`.
-/

namespace Lox

/-- The token is spelled as its kind demands. -/
def Token.Spelled (t : Token) : Prop :=
  match t.kind with
  | .symbol s => t.lexeme = String.ofList s.letters
  | .identifier => Symbol.ofWord? t.lexeme.toList = none
  | _ => True

/-- The text of a piece of a source is spelled as the kind of its token demands. -/
def Lexer.Piece.Spelled : Lexer.Piece → Prop
  | .token kind text => ∀ line, (Token.mk kind (String.ofList text) line).Spelled
  | _ => True

namespace Lexer

theorem spelled_readName (c : Char) (cs : List Char) : (readName c cs).1.Spelled := by
  unfold readName
  generalize c :: cs.takeWhile isNamePart = name
  dsimp only
  intro line
  unfold Token.Spelled nameKind
  cases hword : Symbol.ofWord? name with
  | none => simpa using hword
  | some s =>
      have hs := List.find?_some hword
      exact congrArg String.ofList (beq_iff_eq.mp hs).symm

theorem spelled_readPiece (c : Char) (cs : List Char) : (readPiece c cs).1.Spelled := by
  unfold readPiece
  split
  · trivial
  split
  · unfold readString
    dsimp only
    split
    · trivial
    · exact fun line => trivial
  split
  · unfold readNumber
    dsimp only
    split
    · split <;> exact fun line => trivial
    · exact fun line => trivial
  split
  · exact spelled_readName c cs
  split
  · trivial
  · unfold readMark
    split
    · exact fun line => rfl
    · trivial

theorem spelled_of_mem_pieces {p : Piece} {source : List Char} (h : p ∈ pieces source) :
    p.Spelled := by
  fun_induction pieces source with
  | case1 => simp at h
  | case2 c cs ih =>
      rcases List.mem_cons.mp h with rfl | h
      · exact spelled_readPiece c cs
      · exact ih h

theorem spelled_of_token_mem_itemsFrom {t : Token} {ps : List Piece} {line : Nat}
    (hps : ∀ p ∈ ps, p.Spelled) (h : .token t ∈ itemsFrom line ps) : t.Spelled := by
  induction ps generalizing line with
  | nil =>
      simp only [itemsFrom, List.mem_singleton, Item.token.injEq] at h
      subst h
      trivial
  | cons p ps ih =>
      have hp := hps p List.mem_cons_self
      have hrest : ∀ q ∈ ps, q.Spelled := fun q hq => hps q (List.mem_cons_of_mem p hq)
      unfold itemsFrom at h
      cases p with
      | token kind text =>
          simp only [Piece.item?, List.mem_cons, Item.token.injEq] at h
          rcases h with rfl | h
          · exact hp _
          · exact ih hrest h
      | blank c => exact ih hrest h
      | comment text => exact ih hrest h
      | unexpected c =>
          simp only [Piece.item?, List.mem_cons, reduceCtorEq, false_or] at h
          exact ih hrest h
      | unterminated text =>
          simp only [Piece.item?, List.mem_cons, reduceCtorEq, false_or] at h
          exact ih hrest h

/-- The tokens of a source are spelled as their kinds demand. -/
theorem spelled_of_mem_tokens {t : Token} {source : String} (h : t ∈ tokens source) :
    t.Spelled := by
  rw [tokens, items_eq_itemsFrom] at h
  obtain ⟨item, hitem, ht⟩ := List.mem_filterMap.mp h
  cases item with
  | token u =>
      obtain rfl : u = t := by simpa [Item.token?] using ht
      exact spelled_of_token_mem_itemsFrom (fun p hp => spelled_of_mem_pieces hp) hitem
  | error e => simp [Item.token?] at ht

end Lexer

/-- The names that are bound without a declaration. -/
def Implicit (name : String) : Prop :=
  name = "this" ∨ name = "super"

theorem Token.Spelled.not_implicit {t : Token} (h : t.Spelled) (ht : t.terminal = .identifier) :
    ¬ Implicit t.lexeme := by
  have hword : Symbol.ofWord? t.lexeme.toList = none := by
    unfold Token.terminal Token.Kind.terminal at ht
    unfold Token.Spelled at h
    split at ht <;> simp_all
  rintro (hname | hname)
  · rw [hname] at hword
    revert hword
    decide
  · rw [hname] at hword
    revert hword
    decide

theorem Token.Spelled.lexeme_eq {t : Token} {s : Symbol} (h : t.Spelled)
    (ht : t.terminal = .symbol s) : t.lexeme = String.ofList s.letters := by
  unfold Token.terminal Token.Kind.terminal at ht
  unfold Token.Spelled at h
  split at ht <;> simp_all

theorem Token.Spelled.lexeme_this {t : Token} (h : t.Spelled)
    (ht : t.terminal = .symbol .thisWord) :
    t.lexeme = "this" :=
  (h.lexeme_eq ht).trans (by decide)

theorem Token.Spelled.lexeme_super {t : Token} (h : t.Spelled)
    (ht : t.terminal = .symbol .superWord) : t.lexeme = "super" :=
  (h.lexeme_eq ht).trans (by decide)

end Lox
