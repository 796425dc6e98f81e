import Mathlib.Tactic.Common
import Lox.Grammar.Statement

/-!
# The grammar

The productions of the grammar in extended Backus-Naur form, and the words of terminals that are
derived from them. Parameters and arguments are limited in number; the other repetitions are not.
-/

namespace Lox.Grammar

/-- The names that productions are given for. -/
inductive Name
  | program | declaration | classDecl | funDecl | function | parameters | varDecl
  | statement | exprStmt | forStmt | ifStmt | printStmt | returnStmt | whileStmt | block
  | expression | assignment | ternary | logicOr | logicAnd | equality | comparison | term | factor
  | unary | call | arguments | primary
  deriving DecidableEq, Repr

/-- What stands on the right of a production. -/
inductive Ebnf
  | terminal (t : Terminal)
  | name (x : Name)
  | seq (parts : List Ebnf)
  | alt (choices : List Ebnf)
  | opt (a : Ebnf)
  | star (a : Ebnf)
  /-- At most this number of times. -/
  | upTo (n : Nat) (a : Ebnf)

open Ebnf (name seq alt opt star upTo)

abbrev symbol (s : Symbol) : Ebnf := .terminal (.symbol s)

abbrev ident : Ebnf := .terminal .identifier

/-- One of several symbols in a production. -/
def anyOf (symbols : List Symbol) : Ebnf :=
  .alt (symbols.map symbol)

def production : Name → Ebnf
  | .program => seq [star (name .declaration), .terminal .endOfInput]
  | .declaration => alt [name .classDecl, name .funDecl, name .varDecl, name .statement]
  | .classDecl =>
      seq [symbol .classWord, ident, opt (seq [symbol .less, ident]), symbol .leftBrace,
        star (name .function), symbol .rightBrace]
  | .funDecl => seq [symbol .funWord, name .function]
  | .function =>
      seq [ident, symbol .leftParen, opt (name .parameters), symbol .rightParen, name .block]
  | .parameters => seq [ident, upTo (maxArity - 1) (seq [symbol .comma, ident])]
  | .varDecl =>
      seq [symbol .varWord, ident, opt (seq [symbol .equal, name .expression]), symbol .semicolon]
  | .statement =>
      alt [name .exprStmt, name .forStmt, name .ifStmt, name .printStmt, name .returnStmt,
        name .whileStmt, name .block]
  | .exprStmt => seq [name .expression, symbol .semicolon]
  | .forStmt =>
      seq [symbol .forWord, symbol .leftParen,
        alt [name .varDecl, name .exprStmt, symbol .semicolon],
        opt (name .expression), symbol .semicolon, opt (name .expression), symbol .rightParen,
        name .statement]
  | .ifStmt =>
      seq [symbol .ifWord, symbol .leftParen, name .expression, symbol .rightParen,
        name .statement, opt (seq [symbol .elseWord, name .statement])]
  | .printStmt => seq [symbol .printWord, name .expression, symbol .semicolon]
  | .returnStmt => seq [symbol .returnWord, opt (name .expression), symbol .semicolon]
  | .whileStmt =>
      seq [symbol .whileWord, symbol .leftParen, name .expression, symbol .rightParen,
        name .statement]
  | .block => seq [symbol .leftBrace, star (name .declaration), symbol .rightBrace]
  | .expression => name .assignment
  | .assignment =>
      alt [seq [opt (seq [name .call, symbol .dot]), ident, symbol .equal, name .assignment],
        name .ternary]
  | .ternary =>
      seq [name .logicOr,
        opt (seq [symbol .question, name .ternary, symbol .colon, name .ternary])]
  | .logicOr => seq [name .logicAnd, star (seq [symbol .orWord, name .logicAnd])]
  | .logicAnd => seq [name .equality, star (seq [symbol .andWord, name .equality])]
  | .equality =>
      seq [name .comparison,
        star (seq [anyOf [.bangEqual, .equalEqual], name .comparison])]
  | .comparison =>
      seq [name .term,
        star (seq [anyOf [.greater, .greaterEqual, .less, .lessEqual],
          name .term])]
  | .term => seq [name .factor, star (seq [anyOf [.minus, .plus], name .factor])]
  | .factor => seq [name .unary, star (seq [anyOf [.slash, .star], name .unary])]
  | .unary => alt [seq [anyOf [.bang, .minus], name .unary], name .call]
  | .call =>
      seq [name .primary,
        star (alt [seq [symbol .leftParen, opt (name .arguments), symbol .rightParen],
          seq [symbol .dot, ident]])]
  | .arguments =>
      seq [name .expression, upTo (maxArity - 1) (seq [symbol .comma, name .expression])]
  | .primary =>
      alt [.terminal .number, .terminal .string, symbol .trueWord, symbol .falseWord,
        symbol .nilWord, symbol .thisWord, ident,
        seq [symbol .leftParen, name .expression, symbol .rightParen],
        seq [symbol .superWord, symbol .dot, ident]]

mutual

/-- The word is derived from the right of a production. -/
inductive Derives : Ebnf → List Terminal → Prop
  | terminal (t : Terminal) : Derives (.terminal t) [t]
  | name {x : Name} {w : List Terminal} (h : Derives (production x) w) : Derives (.name x) w
  | seq {parts : List Ebnf} {w : List Terminal} (h : DerivesSeq parts w) : Derives (.seq parts) w
  | alt {choices : List Ebnf} {a : Ebnf} {w : List Terminal} (ha : a ∈ choices) (h : Derives a w) :
      Derives (.alt choices) w
  | optNone (a : Ebnf) : Derives (.opt a) []
  | optSome {a : Ebnf} {w : List Terminal} (h : Derives a w) : Derives (.opt a) w
  | star {a : Ebnf} {ws : List (List Terminal)} (h : ∀ w ∈ ws, Derives a w) :
      Derives (.star a) ws.flatten
  | upTo {n : Nat} {a : Ebnf} {ws : List (List Terminal)} (hlen : ws.length ≤ n)
      (h : ∀ w ∈ ws, Derives a w) : Derives (.upTo n a) ws.flatten

inductive DerivesSeq : List Ebnf → List Terminal → Prop
  | nil : DerivesSeq [] []
  | cons {a : Ebnf} {parts : List Ebnf} {u v : List Terminal} (ha : Derives a u)
      (h : DerivesSeq parts v) : DerivesSeq (a :: parts) (u ++ v)

end

/-! ## Derivations -/

variable {a : Ebnf} {parts choices : List Ebnf} {x : Name} {t : Terminal} {w : List Terminal}

@[simp] theorem derives_terminal_iff : Derives (.terminal t) w ↔ w = [t] := by
  constructor
  · rintro ⟨⟩
    rfl
  · rintro rfl
    exact .terminal t

theorem derives_name_iff : Derives (name x) w ↔ Derives (production x) w := by
  constructor
  · rintro ⟨⟩
    assumption
  · exact .name

@[simp] theorem derivesSeq_nil_iff : DerivesSeq [] w ↔ w = [] := by
  constructor
  · rintro ⟨⟩
    rfl
  · rintro rfl
    exact .nil

@[simp] theorem derivesSeq_cons_iff :
    DerivesSeq (a :: parts) w ↔ ∃ u v, w = u ++ v ∧ Derives a u ∧ DerivesSeq parts v := by
  constructor
  · intro h
    cases h with
    | cons ha h => exact ⟨_, _, rfl, ha, h⟩
  · rintro ⟨u, v, rfl, ha, h⟩
    exact .cons ha h

@[simp] theorem derives_seq_iff : Derives (seq parts) w ↔ DerivesSeq parts w := by
  constructor
  · rintro ⟨⟩
    assumption
  · exact .seq

@[simp] theorem derives_alt_iff : Derives (alt choices) w ↔ ∃ a ∈ choices, Derives a w := by
  constructor
  · intro h
    cases h with
    | alt ha h => exact ⟨_, ha, h⟩
  · rintro ⟨a, ha, h⟩
    exact .alt ha h

@[simp] theorem derives_opt_iff : Derives (opt a) w ↔ w = [] ∨ Derives a w := by
  constructor
  · intro h
    cases h with
    | optNone => exact .inl rfl
    | optSome h => exact .inr h
  · rintro (rfl | h)
    · exact .optNone a
    · exact .optSome h

/-- A choice of symbols in front of other parts. -/
@[simp high] theorem derivesSeq_anyOf_iff {symbols : List Symbol} :
    DerivesSeq (anyOf symbols :: parts) w
    ↔ ∃ s v, w = .symbol s :: v ∧ s ∈ symbols ∧ DerivesSeq parts v := by
  rw [derivesSeq_cons_iff, anyOf]
  simp only [derives_alt_iff, List.mem_map, exists_exists_and_eq_and, derives_terminal_iff]
  constructor
  · rintro ⟨u, v, rfl, ⟨s, hs, rfl⟩, hv⟩
    exact ⟨s, v, rfl, hs, hv⟩
  · rintro ⟨s, v, rfl, hs, hv⟩
    exact ⟨[.symbol s], v, rfl, ⟨s, hs, rfl⟩, hv⟩

@[simp] theorem derives_star_iff :
    Derives (star a) w ↔ ∃ ws : List (List Terminal), w = ws.flatten ∧ ∀ v ∈ ws, Derives a v := by
  constructor
  · intro h
    cases h with
    | star h => exact ⟨_, rfl, h⟩
  · rintro ⟨ws, rfl, h⟩
    exact .star h

@[simp] theorem derives_upTo_iff {n : Nat} : Derives (upTo n a) w
    ↔ ∃ ws : List (List Terminal), w = ws.flatten ∧ ws.length ≤ n ∧ ∀ v ∈ ws, Derives a v := by
  constructor
  · intro h
    cases h with
    | upTo hlen h => exact ⟨_, rfl, hlen, h⟩
  · rintro ⟨ws, rfl, hlen, h⟩
    exact .upTo hlen h

/-! ## Productions -/

variable {s : Symbol}

/-- The words of a list: the first item, and further ones that each follow a comma. -/
def Listed (item : List Terminal → Prop) (w : List Terminal) : Prop :=
  ∃ (u : List Terminal) (ws : List (List Terminal)), w = u ++ ws.flatten ∧ item u
    ∧ ws.length ≤ maxArity - 1 ∧ ∀ v ∈ ws, ∃ v', v = .symbol .comma :: v' ∧ item v'

theorem derives_parameters_iff :
    Derives (name .parameters) w ↔ Listed (· = [.identifier]) w := by
  rw [derives_name_iff, production, Listed]
  simp

theorem derives_arguments_iff :
    Derives (name .arguments) w ↔ Listed (Derives (name .expression)) w := by
  rw [derives_name_iff, production, Listed]
  simp

theorem derives_primary_iff : Derives (name .primary) w
    ↔ w = [.number] ∨ w = [.string] ∨ w = [.symbol .trueWord] ∨ w = [.symbol .falseWord]
      ∨ w = [.symbol .nilWord] ∨ w = [.symbol .thisWord] ∨ w = [.identifier]
      ∨ (∃ u, w = .symbol .leftParen :: (u ++ [.symbol .rightParen])
        ∧ Derives (name .expression) u)
      ∨ w = [.symbol .superWord, .symbol .dot, .identifier] := by
  rw [derives_name_iff, production]
  simp

/-- The words of a suffix: arguments in parentheses, or the name of a property. -/
def IsSuffix (w : List Terminal) : Prop :=
  (∃ u, w = .symbol .leftParen :: (u ++ [.symbol .rightParen])
      ∧ (u = [] ∨ Derives (name .arguments) u))
    ∨ w = [.symbol .dot, .identifier]

theorem derives_call_iff : Derives (name .call) w
    ↔ ∃ (u : List Terminal) (ws : List (List Terminal)), w = u ++ ws.flatten
      ∧ Derives (name .primary) u ∧ ∀ v ∈ ws, IsSuffix v := by
  rw [derives_name_iff, production]
  simp [IsSuffix]

theorem derives_unary_iff : Derives (name .unary) w
    ↔ (∃ s u, w = .symbol s :: u ∧ s ∈ [.bang, .minus] ∧ Derives (name .unary) u)
      ∨ Derives (name .call) w := by
  rw [derives_name_iff, production]
  simp

/-- The words of a name are operands joined by operators. -/
def Joins (x : Name) (operators : List Symbol) (operand : Name) : Prop :=
  ∀ w, Derives (name x) w ↔ ∃ (u : List Terminal) (ws : List (List Terminal)),
    w = u ++ ws.flatten ∧ Derives (name operand) u
      ∧ ∀ v ∈ ws, ∃ s v', v = .symbol s :: v' ∧ s ∈ operators ∧ Derives (name operand) v'

theorem joins_logicOr : Joins .logicOr [.orWord] .logicAnd := by
  intro w
  rw [derives_name_iff, production]
  simp

theorem joins_logicAnd : Joins .logicAnd [.andWord] .equality := by
  intro w
  rw [derives_name_iff, production]
  simp

theorem joins_equality : Joins .equality [.bangEqual, .equalEqual] .comparison := by
  intro w
  rw [derives_name_iff, production]
  simp

theorem joins_comparison :
    Joins .comparison [.greater, .greaterEqual, .less, .lessEqual] .term := by
  intro w
  rw [derives_name_iff, production]
  simp

theorem joins_term : Joins .term [.minus, .plus] .factor := by
  intro w
  rw [derives_name_iff, production]
  simp

theorem joins_factor : Joins .factor [.slash, .star] .unary := by
  intro w
  rw [derives_name_iff, production]
  simp

theorem derives_ternary_iff : Derives (name .ternary) w
    ↔ ∃ u v, w = u ++ v ∧ Derives (name .logicOr) u ∧ (v = [] ∨ ∃ v₁ v₂,
      v = .symbol .question :: (v₁ ++ .symbol .colon :: v₂) ∧ Derives (name .ternary) v₁
        ∧ Derives (name .ternary) v₂) := by
  rw [derives_name_iff, production]
  simp

/-- The words that can be assigned to: a variable, or a property of the value of a call. -/
def IsTarget (w : List Terminal) : Prop :=
  w = [.identifier] ∨ ∃ u, w = u ++ [.symbol .dot, .identifier] ∧ Derives (name .call) u

theorem derives_expression_iff_assignment :
    Derives (name .expression) w ↔ Derives (name .assignment) w := by
  rw [derives_name_iff, production]

theorem derives_expression_iff : Derives (name .expression) w
    ↔ (∃ u v, w = u ++ .symbol .equal :: v ∧ IsTarget u ∧ Derives (name .expression) v)
      ∨ Derives (name .ternary) w := by
  have h : Derives (name .assignment) w
      ↔ (∃ u v, w = u ++ .identifier :: .symbol .equal :: v
          ∧ (u = [] ∨ ∃ u', u = u' ++ [.symbol .dot] ∧ Derives (name .call) u')
          ∧ Derives (name .assignment) v)
        ∨ Derives (name .ternary) w := by
    rw [derives_name_iff, production]
    simp
  simp only [derives_expression_iff_assignment]
  rw [h]
  constructor
  · rintro (⟨u, v, rfl, rfl | ⟨u', rfl, hu'⟩, hv⟩ | hw)
    · exact .inl ⟨[.identifier], v, rfl, .inl rfl, hv⟩
    · exact .inl ⟨u' ++ [.symbol .dot, .identifier], v, by simp, .inr ⟨u', rfl, hu'⟩, hv⟩
    · exact .inr hw
  · rintro (⟨u, v, rfl, rfl | ⟨u', rfl, hu'⟩, hv⟩ | hw)
    · exact .inl ⟨[], v, rfl, .inl rfl, hv⟩
    · exact .inl ⟨u' ++ [.symbol .dot], v, by simp, .inr ⟨u', rfl, hu'⟩, hv⟩
    · exact .inr hw

theorem derives_block_iff : Derives (name .block) w
    ↔ ∃ ws : List (List Terminal), w = .symbol .leftBrace :: (ws.flatten ++ [.symbol .rightBrace])
      ∧ ∀ v ∈ ws, Derives (name .declaration) v := by
  rw [derives_name_iff, production]
  simp

theorem derives_function_iff : Derives (name .function) w
    ↔ ∃ u v, w = .identifier :: .symbol .leftParen :: (u ++ .symbol .rightParen :: v)
      ∧ (u = [] ∨ Derives (name .parameters) u) ∧ Derives (name .block) v := by
  rw [derives_name_iff, production]
  simp

theorem derives_classDecl_iff : Derives (name .classDecl) w
    ↔ ∃ (u : List Terminal) (ws : List (List Terminal)), w = .symbol .classWord :: .identifier
        :: (u ++ .symbol .leftBrace :: (ws.flatten ++ [.symbol .rightBrace]))
      ∧ (u = [] ∨ u = [.symbol .less, .identifier]) ∧ ∀ v ∈ ws, Derives (name .function) v := by
  rw [derives_name_iff, production]
  simp

theorem derives_varDecl_iff : Derives (name .varDecl) w
    ↔ ∃ u, w = .symbol .varWord :: .identifier :: (u ++ [.symbol .semicolon])
      ∧ (u = [] ∨ ∃ v, u = .symbol .equal :: v ∧ Derives (name .expression) v) := by
  rw [derives_name_iff, production]
  simp

theorem derives_funDecl_iff : Derives (name .funDecl) w
    ↔ ∃ u, w = .symbol .funWord :: u ∧ Derives (name .function) u := by
  rw [derives_name_iff, production]
  simp

theorem derives_exprStmt_iff : Derives (name .exprStmt) w
    ↔ ∃ u, w = u ++ [.symbol .semicolon] ∧ Derives (name .expression) u := by
  rw [derives_name_iff, production]
  simp

theorem derives_printStmt_iff : Derives (name .printStmt) w
    ↔ ∃ u, w = .symbol .printWord :: (u ++ [.symbol .semicolon])
      ∧ Derives (name .expression) u := by
  rw [derives_name_iff, production]
  simp

theorem derives_returnStmt_iff : Derives (name .returnStmt) w
    ↔ ∃ u, w = .symbol .returnWord :: (u ++ [.symbol .semicolon])
      ∧ (u = [] ∨ Derives (name .expression) u) := by
  rw [derives_name_iff, production]
  simp

theorem derives_ifStmt_iff : Derives (name .ifStmt) w
    ↔ ∃ e u v, w = .symbol .ifWord :: .symbol .leftParen
        :: (e ++ .symbol .rightParen :: (u ++ v))
      ∧ Derives (name .expression) e ∧ Derives (name .statement) u
      ∧ (v = [] ∨ ∃ v', v = .symbol .elseWord :: v' ∧ Derives (name .statement) v') := by
  rw [derives_name_iff, production]
  simp

theorem derives_whileStmt_iff : Derives (name .whileStmt) w
    ↔ ∃ e u, w = .symbol .whileWord :: .symbol .leftParen :: (e ++ .symbol .rightParen :: u)
      ∧ Derives (name .expression) e ∧ Derives (name .statement) u := by
  rw [derives_name_iff, production]
  simp

theorem derives_forStmt_iff : Derives (name .forStmt) w
    ↔ ∃ i c e u, w = .symbol .forWord :: .symbol .leftParen
        :: (i ++ (c ++ .symbol .semicolon :: (e ++ .symbol .rightParen :: u)))
      ∧ (Derives (name .varDecl) i ∨ Derives (name .exprStmt) i ∨ i = [.symbol .semicolon])
      ∧ (c = [] ∨ Derives (name .expression) c) ∧ (e = [] ∨ Derives (name .expression) e)
      ∧ Derives (name .statement) u := by
  rw [derives_name_iff, production]
  simp

theorem derives_statement_iff : Derives (name .statement) w
    ↔ Derives (name .exprStmt) w ∨ Derives (name .forStmt) w ∨ Derives (name .ifStmt) w
      ∨ Derives (name .printStmt) w ∨ Derives (name .returnStmt) w
      ∨ Derives (name .whileStmt) w ∨ Derives (name .block) w := by
  rw [derives_name_iff, production]
  simp

theorem derives_declaration_iff : Derives (name .declaration) w
    ↔ Derives (name .classDecl) w ∨ Derives (name .funDecl) w ∨ Derives (name .varDecl) w
      ∨ Derives (name .statement) w := by
  rw [derives_name_iff, production]
  simp

theorem derives_program_iff : Derives (name .program) w
    ↔ ∃ ws : List (List Terminal), w = ws.flatten ++ [.endOfInput]
      ∧ ∀ v ∈ ws, Derives (name .declaration) v := by
  rw [derives_name_iff, production]
  simp

end Lox.Grammar
