import Lox.Proofs.Grammar.Words
import Lox.Proofs.Prediction.Relaxed

/-!
# Choices by the next terminal

The terminals that the words of a production can begin with, and those that can continue a complete
word. In the relaxed grammar the next terminal decides each choice and each repetition, except that an
else after a statement may belong to one of several if statements.
-/

namespace Lox.Grammar

open Ebnf (name seq alt opt star upTo)

/-- The terminals that a primary expression begins with. -/
def primaryFirsts : List Terminal :=
  [.number, .string, .identifier, .symbol .trueWord, .symbol .falseWord, .symbol .nilWord,
    .symbol .thisWord, .symbol .leftParen, .symbol .superWord]

def expressionFirsts : List Terminal :=
  [.symbol .bang, .symbol .minus] ++ primaryFirsts

def statementFirsts : List Terminal :=
  [.symbol .forWord, .symbol .ifWord, .symbol .printWord, .symbol .returnWord, .symbol .whileWord,
    .symbol .leftBrace] ++ expressionFirsts

def declarationFirsts : List Terminal :=
  [.symbol .classWord, .symbol .funWord, .symbol .varWord] ++ statementFirsts

/-- The terminals that the words of a name begin with. -/
def Name.firsts : Name → List Terminal
  | .program => .endOfInput :: declarationFirsts
  | .declaration => declarationFirsts
  | .classDecl => [.symbol .classWord]
  | .funDecl => [.symbol .funWord]
  | .function | .parameters => [.identifier]
  | .varDecl => [.symbol .varWord]
  | .statement => statementFirsts
  | .forStmt => [.symbol .forWord]
  | .ifStmt => [.symbol .ifWord]
  | .printStmt => [.symbol .printWord]
  | .returnStmt => [.symbol .returnWord]
  | .whileStmt => [.symbol .whileWord]
  | .block => [.symbol .leftBrace]
  | .call | .primary => primaryFirsts
  | .exprStmt | .expression | .assignment | .ternary | .logicOr | .logicAnd | .equality
  | .comparison | .term | .factor | .unary | .arguments => expressionFirsts

mutual

/-- The empty word may stand in this place. No choice between several is empty. -/
def Ebnf.nullable : Ebnf → Bool
  | .terminal _ | .name _ | .alt _ => false
  | .seq parts => nullableSeq parts
  | .opt _ | .star _ | .upTo _ _ => true

def Ebnf.nullableSeq : List Ebnf → Bool
  | [] => true
  | a :: parts => a.nullable && nullableSeq parts

end

mutual

/-- The terminals that a word begins with. -/
def Ebnf.firsts : Ebnf → List Terminal
  | .terminal t => [t]
  | .name x => x.firsts
  | .seq parts => firstsSeq parts
  | .alt choices => firstsAlt choices
  | .opt a | .star a | .upTo _ a => a.firsts

def Ebnf.firstsSeq : List Ebnf → List Terminal
  | [] => []
  | a :: parts => a.firsts ++ if a.nullable then firstsSeq parts else []

def Ebnf.firstsAlt : List Ebnf → List Terminal
  | [] => []
  | a :: choices => a.firsts ++ firstsAlt choices

end

/-- A word can begin with this terminal, if it is one. -/
def Ebnf.predicts (a : Ebnf) (t? : Option Terminal) : Bool :=
  t?.any fun t => decide (t ∈ a.firsts)

/-- The symbols that continue a complete word of a name. -/
def Name.continuing : Name → List Symbol
  | .declaration | .statement | .forStmt | .ifStmt | .whileStmt => [.elseWord]
  | .parameters => [.comma]
  | .arguments => [.comma, .equal, .question] ++ Grammar.continuing levels
  | .expression | .assignment => [.equal, .question] ++ Grammar.continuing levels
  | .ternary => .question :: Grammar.continuing levels
  | .logicOr => Grammar.continuing levels
  | .logicAnd => Grammar.continuing (levels.drop 1)
  | .equality => Grammar.continuing (levels.drop 2)
  | .comparison => Grammar.continuing (levels.drop 3)
  | .term => Grammar.continuing (levels.drop 4)
  | .factor => Grammar.continuing (levels.drop 5)
  | .unary | .call => suffixSymbols
  | .program | .classDecl | .funDecl | .function | .varDecl | .exprStmt | .printStmt | .returnStmt
  | .block | .primary => []

mutual

/-- The terminals that continue a complete word. -/
def Ebnf.continuing : Ebnf → List Terminal
  | .terminal _ => []
  | .name x => x.continuing.map .symbol
  | .seq parts => continuingSeq parts
  | .alt choices => continuingAlt choices
  | .opt a | .star a | .upTo _ a => a.firsts ++ a.continuing

def Ebnf.continuingSeq : List Ebnf → List Terminal
  | [] => []
  | a :: parts => continuingSeq parts ++ if nullableSeq parts then a.continuing else []

def Ebnf.continuingAlt : List Ebnf → List Terminal
  | [] => []
  | a :: choices => a.continuing ++ continuingAlt choices

end

/-- The last part of an if statement. -/
def elsePart : Ebnf :=
  opt (seq [symbol .elseWord, name .statement])

/-- The terminal is in at most one of the lists. -/
def Apart (ts us : List Terminal) : Prop :=
  ∀ t ∈ ts, t ∉ us

/-- The next terminal decides each choice and whether to go on. Only an else may both continue a
statement and stand behind it. -/
inductive Decided : Ebnf → Prop
  | terminal (t : Terminal) : Decided (.terminal t)
  | name (x : Name) : Decided (.name x)
  | seqNil : Decided (.seq [])
  | seqLast {a : Ebnf} (ha : Decided a) : Decided (.seq [a])
  | seqElse {a : Ebnf} (ha : Decided a) : Decided (.seq [a, elsePart])
  | seqCons {a : Ebnf} {parts : List Ebnf} (ha : Decided a)
      (hcontinuing : Apart a.continuing (Ebnf.seq parts).firsts)
      (helse : (Ebnf.seq parts).nullable = true → .symbol .elseWord ∉ a.continuing)
      (h : Decided (.seq parts)) : Decided (.seq (a :: parts))
  | altLast {a : Ebnf} (ha : Decided a) (hne : a.nullable = false) : Decided (.alt [a])
  | altCons {a : Ebnf} {choices : List Ebnf} (ha : Decided a) (hne : a.nullable = false)
      (hfirsts : Apart a.firsts (Ebnf.alt choices).firsts) (h : Decided (.alt choices)) :
      Decided (.alt (a :: choices))
  | elsePart : Decided elsePart
  | opt {a : Ebnf} (ha : Decided a) (hne : a.nullable = false)
      (helse : .symbol .elseWord ∉ a.firsts) : Decided (.opt a)
  | star {a : Ebnf} (ha : Decided a) (hne : a.nullable = false)
      (helse : .symbol .elseWord ∉ a.firsts) (hcontinuing : Apart a.continuing a.firsts) :
      Decided (.star a)

instance (ts us : List Terminal) : Decidable (Apart ts us) :=
  inferInstanceAs (Decidable (∀ t ∈ ts, t ∉ us))

theorem decided_relaxed (x : Name) : Decided (relaxed x) := by
  cases x
  -- The shape of each production picks the constructors, and their side conditions are on finite lists.
  all_goals
    unfold relaxed
    try unfold production
    try unfold anyOf
    repeat' first | constructor | decide

theorem nullable_relaxed (x : Name) : (relaxed x).nullable = false := by
  cases x <;> decide

theorem firsts_relaxed_subset (x : Name) : (relaxed x).firsts ⊆ x.firsts := by
  cases x <;> decide

theorem continuing_relaxed_subset (x : Name) :
    (relaxed x).continuing ⊆ x.continuing.map .symbol := by
  cases x <;> decide

end Lox.Grammar
