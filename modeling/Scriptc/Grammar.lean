import Scriptc.Token

/-!
# Scriptc: the grammar

The grammar of the script language as data. A rule stands for a `Pattern` over terminals and rules.
Alternatives are written in order of preference: where a text can be read in more than one way, the
reading that takes the earlier alternative at the first difference is the one that counts, and a
repetition goes on rather than stops.

`Rule` lists the rules so that whatever a rule can begin with stands before it; the table of
readings is filled in this order.
-/

namespace Scriptc

/-- The rules of the grammar, each behind all rules it can begin with. -/
inductive Rule where
  | baseType | type | typeAnnotation | initializer
  | arrayLiteral | literalExpr | primaryAtom | suffixOp | leftHandSide
  | primaryExpr | unaryExpr | multiplicativeExpr | additiveExpr | relationalExpr | equalityExpr
  | logicalAndExpr | logicalOrExpr | conditionalExpr | assignmentExpr | expression | arguments
  | variableDeclaration | constantDeclaration | assignment | expressionStatement
  | printStatement | block | ifStatement | whileStatement | doWhileStatement | forStatement
  | foreachStatement | breakStatement | continueStatement | returnStatement
  | tryCatchStatement | switchCase | defaultCase | switchStatement
  | parameter | parameters | functionDeclaration | classMember | classDeclaration
  | statement | program
  deriving DecidableEq, Repr, Inhabited

/-- The right-hand side of a rule. -/
inductive Pattern where
  | empty
  | tok (k : Terminal)
  | rule (r : Rule)
  | seq (p q : Pattern)
  | alt (p q : Pattern)
  | star (p : Pattern)
  deriving DecidableEq, Repr

namespace Pattern

/-- The pattern, or nothing. -/
def opt (p : Pattern) : Pattern := alt p empty

/-- All patterns, one after the other. -/
def all : List Pattern → Pattern
  | [] => empty
  | [p] => p
  | p :: ps => seq p (all ps)

/-- The first of the patterns that leads on. -/
def any : List Pattern → Pattern
  | [] => empty
  | [p] => p
  | p :: ps => alt p (any ps)

/-- Items with a separator between neighbours. -/
def sepBy (item separator : Pattern) : Pattern := seq item (star (seq separator item))

end Pattern

namespace Rule

/-- The name of a rule in reports. -/
def name : Rule → String
  | baseType => "baseType" | type => "type" | typeAnnotation => "typeAnnotation"
  | initializer => "initializer" | arrayLiteral => "arrayLiteral" | literalExpr => "literalExpr"
  | primaryAtom => "primaryAtom" | suffixOp => "suffixOp" | leftHandSide => "leftHandSide"
  | primaryExpr => "primaryExpr" | unaryExpr => "unaryExpr"
  | multiplicativeExpr => "multiplicativeExpr" | additiveExpr => "additiveExpr"
  | relationalExpr => "relationalExpr" | equalityExpr => "equalityExpr"
  | logicalAndExpr => "logicalAndExpr" | logicalOrExpr => "logicalOrExpr"
  | conditionalExpr => "conditionalExpr" | assignmentExpr => "assignmentExpr"
  | expression => "expression" | arguments => "arguments"
  | variableDeclaration => "variableDeclaration" | constantDeclaration => "constantDeclaration"
  | assignment => "assignment" | expressionStatement => "expressionStatement"
  | printStatement => "printStatement" | block => "block" | ifStatement => "ifStatement"
  | whileStatement => "whileStatement" | doWhileStatement => "doWhileStatement"
  | forStatement => "forStatement" | foreachStatement => "foreachStatement"
  | breakStatement => "breakStatement" | continueStatement => "continueStatement"
  | returnStatement => "returnStatement" | tryCatchStatement => "tryCatchStatement"
  | switchCase => "switchCase" | defaultCase => "defaultCase"
  | switchStatement => "switchStatement" | parameter => "parameter"
  | parameters => "parameters" | functionDeclaration => "functionDeclaration"
  | classMember => "classMember" | classDeclaration => "classDeclaration"
  | statement => "statement" | program => "program"

open Pattern Terminal in
/-- What a rule stands for. -/
def pattern : Rule → Pattern
  | program => seq (star (.rule statement)) (tok eof)
  | statement =>
    any [.rule variableDeclaration, .rule constantDeclaration, .rule assignment,
      .rule functionDeclaration, .rule classDeclaration, .rule expressionStatement,
      .rule printStatement, .rule block, .rule ifStatement, .rule whileStatement,
      .rule doWhileStatement, .rule forStatement, .rule foreachStatement,
      .rule tryCatchStatement, .rule switchStatement, .rule breakStatement,
      .rule continueStatement, .rule returnStatement]
  | block => all [tok lbrace, star (.rule statement), tok rbrace]
  | variableDeclaration =>
    all [alt (tok kwLet) (tok kwVar), tok identifier, opt (.rule typeAnnotation),
      opt (.rule initializer), tok semicolon]
  | constantDeclaration =>
    all [tok kwConst, tok identifier, opt (.rule typeAnnotation), tok Terminal.assign,
      .rule expression, tok semicolon]
  | typeAnnotation => all [tok colon, .rule type]
  | initializer => all [tok Terminal.assign, .rule expression]
  | assignment =>
    alt (all [tok identifier, tok Terminal.assign, .rule expression, tok semicolon])
      (all [.rule expression, tok dot, tok identifier, tok Terminal.assign, .rule expression,
        tok semicolon])
  | expressionStatement => all [.rule expression, tok semicolon]
  | printStatement => all [tok kwPrint, tok lparen, .rule expression, tok rparen, tok semicolon]
  | ifStatement =>
    all [tok kwIf, tok lparen, .rule expression, tok rparen, .rule block,
      opt (all [tok kwElse, .rule block])]
  | whileStatement => all [tok kwWhile, tok lparen, .rule expression, tok rparen, .rule block]
  | doWhileStatement =>
    all [tok kwDo, .rule block, tok kwWhile, tok lparen, .rule expression, tok rparen,
      tok semicolon]
  | forStatement =>
    all [tok kwFor, tok lparen,
      any [.rule variableDeclaration, .rule assignment, tok semicolon],
      opt (.rule expression), tok semicolon, opt (.rule expression), tok rparen, .rule block]
  | foreachStatement =>
    all [tok kwForeach, tok lparen, tok identifier, tok kwIn, .rule expression, tok rparen,
      .rule block]
  | breakStatement => all [tok kwBreak, tok semicolon]
  | continueStatement => all [tok kwContinue, tok semicolon]
  | returnStatement => all [tok kwReturn, opt (.rule expression), tok semicolon]
  | tryCatchStatement =>
    all [tok kwTry, .rule block, tok kwCatch, tok lparen, tok identifier, tok rparen, .rule block]
  | switchStatement =>
    all [tok kwSwitch, tok lparen, .rule expression, tok rparen, tok lbrace,
      star (.rule switchCase), opt (.rule defaultCase), tok rbrace]
  | switchCase => all [tok kwCase, .rule expression, tok colon, star (.rule statement)]
  | defaultCase => all [tok kwDefault, tok colon, star (.rule statement)]
  | functionDeclaration =>
    all [tok kwFunction, tok identifier, tok lparen, opt (.rule parameters), tok rparen,
      opt (all [tok colon, .rule type]), .rule block]
  | parameters => sepBy (.rule parameter) (tok comma)
  | parameter => all [tok identifier, opt (all [tok colon, .rule type])]
  | classDeclaration =>
    all [tok kwClass, tok identifier, opt (all [tok colon, tok identifier]), tok lbrace,
      star (.rule classMember), tok rbrace]
  | classMember =>
    any [.rule functionDeclaration, .rule variableDeclaration, .rule constantDeclaration]
  | expression => .rule assignmentExpr
  | assignmentExpr =>
    any [all [.rule leftHandSide, tok Terminal.assign, .rule assignmentExpr],
      all [.rule leftHandSide, tok dot, tok identifier, tok Terminal.assign,
        .rule assignmentExpr],
      .rule conditionalExpr]
  | conditionalExpr =>
    all [.rule logicalOrExpr,
      opt (all [tok question, .rule expression, tok colon, .rule expression])]
  | logicalOrExpr => sepBy (.rule logicalAndExpr) (tok Terminal.or)
  | logicalAndExpr => sepBy (.rule equalityExpr) (tok Terminal.and)
  | equalityExpr => sepBy (.rule relationalExpr) (alt (tok eq) (tok neq))
  | relationalExpr => sepBy (.rule additiveExpr) (any [tok lt, tok le, tok gt, tok ge])
  | additiveExpr => sepBy (.rule multiplicativeExpr) (alt (tok plus) (tok minus))
  | multiplicativeExpr => sepBy (.rule unaryExpr) (any [tok mult, tok div, tok mod])
  | unaryExpr =>
    alt (all [alt (tok minus) (tok Terminal.not), .rule unaryExpr]) (.rule primaryExpr)
  | primaryExpr =>
    any [.rule literalExpr, .rule leftHandSide, all [tok lparen, .rule expression, tok rparen]]
  | literalExpr =>
    any [tok literal, .rule arrayLiteral, tok kwNull, tok kwTrue, tok kwFalse]
  | leftHandSide => seq (.rule primaryAtom) (star (.rule suffixOp))
  | primaryAtom =>
    any [tok identifier,
      all [tok kwNew, tok identifier, tok lparen, opt (.rule arguments), tok rparen],
      tok kwThis]
  | suffixOp =>
    any [all [tok lparen, opt (.rule arguments), tok rparen],
      all [tok lbrack, .rule expression, tok rbrack],
      all [tok dot, tok identifier]]
  | arguments => sepBy (.rule expression) (tok comma)
  | arrayLiteral =>
    all [tok lbrack, opt (sepBy (.rule expression) (tok comma)), tok rbrack]
  | type => seq (.rule baseType) (star (all [tok lbrack, tok rbrack]))
  | baseType => any [tok kwBoolean, tok kwInteger, tok kwString, tok identifier]

/-- The rules that may start anywhere in a text, in the order in which a row of readings is
filled. -/
def order : List Rule :=
  [baseType, type, typeAnnotation, initializer,
    arrayLiteral, literalExpr, primaryAtom, suffixOp, leftHandSide,
    primaryExpr, unaryExpr, multiplicativeExpr, additiveExpr, relationalExpr, equalityExpr,
    logicalAndExpr, logicalOrExpr, conditionalExpr, assignmentExpr, expression, arguments,
    variableDeclaration, constantDeclaration, assignment, expressionStatement,
    printStatement, block, ifStatement, whileStatement, doWhileStatement, forStatement,
    foreachStatement, breakStatement, continueStatement, returnStatement,
    tryCatchStatement, switchCase, defaultCase, switchStatement,
    parameter, parameters, functionDeclaration, classMember, classDeclaration, statement]

end Rule

end Scriptc
