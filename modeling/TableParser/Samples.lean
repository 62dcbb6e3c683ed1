import TableParser.Grammar.Reader

/-!
# Sample grammars

Grammars of growing size: expressions, lists that may be empty, statements that need factoring, and a small functional
language. A sample first asks for its symbols and then defines its rules.
-/

namespace TableParser

/-- The symbols that a sample asks for first, and its steps. -/
structure Sample where
  declared : List Symbol
  steps : List DefinitionStep

namespace Sample

/-- The grammar of a sample. -/
def define (s : Sample) : Reported DefinitionError Grammar := do
  Reported.internAll s.declared
  Grammar.define s.steps

/-- A step without an action. -/
def rule (lhs : Symbol) (rhs : List Symbol) : DefinitionStep := .rule lhs rhs none

/-- A step with an action. -/
def acting (lhs : Symbol) (rhs : List Symbol) (action : String) : DefinitionStep := .rule lhs rhs (some action)

/-- A terminal. -/
def t (name : String) : Symbol := .terminal name

/-- A nonterminal. -/
def n (name : String) : Symbol := .nonterminal name

/-- Equations between sums. -/
def equations : Sample where
  declared := [n "A", n "E", n "T"]
  steps := [
    .start (n "A"),
    rule (n "A") [n "E", t "=", n "E"],
    rule (n "A") [Symbol.identifier],
    rule (n "E") [n "E", t "+", n "T"],
    rule (n "E") [n "T"],
    rule (n "T") [Symbol.number],
    rule (n "T") [Symbol.identifier]]

/-- Arithmetic with the usual precedence levels. -/
def arithmetic : Sample where
  declared := [n "EXPR", n "FACTOR", n "TERM"]
  steps := [
    .start (n "EXPR"),
    acting (n "EXPR") [n "EXPR", t "+", n "FACTOR"] "add",
    acting (n "EXPR") [n "EXPR", t "-", n "FACTOR"] "sub",
    rule (n "EXPR") [n "FACTOR"],
    acting (n "FACTOR") [n "FACTOR", t "*", n "TERM"] "mul",
    acting (n "FACTOR") [n "FACTOR", t "/", n "TERM"] "div",
    rule (n "FACTOR") [n "TERM"],
    acting (n "TERM") [Symbol.number] "num",
    rule (n "TERM") [t "(", n "EXPR", t ")"]]

/-- Sums of products of one letter. -/
def products : Sample where
  declared := [n "E", n "T"]
  steps := [
    rule (n "E") [n "E", t "+", n "T"],
    rule (n "E") [n "T"],
    rule (n "T") [n "T", t "*", t "a"],
    rule (n "T") [t "a"]]

/-- Signatures whose parts all begin with an identifier, so that one token of lookahead does not suffice. -/
def signatures : Sample where
  declared := [n "DEF", n "PARAM_SPEC", n "RETURN_SPEC", n "TYPE", n "NAME", n "NAME_LIST", t ",", t ":"]
  steps := [
    rule (n "DEF") [n "PARAM_SPEC", n "RETURN_SPEC", t ","],
    rule (n "PARAM_SPEC") [n "TYPE"],
    rule (n "PARAM_SPEC") [n "NAME_LIST", t ":", n "TYPE"],
    rule (n "RETURN_SPEC") [n "TYPE"],
    rule (n "RETURN_SPEC") [n "NAME", t ":", n "TYPE"],
    rule (n "TYPE") [Symbol.identifier],
    rule (n "NAME") [Symbol.identifier],
    rule (n "NAME_LIST") [n "NAME"],
    rule (n "NAME_LIST") [n "NAME", t ",", n "NAME_LIST"]]

/-- Sums with parentheses. -/
def sums : Sample where
  declared := [n "E", n "T"]
  steps := [
    rule (n "E") [n "E", t "+", n "T"],
    rule (n "E") [n "T"],
    rule (n "T") [t "(", n "E", t ")"],
    rule (n "T") [t "n"]]

/-- A list of `a` that may be empty. -/
def emptyableList : Sample where
  declared := [n "S", n "A"]
  steps := [
    rule (n "S") [n "A"],
    acting (n "A") [t "a", n "A"] "cons",
    acting (n "A") [Symbol.epsilon] "nil"]

/-- Statements that share a keyword at their beginning. -/
def statements : Sample where
  declared := [n "PROGRAM", n "STMT", n "EXPR", n "ATOM"]
  steps := [
    rule (n "PROGRAM") [n "STMT", n "PROGRAM"],
    rule (n "PROGRAM") [Symbol.epsilon],
    acting (n "STMT") [t "if", n "EXPR", t "then", n "STMT", t "end"] "if",
    acting (n "STMT") [t "if", n "EXPR", t "then", n "STMT", t "else", n "STMT", t "end"] "if_else",
    acting (n "STMT") [t "print", n "EXPR", t ";"] "print",
    acting (n "STMT") [Symbol.identifier, t "=", n "EXPR", t ";"] "assign",
    acting (n "EXPR") [n "EXPR", t "+", n "ATOM"] "add",
    rule (n "EXPR") [n "ATOM"],
    rule (n "ATOM") [Symbol.number],
    rule (n "ATOM") [Symbol.identifier],
    rule (n "ATOM") [Symbol.string]]

/-- The expressions of a small functional language. -/
def functional : Sample where
  declared := ["(", ")", "true", "false", "not", "+", "+.", "-", "-.", "*.", "/.", "=", "<>", "<", ">", "<=", ">=",
      "<-", ",", ";", ".", "if", "then", "else", "let", "rec", "in", "Array.make"].map t ++
    ["SIMPLE_EXP", "APP_EXP", "NEG_EXP", "MULT_EXP", "ADD_EXP", "REL_EXP", "TUPLE_EXP", "PUT_EXP", "IF_EXP", "LET_EXP",
      "EXPR", "FORMAL_ARGS", "ACTUAL_ARGS", "TUPLE_EXP_REST", "FUNDEF", "PAT"].map n
  steps := [
    .start (n "EXPR"),
    rule (n "SIMPLE_EXP") [t "(", n "EXPR", t ")"],
    rule (n "SIMPLE_EXP") [t "(", t ")"],
    rule (n "SIMPLE_EXP") [t "true"],
    rule (n "SIMPLE_EXP") [t "false"],
    rule (n "SIMPLE_EXP") [Symbol.number],
    rule (n "SIMPLE_EXP") [Symbol.identifier],
    rule (n "SIMPLE_EXP") [n "SIMPLE_EXP", t ".", t "(", n "EXPR", t ")"],
    rule (n "APP_EXP") [n "SIMPLE_EXP"],
    rule (n "APP_EXP") [n "SIMPLE_EXP", n "ACTUAL_ARGS"],
    rule (n "APP_EXP") [t "Array.make", n "SIMPLE_EXP", n "SIMPLE_EXP"],
    rule (n "APP_EXP") [t "not", n "APP_EXP"],
    rule (n "NEG_EXP") [n "APP_EXP"],
    rule (n "NEG_EXP") [t "-", n "NEG_EXP"],
    rule (n "NEG_EXP") [t "-.", n "NEG_EXP"],
    rule (n "MULT_EXP") [n "NEG_EXP"],
    rule (n "MULT_EXP") [n "MULT_EXP", t "*.", n "NEG_EXP"],
    rule (n "MULT_EXP") [n "MULT_EXP", t "/.", n "NEG_EXP"],
    rule (n "ADD_EXP") [n "MULT_EXP"],
    rule (n "ADD_EXP") [n "ADD_EXP", t "+", n "MULT_EXP"],
    rule (n "ADD_EXP") [n "ADD_EXP", t "-", n "MULT_EXP"],
    rule (n "ADD_EXP") [n "ADD_EXP", t "+.", n "MULT_EXP"],
    rule (n "ADD_EXP") [n "ADD_EXP", t "-.", n "MULT_EXP"],
    rule (n "REL_EXP") [n "ADD_EXP"],
    rule (n "REL_EXP") [n "REL_EXP", t "=", n "ADD_EXP"],
    rule (n "REL_EXP") [n "REL_EXP", t "<>", n "ADD_EXP"],
    rule (n "REL_EXP") [n "REL_EXP", t "<", n "ADD_EXP"],
    rule (n "REL_EXP") [n "REL_EXP", t ">", n "ADD_EXP"],
    rule (n "REL_EXP") [n "REL_EXP", t "<=", n "ADD_EXP"],
    rule (n "REL_EXP") [n "REL_EXP", t ">=", n "ADD_EXP"],
    rule (n "TUPLE_EXP") [n "REL_EXP"],
    rule (n "TUPLE_EXP") [n "REL_EXP", t ",", n "TUPLE_EXP_REST"],
    rule (n "TUPLE_EXP_REST") [n "REL_EXP"],
    rule (n "TUPLE_EXP_REST") [n "REL_EXP", t ",", n "TUPLE_EXP_REST"],
    rule (n "PUT_EXP") [n "TUPLE_EXP"],
    rule (n "PUT_EXP") [n "SIMPLE_EXP", t ".", t "(", n "EXPR", t ")", t "<-", n "EXPR"],
    rule (n "IF_EXP") [n "PUT_EXP"],
    rule (n "IF_EXP") [t "if", n "EXPR", t "then", n "EXPR", t "else", n "EXPR"],
    rule (n "LET_EXP") [t "let", Symbol.identifier, t "=", n "EXPR", t "in", n "EXPR"],
    rule (n "LET_EXP") [t "let", t "rec", n "FUNDEF", t "in", n "EXPR"],
    rule (n "LET_EXP") [t "let", t "(", n "PAT", t ")", t "=", n "EXPR", t "in", n "EXPR"],
    rule (n "FUNDEF") [Symbol.identifier, n "FORMAL_ARGS", t "=", n "EXPR"],
    rule (n "FORMAL_ARGS") [Symbol.identifier, n "FORMAL_ARGS"],
    rule (n "FORMAL_ARGS") [Symbol.identifier],
    rule (n "ACTUAL_ARGS") [n "ACTUAL_ARGS", n "SIMPLE_EXP"],
    rule (n "ACTUAL_ARGS") [n "SIMPLE_EXP"],
    rule (n "PAT") [n "PAT", t ",", Symbol.identifier],
    rule (n "PAT") [Symbol.identifier, t ",", Symbol.identifier],
    rule (n "EXPR") [n "IF_EXP"],
    rule (n "EXPR") [n "IF_EXP", t ";", n "EXPR"],
    rule (n "EXPR") [n "LET_EXP"]]

/-- Arithmetic in the text form of grammars. -/
def calculator : String :=
  "// arithmetic expressions\n" ++
  "calc_expr\n\t: calc_expr + calc_term\tadd\n\t| calc_expr - calc_term\tsub\n\t| calc_term\n\n" ++
  "calc_term\n\t: calc_term * calc_factor\tmul\n\t| calc_factor\n\n" ++
  "calc_factor\n\t: ( calc_expr )\n\t| number\tnum\n\t| - calc_factor\tneg\n"

end Sample
end TableParser
