/-! # Where reading a flow file went wrong

A syntax error names the grammar rules that were tried, in vain, at the furthest position that any
rule was tried at.  A rule that fails stands for the rules that failed inside it at the same
position, unless exactly one of them did: then that one is the more precise account and is kept. -/

namespace ControlStore.Source

/-- The rules of the grammar that errors speak of. -/
inductive Rule where
  | endOfInput
  | file
  | signals
  | declaration
  | init
  | neutral
  | step
  | block
  | assignment
  | forward
  | raw
  | absent
  | constant
  | rawKeyword
  | absentKeyword
  | ident
  | number
  | hex
  | bin
  | dec
deriving DecidableEq

namespace Rule

/-- All rules, in the order in which errors list them. -/
def all : List Rule :=
  [endOfInput, file, signals, declaration, init, neutral, step, block, assignment, forward, raw,
    absent, constant, rawKeyword, absentKeyword, ident, number, hex, bin, dec]

/-- The name of a rule in messages. -/
def name : Rule → String
  | endOfInput => "EOI"
  | file => "file"
  | signals => "signals"
  | declaration => "signal_decl"
  | init => "init"
  | neutral => "neutral"
  | step => "step"
  | block => "block"
  | assignment => "assignment"
  | forward => "forward"
  | raw => "raw"
  | absent => "absent"
  | constant => "constant"
  | rawKeyword => "raw_kwd"
  | absentKeyword => "absent_kwd"
  | ident => "ident"
  | number => "number"
  | hex => "hex"
  | bin => "bin"
  | dec => "dec"

end Rule

/-- The furthest position at which a rule failed, and the rules that failed there. -/
structure Attempts where
  position : Nat
  rules : List Rule
deriving DecidableEq

namespace Attempts

/-- Nothing was tried yet. -/
def none : Attempts := ⟨0, []⟩

/-- The number of rules on record at `position`. -/
def countAt (t : Attempts) (position : Nat) : Nat :=
  if position = t.position then t.rules.length else 0

/-- Records that `rule` failed at `position`, where `before` rules were on record when it was
tried. -/
def fail (t : Attempts) (rule : Rule) (position before : Nat) : Attempts :=
  if t.countAt position = before + 1 then t
  else if position = t.position then ⟨position, t.rules.take before ++ [rule]⟩
  else if t.position < position then ⟨position, [rule]⟩
  else t

end Attempts

/-- What was expected where a flow file could not be read on. -/
structure SyntaxError where
  position : Nat
  expected : List Rule
deriving DecidableEq

namespace SyntaxError

/-- The error that the attempts amount to: every rule once, in the order of the grammar. -/
def ofAttempts (t : Attempts) : SyntaxError := ⟨t.position, Rule.all.filter (· ∈ t.rules)⟩

/-- A list of alternatives in words. -/
def alternatives : List String → String
  | [] => ""
  | [a] => a
  | [a, b] => a ++ " or " ++ b
  | a :: b :: c :: rest => ", ".intercalate ((a :: b :: c :: rest).dropLast) ++ ", or "
      ++ (c :: rest).getLast (List.cons_ne_nil c rest)

/-- How a syntax error is reported. -/
def message (e : SyntaxError) : String := "expected " ++ alternatives (e.expected.map Rule.name)

end SyntaxError

end ControlStore.Source
