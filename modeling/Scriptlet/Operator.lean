/-!
Binary operators and the tiers in which they bind.
-/

namespace Scriptlet

inductive Operator where
  | equal
  | notEqual
  | greater
  | less
  | greaterEqual
  | lessEqual
  | add
  | sub
  | mul
  | div
  | mod
deriving DecidableEq

/-- Tiers of operators, the loosest first. -/
inductive Tier where
  | equality
  | comparison
  | term
  | factor
deriving DecidableEq

namespace Operator

def symbol : Operator → String
  | equal => "=="
  | notEqual => "!="
  | greater => ">"
  | less => "<"
  | greaterEqual => ">="
  | lessEqual => "<="
  | add => "+"
  | sub => "-"
  | mul => "*"
  | div => "/"
  | mod => "%"

def tier : Operator → Tier
  | equal | notEqual => .equality
  | greater | less | greaterEqual | lessEqual => .comparison
  | add | sub => .term
  | mul | div | mod => .factor

def isOrdering (op : Operator) : Bool :=
  op.tier == .comparison

end Operator

end Scriptlet
