import Wattle.Program.Operator
import Wattle.Ty

/-!
# Why code cannot be produced

Code is produced from checked programs. All but one of these errors mean that a tree was handed
over that the rules forbid; the exception is a conversion that the machine does not have. The
wording of messages is in this module only.
-/

namespace Wattle

/-- What a machine type was asked for. -/
inductive ValueContext where
  | literal (digits : String)
  | valueType
deriving DecidableEq

def ValueContext.text : ValueContext → String
  | literal digits => s!"literal {digits}"
  | valueType => "value type"

instance : ToString ValueContext := ⟨ValueContext.text⟩

/-- Why code cannot be produced. -/
inductive LowerError where
  | noConversion (source target : Ty)
  | voidValue (context : ValueContext)
  | unsupportedOperator (op : BinaryOp) (type : Ty)
  | missingSlot (node : Nat)
  | unboundName (name : String)
  | invalidTarget
deriving DecidableEq

def LowerError.message : LowerError → String
  | noConversion source target => s!"no conversion from {source} to {target}"
  | voidValue context => s!"void has no value type ({context})"
  | unsupportedOperator op type => s!"operator '{op}' has no instruction for type {type}"
  | missingSlot node => s!"no slot allocated for declaration node {node}"
  | unboundName name => s!"name '{name}' is not bound to a slot"
  | invalidTarget => "invalid assignment target"

end Wattle
