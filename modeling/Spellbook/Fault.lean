/-! Why an operation of the language fails, and how it says so. -/
namespace Spellbook

/-- The causes of failure. Types are given by their names. -/
inductive Fault where
  | unbound (name : String)
  | noAttribute (name owner : String)
  | noMethod (name grimoire : String)
  | privateMethod (name grimoire : String)
  | protectedMethod (name grimoire : String)
  /-- An operator between operands of two types. -/
  | mismatch (left op right : String)
  /-- An operator between operands of one type that does not have it. -/
  | noOperator (left op right : String)
  | noUnary (op operand : String)
  | badIndex (object index : String)
  | badBound (type : String)
  | needs (builtin want got : String)
  | unhashable (type : String)
  | notCallable (type : String)
  | badArgument (param hint got : String)
  | notIndexable (type : String)
  | notSliceable (type : String)
  | notIndexAssignable (type : String)
  | noLength (type : String)
  | notConvertible (value target : String)
  | arcaneSpell (name : String)
  | arcaneGrimoire (name : String)
  | unimplemented (grimoire spell : String)
  | notUnpackable (type : String)
  | unpackCount (values names : Nat)
  | notAssignable (name type : String)
  | notRaisable (type : String)
  | notIterable (type : String)
  | notParent (type : String)
  | outOfBounds (index : Int) (length : Nat)
  | divisionByZero
  | moduloByZero
  | argumentCount (want : String) (got : Nat)
  | tooDeep
  | overflow
  | badShift
  | tooLong
  | zeroStep
  | rangeTooLarge (count : Nat)
  | emptySequence (builtin : String)
  | notChar (value : String)
  | notCodePoint (n : Int)
  | noParent
  | strayControl
deriving DecidableEq, Repr

namespace Fault

def message : Fault → String
  | .unbound name => "identifier not found: " ++ name
  | .noAttribute name owner => "undefined attribute '" ++ name ++ "' on " ++ owner
  | .noMethod name grimoire => "undefined method '" ++ name ++ "' on grimoire " ++ grimoire
  | .privateMethod name grimoire =>
    "private method '" ++ name ++ "' is not accessible outside grimoire " ++ grimoire
  | .protectedMethod name grimoire =>
    "protected method '" ++ name ++ "' is not accessible outside the " ++ grimoire ++
      " hierarchy"
  | .mismatch left op right => "type mismatch: " ++ left ++ " " ++ op ++ " " ++ right
  | .noOperator left op right => "unknown operator: " ++ left ++ " " ++ op ++ " " ++ right
  | .noUnary op operand => "unknown operator: " ++ op ++ operand
  | .badIndex object index => "type mismatch: cannot index " ++ object ++ " with " ++ index
  | .badBound type => "type mismatch: slice bounds must be INTEGER, got " ++ type
  | .needs builtin want got => "type mismatch: " ++ builtin ++ "() " ++ want ++ ", got " ++ got
  | .unhashable type => "unusable as hash key: " ++ type
  | .notCallable type => "not a function: " ++ type
  | .badArgument param hint got =>
    "parameter '" ++ param ++ "' expects " ++ hint ++ " but got " ++ got
  | .notIndexable type => "cannot index value of type " ++ type
  | .notSliceable type => "cannot slice value of type " ++ type
  | .notIndexAssignable type => "cannot assign to index of " ++ type
  | .noLength type => "cannot take the length of " ++ type
  | .notConvertible value target => "cannot convert " ++ value ++ " to " ++ target
  | .arcaneSpell name => "cannot call arcane spell " ++ name
  | .arcaneGrimoire name => "cannot instantiate arcane grimoire " ++ name
  | .unimplemented grimoire spell =>
    "cannot instantiate " ++ grimoire ++ ": arcane spell " ++ spell ++ " is not implemented"
  | .notUnpackable type => "cannot unpack " ++ type
  | .unpackCount values names =>
    "cannot unpack " ++ toString values ++ " values into " ++ toString names ++ " names"
  | .notAssignable name type => "cannot assign to attribute '" ++ name ++ "' of " ++ type
  | .notRaisable type => "cannot raise non-error object: " ++ type
  | .notIterable type => "cannot iterate over " ++ type
  | .notParent type => "cannot inherit from " ++ type ++ ", it is not a grimoire"
  | .outOfBounds index length =>
    "index out of bounds: index " ++ toString index ++ " for length " ++ toString length
  | .divisionByZero => "division by zero"
  | .moduloByZero => "modulo by zero"
  | .argumentCount want got =>
    "wrong number of arguments: want=" ++ want ++ ", got=" ++ toString got
  | .tooDeep => "maximum recursion depth exceeded"
  | .overflow => "integer overflow"
  | .badShift => "invalid shift amount"
  | .tooLong => "repetition too large"
  | .zeroStep => "range() step must not be zero"
  | .rangeTooLarge count => "range too large: " ++ toString count ++ " elements"
  | .emptySequence builtin => builtin ++ "() of an empty sequence"
  | .notChar value => "ord() expects a single character, got " ++ value
  | .notCodePoint n => "chr() code point out of range: " ++ toString n
  | .noParent => "super used outside of a method of a grimoire with a parent"
  | .strayControl => "stop or skip used outside of a loop"

def errorName : Fault → String
  | .unbound _ => "NameError"
  | .noAttribute .. | .noMethod .. | .privateMethod .. | .protectedMethod .. => "AttributeError"
  | .outOfBounds .. => "IndexError"
  | .divisionByZero | .moduloByZero => "ZeroDivisionError"
  | .argumentCount .. => "ArgumentError"
  | .tooDeep => "RecursionError"
  | .overflow | .badShift | .tooLong | .zeroStep | .rangeTooLarge _ | .emptySequence _
  | .notChar _ | .notCodePoint _ | .noParent | .strayControl => "RuntimeError"
  | _ => "TypeError"

end Fault

end Spellbook
