/-! What can be wrong with the text of a movement grammar. -/
namespace FairyChess

inductive MovementError
  /-- The operator `&`, which groups have replaced. -/
  | repeatOperator
  | unexpectedToken (token : Char) (clause : String)
  | malformedDistance (text : String)
  | conflictingShape (clause : String)
  | emptyPattern (clause : String)
  deriving DecidableEq, Repr

def MovementError.message : MovementError → String
  | .repeatOperator =>
    "the repeated movement ('&') operator has been deprecated, use the grouping ('()') operator instead"
  | .unexpectedToken token clause =>
    "unexpected token '" ++ token.toString ++ "' in clause \"" ++ clause ++ "\""
  | .malformedDistance text => "malformed distance \"" ++ text ++ "\""
  | .conflictingShape clause => "conflicting shape tokens in clause \"" ++ clause ++ "\""
  | .emptyPattern clause => "rider group in clause \"" ++ clause ++ "\" has no pattern"

end FairyChess
