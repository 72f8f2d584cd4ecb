import ConsoleLisp.Text

/-!
# Error codes

The codes by which a host tells errors apart. `ErrorCode.all` lists them in the order of the public
table and `ErrorCode.ofName?` finds one by its name.
-/

namespace ConsoleLisp

/-- The codes of an evaluation that fails. -/
inductive FailureCode
  | unboundSymbol
  | notCallable
  | typeError
  | arity
  | limitExceeded
  | depthExceeded
  deriving DecidableEq, Repr

/-- The code of an error. -/
inductive ErrorCode
  | unterminatedString
  | invalidEscape
  | emptyInput
  | unbalanced
  | unexpectedToken
  | nestedTooDeep
  | evaluation (code : FailureCode)
  | heapExhausted
  | heapDestroyed
  | staleHandle
  | foreignHandle
  | configurationInvalid
  | configurationUnreadable
  deriving DecidableEq, Repr

namespace FailureCode

/-- The public name of the code. -/
def name : FailureCode → Text
  | unboundSymbol => text "RUNTIME_UNBOUND_SYMBOL"
  | notCallable => text "RUNTIME_NOT_CALLABLE"
  | typeError => text "RUNTIME_TYPE_ERROR"
  | arity => text "RUNTIME_ARITY"
  | limitExceeded => text "RUNTIME_LIMIT_EXCEEDED"
  | depthExceeded => text "RUNTIME_DEPTH_EXCEEDED"

/-- Every code, in the order of the public table. -/
def all : List FailureCode :=
  [unboundSymbol, notCallable, typeError, arity, limitExceeded, depthExceeded]

end FailureCode

namespace ErrorCode

/-- The public name of the code. -/
def name : ErrorCode → Text
  | unterminatedString => text "LEX_UNTERMINATED_STRING"
  | invalidEscape => text "LEX_INVALID_ESCAPE"
  | emptyInput => text "PARSE_EMPTY_INPUT"
  | unbalanced => text "PARSE_UNBALANCED"
  | unexpectedToken => text "PARSE_UNEXPECTED_TOKEN"
  | nestedTooDeep => text "PARSE_TOO_DEEP"
  | evaluation code => code.name
  | heapExhausted => text "HEAP_EXHAUSTED"
  | heapDestroyed => text "HEAP_DESTROYED"
  | staleHandle => text "HEAP_STALE_HANDLE"
  | foreignHandle => text "HEAP_FOREIGN_HANDLE"
  | configurationInvalid => text "CONFIG_INVALID"
  | configurationUnreadable => text "CONFIG_UNREADABLE"

/-- Every code, in the order of the public table. -/
def all : List ErrorCode :=
  [unterminatedString, invalidEscape, emptyInput, unbalanced, unexpectedToken, nestedTooDeep]
    ++ FailureCode.all.map evaluation
    ++ [heapExhausted, heapDestroyed, staleHandle, foreignHandle, configurationInvalid,
      configurationUnreadable]

/-- The code of a public name. -/
def ofName? (t : Text) : Option ErrorCode := all.find? fun code => code.name == t

end ErrorCode

end ConsoleLisp
