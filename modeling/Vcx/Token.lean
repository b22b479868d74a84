/-!
# Token kinds

`token.Kind`. The keywords are one kind here, apart from the two that mean something to the
preprocessor; a token's spelling tells the others apart.
-/

namespace Vcx.Token
set_option autoImplicit false

inductive Kind where
  | illegal | eof | comment | ident | headerName | intLit | floatLit | charLit | stringLit
  | lbrack | rbrack | lparen | rparen | lbrace | rbrace | period | arrow | periodStar | arrowStar | inc
  | dec | and | mul | add | sub | tilde | not | quo | rem | shl | shr | lss | gtr | leq | geq | eql | neq
  | spaceship | xor | or | land | lor | question | colon | scope | semi | ellipsis | assign | mulAssign
  | quoAssign | remAssign | addAssign | subAssign | shlAssign | shrAssign | andAssign | xorAssign | orAssign
  | comma | hash | hashhash | caretCaret | at
  | kwTrue | kwFalse | keyword
  deriving DecidableEq, Repr

/-- `IsKeyword`. -/
def Kind.isKeyword : Kind → Bool
  | .kwTrue | .kwFalse | .keyword => true
  | _ => false

end Vcx.Token
