import OddBuilder.Json.Kernels
import OddBuilder.Token.Vocab

/-!
# The syntax tree of chat templates

The tokens that the template lexer hands on and the nodes that the parser builds
from them. A child that the visitors test for a null pointer may be absent here;
the elements of argument lists, lists and dictionaries they read without a test.
Floating-point literals have a type of their own.
-/

namespace JobTokenizer

inductive JinjaType where
  | eof
  | text
  | exprBegin
  | exprEnd
  | blockBegin
  | blockEnd
  | kwFor
  | kwIn
  | kwEndFor
  | kwIf
  | kwElif
  | kwElse
  | kwEndIf
  | kwSet
  | kwAnd
  | kwOr
  | kwNot
  | kwIs
  | kwTrue
  | kwFalse
  | kwNone
  | identifier
  | stringLiteral
  | numberLiteral
  | dot
  | comma
  | colon
  | semicolon
  | pipe
  | tilde
  | plus
  | minus
  | mul
  | div
  | floorDiv
  | mod
  | pow
  | eq
  | ne
  | lt
  | le
  | gt
  | ge
  | assign
  | parenOpen
  | parenClose
  | bracketOpen
  | bracketClose
  | braceOpen
  | braceClose
  | unknown
  deriving DecidableEq

structure Position where
  line : Nat := 1
  column : Nat := 1

structure JinjaToken where
  type : JinjaType := .eof
  text : Text := []
  pos : Position := {}

/-- The literals, over a type `D` of floating-point numbers. -/
inductive LiteralValue (D : Type) where
  | null
  | bool (value : Bool)
  | int (value : Int64)
  | float (value : D)
  | string (value : Text)

inductive UnaryOp where
  | not
  | negate
  | pos
  deriving DecidableEq

inductive BinaryOp where
  | add
  | sub
  | mul
  | div
  | floorDiv
  | mod
  | pow
  | concat
  | eq
  | ne
  | lt
  | le
  | gt
  | ge
  | and
  | or
  | isIn
  | notIn
  | is
  | isNot
  deriving DecidableEq

inductive ExprNode (D : Type) where
  | literal (pos : Position) (value : LiteralValue D)
  | identifier (pos : Position) (name : Text)
  | unaryOp (pos : Position) (op : UnaryOp) (operand : Option (ExprNode D))
  | binaryOp (pos : Position) (op : BinaryOp) (left right : Option (ExprNode D))
  | conditional (pos : Position) (condition trueValue falseValue : Option (ExprNode D))
  | memberAccess (pos : Position) (object : Option (ExprNode D)) (member : Text)
  | subscript (pos : Position) (object index : Option (ExprNode D))
  | call (pos : Position) (callee : Option (ExprNode D)) (posArgs : List (ExprNode D))
      (kwArgs : List (Text × ExprNode D))
  | filter (pos : Position) (target : Option (ExprNode D)) (filterName : Text)
      (args : List (ExprNode D)) (kwArgs : List (Text × ExprNode D))
  | list (pos : Position) (elements : List (ExprNode D))
  | dict (pos : Position) (pairs : List (ExprNode D × ExprNode D))

namespace ExprNode

variable {D : Type}

def pos : ExprNode D → Position
  | literal pos _ => pos
  | identifier pos _ => pos
  | unaryOp pos _ _ => pos
  | binaryOp pos _ _ _ => pos
  | conditional pos _ _ _ => pos
  | memberAccess pos _ _ => pos
  | subscript pos _ _ => pos
  | call pos _ _ _ => pos
  | filter pos _ _ _ _ => pos
  | list pos _ => pos
  | dict pos _ => pos

end ExprNode

mutual

inductive StmtNode (D : Type) where
  | text (pos : Position) (text : Text)
  | output (pos : Position) (expression : Option (ExprNode D))
  /-- A branch without a condition is the `else`. -/
  | ifNode (pos : Position) (branches : List (Option (ExprNode D) × Option (BodyNode D)))
  | forNode (pos : Position) (targets : List Text) (iterable : Option (ExprNode D))
      (body elseBody : Option (BodyNode D))
  | set (pos : Position) (name : Text) (value : Option (ExprNode D))
  | body (node : BodyNode D)

inductive BodyNode (D : Type) where
  | mk (pos : Position) (statements : List (Option (StmtNode D)))

end

end JobTokenizer

/-!
## The template parser

`JinjaParser` over the tokens still in front of it. A function that calls back into
`parseExpression` or `parseStatement` takes that function as an argument, and the
two recursions spend one unit of depth a level; a loop spends one turn a round.
`std::stod` is a parameter: the number it reads and how much of the text it took.
-/

namespace JobTokenizer.JinjaParser

inductive Failure where
  /-- The exception `ParseError`. -/
  | parseError (message : String) (pos : Position)
  /-- The exception `std::logic_error`. -/
  | logicError (what : String)
  | outOfFuel

/-- A value with the tokens behind what it was read from. -/
abbrev Parsed (α : Type) : Type := α × List JinjaToken

abbrev Parser (α : Type) : Type := List JinjaToken → Except Failure (Parsed α)

def isAtEnd : List JinjaToken → Bool
  | [] => true
  | token :: _ => token.type = .eof

/-- The current token, `m_eof` behind the last one. -/
def peek : List JinjaToken → JinjaToken
  | [] => {}
  | token :: _ => if token.type = .eof then {} else token

def peekNext : List JinjaToken → JinjaToken
  | _ :: token :: _ => token
  | _ => {}

def advance : List JinjaToken → List JinjaToken
  | [] => []
  | token :: tokens => if token.type = .eof then token :: tokens else tokens

def check (type : JinjaType) (tokens : List JinjaToken) : Bool :=
  if isAtEnd tokens then type = .eof else (peek tokens).type = type

def checkNext (type : JinjaType) (tokens : List JinjaToken) : Bool := (peekNext tokens).type = type

def consume (type : JinjaType) (message : String) (tokens : List JinjaToken) :
    Except Failure (Parsed JinjaToken) :=
  if check type tokens then .ok (peek tokens, advance tokens)
  else .error (.parseError message (peek tokens).pos)

def checkBlockKeyword (keyword : JinjaType) (tokens : List JinjaToken) : Bool :=
  check .blockBegin tokens && checkNext keyword tokens

def binaryPrecedence : JinjaType → Nat
  | .kwOr => 10
  | .kwAnd => 20
  | .kwIn | .kwIs | .eq | .ne | .lt | .le | .gt | .ge => 30
  | .tilde => 40
  | .plus | .minus => 50
  | .mul | .div | .floorDiv | .mod => 60
  | .pow => 70
  | _ => 0

def binaryOp : JinjaType → Except Failure BinaryOp
  | .plus => .ok .add
  | .minus => .ok .sub
  | .mul => .ok .mul
  | .div => .ok .div
  | .floorDiv => .ok .floorDiv
  | .mod => .ok .mod
  | .pow => .ok .pow
  | .tilde => .ok .concat
  | .eq => .ok .eq
  | .ne => .ok .ne
  | .lt => .ok .lt
  | .le => .ok .le
  | .gt => .ok .gt
  | .ge => .ok .ge
  | .kwAnd => .ok .and
  | .kwOr => .ok .or
  | .kwIn => .ok .isIn
  | .kwIs => .ok .is
  | _ => .error (.logicError "Invalid binary operator token")

/-- What stands for a backslash and the character behind it. -/
def unescape (escaped : UInt8) : Text :=
  if escaped = 110 then [10]
  else if escaped = 114 then [13]
  else if escaped = 116 then [9]
  else if escaped = 92 ∨ escaped = 39 ∨ escaped = 34 then [escaped]
  else [92, escaped]

def decodeStringLiteral : Text → Text
  | [] => []
  | [character] => [character]
  | character :: escaped :: text =>
    if character = 92 then unescape escaped ++ decodeStringLiteral text
    else character :: decodeStringLiteral (escaped :: text)

/-- `std::from_chars` over the whole text, for `std::int64_t`. -/
def fromChars (text : Text) : Option Int64 :=
  (JobJson.parseInteger ⟨true, .w64⟩ text).map Int64.ofInt

section

variable {D : Type} (stod : Text → Option (D × Nat))

def parseNumber (token : JinjaToken) : Except Failure (LiteralValue D) :=
  if 46 ∈ token.text then
    match stod token.text with
    | some (number, consumed) =>
      if consumed = token.text.length then .ok (.float number)
      else .error (.parseError "Invalid floating-point literal" token.pos)
    | none => .error (.parseError "Invalid floating-point literal" token.pos)
  else
    match fromChars token.text with
    | some number => .ok (.int number)
    | none => .error (.parseError "Invalid integer literal" token.pos)

end

section

variable {α D : Type}

/-- The loop over the elements of a list, the entries of a dictionary or the arguments of a call:
up to the closing token, or to the first item that no comma follows. -/
def parseItems (close : JinjaType) (item : Parser α) : Nat → Parser (List α)
  | 0, _ => .error .outOfFuel
  | turn + 1, tokens =>
    if check close tokens then .ok ([], tokens)
    else do
      let (x, tokens) ← item tokens
      -- the source tests for a trailing comma here, with the test the next round begins with
      if check .comma tokens then
        let (xs, tokens) ← parseItems close item turn (advance tokens)
        return (x :: xs, tokens)
      else return ([x], tokens)

/-- `parseExpression` at a minimal precedence. -/
abbrev ExpressionParser (D : Type) : Type := Nat → Parser (ExprNode D)

variable (expression : ExpressionParser D)

/-- A keyword argument with its name, or a positional one. -/
def parseArgument (message : String) (tokens : List JinjaToken) :
    Except Failure (Parsed (Option Text × ExprNode D)) :=
  if check .identifier tokens && checkNext .assign tokens then do
    let name := (peek tokens).text
    let (_, tokens) ← consume .assign message (advance tokens)
    let (value, tokens) ← expression 0 tokens
    return ((some name, value), tokens)
  else do
    let (value, tokens) ← expression 0 tokens
    return ((none, value), tokens)

def positional (arguments : List (Option Text × ExprNode D)) : List (ExprNode D) :=
  arguments.filterMap fun argument => if argument.1 = none then some argument.2 else none

def keyword (arguments : List (Option Text × ExprNode D)) : List (Text × ExprNode D) :=
  arguments.filterMap fun argument => argument.1.map (·, argument.2)

def parsePair (tokens : List JinjaToken) : Except Failure (Parsed (ExprNode D × ExprNode D)) := do
  let (key, tokens) ← expression 0 tokens
  let (_, tokens) ← consume .colon "Expected ':' between dict key and value" tokens
  let (value, tokens) ← expression 0 tokens
  return ((key, value), tokens)

/-- `parsePrimary`, which tests the current token for one type after another. -/
def parsePrimary (stod : Text → Option (D × Nat)) (tokens : List JinjaToken) :
    Except Failure (Parsed (ExprNode D)) :=
  let token := peek tokens
  match token.type with
  | .numberLiteral => do
    let value ← parseNumber stod token
    return (.literal token.pos value, advance tokens)
  | .stringLiteral =>
    .ok (.literal token.pos (.string (decodeStringLiteral token.text)), advance tokens)
  | .kwTrue => .ok (.literal token.pos (.bool true), advance tokens)
  | .kwFalse => .ok (.literal token.pos (.bool false), advance tokens)
  | .kwNone => .ok (.literal token.pos .null, advance tokens)
  | .identifier => .ok (.identifier token.pos token.text, advance tokens)
  | .parenOpen => do
    let (e, tokens) ← expression 0 (advance tokens)
    let (_, tokens) ← consume .parenClose "Expected ')' after parenthesized expression" tokens
    return (e, tokens)
  | .bracketOpen => do
    let (elements, tokens) ←
      parseItems .bracketClose (expression 0) tokens.length (advance tokens)
    let (_, tokens) ← consume .bracketClose "Expected ']' after list elements" tokens
    return (.list token.pos elements, tokens)
  | .braceOpen => do
    let (pairs, tokens) ←
      parseItems .braceClose (parsePair expression) tokens.length (advance tokens)
    let (_, tokens) ← consume .braceClose "Expected '\x7d' after dict entries" tokens
    return (.dict token.pos pairs, tokens)
  | .kwNot => do
    let (operand, tokens) ← expression 25 (advance tokens)
    return (.unaryOp token.pos .not (some operand), tokens)
  | .minus => do
    let (operand, tokens) ← expression 65 (advance tokens)
    return (.unaryOp token.pos .negate (some operand), tokens)
  | .plus => do
    let (operand, tokens) ← expression 65 (advance tokens)
    return (.unaryOp token.pos .pos (some operand), tokens)
  | .unknown => .error (.parseError "Invalid token in expression" token.pos)
  | _ => .error (.parseError "Expected expression" token.pos)

def parseFilter (target : ExprNode D) (tokens : List JinjaToken) :
    Except Failure (Parsed (ExprNode D)) := do
  let (name, tokens) ← consume .identifier "Expected filter name after '|'" tokens
  if check .parenOpen tokens then
    let (arguments, tokens) ←
      parseItems .parenClose
        (parseArgument expression "Expected '=' after filter keyword argument name")
        tokens.length (advance tokens)
    let (_, tokens) ← consume .parenClose "Expected ')' after filter arguments" tokens
    return (.filter target.pos (some target) name.text (positional arguments) (keyword arguments),
      tokens)
  else return (.filter target.pos (some target) name.text [] [], tokens)

def parsePostfix : Nat → ExprNode D → Parser (ExprNode D)
  | 0, _, _ => .error .outOfFuel
  | turn + 1, e, tokens =>
    match (peek tokens).type with
    | .dot => do
      let (name, tokens) ←
        consume .identifier "Expected property name after '.'" (advance tokens)
      parsePostfix turn (.memberAccess e.pos (some e) name.text) tokens
    | .bracketOpen => do
      let (index, tokens) ← expression 0 (advance tokens)
      let (_, tokens) ← consume .bracketClose "Expected ']' after subscript index" tokens
      parsePostfix turn (.subscript e.pos (some e) (some index)) tokens
    | .parenOpen => do
      let (arguments, tokens) ←
        parseItems .parenClose
          (parseArgument expression "Expected '=' after keyword argument name")
          tokens.length (advance tokens)
      let (_, tokens) ← consume .parenClose "Expected ')' after function arguments" tokens
      parsePostfix turn (.call e.pos (some e) (positional arguments) (keyword arguments)) tokens
    | .pipe => do
      let (e, tokens) ← parseFilter expression e (advance tokens)
      parsePostfix turn e tokens
    | _ => .ok (e, tokens)

/-- The token behind `is` as the literal it spells, if it is of a kind that can name a test. -/
def parseTestName (tokens : List JinjaToken) : Option (ExprNode D) :=
  if check .identifier tokens || check .kwNone tokens || check .kwTrue tokens ||
      check .kwFalse tokens then
    some (.literal (peek tokens).pos (.string (peek tokens).text))
  else none

/-- The precedence of the operator in front, and the operator if it is one of two tokens. -/
def operatorAt (tokens : List JinjaToken) : Nat × Option BinaryOp :=
  if check .kwNot tokens && checkNext .kwIn tokens then (binaryPrecedence .kwIn, some .notIn)
  else if check .kwIs tokens && checkNext .kwNot tokens then
    (binaryPrecedence .kwIs, some .isNot)
  else (binaryPrecedence (peek tokens).type, none)

/-- What `parseExpression` moves over before it reads the right operand. -/
def takeOperator (compound : Option BinaryOp) (tokens : List JinjaToken) :
    Except Failure (Parsed BinaryOp) :=
  match compound with
  | some operation => .ok (operation, advance (advance tokens))
  | none => (binaryOp (peek tokens).type).map (·, advance tokens)

def parseRight (operation : BinaryOp) (precedence : Nat) (tokens : List JinjaToken) :
    Except Failure (Parsed (ExprNode D)) :=
  let rightPrecedence := if operation = .pow then precedence - 1 else precedence
  if operation = .is ∨ operation = .isNot then
    match parseTestName tokens with
    | some right => .ok (right, advance tokens)
    | none => expression rightPrecedence tokens
  else expression rightPrecedence tokens

/-- The loop of `parseExpression` over the operators behind its first operand. -/
def parseOperators (minPrecedence : Nat) : Nat → ExprNode D → Parser (ExprNode D)
  | 0, _, _ => .error .outOfFuel
  | turn + 1, left, tokens =>
    let (precedence, compound) := operatorAt tokens
    if precedence ≤ minPrecedence then .ok (left, tokens)
    else do
      let (operation, tokens) ← takeOperator compound tokens
      let (right, tokens) ← parseRight expression operation precedence tokens
      let (left, tokens) ←
        parsePostfix expression (tokens.length + 1)
          (.binaryOp left.pos operation (some left) (some right)) tokens
      parseOperators minPrecedence turn left tokens

def parseConditional (e : ExprNode D) (tokens : List JinjaToken) :
    Except Failure (Parsed (ExprNode D)) :=
  if check .kwIf tokens then do
    let (condition, tokens) ← expression 0 (advance tokens)
    if check .kwElse tokens then
      let (falseValue, tokens) ← expression 0 (advance tokens)
      return (.conditional e.pos (some condition) (some e) (some falseValue), tokens)
    else return (.conditional e.pos (some condition) (some e) none, tokens)
  else .ok (e, tokens)

/-- The first operand of `parseExpression` with what is postfixed to it. -/
def parseOperand (stod : Text → Option (D × Nat)) (tokens : List JinjaToken) :
    Except Failure (Parsed (ExprNode D)) := do
  let (e, tokens) ← parsePrimary expression stod tokens
  parsePostfix expression (tokens.length + 1) e tokens

/-- `parseExpression` up to its conditional. -/
def parseBinary (stod : Text → Option (D × Nat)) (minPrecedence : Nat)
    (tokens : List JinjaToken) : Except Failure (Parsed (ExprNode D)) := do
  let (left, tokens) ← parseOperand expression stod tokens
  parseOperators expression minPrecedence (tokens.length + 1) left tokens

/-- The body of `parseExpression`, over the function it calls itself by. -/
def expressionBody (stod : Text → Option (D × Nat)) : ExpressionParser D :=
  fun minPrecedence tokens => do
    let (left, tokens) ← parseBinary expression stod minPrecedence tokens
    if minPrecedence = 0 then parseConditional expression left tokens
    else return (left, tokens)

end

section

variable {D : Type} (stod : Text → Option (D × Nat))

def parseExpression : Nat → ExpressionParser D
  | 0 => fun _ _ => .error .outOfFuel
  | depth + 1 => expressionBody (parseExpression depth) stod

/-- `parseExpression` with depth for all the tokens. -/
def wholeExpression (tokens : List JinjaToken) : Except Failure (Parsed (ExprNode D)) :=
  parseExpression stod (tokens.length + 1) 0 tokens

/-- The loop of `parseBlock`. -/
def parseStatements (stopTokens : List JinjaType)
    (statement : Parser (StmtNode D)) :
    Nat → List JinjaToken → Except Failure (Parsed (List (Option (StmtNode D))))
  | 0, _ => .error .outOfFuel
  | turn + 1, tokens =>
    if isAtEnd tokens || stopTokens.any fun stop => checkBlockKeyword stop tokens then
      .ok ([], tokens)
    else do
      let (s, tokens) ← statement tokens
      let (statements, tokens) ← parseStatements stopTokens statement turn tokens
      return (some s :: statements, tokens)

def parseBlock (statement : Parser (StmtNode D)) (stopTokens : List JinjaType)
    (tokens : List JinjaToken) : Except Failure (Parsed (BodyNode D)) := do
  let pos := (peek tokens).pos
  let (statements, tokens) ← parseStatements stopTokens statement (tokens.length + 1) tokens
  return (.mk pos statements, tokens)

def parseOutputStatement (pos : Position) (tokens : List JinjaToken) :
    Except Failure (Parsed (StmtNode D)) := do
  let (e, tokens) ← wholeExpression stod tokens
  let (_, tokens) ← consume .exprEnd "Expected '\x7d\x7d' or '-\x7d\x7d' after expression" tokens
  return (.output pos (some e), tokens)

def parseSetStatement (pos : Position) (tokens : List JinjaToken) :
    Except Failure (Parsed (StmtNode D)) := do
  let (identifier, tokens) ← consume .identifier "Expected identifier after 'set'" tokens
  let (_, tokens) ← consume .assign "Expected '=' in set statement" tokens
  let (e, tokens) ← wholeExpression stod tokens
  let (_, tokens) ← consume .blockEnd "Expected '%\x7d' or '-%\x7d' after set statement" tokens
  return (.set pos identifier.text (some e), tokens)

variable (block : List JinjaType → Parser (BodyNode D))

abbrev Branch (D : Type) : Type := Option (ExprNode D) × Option (BodyNode D)

/-- A condition with the body it guards. -/
def parseBranch (message : String) (tokens : List JinjaToken) :
    Except Failure (Parsed (Branch D)) := do
  let (condition, tokens) ← wholeExpression stod tokens
  let (_, tokens) ← consume .blockEnd message tokens
  let (body, tokens) ← block [.kwElif, .kwElse, .kwEndIf] tokens
  return ((some condition, some body), tokens)

def parseElifs : Nat → Parser (List (Branch D))
  | 0, _ => .error .outOfFuel
  | turn + 1, tokens =>
    if checkBlockKeyword .kwElif tokens then do
      let (_, tokens) ← consume .blockBegin "Expected '\x7b%' before 'elif'" tokens
      let (_, tokens) ← consume .kwElif "Expected 'elif'" tokens
      let (branch, tokens) ←
        parseBranch stod block "Expected '%\x7d' or '-%\x7d' after elif condition" tokens
      let (branches, tokens) ← parseElifs turn tokens
      return (branch :: branches, tokens)
    else .ok ([], tokens)

/-- The `else` of an `if` or a `for`, when there is one. -/
def parseElse (message : String) (stopTokens : List JinjaType) (tokens : List JinjaToken) :
    Except Failure (Parsed (Option (BodyNode D))) :=
  if checkBlockKeyword .kwElse tokens then do
    let (_, tokens) ← consume .blockBegin "Expected '\x7b%' before 'else'" tokens
    let (_, tokens) ← consume .kwElse "Expected 'else'" tokens
    let (_, tokens) ← consume .blockEnd message tokens
    let (body, tokens) ← block stopTokens tokens
    return (some body, tokens)
  else .ok (none, tokens)

def parseIfStatement (pos : Position) (tokens : List JinjaToken) :
    Except Failure (Parsed (StmtNode D)) := do
  let (branch, tokens) ←
    parseBranch stod block "Expected '%\x7d' or '-%\x7d' after if condition" tokens
  let (branches, tokens) ← parseElifs stod block (tokens.length + 1) tokens
  let (elseBody, tokens) ←
    parseElse block "Expected '%\x7d' or '-%\x7d' after else" [.kwEndIf] tokens
  let (_, tokens) ← consume .blockBegin "Expected '\x7b%' before 'endif'" tokens
  let (_, tokens) ← consume .kwEndIf "Expected 'endif' to close if block" tokens
  let (_, tokens) ← consume .blockEnd "Expected '%\x7d' or '-%\x7d' after endif" tokens
  let elseBranch := elseBody.toList.map fun body => (none, some body)
  return (.ifNode pos (branch :: branches ++ elseBranch), tokens)

def parseTargets : Nat → Parser (List Text)
  | 0, _ => .error .outOfFuel
  | turn + 1, tokens =>
    if check .comma tokens then do
      let (target, tokens) ←
        consume .identifier "Expected loop variable name after ','" (advance tokens)
      let (targets, tokens) ← parseTargets turn tokens
      return (target.text :: targets, tokens)
    else .ok ([], tokens)

def parseForStatement (pos : Position) (tokens : List JinjaToken) :
    Except Failure (Parsed (StmtNode D)) := do
  let (firstTarget, tokens) ← consume .identifier "Expected loop variable name" tokens
  let (targets, tokens) ← parseTargets (tokens.length + 1) tokens
  let (_, tokens) ← consume .kwIn "Expected 'in' keyword in for loop" tokens
  let (iterable, tokens) ← wholeExpression stod tokens
  let (_, tokens) ← consume .blockEnd "Expected '%\x7d' or '-%\x7d' after for loop header" tokens
  let (body, tokens) ← block [.kwElse, .kwEndFor] tokens
  let (elseBody, tokens) ←
    parseElse block "Expected '%\x7d' or '-%\x7d' after for-else" [.kwEndFor] tokens
  let (_, tokens) ← consume .blockBegin "Expected '\x7b%' before 'endfor'" tokens
  let (_, tokens) ← consume .kwEndFor "Expected 'endfor' to close loop" tokens
  let (_, tokens) ← consume .blockEnd "Expected '%\x7d' or '-%\x7d' after endfor" tokens
  return (.forNode pos (firstTarget.text :: targets) (some iterable) (some body) elseBody, tokens)

/-- The body of `parseStatement`, over the `parseBlock` its statements are read by. -/
def statementBody (tokens : List JinjaToken) : Except Failure (Parsed (StmtNode D)) :=
  let token := peek tokens
  match token.type with
  | .text => .ok (.text token.pos token.text, advance tokens)
  | .exprBegin => parseOutputStatement stod token.pos (advance tokens)
  | .blockBegin =>
    let keyword := peekNext tokens
    match keyword.type with
    | .kwIf => parseIfStatement stod block keyword.pos (advance (advance tokens))
    | .kwFor => parseForStatement stod block keyword.pos (advance (advance tokens))
    | .kwSet => parseSetStatement stod keyword.pos (advance (advance tokens))
    | _ => .error (.parseError "Unexpected template control block" token.pos)
  | .unknown => .error (.parseError "Invalid token" token.pos)
  | _ => .error (.parseError "Unexpected token while parsing template" token.pos)

end

section

variable {D : Type} (stod : Text → Option (D × Nat))

def parseStatement : Nat → Parser (StmtNode D)
  | 0 => fun _ => .error .outOfFuel
  | depth + 1 => statementBody stod (parseBlock (parseStatement depth))

def parse (tokens : List JinjaToken) : Except Failure (BodyNode D) :=
  (parseBlock (parseStatement stod (tokens.length + 1)) [] tokens).map (·.1)

end

end JobTokenizer.JinjaParser
