import OddBuilder.Chat.JinjaTotal

/-!
# Expressions as trees, and how they are written

A tree is an expression without positions and without absent children. It is written
with brackets only around an operand that binds less tightly than its place demands.
What a punctuation token has for its text does not matter, nor does any position.
-/

namespace JobTokenizer

variable {D : Type}

/-- A floating-point literal: a text with a point that `std::stod` reads to its end. -/
structure Decimal (stod : Text → Option (D × Nat)) where
  text : Text
  value : D
  dot : 46 ∈ text
  read : stod text = some (value, text.length)

def BinaryOp.precedence : BinaryOp → Nat
  | .or => 10
  | .and => 20
  | .isIn | .notIn | .is | .isNot | .eq | .ne | .lt | .le | .gt | .ge => 30
  | .concat => 40
  | .add | .sub => 50
  | .mul | .div | .floorDiv | .mod => 60
  | .pow => 70

/-- What the left operand has to bind as tightly as. -/
def BinaryOp.leftDemand (op : BinaryOp) : Nat := if op = .pow then 71 else op.precedence

def BinaryOp.rightDemand (op : BinaryOp) : Nat := if op = .pow then 70 else op.precedence + 1

/-- The binary operators other than `is` and `is not`. -/
abbrev TreeOp : Type := {op : BinaryOp // op ≠ .is ∧ op ≠ .isNot}

def UnaryOp.precedence : UnaryOp → Nat
  | .not => 25
  | .negate | .pos => 65

inductive Tree (stod : Text → Option (D × Nat)) where
  | literal (value : LiteralValue (Decimal stod))
  | identifier (name : Text)
  | unary (op : UnaryOp) (operand : Tree stod)
  | binary (op : TreeOp) (left right : Tree stod)
  | conditional (condition trueValue : Tree stod) (falseValue : Option (Tree stod))
  | member (object : Tree stod) (name : Text)
  | subscript (object index : Tree stod)
  | call (callee : Tree stod) (posArgs : List (Tree stod)) (kwArgs : List (Text × Tree stod))
  | filter (target : Tree stod) (name : Text) (args : List (Tree stod))
      (kwArgs : List (Text × Tree stod))
  | list (elements : List (Tree stod))
  | dict (pairs : List (Tree stod × Tree stod))

def LiteralValue.numbers {stod : Text → Option (D × Nat)} :
    LiteralValue (Decimal stod) → LiteralValue D
  | .null => .null
  | .bool value => .bool value
  | .int value => .int value
  | .float number => .float number.value
  | .string value => .string value

variable {stod : Text → Option (D × Nat)}

mutual

/-- The expression of a tree, with every position left at its default. -/
def Tree.node : Tree stod → ExprNode D
  | .literal value => .literal {} value.numbers
  | .identifier name => .identifier {} name
  | .unary op operand => .unaryOp {} op (some operand.node)
  | .binary op left right => .binaryOp {} op.1 (some left.node) (some right.node)
  | .conditional condition trueValue falseValue =>
    .conditional {} (some condition.node) (some trueValue.node) (optionNode falseValue)
  | .member object name => .memberAccess {} (some object.node) name
  | .subscript object index => .subscript {} (some object.node) (some index.node)
  | .call callee posArgs kwArgs =>
    .call {} (some callee.node) (listNodes posArgs) (keywordNodes kwArgs)
  | .filter target name args kwArgs =>
    .filter {} (some target.node) name (listNodes args) (keywordNodes kwArgs)
  | .list elements => .list {} (listNodes elements)
  | .dict pairs => .dict {} (pairNodes pairs)

def optionNode : Option (Tree stod) → Option (ExprNode D)
  | none => none
  | some t => some t.node

def listNodes : List (Tree stod) → List (ExprNode D)
  | [] => []
  | t :: ts => t.node :: listNodes ts

def keywordNodes : List (Text × Tree stod) → List (Text × ExprNode D)
  | [] => []
  | (name, t) :: ts => (name, t.node) :: keywordNodes ts

def pairNodes : List (Tree stod × Tree stod) → List (ExprNode D × ExprNode D)
  | [] => []
  | (key, value) :: ts => (key.node, value.node) :: pairNodes ts

end

mutual

/-- The expression with every position set back to its default. -/
def ExprNode.erase : ExprNode D → ExprNode D
  | .literal _ value => .literal {} value
  | .identifier _ name => .identifier {} name
  | .unaryOp _ op operand => .unaryOp {} op (eraseOption operand)
  | .binaryOp _ op left right => .binaryOp {} op (eraseOption left) (eraseOption right)
  | .conditional _ condition trueValue falseValue =>
    .conditional {} (eraseOption condition) (eraseOption trueValue) (eraseOption falseValue)
  | .memberAccess _ object name => .memberAccess {} (eraseOption object) name
  | .subscript _ object index => .subscript {} (eraseOption object) (eraseOption index)
  | .call _ callee posArgs kwArgs =>
    .call {} (eraseOption callee) (eraseList posArgs) (eraseKeywords kwArgs)
  | .filter _ target name args kwArgs =>
    .filter {} (eraseOption target) name (eraseList args) (eraseKeywords kwArgs)
  | .list _ elements => .list {} (eraseList elements)
  | .dict _ pairs => .dict {} (erasePairs pairs)

def eraseOption : Option (ExprNode D) → Option (ExprNode D)
  | none => none
  | some e => some e.erase

def eraseList : List (ExprNode D) → List (ExprNode D)
  | [] => []
  | e :: es => e.erase :: eraseList es

def eraseKeywords : List (Text × ExprNode D) → List (Text × ExprNode D)
  | [] => []
  | (name, e) :: es => (name, e.erase) :: eraseKeywords es

def erasePairs : List (ExprNode D × ExprNode D) → List (ExprNode D × ExprNode D)
  | [] => []
  | (key, value) :: es => (key.erase, value.erase) :: erasePairs es

end

theorem eraseList_eq (es : List (ExprNode D)) : eraseList es = es.map ExprNode.erase := by
  induction es with
  | nil => rfl
  | cons e es ih => exact congrArg (e.erase :: ·) ih

theorem eraseKeywords_eq (es : List (Text × ExprNode D)) :
    eraseKeywords es = es.map fun e => (e.1, e.2.erase) := by
  induction es with
  | nil => rfl
  | cons e es ih => exact congrArg ((e.1, e.2.erase) :: ·) ih

theorem erasePairs_eq (es : List (ExprNode D × ExprNode D)) :
    erasePairs es = es.map fun e => (e.1.erase, e.2.erase) := by
  induction es with
  | nil => rfl
  | cons e es ih => exact congrArg ((e.1.erase, e.2.erase) :: ·) ih

theorem listNodes_eq (ts : List (Tree stod)) : listNodes ts = ts.map Tree.node := by
  induction ts with
  | nil => rfl
  | cons t ts ih => exact congrArg (t.node :: ·) ih

theorem keywordNodes_eq (ts : List (Text × Tree stod)) :
    keywordNodes ts = ts.map fun t => (t.1, t.2.node) := by
  induction ts with
  | nil => rfl
  | cons t ts ih => exact congrArg ((t.1, t.2.node) :: ·) ih

theorem pairNodes_eq (ts : List (Tree stod × Tree stod)) :
    pairNodes ts = ts.map fun t => (t.1.node, t.2.node) := by
  induction ts with
  | nil => rfl
  | cons t ts ih => exact congrArg ((t.1.node, t.2.node) :: ·) ih

/-- A token type, with the text of the tokens whose text the parser reads. -/
abbrev Lexeme : Type := JinjaType × Text

def JinjaType.hasText : JinjaType → Bool
  | .identifier | .stringLiteral | .numberLiteral => true
  | _ => false

def JinjaToken.lexeme (token : JinjaToken) : Lexeme :=
  (token.type, if token.type.hasText then token.text else [])

def mark (type : JinjaType) : Lexeme := (type, [])

def BinaryOp.marks : BinaryOp → List Lexeme
  | .add => [mark .plus]
  | .sub => [mark .minus]
  | .mul => [mark .mul]
  | .div => [mark .div]
  | .floorDiv => [mark .floorDiv]
  | .mod => [mark .mod]
  | .pow => [mark .pow]
  | .concat => [mark .tilde]
  | .eq => [mark .eq]
  | .ne => [mark .ne]
  | .lt => [mark .lt]
  | .le => [mark .le]
  | .gt => [mark .gt]
  | .ge => [mark .ge]
  | .and => [mark .kwAnd]
  | .or => [mark .kwOr]
  | .isIn => [mark .kwIn]
  | .notIn => [mark .kwNot, mark .kwIn]
  | .is => [mark .kwIs]
  | .isNot => [mark .kwIs, mark .kwNot]

def UnaryOp.mark : UnaryOp → Lexeme
  | .not => JobTokenizer.mark .kwNot
  | .negate => JobTokenizer.mark .minus
  | .pos => JobTokenizer.mark .plus

/-- A string between its quotes, with every backslash doubled. -/
def escape (text : Text) : Text := text.flatMap fun c => if c = 92 then [92, 92] else [c]

def literalLexeme : LiteralValue (Decimal stod) → Lexeme
  | .null => mark .kwNone
  | .bool true => mark .kwTrue
  | .bool false => mark .kwFalse
  | .int value => (.numberLiteral, JobJson.toChars value.toInt)
  | .float number => (.numberLiteral, number.text)
  | .string value => (.stringLiteral, escape value)

/-- How tightly the outermost construct of a tree binds. -/
def Tree.level : Tree stod → Nat
  | .conditional _ _ _ => 0
  | .binary op _ _ => op.1.precedence
  | .unary op _ => op.precedence
  | _ => 100

/-- A filter written without an argument list, which would take a bracket behind it for its own. -/
def Tree.bare : Tree stod → Bool
  | .filter _ _ [] [] => true
  | _ => false

def bracketed (needed : Bool) (lexemes : List Lexeme) : List Lexeme :=
  if needed then mark .parenOpen :: lexemes ++ [mark .parenClose] else lexemes

def commas : List (List Lexeme) → List Lexeme
  | [] => []
  | [item] => item
  | item :: items => item ++ mark .comma :: commas items

/-- The argument list of a filter, left out when it is empty. -/
def filterArguments (items : List (List Lexeme)) : List Lexeme :=
  if items = [] then [] else mark .parenOpen :: (commas items ++ [mark .parenClose])

mutual

def Tree.write : Tree stod → List Lexeme
  | .literal value => [literalLexeme value]
  | .identifier name => [(.identifier, name)]
  | .unary op operand => op.mark :: bracketed (operand.level < op.precedence) operand.write
  | .binary op left right =>
    bracketed (left.level < op.1.leftDemand) left.write ++
      (op.1.marks ++ bracketed (right.level < op.1.rightDemand) right.write)
  | .conditional condition trueValue falseValue =>
    bracketed (trueValue.level < 1) trueValue.write ++
      mark .kwIf :: (bracketed (condition.level < 1) condition.write ++ writeElse falseValue)
  | .member object name =>
    bracketed (object.level < 100) object.write ++ [mark .dot, (.identifier, name)]
  | .subscript object index =>
    bracketed (object.level < 100) object.write ++
      mark .bracketOpen :: (index.write ++ [mark .bracketClose])
  | .call callee posArgs kwArgs =>
    bracketed (callee.level < 100) callee.write ++
      ((if callee.bare then [mark .parenOpen, mark .parenClose] else []) ++
        mark .parenOpen ::
          (commas (writeAll posArgs ++ writeKeywords kwArgs) ++ [mark .parenClose]))
  | .filter target name args kwArgs =>
    bracketed (target.level < 100) target.write ++
      mark .pipe :: (.identifier, name) ::
        filterArguments (writeAll args ++ writeKeywords kwArgs)
  | .list elements => mark .bracketOpen :: (commas (writeAll elements) ++ [mark .bracketClose])
  | .dict pairs => mark .braceOpen :: (commas (writePairs pairs) ++ [mark .braceClose])

def writeElse : Option (Tree stod) → List Lexeme
  | none => []
  | some t => mark .kwElse :: t.write

def writeAll : List (Tree stod) → List (List Lexeme)
  | [] => []
  | t :: ts => t.write :: writeAll ts

def writeKeywords : List (Text × Tree stod) → List (List Lexeme)
  | [] => []
  | (name, t) :: ts => ((.identifier, name) :: mark .assign :: t.write) :: writeKeywords ts

def writePairs : List (Tree stod × Tree stod) → List (List Lexeme)
  | [] => []
  | (key, value) :: ts => (key.write ++ mark .colon :: value.write) :: writePairs ts

end

end JobTokenizer
