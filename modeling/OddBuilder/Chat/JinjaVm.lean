import OddBuilder.Chat.JinjaValue

/-!
# The template machine

`JinjaVM` over its output, its last expression value and its scopes, the innermost
scope first. A visitor of expressions leaves its result in the last expression value,
where `eval` picks it up. Registered functions may do integer steps of their own; an
undefined step ends a run without a result.
-/

namespace JobTokenizer

variable {D : Type}

abbrev FilterFn (D : Type) : Type := Value D → List (Value D) → ValueMap D → Value D

abbrev FunctionFn (D : Type) : Type := List (Value D) → ValueMap D → Traced IntStep (Value D)

/-- The loop of `range`: the counters that `before` lets through. -/
def rangeLoop (before : Int64 → Bool) (step : Int64) :
    Nat → Int64 → Traced IntStep (List Int64)
  | 0, _ => Traced.fail
  | turn + 1, i =>
    if before i then do
      let next ← IntStep.perform (.count i step)
      let rest ← rangeLoop before step turn next
      return i :: rest
    else pure []

/-- `range` of three numbers; a step of zero counts as one. -/
def rangeOf (start stop step : Int64) : Traced IntStep (List Int64) := do
  Traced.report (.range start stop step)
  let step := if step = 0 then 1 else step
  let turns := (stop.toInt - start.toInt).natAbs + 1
  if 0 < step then rangeLoop (fun i => i < stop) step turns start
  else rangeLoop (fun i => stop < i) step turns start

namespace JinjaVM

variable (platform : Platform D)

def range : FunctionFn D := fun posArgs _ => do
  let (start, stop, step) : Int64 × Int64 × Int64 :=
    match posArgs with
    | [] => (0, 0, 1)
    | [stop] => (0, stop.asInt platform, 1)
    | [start, stop] => (start.asInt platform, stop.asInt platform, 1)
    | start :: stop :: step :: _ =>
      (start.asInt platform, stop.asInt platform, step.asInt platform)
  let counters ← rangeOf start stop step
  return .list (counters.map .int)

def isBlank (c : UInt8) : Bool := c = 32 || c = 9 || c = 10 || c = 13

def trim (text : Text) : Text :=
  ((text.dropWhile isBlank).reverse.dropWhile isBlank).reverse

def lower (c : UInt8) : UInt8 := if 65 ≤ c ∧ c ≤ 90 then c + 32 else c

def upper (c : UInt8) : UInt8 := if 97 ≤ c ∧ c ≤ 122 then c - 32 else c

/-- The filters of `registerDefaultBuiltins`. -/
def defaultFilters (name : Text) : Option (FilterFn D) :=
  if name = ascii "trim" then some fun target _ _ => .string (trim (target.toText platform))
  else if name = ascii "lower" then
    some fun target _ _ => .string ((target.toText platform).map lower)
  else if name = ascii "upper" then
    some fun target _ _ => .string ((target.toText platform).map upper)
  else if name = ascii "length" ∨ name = ascii "count" then
    some fun target _ _ => .int (Int64.ofNat target.length)
  else if name = ascii "first" then some fun target _ _ =>
    match target with
    | .list (v :: _) => v
    | .string (c :: _) => .string [c]
    | _ => .none
  else if name = ascii "last" then some fun target _ _ =>
    match target with
    | .list vs => vs.getLast?.getD .none
    | .string text => (text.getLast?.map fun c => Value.string [c]).getD .none
    | _ => .none
  else if name = ascii "default" then some fun target args _ =>
    if target.isNone || !target.isTruthy platform then args.head?.getD (.string []) else target
  else if name = ascii "join" then some fun target args _ =>
    match target with
    | .list vs =>
      .string (Value.joined ((args.head?.map (Value.toText platform)).getD [])
        (Value.texts platform vs))
    | _ => target
  else none

def defaultFunctions (name : Text) : Option (FunctionFn D) :=
  if name = ascii "range" then some (range platform) else none

end JinjaVM

structure JinjaVM (D : Type) where
  platform : Platform D
  filters : Text → Option (FilterFn D)
  functions : Text → Option (FunctionFn D)

/-- The machine as it is constructed. -/
def JinjaVM.default (platform : Platform D) : JinjaVM D :=
  ⟨platform, JinjaVM.defaultFilters platform, JinjaVM.defaultFunctions platform⟩

structure VmState (D : Type) where
  outputBuffer : Text := []
  lastExpressionValue : Value D := .none
  scopes : List (ValueMap D) := []

abbrev Vm (D α : Type) : Type := StateT (VmState D) (Traced IntStep) α

namespace JinjaVM

def setLast (value : Value D) : Vm D Unit :=
  modify fun s => { s with lastExpressionValue := value }

def appendOutput (text : Text) : Vm D Unit :=
  modify fun s => { s with outputBuffer := s.outputBuffer ++ text }

def pushScope (scope : ValueMap D) : Vm D Unit :=
  modify fun s => { s with scopes := scope :: s.scopes }

def popScope : Vm D Unit := modify fun s => { s with scopes := s.scopes.tail }

/-- `setVariable` on the scopes. -/
def setIn (name : Text) (value : Value D) : List (ValueMap D) → List (ValueMap D)
  | [] => [ValueMap.insert [] name value]
  | scope :: scopes => scope.insert name value :: scopes

def setVariable (name : Text) (value : Value D) : Vm D Unit :=
  modify fun s => { s with scopes := setIn name value s.scopes }

/-- The innermost scope that has the name decides. -/
def getVariable (name : Text) (scopes : List (ValueMap D)) : Value D :=
  (scopes.findSome? fun scope => scope.find name).getD .none

variable (platform : Platform D)

def unaryValue : UnaryOp → Value D → Traced IntStep (Value D)
  | .not, operand => pure (.bool !operand.isTruthy platform)
  | .negate, .float value => pure (.float (platform.neg value))
  | .negate, operand => .int <$> IntStep.perform (.neg (operand.asInt platform))
  | .pos, operand => pure operand

/-- An operation on two numbers, in floating point if one of them is. -/
def numeric (left right : Value D) (float : D → D → D) (int : Int64 → Int64 → IntStep) :
    Traced IntStep (Value D) :=
  if left.isFloat || right.isFloat then
    pure (.float (float (left.asFloat platform) (right.asFloat platform)))
  else .int <$> IntStep.perform (int (left.asInt platform) (right.asInt platform))

def isIn (left right : Value D) : Bool :=
  match right with
  | .list vs => vs.any fun v => Value.equals platform v left
  | .map entries => (ValueMap.find entries (left.toText platform)).isSome
  | .string text => Value.containsText text (left.toText platform)
  | _ => false

/-- The test of `is`: `even` and `odd` take a remainder. -/
def isTest (left : Value D) (test : Text) (right : Value D) : Traced IntStep Bool :=
  if test = ascii "defined" then pure !left.isNone
  else if test = ascii "none" then pure left.isNone
  else if test = ascii "even" then
    match left with
    | .int value => do
      let remainder ← IntStep.perform (.rem value 2)
      return remainder == 0
    | _ => pure false
  else if test = ascii "odd" then
    match left with
    | .int value => do
      let remainder ← IntStep.perform (.rem value 2)
      return remainder != 0
    | _ => pure false
  else if test = ascii "string" then pure left.isString
  else if test = ascii "number" then pure left.isNumber
  else if test = ascii "true" then
    pure (match left with
      | .bool value => value
      | _ => false)
  else if test = ascii "false" then
    pure (match left with
      | .bool value => !value
      | _ => false)
  else pure (Value.equals platform left right)

/-- The operators that evaluate both operands. -/
def binaryValue (op : BinaryOp) (left right : Value D) : Traced IntStep (Value D) :=
  match op with
  | .add =>
    if left.isString || right.isString then
      pure (.string (left.toText platform ++ right.toText platform))
    else numeric platform left right platform.add .add
  | .sub => numeric platform left right platform.sub .sub
  | .mul => numeric platform left right platform.mul .mul
  | .div =>
    pure (.float (if platform.isZero (right.asFloat platform) then platform.zero
      else platform.div (left.asFloat platform) (right.asFloat platform)))
  | .floorDiv =>
    pure (.float (if platform.isZero (right.asFloat platform) then platform.zero
      else platform.floor (platform.div (left.asFloat platform) (right.asFloat platform))))
  | .mod =>
    if right.asInt platform = 0 then pure (.int 0)
    else .int <$> IntStep.perform (.rem (left.asInt platform) (right.asInt platform))
  | .pow => pure (.float (platform.pow (left.asFloat platform) (right.asFloat platform)))
  | .concat => pure (.string (left.toText platform ++ right.toText platform))
  | .eq => pure (.bool (Value.equals platform left right))
  | .ne => pure (.bool !Value.equals platform left right)
  | .lt => pure (.bool (Value.lessThan platform left right))
  | .le => pure (.bool (Value.lessEqual platform left right))
  | .gt => pure (.bool (Value.lessThan platform right left))
  | .ge => pure (.bool (Value.lessEqual platform right left))
  | .isIn => pure (.bool (isIn platform left right))
  | .notIn => pure (.bool !isIn platform left right)
  | .is => .bool <$> isTest platform left (right.toText platform) right
  | .isNot => (fun found => .bool !found) <$> isTest platform left (right.toText platform) right
  | .and | .or => pure .none

def literalValue : LiteralValue D → Value D
  | .null => .none
  | .bool value => .bool value
  | .int value => .int value
  | .float value => .float value
  | .string value => .string value

/-- `callMember`. -/
def callMember (object : Value D) (member : Text) : Value D :=
  match object with
  | .map entries =>
    if member = ascii "items" then
      .list ((platform.arrange entries).map fun entry => .list [.string entry.1, entry.2])
    else .none
  | _ => .none

/-- What a call calls. -/
inductive Callee (D : Type) where
  | member (object : Value D) (name : Text)
  | function (name : Text)

variable (vm : JinjaVM D)

def callValue (posArgs : List (Value D)) (kwArgs : ValueMap D) :
    Callee D → Traced IntStep (Value D)
  | .member object name => pure (callMember vm.platform object name)
  | .function name =>
    match vm.functions name with
    | some function => function posArgs kwArgs
    | none => pure .none

def filterValue (name : Text) (target : Value D) (args : List (Value D)) (kwArgs : ValueMap D) :
    Value D :=
  match vm.filters name with
  | some filter => filter target args kwArgs
  | none => target

mutual

def visitExpr : ExprNode D → Vm D Unit
  | .literal _ value => setLast (literalValue value)
  | .identifier _ name => do setLast (getVariable name (← get).scopes)
  | .unaryOp _ op operand => do
    let operand ← evalOption operand
    setLast (← unaryValue vm.platform op operand)
  | .binaryOp _ .and left right => do
    let left ← evalOption left
    if left.isTruthy vm.platform then setLast (← evalOption right) else setLast left
  | .binaryOp _ .or left right => do
    let left ← evalOption left
    if left.isTruthy vm.platform then setLast left else setLast (← evalOption right)
  | .binaryOp _ op left right => do
    let left ← evalOption left
    let right ← evalOption right
    setLast (← binaryValue vm.platform op left right)
  | .conditional _ none _ _ => setLast .none
  | .conditional _ (some condition) trueValue falseValue => do
    visitExpr condition
    if (← get).lastExpressionValue.isTruthy vm.platform then setLast (← evalOption trueValue)
    else setLast (← evalOption falseValue)
  | .memberAccess _ object member => do
    let object ← evalOption object
    setLast (← object.getItem vm.platform (.string member))
  | .subscript _ object index => do
    let object ← evalOption object
    let index ← evalOption index
    setLast (← object.getItem vm.platform index)
  | .call _ callee posArgs kwArgs => do
    let posArgs ← evalList posArgs
    let kwArgs ← evalKeywords kwArgs []
    let callee ← evalCallee callee
    setLast (← callValue vm posArgs kwArgs callee)
  | .filter _ target name args kwArgs => do
    let target ← evalOption target
    let args ← evalList args
    let kwArgs ← evalKeywords kwArgs []
    setLast (filterValue vm name target args kwArgs)
  | .list _ elements => do
    let elements ← evalList elements
    setLast (.list elements)
  | .dict _ pairs => do
    let map ← evalPairs pairs []
    setLast (.map map)

/-- `eval`, and no value for an absent expression. -/
def evalOption : Option (ExprNode D) → Vm D (Value D)
  | none => pure .none
  | some e => do
    visitExpr e
    return (← get).lastExpressionValue

def evalList : List (ExprNode D) → Vm D (List (Value D))
  | [] => pure []
  | e :: es => do
    visitExpr e
    let value := (← get).lastExpressionValue
    let values ← evalList es
    return value :: values

def evalKeywords : List (Text × ExprNode D) → ValueMap D → Vm D (ValueMap D)
  | [], map => pure map
  | (name, e) :: es, map => do
    visitExpr e
    evalKeywords es (map.insert name (← get).lastExpressionValue)

def evalPairs : List (ExprNode D × ExprNode D) → ValueMap D → Vm D (ValueMap D)
  | [], map => pure map
  | (key, value) :: es, map => do
    visitExpr key
    let key := (← get).lastExpressionValue
    visitExpr value
    evalPairs es (map.insert (key.toText vm.platform) (← get).lastExpressionValue)

/-- The function name is empty when the callee is no identifier. -/
def evalCallee : Option (ExprNode D) → Vm D (Callee D)
  | some (.memberAccess _ object member) => do
    let object ← evalOption object
    return .member object member
  | some (.identifier _ name) => pure (.function name)
  | _ => pure (.function [])

end

/-- What a `for` runs over: the elements of a list or the keys of a map. -/
def itemsOf : Value D → List (Value D)
  | .list values => values
  | .map entries => (platform.arrange entries).map fun entry => .string entry.1
  | _ => []

/-- The variable `loop` of the iteration `i`. -/
def loopValue (items : List (Value D)) (i : Nat) : Value D :=
  .map ([(ascii "index0", .int (Int64.ofNat i)), (ascii "index", .int (Int64.ofNat (i + 1))),
      (ascii "first", .bool (i = 0)), (ascii "last", .bool (i = items.length - 1)),
      (ascii "length", .int (Int64.ofNat items.length))] ++
    (if 0 < i then [(ascii "previtem", (items[i - 1]?).getD .none)] else []) ++
    if i + 1 < items.length then [(ascii "nextitem", (items[i + 1]?).getD .none)] else [])

/-- The variables that the targets of a loop get from an item. -/
def bindings (targets : List Text) (item : Value D) : List (Text × Value D) :=
  match targets with
  | [target] => [(target, item)]
  | targets =>
    match item with
    | .list values => targets.zip values
    | _ => []

def setVariables : List (Text × Value D) → Vm D Unit
  | [] => pure ()
  | (name, value) :: rest => do
    setVariable name value
    setVariables rest

/-- Between `pushScope` and `popScope`. -/
def inScope (inner : Vm D Unit) : Vm D Unit := do
  pushScope []
  inner
  popScope

/-- One round of a `for`. -/
def iteration (targets : List Text) (items : List (Value D)) (body : Vm D Unit) (i : Nat) :
    Vm D Unit :=
  inScope do
    setVariable (ascii "loop") (loopValue items i)
    setVariables (bindings targets ((items[i]?).getD .none))
    body

/-- The first rounds of a `for`. -/
def iterations (targets : List Text) (items : List (Value D)) (body : Vm D Unit) : Nat → Vm D Unit
  | 0 => pure ()
  | n + 1 => do
    iterations targets items body n
    iteration targets items body n

mutual

def visitStmt : StmtNode D → Vm D Unit
  | .text _ text => appendOutput text
  | .output _ none => pure ()
  | .output _ (some e) => do
    visitExpr vm e
    appendOutput ((← get).lastExpressionValue.toText vm.platform)
  | .ifNode _ branches => visitBranches branches
  | .forNode _ _ none _ _ => pure ()
  | .forNode _ targets (some iterable) body elseBody => do
    visitExpr vm iterable
    let items := itemsOf vm.platform (← get).lastExpressionValue
    if items.isEmpty then visitOption elseBody
    else iterations targets items (visitOption body) items.length
  | .set _ _ none => pure ()
  | .set _ name (some value) => do
    visitExpr vm value
    setVariable name (← get).lastExpressionValue
  | .body node => visitBody node

def visitBody : BodyNode D → Vm D Unit
  | .mk _ statements => visitAll statements

def visitOption : Option (BodyNode D) → Vm D Unit
  | none => pure ()
  | some node => visitBody node

def visitAll : List (Option (StmtNode D)) → Vm D Unit
  | [] => pure ()
  | none :: statements => visitAll statements
  | some s :: statements => do
    visitStmt s
    visitAll statements

/-- The first branch whose condition holds, or that has none. -/
def visitBranches : List (Option (ExprNode D) × Option (BodyNode D)) → Vm D Unit
  | [] => pure ()
  | (none, body) :: _ => visitOption body
  | (some condition, body) :: branches => do
    visitExpr vm condition
    if (← get).lastExpressionValue.isTruthy vm.platform then visitOption body
    else visitBranches branches

end

def execute (root : BodyNode D) (context : ValueMap D) : Vm D Text := do
  set ({ lastExpressionValue := (← get).lastExpressionValue, scopes := [context] } : VmState D)
  visitBody vm root
  popScope
  return (← get).outputBuffer

def evaluate (e : ExprNode D) (context : ValueMap D) : Vm D (Value D) := do
  modify fun s => { s with scopes := [context] }
  visitExpr vm e
  let value := (← get).lastExpressionValue
  popScope
  return value

end JinjaVM

end JobTokenizer
