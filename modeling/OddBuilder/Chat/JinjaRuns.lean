import OddBuilder.Chat.JinjaVm

/-!
# What holds of every part of a run holds of the run

A property of computations that sequencing keeps, and that the machine's own
operations have, is a property of every visitor. The induction over expressions and
the one over statements are made here, once for all such properties.
-/

namespace JobTokenizer

variable {D : Type}

/-- A step of an operator, as against one of `range`. -/
def IntStep.ofOperator : IntStep → Bool
  | .count _ _ => false
  | .range _ _ _ => false
  | _ => true

namespace JinjaVM

/-- A property of traced computations that the operators and the registered functions have. -/
structure TracedInvariant (vm : JinjaVM D) (Q : ∀ {α : Type}, Traced IntStep α → Prop) : Prop where
  pure : ∀ {α : Type} (a : α), Q (pure a)
  bind : ∀ {α β : Type} {x : Traced IntStep α} {f : α → Traced IntStep β},
    Q x → (∀ a, Q (f a)) → Q (x >>= f)
  perform : ∀ s : IntStep, s.ofOperator = true → Q s.perform
  function : ∀ name function, vm.functions name = some function →
    ∀ posArgs kwArgs, Q (function posArgs kwArgs)

namespace TracedInvariant

variable {vm : JinjaVM D} {Q : ∀ {α : Type}, Traced IntStep α → Prop}

theorem map (h : TracedInvariant vm Q) {α β : Type} (f : α → β) {x : Traced IntStep α} (hx : Q x) :
    Q (f <$> x) := h.bind hx fun a => h.pure (f a)

theorem unary (h : TracedInvariant vm Q) (platform : Platform D) (op : UnaryOp)
    (operand : Value D) : Q (unaryValue platform op operand) := by
  cases op with
  | not => exact h.pure _
  | negate =>
    cases operand with
    | float value => exact h.pure _
    | _ => exact h.map _ (h.perform _ rfl)
  | pos => exact h.pure _

theorem twoNumbers (h : TracedInvariant vm Q) (platform : Platform D) (left right : Value D)
    (float : D → D → D) {int : Int64 → Int64 → IntStep} (hint : ∀ a b, (int a b).ofOperator = true) :
    Q (numeric platform left right float int) := by
  unfold numeric
  split
  · exact h.pure _
  · exact h.map _ (h.perform _ (hint _ _))

theorem test (h : TracedInvariant vm Q) (platform : Platform D) (left : Value D) (test : Text)
    (right : Value D) : Q (isTest platform left test right) := by
  have hremainder : ∀ (value : Int64) (found : Int64 → Bool),
      Q (do let remainder ← IntStep.perform (.rem value 2); return found remainder) :=
    fun value found => h.bind (h.perform _ rfl) fun a => h.pure _
  unfold isTest
  split
  · exact h.pure _
  split
  · exact h.pure _
  split
  · cases left with
    | int value => exact hremainder value fun remainder => remainder == 0
    | _ => exact h.pure _
  split
  · cases left with
    | int value => exact hremainder value fun remainder => remainder != 0
    | _ => exact h.pure _
  repeat' split
  all_goals exact h.pure _

theorem binary (h : TracedInvariant vm Q) (platform : Platform D) (op : BinaryOp)
    (left right : Value D) : Q (binaryValue platform op left right) := by
  cases op with
  | add =>
    simp only [binaryValue]
    split
    · exact h.pure _
    · exact h.twoNumbers platform left right _ fun _ _ => rfl
  | sub => exact h.twoNumbers platform left right _ fun _ _ => rfl
  | mul => exact h.twoNumbers platform left right _ fun _ _ => rfl
  | mod =>
    simp only [binaryValue]
    split
    · exact h.pure _
    · exact h.map _ (h.perform _ rfl)
  | is => exact h.map _ (h.test platform left _ right)
  | isNot => exact h.map _ (h.test platform left _ right)
  | _ => exact h.pure _

theorem position (h : TracedInvariant vm Q) (index : Int64) (size : Nat) :
    Q (Value.position index size) := by
  refine h.bind ?_ fun _ => h.pure _
  unfold Value.fromStart
  split
  · exact h.perform _ rfl
  · exact h.pure _

theorem item (h : TracedInvariant vm Q) (platform : Platform D) (object key : Value D) :
    Q (object.getItem platform key) := by
  cases object with
  | list value => exact h.bind (h.position _ _) fun _ => h.pure _
  | string value => exact h.bind (h.position _ _) fun _ => h.pure _
  | _ => exact h.pure _

theorem called (h : TracedInvariant vm Q) (posArgs : List (Value D)) (kwArgs : ValueMap D)
    (callee : Callee D) : Q (callValue vm posArgs kwArgs callee) := by
  cases callee with
  | member object name => exact h.pure _
  | function name =>
    unfold callValue
    dsimp only
    split
    · next function hfunction => exact h.function name function hfunction posArgs kwArgs
    · exact h.pure _

end TracedInvariant

/-- A property of computations of the machine that the visitors of expressions have. -/
structure ExprInvariant (vm : JinjaVM D) (P : ∀ {α : Type}, Vm D α → Prop) : Prop where
  pure : ∀ {α : Type} (a : α), P (pure a)
  bind : ∀ {α β : Type} {x : Vm D α} {f : α → Vm D β}, P x → (∀ a, P (f a)) → P (x >>= f)
  get : P (get : Vm D (VmState D))
  setLast : ∀ value, P (setLast value)
  traced : TracedInvariant vm fun {α} x => P (liftM x : Vm D α)

namespace ExprInvariant

variable {vm : JinjaVM D} {P : ∀ {α : Type}, Vm D α → Prop}

theorem result (h : ExprInvariant vm P) {x : Traced IntStep (Value D)}
    (hx : P (liftM x : Vm D (Value D))) : P (liftM x >>= JinjaVM.setLast) := h.bind hx h.setLast

/-- What goes on with the value that a visitor has left. -/
theorem last (h : ExprInvariant vm P) {α : Type} {f : Value D → Vm D α}
    (hf : ∀ value, P (f value)) : P (MonadState.get >>= fun s => f s.lastExpressionValue) :=
  h.bind h.get fun s => hf s.lastExpressionValue

mutual

theorem expr (h : ExprInvariant vm P) : ∀ e : ExprNode D, P (visitExpr vm e)
  | .literal _ value => h.setLast (literalValue value)
  | .identifier _ name => h.bind h.get fun s => h.setLast (getVariable name s.scopes)
  | .unaryOp _ op operand =>
    h.bind (h.option operand) fun operand => h.result (h.traced.unary _ op operand)
  | .binaryOp _ op left right => by
    have hleft := h.option left
    have hright := h.option right
    cases op with
    | and =>
      refine h.bind hleft fun value => ?_
      split
      · exact h.bind hright h.setLast
      · exact h.setLast value
    | or =>
      refine h.bind hleft fun value => ?_
      split
      · exact h.setLast value
      · exact h.bind hright h.setLast
    | _ =>
      exact h.bind hleft fun left => h.bind hright fun right =>
        h.result (h.traced.binary _ _ left right)
  | .conditional _ none _ _ => h.setLast Value.none
  | .conditional _ (some condition) trueValue falseValue => by
    have htrue := h.option trueValue
    have hfalse := h.option falseValue
    refine h.bind (h.expr condition) fun _ => h.bind h.get fun state => ?_
    split
    · exact h.bind htrue h.setLast
    · exact h.bind hfalse h.setLast
  | .memberAccess _ object _ =>
    h.bind (h.option object) fun object => h.result (h.traced.item _ object _)
  | .subscript _ object index =>
    h.bind (h.option object) fun object => h.bind (h.option index) fun index =>
      h.result (h.traced.item _ object index)
  | .call _ callee posArgs kwArgs =>
    h.bind (h.list posArgs) fun posArgs => h.bind (h.keywords kwArgs []) fun kwArgs =>
      h.bind (h.callee callee) fun callee => h.result (h.traced.called posArgs kwArgs callee)
  | .filter _ target name args kwArgs =>
    h.bind (h.option target) fun target => h.bind (h.list args) fun args =>
      h.bind (h.keywords kwArgs []) fun kwArgs => h.setLast (filterValue vm name target args kwArgs)
  | .list _ elements => h.bind (h.list elements) fun elements => h.setLast (.list elements)
  | .dict _ pairs => h.bind (h.pairs pairs []) fun map => h.setLast (.map map)

theorem option (h : ExprInvariant vm P) : ∀ e : Option (ExprNode D), P (evalOption vm e)
  | none => h.pure Value.none
  | some e => h.bind (h.expr e) fun _ => h.last h.pure

theorem list (h : ExprInvariant vm P) : ∀ es : List (ExprNode D), P (evalList vm es)
  | [] => h.pure []
  | e :: es => h.bind (h.expr e) fun _ => h.last fun value =>
    h.bind (h.list es) fun values => h.pure (value :: values)

theorem keywords (h : ExprInvariant vm P) :
    ∀ (es : List (Text × ExprNode D)) (map : ValueMap D), P (evalKeywords vm es map)
  | [], map => h.pure map
  | (name, e) :: es, map => h.bind (h.expr e) fun _ => h.last fun value =>
    h.keywords es (map.insert name value)

theorem pairs (h : ExprInvariant vm P) :
    ∀ (es : List (ExprNode D × ExprNode D)) (map : ValueMap D), P (evalPairs vm es map)
  | [], map => h.pure map
  | (key, value) :: es, map => h.bind (h.expr key) fun _ => h.last fun key =>
    h.bind (h.expr value) fun _ => h.last fun value =>
      h.pairs es (map.insert (key.toText vm.platform) value)

theorem callee (h : ExprInvariant vm P) : ∀ e : Option (ExprNode D), P (evalCallee vm e)
  | some (.memberAccess _ object member) =>
    h.bind (h.option object) fun object => h.pure (Callee.member object member)
  | some (.identifier _ name) => h.pure (Callee.function name)
  | some (.literal _ _) => h.pure _
  | some (.unaryOp _ _ _) => h.pure _
  | some (.binaryOp _ _ _ _) => h.pure _
  | some (.conditional _ _ _ _) => h.pure _
  | some (.subscript _ _ _) => h.pure _
  | some (.call _ _ _ _) => h.pure _
  | some (.filter _ _ _ _ _) => h.pure _
  | some (.list _ _) => h.pure _
  | some (.dict _ _) => h.pure _
  | none => h.pure _

end

end ExprInvariant

/-- A property of computations of the machine that the visitors of statements have. -/
structure StmtInvariant (vm : JinjaVM D) (P : ∀ {α : Type}, Vm D α → Prop) : Prop
    extends ExprInvariant vm P where
  appendOutput : ∀ text, P (JinjaVM.appendOutput text)
  setVariable : ∀ name value, P (JinjaVM.setVariable name value)
  inScope : ∀ {inner : Vm D Unit}, P inner → P (JinjaVM.inScope inner)

namespace StmtInvariant

variable {vm : JinjaVM D} {P : ∀ {α : Type}, Vm D α → Prop}

theorem assigned (h : StmtInvariant vm P) :
    ∀ rest : List (Text × Value D), P (setVariables rest)
  | [] => h.pure ()
  | (name, value) :: rest => h.bind (h.setVariable name value) fun _ => h.assigned rest

theorem round (h : StmtInvariant vm P) (targets : List Text) (items : List (Value D))
    {body : Vm D Unit} (hbody : P body) (i : Nat) : P (iteration targets items body i) :=
  h.inScope (h.bind (h.setVariable _ _) fun _ => h.bind (h.assigned _) fun _ => hbody)

theorem rounds (h : StmtInvariant vm P) (targets : List Text) (items : List (Value D))
    {body : Vm D Unit} (hbody : P body) : ∀ n, P (iterations targets items body n)
  | 0 => h.pure ()
  | n + 1 => h.bind (h.rounds targets items hbody n) fun _ => h.round targets items hbody n

mutual

theorem stmt (h : StmtInvariant vm P) : ∀ s : StmtNode D, P (visitStmt vm s)
  | .text _ text => h.appendOutput text
  | .output _ none => h.pure ()
  | .output _ (some e) => h.bind (h.expr e) fun _ => h.last fun value => h.appendOutput _
  | .ifNode _ branches => h.branches branches
  | .forNode _ _ none _ _ => h.pure ()
  | .forNode _ targets (some iterable) body elseBody => by
    have hbody := h.optionalBody body
    have helse := h.optionalBody elseBody
    refine h.bind (h.expr iterable) fun _ => h.bind h.get fun state => ?_
    dsimp only
    split
    · exact helse
    · exact h.rounds targets _ hbody _
  | .set _ _ none => h.pure ()
  | .set _ name (some value) =>
    h.bind (h.expr value) fun _ => h.last fun value => h.setVariable name value
  | .body node => h.body node

theorem body (h : StmtInvariant vm P) : ∀ node : BodyNode D, P (visitBody vm node)
  | .mk _ statements => h.all statements

theorem optionalBody (h : StmtInvariant vm P) : ∀ node : Option (BodyNode D), P (visitOption vm node)
  | none => h.pure ()
  | some node => h.body node

theorem all (h : StmtInvariant vm P) :
    ∀ statements : List (Option (StmtNode D)), P (visitAll vm statements)
  | [] => h.pure ()
  | none :: statements => h.all statements
  | some s :: statements => h.bind (h.stmt s) fun _ => h.all statements

theorem branches (h : StmtInvariant vm P) :
    ∀ branches : List (Option (ExprNode D) × Option (BodyNode D)), P (visitBranches vm branches)
  | [] => h.pure ()
  | (none, body) :: _ => h.optionalBody body
  | (some condition, body) :: branches => by
    have hbody := h.optionalBody body
    have hrest := h.branches branches
    refine h.bind (h.expr condition) fun _ => h.bind h.get fun state => ?_
    split
    · exact hbody
    · exact hrest

end

end StmtInvariant

end JinjaVM

end JobTokenizer
