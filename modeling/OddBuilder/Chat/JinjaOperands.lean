import OddBuilder.Chat.JinjaTree

/-!
# How the parser reads operands

The tokens of a tree are read in front of anything that may stand behind it: an
operand hands its expression to the loop that goes on with the tokens behind it, so a
chain of operators or of postfixes is read link by link. Here for the operators, the
literals and the postfixes without arguments.
-/

namespace JobTokenizer

open JinjaParser List JinjaToken

variable {D : Type} {stod : Text → Option (D × Nat)}
variable {token : JinjaToken} {tokens : List JinjaToken} {t : Tree stod} {e : ExprNode D}

theorem type_of_lexeme {lexeme : Lexeme} (h : token.lexeme = lexeme) : token.type = lexeme.1 := congrArg Prod.fst h

theorem text_of_lexeme {type : JinjaType} {text : Text} (h : token.lexeme = (type, text))
    (htype : type.hasText = true) : token.text = text := by
  have hsame : token.type = type := type_of_lexeme h
  have htext := congrArg Prod.snd h
  rwa [lexeme, hsame, if_pos htype] at htext

theorem check_cons (type : JinjaType) (token : JinjaToken) (tokens : List JinjaToken) :
    check type (token :: tokens) = decide (token.type = type) := by
  rw [Bool.eq_iff_iff, check_iff, decide_eq_true_iff]
  by_cases h : token.type = .eof
  · rw [peek, if_pos h, h]
  · rw [peek, if_neg h]

theorem peek_cons (tokens : List JinjaToken) (h : token.type ≠ .eof) :
    peek (token :: tokens) = token := if_neg h

theorem advance_cons (tokens : List JinjaToken) (h : token.type ≠ .eof) :
    advance (token :: tokens) = tokens := if_neg h

/-- A token that goes on with what stands in front of it. -/
def isPostfix : JinjaType → Bool
  | .dot | .bracketOpen | .parenOpen | .pipe => true
  | _ => false

section

variable {E : ExpressionParser D} {turn : Nat} {e : ExprNode D}
variable {rest tokens : List JinjaToken} {token name close : JinjaToken}

theorem parsePostfix_stop (h : isPostfix (peek rest).type = false) :
    parsePostfix E (turn + 1) e rest = .ok (e, rest) := by
  unfold parsePostfix
  split
  case h_1 htype => rw [htype] at h; cases h
  case h_2 htype => rw [htype] at h; cases h
  case h_3 htype => rw [htype] at h; cases h
  case h_4 htype => rw [htype] at h; cases h
  case h_5 => rfl

theorem parsePostfix_dot (htoken : token.type = .dot) (hname : name.type = .identifier) :
    parsePostfix E (turn + 1) e (token :: name :: rest) =
      parsePostfix E turn (.memberAccess e.pos (some e) name.text) rest := by
  obtain ⟨_⟩ := token
  obtain ⟨_⟩ := name
  subst htoken hname
  rfl

theorem parsePostfix_subscript {index : ExprNode D} (htoken : token.type = .bracketOpen)
    (hclose : close.type = .bracketClose) (hindex : E 0 tokens = .ok (index, close :: rest)) :
    parsePostfix E (turn + 1) e (token :: tokens) =
      parsePostfix E turn (.subscript e.pos (some e) (some index)) rest := by
  obtain ⟨_⟩ := token
  obtain ⟨_⟩ := close
  subst htoken hclose
  simp only [parsePostfix, advance_cons, ne_eq, reduceCtorEq, not_false_eq_true, hindex]
  rfl

theorem parsePostfix_call {arguments : List (Option Text × ExprNode D)}
    (htoken : token.type = .parenOpen) (hclose : close.type = .parenClose)
    (harguments : parseItems .parenClose
      (parseArgument E "Expected '=' after keyword argument name") (tokens.length + 1) tokens =
        .ok (arguments, close :: rest)) :
    parsePostfix E (turn + 1) e (token :: tokens) =
      parsePostfix E turn (.call e.pos (some e) (positional arguments) (keyword arguments)) rest := by
  obtain ⟨_⟩ := token
  obtain ⟨_⟩ := close
  subst htoken hclose
  simp only [parsePostfix, advance_cons, ne_eq, reduceCtorEq, not_false_eq_true,
    length_cons, harguments]
  rfl

theorem parsePostfix_filter (htoken : token.type = .pipe) (hname : name.type = .identifier)
    (hrest : (peek rest).type ≠ .parenOpen) :
    parsePostfix E (turn + 1) e (token :: name :: rest) =
      parsePostfix E turn (.filter e.pos (some e) name.text [] []) rest := by
  obtain ⟨_⟩ := token
  obtain ⟨_, text, pos⟩ := name
  subst htoken hname
  have hfilter : parseFilter E e (⟨.identifier, text, pos⟩ :: rest) =
      .ok (.filter e.pos (some e) text [] [], rest) := by
    have hopen : check .parenOpen rest = false := by
      rw [Bool.eq_false_iff, Ne, check_iff]
      exact hrest
    show (if check .parenOpen rest = true then _ else _) = _
    rw [if_neg (Bool.eq_false_iff.mp hopen)]
    rfl
  simp only [parsePostfix, advance_cons, ne_eq, reduceCtorEq, not_false_eq_true, hfilter]
  rfl

theorem parsePostfix_filterCall {bracket : JinjaToken} {arguments : List (Option Text × ExprNode D)}
    (htoken : token.type = .pipe) (hname : name.type = .identifier)
    (hbracket : bracket.type = .parenOpen) (hclose : close.type = .parenClose)
    (harguments : parseItems .parenClose
      (parseArgument E "Expected '=' after filter keyword argument name") (tokens.length + 1) tokens =
        .ok (arguments, close :: rest)) :
    parsePostfix E (turn + 1) e (token :: name :: bracket :: tokens) =
      parsePostfix E turn
        (.filter e.pos (some e) name.text (positional arguments) (keyword arguments)) rest := by
  obtain ⟨_⟩ := token
  obtain ⟨_, text, pos⟩ := name
  obtain ⟨_, text', pos'⟩ := bracket
  obtain ⟨_⟩ := close
  subst htoken hname hbracket hclose
  have hfilter : parseFilter E e (⟨.identifier, text, pos⟩ :: ⟨.parenOpen, text', pos'⟩ :: tokens) =
      .ok (.filter e.pos (some e) text (positional arguments) (keyword arguments), rest) := by
    show ((parseItems .parenClose _ (tokens.length + 1) tokens).bind _) = _
    rw [harguments]
    rfl
  simp only [parsePostfix, advance_cons, ne_eq, reduceCtorEq, not_false_eq_true, hfilter]
  rfl

theorem parseOperators_stop {p : Nat} (h : (operatorAt rest).1 ≤ p) :
    parseOperators E p (turn + 1) e rest = .ok (e, rest) := by
  exact if_pos h

theorem operatorAt_mark {op : BinaryOp} (hop : binaryOp token.type = .ok op)
    (hprecedence : binaryPrecedence token.type = op.precedence) (his : token.type ≠ .kwIs)
    (tokens : List JinjaToken) :
    operatorAt (token :: tokens) = (op.precedence, none) ∧
      takeOperator none (token :: tokens) = .ok (op, tokens) := by
  have heof : token.type ≠ .eof := by
    intro h
    rw [h] at hop
    cases hop
  have hnot : token.type ≠ .kwNot := by
    intro h
    rw [h] at hop
    cases hop
  constructor
  · simp [operatorAt, check_cons, hnot, his, peek_cons tokens heof, hprecedence]
  · simp only [takeOperator, peek_cons tokens heof, advance_cons tokens heof, hop]
    rfl

/-- What `operatorAt` and `takeOperator` make of the tokens of an operator. -/
theorem operatorAt_marks {op : BinaryOp} {otokens : List JinjaToken}
    (h : otokens.map lexeme = op.marks) (hop : op ≠ .is ∧ op ≠ .isNot)
    (tokens : List JinjaToken) :
    ∃ compound, operatorAt (otokens ++ tokens) = (op.precedence, compound) ∧
      takeOperator compound (otokens ++ tokens) = .ok (op, tokens) := by
  cases op with
  | is => exact absurd rfl hop.1
  | isNot => exact absurd rfl hop.2
  | notIn =>
    obtain ⟨token, otokens, rfl, htoken, hrest⟩ := map_eq_cons_iff.mp h
    obtain ⟨token', rfl, htoken'⟩ := map_eq_singleton_iff.mp hrest
    obtain ⟨_⟩ := token
    obtain ⟨_⟩ := token'
    cases type_of_lexeme htoken
    cases type_of_lexeme htoken'
    exact ⟨some .notIn, rfl, rfl⟩
  | _ =>
    obtain ⟨token, rfl, htoken⟩ := map_eq_singleton_iff.mp h
    have htype := type_of_lexeme htoken
    refine ⟨none, operatorAt_mark ?_ ?_ ?_ tokens⟩
    · rw [htype]
      rfl
    · rw [htype]
      rfl
    · rw [htype]
      decide

/-- What the right operand is read at. -/
def BinaryOp.rightPrecedence (op : BinaryOp) : Nat :=
  if op = .pow then op.precedence - 1 else op.precedence

theorem parseOperators_step {p : Nat} {op : TreeOp} {otokens : List JinjaToken} {right : ExprNode D}
    (h : otokens.map lexeme = op.1.marks) (hp : p < op.1.precedence)
    (hright : E op.1.rightPrecedence tokens = .ok (right, rest))
    (hrest : isPostfix (peek rest).type = false) :
    parseOperators E p (turn + 1) e (otokens ++ tokens) =
      parseOperators E p turn (.binaryOp e.pos op.1 (some e) (some right)) rest := by
  obtain ⟨compound, hat, htake⟩ := operatorAt_marks h op.2 tokens
  have hparsed : parseRight E op.1 op.1.precedence tokens = .ok (right, rest) := by
    rw [parseRight, if_neg (not_or.mpr op.2)]
    exact hright
  conv_lhs => unfold parseOperators
  simp only [hat, if_neg (Nat.not_le.mpr hp), htake]
  show (parseRight E op.1 op.1.precedence tokens >>= _) = _
  rw [hparsed]
  show (parsePostfix E (rest.length + 1) _ rest >>= _) = _
  rw [parsePostfix_stop hrest]
  rfl

end

/-- The tokens are an operand with postfixes: what stands behind them may be more of these. -/
def ReadsOperand (stod : Text → Option (D × Nat)) (bare : Bool) (e : ExprNode D)
    (tokens : List JinjaToken) : Prop :=
  ∀ depth rest, (tokens ++ rest).length ≤ depth →
    (bare = true → (peek rest).type ≠ .parenOpen) →
    ∃ turn, rest.length < turn ∧
      parseOperand (parseExpression stod depth) stod (tokens ++ rest) =
        parsePostfix (parseExpression stod depth) turn e rest

/-- The tokens are an operand of binary operators when they are read at a precedence that `above`
allows: what stands behind them may be an operator of precedence up to `cap`. -/
def ReadsBinary (stod : Text → Option (D × Nat)) (above : Nat → Prop) (cap : Nat) (e : ExprNode D)
    (tokens : List JinjaToken) : Prop :=
  ∀ depth p rest, (tokens ++ rest).length ≤ depth → above p →
    isPostfix (peek rest).type = false → (operatorAt rest).1 ≤ cap →
    ∃ turn, rest.length < turn ∧
      parseBinary (parseExpression stod depth) stod p (tokens ++ rest) =
        parseOperators (parseExpression stod depth) p turn e rest

/-- What ends an expression. -/
structure Closes (rest : List JinjaToken) : Prop where
  postfix_false : isPostfix (peek rest).type = false
  operator : (operatorAt rest).1 = 0
  not_if : (peek rest).type ≠ .kwIf
  not_else : (peek rest).type ≠ .kwElse

/-- The tokens are an expression of their own. -/
def ReadsWhole (stod : Text → Option (D × Nat)) (e : ExprNode D) (tokens : List JinjaToken) : Prop :=
  ∀ depth rest, (tokens ++ rest).length < depth → Closes rest →
    parseExpression stod depth 0 (tokens ++ rest) = .ok (e, rest)

theorem closes_of {type : JinjaType} {rest : List JinjaToken} (h : check type rest = true)
    (htype : type ∈ [JinjaType.comma, .colon, .parenClose, .bracketClose, .braceClose, .exprEnd]) :
    Closes rest := by
  have hpeek := check_iff.mp h
  have hnot : check .kwNot rest = false := by
    rw [Bool.eq_false_iff, Ne, check_iff, hpeek]
    rintro rfl
    exact absurd htype (by decide)
  have his : check .kwIs rest = false := by
    rw [Bool.eq_false_iff, Ne, check_iff, hpeek]
    rintro rfl
    exact absurd htype (by decide)
  constructor
  · rw [hpeek]
    revert htype
    cases type <;> decide
  · simp only [operatorAt, hnot, his, Bool.false_and, hpeek]
    revert htype
    cases type <;> decide
  · rw [hpeek]
    rintro rfl
    exact absurd htype (by decide)
  · rw [hpeek]
    rintro rfl
    exact absurd htype (by decide)

section

variable {e : ExprNode D} {tokens : List JinjaToken} {above : Nat → Prop} {cap : Nat}

theorem ReadsOperand.binary {bare : Bool} (h : ReadsOperand stod bare e tokens) :
    ReadsBinary stod above cap e tokens := by
  intro depth p rest hdepth _ hparts _
  obtain ⟨turn, hturn, hoperand⟩ := h depth rest hdepth (by
    intro _ hopen
    rw [hopen] at hparts
    cases hparts)
  obtain ⟨turn, rfl⟩ := Nat.exists_eq_succ_of_ne_zero (Nat.ne_zero_of_lt hturn)
  refine ⟨rest.length + 1, Nat.lt_succ_self _, ?_⟩
  rw [parseBinary, hoperand, parsePostfix_stop hparts]
  rfl

theorem ReadsBinary.mono {above' : Nat → Prop} {cap' : Nat} (h : ReadsBinary stod above cap e tokens)
    (habove : ∀ p, above' p → above p) (hcap : cap' ≤ cap) :
    ReadsBinary stod above' cap' e tokens :=
  fun depth p rest hdepth hp hparts hnext =>
    h depth p rest hdepth (habove p hp) hparts (Nat.le_trans hnext hcap)

theorem ReadsBinary.expression (h : ReadsBinary stod above cap e tokens) {depth p : Nat}
    {rest : List JinjaToken} (hdepth : (tokens ++ rest).length < depth) (hp : above p)
    (hparts : isPostfix (peek rest).type = false) (hcap : (operatorAt rest).1 ≤ cap)
    (hnext : (operatorAt rest).1 ≤ p) (hif : p = 0 → (peek rest).type ≠ .kwIf) :
    parseExpression stod depth p (tokens ++ rest) = .ok (e, rest) := by
  obtain ⟨depth, rfl⟩ := Nat.exists_eq_succ_of_ne_zero (Nat.ne_zero_of_lt hdepth)
  obtain ⟨turn, hturn, hbinary⟩ := h depth p rest (Nat.le_of_lt_succ hdepth) hp hparts hcap
  obtain ⟨turn, rfl⟩ := Nat.exists_eq_succ_of_ne_zero (Nat.ne_zero_of_lt hturn)
  rw [parseExpression, expressionBody, hbinary, parseOperators_stop hnext]
  show (if p = 0 then parseConditional _ e rest else _) = _
  by_cases hzero : p = 0
  · have hcheck : ¬ check .kwIf rest = true := by
      rw [check_iff]
      exact hif hzero
    rw [if_pos hzero, parseConditional, if_neg hcheck]
  · rw [if_neg hzero]
    rfl

theorem ReadsBinary.whole (h : ReadsBinary stod above cap e tokens) (habove : above 0) :
    ReadsWhole stod e tokens := by
  intro depth rest hdepth hcloses
  have hnext : (operatorAt rest).1 ≤ 0 := Nat.le_of_eq hcloses.operator
  exact h.expression hdepth habove hcloses.postfix_false (Nat.le_trans hnext (Nat.zero_le _)) hnext
    fun _ => hcloses.not_if

/-- What `parsePrimary` takes is an operand without postfixes. -/
theorem readsOperand_primary {bare : Bool}
    (h : ∀ depth rest, (tokens ++ rest).length ≤ depth →
      parsePrimary (parseExpression stod depth) stod (tokens ++ rest) = .ok (e, rest)) :
    ReadsOperand stod bare e tokens := by
  intro depth rest hdepth _
  refine ⟨rest.length + 1, Nat.lt_succ_self _, ?_⟩
  rw [parseOperand, h depth rest hdepth]
  rfl

/-- Brackets make an operand of any expression. -/
theorem ReadsWhole.bracketed (h : ReadsWhole stod e tokens) {opening closing : JinjaToken}
    (hopening : opening.type = .parenOpen) (hclosing : closing.type = .parenClose) (bare : Bool) :
    ReadsOperand stod bare e (opening :: tokens ++ [closing]) := by
  refine readsOperand_primary fun depth rest hdepth => ?_
  have hcheck : check .parenClose (closing :: rest) = true := by
    rw [check_cons, hclosing]
    rfl
  have hlength : (tokens ++ closing :: rest).length < depth := by
    simp only [length_cons, length_append] at hdepth ⊢
    omega
  have hwhole := h depth (closing :: rest) hlength (closes_of hcheck (by decide))
  obtain ⟨_⟩ := opening
  obtain ⟨_⟩ := closing
  subst hopening hclosing
  rw [cons_append, cons_append, append_assoc, singleton_append, parsePrimary]
  simp only [advance_cons, ne_eq, reduceCtorEq, not_false_eq_true, hwhole]
  rfl

end

theorem precedence_pos (op : BinaryOp) : 0 < op.precedence := by cases op <;> decide

theorem precedence_le (op : BinaryOp) : op.precedence ≤ 70 := by cases op <;> decide

theorem unary_precedence_le (op : UnaryOp) : op.precedence ≤ 65 := by cases op <;> decide

theorem BinaryOp.rightPrecedence_cases (op : BinaryOp) :
    (op = .pow ∧ op.rightPrecedence = 69) ∨
      (op.precedence < 70 ∧ op.rightPrecedence = op.precedence) := by
  cases op <;> decide

/-- The precedences that the outermost operator of a tree is read at. -/
def Tree.above : Tree stod → Nat → Prop
  | .binary op _ _, p => p < op.1.precedence
  | _, _ => True

/-- The precedence up to which an operator leaves the tree in front of it whole. -/
def Tree.cap : Tree stod → Nat
  | .binary op _ _ => op.1.rightPrecedence
  | .unary op _ => op.precedence
  | _ => 100

structure Reads (t : Tree stod) (e : ExprNode D) (tokens : List JinjaToken) : Prop where
  node : e.erase = t.node
  operand : t.level = 100 → ReadsOperand stod t.bare e tokens
  /-- An empty argument list behind a filter without one. -/
  called : t.bare = true → ∀ opening closing : JinjaToken, opening.type = .parenOpen →
    closing.type = .parenClose → ReadsOperand stod false e (tokens ++ [opening, closing])
  binary : 0 < t.level → ReadsBinary stod t.above t.cap e tokens
  whole : ReadsWhole stod e tokens

theorem Tree.level_eq (t : Tree stod) (h : 100 ≤ t.level) : t.level = 100 := by
  cases t with
  | binary op left right => exact absurd (Nat.le_trans h (precedence_le op.1)) (by decide)
  | unary op operand =>
    have hlevel : 100 ≤ op.precedence := h
    have hle := unary_precedence_le op
    omega
  | conditional condition trueValue falseValue =>
    have hlevel : 100 ≤ 0 := h
    omega
  | _ => rfl

/-- However its tokens are placed, the tree is read. -/
def Tree.Readable (t : Tree stod) : Prop :=
  ∀ tokens, tokens.map JinjaToken.lexeme = t.write → ∃ e, Reads t e tokens

theorem Reads.of_operand (hnode : e.erase = t.node) (hbare : t.bare = false)
    (h : ReadsOperand stod false e tokens) :
    Reads t e tokens where
  node := hnode
  operand _ := hbare ▸ h
  called hb := by
    rw [hbare] at hb
    cases hb
  binary _ := h.binary
  whole := ReadsBinary.whole (@ReadsOperand.binary _ _ _ _ (fun _ => True) 0 _ h) trivial

theorem Reads.of_whole (hnode : e.erase = t.node) (hbare : t.bare = false) (hlevel : t.level = 0)
    (h : ReadsWhole stod e tokens) : Reads t e tokens where
  node := hnode
  operand hoperand := absurd (hoperand.symm.trans hlevel) (by decide)
  called hb := by
    rw [hbare] at hb
    cases hb
  binary hpos := absurd hlevel (Nat.ne_of_gt hpos)
  whole := h

theorem Reads.of_binary (hnode : e.erase = t.node) (hbare : t.bare = false) (hlevel : t.level ≠ 100)
    (h : ReadsBinary stod t.above t.cap e tokens) (habove : t.above 0) : Reads t e tokens where
  node := hnode
  operand hoperand := absurd hoperand hlevel
  called hb := by
    rw [hbare] at hb
    cases hb
  binary _ := h
  whole := h.whole habove

/-- The cap of a place that demands a level: what stands behind it binds no tighter. -/
def capOf (demand : Nat) : Nat := if demand = 70 then 69 else demand

theorem capOf_le {demand : Nat} (h : demand ≤ t.level) : capOf demand ≤ t.cap := by
  unfold capOf
  cases t with
  | binary op left right =>
    have hlevel : demand ≤ op.1.precedence := h
    obtain ⟨hpow, hright⟩ := op.1.rightPrecedence_cases
    · simp only [Tree.cap]
      rw [hpow] at hlevel
      have hle : demand ≤ 70 := hlevel
      split <;> omega
    · simp only [Tree.cap]
      split <;> omega
  | unary op operand =>
    have hlevel : demand ≤ op.precedence := h
    simp only [Tree.cap]
    split <;> omega
  | conditional condition trueValue falseValue =>
    have hlevel : demand ≤ 0 := h
    split <;> omega
  | _ =>
    have hlevel : demand ≤ 100 := h
    simp only [Tree.cap]
    split <;> omega

/-- The precedences that every operator binding as tightly as demanded is read at. -/
def Above (demand p : Nat) : Prop := ∀ op : BinaryOp, demand ≤ op.precedence → p < op.precedence

theorem Tree.above_of {demand p : Nat} (h : demand ≤ t.level) (hp : Above demand p) :
    t.above p := by
  cases t with
  | binary op left right => exact hp op.1 h
  | _ => trivial

theorem bracketed_tokens {lexemes : List Lexeme}
    (h : tokens.map lexeme = bracketed true lexemes) :
    ∃ opening inner closing, tokens = opening :: inner ++ [closing] ∧
      opening.type = .parenOpen ∧ closing.type = .parenClose ∧
      inner.map lexeme = lexemes := by
  obtain ⟨opening, rest, rfl, hopening, hrest⟩ := map_eq_cons_iff.mp h
  obtain ⟨inner, last, rfl, hinner, hlast⟩ := map_eq_append_iff.mp hrest
  obtain ⟨closing, rfl, hclosing⟩ := map_eq_singleton_iff.mp hlast
  exact ⟨opening, inner, closing, rfl, type_of_lexeme hopening, type_of_lexeme hclosing, hinner⟩

section

variable {t : Tree stod} {tokens : List JinjaToken}

/-- A tree in the place of an operand of operators. -/
theorem Tree.Readable.joined (h : t.Readable) {demand : Nat} (hdemand : 0 < demand)
    (htokens : tokens.map lexeme = bracketed (t.level < demand) t.write) :
    ∃ e, e.erase = t.node ∧ ReadsBinary stod (Above demand) (capOf demand) e tokens := by
  by_cases hlevel : t.level < demand
  · rw [decide_eq_true hlevel] at htokens
    obtain ⟨opening, inner, closing, rfl, hopening, hclosing, hinner⟩ := bracketed_tokens htokens
    obtain ⟨e, hreads⟩ := h inner hinner
    exact ⟨e, hreads.node, (hreads.whole.bracketed hopening hclosing false).binary⟩
  · rw [decide_eq_false hlevel] at htokens
    obtain ⟨e, hreads⟩ := h tokens htokens
    have hle := Nat.not_lt.mp hlevel
    refine ⟨e, hreads.node, (hreads.binary (by omega)).mono ?_ (capOf_le hle)⟩
    exact fun p => t.above_of hle

/-- A tree in front of a postfix. -/
theorem Tree.Readable.object (h : t.Readable)
    (htokens : tokens.map lexeme = bracketed (t.level < 100) t.write) :
    ∃ e, e.erase = t.node ∧ ReadsOperand stod t.bare e tokens := by
  by_cases hlevel : t.level < 100
  · rw [decide_eq_true hlevel] at htokens
    obtain ⟨opening, inner, closing, rfl, hopening, hclosing, hinner⟩ := bracketed_tokens htokens
    obtain ⟨e, hreads⟩ := h inner hinner
    exact ⟨e, hreads.node, hreads.whole.bracketed hopening hclosing _⟩
  · rw [decide_eq_false hlevel] at htokens
    obtain ⟨e, hreads⟩ := h tokens htokens
    exact ⟨e, hreads.node, hreads.operand (t.level_eq (Nat.not_lt.mp hlevel))⟩

end

theorem marks_length (op : BinaryOp) : 0 < op.marks.length := by cases op <;> decide

theorem isPostfix_marks {op : BinaryOp} {otokens : List JinjaToken}
    (h : otokens.map lexeme = op.marks) (tokens : List JinjaToken) :
    isPostfix (peek (otokens ++ tokens)).type = false := by
  obtain _ | ⟨token⟩ := otokens
  · have hlength := congrArg List.length h
    exact absurd hlength (Nat.ne_of_lt (marks_length op))
  · have hhead : some token.lexeme = op.marks.head? := congrArg List.head? h
    have htype : some token.type = op.marks.head?.map Prod.fst := congrArg (Option.map Prod.fst) hhead
    obtain ⟨_⟩ := token
    cases op <;> cases htype <;> rfl

theorem leftDemand_pos (op : BinaryOp) : 0 < op.leftDemand := by cases op <;> decide

theorem rightDemand_pos (op : BinaryOp) : 0 < op.rightDemand := by cases op <;> decide

theorem rightPrecedence_pos (op : BinaryOp) : 0 < op.rightPrecedence := by cases op <;> decide

theorem precedence_le_capOf (op : BinaryOp) : op.precedence ≤ capOf op.leftDemand := by
  cases op <;> decide

theorem rightPrecedence_le_capOf (op : BinaryOp) : op.rightPrecedence ≤ capOf op.rightDemand := by
  cases op <;> decide

theorem precedence_le_leftDemand (op : BinaryOp) : op.precedence ≤ op.leftDemand := by
  cases op <;> decide

theorem rightPrecedence_lt (op : BinaryOp) : op.rightPrecedence < op.rightDemand := by
  cases op <;> decide

theorem readable_binary {op : TreeOp} {left right : Tree stod} (hleft : left.Readable)
    (hright : right.Readable) : (Tree.binary op left right).Readable := by
  intro tokens htokens
  obtain ⟨ltokens, rest, rfl, hltokens, hrest⟩ := map_eq_append_iff.mp htokens
  obtain ⟨otokens, rtokens, rfl, hotokens, hrtokens⟩ := map_eq_append_iff.mp hrest
  obtain ⟨l, hl, hlreads⟩ := hleft.joined (leftDemand_pos op.1) hltokens
  obtain ⟨r, hr, hrreads⟩ := hright.joined (rightDemand_pos op.1) hrtokens
  refine ⟨.binaryOp l.pos op.1 (some l) (some r),
    Reads.of_binary ?_ rfl ?_ ?_ (precedence_pos op.1)⟩
  · exact congrArg₂ (fun l r => ExprNode.binaryOp {} op.1 (some l) (some r)) hl hr
  · exact Nat.ne_of_lt (Nat.lt_of_le_of_lt (precedence_le op.1) (by decide))
  intro depth p rest hdepth hp hparts hcap
  have hcap' : (operatorAt rest).1 ≤ op.1.rightPrecedence := hcap
  have hlonger : 0 < otokens.length := by
    rw [← length_map lexeme, hotokens]
    exact marks_length op.1
  simp only [append_assoc, length_append] at hdepth ⊢
  -- the left operand stops in front of the operator
  have hoperator : (operatorAt (otokens ++ (rtokens ++ rest))).1 ≤ capOf op.1.leftDemand := by
    obtain ⟨compound, hat, -⟩ := operatorAt_marks hotokens op.2 (rtokens ++ rest)
    rw [hat]
    exact precedence_le_capOf op.1
  have hleftAbove : Above op.1.leftDemand p := fun op' hop' =>
    Nat.lt_of_lt_of_le hp (Nat.le_trans (precedence_le_leftDemand op.1) hop')
  obtain ⟨turn, hturn, hlbinary⟩ := hlreads depth p (otokens ++ (rtokens ++ rest))
    (by simp only [length_append]; omega) hleftAbove (isPostfix_marks hotokens _) hoperator
  obtain ⟨turn, rfl⟩ := Nat.exists_eq_succ_of_ne_zero (Nat.ne_zero_of_lt hturn)
  -- the right operand stops in front of what the whole tree stops at
  have hrightAbove : Above op.1.rightDemand op.1.rightPrecedence := fun op' hop' =>
    Nat.lt_of_lt_of_le (rightPrecedence_lt op.1) hop'
  have hparsed : parseExpression stod depth op.1.rightPrecedence (rtokens ++ rest) = .ok (r, rest) :=
    hrreads.expression (by simp only [length_append]; omega) hrightAbove hparts
      (Nat.le_trans hcap' (rightPrecedence_le_capOf op.1)) hcap'
      fun hzero => absurd hzero (Nat.ne_of_gt (rightPrecedence_pos op.1))
  refine ⟨turn, by simp only [length_append] at hturn; omega, ?_⟩
  rw [hlbinary, parseOperators_step hotokens hp hparsed hparts]

theorem above_precedence (op : UnaryOp) : Above op.precedence op.precedence := by
  intro op' h
  revert h
  cases op <;> cases op' <;> decide

theorem parsePrimary_unary {E : ExpressionParser D} {op : UnaryOp} {rest : List JinjaToken}
    {operand : ExprNode D} (htoken : token.lexeme = op.mark)
    (hoperand : E op.precedence tokens = .ok (operand, rest)) :
    parsePrimary E stod (token :: tokens) = .ok (.unaryOp token.pos op (some operand), rest) := by
  have htype := type_of_lexeme htoken
  obtain ⟨_⟩ := token
  cases op <;> subst htype <;> rw [parsePrimary] <;>
    simp only <;>
    exact congrArg (· >>= _) hoperand

theorem readable_unary {op : UnaryOp} {operand : Tree stod} (h : operand.Readable) :
    (Tree.unary op operand).Readable := by
  intro tokens htokens
  obtain ⟨token, inner, rfl, htoken, hinner⟩ := map_eq_cons_iff.mp htokens
  have hpositive : 0 < op.precedence := by cases op <;> decide
  obtain ⟨x, hx, hreads⟩ := h.joined hpositive hinner
  refine ⟨.unaryOp token.pos op (some x), Reads.of_binary ?_ rfl ?_ ?_ trivial⟩
  · exact congrArg (fun x => ExprNode.unaryOp {} op (some x)) hx
  · exact Nat.ne_of_lt (Nat.lt_of_le_of_lt (unary_precedence_le op) (by decide))
  intro depth p rest hdepth _ hparts hcap
  have hcapOf : capOf op.precedence = op.precedence := by cases op <;> rfl
  have hparsed : parseExpression stod depth op.precedence (inner ++ rest) = .ok (x, rest) :=
    hreads.expression hdepth (above_precedence op) hparts (by rw [hcapOf]; exact hcap) hcap
      fun hzero => absurd hzero (Nat.ne_of_gt hpositive)
  refine ⟨rest.length + 1, Nat.lt_succ_self _, ?_⟩
  rw [cons_append, parseBinary, parseOperand, parsePrimary_unary htoken hparsed]
  show ((parsePostfix _ (rest.length + 1) _ rest) >>= _) = _
  rw [parsePostfix_stop hparts]
  rfl

theorem decodeStringLiteral_cons {c : UInt8} (hc : c ≠ 92) (text : Text) :
    decodeStringLiteral (c :: text) = c :: decodeStringLiteral text := by
  cases text with
  | nil => rfl
  | cons d text => rw [decodeStringLiteral, if_neg hc]

theorem decodeStringLiteral_escape (text : Text) : decodeStringLiteral (escape text) = text := by
  induction text with
  | nil => rfl
  | cons c text ih =>
    have hescape : escape (c :: text) = (if c = 92 then [92, 92] else [c]) ++ escape text := rfl
    rw [hescape]
    by_cases hc : c = 92
    · subst hc
      rw [if_pos rfl, cons_append, singleton_append, decodeStringLiteral, ih]
      rfl
    · rw [if_neg hc, singleton_append, decodeStringLiteral_cons hc, ih]

theorem not_mem_toChars (n : Int) : 46 ∉ JobJson.toChars n := by
  have hdigits := (JobJson.natChars_isInt n.natAbs).isDigits.2
  intro hmem
  unfold JobJson.toChars at hmem
  split at hmem
  · obtain hminus | hmem := mem_cons.mp hmem
    · exact absurd hminus (by decide)
    · exact absurd (hdigits 46 hmem) (by decide)
  · exact absurd (hdigits 46 hmem) (by decide)

theorem fromChars_toChars (value : Int64) : fromChars (JobJson.toChars value.toInt) = some value := by
  have hrange : JobJson.JsonInteger.InRange ⟨true, .w64⟩ value.toInt :=
    ⟨Int64.le_toInt value, Int.le_sub_one_of_lt (Int64.toInt_lt value)⟩
  rw [fromChars, JobJson.parseInteger_toChars hrange, Option.map_some, Int64.ofInt_toInt]

theorem parsePrimary_literal {E : ExpressionParser D} {value : LiteralValue (Decimal stod)}
    (h : token.lexeme = literalLexeme value) (rest : List JinjaToken) :
    parsePrimary E stod (token :: rest) = .ok (.literal token.pos value.numbers, rest) := by
  have htype := type_of_lexeme h
  have htext : ∀ {type : JinjaType} {text : Text}, literalLexeme value = (type, text) →
      type.hasText = true → token.text = text := fun hlexeme => text_of_lexeme (h.trans hlexeme)
  obtain ⟨type, text, pos⟩ := token
  cases value with
  | null =>
    cases htype
    rfl
  | bool value =>
    cases value <;> cases htype <;> rfl
  | int value =>
    cases htype
    have hsame : text = JobJson.toChars value.toInt := htext rfl rfl
    subst hsame
    have hnumber : parseNumber stod ⟨.numberLiteral, JobJson.toChars value.toInt, pos⟩ =
        .ok (.int value) := by
      rw [parseNumber, if_neg (not_mem_toChars _), fromChars_toChars]
    rw [parsePrimary]
    simp only [peek_cons, ne_eq, reduceCtorEq, not_false_eq_true, hnumber]
    rfl
  | float number =>
    cases htype
    have hsame : text = number.text := htext rfl rfl
    subst hsame
    have hnumber : parseNumber stod ⟨.numberLiteral, number.text, pos⟩ =
        .ok (.float number.value) := by
      rw [parseNumber, if_pos number.dot]
      simp [number.read]
    rw [parsePrimary]
    simp only [peek_cons, ne_eq, reduceCtorEq, not_false_eq_true, hnumber]
    rfl
  | string value =>
    cases htype
    have hsame : text = escape value := htext rfl rfl
    subst hsame
    rw [parsePrimary]
    simp only [peek_cons, ne_eq, reduceCtorEq, not_false_eq_true, decodeStringLiteral_escape]
    rfl

theorem readable_literal (value : LiteralValue (Decimal stod)) :
    (Tree.literal value).Readable := by
  intro tokens htokens
  obtain ⟨token, rfl, htoken⟩ := map_eq_singleton_iff.mp htokens
  exact ⟨_, Reads.of_operand rfl rfl
    (readsOperand_primary fun _ rest _ => parsePrimary_literal htoken rest)⟩

theorem readable_identifier (name : Text) : (.identifier name : Tree stod).Readable := by
  intro tokens htokens
  obtain ⟨token, rfl, htoken⟩ := map_eq_singleton_iff.mp htokens
  refine ⟨.identifier token.pos name, Reads.of_operand rfl rfl (readsOperand_primary ?_)⟩
  intro depth rest _
  have htext := text_of_lexeme htoken rfl
  have htype := type_of_lexeme htoken
  rw [← htext]
  obtain ⟨_⟩ := token
  subst htype
  rfl

/-- One more postfix behind an operand. -/
theorem ReadsOperand.extend {bare bare' : Bool} {e' : ExprNode D} {more : List JinjaToken}
    (h : ReadsOperand stod bare e tokens)
    (hhead : ∀ rest, bare = true → (peek (more ++ rest)).type ≠ .parenOpen) (hmore : more ≠ [])
    (hstep : ∀ depth turn rest, (more ++ rest).length ≤ depth →
      (bare' = true → (peek rest).type ≠ .parenOpen) →
      parsePostfix (parseExpression stod depth) (turn + 1) e (more ++ rest) =
        parsePostfix (parseExpression stod depth) turn e' rest) :
    ReadsOperand stod bare' e' (tokens ++ more) := by
  intro depth rest hdepth hrest
  rw [append_assoc] at hdepth ⊢
  have hlength : (more ++ rest).length ≤ depth := by
    rw [length_append] at hdepth
    omega
  obtain ⟨turn, hturn, hoperand⟩ := h depth (more ++ rest) hdepth (hhead rest)
  obtain ⟨turn, rfl⟩ := Nat.exists_eq_succ_of_ne_zero (Nat.ne_zero_of_lt hturn)
  have hpositive := length_pos_iff.mpr hmore
  rw [length_append] at hturn
  exact ⟨turn, by omega, hoperand.trans (hstep depth turn rest hlength hrest)⟩

theorem readable_member {object : Tree stod} (h : object.Readable) (name : Text) :
    (Tree.member object name).Readable := by
  intro tokens htokens
  obtain ⟨otokens, more, rfl, hotokens, hmore⟩ := map_eq_append_iff.mp htokens
  obtain ⟨dot, rest, rfl, hdot, hrest⟩ := map_eq_cons_iff.mp hmore
  obtain ⟨identifier, rfl, hidentifier⟩ := map_eq_singleton_iff.mp hrest
  obtain ⟨e, he, hreads⟩ := h.object hotokens
  have hdot' := type_of_lexeme hdot
  refine ⟨.memberAccess e.pos (some e) name, Reads.of_operand ?_ rfl
    (hreads.extend ?_ (cons_ne_nil _ _) ?_)⟩
  · exact congrArg (fun e => ExprNode.memberAccess {} (some e) name) he
  · intro rest _
    rw [cons_append, peek_cons _ (by rw [hdot']; decide), hdot']
    decide
  · intro depth turn rest _ _
    rw [← text_of_lexeme hidentifier rfl]
    exact parsePostfix_dot hdot' (type_of_lexeme hidentifier)

theorem readable_subscript {object index : Tree stod} (h : object.Readable) (hindex : index.Readable) :
    (Tree.subscript object index).Readable := by
  intro tokens htokens
  obtain ⟨otokens, more, rfl, hotokens, hmore⟩ := map_eq_append_iff.mp htokens
  obtain ⟨opening, rest, rfl, hopening, hrest⟩ := map_eq_cons_iff.mp hmore
  obtain ⟨itokens, last, rfl, hitokens, hlast⟩ := map_eq_append_iff.mp hrest
  obtain ⟨closing, rfl, hclosing⟩ := map_eq_singleton_iff.mp hlast
  obtain ⟨e, he, hreads⟩ := h.object hotokens
  obtain ⟨i, hi⟩ := hindex itokens hitokens
  have hopening' := type_of_lexeme hopening
  have hclosing' := type_of_lexeme hclosing
  refine ⟨.subscript e.pos (some e) (some i), Reads.of_operand ?_ rfl
    (hreads.extend ?_ (cons_ne_nil _ _) ?_)⟩
  · exact congrArg₂ (fun e i => ExprNode.subscript {} (some e) (some i)) he hi.node
  · intro rest _
    rw [cons_append, peek_cons _ (by rw [hopening']; decide), hopening']
    decide
  · intro depth turn rest hdepth _
    have hcheck : check .bracketClose (closing :: rest) = true := by
      rw [check_cons, hclosing']
      rfl
    rw [cons_append, append_assoc] at hdepth ⊢
    exact parsePostfix_subscript hopening' hclosing'
      (hi.whole depth _ (Nat.lt_of_succ_le hdepth) (closes_of hcheck (by decide)))

end JobTokenizer
