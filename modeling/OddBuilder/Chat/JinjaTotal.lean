import OddBuilder.Chat.JinjaParser

/-!
# The template parser comes to an end

Every call of `parseExpression` and of `parseStatement` leaves fewer tokens than it
was given, and it calls itself only behind a token it has taken. So the depth that
`parse` starts with is enough, and what goes wrong goes wrong by a `ParseError`.
-/

namespace JobTokenizer.JinjaParser

variable {α β D : Type}
variable {type : JinjaType} {tokens : List JinjaToken}

/-- A value with less than `bound` tokens left, or a `ParseError`. -/
def Within (bound : Nat) : Except Failure (Parsed α) → Prop
  | .ok (_, tokens) => tokens.length < bound
  | .error (.parseError _ _) => True
  | .error _ => False

theorem Within.mono {m n : Nat} {r :
    Except Failure (Parsed α)} (h : Within m r) (hmn : m ≤ n) : Within n r := by
  cases r with
  | ok value => exact Nat.lt_of_lt_of_le h hmn
  | error failure =>
    cases failure with
    | parseError message pos => trivial
    | logicError what => exact h
    | outOfFuel => exact h

theorem Within.bind {m n : Nat} {r : Except Failure (Parsed α)} {next : α × List JinjaToken →
    Except Failure (Parsed β)}
    (h : Within m r) (hnext : ∀ a tokens, tokens.length < m → Within n (next (a, tokens))) :
    Within n (r >>= next) := by
  cases r with
  | ok value => exact hnext value.1 value.2 h
  | error failure =>
    cases failure with
    | parseError message pos => trivial
    | logicError what => exact h.elim
    | outOfFuel => exact h.elim

theorem check_iff :
    check type tokens = true ↔ (peek tokens).type = type := by
  cases tokens with
  | nil => simp [check, isAtEnd, peek, eq_comm]
  | cons token tokens =>
    by_cases h : token.type = .eof
    · simp [check, isAtEnd, peek, h, eq_comm]
    · simp [check, isAtEnd, h]

theorem advance_le (tokens : List JinjaToken) : (advance tokens).length ≤ tokens.length := by
  cases tokens with
  | nil => exact Nat.le_refl _
  | cons token tokens =>
    by_cases h : token.type = .eof
    · rw [advance, if_pos h]
    · rw [advance, if_neg h]
      exact Nat.le_succ _

theorem advance_lt (h : (peek tokens).type ≠ .eof) : (advance tokens).length < tokens.length := by
  cases tokens with
  | nil => exact absurd rfl h
  | cons token tokens =>
    by_cases heof : token.type = .eof
    · exact absurd (by rw [peek, if_pos heof]) h
    · rw [advance, if_neg heof]
      exact Nat.lt_succ_self _

theorem consume_within (htype : type ≠ .eof) (message : String) (tokens : List JinjaToken) :
    Within tokens.length (consume type message tokens) := by
  unfold consume
  split
  · next h =>
    apply advance_lt
    rw [check_iff.mp h]
    exact htype
  · trivial

theorem parseItems_within {close : JinjaType} {item : Parser α} {bound : Nat}
    (hitem : ∀ tokens, tokens.length < bound → Within tokens.length (item tokens)) :
    ∀ {turn : Nat} {tokens : List JinjaToken}, tokens.length < turn → tokens.length < bound →
      Within (tokens.length + 1) (parseItems close item turn tokens) := by
  intro turn
  induction turn with
  | zero =>
    intro tokens hturn
    exact absurd hturn (Nat.not_lt_zero _)
  | succ turn ih =>
    intro tokens hturn hbound
    unfold parseItems
    split
    · exact Nat.lt_succ_self _
    · apply (hitem tokens hbound).bind
      intro x rest hrest
      have hadvance := advance_le rest
      dsimp only
      split
      · apply (ih (by omega) (by omega)).bind
        intro xs last hlast
        exact (by omega : last.length < tokens.length + 1)
      · exact (by omega : rest.length < tokens.length + 1)

/-- Items between two brackets, the closing one consumed. -/
theorem bracketed_within {close : JinjaType} (hclose : close ≠ .eof) {item : Parser α}
    {node : List α → β} (message : String) {tokens : List JinjaToken}
    (hitem : ∀ tokens, tokens.length < bound → Within tokens.length (item tokens))
    (hpeek : (peek tokens).type ≠ .eof) (h : tokens.length ≤ bound) :
    Within tokens.length (do
      let (items, tokens) ← parseItems close item tokens.length (advance tokens)
      let (_, tokens) ← consume close message tokens
      return (node items, tokens)) := by
  have hadvance := advance_lt hpeek
  apply (parseItems_within hitem hadvance (by omega)).bind
  intro items rest hrest
  apply (consume_within hclose message rest).bind
  intro _ last hlast
  exact (by omega : last.length < tokens.length)

theorem parseNumber_cases (stod : Text → Option (D × Nat)) (token : JinjaToken) :
    (∃ value, parseNumber stod token = .ok value) ∨
      ∃ message pos, parseNumber stod token = .error (.parseError message pos) := by
  unfold parseNumber
  split
  · split
    · split
      · exact Or.inl ⟨_, rfl⟩
      · exact Or.inr ⟨_, _, rfl⟩
    · exact Or.inr ⟨_, _, rfl⟩
  · split
    · exact Or.inl ⟨_, rfl⟩
    · exact Or.inr ⟨_, _, rfl⟩

/-- A token with a precedence is an operator. -/
theorem binaryOp_of_precedence (h : binaryPrecedence type ≠ 0) :
    ∃ operation, binaryOp type = .ok operation := by
  cases type <;> first | exact ⟨_, rfl⟩ | exact absurd rfl h

theorem takeOperator_within (h : (operatorAt tokens).1 ≠ 0) :
    Within tokens.length (takeOperator (operatorAt tokens).2 tokens) := by
  have htwo : ∀ {type : JinjaType}, check type tokens = true → type ≠ .eof →
      (advance (advance tokens)).length < tokens.length := by
    intro type htype hne
    have hadvance := advance_lt (check_iff.mp htype ▸ hne)
    exact Nat.lt_of_le_of_lt (advance_le _) hadvance
  unfold operatorAt at h ⊢
  split
  · next hnot => exact htwo (Bool.and_eq_true_iff.mp hnot).1 (by decide)
  · next hnot =>
    rw [if_neg hnot] at h
    split
    · next his => exact htwo (Bool.and_eq_true_iff.mp his).1 (by decide)
    · next his =>
      rw [if_neg his] at h
      obtain ⟨operation, hoperation⟩ := binaryOp_of_precedence h
      rw [takeOperator, hoperation]
      apply advance_lt
      intro heof
      rw [heof] at h
      exact h rfl

section

variable {expression : ExpressionParser D} {stod : Text → Option (D × Nat)} {bound : Nat}
  (hexpression : ∀ p tokens, tokens.length < bound →
    Within tokens.length (expression p tokens))
variable {tokens : List JinjaToken}

include hexpression

theorem parseArgument_within (message : String) {tokens : List JinjaToken}
    (h : tokens.length < bound) :
    Within tokens.length (parseArgument expression message tokens) := by
  unfold parseArgument
  split
  · have hadvance := advance_le tokens
    apply (consume_within (by decide) message _).bind
    intro _ rest hrest
    apply (hexpression 0 rest (by omega)).bind
    intro value last hlast
    exact (by omega : last.length < tokens.length)
  · apply (hexpression 0 tokens h).bind
    intro value last hlast
    exact hlast

theorem parsePair_within (h : tokens.length < bound) :
    Within tokens.length (parsePair expression tokens) := by
  apply (hexpression 0 tokens h).bind
  intro key rest hrest
  apply (consume_within (by decide) _ rest).bind
  intro _ behind hbehind
  apply (hexpression 0 behind (by omega)).bind
  intro value last hlast
  exact (by omega : last.length < tokens.length)

theorem operand_within (node : ExprNode D → ExprNode D) (p : Nat)
    (hpeek : (peek tokens).type ≠ .eof) (h : tokens.length ≤ bound) :
    Within tokens.length
      (expression p (advance tokens) >>= fun parsed => pure (node parsed.1, parsed.2)) := by
  have hadvance := advance_lt hpeek
  apply (hexpression p _ (by omega)).bind
  intro e last hlast
  exact (by omega : last.length < tokens.length)

theorem parsePrimary_within (h : tokens.length ≤ bound) :
    Within tokens.length (parsePrimary expression stod tokens) := by
  have htaken : ∀ {type : JinjaType}, (peek tokens).type = type → type ≠ .eof →
      (advance tokens).length < tokens.length := fun htype hne => advance_lt (htype ▸ hne)
  unfold parsePrimary
  dsimp only
  split
  case h_1 htype =>
    obtain ⟨value, hvalue⟩ | ⟨message, pos, hvalue⟩ := parseNumber_cases stod (peek tokens)
    · rw [hvalue]
      exact htaken htype (by decide)
    · rw [hvalue]
      trivial
  case h_2 htype => exact htaken htype (by decide)
  case h_3 htype => exact htaken htype (by decide)
  case h_4 htype => exact htaken htype (by decide)
  case h_5 htype => exact htaken htype (by decide)
  case h_6 htype => exact htaken htype (by decide)
  case h_7 htype =>
    have hadvance := htaken htype (by decide)
    apply (hexpression 0 _ (by omega)).bind
    intro e rest hrest
    apply (consume_within (by decide) _ rest).bind
    intro _ last hlast
    exact (by omega : last.length < tokens.length)
  case h_8 htype =>
    exact bracketed_within (by decide) _ (hexpression 0) (htype ▸ by decide) h
  case h_9 htype =>
    exact bracketed_within (by decide) _ (fun _ => parsePair_within hexpression)
      (htype ▸ by decide) h
  case h_10 htype =>
    exact operand_within hexpression (fun e => .unaryOp _ .not (some e)) 25 (htype ▸ by decide) h
  case h_11 htype =>
    exact operand_within hexpression (fun e => .unaryOp _ .negate (some e)) 65
      (htype ▸ by decide) h
  case h_12 htype =>
    exact operand_within hexpression (fun e => .unaryOp _ .pos (some e)) 65 (htype ▸ by decide) h
  case h_13 => trivial
  case h_14 => trivial

theorem parseFilter_within (target : ExprNode D) {tokens : List JinjaToken}
    (h : tokens.length ≤ bound) :
    Within tokens.length (parseFilter expression target tokens) := by
  apply (consume_within (by decide) _ tokens).bind
  intro name rest hrest
  dsimp only
  split
  · next hopen =>
    have hpeek : (peek rest).type ≠ .eof := by
      rw [check_iff.mp hopen]
      decide
    have hclose : JinjaType.parenClose ≠ .eof := by decide
    have harguments := @bracketed_within _ _ _ _ hclose _ (fun arguments =>
      ExprNode.filter target.pos (some target) name.text (positional arguments) (keyword arguments))
      "Expected ')' after filter arguments" _
      (fun _ => parseArgument_within hexpression "Expected '=' after filter keyword argument name")
      hpeek (by omega)
    exact harguments.mono (Nat.le_of_lt hrest)
  · exact hrest

theorem parsePostfix_within :
    ∀ {turn : Nat} (e : ExprNode D) {tokens : List JinjaToken}, tokens.length < turn →
      tokens.length ≤ bound →
      Within (tokens.length + 1) (parsePostfix expression turn e tokens) := by
  intro turn
  induction turn with
  | zero =>
    intro e tokens hturn
    exact absurd hturn (Nat.not_lt_zero _)
  | succ turn ih =>
    intro e tokens hturn hbound
    have htaken : ∀ {type : JinjaType}, (peek tokens).type = type → type ≠ .eof →
        (advance tokens).length < tokens.length := fun htype hne => advance_lt (htype ▸ hne)
    have hagain : ∀ (e : ExprNode D) (rest : List JinjaToken), rest.length < tokens.length →
        Within (tokens.length + 1) (parsePostfix expression turn e rest) :=
      fun e rest hrest => (ih e (by omega) (by omega)).mono (by omega)
    unfold parsePostfix
    split
    case h_1 htype =>
      have hadvance := htaken htype (by decide)
      apply (consume_within (by decide) _ _).bind
      intro name rest hrest
      exact hagain _ rest (by omega)
    case h_2 htype =>
      have hadvance := htaken htype (by decide)
      apply (hexpression 0 _ (by omega)).bind
      intro index rest hrest
      apply (consume_within (by decide) _ rest).bind
      intro _ last hlast
      exact hagain _ last (by omega)
    case h_3 htype =>
      have hadvance := htaken htype (by decide)
      apply (parseItems_within (fun _ => parseArgument_within hexpression _) hadvance
        (by omega)).bind
      intro arguments rest hrest
      apply (consume_within (by decide) _ rest).bind
      intro _ last hlast
      exact hagain _ last (by omega)
    case h_4 htype =>
      have hadvance := htaken htype (by decide)
      apply (parseFilter_within hexpression e (by omega)).bind
      intro e rest hrest
      exact hagain e rest (by omega)
    case h_5 => exact Nat.lt_succ_self _

theorem parseRight_within (operation : BinaryOp) (precedence : Nat) (h : tokens.length < bound) :
    Within tokens.length (parseRight expression operation precedence tokens) := by
  unfold parseRight
  dsimp only
  split
  · split
    · next right hname =>
      apply advance_lt
      intro heof
      have hnone : parseTestName (D := D) tokens = none := by
        simp [parseTestName, check_iff, heof]
      rw [hnone] at hname
      cases hname
    · exact hexpression _ tokens h
  · exact hexpression _ tokens h

theorem parseOperators_within (p : Nat) :
    ∀ {turn : Nat} (left : ExprNode D) {tokens : List JinjaToken}, tokens.length < turn →
      tokens.length ≤ bound →
      Within (tokens.length + 1) (parseOperators expression p turn left tokens) := by
  intro turn
  induction turn with
  | zero =>
    intro left tokens hturn
    exact absurd hturn (Nat.not_lt_zero _)
  | succ turn ih =>
    intro left tokens hturn hbound
    unfold parseOperators
    dsimp only
    split
    · exact Nat.lt_succ_self _
    · next hprecedence =>
      have hne : (operatorAt tokens).1 ≠ 0 := by omega
      apply (takeOperator_within hne).bind
      intro operation rest hrest
      dsimp only
      apply (parseRight_within hexpression operation _ (by omega)).bind
      intro right behind hbehind
      dsimp only
      apply (parsePostfix_within hexpression _ (Nat.lt_succ_self _) (by omega)).bind
      intro left last hlast
      dsimp only
      exact (ih left (by omega) (by omega)).mono (by omega)

theorem parseConditional_within (e : ExprNode D) (h : tokens.length ≤ bound) :
    Within (tokens.length + 1) (parseConditional expression e tokens) := by
  unfold parseConditional
  split
  · next hif =>
    have hadvance : (advance tokens).length < tokens.length :=
      advance_lt (by rw [check_iff.mp hif]; decide)
    apply (hexpression 0 _ (by omega)).bind
    intro condition rest hrest
    have hrest' := advance_le rest
    dsimp only
    split
    · apply (hexpression 0 _ (by omega)).bind
      intro falseValue last hlast
      exact (by omega : last.length < tokens.length + 1)
    · exact (by omega : rest.length < tokens.length + 1)
  · exact Nat.lt_succ_self _

theorem parseOperand_within (h : tokens.length ≤ bound) :
    Within tokens.length (parseOperand expression stod tokens) := by
  apply (parsePrimary_within hexpression h).bind
  intro e rest hrest
  exact (parsePostfix_within hexpression e (Nat.lt_succ_self _) (by omega)).mono (by omega)

theorem expressionBody_within (p : Nat) (h : tokens.length ≤ bound) :
    Within tokens.length (expressionBody expression stod p tokens) := by
  have hbinary : Within tokens.length (parseBinary expression stod p tokens) := by
    apply (parseOperand_within hexpression h).bind
    intro left rest hrest
    exact (parseOperators_within hexpression p left (Nat.lt_succ_self _) (by omega)).mono (by omega)
  apply hbinary.bind
  intro left rest hrest
  dsimp only
  split
  · exact (parseConditional_within hexpression left (by omega)).mono (by omega)
  · exact hrest

end

section

variable {stod : Text → Option (D × Nat)}

theorem parseExpression_within :
    ∀ {depth : Nat} (p : Nat) {tokens : List JinjaToken}, tokens.length < depth →
      Within tokens.length (parseExpression stod depth p tokens) := by
  intro depth
  induction depth with
  | zero =>
    intro p tokens hdepth
    exact absurd hdepth (Nat.not_lt_zero _)
  | succ depth ih =>
    intro p tokens hdepth
    exact expressionBody_within (fun p _ => ih p) p (Nat.le_of_lt_succ hdepth)

theorem wholeExpression_within (tokens : List JinjaToken) :
    Within tokens.length (wholeExpression stod tokens) :=
  parseExpression_within 0 (Nat.lt_succ_self _)

end

section

variable {stod : Text → Option (D × Nat)} {bound : Nat}
variable {tokens : List JinjaToken}

theorem parseStatements_within {stopTokens : List JinjaType} {statement : Parser (StmtNode D)}
    (hstatement : ∀ tokens, tokens.length < bound → Within tokens.length (statement tokens)) :
    ∀ {turn : Nat} {tokens : List JinjaToken}, tokens.length < turn → tokens.length < bound →
      Within (tokens.length + 1) (parseStatements stopTokens statement turn tokens) := by
  intro turn
  induction turn with
  | zero =>
    intro tokens hturn
    exact absurd hturn (Nat.not_lt_zero _)
  | succ turn ih =>
    intro tokens hturn hbound
    unfold parseStatements
    split
    · exact Nat.lt_succ_self _
    · apply (hstatement tokens hbound).bind
      intro s rest hrest
      apply (ih (by omega) (by omega)).bind
      intro statements last hlast
      exact (by omega : last.length < tokens.length + 1)

theorem parseBlock_within {statement : Parser (StmtNode D)}
    (hstatement : ∀ tokens, tokens.length < bound → Within tokens.length (statement tokens))
    (stopTokens : List JinjaType) (h : tokens.length < bound) :
    Within (tokens.length + 1) (parseBlock statement stopTokens tokens) := by
  apply (parseStatements_within hstatement (Nat.lt_succ_self _) h).bind
  intro statements last hlast
  exact hlast

theorem parseOutputStatement_within (pos : Position) (tokens : List JinjaToken) :
    Within tokens.length (parseOutputStatement stod pos tokens) := by
  apply (wholeExpression_within tokens).bind
  intro e rest hrest
  apply (consume_within (by decide) _ rest).bind
  intro _ last hlast
  exact (by omega : last.length < tokens.length)

theorem parseSetStatement_within (pos : Position) (tokens : List JinjaToken) :
    Within tokens.length (parseSetStatement stod pos tokens) := by
  apply (consume_within (by decide) _ tokens).bind
  intro identifier rest hrest
  apply (consume_within (by decide) _ rest).bind
  intro _ behind hbehind
  apply (wholeExpression_within behind).bind
  intro e front hfront
  apply (consume_within (by decide) _ front).bind
  intro _ last hlast
  exact (by omega : last.length < tokens.length)

theorem parseTargets_within : ∀ {turn : Nat} {tokens : List JinjaToken}, tokens.length < turn →
    Within (tokens.length + 1) (parseTargets turn tokens) := by
  intro turn
  induction turn with
  | zero =>
    intro tokens hturn
    exact absurd hturn (Nat.not_lt_zero _)
  | succ turn ih =>
    intro tokens hturn
    unfold parseTargets
    split
    · have hadvance := advance_le tokens
      apply (consume_within (by decide) _ _).bind
      intro target rest hrest
      apply (ih (by omega)).bind
      intro targets last hlast
      exact (by omega : last.length < tokens.length + 1)
    · exact Nat.lt_succ_self _

/-- The three tokens that close a block. -/
theorem closing_within (keyword : JinjaType) (hkeyword : keyword ≠ .eof)
    (begin close behind : String) (node : α) (tokens : List JinjaToken) :
    Within tokens.length (do
      let (_, tokens) ← consume .blockBegin begin tokens
      let (_, tokens) ← consume keyword close tokens
      let (_, tokens) ← consume .blockEnd behind tokens
      return (node, tokens)) := by
  apply (consume_within (by decide) begin tokens).bind
  intro _ rest hrest
  apply (consume_within hkeyword close rest).bind
  intro _ front hfront
  apply (consume_within (by decide) behind front).bind
  intro _ last hlast
  exact (by omega : last.length < tokens.length)

variable {block : List JinjaType → Parser (BodyNode D)}
  (hblock : ∀ stopTokens tokens, tokens.length < bound →
    Within (tokens.length + 1) (block stopTokens tokens))

include hblock

theorem parseBranch_within (message : String) (h : tokens.length < bound) :
    Within tokens.length (parseBranch stod block message tokens) := by
  apply (wholeExpression_within tokens).bind
  intro condition rest hrest
  apply (consume_within (by decide) message rest).bind
  intro _ front hfront
  apply (hblock _ front (by omega)).bind
  intro body last hlast
  exact (by omega : last.length < tokens.length)

theorem parseElifs_within : ∀ {turn : Nat} {tokens : List JinjaToken}, tokens.length < turn →
    tokens.length < bound → Within (tokens.length + 1) (parseElifs stod block turn tokens) := by
  intro turn
  induction turn with
  | zero =>
    intro tokens hturn
    exact absurd hturn (Nat.not_lt_zero _)
  | succ turn ih =>
    intro tokens hturn hbound
    unfold parseElifs
    split
    · apply (consume_within (by decide) _ tokens).bind
      intro _ rest hrest
      apply (consume_within (by decide) _ rest).bind
      intro _ front hfront
      apply (parseBranch_within hblock _ (by omega)).bind
      intro branch behind hbehind
      apply (ih (by omega) (by omega)).bind
      intro branches last hlast
      exact (by omega : last.length < tokens.length + 1)
    · exact Nat.lt_succ_self _

theorem parseElse_within (message : String) (stopTokens : List JinjaType)
    (h : tokens.length < bound) :
    Within (tokens.length + 1) (parseElse block message stopTokens tokens) := by
  unfold parseElse
  split
  · apply (consume_within (by decide) _ tokens).bind
    intro _ rest hrest
    apply (consume_within (by decide) _ rest).bind
    intro _ front hfront
    apply (consume_within (by decide) message front).bind
    intro _ behind hbehind
    apply (hblock stopTokens behind (by omega)).bind
    intro body last hlast
    exact (by omega : last.length < tokens.length + 1)
  · exact Nat.lt_succ_self _

theorem parseIfStatement_within (pos : Position) (h : tokens.length < bound) :
    Within tokens.length (parseIfStatement stod block pos tokens) := by
  apply (parseBranch_within hblock _ h).bind
  intro branch rest hrest
  apply (parseElifs_within hblock (Nat.lt_succ_self _) (by omega)).bind
  intro branches front hfront
  apply (parseElse_within hblock _ _ (by omega)).bind
  intro elseBody behind hbehind
  exact (closing_within .kwEndIf (by decide) _ _ _ _ behind).mono (by omega)

theorem parseForStatement_within (pos : Position) (h : tokens.length < bound) :
    Within tokens.length (parseForStatement stod block pos tokens) := by
  apply (consume_within (by decide) _ tokens).bind
  intro firstTarget rest hrest
  apply (parseTargets_within (Nat.lt_succ_self _)).bind
  intro targets front hfront
  apply (consume_within (by decide) _ front).bind
  intro _ header hheader
  apply (wholeExpression_within header).bind
  intro iterable behind hbehind
  apply (consume_within (by decide) _ behind).bind
  intro _ inner hinner
  apply (hblock _ inner (by omega)).bind
  intro body tail htail
  apply (parseElse_within hblock _ _ (by omega)).bind
  intro elseBody last hlast
  exact (closing_within .kwEndFor (by decide) _ _ _ _ last).mono (by omega)

theorem statementBody_within (h : tokens.length ≤ bound) :
    Within tokens.length (statementBody stod block tokens) := by
  have htaken : ∀ {type : JinjaType}, (peek tokens).type = type → type ≠ .eof →
      (advance tokens).length < tokens.length := fun htype hne => advance_lt (htype ▸ hne)
  unfold statementBody
  dsimp only
  split
  case h_1 htype => exact htaken htype (by decide)
  case h_2 htype =>
    have hadvance := htaken htype (by decide)
    exact (parseOutputStatement_within _ _).mono (Nat.le_of_lt hadvance)
  case h_3 htype =>
    have hadvance := htaken htype (by decide)
    have hadvance' := advance_le (advance tokens)
    split
    · exact (parseIfStatement_within hblock _ (by omega)).mono (by omega)
    · exact (parseForStatement_within hblock _ (by omega)).mono (by omega)
    · exact (parseSetStatement_within _ _).mono (by omega)
    · trivial
  case h_4 => trivial
  case h_5 => trivial

end

section

variable {stod : Text → Option (D × Nat)}

theorem parseStatement_within :
    ∀ {depth : Nat} {tokens : List JinjaToken}, tokens.length < depth →
      Within tokens.length (parseStatement stod depth tokens) := by
  intro depth
  induction depth with
  | zero =>
    intro tokens hdepth
    exact absurd hdepth (Nat.not_lt_zero _)
  | succ depth ih =>
    intro tokens hdepth
    exact statementBody_within (fun stopTokens _ => parseBlock_within (fun _ => ih) stopTokens)
      (Nat.le_of_lt_succ hdepth)

/-- The parser returns a tree or throws a `ParseError`. -/
theorem parse_total (tokens : List JinjaToken) :
    (∃ body, parse stod tokens = .ok body) ∨
      ∃ message pos, parse stod tokens = .error (.parseError message pos) := by
  have hblock : Within (tokens.length + 1)
      (parseBlock (parseStatement stod (tokens.length + 1)) [] tokens) :=
    parseBlock_within (fun _ => parseStatement_within) [] (Nat.lt_succ_self _)
  unfold parse
  cases hparsed : parseBlock (parseStatement stod (tokens.length + 1)) [] tokens with
  | ok parsed => exact Or.inl ⟨parsed.1, rfl⟩
  | error failure =>
    rw [hparsed] at hblock
    cases failure with
    | parseError message pos => exact Or.inr ⟨message, pos, rfl⟩
    | logicError what => exact hblock.elim
    | outOfFuel => exact hblock.elim

end

end JobTokenizer.JinjaParser
