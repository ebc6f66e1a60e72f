import OddBuilder.Chat.JinjaOperands
import Mathlib.Data.List.Forall2

/-!
# The parser reads what is written

Items between commas, calls, filters and conditionals, and with them every tree: what
is written of it is parsed as the same tree.
-/

namespace JobTokenizer

open JinjaParser List

variable {D : Type} {stod : Text → Option (D × Nat)}
variable {tokens rest : List JinjaToken} {E : ExpressionParser D} {t : Tree stod} {e : ExprNode D}
  {kwArgs : List (Text × Tree stod)} {lexemes : List Lexeme} {name : Text} {kwIf : JinjaToken}

/-- The types that an expression begins with. -/
def opens : JinjaType → Bool
  | .numberLiteral | .stringLiteral | .kwTrue | .kwFalse | .kwNone | .identifier | .parenOpen
  | .bracketOpen | .braceOpen | .kwNot | .minus | .plus => true
  | _ => false

/-- What is written begins as an expression, and not as a keyword argument. -/
def Starts (lexemes : List Lexeme) : Prop :=
  ∃ first rest, lexemes = first :: rest ∧ opens first.1 = true ∧
    (first.1 = .identifier → ∀ second ∈ rest.head?, second.1 ≠ .assign)

theorem starts_of_opens {first : Lexeme} (rest : List Lexeme) (h : opens first.1 = true)
    (hne : first.1 ≠ .identifier) : Starts (first :: rest) :=
  ⟨first, rest, rfl, h, fun hidentifier => absurd hidentifier hne⟩

theorem Starts.append {front back : List Lexeme} (h : Starts front)
    (hback : ∀ second ∈ back.head?, second.1 ≠ .assign) : Starts (front ++ back) := by
  obtain ⟨first, rest, rfl, hopens, hsecond⟩ := h
  refine ⟨first, rest ++ back, rfl, hopens, fun hidentifier => ?_⟩
  cases rest with
  | nil => exact hback
  | cons second rest => exact hsecond hidentifier

theorem Starts.bracketed (h : Starts lexemes) (needed : Bool) :
    Starts (bracketed needed lexemes) := by
  cases needed with
  | false => exact h
  | true => exact starts_of_opens _ rfl (by decide)

theorem head_marks_ne (op : BinaryOp) (rest : List Lexeme) :
    ∀ second ∈ (op.marks ++ rest).head?, second.1 ≠ .assign := by
  cases op <;> (rintro second ⟨⟩; decide)

theorem starts_literal (value : LiteralValue (Decimal stod)) : Starts [literalLexeme value] := by
  cases value with
  | bool value =>
    cases value with
    | false => exact @starts_of_opens (mark .kwFalse) _ rfl (by decide)
    | true => exact @starts_of_opens (mark .kwTrue) _ rfl (by decide)
  | null => exact @starts_of_opens (mark .kwNone) _ rfl (by decide)
  | _ =>
    refine starts_of_opens _ rfl ?_
    intro hidentifier
    cases hidentifier

theorem starts_write : ∀ t : Tree stod, Starts t.write
  | .literal value => starts_literal value
  | .identifier name => ⟨_, [], rfl, rfl, fun _ second hsecond => by cases hsecond⟩
  | .unary op operand => by cases op <;> exact starts_of_opens _ rfl (by decide)
  | .binary op left _ => ((starts_write left).bracketed _).append (head_marks_ne op.1 _)
  | .conditional _ trueValue _ => ((starts_write trueValue).bracketed _).append (by
      rintro second ⟨⟩
      decide)
  | .member object _ => ((starts_write object).bracketed _).append (by
      rintro second ⟨⟩
      decide)
  | .subscript object _ => ((starts_write object).bracketed _).append (by
      rintro second ⟨⟩
      decide)
  | .call callee _ _ => ((starts_write callee).bracketed _).append (by
      cases callee.bare <;> (rintro second ⟨⟩; decide))
  | .filter target _ _ _ => ((starts_write target).bracketed _).append (by
      rintro second ⟨⟩
      decide)
  | .list _ => starts_of_opens _ rfl (by decide)
  | .dict _ => starts_of_opens _ rfl (by decide)

theorem check_of_starts (h : Starts lexemes) (htokens : tokens.map JinjaToken.lexeme = lexemes)
    {type : JinjaType} (htype : opens type = false) (rest : List JinjaToken) :
    check type (tokens ++ rest) = false := by
  obtain ⟨first, more, rfl, hopens, -⟩ := h
  obtain ⟨token, tokens, rfl, htoken, -⟩ := map_eq_cons_iff.mp htokens
  rw [cons_append, check_cons, decide_eq_false_iff_not, type_of_lexeme htoken]
  rintro rfl
  rw [hopens] at htype
  cases htype

theorem not_keyword_of_starts (h : Starts lexemes)
    (htokens : tokens.map JinjaToken.lexeme = lexemes) (hrest : check .assign rest = false) :
    (check .identifier (tokens ++ rest) && checkNext .assign (tokens ++ rest)) = false := by
  obtain ⟨first, more, rfl, -, hsecond⟩ := h
  obtain ⟨token, tokens, rfl, htoken, hmore⟩ := map_eq_cons_iff.mp htokens
  rw [cons_append, check_cons, type_of_lexeme htoken, Bool.and_eq_false_iff,
    decide_eq_false_iff_not, or_iff_not_imp_left, not_not]
  intro hidentifier
  cases tokens with
  | nil =>
    cases rest with
    | nil => rfl
    | cons second rest => rwa [check_cons] at hrest
  | cons second tokens =>
    obtain ⟨lexeme, more, rfl⟩ : ∃ lexeme rest, more = lexeme :: rest := ⟨_, _, hmore.symm⟩
    have hne := hsecond hidentifier lexeme rfl
    rw [← (List.cons.inj hmore).1] at hne
    exact decide_eq_false hne

/-- The tokens are an item in front of a comma or of the closing token. -/
def ReadsItem {α : Type} (close : JinjaType) (item : Nat → Parser α) (x : α)
    (tokens : List JinjaToken) : Prop :=
  ∀ depth rest, (tokens ++ rest).length < depth →
    (check .comma rest = true ∨ check close rest = true) →
    check close (tokens ++ rest) = false ∧ item depth (tokens ++ rest) = .ok (x, rest)

section

variable {α β : Type} {close : JinjaType} {item : Nat → Parser α}
variable {turn depth : Nat} {rest : List JinjaToken}

theorem parseItems_close (hrest : check close rest = true) :
    parseItems close (item depth) (turn + 1) rest = .ok ([], rest) := if_pos hrest

theorem parseItems_last {x : α} {tokens : List JinjaToken} (h : ReadsItem close item x tokens)
    (hdepth : (tokens ++ rest).length < depth) (hclose : close ≠ .comma)
    (hrest : check close rest = true) :
    parseItems close (item depth) (turn + 1) (tokens ++ rest) = .ok ([x], rest) := by
  obtain ⟨hcheck, hitem⟩ := h depth rest hdepth (Or.inr hrest)
  have hcomma : check .comma rest = false := by
    rw [Bool.eq_false_iff, Ne, check_iff, check_iff.mp hrest]
    exact hclose
  rw [parseItems, if_neg (Bool.eq_false_iff.mp hcheck), hitem]
  show (if check .comma rest = true then _ else _) = _
  rw [if_neg (Bool.eq_false_iff.mp hcomma)]
  rfl

theorem parseItems_cons {x : α} {xs : List α} {tokens last : List JinjaToken} {comma : JinjaToken}
    (h : ReadsItem close item x tokens) (hcomma : comma.type = .comma)
    (hdepth : (tokens ++ comma :: rest).length < depth)
    (hxs : parseItems close (item depth) turn rest = .ok (xs, last)) :
    parseItems close (item depth) (turn + 1) (tokens ++ comma :: rest) = .ok (x :: xs, last) := by
  have hcheck : check .comma (comma :: rest) = true := by
    rw [check_cons, hcomma]
    rfl
  obtain ⟨hnot, hitem⟩ := h depth (comma :: rest) hdepth (Or.inl hcheck)
  rw [parseItems, if_neg (Bool.eq_false_iff.mp hnot), hitem]
  show (if check .comma (comma :: rest) = true then _ else _) = _
  rw [if_pos hcheck, advance_cons rest (by rw [hcomma]; decide), hxs]
  rfl

/-- Items are read one after another, whatever they are read as. -/
theorem parseItems_commas {erase : α → β} (hclose : close ≠ .comma) {lexemes : List (List Lexeme)}
    {bs : List β}
    (h : List.Forall₂ (fun lexemes b => ∀ tokens, tokens.map JinjaToken.lexeme = lexemes →
      ∃ x, erase x = b ∧ ReadsItem close item x tokens) lexemes bs) :
    ∀ tokens, tokens.map JinjaToken.lexeme = commas lexemes →
      ∃ xs, xs.map erase = bs ∧ ∀ turn depth rest, check close rest = true →
        (tokens ++ rest).length < turn → (tokens ++ rest).length < depth →
        parseItems close (item depth) turn (tokens ++ rest) = .ok (xs, rest) := by
  induction h with
  | nil =>
    intro tokens htokens
    obtain rfl := map_eq_nil_iff.mp htokens
    refine ⟨[], rfl, fun turn depth rest hrest hturn _ => ?_⟩
    obtain ⟨turn, rfl⟩ := Nat.exists_eq_succ_of_ne_zero (Nat.ne_zero_of_lt hturn)
    exact parseItems_close hrest
  | @cons first b lexemes bs hfirst hrest ih =>
    intro tokens htokens
    cases lexemes with
    | nil =>
      cases hrest
      obtain ⟨x, hx, hreads⟩ := hfirst tokens htokens
      refine ⟨[x], by rw [map_singleton, hx], fun turn depth rest hrest hturn hdepth => ?_⟩
      obtain ⟨turn, rfl⟩ := Nat.exists_eq_succ_of_ne_zero (Nat.ne_zero_of_lt hturn)
      exact parseItems_last hreads hdepth hclose hrest
    | cons second lexemes =>
      obtain ⟨ftokens, more, rfl, hftokens, hmore⟩ := map_eq_append_iff.mp htokens
      obtain ⟨comma, rtokens, rfl, hcomma, hrtokens⟩ := map_eq_cons_iff.mp hmore
      obtain ⟨x, hx, hreads⟩ := hfirst ftokens hftokens
      obtain ⟨xs, hxs, hparsed⟩ := ih rtokens hrtokens
      refine ⟨x :: xs, by rw [map_cons, hx, hxs], fun turn depth rest hrest hturn hdepth => ?_⟩
      obtain ⟨turn, rfl⟩ := Nat.exists_eq_succ_of_ne_zero (Nat.ne_zero_of_lt hturn)
      rw [append_assoc, cons_append] at hturn hdepth ⊢
      simp only [length_append, length_cons] at hturn hdepth
      exact parseItems_cons hreads (type_of_lexeme hcomma)
        (by simp only [length_append, length_cons]; omega)
        (hparsed turn depth rest hrest (by simp only [length_append]; omega)
          (by simp only [length_append]; omega))

end

theorem writeAll_eq (ts : List (Tree stod)) : writeAll ts = ts.map Tree.write := by
  induction ts with
  | nil => rfl
  | cons t ts ih => rw [writeAll, ih, map_cons]

theorem writeKeywords_eq (ts : List (Text × Tree stod)) :
    writeKeywords ts = ts.map fun t => (.identifier, t.1) :: mark .assign :: t.2.write := by
  induction ts with
  | nil => rfl
  | cons t ts ih => rw [writeKeywords, ih, map_cons]

theorem writePairs_eq (ts : List (Tree stod × Tree stod)) :
    writePairs ts = ts.map fun t => t.1.write ++ mark .colon :: t.2.write := by
  induction ts with
  | nil => rfl
  | cons t ts ih => rw [writePairs, ih, map_cons]

theorem closes_of_item {close : JinjaType}
    (hclose : close ∈ [JinjaType.parenClose, .bracketClose, .braceClose])
    (h : check .comma rest = true ∨ check close rest = true) : Closes rest := by
  obtain h | h := h
  · exact closes_of h (by decide)
  · refine closes_of h ?_
    revert hclose
    cases close <;> decide

theorem not_assign_of_item {close : JinjaType} (hclose : close ≠ .assign)
    (h : check .comma rest = true ∨ check close rest = true) : check .assign rest = false := by
  rw [Bool.eq_false_iff, Ne, check_iff]
  obtain h | h := h
  · rw [check_iff.mp h]
    decide
  · rw [check_iff.mp h]
    exact hclose

theorem parsePrimary_list {opening closing : JinjaToken} {elements : List (ExprNode D)}
    (hopening : opening.type = .bracketOpen) (hclosing : closing.type = .bracketClose)
    (h : parseItems .bracketClose (E 0) (tokens.length + 1) tokens =
      .ok (elements, closing :: rest)) :
    parsePrimary E stod (opening :: tokens) = .ok (.list opening.pos elements, rest) := by
  obtain ⟨_⟩ := opening
  obtain ⟨_⟩ := closing
  subst hopening hclosing
  simp only [parsePrimary, advance_cons, ne_eq, reduceCtorEq, not_false_eq_true, length_cons, h]
  rfl

theorem parsePrimary_dict {opening closing : JinjaToken} {pairs : List (ExprNode D × ExprNode D)}
    (hopening : opening.type = .braceOpen) (hclosing : closing.type = .braceClose)
    (h : parseItems .braceClose (parsePair E) (tokens.length + 1) tokens =
      .ok (pairs, closing :: rest)) :
    parsePrimary E stod (opening :: tokens) = .ok (.dict opening.pos pairs, rest) := by
  obtain ⟨_⟩ := opening
  obtain ⟨_⟩ := closing
  subst hopening hclosing
  simp only [parsePrimary, advance_cons, ne_eq, reduceCtorEq, not_false_eq_true, length_cons, h]
  rfl

theorem Reads.element (h : Reads t e tokens) (htokens : tokens.map JinjaToken.lexeme = t.write) :
    ReadsItem .bracketClose (fun depth => parseExpression stod depth 0) e tokens :=
  fun depth rest hdepth hrest =>
    ⟨check_of_starts (starts_write t) htokens rfl rest,
      h.whole depth rest hdepth (closes_of_item (by decide) hrest)⟩

theorem readable_list {elements : List (Tree stod)} (h : ∀ t ∈ elements, t.Readable) :
    (Tree.list elements).Readable := by
  intro tokens htokens
  obtain ⟨opening, more, rfl, hopening, hmore⟩ := map_eq_cons_iff.mp htokens
  obtain ⟨items, last, rfl, hitems, hlast⟩ := map_eq_append_iff.mp hmore
  obtain ⟨closing, rfl, hclosing⟩ := map_eq_singleton_iff.mp hlast
  have hopening' := type_of_lexeme hopening
  have hclosing' := type_of_lexeme hclosing
  have helements : List.Forall₂ (fun lexemes b => ∀ tokens, tokens.map JinjaToken.lexeme = lexemes →
      ∃ x, ExprNode.erase x = b ∧
        ReadsItem .bracketClose (fun depth => parseExpression stod depth 0) x tokens)
      (writeAll elements) (listNodes elements) := by
    rw [writeAll_eq, listNodes_eq, forall₂_map_left_iff, forall₂_map_right_iff, forall₂_same]
    intro t ht tokens htokens
    obtain ⟨e, hreads⟩ := h t ht tokens htokens
    exact ⟨e, hreads.node, hreads.element htokens⟩
  obtain ⟨es, hes, hparsed⟩ := parseItems_commas (by decide) helements items hitems
  refine ⟨.list opening.pos es, Reads.of_operand ?_ rfl (readsOperand_primary ?_)⟩
  · exact congrArg (ExprNode.list {}) ((eraseList_eq es).trans hes)
  intro depth rest hdepth
  have hcheck : check .bracketClose (closing :: rest) = true := by
    rw [check_cons, hclosing']
    rfl
  rw [cons_append, append_assoc] at hdepth ⊢
  have hitems' := hparsed ((items ++ closing :: rest).length + 1) depth (closing :: rest) hcheck
    (Nat.lt_succ_self _) (Nat.lt_of_succ_le hdepth)
  exact parsePrimary_list hopening' hclosing' hitems'

theorem readsItem_pair {key value : Tree stod} (hkey : key.Readable) (hvalue : value.Readable) :
    ∀ tokens, tokens.map JinjaToken.lexeme = key.write ++ mark .colon :: value.write →
      ∃ x : ExprNode D × ExprNode D, (x.1.erase, x.2.erase) = (key.node, value.node) ∧
        ReadsItem .braceClose (fun depth => parsePair (parseExpression stod depth)) x tokens := by
  intro tokens htokens
  obtain ⟨ktokens, more, rfl, hktokens, hmore⟩ := map_eq_append_iff.mp htokens
  obtain ⟨colon, vtokens, rfl, hcolon, hvtokens⟩ := map_eq_cons_iff.mp hmore
  obtain ⟨k, hk⟩ := hkey ktokens hktokens
  obtain ⟨v, hv⟩ := hvalue vtokens hvtokens
  refine ⟨(k, v), by rw [hk.node, hv.node], fun depth rest hdepth hrest => ?_⟩
  rw [append_assoc, cons_append] at hdepth ⊢
  have hcolon' := type_of_lexeme hcolon
  have hcheck : check .colon (colon :: (vtokens ++ rest)) = true := by
    rw [check_cons, hcolon']
    rfl
  have hlength : (vtokens ++ rest).length < depth := by
    simp only [length_append, length_cons] at hdepth ⊢
    omega
  have hparsedKey := hk.whole depth (colon :: (vtokens ++ rest)) hdepth (closes_of hcheck (by decide))
  have hparsedValue := hv.whole depth rest hlength (closes_of_item (by decide) hrest)
  refine ⟨check_of_starts (starts_write key) hktokens rfl _, ?_⟩
  show parsePair (parseExpression stod depth) _ = _
  rw [parsePair, hparsedKey]
  show (consume .colon _ (colon :: (vtokens ++ rest)) >>= _) = _
  rw [consume, if_pos hcheck, advance_cons _ (by rw [hcolon']; decide)]
  show (parseExpression stod depth 0 (vtokens ++ rest) >>= _) = _
  rw [hparsedValue]
  rfl

theorem readable_dict {pairs : List (Tree stod × Tree stod)}
    (h : ∀ t ∈ pairs, t.1.Readable ∧ t.2.Readable) : (Tree.dict pairs).Readable := by
  intro tokens htokens
  obtain ⟨opening, more, rfl, hopening, hmore⟩ := map_eq_cons_iff.mp htokens
  obtain ⟨items, last, rfl, hitems, hlast⟩ := map_eq_append_iff.mp hmore
  obtain ⟨closing, rfl, hclosing⟩ := map_eq_singleton_iff.mp hlast
  have hopening' := type_of_lexeme hopening
  have hclosing' := type_of_lexeme hclosing
  have hpairs : List.Forall₂ (fun lexemes b => ∀ tokens, tokens.map JinjaToken.lexeme = lexemes →
      ∃ x : ExprNode D × ExprNode D, (x.1.erase, x.2.erase) = b ∧
        ReadsItem .braceClose (fun depth => parsePair (parseExpression stod depth)) x tokens)
      (writePairs pairs) (pairNodes pairs) := by
    rw [writePairs_eq, pairNodes_eq, forall₂_map_left_iff, forall₂_map_right_iff, forall₂_same]
    exact fun t ht => readsItem_pair (h t ht).1 (h t ht).2
  obtain ⟨es, hes, hparsed⟩ := parseItems_commas (by decide) hpairs items hitems
  refine ⟨.dict opening.pos es, Reads.of_operand ?_ rfl (readsOperand_primary ?_)⟩
  · exact congrArg (ExprNode.dict {}) ((erasePairs_eq es).trans hes)
  intro depth rest hdepth
  have hcheck : check .braceClose (closing :: rest) = true := by
    rw [check_cons, hclosing']
    rfl
  rw [cons_append, append_assoc] at hdepth ⊢
  have hitems' := hparsed ((items ++ closing :: rest).length + 1) depth (closing :: rest) hcheck
    (Nat.lt_succ_self _) (Nat.lt_of_succ_le hdepth)
  exact parsePrimary_dict hopening' hclosing' hitems'

def eraseArgument (argument : Option Text × ExprNode D) : Option Text × ExprNode D :=
  (argument.1, argument.2.erase)

theorem positional_erase (arguments : List (Option Text × ExprNode D)) :
    (positional arguments).map ExprNode.erase = positional (arguments.map eraseArgument) := by
  simp only [positional, map_filterMap, filterMap_map]
  congr 1
  funext argument
  obtain ⟨_ | name⟩ := argument <;> rfl

theorem keyword_erase (arguments : List (Option Text × ExprNode D)) :
    ((keyword arguments).map fun e => (e.1, e.2.erase)) = keyword (arguments.map eraseArgument) := by
  simp only [keyword, map_filterMap, filterMap_map]
  congr 1
  funext argument
  obtain ⟨_ | name⟩ := argument <;> rfl

/-- The arguments of a call as they are written: the positional ones first. -/
def argumentNodes (posArgs : List (Tree stod)) (kwArgs : List (Text × Tree stod)) :
    List (Option Text × ExprNode D) :=
  posArgs.map (fun t => (none, t.node)) ++ kwArgs.map fun t => (some t.1, t.2.node)

theorem positional_argumentNodes (posArgs : List (Tree stod)) (kwArgs : List (Text × Tree stod)) :
    positional (argumentNodes posArgs kwArgs) = listNodes posArgs := by
  rw [listNodes_eq, argumentNodes, positional, filterMap_append, filterMap_map, filterMap_map]
  have hkw : kwArgs.filterMap ((fun argument : Option Text × ExprNode D =>
      if argument.1 = none then some argument.2 else none) ∘ fun t => (some t.1, t.2.node)) = [] :=
    filterMap_eq_nil_iff.mpr fun t _ => rfl
  rw [hkw, append_nil]
  exact congrFun filterMap_eq_map _

theorem keyword_argumentNodes (posArgs : List (Tree stod)) (kwArgs : List (Text × Tree stod)) :
    keyword (argumentNodes posArgs kwArgs) = keywordNodes kwArgs := by
  rw [keywordNodes_eq, argumentNodes, keyword, filterMap_append, filterMap_map, filterMap_map]
  have hpos : posArgs.filterMap ((fun argument : Option Text × ExprNode D =>
      argument.1.map (·, argument.2)) ∘ fun t => (none, t.node)) = [] :=
    filterMap_eq_nil_iff.mpr fun t _ => rfl
  rw [hpos]
  exact congrFun filterMap_eq_map _

theorem readsItem_positional (h : t.Readable) (message : String) :
    ∀ tokens, tokens.map JinjaToken.lexeme = t.write →
      ∃ x, eraseArgument x = (none, t.node) ∧
        ReadsItem .parenClose (fun depth => parseArgument (parseExpression stod depth) message) x
          tokens := by
  intro tokens htokens
  obtain ⟨e, hreads⟩ := h tokens htokens
  refine ⟨(none, e), by rw [eraseArgument, hreads.node], fun depth rest hdepth hrest => ?_⟩
  have hnot := not_keyword_of_starts (starts_write t) htokens
    (not_assign_of_item (by decide) hrest)
  refine ⟨check_of_starts (starts_write t) htokens rfl rest, ?_⟩
  show parseArgument (parseExpression stod depth) message _ = _
  rw [parseArgument, if_neg (Bool.eq_false_iff.mp hnot),
    hreads.whole depth rest hdepth (closes_of_item (by decide) hrest)]
  rfl

theorem parseArgument_keyword {message : String} {identifier assign : JinjaToken}
    {value : ExprNode D} (hidentifier : identifier.type = .identifier)
    (hassign : assign.type = .assign) (h : E 0 tokens = .ok (value, rest)) :
    parseArgument E message (identifier :: assign :: tokens) =
      .ok ((some identifier.text, value), rest) := by
  obtain ⟨_⟩ := identifier
  obtain ⟨_⟩ := assign
  subst hidentifier hassign
  show (E 0 tokens >>= _) = _
  rw [h]
  rfl

theorem readsItem_keyword (h : t.Readable) (message : String) :
    ∀ tokens, tokens.map JinjaToken.lexeme = (.identifier, name) :: mark .assign :: t.write →
      ∃ x, eraseArgument x = (some name, t.node) ∧
        ReadsItem .parenClose (fun depth => parseArgument (parseExpression stod depth) message) x
          tokens := by
  intro tokens htokens
  obtain ⟨identifier, more, rfl, hidentifier, hmore⟩ := map_eq_cons_iff.mp htokens
  obtain ⟨assign, vtokens, rfl, hassign, hvtokens⟩ := map_eq_cons_iff.mp hmore
  obtain ⟨e, hreads⟩ := h vtokens hvtokens
  refine ⟨(some name, e), by rw [eraseArgument, hreads.node], fun depth rest hdepth hrest => ?_⟩
  have hlength : (vtokens ++ rest).length < depth := by
    simp only [cons_append, length_cons] at hdepth
    omega
  have hwhole := hreads.whole depth rest hlength (closes_of_item (by decide) hrest)
  have htype : identifier.type = .identifier := type_of_lexeme hidentifier
  refine ⟨?_, ?_⟩
  · rw [cons_append, check_cons, htype]
    rfl
  · rw [← text_of_lexeme hidentifier rfl]
    exact parseArgument_keyword htype (type_of_lexeme hassign) hwhole

theorem parseArguments_read {posArgs : List (Tree stod)} (hpos : ∀ t ∈ posArgs, t.Readable)
    (hkw : ∀ t ∈ kwArgs, t.2.Readable) (message : String)
    (htokens : tokens.map JinjaToken.lexeme = commas (writeAll posArgs ++ writeKeywords kwArgs)) :
    ∃ arguments, eraseList (positional arguments) = listNodes posArgs ∧
      eraseKeywords (keyword arguments) = keywordNodes kwArgs ∧
      ∀ depth closing rest, closing.type = .parenClose →
        (tokens ++ closing :: rest).length < depth →
        parseItems .parenClose (parseArgument (parseExpression stod depth) message)
          ((tokens ++ closing :: rest).length + 1) (tokens ++ closing :: rest) =
            .ok (arguments, closing :: rest) := by
  have hitems : List.Forall₂ (fun lexemes b => ∀ tokens, tokens.map JinjaToken.lexeme = lexemes →
      ∃ x, eraseArgument x = b ∧
        ReadsItem .parenClose (fun depth => parseArgument (parseExpression stod depth) message) x
          tokens)
      (writeAll posArgs ++ writeKeywords kwArgs) (argumentNodes posArgs kwArgs) := by
    rw [writeAll_eq, writeKeywords_eq]
    refine rel_append ?_ ?_
    · rw [forall₂_map_left_iff, forall₂_map_right_iff, forall₂_same]
      exact fun t ht => readsItem_positional (hpos t ht) message
    · rw [forall₂_map_left_iff, forall₂_map_right_iff, forall₂_same]
      exact fun t ht => readsItem_keyword (hkw t ht) message
  obtain ⟨arguments, harguments, hparsed⟩ := parseItems_commas (by decide) hitems tokens htokens
  refine ⟨arguments, ?_, ?_, fun depth closing rest hclosing hdepth => ?_⟩
  · rw [eraseList_eq, positional_erase, harguments, positional_argumentNodes]
  · rw [eraseKeywords_eq, keyword_erase, harguments, keyword_argumentNodes]
  · have hcheck : check .parenClose (closing :: rest) = true := by
      rw [check_cons, hclosing]
      rfl
    exact hparsed _ depth _ hcheck (Nat.lt_succ_self _) hdepth

/-- What is called: a filter without an argument list gets an empty one first. -/
theorem Tree.Readable.callee (h : t.Readable)
    (htokens : tokens.map JinjaToken.lexeme = bracketed (t.level < 100) t.write ++
      if t.bare then [mark .parenOpen, mark .parenClose] else []) :
    ∃ e, e.erase = t.node ∧ ReadsOperand stod false e tokens := by
  obtain ⟨front, back, rfl, hfront, hback⟩ := map_eq_append_iff.mp htokens
  by_cases hbare : t.bare = true
  · rw [if_pos hbare] at hback
    obtain ⟨opening, last, rfl, hopening, hlast⟩ := map_eq_cons_iff.mp hback
    obtain ⟨closing, rfl, hclosing⟩ := map_eq_singleton_iff.mp hlast
    have hlevel : ¬ t.level < 100 := by
      cases t with
      | filter target name args kwArgs => exact Nat.lt_irrefl 100
      | _ => cases hbare
    rw [decide_eq_false hlevel] at hfront
    obtain ⟨e, hreads⟩ := h front hfront
    exact ⟨e, hreads.node, hreads.called hbare opening closing (type_of_lexeme hopening)
      (type_of_lexeme hclosing)⟩
  · rw [if_neg hbare] at hback
    obtain rfl := map_eq_nil_iff.mp hback
    obtain ⟨e, he, hreads⟩ := h.object hfront
    rw [Bool.eq_false_iff.mpr hbare] at hreads
    exact ⟨e, he, by rwa [append_nil]⟩

theorem readable_call {callee : Tree stod} {posArgs : List (Tree stod)} (hcallee : callee.Readable)
    (hpos : ∀ t ∈ posArgs, t.Readable) (hkw : ∀ t ∈ kwArgs, t.2.Readable) :
    (Tree.call callee posArgs kwArgs).Readable := by
  intro tokens htokens
  rw [Tree.write, ← append_assoc] at htokens
  obtain ⟨ctokens, more, rfl, hctokens, hmore⟩ := map_eq_append_iff.mp htokens
  obtain ⟨opening, back, rfl, hopening, hback⟩ := map_eq_cons_iff.mp hmore
  obtain ⟨items, last, rfl, hitems, hlast⟩ := map_eq_append_iff.mp hback
  obtain ⟨closing, rfl, hclosing⟩ := map_eq_singleton_iff.mp hlast
  have hopening' : opening.type = .parenOpen := type_of_lexeme hopening
  have hclosing' : closing.type = .parenClose := type_of_lexeme hclosing
  obtain ⟨e, he, hreads⟩ := hcallee.callee hctokens
  obtain ⟨arguments, hpositional, hkeyword, hparsed⟩ :=
    parseArguments_read hpos hkw "Expected '=' after keyword argument name" hitems
  refine ⟨.call e.pos (some e) (positional arguments) (keyword arguments),
    Reads.of_operand ?_ rfl (hreads.extend ?_ (cons_ne_nil _ _) ?_)⟩
  · change ExprNode.call {} (some e.erase) (eraseList (positional arguments))
      (eraseKeywords (keyword arguments)) = _
    rw [he, hpositional, hkeyword]
    rfl
  · intro _ hfalse
    cases hfalse
  · intro depth turn rest hdepth _
    rw [cons_append, append_assoc] at hdepth ⊢
    exact parsePostfix_call hopening' hclosing'
      (hparsed depth closing rest hclosing' (Nat.lt_of_succ_le hdepth))

/-- A filter with its argument list. -/
theorem readsOperand_filter {target : Tree stod} {args : List (Tree stod)} (h : target.Readable)
    (hargs : ∀ t ∈ args, t.Readable) (hkw : ∀ t ∈ kwArgs, t.2.Readable)
    (htokens : tokens.map JinjaToken.lexeme =
      bracketed (target.level < 100) target.write ++ mark .pipe :: (.identifier, name) ::
        mark .parenOpen :: (commas (writeAll args ++ writeKeywords kwArgs) ++ [mark .parenClose])) :
    ∃ e, e.erase = (Tree.filter target name args kwArgs).node ∧
      ReadsOperand stod false e tokens := by
  obtain ⟨ttokens, more, rfl, httokens, hmore⟩ := map_eq_append_iff.mp htokens
  obtain ⟨pipe, more, rfl, hpipe, hmore⟩ := map_eq_cons_iff.mp hmore
  obtain ⟨identifier, more, rfl, hidentifier, hmore⟩ := map_eq_cons_iff.mp hmore
  obtain ⟨opening, back, rfl, hopening, hback⟩ := map_eq_cons_iff.mp hmore
  obtain ⟨items, last, rfl, hitems, hlast⟩ := map_eq_append_iff.mp hback
  obtain ⟨closing, rfl, hclosing⟩ := map_eq_singleton_iff.mp hlast
  have hpipe' : pipe.type = .pipe := type_of_lexeme hpipe
  have hclosing' : closing.type = .parenClose := type_of_lexeme hclosing
  obtain ⟨e, he, hreads⟩ := h.object httokens
  obtain ⟨arguments, hpositional, hkeyword, hparsed⟩ :=
    parseArguments_read hargs hkw "Expected '=' after filter keyword argument name" hitems
  refine ⟨.filter e.pos (some e) name (positional arguments) (keyword arguments), ?_,
    hreads.extend ?_ (cons_ne_nil _ _) ?_⟩
  · change ExprNode.filter {} (some e.erase) name (eraseList (positional arguments))
      (eraseKeywords (keyword arguments)) = _
    rw [he, hpositional, hkeyword]
    rfl
  · intro rest _
    rw [cons_append, peek_cons _ (by rw [hpipe']; decide), hpipe']
    decide
  · intro depth turn rest hdepth _
    simp only [cons_append, append_assoc, nil_append] at hdepth ⊢
    have hlength : (items ++ closing :: rest).length < depth := by
      simp only [length_cons] at hdepth
      omega
    rw [← text_of_lexeme hidentifier rfl]
    exact parsePostfix_filterCall hpipe' (type_of_lexeme hidentifier) (type_of_lexeme hopening)
      hclosing' (hparsed depth closing rest hclosing' hlength)

theorem readable_filter {target : Tree stod} {args : List (Tree stod)} (h : target.Readable)
    (hargs : ∀ t ∈ args, t.Readable) (hkw : ∀ t ∈ kwArgs, t.2.Readable) :
    (Tree.filter target name args kwArgs).Readable := by
  intro tokens htokens
  by_cases hempty : writeAll args ++ writeKeywords kwArgs = []
  · obtain ⟨hargsNil, hkwNil⟩ := append_eq_nil_iff.mp hempty
    rw [writeAll_eq] at hargsNil
    rw [writeKeywords_eq] at hkwNil
    obtain rfl := map_eq_nil_iff.mp hargsNil
    obtain rfl := map_eq_nil_iff.mp hkwNil
    obtain ⟨ttokens, more, rfl, httokens, hmore⟩ := map_eq_append_iff.mp htokens
    obtain ⟨pipe, last, rfl, hpipe, hlast⟩ := map_eq_cons_iff.mp hmore
    obtain ⟨identifier, rfl, hidentifier⟩ := map_eq_singleton_iff.mp hlast
    have hpipe' : pipe.type = .pipe := type_of_lexeme hpipe
    obtain ⟨e, he, hreads⟩ := h.object httokens
    have hnode : (ExprNode.filter e.pos (some e) name [] []).erase =
        (Tree.filter target name [] []).node :=
      congrArg (fun e => ExprNode.filter {} (some e) name [] []) he
    have hhead : ∀ (more rest : List JinjaToken), target.bare = true →
        (peek (pipe :: more ++ rest)).type ≠ .parenOpen := by
      intro more rest _
      rw [cons_append, peek_cons _ (by rw [hpipe']; decide), hpipe']
      decide
    have hbare : ReadsOperand stod true (.filter e.pos (some e) name [] [])
        (ttokens ++ [pipe, identifier]) := by
      refine hreads.extend (hhead _) (cons_ne_nil _ _) fun depth turn rest _ hrest => ?_
      rw [← text_of_lexeme hidentifier rfl]
      exact parsePostfix_filter hpipe' (type_of_lexeme hidentifier) (hrest rfl)
    refine ⟨.filter e.pos (some e) name [] [], ⟨hnode, fun _ => hbare, ?_, fun _ => hbare.binary,
      ReadsBinary.whole (@ReadsOperand.binary _ _ _ _ (fun _ => True) 0 _ hbare) trivial⟩⟩
    intro _ opening closing hopening hclosing
    rw [append_assoc]
    refine hreads.extend (hhead _) (cons_ne_nil _ _) fun depth turn rest _ _ => ?_
    have hcheck : check .parenClose (closing :: rest) = true := by
      rw [check_cons, hclosing]
      rfl
    rw [← text_of_lexeme hidentifier rfl]
    exact parsePostfix_filterCall hpipe' (type_of_lexeme hidentifier) hopening hclosing
      (if_pos hcheck)
  · rw [Tree.write, filterArguments, if_neg hempty] at htokens
    obtain ⟨e, he, hreads⟩ := readsOperand_filter h hargs hkw htokens
    refine ⟨e, Reads.of_operand he ?_ hreads⟩
    rw [Bool.eq_false_iff]
    intro hbare
    cases args with
    | cons t ts => cases hbare
    | nil =>
      cases kwArgs with
      | cons t ts => cases hbare
      | nil => exact hempty rfl

theorem parseConditional_none {condition : ExprNode D} (hif : kwIf.type = .kwIf)
    (hcondition : E 0 tokens = .ok (condition, rest)) (helse : (peek rest).type ≠ .kwElse) :
    parseConditional E e (kwIf :: tokens) =
      .ok (.conditional e.pos (some condition) (some e) none, rest) := by
  have hcheck : check .kwIf (kwIf :: tokens) = true := by
    rw [check_cons, hif]
    rfl
  have hnot : ¬ check .kwElse rest = true := by
    rw [check_iff]
    exact helse
  rw [parseConditional, if_pos hcheck, advance_cons tokens (by rw [hif]; decide), hcondition]
  show (if check .kwElse rest = true then _ else _) = _
  rw [if_neg hnot]
  rfl

theorem parseConditional_else {condition falseValue : ExprNode D} {kwElse : JinjaToken}
    {more : List JinjaToken} (hif : kwIf.type = .kwIf) (helse : kwElse.type = .kwElse)
    (hcondition : E 0 tokens = .ok (condition, kwElse :: more))
    (hfalse : E 0 more = .ok (falseValue, rest)) :
    parseConditional E e (kwIf :: tokens) =
      .ok (.conditional e.pos (some condition) (some e) (some falseValue), rest) := by
  have hcheck : check .kwIf (kwIf :: tokens) = true := by
    rw [check_cons, hif]
    rfl
  have hcheck' : check .kwElse (kwElse :: more) = true := by
    rw [check_cons, helse]
    rfl
  rw [parseConditional, if_pos hcheck, advance_cons tokens (by rw [hif]; decide), hcondition]
  show (if check .kwElse (kwElse :: more) = true then _ else _) = _
  rw [if_pos hcheck', advance_cons more (by rw [helse]; decide), hfalse]
  rfl

theorem operatorAt_other {token : JinjaToken} (h : binaryPrecedence token.type = 0)
    (hnot : token.type ≠ .kwNot) (his : token.type ≠ .kwIs) (tokens : List JinjaToken) :
    (operatorAt (token :: tokens)).1 = 0 := by
  simp only [operatorAt, check_cons, hnot, his, decide_false, Bool.false_and, Bool.false_eq_true,
    if_false]
  by_cases heof : token.type = .eof
  · rw [peek, if_pos heof]
    rfl
  · rw [peek_cons tokens heof, h]

theorem above_zero : Above 1 0 := fun op _ => precedence_pos op

/-- The value in front of `if` is read as an operand, and the rest by `parseConditional`. -/
theorem readsWhole_conditional {t : ExprNode D} {ttokens back : List JinjaToken}
    (ht : ReadsBinary stod (Above 1) (capOf 1) t ttokens) (hif : kwIf.type = .kwIf)
    (hback : ∀ depth rest, (back ++ rest).length < depth → Closes rest →
      parseConditional (parseExpression stod depth) t (kwIf :: (back ++ rest)) = .ok (e, rest)) :
    ReadsWhole stod e (ttokens ++ kwIf :: back) := by
  intro depth rest hdepth hcloses
  obtain ⟨depth, rfl⟩ := Nat.exists_eq_succ_of_ne_zero (Nat.ne_zero_of_lt hdepth)
  rw [append_assoc, cons_append] at hdepth ⊢
  have hoperator : (operatorAt (kwIf :: (back ++ rest))).1 = 0 := by
    apply operatorAt_other <;> rw [hif] <;> decide
  have hpostfix : isPostfix (peek (kwIf :: (back ++ rest))).type = false := by
    rw [peek_cons _ (by rw [hif]; decide), hif]
    rfl
  obtain ⟨turn, hturn, hbinary⟩ := ht depth 0 (kwIf :: (back ++ rest)) (Nat.le_of_lt_succ hdepth)
    above_zero hpostfix (by rw [hoperator]; exact Nat.zero_le _)
  obtain ⟨turn, rfl⟩ := Nat.exists_eq_succ_of_ne_zero (Nat.ne_zero_of_lt hturn)
  have hlength : (back ++ rest).length < depth := by
    simp only [length_append, length_cons] at hdepth ⊢
    omega
  rw [parseExpression, expressionBody, hbinary, parseOperators_stop (Nat.le_of_eq hoperator)]
  exact hback depth rest hlength hcloses

theorem readable_conditional {condition trueValue : Tree stod} {falseValue : Option (Tree stod)}
    (hcondition : condition.Readable) (htrue : trueValue.Readable)
    (hfalse : ∀ t, falseValue = some t → t.Readable) :
    (Tree.conditional condition trueValue falseValue).Readable := by
  intro tokens htokens
  obtain ⟨ttokens, more, rfl, httokens, hmore⟩ := map_eq_append_iff.mp htokens
  obtain ⟨kwIf, back, rfl, hif, hback⟩ := map_eq_cons_iff.mp hmore
  obtain ⟨ctokens, etokens, rfl, hctokens, hetokens⟩ := map_eq_append_iff.mp hback
  obtain ⟨t, ht, htreads⟩ := htrue.joined Nat.one_pos httokens
  obtain ⟨c, hc, hcreads⟩ := hcondition.joined Nat.one_pos hctokens
  have hif' : kwIf.type = .kwIf := type_of_lexeme hif
  have hparsed : ∀ depth rest, (ctokens ++ rest).length < depth →
      isPostfix (peek rest).type = false → (operatorAt rest).1 = 0 → (peek rest).type ≠ .kwIf →
      parseExpression stod depth 0 (ctokens ++ rest) = .ok (c, rest) := by
    intro depth rest hdepth hpostfix hoperator hnot
    exact hcreads.expression hdepth above_zero hpostfix (by rw [hoperator]; exact Nat.zero_le _)
      (Nat.le_of_eq hoperator) fun _ => hnot
  cases falseValue with
  | none =>
    obtain rfl := map_eq_nil_iff.mp hetokens
    refine ⟨.conditional t.pos (some c) (some t) none, Reads.of_whole ?_ rfl rfl ?_⟩
    · exact congrArg₂ (fun c t => ExprNode.conditional {} (some c) (some t) none) hc ht
    refine readsWhole_conditional htreads hif' fun depth rest hdepth hcloses => ?_
    rw [append_nil] at hdepth ⊢
    exact parseConditional_none hif'
      (hparsed depth rest hdepth hcloses.postfix_false hcloses.operator hcloses.not_if)
      hcloses.not_else
  | some f =>
    obtain ⟨kwElse, ftokens, rfl, helse, hftokens⟩ := map_eq_cons_iff.mp hetokens
    obtain ⟨f, hfreads⟩ := hfalse f rfl ftokens hftokens
    have helse' : kwElse.type = .kwElse := type_of_lexeme helse
    refine ⟨.conditional t.pos (some c) (some t) (some f), Reads.of_whole ?_ rfl rfl ?_⟩
    · change ExprNode.conditional {} (some c.erase) (some t.erase) (some f.erase) = _
      rw [hc, ht, hfreads.node]
      rfl
    refine readsWhole_conditional htreads hif' fun depth rest hdepth hcloses => ?_
    rw [append_assoc, cons_append] at hdepth ⊢
    have hpeek : peek (kwElse :: (ftokens ++ rest)) = kwElse :=
      peek_cons _ (by rw [helse']; decide)
    have hlength : (ftokens ++ rest).length < depth := by
      simp only [length_append, length_cons] at hdepth ⊢
      omega
    refine parseConditional_else hif' helse' (hparsed depth _ hdepth ?_ ?_ ?_)
      (hfreads.whole depth rest hlength hcloses)
    · rw [hpeek, helse']
      rfl
    · apply operatorAt_other <;> rw [helse'] <;> decide
    · rw [hpeek, helse']
      decide

mutual

theorem Tree.readable : ∀ t : Tree stod, t.Readable
  | .literal value => readable_literal value
  | .identifier name => readable_identifier name
  | .unary _ operand => readable_unary operand.readable
  | .binary _ left right => readable_binary left.readable right.readable
  | .conditional condition trueValue falseValue =>
    readable_conditional condition.readable trueValue.readable (readable_option falseValue)
  | .member object name => readable_member object.readable name
  | .subscript object index => readable_subscript object.readable index.readable
  | .call callee posArgs kwArgs =>
    readable_call callee.readable (readable_all posArgs) (readable_keywords kwArgs)
  | .filter target _ args kwArgs =>
    readable_filter target.readable (readable_all args) (readable_keywords kwArgs)
  | .list elements => readable_list (readable_all elements)
  | .dict pairs => readable_dict (readable_pairs pairs)

theorem readable_option : ∀ (t : Option (Tree stod)) (u : Tree stod), t = some u → u.Readable
  | none => fun u h => absurd h (Option.some_ne_none u).symm
  | some t => fun _ h => Option.some.inj h ▸ t.readable

theorem readable_all : ∀ ts : List (Tree stod), ∀ t ∈ ts, t.Readable
  | [] => forall_mem_nil _
  | t :: ts => forall_mem_cons.mpr ⟨t.readable, readable_all ts⟩

theorem readable_keywords : ∀ ts : List (Text × Tree stod), ∀ t ∈ ts, t.2.Readable
  | [] => forall_mem_nil _
  | (_, t) :: ts => forall_mem_cons.mpr ⟨t.readable, readable_keywords ts⟩

theorem readable_pairs : ∀ ts : List (Tree stod × Tree stod),
    ∀ t ∈ ts, t.1.Readable ∧ t.2.Readable
  | [] => forall_mem_nil _
  | (key, value) :: ts =>
    forall_mem_cons.mpr ⟨⟨key.readable, value.readable⟩, readable_pairs ts⟩

end

/-- A tree written between the marks of an expression is parsed as one output of that tree, and on any
tokens the parser returns a tree or throws a `ParseError`. -/
theorem parse_write (stod : Text → Option (D × Nat)) :
    (∀ (t : Tree stod) (opening closing : JinjaToken) (tokens rest : List JinjaToken),
      opening.type = .exprBegin → closing.type = .exprEnd →
      tokens.map JinjaToken.lexeme = t.write → isAtEnd rest = true →
      ∃ e, parse stod (opening :: (tokens ++ closing :: rest)) =
          .ok (.mk opening.pos [some (.output opening.pos (some e))]) ∧ e.erase = t.node) ∧
    ∀ tokens, (∃ body, parse stod tokens = .ok body) ∨
      ∃ message pos, parse stod tokens = .error (.parseError message pos) := by
  refine ⟨fun t opening closing tokens rest hopening hclosing htokens hrest => ?_, parse_total⟩
  obtain ⟨e, hreads⟩ := t.readable tokens htokens
  refine ⟨e, ?_, hreads.node⟩
  have hcheck : check .exprEnd (closing :: rest) = true := by
    rw [check_cons, hclosing]
    rfl
  have hexpression : wholeExpression stod (tokens ++ closing :: rest) = .ok (e, closing :: rest) :=
    hreads.whole _ (closing :: rest) (Nat.lt_succ_self _) (closes_of hcheck (by decide))
  have houtput : ∀ pos, parseOutputStatement stod pos (tokens ++ closing :: rest) =
      .ok (.output pos (some e), rest) := by
    intro pos
    rw [parseOutputStatement, hexpression]
    show (consume .exprEnd _ (closing :: rest) >>= _) = _
    rw [consume, if_pos hcheck, advance_cons rest (by rw [hclosing]; decide)]
    rfl
  obtain ⟨_, text, pos⟩ := opening
  subst hopening
  have hstatement : ∀ depth, parseStatement stod (depth + 1)
      (⟨.exprBegin, text, pos⟩ :: (tokens ++ closing :: rest)) = .ok (.output pos (some e), rest) :=
    fun _ => houtput pos
  have hend : ∀ turn (statement : Parser (StmtNode D)),
      parseStatements [] statement (turn + 1) rest = .ok ([], rest) := by
    intro turn statement
    rw [parseStatements, hrest]
    rfl
  have hstatements : ∀ depth turn, parseStatements [] (parseStatement stod (depth + 1)) (turn + 2)
      (⟨.exprBegin, text, pos⟩ :: (tokens ++ closing :: rest)) =
        .ok ([some (.output pos (some e))], rest) := by
    intro depth turn
    rw [parseStatements]
    show (parseStatement stod (depth + 1) _ >>= _) = _
    rw [hstatement]
    show (parseStatements [] _ (turn + 1) rest >>= _) = _
    rw [hend]
    rfl
  rw [parse, parseBlock, length_cons, length_append, length_cons, hstatements]
  rfl

/-- `(a + b) * -c` between its marks. -/
theorem parse_write_product : ∃ e : ExprNode Nat,
    parse (fun _ => none) [⟨.exprBegin, [], {}⟩, ⟨.parenOpen, [], {}⟩, ⟨.identifier, [97], {}⟩,
      ⟨.plus, [], {}⟩, ⟨.identifier, [98], {}⟩, ⟨.parenClose, [], {}⟩, ⟨.mul, [], {}⟩,
      ⟨.minus, [], {}⟩, ⟨.identifier, [99], {}⟩, ⟨.exprEnd, [], {}⟩] =
        .ok (.mk {} [some (.output {} (some e))]) ∧
      e.erase = .binaryOp {} .mul
        (some (.binaryOp {} .add (some (.identifier {} [97])) (some (.identifier {} [98]))))
        (some (.unaryOp {} .negate (some (.identifier {} [99])))) :=
  (parse_write fun _ => none).1
    (.binary ⟨.mul, by decide⟩
      (.binary ⟨.add, by decide⟩ (.identifier [97]) (.identifier [98]))
      (.unary .negate (.identifier [99])))
    ⟨.exprBegin, [], {}⟩ ⟨.exprEnd, [], {}⟩ [⟨.parenOpen, [], {}⟩, ⟨.identifier, [97], {}⟩,
      ⟨.plus, [], {}⟩, ⟨.identifier, [98], {}⟩, ⟨.parenClose, [], {}⟩, ⟨.mul, [], {}⟩,
      ⟨.minus, [], {}⟩, ⟨.identifier, [99], {}⟩] [] rfl rfl rfl rfl

end JobTokenizer
