import Mathlib.Data.List.Basic

/-!
# The grammar of JSON texts

RFC 8259 over bytes, with every byte from 0x80 on allowed inside strings. A
production relates what it describes to the bytes in front of it and the bytes
behind it. Syntax trees keep numbers and strings as they are written; what a
string stands for is `decodedText`.
-/

namespace JobJson

abbrev Bytes : Type := List UInt8

def quotationMark : UInt8 := 34

def escapeMark : UInt8 := 92

def decimalPoint : UInt8 := 46

def minus : UInt8 := 45

def plus : UInt8 := 43

def zero : UInt8 := 48

def beginArray : UInt8 := 91

def endArray : UInt8 := 93

def beginObject : UInt8 := 123

def endObject : UInt8 := 125

def nameSeparator : UInt8 := 58

def valueSeparator : UInt8 := 44

/-- The letter of four-digit escapes. -/
def letterU : UInt8 := 117

def isDigit19 (c : UInt8) : Bool := 49 ≤ c && c ≤ 57

def isDigit (c : UInt8) : Bool := 48 ≤ c && c ≤ 57

def isE (c : UInt8) : Bool := c == 101 || c == 69

def isHexDigit (c : UInt8) : Bool := isDigit c || (97 ≤ c && c ≤ 102) || (65 ≤ c && c ≤ 70)

def isWhitespace (c : UInt8) : Bool := c == 32 || c == 9 || c == 10 || c == 13

def literalTrue : Bytes := [116, 114, 117, 101]

def literalFalse : Bytes := [102, 97, 108, 115, 101]

def literalNull : Bytes := [110, 117, 108, 108]

def IsWs (w : Bytes) : Prop := ∀ c ∈ w, isWhitespace c = true

def IsDigits (ds : Bytes) : Prop := ds ≠ [] ∧ ∀ c ∈ ds, isDigit c = true

/-- A zero, or digits that do not begin with one. -/
def IsInt (t : Bytes) : Prop :=
  t = [zero] ∨ ∃ c ds, t = c :: ds ∧ isDigit19 c = true ∧ ∀ d ∈ ds, isDigit d = true

def IsFrac (t : Bytes) : Prop := t = [] ∨ ∃ ds, t = decimalPoint :: ds ∧ IsDigits ds

def IsExp (t : Bytes) : Prop :=
  t = [] ∨ ∃ e sign ds, t = e :: (sign ++ ds) ∧ isE e = true ∧
    (sign = [] ∨ sign = [plus] ∨ sign = [minus]) ∧ IsDigits ds

def IsNumber (t : Bytes) : Prop :=
  ∃ sign int frac exp, t = sign ++ (int ++ (frac ++ exp)) ∧ (sign = [] ∨ sign = [minus]) ∧
    IsInt int ∧ IsFrac frac ∧ IsExp exp

/-- A character of a string as it is written: raw, behind a backslash, or by four hexadecimal
digits. -/
inductive JsonChar where
  | raw (c : UInt8)
  | short (c : UInt8)
  | unicode (a b c d : UInt8)
deriving DecidableEq

/-- The character that a short escape stands for. -/
def shortEscape (c : UInt8) : Option UInt8 :=
  if c = 34 then some 34
  else if c = 92 then some 92
  else if c = 47 then some 47
  else if c = 98 then some 8
  else if c = 102 then some 12
  else if c = 110 then some 10
  else if c = 114 then some 13
  else if c = 116 then some 9
  else none

namespace JsonChar

def Valid : JsonChar → Prop
  | raw c => 32 ≤ c ∧ c ≠ quotationMark ∧ c ≠ escapeMark
  | short c => (shortEscape c).isSome = true
  | unicode a b c d =>
    isHexDigit a = true ∧ isHexDigit b = true ∧ isHexDigit c = true ∧ isHexDigit d = true

def text : JsonChar → Bytes
  | raw c => [c]
  | short c => [escapeMark, c]
  | unicode a b c d => [escapeMark, letterU, a, b, c, d]

def isEscape : JsonChar → Bool
  | raw _ => false
  | _ => true

end JsonChar

def charsText (cs : List JsonChar) : Bytes := cs.flatMap JsonChar.text

def quoted (cs : List JsonChar) : Bytes := quotationMark :: (charsText cs ++ [quotationMark])

def hexValue (c : UInt8) : Nat :=
  if 48 ≤ c && c ≤ 57 then c.toNat - 48
  else if 97 ≤ c && c ≤ 102 then 10 + (c.toNat - 97)
  else if 65 ≤ c && c ≤ 70 then 10 + (c.toNat - 65)
  else 255

/-- Four hexadecimal digits as a number. -/
def hexQuad (a b c d : UInt8) : Nat :=
  ((hexValue a * 16 + hexValue b) * 16 + hexValue c) * 16 + hexValue d

def isHighSurrogate (u : Nat) : Bool := 0xD800 ≤ u && u ≤ 0xDBFF

def isLowSurrogate (u : Nat) : Bool := 0xDC00 ≤ u && u ≤ 0xDFFF

def combineSurrogates (high low : Nat) : Nat := 0x10000 + (high - 0xD800) * 1024 + (low - 0xDC00)

/-- UTF-8 of a code point. -/
def utf8 (u : Nat) : Bytes :=
  if u ≤ 0x7F then [UInt8.ofNat u]
  else if u ≤ 0x7FF then [UInt8.ofNat (0xC0 + u / 64), UInt8.ofNat (0x80 + u % 64)]
  else if u ≤ 0xFFFF then
    [UInt8.ofNat (0xE0 + u / 4096), UInt8.ofNat (0x80 + u / 64 % 64), UInt8.ofNat (0x80 + u % 64)]
  else
    [UInt8.ofNat (0xF0 + u / 262144), UInt8.ofNat (0x80 + u / 4096 % 64),
      UInt8.ofNat (0x80 + u / 64 % 64), UInt8.ofNat (0x80 + u % 64)]

/-- What a string stands for, provided that every high surrogate is followed by a low one and no
low surrogate stands elsewhere. -/
def decodedText : List JsonChar → Option Bytes
  | [] => some []
  | .raw c :: cs => (decodedText cs).map (c :: ·)
  | .short c :: cs => (decodedText cs).map ((shortEscape c).getD c :: ·)
  | .unicode a b c d :: cs =>
    if isHighSurrogate (hexQuad a b c d) then
      match cs with
      | .unicode e f g h :: cs =>
        if isLowSurrogate (hexQuad e f g h) then
          (decodedText cs).map
            (utf8 (combineSurrogates (hexQuad a b c d) (hexQuad e f g h)) ++ ·)
        else none
      | _ => none
    else if isLowSurrogate (hexQuad a b c d) then none
    else (decodedText cs).map (utf8 (hexQuad a b c d) ++ ·)

def SurrogatesPaired (cs : List JsonChar) : Prop := (decodedText cs).isSome = true

inductive Json where
  | null
  | bool (b : Bool)
  | number (text : Bytes)
  | string (chars : List JsonChar)
  | array (items : List Json)
  | object (members : List (List JsonChar × Json))

def boolText (b : Bool) : Bytes := if b then literalTrue else literalFalse

mutual

/-- `Value j b r`: the bytes `b` begin with a text of the value, and `r` is what follows. -/
inductive Value : Json → Bytes → Bytes → Prop
  | null {r : Bytes} : Value .null (literalNull ++ r) r
  | bool {b : Bool} {r : Bytes} : Value (.bool b) (boolText b ++ r) r
  | number {t r : Bytes} (ht : IsNumber t) : Value (.number t) (t ++ r) r
  | string {cs : List JsonChar} {r : Bytes} (hcs : ∀ c ∈ cs, c.Valid) :
      Value (.string cs) (quoted cs ++ r) r
  | emptyArray {w r : Bytes} (hw : IsWs w) :
      Value (.array []) (beginArray :: (w ++ endArray :: r)) r
  | array {js : List Json} {b r : Bytes} (hjs : Elements js b r) :
      Value (.array js) (beginArray :: b) r
  | emptyObject {w r : Bytes} (hw : IsWs w) :
      Value (.object []) (beginObject :: (w ++ endObject :: r)) r
  | object {ms : List (List JsonChar × Json)} {b r : Bytes} (hms : Members ms b r) :
      Value (.object ms) (beginObject :: b) r

/-- One or more values with white space around them, and the bracket that closes the array. -/
inductive Elements : List Json → Bytes → Bytes → Prop
  | last {j : Json} {w b w' r : Bytes} (hw : IsWs w) (hj : Value j b (w' ++ endArray :: r))
      (hw' : IsWs w') : Elements [j] (w ++ b) r
  | more {j : Json} {js : List Json} {w b w' d r : Bytes} (hw : IsWs w)
      (hj : Value j b (w' ++ valueSeparator :: d)) (hw' : IsWs w') (hjs : Elements js d r) :
      Elements (j :: js) (w ++ b) r

/-- One or more named values, and the brace that closes the object. -/
inductive Members : List (List JsonChar × Json) → Bytes → Bytes → Prop
  | last {k : List JsonChar} {j : Json} {w u v b w' r : Bytes} (hw : IsWs w)
      (hk : ∀ c ∈ k, c.Valid) (hu : IsWs u) (hv : IsWs v)
      (hj : Value j b (w' ++ endObject :: r)) (hw' : IsWs w') :
      Members [(k, j)] (w ++ (quoted k ++ (u ++ nameSeparator :: (v ++ b)))) r
  | more {k : List JsonChar} {j : Json} {ms : List (List JsonChar × Json)}
      {w u v b w' d r : Bytes} (hw : IsWs w) (hk : ∀ c ∈ k, c.Valid) (hu : IsWs u) (hv : IsWs v)
      (hj : Value j b (w' ++ valueSeparator :: d)) (hw' : IsWs w') (hms : Members ms d r) :
      Members ((k, j) :: ms) (w ++ (quoted k ++ (u ++ nameSeparator :: (v ++ b)))) r

end

/-- A whole text: one value with white space around it. -/
def IsText (j : Json) (source : Bytes) : Prop :=
  ∃ w b w', source = w ++ b ∧ IsWs w ∧ Value j b w' ∧ IsWs w'

end JobJson

/-!
## Lexer

The cursor is the part of the source that it has not passed yet. A read at the
end, an advance beyond it and a loop that does not come to its end have no
answer: these functions then give `none`. A token keeps the bytes of its range.
-/

namespace JobJson

inductive JsonLexType where
  | invalid
  | end
  | beginObject
  | endObject
  | beginArray
  | endArray
  | nameSeparator
  | valueSeparator
  | string
  | number
  | true
  | false
  | null
deriving DecidableEq

structure JsonLex where
  type : JsonLexType
  /-- The bytes of the token. -/
  view : Bytes
  hasEscapes : Bool
deriving DecidableEq

abbrev JsonCursor : Type := Bytes

def atEnd (c : JsonCursor) : Bool := c.isEmpty

def current (c : JsonCursor) : Option UInt8 := c.head?

def advance : JsonCursor → Option JsonCursor
  | [] => none
  | _ :: c => some c

def consume (expected : UInt8) (c : JsonCursor) : Option (Bool × JsonCursor) :=
  if atEnd c then some (false, c)
  else do
    let b ← current c
    if b ≠ expected then some (false, c)
    else do
      let c ← advance c
      some (true, c)

/-- The token of the bytes from `begin` to the cursor. -/
def lexFrom (type : JsonLexType) (begin c : JsonCursor) (hasEscapes : Bool) : JsonLex :=
  ⟨type, begin.take (begin.length - c.length), hasEscapes⟩

namespace JsonLexer

/-- The loops that pass over bytes of one kind. -/
def skipWhile (p : UInt8 → Bool) : Nat → JsonCursor → Option JsonCursor
  | 0, _ => none
  | turns + 1, c =>
    if atEnd c then some c
    else do
      let b ← current c
      if p b then do
        let c ← advance c
        skipWhile p turns c
      else some c

def skipWhitespace (c : JsonCursor) : Option JsonCursor := skipWhile isWhitespace (c.length + 1) c

def skipDigits (c : JsonCursor) : Option JsonCursor := skipWhile isDigit (c.length + 1) c

def isValueTerminator (c : JsonCursor) : Option Bool :=
  if atEnd c then some true
  else do
    let b ← current c
    some (isWhitespace b || b == nameSeparator || b == valueSeparator || b == endArray ||
      b == endObject)

def single (type : JsonLexType) (begin : JsonCursor) : Option (JsonLex × JsonCursor) := do
  let c ← advance begin
  some (lexFrom type begin c false, c)

def invalidFrom (begin c : JsonCursor) : Option (JsonLex × JsonCursor) := do
  let c ← if atEnd c then some c else advance c
  some (lexFrom .invalid begin c false, c)

/-! ## Literals and numbers

A scan ends behind what it looked for, or with the place where it gave up. -/

abbrev Scan : Type := Except JsonCursor JsonCursor

def andThen (scan : Option Scan) (next : JsonCursor → Option Scan) : Option Scan := do
  match ← scan with
  | .error c => some (.error c)
  | .ok c => next c

def scanExpected : Bytes → JsonCursor → Option Scan
  | [], c => some (.ok c)
  | expected :: literal, c =>
    if atEnd c then some (.error c)
    else do
      let b ← current c
      if b ≠ expected then some (.error c)
      else do
        let c ← advance c
        scanExpected literal c

/-- Close a token that needs a terminator behind it. -/
def closeValue (type : JsonLexType) (begin : JsonCursor) (scan : Option Scan) :
    Option (JsonLex × JsonCursor) := do
  match ← scan with
  | .error c => invalidFrom begin c
  | .ok c =>
    if ← isValueTerminator c then some (lexFrom type begin c false, c) else invalidFrom begin c

def scanLiteral (type : JsonLexType) (literal : Bytes) (begin : JsonCursor) :
    Option (JsonLex × JsonCursor) :=
  closeValue type begin (scanExpected literal begin)

def scanMinus (c : JsonCursor) : Option Scan := do
  let (found, c) ← consume minus c
  if found && atEnd c then some (.error c) else some (.ok c)

/-- One digit, then all that follow it. -/
def scanDigits (first : UInt8 → Bool) (c : JsonCursor) : Option Scan :=
  if atEnd c then some (.error c)
  else do
    let b ← current c
    if !first b then some (.error c)
    else do
      let c ← advance c
      let c ← skipDigits c
      some (.ok c)

def scanInt (c : JsonCursor) : Option Scan := do
  let (found, c) ← consume zero c
  if found then
    if atEnd c then some (.ok c)
    else do
      let b ← current c
      if isDigit b then some (.error c) else some (.ok c)
  else scanDigits isDigit19 c

def scanFraction (c : JsonCursor) : Option Scan :=
  if atEnd c then some (.ok c)
  else do
    let b ← current c
    if b ≠ decimalPoint then some (.ok c)
    else do
      let c ← advance c
      scanDigits isDigit c

def scanExponentSign (c : JsonCursor) : Option JsonCursor :=
  if atEnd c then some c
  else do
    let b ← current c
    if b == plus || b == minus then advance c else some c

def scanExponent (c : JsonCursor) : Option Scan :=
  if atEnd c then some (.ok c)
  else do
    let b ← current c
    if !isE b then some (.ok c)
    else do
      let c ← advance c
      let c ← scanExponentSign c
      scanDigits isDigit c

def scanNumber (begin : JsonCursor) : Option (JsonLex × JsonCursor) :=
  closeValue .number begin
    (andThen (andThen (andThen (scanMinus begin) scanInt) scanFraction) scanExponent)

def isEscapable (c : UInt8) : Bool :=
  c == 34 || c == 92 || c == 47 || c == 98 || c == 102 || c == 110 || c == 114 || c == 116

def scanHex : Nat → JsonCursor → Option Scan
  | 0, c => some (.ok c)
  | count + 1, c =>
    if atEnd c then some (.error c)
    else do
      let b ← current c
      if !isHexDigit b then some (.error c)
      else do
        let c ← advance c
        scanHex count c

def scanStringLoop (begin : JsonCursor) : Nat → Bool → JsonCursor → Option (JsonLex × JsonCursor)
  | 0, _, _ => none
  | turns + 1, hasEscapes, c =>
    if atEnd c then some (lexFrom .invalid begin c hasEscapes, c)
    else do
      let b ← current c
      if b = quotationMark then do
        let c ← advance c
        some (lexFrom .string begin c hasEscapes, c)
      else if b = escapeMark then do
        let c ← advance c
        if atEnd c then invalidFrom begin c
        else do
          let e ← current c
          if isEscapable e then do
            let c ← advance c
            scanStringLoop begin turns true c
          else if e = letterU then do
            let c ← advance c
            match ← scanHex 4 c with
            | .error c => invalidFrom begin c
            | .ok c => scanStringLoop begin turns true c
          else invalidFrom begin c
      else if b < 32 then invalidFrom begin c
      else do
        let c ← advance c
        scanStringLoop begin turns hasEscapes c

def scanString (begin : JsonCursor) : Option (JsonLex × JsonCursor) := do
  let c ← advance begin
  scanStringLoop begin (begin.length + 1) false c

/-- The punctuation marks. -/
def punctuation (b : UInt8) : Option JsonLexType :=
  if b = beginObject then some .beginObject
  else if b = endObject then some .endObject
  else if b = beginArray then some .beginArray
  else if b = endArray then some .endArray
  else if b = nameSeparator then some .nameSeparator
  else if b = valueSeparator then some .valueSeparator
  else none

/-- What is read at the first byte that is no white space. -/
def scanAt (b : UInt8) (c : JsonCursor) : Option (JsonLex × JsonCursor) :=
  match punctuation b with
  | some type => single type c
  | none =>
    if b = quotationMark then scanString c
    else if b = 116 then scanLiteral .true literalTrue c
    else if b = 102 then scanLiteral .false literalFalse c
    else if b = 110 then scanLiteral .null literalNull c
    else if b = minus then scanNumber c
    else if isDigit b then scanNumber c
    else single .invalid c

def next (c : JsonCursor) : Option (JsonLex × JsonCursor) := do
  let c ← skipWhitespace c
  if atEnd c then some (lexFrom .end c c false, c)
  else do
    let b ← current c
    scanAt b c

end JsonLexer

end JobJson
