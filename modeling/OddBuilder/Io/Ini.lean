import OddBuilder.Library.Terminated

/-!
# JobIni

Objects as the reflection shows them: their members in order, each with a name, a
type, its initializer and its value. Text is bytes. How a number, an enumeration
or a type of the caller's is written and read is left to its codec.
-/

namespace JobIo

namespace JobIni

abbrev Text : Type := List UInt8

namespace Grammar

def CommentHash : UInt8 := 35
def CommentSemicolon : UInt8 := 59
def GroupOpen : UInt8 := 91
def GroupClose : UInt8 := 93
def LocaleOpen : UInt8 := 91
def LocaleClose : UInt8 := 93
def Assignment : UInt8 := 61
def ListSeparator : UInt8 := 59
def Escape : UInt8 := 92
def NewLine : UInt8 := 10
def CarriageReturn : UInt8 := 13
def Space : UInt8 := 32
def Tab : UInt8 := 9

end Grammar

inductive TokenType where
  | Empty
  | Comment
  | Group
  | Entry
  deriving DecidableEq

/-- The end of `nextLineView`: one carriage return goes. -/
def dropCarriageReturn (line : Text) : Text :=
  if line.getLast? = some Grammar.CarriageReturn then line.dropLast else line

/-- The lines that `nextLineView` gives, one after the other. -/
def lineViews (source : Text) : List Text :=
  (Terminated.pieces Grammar.NewLine source).map dropCarriageReturn

def classify : Text → TokenType
  | [] => .Empty
  | c :: _ =>
    if c = Grammar.CommentHash ∨ c = Grammar.CommentSemicolon then .Comment
    else if c = Grammar.GroupOpen then .Group
    else .Entry

def isBlank (c : UInt8) : Bool := c = Grammar.Space || c = Grammar.Tab

def trimView (value : Text) : Text :=
  ((value.dropWhile isBlank).reverse.dropWhile isBlank).reverse

def groupView (line : Text) : Option Text :=
  if line.length < 3 ∨ line.head? ≠ some Grammar.GroupOpen ∨
      line.getLast? ≠ some Grammar.GroupClose then none
  else
    let group := trimView ((line.drop 1).take (line.length - 2))
    if group = [] ∨ Grammar.GroupOpen ∈ group ∨ Grammar.GroupClose ∈ group then none
    else some group

/-- What stands before the first such character, and behind it. -/
def before (c : UInt8) (text : Text) : Text := text.takeWhile (· ≠ c)

def behind (c : UInt8) (text : Text) : Text := (text.dropWhile (· ≠ c)).drop 1

def entryView (line : Text) : Option (Text × Text) :=
  if Grammar.Assignment ∉ line then none
  else
    let key := trimView (before Grammar.Assignment line)
    let value := trimView (behind Grammar.Assignment line)
    if key = [] then none else some (key, value)

/-- The base of a key and its locale, which is empty where there is none. -/
def localizedKeyView (key : Text) : Option (Text × Text) :=
  if Grammar.LocaleOpen ∉ key then some (key, [])
  else
    let base := before Grammar.LocaleOpen key
    let rest := behind Grammar.LocaleOpen key
    if base = [] ∨ key.getLast? ≠ some Grammar.LocaleClose ∨ Grammar.LocaleOpen ∈ rest then none
    else if rest.dropLast = [] then none
    else some (base, rest.dropLast)

/-- How a type of value is written, if at all, and read over an old value. -/
structure IniCodec where
  Value : Type
  write : Value → Option Text
  read : Text → Value → Bool × Value

/-- The loop of `deserializeIniStringList`. -/
def readItems (current : Text) (escaped endedWithSeparator : Bool) : Text → List Text
  | [] =>
    let current := if escaped then current ++ [Grammar.Escape] else current
    if endedWithSeparator then [] else [current]
  | c :: value =>
    if escaped then
      if c = 115 then readItems (current ++ [Grammar.Space]) false false value
      else if c = 110 then readItems (current ++ [Grammar.NewLine]) false false value
      else if c = 116 then readItems (current ++ [Grammar.Tab]) false false value
      else if c = 114 then readItems (current ++ [Grammar.CarriageReturn]) false false value
      else if c = Grammar.Escape then readItems (current ++ [Grammar.Escape]) false false value
      else if c = Grammar.ListSeparator then
        readItems (current ++ [Grammar.ListSeparator]) false false value
      else readItems (current ++ [Grammar.Escape, c]) false false value
    else if c = Grammar.Escape then readItems current true endedWithSeparator value
    else if c = Grammar.ListSeparator then current :: readItems [] false true value
    else readItems (current ++ [c]) false false value

def deserializeIniStringList (value : Text) : List Text := readItems [] false false value

def escapeByte (c : UInt8) : Text :=
  if c = Grammar.Space then [Grammar.Escape, 115]
  else if c = Grammar.NewLine then [Grammar.Escape, 110]
  else if c = Grammar.Tab then [Grammar.Escape, 116]
  else if c = Grammar.CarriageReturn then [Grammar.Escape, 114]
  else if c = Grammar.Escape then [Grammar.Escape, Grammar.Escape]
  else if c = Grammar.ListSeparator then [Grammar.Escape, Grammar.ListSeparator]
  else [c]

def appendEscapedIniString (value : Text) : Text := value.flatMap escapeByte

/-- What `serializeIniStringList` writes behind the key. -/
def writeItems (value : List Text) : Text :=
  value.flatMap fun item => appendEscapedIniString item ++ [Grammar.ListSeparator]

namespace IniCodec

/-- `std::string` -/
def string : IniCodec where
  Value := Text
  write := some
  read := fun text _ => (true, text)

def trueText : Text := [116, 114, 117, 101]

def falseText : Text := [102, 97, 108, 115, 101]

def bool : IniCodec where
  Value := Bool
  write := fun value => some (if value then trueText else falseText)
  read := fun text old =>
    if text = trueText then (true, true) else if text = falseText then (true, false) else (false, old)

/-- `std::optional`; `parsed` is a value as it is before it is read. -/
def optional (codec : IniCodec) (parsed : codec.Value) : IniCodec where
  Value := Option codec.Value
  write := fun value => value.bind codec.write
  read := fun text old =>
    let (success, value) := codec.read text parsed
    if success then (true, some value) else (false, old)

/-- `std::vector<std::string>` -/
def stringList : IniCodec where
  Value := List Text
  write := fun value => some (writeItems value)
  read := fun text _ => (true, deserializeIniStringList text)

end IniCodec

/-- An `IniLocalizedStringType`, with the pairs of its map in order. -/
structure LocalizedString where
  value : Text
  localized : List (Text × Text)
  deriving DecidableEq

/-- `localized[locale].assign(value)` -/
def assignLocale (locale value : Text) : List (Text × Text) → List (Text × Text)
  | [] => [(locale, value)]
  | (other, old) :: rest =>
    if other = locale then (other, value) :: rest
    else if locale < other then (locale, value) :: (other, old) :: rest
    else (other, old) :: assignLocale locale value rest

inductive MemberType where
  | value (codec : IniCodec)
  | localized

abbrev MemberType.Value : MemberType → Type
  | .value codec => codec.Value
  | .localized => LocalizedString

structure Member where
  name : Text
  type : MemberType
  init : type.Value
  value : type.Value

def appendIniEntry (key value : Text) : Text :=
  key ++ Grammar.Assignment :: value ++ [Grammar.NewLine]

/-- `serializeIniValue` -/
def writeMember (name : Text) : (type : MemberType) → type.Value → Text
  | .value codec, value =>
    match codec.write value with
    | some text => appendIniEntry name text
    | none => []
  | .localized, value =>
    appendIniEntry name value.value ++ value.localized.flatMap fun entry =>
      appendIniEntry (name ++ Grammar.LocaleOpen :: entry.1 ++ [Grammar.LocaleClose]) entry.2

def Member.write (m : Member) : Text := writeMember m.name m.type m.value

def groupLine (group : Text) : Text :=
  Grammar.GroupOpen :: group ++ [Grammar.GroupClose, Grammar.NewLine]

/-- `IniGroup` of the type, if it has one. -/
def toIni (group : Option Text) (members : List Member) : Text :=
  (group.map groupLine).getD [] ++ members.flatMap Member.write

/-- What one member does with an entry, `none` where it is not the member's. -/
def assignMember (name : Text) (key base locale value : Text) :
    (type : MemberType) → type.Value → Option (Bool × type.Value)
  | .value codec, old => if locale = [] ∧ key = name then some (codec.read value old) else none
  | .localized, old =>
    if base = name then
      some (true, if locale = [] then { old with value := value }
        else { old with localized := assignLocale locale value old.localized })
    else none

def Member.assign (m : Member) (key base locale value : Text) : Option (Bool × Member) :=
  (assignMember m.name key base locale value m.type m.value).map fun (success, value) =>
    (success, { m with value := value })

/-- The first member that an entry matches takes it. -/
def assignFirst (key base locale value : Text) : List Member → Option (Bool × List Member)
  | [] => none
  | m :: rest =>
    match m.assign key base locale value with
    | some (success, m') => some (success, m' :: rest)
    | none => (assignFirst key base locale value rest).map fun (success, rest') => (success, m :: rest')

/-- An error is a text and the key that it names. -/
structure Reader where
  group : Text
  members : List Member
  error : Option (String × Text)

def deserializeIniEntry (own : Option Text) (r : Reader) (key value : Text) : Reader :=
  if own.any (· ≠ r.group) then r
  else
    match localizedKeyView key with
    | none => { r with error := some ("Invalid localized INI key: ", key) }
    | some (base, locale) =>
      match assignFirst key base locale value r.members with
      | none => r
      | some (true, members) => { r with members := members }
      | some (false, members) =>
        { r with
          members := members
          error := some ("Failed parsing INI value for key: ", key) }

/-- One turn of the loop; behind an error there is none. -/
def readLine (own : Option Text) (r : Reader) (line : Text) : Reader :=
  match r.error with
  | some _ => r
  | none =>
    let line := trimView line
    match classify line with
    | .Empty => r
    | .Comment => r
    | .Group =>
      match groupView line with
      | none => { r with error := some ("Invalid INI group", []) }
      | some group => { r with group := group }
    | .Entry =>
      match entryView line with
      | none => { r with error := some ("Invalid INI entry", []) }
      | some (key, value) => deserializeIniEntry own r key value

def readLines (own : Option Text) (r : Reader) (lines : List Text) : Reader :=
  lines.foldl (readLine own) r

/-- The object that is read into, and `false` as an error. -/
def fromIni (own : Option Text) (members : List Member) (source : Text) : Reader :=
  readLines own ⟨[], members, none⟩ (lineViews source)

/-- The members of a new object. -/
def fresh (members : List Member) : List Member := members.map fun m => { m with value := m.init }

end JobIni

end JobIo
