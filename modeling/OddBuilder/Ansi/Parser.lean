import OddBuilder.Ansi.Dispatch
import OddBuilder.Ansi.Utf8

/-!
# The parser

The state machine over characters, and the terminal: a parser and its screen. A
character completes at most one command, which the screen then executes.
-/

namespace JobAnsi

inductive ParserState where
  | ground
  | escape
  | csi
  | osc
  | charset
  deriving DecidableEq, Repr

def digits (text : List UInt8) : List Nat :=
  (text.map UInt8.toNat |>.takeWhile fun n => 48 ≤ n ∧ n ≤ 57).map (· - 48)

/-- `std::from_chars` into an `int`: what follows the number is not looked at. -/
def fromChars (text : List UInt8) : Option Int :=
  let negative : Bool := text.head? = some 45
  let ds := digits (if negative then text.tail else text)
  let magnitude : Int := ds.foldl (fun n d => 10 * n + d) 0
  let value := if negative then -magnitude else magnitude
  if ds = [] ∨ inInt value = false then none else some value

/-- Behind a semicolon at the end there is no further field. -/
def parseParams (text : List UInt8) : List Int :=
  let fields := text.splitOn 59
  let fields := if fields.getLast? = some [] then fields.dropLast else fields
  fields.map fun field => (fromChars field).getD 0

theorem inInt_fromChars {text : List UInt8} {n : Int} (h : fromChars text = some n) :
    inInt n = true := by
  obtain ⟨hcond, hn⟩ := Option.ite_none_left_eq_some.1 h
  rw [not_or, Bool.not_eq_false] at hcond
  cases hn
  exact hcond.2

/-- A parameter is a number that an `int` holds. -/
theorem inInt_parseParams {text : List UInt8} : ∀ n ∈ parseParams text, inInt n = true := by
  intro n hn
  obtain ⟨field, -, rfl⟩ := List.mem_map.1 hn
  cases hfield : fromChars field with
  | none => decide
  | some n => exact inInt_fromChars hfield

structure ANSIParser where
  buffer : List UInt8 := []
  state : ParserState := .ground
  deriving DecidableEq

namespace ANSIParser

def kMaxSequenceLength : Nat := 4096

def appendToBuffer (parser : ANSIParser) (ch : Nat) : ANSIParser :=
  { parser with buffer := parser.buffer ++ Utf8Decoder.encode ch }

def resetParserState : ANSIParser := {}

def enterEscape : ANSIParser := { buffer := [0x1B], state := .escape }

def processCSI (buf : List UInt8) : Option Command :=
  let privateMode : Bool := buf.head? = some 63
  let buf := if privateMode then buf.tail else buf
  buf.getLast?.map fun code => .csi privateMode (decodeCsiCode code) (parseParams buf.dropLast)

def processOSC (buf : List UInt8) : Option Command :=
  if 59 ∈ buf then
    some (.osc ((fromChars (buf.takeWhile (· ≠ 59))).getD 0) (buf.dropWhile (· ≠ 59)).tail)
  else none

/-- Also `processCharset`. Without a designator it is the one of ASCII. -/
def processESC (buf : List UInt8) : Option Command :=
  buf.head?.map fun code => .esc code (buf.tail.headD 66)

def handleCodepoint (parser : ANSIParser) (ch : Nat) : ANSIParser × Option Command :=
  let parser :=
    if parser.state ≠ .ground ∧ kMaxSequenceLength < parser.buffer.length then resetParserState
    else parser
  let appended := parser.appendToBuffer ch
  let buffer := appended.buffer
  match parser.state with
  | .ground => if ch = 0x1B then (enterEscape, none) else (parser, some (.ground ch))
  | .escape =>
    if ch = 0x5B then ({ appended with state := .csi }, none)
    else if ch = 0x5D then ({ appended with state := .osc }, none)
    else if 0x28 ≤ ch ∧ ch ≤ 0x2B then ({ appended with state := .charset }, none)
    else (resetParserState, processESC buffer.tail)
  | .csi =>
    if 0x40 ≤ ch ∧ ch ≤ 0x7E then (resetParserState, processCSI (buffer.drop 2))
    else (appended, none)
  | .osc =>
    if ch = 0x07 then
      (resetParserState,
        if 3 ≤ buffer.length then processOSC ((buffer.drop 2).take (buffer.length - 3)) else none)
    else if ch = 0x5C ∧ [0x1B, 0x5C] <:+ buffer then
      (resetParserState,
        if 4 ≤ buffer.length then processOSC ((buffer.drop 2).take (buffer.length - 4)) else none)
    else (appended, none)
  | .charset =>
    if buffer.length = 3 then (resetParserState, processESC buffer.tail) else (appended, none)

end ANSIParser

/-- The parameters are numbers that an `int` holds. -/
def Command.Numbers : Command → Prop
  | .csi _ _ params => ∀ n ∈ params, inInt n = true
  | _ => True

theorem ANSIParser.numbers_handleCodepoint {parser : ANSIParser} {ch : Nat} {command : Command}
    (h : (parser.handleCodepoint ch).2 = some command) : command.Numbers := by
  cases command with
  | csi privateMode code params =>
    have hcsi : ∀ buf, processCSI buf = some (.csi privateMode code params) →
        ∀ n ∈ params, inInt n = true := by
      intro buf hbuf
      obtain ⟨last, -, heq⟩ := Option.map_eq_some_iff.1 hbuf
      injection heq with _ _ heq
      rw [← heq]
      exact inInt_parseParams
    have hesc : ∀ buf, processESC buf ≠ some (.csi privateMode code params) := by
      intro buf hbuf
      obtain ⟨first, -, heq⟩ := Option.map_eq_some_iff.1 hbuf
      cases heq
    have hosc : ∀ buf, processOSC buf ≠ some (.csi privateMode code params) := by
      intro buf hbuf
      unfold processOSC at hbuf
      split at hbuf <;> cases hbuf
    simp only [handleCodepoint] at h
    generalize (if parser.state ≠ .ground ∧ kMaxSequenceLength < parser.buffer.length then
      resetParserState else parser) = parser at h
    split at h
    · split at h <;> cases h
    · split_ifs at h
      exact absurd h (hesc _)
    · split_ifs at h
      exact hcsi _ h
    · split_ifs at h
      · exact absurd h (hosc _)
      · exact absurd h (hosc _)
    · split_ifs at h
      exact absurd h (hesc _)
  | _ => trivial

/-- A parser, with its decoder, and the screen it writes to. -/
structure Terminal where
  decoder : Utf8Decoder := {}
  parser : ANSIParser := {}
  screen : Screen

namespace Terminal

/-- An exception out of a handler leaves the parser in the state it had. -/
def handle (t : Terminal) (ch : Nat) : Terminal :=
  let handled := t.parser.handleCodepoint ch
  match handled.2 with
  | none => { t with parser := handled.1 }
  | some command =>
    { t with
      screen := t.screen.execute command
      parser := if t.screen.throws command then t.parser.appendToBuffer ch else handled.1 }

/-- One byte of `parseInput`. -/
def feed (t : Terminal) (b : UInt8) : Terminal :=
  let fed := t.decoder.feed b
  let t := { t with decoder := fed.1 }
  match fed.2 with
  | none => t
  | some ch => t.handle ch

/-- A call that an exception ends counts as one with the bytes up to it. -/
def parseInput (t : Terminal) (bytes : List UInt8) : Terminal := bytes.foldl feed t

/-- The command that a byte completes. -/
def command (t : Terminal) (b : UInt8) : Option Command :=
  (t.decoder.feed b).2.bind fun ch => (t.parser.handleCodepoint ch).2

/-- A byte changes the screen by the command that it completes. -/
theorem feed_screen (t : Terminal) (b : UInt8) :
    (t.feed b).screen = (t.command b).elim t.screen t.screen.execute := by
  cases hfed : (t.decoder.feed b).2 with
  | none => simp [feed, command, hfed]
  | some ch =>
    cases hhandled : (t.parser.handleCodepoint ch).2 with
    | none => simp [feed, command, handle, hfed, hhandled]
    | some c => simp [feed, command, handle, hfed, hhandled]

end Terminal

end JobAnsi
