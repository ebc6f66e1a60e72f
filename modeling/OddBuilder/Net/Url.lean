import Mathlib.Data.BitVec
import OddBuilder.Net.Header

/-!
# URLs

`JobUrl` as far as a request reads it. The expression of `parse` is matched part by
part: the classes of its parts leave one way to match what follows the user
information, and the match without user information is tried last. A URL whose
parse throws is the invalid one that it leaves behind.
-/

namespace JobNet

inductive Scheme where
  | Unknown | File | Http | Https | Tcp | Udp | Unix | Git | GitSm | Svn | Ssh | Serial
  deriving DecidableEq

structure JobUrl where
  scheme : Scheme
  host : Bytes
  port : BitVec 16
  path : Bytes
  query : Bytes
  valid : Bool
  deriving DecidableEq

namespace JobUrl

def cleared : JobUrl := ⟨.Unknown, [], 0, [], [], false⟩

def schemeFromString (text : Bytes) : Scheme :=
  let lower := JobHttpHeader.normalizeKey text
  if lower = ascii "file".toList then .File
  else if lower = ascii "http".toList then .Http
  else if lower = ascii "https".toList then .Https
  else if lower = ascii "tcp".toList then .Tcp
  else if lower = ascii "udp".toList then .Udp
  else if lower = ascii "unix".toList then .Unix
  else if lower = ascii "git".toList then .Git
  else if lower = ascii "gitsm".toList then .GitSm
  else if lower = ascii "svn".toList then .Svn
  else if lower = ascii "ssh".toList then .Ssh
  else if lower = ascii "serial".toList then .Serial
  else .Unknown

def isAlpha (c : UInt8) : Bool := (97 ≤ c && c ≤ 122) || (65 ≤ c && c ≤ 90)

/-- The class of the scheme. -/
def isSchemeChar (c : UInt8) : Bool := isAlpha c || isDigit c || c ∈ ascii ['+', '-', '.']

/-- The class of the user name. -/
def isUserChar (c : UInt8) : Bool := c ∉ ascii [':', '@']

/-- The class of the host. -/
def isHostChar (c : UInt8) : Bool := c ∉ ascii [':', '/', '?', '#']

/-- The class of the path. -/
def isPathChar (c : UInt8) : Bool := c ∉ ascii ['?', '#']

/-- What the expression captures and `parse` keeps; a part that is not there is empty. -/
structure UrlMatch where
  scheme : Bytes
  host : Bytes
  port : Option Bytes
  path : Bytes
  query : Bytes
  deriving DecidableEq

/-- The scheme, and what follows `://`. -/
def matchScheme (text : Bytes) : Option (Bytes × Bytes) :=
  if text.head?.any isAlpha then
    match text.dropWhile isSchemeChar with
    | 58 :: 47 :: 47 :: rest => some (text.takeWhile isSchemeChar, rest)
    | _ => none
  else none

/-- What follows user information. -/
def dropUserInfo (text : Bytes) : Option Bytes :=
  if text.takeWhile isUserChar = [] then none
  else
    match text.dropWhile isUserChar with
    | 64 :: rest => some rest
    | 58 :: password =>
      if password.takeWhile (· ≠ 64) = [] then none
      else
        match password.dropWhile (· ≠ 64) with
        | 64 :: rest => some rest
        | _ => none
    | _ => none

def matchPort : Bytes → Option (Option Bytes × Bytes)
  | 58 :: text =>
    if text.takeWhile isDigit = [] then none
    else some (some (text.takeWhile isDigit), text.dropWhile isDigit)
  | text => some (none, text)

def matchPath : Bytes → Bytes × Bytes
  | 47 :: text => (47 :: text.takeWhile isPathChar, text.dropWhile isPathChar)
  | text => ([], text)

def matchQuery : Bytes → Bytes × Bytes
  | 63 :: text => (text.takeWhile (· ≠ 35), text.dropWhile (· ≠ 35))
  | text => ([], text)

/-- A fragment has no line ends. -/
def matchFragment : Bytes → Bool
  | [] => true
  | 35 :: text => text.all fun c => c ≠ 10 && c ≠ 13
  | _ => false

/-- The parts from the host on. -/
def matchHost (scheme text : Bytes) : Option UrlMatch :=
  (matchPort (text.dropWhile isHostChar)).bind fun (port, rest) =>
    let (path, rest) := matchPath rest
    let (query, rest) := matchQuery rest
    if matchFragment rest then some ⟨scheme, text.takeWhile isHostChar, port, path, query⟩
    else none

def kUrlRegex (text : Bytes) : Option UrlMatch :=
  (matchScheme text).bind fun (scheme, rest) =>
    ((dropUserInfo rest).bind (matchHost scheme)).or (matchHost scheme rest)

/-- `std::stoi` and the cast; `none` where it throws. -/
def portValue : Option Bytes → Option (BitVec 16)
  | none => some 0
  | some digits => (fromChars 10 (2 ^ 31 - 1) digits).map (BitVec.ofNat 16)

def parse (text : Bytes) : JobUrl :=
  match kUrlRegex text with
  | none => cleared
  | some parts =>
    let scheme := schemeFromString parts.scheme
    match portValue parts.port with
    | none => { cleared with scheme := scheme, host := parts.host }
    | some port =>
      { scheme := scheme
        host := parts.host
        port := port
        path := parts.path
        query := parts.query
        valid := scheme ≠ .Unknown && (parts.host ≠ [] || scheme = .File || scheme = .Unix) }

def setScheme (url : JobUrl) (scheme : Scheme) : JobUrl := { url with scheme := scheme }
def setHost (url : JobUrl) (host : Bytes) : JobUrl := { url with host := host }
def setPort (url : JobUrl) (port : BitVec 16) : JobUrl := { url with port := port }
def setPath (url : JobUrl) (path : Bytes) : JobUrl := { url with path := path }
def setQuery (url : JobUrl) (query : Bytes) : JobUrl := { url with query := query }

example : parse (ascii "http://user:pw@example.org:8080/a/b?c=d#e".toList) =
    ⟨.Http, ascii "example.org".toList, 8080, ascii "/a/b".toList, ascii "c=d".toList, true⟩ := by
  decide

def isUnreserved (c : UInt8) : Bool :=
  (65 ≤ c && c ≤ 90) || (97 ≤ c && c ≤ 122) || isDigit c || c ∈ ascii ['-', '.', '_', '~']

def hexValue (c : UInt8) : Option Nat := digitValue c

/-- The digit of a number below 16. -/
def kHex (n : Nat) : UInt8 := (ascii "0123456789ABCDEF".toList).getD n 48

/-- What `appendEncodedByte` appends. -/
def encodedByte (c : UInt8) : Bytes :=
  if isUnreserved c then [c] else [37, kHex (c.toNat / 16), kHex (c.toNat % 16)]

/-- The byte that an escape stands for. -/
def escapedByte (c high low : UInt8) : Option UInt8 :=
  if c = 37 then
    (hexValue high).bind fun h => (hexValue low).map fun l => UInt8.ofNat (h * 16 + l)
  else none

def encodedChar (preserveSlash : Bool) (c : UInt8) : Bytes :=
  if preserveSlash && c = 47 then [47] else encodedByte c

/-- An escape in the text is the escape of the same byte. -/
def uriEncode (preserveSlash : Bool) : Bytes → Bytes
  | c :: high :: low :: rest =>
    match escapedByte c high low with
    | some decoded => encodedByte decoded ++ uriEncode preserveSlash rest
    | none => encodedChar preserveSlash c ++ uriEncode preserveSlash (high :: low :: rest)
  | text => text.flatMap (encodedChar preserveSlash)

def encodedPath (url : JobUrl) : Bytes := if url.path = [] then [47] else uriEncode true url.path

end JobUrl

end JobNet
