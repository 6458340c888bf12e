import Columnar.Store.Ipv6
import Columnar.Store.Location

namespace Columnar.Store

/-!
URLs that name an object in a bucket.

Behind `s3://` stand an authority, whose host is the bucket, a path and a query.  Blanks at the
end of a URL and line breaks and tabs inside it do not count.  The path is read with percent
escapes for what a URL may not hold, and without its dot segments.
-/

inductive UrlFault where
  | invalidPort
  | invalidIpv6
  | invalidDomain
  | emptyHost
deriving DecidableEq, Repr

def UrlFault.message : UrlFault → String
  | .invalidPort => "invalid port number"
  | .invalidIpv6 => "invalid IPv6 address"
  | .invalidDomain => "invalid domain character"
  | .emptyHost => "empty host"

/-- The parts of a URL that matter.  The host is empty when there is none. -/
structure BucketUrl where
  host : String
  path : List (List Char)
  query : List Char
deriving DecidableEq, Repr

namespace BucketUrl

/-- What stands between the scheme and the end, without what does not count. -/
def significant (chars : List Char) : List Char :=
  let kept := (chars.reverse.dropWhile fun char => char.toNat ≤ 0x20).reverse
  kept.filter fun char => char ≠ '\t' ∧ char ≠ '\n' ∧ char ≠ '\r'

def endsAuthority (char : Char) : Bool := char = '/' || char = '?' || char = '#'

/-- The user information in front of the last `@` of an authority, and what follows it. -/
def splitUser (authority : List Char) : Option (List Char) × List Char :=
  let host := (authority.reverse.takeWhile (· ≠ '@')).reverse
  if authority.contains '@' then
    (some (authority.take (authority.length - host.length - 1)), host)
  else (none, host)

/-- The host in front of the first colon that is not in brackets, and the rest. -/
def splitHost (inBrackets : Bool) : List Char → List Char × List Char
  | [] => ([], [])
  | char :: rest =>
      if char = ':' ∧ ¬ inBrackets then ([], char :: rest)
      else
        let inBrackets := if char = '[' then true else if char = ']' then false else inBrackets
        let (host, rest) := splitHost inBrackets rest
        (char :: host, rest)

/-- Characters that no host may hold. -/
def forbiddenInHost : List Char := "\x00\t\n\r #/:<>?@[\\]^|".toList

def readHost (host : List Char) : Except UrlFault String :=
  match host with
  | '[' :: rest =>
      if rest.getLast? = some ']' then
        match Ipv6.read? rest.dropLast with
        | some groups => .ok ("[" ++ Ipv6.text groups ++ "]")
        | none => .error .invalidIpv6
      else .error .invalidIpv6
  | _ =>
      if host.any fun char => forbiddenInHost.contains char then .error .invalidDomain
      else .ok (String.ofList (percentEncode [] host))

/-- Reads a port and returns what follows it, which only a backslash can begin. -/
def skipPort (value : Nat) : List Char → Except UrlFault (List Char)
  | [] => .ok []
  | char :: rest =>
      if char.isDigit then
        let value := 10 * value + (char.toNat - '0'.toNat)
        if 65535 < value then .error .invalidPort else skipPort value rest
      else if char = '\\' then .ok (char :: rest)
      else .error .invalidPort

/-- Whether a segment names a drive, as `C:` does; such a segment is never dropped. -/
def namesDrive (segment : List Char) : Bool :=
  match segment with
  | letter :: mark :: rest =>
      letter.isAlpha && (mark = ':' || mark = '|') && (rest = [] || rest.head? = some '\\')
  | _ => false

/-- A segment with its escaped dots written out. -/
def plainDots : List Char → List Char
  | '%' :: '2' :: 'e' :: rest => '.' :: plainDots rest
  | '%' :: '2' :: 'E' :: rest => '.' :: plainDots rest
  | char :: rest => char :: plainDots rest
  | [] => []

/-- Adds a segment to a path, held in reverse: one dot adds nothing, two drop the last segment. -/
def addSegment (path : List (List Char)) (segment : List Char) : List (List Char) :=
  let dots := plainDots segment
  if dots = ['.', '.'] then
    match path with
    | [] => []
    | last :: before => if namesDrive last then path else before
  else if dots = ['.'] then path
  else segment :: path

/-- The characters that a path escapes besides controls and those outside ASCII. -/
def reservedInPath : List Char := " \"#<>?`\x7b\x7d".toList

/-- The segments of a path that begins with a slash. -/
def readPath (chars : List Char) : List (List Char) :=
  match chars with
  | [] => []
  | first :: rest =>
      let relative := if first = '/' then rest else chars
      let segments := (relative.splitOn '/').map (percentEncode reservedInPath)
      (segments.foldl addSegment []).reverse

/-- Reads what follows `s3://`. -/
def read (text : List Char) : Except UrlFault BucketUrl := do
  let chars := significant text
  let authority := chars.takeWhile fun char => !endsAuthority char
  let afterAuthority := chars.dropWhile fun char => !endsAuthority char
  let (user, hostAndPort) := splitUser authority
  if user = some [] ∧ hostAndPort = [] ∧ afterAuthority ≠ [] then throw .emptyHost
  let (hostText, portText) := splitHost false hostAndPort
  let host ← readHost hostText
  if host = "" ∧ portText ≠ [] then throw .emptyHost
  let afterPort ← skipPort 0 portText.tail
  if host = "" ∧ user.getD [] ≠ [] ∧ user ≠ some [':'] then throw .emptyHost
  let remaining := afterPort ++ afterAuthority
  let path := remaining.takeWhile fun char => char ≠ '?' ∧ char ≠ '#'
  let query := match remaining.dropWhile fun char => char ≠ '?' ∧ char ≠ '#' with
    | '?' :: query => query.takeWhile (· ≠ '#')
    | _ => []
  return { host, path := readPath path, query }

/-- The bytes that a part of a query stands for: escapes resolved, plus signs as blanks. -/
def decodeQuery : Bytes → Bytes
  | [] => []
  | 0x25 :: high :: low :: rest =>
      match Ipv6.hexDigit? (Char.ofNat high.toNat), Ipv6.hexDigit? (Char.ofNat low.toNat) with
      | some upper, some lower => UInt8.ofNat (16 * upper + lower) :: decodeQuery rest
      | _, _ => 0x25 :: decodeQuery (high :: low :: rest)
  | byte :: rest => (if byte = 0x2B then 0x20 else byte) :: decodeQuery rest

/-- Whether the query has the pair `anon=true` or `anon=1`. -/
def isAnonymous (url : BucketUrl) : Bool :=
  (url.query.splitOn '&').any fun pair =>
    let part (chars : List Char) := decodeQuery (Text.encode (String.ofList chars))
    let name := part (pair.takeWhile (· ≠ '='))
    let value := part (pair.dropWhile (· ≠ '=')).tail
    name = Text.encode "anon" && (value = Text.encode "true" || value = Text.encode "1")

/-- The path as text, without slashes in front. -/
def key (url : BucketUrl) : String :=
  String.ofList (['/'].intercalate (url.path.dropWhile (· = [])))

end BucketUrl

end Columnar.Store
