namespace Columnar.Store.Ipv6

/-!
IPv6 addresses in brackets.

`read?` takes the text between the brackets: groups of up to four hexadecimal digits between
colons, a double colon for a stretch of zero groups, and possibly an IPv4 address at the end.
`text` writes the eight groups in lower case with the longest stretch of zeros left out.
-/

def hexDigit? (char : Char) : Option Nat :=
  if '0' ≤ char ∧ char ≤ '9' then some (char.toNat - '0'.toNat)
  else if 'a' ≤ char ∧ char ≤ 'f' then some (char.toNat - 'a'.toNat + 10)
  else if 'A' ≤ char ∧ char ≤ 'F' then some (char.toNat - 'A'.toNat + 10)
  else none

def isHexDigit (char : Char) : Bool := (hexDigit? char).isSome

/-- One to four hexadecimal digits. -/
def readGroup? (chars : List Char) : Option Nat :=
  if chars ≠ [] ∧ chars.length ≤ 4 ∧ chars.all isHexDigit then
    some (chars.foldl (fun value char => 16 * value + (hexDigit? char).getD 0) 0)
  else none

/-- A number up to 255 in decimal, without leading zeros. -/
def readOctet? (chars : List Char) : Option Nat :=
  let value := chars.foldl (fun value char => 10 * value + (hexDigit? char).getD 0) 0
  let plain := chars.length = 1 ∨ chars.head? ≠ some '0'
  if chars ≠ [] ∧ chars.length ≤ 3 ∧ chars.all Char.isDigit ∧ plain ∧ value ≤ 255 then some value
  else none

/-- The two groups that an IPv4 address stands for. -/
def readIpv4? (chars : List Char) : Option (List Nat) :=
  match chars.splitOn '.' with
  | [first, second, third, fourth] => do
      let first ← readOctet? first
      let second ← readOctet? second
      let third ← readOctet? third
      let fourth ← readOctet? fourth
      return [256 * first + second, 256 * third + fourth]
  | _ => none

/-- Groups between colons, the last of which may be an IPv4 address. -/
def readGroups? : List (List Char) → Option (List Nat)
  | [] => some []
  | [last] =>
      match readGroup? last with
      | some group => some [group]
      | none => readIpv4? last
  | part :: rest => do
      let group ← readGroup? part
      let groups ← readGroups? rest
      return group :: groups

/-- Groups on one side of a double colon, where there may be none. -/
def readSide? (chars : List Char) : Option (List Nat) :=
  if chars = [] then some [] else readGroups? (chars.splitOn ':')

/-- What stands before and behind the first double colon. -/
def splitGap? : List Char → Option (List Char × List Char)
  | [] => none
  | [_] => none
  | ':' :: ':' :: rest => some ([], rest)
  | char :: rest => (splitGap? rest).map fun sides => (char :: sides.1, sides.2)

/-- The eight groups of an address. -/
def read? (chars : List Char) : Option (List Nat) :=
  match splitGap? chars with
  | none => do
      let groups ← readGroups? (chars.splitOn ':')
      if groups.length = 8 then some groups else none
  | some (before, after) => do
      let front ← if before.contains '.' then none else readSide? before
      let back ← readSide? after
      let present := front.length + back.length
      if present < 8 then some (front ++ List.replicate (8 - present) 0 ++ back) else none

/-- The number of zero groups at the start of a list. -/
def leadingZeros (groups : List Nat) : Nat := (groups.takeWhile (· = 0)).length

/-- Where the first of the longest stretches of at least two zero groups begins, and how long it
is. -/
def longestGap? (groups : List Nat) : Option (Nat × Nat) :=
  let stretches := (List.range groups.length).map fun start =>
    (start, leadingZeros (groups.drop start))
  stretches.foldl (fun best stretch =>
    if stretch.2 < 2 then best
    else match best with
      | none => some stretch
      | some found => if found.2 < stretch.2 then some stretch else best) none

def hexText (groups : List Nat) : String :=
  ":".intercalate (groups.map fun group => String.ofList (Nat.toDigits 16 group))

def text (groups : List Nat) : String :=
  match longestGap? groups with
  | none => hexText groups
  | some (start, length) =>
      hexText (groups.take start) ++ "::" ++ hexText (groups.drop (start + length))

end Columnar.Store.Ipv6
