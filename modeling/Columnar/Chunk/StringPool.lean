import Columnar.Total

namespace Columnar

/-!
String pools number distinct strings in the order in which they are first seen.
-/

structure StringPool where
  strings : Array String

namespace StringPool

def empty : StringPool := ⟨#[]⟩

/-- The number of a string, which is added behind all others if it is new. -/
def intern (pool : StringPool) (text : String) : StringPool × Nat :=
  match pool.strings.idxOf? text with
  | some code => (pool, code)
  | none =>
      let code := pool.strings.size
      (⟨pool.strings.push text⟩, code)

def get? (pool : StringPool) (code : Nat) : Option String := pool.strings[code]?

def size (pool : StringPool) : Nat := pool.strings.size

/-- The bytes of all strings together. -/
def dataBytes (pool : StringPool) : Nat :=
  total (pool.strings.toList.map (·.utf8ByteSize))

/-- Interns strings one after another and collects their numbers. -/
def internAll (pool : StringPool) : List String → StringPool × List Nat
  | [] => (pool, [])
  | text :: rest =>
      let (pool, code) := pool.intern text
      let (pool, codes) := pool.internAll rest
      (pool, code :: codes)

end StringPool

end Columnar
