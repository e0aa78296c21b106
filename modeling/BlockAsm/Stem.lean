import BlockAsm.Pattern.Reader

/-!
Stems. Occurrences of one loop variable carry names that differ in a suffix, such as `i_0`, `i.3` and
`i#2`; the stem is the name without it. A name that is all suffix is its own stem.
-/

namespace BlockAsm

/-- Marks of an occurrence: an underscore, a point or a hash, then digits up to the end. -/
def defaultSuffix : String := "[_.#]\\d+$"

def Pattern.stem (suffix : Pattern) (name : String) : String :=
  let short := suffix.erase name
  if short.isEmpty then name else short

end BlockAsm
