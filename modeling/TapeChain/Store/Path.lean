/-! Paths: names separated by slashes. The suffix of a path starts at the last dot of its last name,
unless only dots stand before that dot. -/
namespace TapeChain.Path

/-- The last name of a path; empty after a slash. -/
def lastName (path : List Char) : List Char := (path.reverse.takeWhile (· ≠ '/')).reverse

/-- A name without its suffix, and the suffix. -/
def splitName (name : List Char) : List Char × List Char :=
  let reversed := name.reverse
  let suffix := reversed.takeWhile (· ≠ '.')
  match reversed.dropWhile (· ≠ '.') with
  | [] => (name, [])
  | dot :: front =>
    if front.all (· = '.') then (name, []) else (front.reverse, dot :: suffix.reverse)

def baseName (path : String) : String := String.ofList (lastName path.toList)

/-- The last name without its suffix. -/
def stem (path : String) : String := String.ofList (splitName (lastName path.toList)).1

/-- The suffix with its dot, in small letters. -/
def suffix (path : String) : String :=
  String.ofList ((splitName (lastName path.toList)).2.map Char.toLower)

/-- The names between slashes, empty ones included. -/
def split : List Char → List (List Char)
  | [] => [[]]
  | c :: rest =>
    if c = '/' then [] :: split rest
    else
      match split rest with
      | [] => [[c]]
      | name :: names => (c :: name) :: names

/-- The names of a path. -/
def names (path : String) : List String :=
  ((split path.toList).filter (· ≠ [])).map String.ofList

/-- Whether a path starts at the root. -/
def isAbsolute (path : String) : Bool := path.toList.head? = some '/'

/-- Whether a path ends in a slash, and so can only mean a folder. -/
def endsInSlash (path : String) : Bool := path.toList.getLast? = some '/'

end TapeChain.Path
