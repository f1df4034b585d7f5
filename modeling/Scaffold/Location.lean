import Scaffold.Text.Blank

/-! # File locations

Locations are slash-separated. `Location.join` resolves a location against a directory, an absolute
one replaces it; `Location.normal` takes away empty and `.` segments and lets `..` cancel the
segment before it. Two leading slashes are kept, three or more count as one. -/

namespace Scaffold.Location

/-- The location of `path` as seen from `base`. -/
def join (base path : String) : String :=
  if path.startsWith "/" then path
  else if base.isEmpty || base.endsWith "/" then base ++ path
  else base ++ "/" ++ path

/-- The leading slashes that a location keeps. -/
def root (path : String) : String :=
  match path.toList with
  | '/' :: '/' :: '/' :: _ => "/"
  | '/' :: '/' :: _ => "//"
  | '/' :: _ => "/"
  | _ => ""

/-- The segments passed so far, the last one first, after one more. -/
def pass (absolute : Bool) (passed : List String) (segment : String) : List String :=
  if segment = "" || segment = "." then passed
  else if segment = ".." then
    match passed with
    | [] => if absolute then [] else [segment]
    | last :: rest => if last = ".." then segment :: last :: rest else rest
  else segment :: passed

/-- The normal form of a location; `.` stands for the empty one. -/
def normal (path : String) : String :=
  let lead := root path
  let segments := (Text.pieces '/' path).foldl (pass (!lead.isEmpty)) []
  let text := lead ++ "/".intercalate segments.reverse
  if text.isEmpty then "." else text

/-- The normal location of a source named in a directory; no directory is the current one. -/
def resolve (directory source : String) : String :=
  normal (join (if directory.isEmpty then "." else directory) source)

end Scaffold.Location
