import TextOrigin.Bytes

/-!
Lexical normal form of slash-separated paths. The form depends on the spelling alone: no directory
is looked up. Empty components and `.` vanish, a `..` removes the name before it, and at the root a
`..` has nothing to remove. A slash at the end is kept, also where a final `.` or a removed name
leaves one, unless the path ends in `..`. A path that vanishes becomes `.`, or `/` at the root.
Names that start with `<` stand for texts without a file and are left alone.
-/

namespace TextOrigin.Path

def dot : Bytes := ascii "."

def dotDot : Bytes := ascii ".."

/-- A path under construction: the names kept so far, the last one first, and whether a slash
follows the last one. -/
structure Partial where
  names : List Bytes
  slashed : Bool

def Partial.extend (rooted : Bool) (path : Partial) (component : Bytes) : Partial :=
  if component = [] ∨ component = dot then { path with slashed := true }
  else if component = dotDot then
    match path.names with
    | [] => if rooted then path else ⟨[dotDot], false⟩
    | last :: earlier =>
      if last = dotDot then ⟨dotDot :: path.names, false⟩ else ⟨earlier, true⟩
  else ⟨component :: path.names, false⟩

def Partial.render (rooted : Bool) (path : Partial) : Bytes :=
  let root := if rooted then [Bytes.slash] else []
  match path.names with
  | [] => if rooted then root else dot
  | last :: _ =>
    let final := if path.slashed && last != dotDot then [Bytes.slash] else []
    root ++ Bytes.join Bytes.slash path.names.reverse ++ final

def normalize (path : Bytes) : Bytes :=
  match path with
  | [] => []
  | first :: _ =>
    if first = 60 then path
    else
      let rooted := first == Bytes.slash
      let components := Bytes.split (· == Bytes.slash) path
      Partial.render rooted (components.foldl (Partial.extend rooted) ⟨[], false⟩)

end TextOrigin.Path
