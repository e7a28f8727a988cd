import TermRules.Bytes

/-!
# Path names

A path is read as names between slashes. Its normal form keeps no empty and no
`.` part and lets `..` take away the name before it; a slash at the end stays,
except behind `..`. The normal form of a path that comes to nothing is `.`.
-/

namespace TermRules.Path

def split : Bytes → List Bytes
  | [] => [[]]
  | b :: rest =>
      if b = Byte.slash then [] :: split rest
      else
        match split rest with
        | [] => [[b]]
        | part :: parts => (b :: part) :: parts

def isAbsolute (path : Bytes) : Bool := path.head? = some Byte.slash

def here : Bytes := ascii "."

def parent : Bytes := ascii ".."

/-- Names from the last to the first, and whether a slash stands behind them. -/
structure Walk where
  names : List Bytes
  slash : Bool
deriving DecidableEq, Repr

namespace Walk

def start : Walk := ⟨[], false⟩

def leave (absolute : Bool) (w : Walk) : Walk :=
  match w.names with
  | [] => if absolute then w else ⟨[parent], false⟩
  | name :: rest =>
      if name = parent then ⟨parent :: w.names, false⟩ else ⟨rest, !rest.isEmpty⟩

def enter (absolute : Bool) (w : Walk) (part : Bytes) : Walk :=
  if part = [] ∨ part = here then { w with slash := !w.names.isEmpty }
  else if part = parent then w.leave absolute
  else ⟨part :: w.names, false⟩

def text (absolute : Bool) (w : Walk) : Bytes :=
  let root := if absolute then [Byte.slash] else []
  let tail := if w.slash && w.names.head? != some parent then [Byte.slash] else []
  match w.names with
  | [] => if absolute then root else here
  | names => root ++ joinWith [Byte.slash] names.reverse ++ tail

end Walk

def normal (path : Bytes) : Bytes :=
  if path = [] then []
  else
    let absolute := isAbsolute path
    ((split path).foldl (Walk.enter absolute) .start).text absolute

end TermRules.Path
