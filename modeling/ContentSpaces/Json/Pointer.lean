import ContentSpaces.Json

/-!
# Pointers into JSON values

A pointer is empty or starts with a slash; its tokens stand between slashes, with `~1` for a slash
and `~0` for a tilde inside a token. A token names a field of an object, or in canonical decimal
an element of an array.
-/

namespace ContentSpaces.Json

namespace Pointer

def split : List Char → List (List Char)
  | [] => [[]]
  | '/' :: cs => [] :: split cs
  | c :: cs =>
    match split cs with
    | [] => [[c]]
    | token :: tokens => (c :: token) :: tokens

def unescape : List Char → List Char
  | '~' :: '1' :: cs => '/' :: unescape cs
  | '~' :: '0' :: cs => '~' :: unescape cs
  | c :: cs => c :: unescape cs
  | [] => []

def tokens? (path : String) : Option (List String) :=
  match path.toList with
  | [] => some []
  | '/' :: cs => some ((split cs).map fun token => String.ofList (unescape token))
  | _ => none

/-- The text before the last slash. -/
def parentText (path : String) : String :=
  String.ofList ((path.toList.reverse.dropWhile (· != '/')).drop 1).reverse

def decimal? (cs : List Char) : Option Nat :=
  if cs.isEmpty || !cs.all Char.isDigit then none
  else
    let n := cs.foldl (fun n c => n * 10 + (c.toNat - '0'.toNat)) 0
    if n < Nat.pow 2 64 then some n else none

/-- An array index without sign and leading zeros. -/
def index? (token : String) : Option Nat :=
  match token.toList with
  | ['0'] => some 0
  | '0' :: _ => none
  | cs => decimal? cs

/-- An array index as edits take it: leading zeros and one plus sign are allowed. -/
def looseIndex? (token : String) : Option Nat :=
  match token.toList with
  | '+' :: cs => decimal? cs
  | cs => decimal? cs

end Pointer

def child? (v : Json) (token : String) : Option Json :=
  match v with
  | .object fs => Entries.get? token fs
  | .array xs => (Pointer.index? token).bind fun i => xs[i]?
  | _ => none

def get? (v : Json) : List String → Option Json
  | [] => some v
  | token :: tokens => (v.child? token).bind fun w => w.get? tokens

def setChild (v : Json) (token : String) (w : Json) : Json :=
  match v with
  | .object fs => .object (Entries.insert token w fs)
  | .array xs => .array ((Pointer.index? token).elim xs fun i => xs.set i w)
  | v => v

/-- Edits the value that the tokens lead to; `missing` is the error if there is none. -/
def editAt {ε α : Type} (missing : ε) (edit : Json → Except ε (α × Json)) (v : Json) :
    List String → Except ε (α × Json)
  | [] => edit v
  | token :: tokens =>
    match v.child? token with
    | none => .error missing
    | some w => do
      let (a, w) ← w.editAt missing edit tokens
      .ok (a, v.setChild token w)

end ContentSpaces.Json
