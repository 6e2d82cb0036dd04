/-
# All expressions of bounded height

`enumerate constants height` lists every expression of at most that height
over the constants: first the operations on two expressions of the level
below, then the choices among three, and last the constants and the input.

Key definitions: `Expr.leaves`, `Expr.enumerate`, `Expr.enumerateOffered`.
-/
import Intcode.Expr
import Intcode.LazyList

namespace Intcode.Expr

/-- The constants and the input. -/
def leaves (constants : List Constant) : List Expr := constants.map const ++ [input]

/-- The operations on two expressions of a list. -/
def operations (level : List Expr) : LazyList Expr :=
  LazyList.flatMap (fun left =>
    LazyList.flatMap (fun right =>
      LazyList.ofList (BinaryOp.all.map fun op => binary op left right)) level) level

/-- The choices among three expressions of a list. -/
def choices (level : List Expr) : LazyList Expr :=
  LazyList.flatMap (fun condition =>
    LazyList.flatMap (fun first =>
      LazyList.ofList (level.map fun second => select condition first second)) level) level

/-- Every expression over the constants of at most the given height. -/
def enumerate (constants : List Constant) : Nat → LazyList Expr
  | 0 => LazyList.ofList (leaves constants)
  | height + 1 =>
    let level := (enumerate constants height).toList
    (operations level).append fun _ =>
      (choices level).append fun _ => LazyList.ofList (leaves constants)

/-- The values offered for constants, up to the first that is none, and the
fault of that one. -/
def offered : List Datum → List Constant × Option Fault
  | [] => ([], none)
  | d :: ds => match Constant.ofDatum d with
    | .error f => ([], some f)
    | .ok c => (c :: (offered ds).1, (offered ds).2)

/-- Every expression over values that are offered for constants. One that is
no constant ends the list, on level zero in its place and above that at the
start. -/
def enumerateOffered (values : List Datum) (height : Nat) : LazyList (Except Fault Expr) :=
  match offered values with
  | (constants, none) => (enumerate constants height).map .ok
  | (constants, some f) =>
    let before := if height = 0 then constants.map fun c => Except.ok (const c) else []
    LazyList.ofList (before ++ [.error f])

end Intcode.Expr
