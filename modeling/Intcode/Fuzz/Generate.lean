/-
# Random cases

There are four strategies. `random` draws cells, half of them from a palette
of instruction words. `structured` draws whole instructions with legal modes,
now and then a malformed word that ends the program early, and always a halt
at the end. `expression` compiles a random expression, so that its outputs
are known. `mixed` rolls for one of the others.

Key definitions: `Strategy`, `Family`, `Settings`, `Strategy.generate`.
-/
import Intcode.Expr.Random
import Intcode.Fuzz.Case

namespace Intcode

/-- A way to make random cases. -/
inductive Strategy where
  | random
  | structured
  | expression
  | mixed
  deriving DecidableEq, Repr

/-- The strategies and their names. -/
def Strategy.names : List (String × Strategy) :=
  [("random", .random), ("structured", .structured), ("expression", .expression), ("mixed", .mixed)]

/-- The strategy of a name. -/
def Strategy.ofName? (name : String) : Option Strategy := Strategy.names.lookup name

/-- How large random cases may be. -/
structure Settings where
  /-- The most cells of a random program. -/
  maxLength : Int := 20
  /-- The most instructions of a structured program. -/
  maxInstructions : Int := 10
  /-- The greatest height of a random expression. -/
  maxDepth : Int := 3
  /-- The greatest magnitude of a constant; if there is none, constants come
  from a short list. -/
  maxValue : Option Int := none
  deriving DecidableEq, Repr

/-- Groups of instructions that are drawn together. -/
inductive Family where
  | arithmetic
  | compare
  | input
  | output
  | jump
  | adjust
  /-- A malformed word. -/
  | invalid
  deriving DecidableEq, Repr

namespace Family

/-- The name of a family. -/
def name : Family → String
  | arithmetic => "arithmetic"
  | compare => "compare"
  | input => "input"
  | output => "output"
  | jump => "jump"
  | adjust => "adjust"
  | invalid => "invalid"

/-- How often each family is drawn, in percent. -/
def weights : List (Family × Nat) := [
  (arithmetic, 30), (compare, 15), (input, 12), (output, 20), (jump, 10), (adjust, 10),
  (invalid, 3)]

/-- The operations of a family; a malformed word has none. -/
def operations : Family → Option (Opcode × List Opcode)
  | arithmetic => some (.add, [.multiply])
  | compare => some (.lessThan, [.equals])
  | input => some (.input, [])
  | output => some (.output, [])
  | jump => some (.jumpIfTrue, [.jumpIfFalse])
  | adjust => some (.adjustRelativeBase, [])
  | invalid => none

theorem weights_total : weights.foldl (fun sum entry => sum + entry.2) 0 = 100 := by decide

end Family

section Generators

variable {σ : Type} [Source σ]

/-- A random family. -/
def Family.draw : Draw σ Family := Draw.weighted .arithmetic Family.weights

namespace Case

/-- One chance in two. -/
def evenChance : Binary64 := .ofRatio 1 2

/-- A cell of a random program: a word of the palette, or a small integer. -/
def randomCell (maxLength : Int) : Draw σ Int := do
  if ← Draw.chance evenChance then
    Draw.choose 1 [2, 3, 4, 5, 6, 7, 8, 9, 99, 101, 1001, 1101, 104, 109, 203, 204, 1105, 1106,
      21101, 22201]
  else Draw.integer (-5) (maxLength + 5)

/-- A random program with up to three inputs. -/
def drawRandom (maxLength : Int) : Draw σ Case := do
  let length ← Draw.integer 1 maxLength
  let program ← Draw.times (randomCell maxLength) length.toNat
  let count ← Draw.integer 0 3
  let inputs ← Draw.times (Draw.integer (-10) 10) count.toNat
  return { program, inputs }

/-- The chance of a negative address. -/
def negativeAddress : Binary64 := .ofRatio 3 100

/-- The mode of a random operand: any for one that is read, and no immediate
mode for one that is written to. -/
def drawMode : OperandKind → Draw σ Mode
  | .read => Draw.choose .position [.immediate, .relative]
  | .write => Draw.choose .position [.relative]

/-- The literal of a random operand. Addresses stay within the span, but for
a few that are negative. -/
def drawOperand (span : Int) (mode : Mode) : Draw σ Int := do
  if mode = .immediate then Draw.integer (-10) span
  else if ← Draw.chance negativeAddress then Draw.integer (-5) (-1)
  else Draw.integer 0 span

/-- The draws of a list, from left to right. -/
def drawAll {α β : Type} (draw : α → Draw σ β) : List α → Draw σ (List β)
  | [] => pure []
  | a :: rest => do return (← draw a) :: (← drawAll draw rest)

/-- The cells of a random instruction of an operation, and the inputs it
takes. -/
def drawInstruction (span : Int) (op : Opcode) : Draw σ (List Int × List Int) := do
  let modes ← drawAll drawMode op.operands
  let operands ← drawAll (drawOperand span) modes
  let inputs ← if op = .input then Draw.times (Draw.integer (-100) 100) 1 else pure []
  return (Word.ofModes op modes :: operands, inputs)

/-- A malformed word. -/
def drawMalformed : Draw σ Int := do
  let unknown ← Draw.integer 10 98
  Draw.choose 0 [unknown, 301, 11101, 103]

/-- The cells of up to `n` random instructions, ended early by a malformed
word, and the inputs they take. -/
def drawInstructions (span : Int) : Nat → Draw σ (List Int × List Int)
  | 0 => pure ([], [])
  | n + 1 => do
    match (← Family.draw).operations with
    | none => return ([← drawMalformed], [])
    | some (op, ops) =>
      let (cells, inputs) ← drawInstruction span (← Draw.choose op ops)
      let (moreCells, moreInputs) ← drawInstructions span n
      return (cells ++ moreCells, inputs ++ moreInputs)

/-- A structured program, with one input for each input instruction. -/
def drawStructured (maxInstructions : Int) : Draw σ Case := do
  let count ← Draw.integer 1 maxInstructions
  let (cells, inputs) ← drawInstructions (maxInstructions * 4 + 8) count.toNat
  return { program := cells ++ [(Opcode.halt.code : Int)], inputs }

/-- A constant of an expression program. -/
def drawConstant : Option Int → Draw σ Int
  | none => Draw.choose (-1) [0, 1, 2, 3, 4, 5, 6, 7, 8, 9, constantMin, constantMax]
  | some limit => Draw.integer (-limit) limit

/-- The program of a random expression, with inputs for its widest branch. -/
def drawExpression (maxDepth : Int) (maxValue : Option Int) : Draw σ Case := do
  let e ← Expr.random (drawConstant maxValue) maxDepth.toNat
  let inputs ← Draw.times (Draw.integer (-10) 10) e.maxInputs
  Access.lift (Case.ofExpr e inputs)

/-- A case of a strategy that is rolled for: random cells, a structured
program, or an expression with constants of the short list or with any. Each
is as likely as the others. -/
def drawMixed (maxInstructions : Int) : Draw σ Case := do
  let roll ← Draw.fraction
  let below (num den : Nat) : Bool := (Binary64.ofRatio num den).exceeds roll (1 <<< 53)
  let standard : Settings := {}
  if below 1 4 then drawRandom standard.maxLength
  else if below 1 2 then drawStructured maxInstructions
  else if below 3 4 then drawExpression standard.maxDepth none
  else drawExpression standard.maxDepth (some constantMax)

end Case

/-- A random case of a strategy. -/
def Strategy.generate (settings : Settings) : Strategy → Draw σ Case
  | random => Case.drawRandom settings.maxLength
  | structured => Case.drawStructured settings.maxInstructions
  | expression => Case.drawExpression settings.maxDepth settings.maxValue
  | mixed => Case.drawMixed settings.maxInstructions

end Generators
end Intcode
