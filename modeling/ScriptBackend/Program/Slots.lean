import ScriptBackend.GlobalId
import ScriptBackend.Program.Fault
import ScriptBackend.Program.TypeLayout

/-!
Where the words of variables are. Statics come first and the arguments of the
script behind them, globals have ids in their block. A frame holds the
parameters, two reserved words, the locals in source order and last the scratch
words, to which values without storage are copied when a part of them is read.
All of these numbers have 32 bits; a program that needs more is stopped.
-/
namespace ScriptBackend

/-- Words between the parameters and the first local: the return address and the
saved frame. -/
def reservedWords : Nat := 2

/-- The place of a variable: an offset in the frame, a static index or a global
id. -/
structure Slot where
  region : Region
  index : Nat
deriving DecidableEq, Inhabited

/-- The frame of a function, in words. -/
structure Frame where
  parameterWords : Nat
  localWords : Nat
  resultWords : Nat
  scratchWords : Nat
  /-- The declared locals in source order. -/
  localIds : Array Nat
deriving DecidableEq, Inhabited

namespace Frame

def localOffset (frame : Frame) : Nat :=
  frame.parameterWords + reservedWords

def scratchOffset (frame : Frame) : Nat :=
  frame.localOffset + frame.localWords

def size (frame : Frame) : Nat :=
  frame.scratchOffset + frame.scratchWords

end Frame

/-! Locals of a body -/

mutual

/-- The locals that a statement declares at any depth, behind those found so far. -/
def Stmt.localIds (found : Array Nat) : Stmt → Array Nat
  | .declare id => found.push id
  | .branch arms otherwise => blockLocalIds (armLocalIds found arms) otherwise
  | .loop _ body | .countUp _ _ body => blockLocalIds found body
  | .select _ cases => caseLocalIds found cases
  | _ => found

/-- The locals that statements declare, behind those found so far. -/
def blockLocalIds (found : Array Nat) : List Stmt → Array Nat
  | [] => found
  | first :: rest => blockLocalIds (first.localIds found) rest

/-- The locals that the bodies of arms declare, behind those found so far. -/
def armLocalIds (found : Array Nat) : List (Expr × List Stmt) → Array Nat
  | [] => found
  | (_, body) :: rest => armLocalIds (blockLocalIds found body) rest

/-- The locals that the bodies of cases declare, behind those found so far. -/
def caseLocalIds (found : Array Nat) : List (Option Int32 × List Stmt) → Array Nat
  | [] => found
  | (_, body) :: rest => caseLocalIds (blockLocalIds found body) rest

end

/-! Scratch words. A copy is read right after it is made, so one area serves them all. -/

mutual

def Expr.scratchWords (words : Ty → Nat) (e : Expr) : Nat :=
  let own :=
    match e.unstoredRoot? with
    | some root => words root.ty
    | none => 0
  let nested :=
    match e with
    | .vector _ x y z =>
      max (max (x.scratchWords words) (y.scratchWords words)) (z.scratchWords words)
    | .neg _ operand | .not _ operand | .convert _ operand => operand.scratchWords words
    | .member _ base _ => base.scratchWords words
    | .binary _ _ left right => max (left.scratchWords words) (right.scratchWords words)
    | .index _ array position => max (array.scratchWords words) (position.scratchWords words)
    | .call _ _ arguments | .callNative _ _ arguments => argumentScratchWords words 0 arguments
    | .callThrough _ target arguments =>
      argumentScratchWords words (target.scratchWords words) arguments
    | _ => 0
  max own nested

def argumentScratchWords (words : Ty → Nat) (known : Nat) : List Expr → Nat
  | [] => known
  | first :: rest => argumentScratchWords words (max known (first.scratchWords words)) rest

end

mutual

/-- The most scratch words that an expression of a statement needs. The
initializer of a local belongs to its declaration. -/
def Stmt.scratchWords (words : Ty → Nat) (initializer? : Nat → Option Expr) : Stmt → Nat
  | .declare id =>
    match initializer? id with
    | some value => value.scratchWords words
    | none => 0
  | .assign target _ value => max (target.scratchWords words) (value.scratchWords words)
  | .branch arms otherwise =>
    armScratchWords words initializer? (blockScratchWords words initializer? 0 otherwise) arms
  | .loop condition body =>
    blockScratchWords words initializer? (condition.scratchWords words) body
  | .countUp limit counter body =>
    blockScratchWords words initializer?
      (max (limit.scratchWords words) (counter.scratchWords words)) body
  | .select value cases => caseScratchWords words initializer? (value.scratchWords words) cases
  | .ret (some value) => value.scratchWords words
  | .evaluate expression => expression.scratchWords words
  | _ => 0

/-- The most scratch words that one of the statements needs, or as many as are
known. -/
def blockScratchWords (words : Ty → Nat) (initializer? : Nat → Option Expr) (known : Nat) :
    List Stmt → Nat
  | [] => known
  | first :: rest =>
    blockScratchWords words initializer? (max known (first.scratchWords words initializer?)) rest

def armScratchWords (words : Ty → Nat) (initializer? : Nat → Option Expr) (known : Nat) :
    List (Expr × List Stmt) → Nat
  | [] => known
  | (condition, body) :: rest =>
    armScratchWords words initializer?
      (blockScratchWords words initializer? (max known (condition.scratchWords words)) body) rest

def caseScratchWords (words : Ty → Nat) (initializer? : Nat → Option Expr) (known : Nat) :
    List (Option Int32 × List Stmt) → Nat
  | [] => known
  | (_, body) :: rest =>
    caseScratchWords words initializer? (blockScratchWords words initializer? known body) rest

end

/-! Allocation -/

/-- Items with their offsets: each begins where the one before it ends. -/
def consecutive {α : Type} (words : α → Nat) : Nat → List α → List (α × Nat)
  | _, [] => []
  | start, item :: rest => (item, start) :: consecutive words (start + words item) rest

/-- The slots of the variables of a program and the frames of its functions. -/
structure Slots where
  /-- By variable. Constants have no slot. -/
  slots : Array (Option Slot)
  /-- By function. -/
  frames : Array Frame
  statics : List Nat
  arguments : List Nat
  globals : List Nat
  staticWords : Nat
  argumentWords : Nat
  globalWords : Nat

namespace Slots

def variableWords (program : Program) (sizes : Sizes) (id : Nat) : Nat :=
  match program.vars[id]? with
  | some declared => sizes.of declared.ty
  | none => 0

/-- The variables of a region in the order of their declaration. -/
def inRegion (program : Program) (region : Region) : List Nat :=
  (List.range program.vars.size).filter fun id =>
    program.vars[id]?.any fun declared => declared.storage == .placed region

/-- Gives variables their places in a region. A variable that had a place gets
the new one. -/
def assign (region : Region) (places : List (Nat × Nat)) (slots : Array (Option Slot)) :
    Array (Option Slot) :=
  places.foldl (fun slots (id, index) => slots.setIfInBounds id (some ⟨region, index⟩)) slots

def checkDeclared (program : Program) : List Nat → Except CompileFault Unit
  | [] => .ok ()
  | id :: rest =>
    if id < program.vars.size then checkDeclared program rest
    else .error (.missingSlot ("#" ++ Text.decimal id))

def checkGlobals (program : Program) (globals : List Nat) (words : Nat) :
    Except CompileFault Unit :=
  match program.globalsBlock, globals with
  | _, [] => .ok ()
  | none, id :: _ =>
    .error (.invalidStorage ((program.vars[id]?.map Variable.name).getD "")
      .globalWithoutBlock)
  | some _, _ =>
    if globalsLimit < words then .error (.unsupported (.globalsSize globalsLimit)) else .ok ()

/-- Whether 32 bits hold the sizes of all variables, and the places of statics
and arguments. -/
def dataFits (program : Program) (sizes : Sizes) : Bool :=
  let words := variableWords program sizes
  let statics := inRegion program .statics
  let arguments := inRegion program .arguments
  program.vars.all (fun declared => sizes.fits declared.ty) &&
    totalWords words statics < UInt32.size && totalWords words arguments < UInt32.size &&
    (consecutive words (totalWords words statics) arguments).all fun (_, index) =>
      index < UInt32.size

def frameOf (program : Program) (sizes : Sizes) (function : Function) : Frame :=
  let localIds := blockLocalIds #[] function.body
  { parameterWords := totalWords (variableWords program sizes) function.parameters
    localWords := totalWords (variableWords program sizes) localIds.toList
    resultWords := sizes.of function.result
    scratchWords :=
      blockScratchWords sizes.of (fun id => program.vars[id]?.bind Variable.initializer) 0
        function.body
    localIds := localIds }

/-- Whether 32 bits hold the places in the frame of a function, and the sizes of
its result and of the values that are copied to scratch words. -/
def frameFits (program : Program) (sizes : Sizes) (function : Function) : Bool :=
  let frame := frameOf program sizes function
  -- a value counts one word here if its size does not fit, so that no word means that all fit
  let unfit := blockScratchWords (fun ty => (!sizes.fits ty).toNat)
    (fun id => program.vars[id]?.bind Variable.initializer) 0 function.body
  sizes.fits function.result && frame.parameterWords < UInt32.size &&
    frame.scratchOffset < UInt32.size && unfit = 0

/-- Gives the parameters and locals of a function their places in its frame. -/
def addFrame (program : Program) (sizes : Sizes) (table : Slots) (function : Function) :
    Except CompileFault Slots := do
  let frame := frameOf program sizes function
  checkDeclared program function.parameters
  checkDeclared program frame.localIds.toList
  Sizes.guarded (frameFits program sizes function)
  let words := variableWords program sizes
  let slots := assign .parameters (consecutive words 0 function.parameters) table.slots
  let slots := assign .locals (consecutive words frame.localOffset frame.localIds.toList) slots
  return { table with slots := slots, frames := table.frames.push frame }

def ofData (program : Program) (sizes : Sizes) : Except CompileFault Slots := do
  let words := variableWords program sizes
  let statics := inRegion program .statics
  let arguments := inRegion program .arguments
  let globals := inRegion program .globals
  let staticWords := totalWords words statics
  let globalWords := totalWords words globals
  Sizes.guarded (dataFits program sizes)
  checkGlobals program globals globalWords
  let block := program.globalsBlock.getD 0
  let globalPlaces :=
    (consecutive words 0 globals).map fun (id, offset) => (id, globalId block offset)
  let slots := Array.replicate program.vars.size none
  let slots := assign .statics (consecutive words 0 statics) slots
  let slots := assign .arguments (consecutive words staticWords arguments) slots
  return {
    slots := assign .globals globalPlaces slots
    frames := #[]
    statics := statics
    arguments := arguments
    globals := globals
    staticWords := staticWords
    argumentWords := totalWords words arguments
    globalWords := globalWords }

def ofProgram (program : Program) (sizes : Sizes) : Except CompileFault Slots := do
  program.functions.foldlM (addFrame program sizes) (← ofData program sizes)

def slot (table : Slots) (program : Program) (id : Nat) : Except CompileFault Slot :=
  match table.slots[id]?.join with
  | some slot => .ok slot
  | none =>
    .error (.missingSlot
      ((program.vars[id]?.map Variable.name).getD ("#" ++ Text.decimal id)))

def frame (table : Slots) (id : Nat) : Except CompileFault Frame :=
  match table.frames[id]? with
  | some frame => .ok frame
  | none => .error (.missingFunction id)

end Slots
end ScriptBackend
