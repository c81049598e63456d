import Std.Data.TreeSet
import ScriptBackend.Assembly.Symbols
import ScriptBackend.GlobalId
import ScriptBackend.NativeTable
import ScriptBackend.StringPages
import ScriptBackend.Word

/-!
The data image: identity, constants, statics, arguments, globals, strings and
included natives of a unit. Statements are taken in order; words that mention
names are filled in afterwards, when every data label is known. Words that name
a code label stay open until the code is laid out.
-/
namespace ScriptBackend.Assembly

/-- The number of statics and arguments that 16-bit indices can tell apart. -/
def staticLimit : Nat := 0x10000

/-- The number of globals blocks: an id has six bits for the block. -/
def blockLimit : Nat := 64

def Segment.holdsWords : Segment → Bool
  | .statics | .arguments | .globals _ => true
  | _ => false

/-- A word that holds the address of a code label. -/
structure CodeReference where
  line : Nat
  segment : Segment
  offset : Nat
  label : String
deriving DecidableEq

/-- The data of a unit. -/
structure DataImage where
  name : Option String
  hash : UInt32
  statics : Array Word
  arguments : Array Word
  block : Option UInt8
  globals : Array Word

namespace DataImage

def empty : DataImage := ⟨none, 0, #[], #[], none, #[]⟩

def words (image : DataImage) : Segment → Array Word
  | .statics => image.statics
  | .arguments => image.arguments
  | .globals _ => image.globals
  | _ => #[]

def mapWords (image : DataImage) (segment : Segment) (change : Array Word → Array Word) :
    DataImage :=
  match segment with
  | .statics => { image with statics := change image.statics }
  | .arguments => { image with arguments := change image.arguments }
  | .globals _ => { image with globals := change image.globals }
  | _ => image

def size (image : DataImage) (segment : Segment) : Nat :=
  (image.words segment).size

def extend (image : DataImage) (segment : Segment) (count : Nat) : DataImage :=
  image.mapWords segment fun words => words ++ Array.replicate count Word.zero

def store (image : DataImage) (segment : Segment) (offset : Nat) (word : Word) : DataImage :=
  image.mapWords segment fun words => words.setIfInBounds offset word

end DataImage

/-- How an operand becomes a word. -/
inductive WordKind where
  | int
  | float
deriving DecidableEq

/-- A word whose operand waits until every data label is known. -/
structure PendingWord where
  line : Line
  offset : Nat
  kind : WordKind
  operand : Operand

/-- A label in front of a word, with the line of its statement. -/
structure WordLabel where
  segment : Segment
  name : String
  offset : Nat

/-- What the statements so far have defined. -/
structure Collection where
  image : DataImage
  symbols : Symbols
  strings : StringPages
  natives : NativeTable
  pending : Array PendingWord
  labels : Array WordLabel
  labelled : Std.TreeSet String

namespace Collection

def empty : Collection :=
  ⟨.empty, .empty, .empty, .empty, #[], #[], ∅⟩

/-- Chooses the globals block, of which a unit has at most one. -/
def enterSegment (collection : Collection) (line : Line) : Except Fault Collection :=
  match line.segment with
  | .globals block =>
    if blockLimit ≤ block.toNat then
      .error (line.fault (.capacity .globalsBlock block.toNat (blockLimit - 1)))
    else
      match collection.image.block with
      | some existing =>
        if existing = block then .ok collection
        else .error (line.fault (.blockConflict block existing))
      | none => .ok { collection with image := { collection.image with block := some block } }
  | _ => .ok collection

def noteLabel (collection : Collection) (line : Line) : Except Fault Collection :=
  match line.label with
  | none => .ok collection
  | some label =>
    if !line.segment.holdsWords then .ok collection
    else if collection.symbols.contains label || collection.labelled.contains label then
      .error (line.fault (.duplicateLabel label))
    else
      let offset := collection.image.size line.segment
      .ok { collection with
        labels := collection.labels.push ⟨line.segment, label, offset⟩
        labelled := collection.labelled.insert label }

/-- Gives the label of a string or an included native its value. -/
def defineSymbol (collection : Collection) (line : Line) (value : Nat) :
    Except Fault Collection :=
  match line.label with
  | none => .ok collection
  | some label =>
    if collection.symbols.contains label then .error (line.fault (.duplicateLabel label))
    else
      let data := collection.symbols.data.insert label ⟨line.segment, value, 0⟩
      .ok { collection with symbols := { collection.symbols with data := data } }

def constantValue (collection : Collection) (line : Line) : Operand → Except Fault Value
  | .int value => .ok (.int value.toInt)
  | .float value => .ok (.float value)
  | .name other =>
    match collection.symbols.constants[other]? with
    | some value => .ok value
    | none => .error (line.fault (.undefinedLabel other))
  | operand => .error (line.fault (.invalidOperand ".const" (.notAConstant operand)))

def defineConstant (collection : Collection) (line : Line) (name : String) (operand : Operand) :
    Except Fault Collection := do
  let value ← collection.constantValue line operand
  if collection.symbols.constants.contains name then
    .error (line.fault (.duplicateLabel name))
  else
    let constants := collection.symbols.constants.insert name value
    return { collection with symbols := { collection.symbols with constants := constants } }

def addWords (collection : Collection) (line : Line) (kind : WordKind) (operands : List Operand) :
    Except Fault Collection :=
  if line.segment.holdsWords then
    let first := collection.image.size line.segment
    let pending : List PendingWord :=
      operands.mapIdx fun i operand => ⟨line, first + i, kind, operand⟩
    .ok { collection with
      image := collection.image.extend line.segment operands.length
      pending := collection.pending ++ pending }
  else
    .error (line.fault (.misplaced .data line.segment))

def addZeros (collection : Collection) (line : Line) (count : Nat) : Except Fault Collection :=
  if line.segment.holdsWords then
    .ok { collection with image := collection.image.extend line.segment count }
  else
    .error (line.fault (.misplaced .zero line.segment))

def addText (collection : Collection) (line : Line) (text : String) : Except Fault Collection :=
  if line.segment = .strings then
    match collection.strings.intern text with
    | (some offset, strings) => { collection with strings := strings }.defineSymbol line offset
    | (none, _) =>
      .error (line.fault (.capacity .textLength text.utf8ByteSize StringPages.maxLength))
  else
    .error (line.fault (.misplaced .text line.segment))

def addNative (collection : Collection) (line : Line) (hash : UInt64) :
    Except Fault Collection :=
  if line.segment = .natives then
    match collection.natives.add hash with
    | (.ok index, natives) => { collection with natives := natives }.defineSymbol line index
    | (.error fault, _) => .error (line.fault (Cause.ofNativeTable fault))
  else
    .error (line.fault (.misplaced .native line.segment))

def addDirective (collection : Collection) (line : Line) : Directive → Except Fault Collection
  | .segment _ => .ok collection
  | .scriptName name =>
    .ok { collection with image := { collection.image with name := some name } }
  | .scriptHash hash => .ok { collection with image := { collection.image with hash := hash } }
  | .const name operand => collection.defineConstant line name operand
  | .ints operands => collection.addWords line .int operands
  | .floats operands => collection.addWords line .float operands
  | .zero count => collection.addZeros line count.toNat
  | .text text => collection.addText line text
  | .native hash => collection.addNative line hash

/-- Takes what a line says. Instructions belong to the code, and a label in a
segment of strings or natives needs something to stand for. -/
def addContent (collection : Collection) (line : Line) : Except Fault Collection :=
  match line.statement.content with
  | .instruction mnemonic _ =>
    if line.segment = .code then .ok collection
    else .error (line.fault (.misplaced (.instruction mnemonic) line.segment))
  | .empty =>
    if line.label.isSome && (line.segment = .strings || line.segment = .natives) then
      .error (line.fault (.misplaced .label line.segment))
    else
      .ok collection
  | .directive directive => collection.addDirective line directive

/-- Takes a line: its segment, its label, then what it says. -/
def add (collection : Collection) (line : Line) : Except Fault Collection := do
  let entered ← collection.enterSegment line
  let labelled ← entered.noteLabel line
  labelled.addContent line

def addAll (collection : Collection) : List Line → Except Fault Collection
  | [] => .ok collection
  | line :: rest =>
    match collection.add line with
    | .error fault => .error fault
    | .ok next => next.addAll rest

/-- Checks that every word can be reached by an index or an id. -/
def checkCapacity (image : DataImage) : Except Fault Unit :=
  let statics := image.statics.size + image.arguments.size
  if staticLimit < statics then .error ⟨0, .capacity .staticCount statics staticLimit⟩
  else if globalsLimit < image.globals.size then
    .error ⟨0, .capacity .globalsCount image.globals.size globalsLimit⟩
  else .ok ()

/-- What a label in front of a word stands for: its index, where arguments come
after all statics, or a global's id, made of block and offset. -/
def labelValue (image : DataImage) (label : WordLabel) : Nat :=
  match label.segment with
  | .arguments => image.statics.size + label.offset
  | .globals block => globalId block label.offset
  | _ => label.offset

/-- The offset at which the words of a label end: that of the next label further
on in the same segment, or the end of the segment. -/
def labelEnd (image : DataImage) (label : WordLabel) (later : List WordLabel) : Nat :=
  match later.find? fun next => next.segment = label.segment && label.offset < next.offset with
  | some next => next.offset
  | none => image.size label.segment

/-- Gives the word labels their values, in the order of their definition. -/
def defineLabels (image : DataImage) :
    List WordLabel → Std.TreeMap String DataSymbol → Std.TreeMap String DataSymbol
  | [], data => data
  | label :: later, data =>
    let words := labelEnd image label later - label.offset
    defineLabels image later (data.insert label.name ⟨label.segment, labelValue image label, words⟩)

end Collection

def floatOperand? (symbols : Symbols) (line : Line) : Operand → Option Binary32
  | .float value => some value
  | .name name =>
    match symbols.value? (line.qualify name) with
    | some (.float value) => some value
    | _ => none
  | _ => none

/-- The value of a pending word: a number, or the label whose address it waits
for. -/
inductive WordValue where
  | word (word : Word)
  | address (label : String)

namespace PendingWord

def ofInt (pending : PendingWord) (value : Int) : Except Fault WordValue :=
  match pending.kind with
  | .float => .ok (.word (Word.ofFloat (Binary32.ofInt value)))
  | .int =>
    if value < leastInt32 || greatestUInt32 < value then
      .error (pending.line.fault (.capacity .integerLiteral value greatestUInt32))
    else
      .ok (.word (Word.ofInt value))

/-- Looks at the operand of a pending word. In an integer word a name that is no
data symbol may still be a code label. -/
def evaluate (pending : PendingWord) (symbols : Symbols) : Except Fault WordValue :=
  let float :=
    if pending.kind = .float then floatOperand? symbols pending.line pending.operand else none
  match float with
  | some value => .ok (.word (Word.ofFloat value))
  | none =>
    match symbols.intOperand pending.line pending.operand with
    | .error fault => .error fault
    | .ok (some value) => pending.ofInt value
    | .ok none =>
      match pending.operand, pending.kind with
      | .name name, .int => .ok (.address (pending.line.qualify name))
      | .name name, .float => .error (pending.line.fault (.undefinedLabel name))
      | operand, _ => .error (pending.line.fault (.invalidOperand ".int" (.unexpected operand)))

end PendingWord

/-- Fills in the pending words in order, and collects those that name code
labels. -/
def fillWords (symbols : Symbols) :
    List PendingWord → DataImage → Array CodeReference →
      Except Fault (DataImage × Array CodeReference)
  | [], image, references => .ok (image, references)
  | pending :: rest, image, references =>
    let segment := pending.line.segment
    match pending.evaluate symbols with
    | .error fault => .error fault
    | .ok (.word word) =>
      fillWords symbols rest (image.store segment pending.offset word) references
    | .ok (.address label) =>
      fillWords symbols rest image
        (references.push ⟨pending.line.number, segment, pending.offset, label⟩)

/-- The data of a unit with everything that later passes need to know about it. -/
structure DataUnit where
  image : DataImage
  references : List CodeReference
  symbols : Symbols
  strings : StringPages
  natives : NativeTable

/-- Collects the data of a unit. -/
def collectData (lines : List Line) : Except Fault DataUnit := do
  let collected ← Collection.empty.addAll lines
  Collection.checkCapacity collected.image
  let data := Collection.defineLabels collected.image collected.labels.toList collected.symbols.data
  let symbols := { collected.symbols with data := data }
  let (image, references) ← fillWords symbols collected.pending.toList collected.image #[]
  return ⟨image, references.toList, symbols, collected.strings, collected.natives⟩

end ScriptBackend.Assembly
