/-!
Options of the assembler.
-/
namespace ScriptBackend

/-- What the user decides about a script. -/
structure Options where
  /-- Whether frame instructions carry the name of their function. -/
  includeFunctionNames : Bool
  /-- The name of a script whose unit gives none. -/
  defaultScriptName : String
deriving DecidableEq

def Options.default : Options := ⟨false, "unknown"⟩

end ScriptBackend
