import ScriptBackend.Options
import ScriptBackend.Toml.Document

/-!
The build configuration: the options of the assembler and where the native
database lies. Every setting may be left out of the document.
-/
namespace ScriptBackend

/-- What a configuration decides. -/
structure BuildConfig where
  options : Options
  /-- The path of the native database. -/
  database : Option String
deriving DecidableEq

namespace BuildConfig

open ScriptBackend.Toml

def default : BuildConfig := ⟨Options.default, none⟩

def options? (value : Value) : Option Options := do
  match ← value.fields? ["include_function_names", "default_script_name"] with
  | [names, scriptName] =>
    return {
      includeFunctionNames :=
        ← fieldOr Options.default.includeFunctionNames Value.bool? names
      defaultScriptName := ← fieldOr Options.default.defaultScriptName Value.text? scriptName }
  | _ => none

def database? (value : Value) : Option (Option String) := do
  match ← value.fields? ["database"] with
  | [path] => path.mapM Value.text?
  | _ => none

def ofValue? (document : Value) : Option BuildConfig := do
  match ← document.fields? ["assembler", "natives"] with
  | [assembler, natives] =>
    return { options := ← fieldOr Options.default options? assembler
             database := ← fieldOr none database? natives }
  | _ => none

def ofToml? (text : String) : Option BuildConfig :=
  (parse? text).bind ofValue?

end BuildConfig
end ScriptBackend
