import ScriptBackend.Proofs.Lowering.DataLines
import ScriptBackend.Proofs.Lowering.SuitedCode

/-!
The parts of a compiled program, and the lines that the assembler makes of them:
the identity of the script, a section for each kind of data, the natives, and
the code.
-/
namespace ScriptBackend.Lowering

open ScriptBackend.Assembly Outcome

/-- The data of a program are its globals, its statics and its arguments. -/
theorem dataSegments_ok {setting : Setting} {data : Code} (h : dataSegments setting = .ok data) :
    ∃ globals statics arguments,
      (∀ block, setting.program.globalsBlock = some block →
        dataSegment setting (.globals block) setting.slots.globals = .ok globals) ∧
      (setting.program.globalsBlock = none → globals = []) ∧
      dataSegment setting .statics setting.slots.statics = .ok statics ∧
      dataSegment setting .arguments setting.slots.arguments = .ok arguments ∧
      data = globals ++ statics ++ arguments := by
  unfold dataSegments at h
  cases hBlock : setting.program.globalsBlock with
  | none =>
      simp only [hBlock, pure_bind] at h
      obtain ⟨statics, hStatics, h⟩ := bind_eq_ok.mp h
      obtain ⟨arguments, hArguments, h⟩ := bind_eq_ok.mp h
      cases h
      exact ⟨[], statics, arguments, by simp, fun _ => rfl, hStatics, hArguments, rfl⟩
  | some block =>
      simp only [hBlock] at h
      obtain ⟨globals, hGlobals, h⟩ := bind_eq_ok.mp h
      obtain ⟨statics, hStatics, h⟩ := bind_eq_ok.mp h
      obtain ⟨arguments, hArguments, h⟩ := bind_eq_ok.mp h
      cases h
      exact ⟨globals, statics, arguments, by simpa using hGlobals, by simp,
        hStatics, hArguments, rfl⟩

/-- The parts of a program that was lowered. -/
structure CompiledUnit (setting : Setting) where
  entry : Nat
  labels : Nat
  globals : Code
  statics : Code
  arguments : Code
  code : Code
  named : setting.program.functionNamed? entryName = some entry
  generated : FunctionsGenerate setting (codeOrder setting.program entry) 0 code labels
  globals_ok : ∀ block, setting.program.globalsBlock = some block →
    dataSegment setting (.globals block) setting.slots.globals = .ok globals
  no_globals : setting.program.globalsBlock = none → globals = []
  statics_ok : dataSegment setting .statics setting.slots.statics = .ok statics
  arguments_ok : dataSegment setting .arguments setting.slots.arguments = .ok arguments

namespace CompiledUnit

variable {setting : Setting}

/-- The statements that tell the identity of the script. -/
def header (_ : CompiledUnit setting) : Code :=
  .ofDirective (.scriptName setting.program.name) ::
    setting.program.hash.toList.map fun hash => .ofDirective (.scriptHash hash)

def natives (unit : CompiledUnit setting) : Code :=
  nativeSegment setting.natives unit.code.toArray

def globalsSegment (_ : CompiledUnit setting) : Segment :=
  .globals (setting.program.globalsBlock.getD 0)

def statements (unit : CompiledUnit setting) : Code :=
  unit.header ++ (unit.globals ++ (unit.statics ++ (unit.arguments ++ (unit.natives ++
    .ofDirective (.segment .code) :: unit.code))))

/-- A unit is made of its parts, and its code is that of the functions. -/
theorem exists_code_of_unitOf {statements : Code} (h : unitOf setting = .ok statements) :
    ∃ unit : CompiledUnit setting, unit.statements = statements ∧
      (functionsCode setting #[] (codeOrder setting.program unit.entry)).run 0 =
        .ok (unit.code.toArray, unit.labels) := by
  unfold unitOf at h
  dsimp only at h
  split at h
  · cases h
  · next entry hEntry =>
      obtain ⟨⟨code, labels⟩, hCode, h⟩ := bind_eq_ok.mp h
      obtain ⟨data, hData, h⟩ := bind_eq_ok.mp h
      cases h
      obtain ⟨globals, statics, arguments, hGlobals, hNone, hStatics, hArguments, rfl⟩ :=
        dataSegments_ok hData
      obtain ⟨own, hOwn, hGenerated⟩ := functionsCode_generates hCode
      rw [Array.toList_empty, List.nil_append] at hOwn
      refine ⟨{ entry := entry, labels := labels, globals := globals, statics := statics,
                arguments := arguments, code := own, named := hEntry, generated := hGenerated,
                globals_ok := hGlobals, no_globals := hNone, statics_ok := hStatics,
                arguments_ok := hArguments }, ?_⟩
      subst hOwn
      exact ⟨by simp [CompiledUnit.statements, header, natives], hCode⟩

theorem exists_of_unitOf {statements : Code} (h : unitOf setting = .ok statements) :
    ∃ unit : CompiledUnit setting, unit.statements = statements :=
  (exists_code_of_unitOf h).imp fun _ hUnit => hUnit.1

/-- The natives stand in one segment. -/
theorem inSegment_natives (unit : CompiledUnit setting) : InSegment .natives unit.natives := by
  unfold natives nativeSegment
  dsimp only
  split
  · exact .inl rfl
  · refine .inr ⟨_, rfl, fun statement hStatement => ?_⟩
    obtain ⟨name, _, hNative⟩ := List.mem_filterMap.mp hStatement
    obtain ⟨entry, _, rfl⟩ := Option.map_eq_some_iff.mp hNative
    exact ⟨by simp [Statement.ofDirective], fun _ _ => .inr (by decide)⟩

theorem inSegment_globals (unit : CompiledUnit setting) :
    InSegment unit.globalsSegment unit.globals := by
  unfold globalsSegment
  cases hBlock : setting.program.globalsBlock with
  | none => exact .inl (unit.no_globals hBlock)
  | some block => exact inSegment_dataSegment (unit.globals_ok block hBlock)

theorem continues_header (unit : CompiledUnit setting) :
    ∀ statement ∈ unit.header, statement.Continues .code := by
  intro statement hStatement
  rcases List.mem_cons.mp hStatement with rfl | hHash
  · exact ⟨by simp [Statement.ofDirective], by simp [Statement.ofDirective]⟩
  · obtain ⟨hash, _, rfl⟩ := List.mem_map.mp hHash
    exact ⟨by simp [Statement.ofDirective], by simp [Statement.ofDirective]⟩

/-- The lines of a unit, section by section. -/
theorem scopeLines_statements (unit : CompiledUnit setting) :
    scopeLines unit.statements =
      unit.header.map (lineOf .code none) ++ (unit.globals.map (lineOf unit.globalsSegment none) ++
        (unit.statics.map (lineOf .statics none) ++ (unit.arguments.map (lineOf .arguments none) ++
          (unit.natives.map (lineOf .natives none) ++
            lineOf .code none (.ofDirective (.segment .code)) ::
              linesIn .code none unit.code)))) := by
  have hCode := restarts_segment .code unit.code
  have hNatives := unit.inSegment_natives.restarts hCode
  have hArguments := (inSegment_dataSegment unit.arguments_ok).restarts hNatives
  have hStatics := (inSegment_dataSegment unit.statics_ok).restarts hArguments
  rw [scopeLines_eq, statements, linesIn_append unit.continues_header,
    unit.inSegment_globals.linesIn_append hStatics,
    (inSegment_dataSegment unit.statics_ok).linesIn_append hArguments,
    (inSegment_dataSegment unit.arguments_ok).linesIn_append hNatives,
    unit.inSegment_natives.linesIn_append hCode]
  rfl

end CompiledUnit
end ScriptBackend.Lowering
