import CallAtlas.Bitcode.Buffer
import CallAtlas.Ir.Parse
import CallAtlas.Tool.Toolchain

/-! # Disassembling -/

namespace CallAtlas.Link

open Bitcode Tool

/-- Turns a buffer into assembly text. -/
structure Disassembler where
  disassemble : Buffer → Except Failure String
  missing : List String := []

def bufferFailure (b : Buffer) (reason : String) : Failure :=
  .fault ⟨.malformed reason (some b.offset), b.originOpt, true⟩

namespace Disassembler

def arguments : List String := ["-", "-o", "-"]

def ofTools (host : Host) (tools : Toolchain) : Disassembler where
  disassemble b := do
    let r ← tools.run host disassembleTool arguments (some b.data)
    if r.code = 0 then pure (Text.decode r.stdout)
    else throw (bufferFailure b (disassembleTool ++ " failed on " ++ b.identifier ++ ": " ++
      r.complaint 500))
  missing := tools.missing host [disassembleTool]

def ofTexts (texts : Table Bytes String) : Disassembler where
  disassemble b :=
    match texts.get? b.data with
    | some s => .ok s
    | none => .error .missingKey

def load (d : Disassembler) (b : Buffer) : Except Failure IrModule := do
  let text ← d.disassemble b
  match IrModule.parse text b.identifier with
  | .ok m => pure { m with identifier := b.identifier }
  | .error e =>
    throw (bufferFailure b ("cannot parse disassembly of " ++ b.identifier ++ ": " ++ e.message))

end Disassembler

end CallAtlas.Link
