import CallAtlas.Bitcode.Buffer
import CallAtlas.Tool.Toolchain

/-! # Validators -/

namespace CallAtlas.Bitcode

open Tool

def analyzerValidator (host : Host) (tools : Toolchain) : Validator :=
  ⟨analyzeTool, fun _ b => do
    let r ← tools.run host analyzeTool ["-"] (some b.data)
    if r.code = 0 then pure none
    else pure (some ⟨b.identifier ++ " rejected by " ++ analyzeTool ++ ": " ++ r.complaint 500,
      some b.offset⟩)⟩

def Validator.ofName (host : Host) (tools : Toolchain) (name : String) : Except Failure Validator :=
  if name = bitstreamValidator.name then .ok bitstreamValidator
  else if name = analyzeTool then .ok (analyzerValidator host tools)
  else .error (.invalid ("Unknown validator: " ++ name))

end CallAtlas.Bitcode
