import CallAtlas.Bitcode.BitWriter
import CallAtlas.Bitcode.Stream

/-! # Building modules -/

namespace CallAtlas.Bitcode

/-- Writes a block: its head, its body filled up to whole words, and a closing word. -/
def writeBlock (w : BitWriter) (id : Nat) (payload : Bytes) : BitWriter :=
  let body := payload ++ Bytes.zeros (Bytes.padding payload.length 4) ++ Bytes.zeros 4
  let w := w.write enterBlock topWidth
  let w := w.writeVbr id 8
  let w := w.writeVbr 3 4
  let w := w.align32
  let w := w.write (body.length / 4) 32
  w.writeBytes body

/-- A module with a tag in its blocks, with or without the block of the module itself. -/
def encodeModule (tag : Bytes) (withModule : Bool) : Bytes :=
  let w : BitWriter := {}
  let w := w.writeBytes magic
  let w := writeBlock w identificationBlock (Bytes.ofAscii "LLVM" ++ tag)
  let w := if withModule then writeBlock w moduleBlock ([1, 2, 3, 4] ++ tag) else w
  w.bytes

def wrapModule (data : Bytes) (cpu : Nat) : Bytes :=
  wrapperMagic ++ Bytes.ofNat 4 0 ++ Bytes.ofNat 4 wrapperSize ++ Bytes.ofNat 4 data.length ++
    Bytes.ofNat 4 cpu ++ data

def concatModules (modules : List Bytes) (unit : Nat) : Bytes :=
  modules.foldl (fun out m =>
    let out := out ++ m
    out ++ Bytes.zeros (Bytes.padding out.length unit)) []

end CallAtlas.Bitcode
