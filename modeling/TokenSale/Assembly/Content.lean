import TokenSale.Assembly.Diagnostic

/-!
# Files of assembly

The content of a file is text when its bytes are UTF-8.
-/

namespace TokenSale.Assembly

/-- The text that bytes encode. -/
def textOfBytes (bytes : List UInt8) : Except FileFault String :=
  match String.fromUTF8? bytes.toByteArray with
  | some text => .ok text
  | none => .error .invalidText

/-- The script that the content of a file describes, and what there is to report. A file without text is not
reported. -/
def assembleContent (file : String) (content : Except FileFault (List UInt8)) :
    Except Fault Script × List Record :=
  match content.bind textOfBytes with
  | .error cause => (.error (.file file cause), [])
  | .ok text => assembleNamed file text

end TokenSale.Assembly
