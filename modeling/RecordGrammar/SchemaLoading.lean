import RecordGrammar.JsonReader
import RecordGrammar.PayloadDecoder
import RecordGrammar.RecordCompiler
import RecordGrammar.SchemaDocument
import RecordGrammar.TomlReader

/-! # Loading schema documents from text and from files -/

namespace RecordGrammar

def DocumentKind.name : DocumentKind → String
  | .json => "JSON"
  | .toml => "TOML"

inductive DocumentError where
  | unparsed (kind : DocumentKind)
  | malformed (error : SchemaError)
  deriving DecidableEq, Repr

def DocumentError.message : DocumentError → String
  | .unparsed kind => "Failed to parse schema " ++ kind.name
  | .malformed error => "Malformed schema descriptor: " ++ error.message

inductive LoadError where
  | unreadable (name : String)
  | invalid (name : String) (error : DocumentError)
  deriving DecidableEq, Repr

/-- The name of a file between quotes. -/
def quotedName (name : String) : String := "\"" ++ name ++ "\""

namespace LoadError

def headline : LoadError → String
  | .unreadable name => "Failed to read schema file: " ++ quotedName name
  | .invalid name _ => "Invalid schema file: " ++ quotedName name

def message (e : LoadError) : String :=
  match e with
  | .unreadable _ => e.headline
  | .invalid _ error => e.headline ++ ": " ++ error.message

end LoadError

namespace SchemaDocument

def ofNode? (kind : DocumentKind) (node : Node) : Option SchemaDocument :=
  SchemaReader.document? kind node

/-- The document of a text, its formats not yet checked. -/
def ofText? : DocumentKind → String → Option SchemaDocument
  | .json, text => (Node.ofJsonText? text).bind (ofNode? .json)
  | .toml, text => (Node.ofTomlText? text).bind (ofNode? .toml)

def parse (kind : DocumentKind) (text : String) : Except DocumentError SchemaDocument :=
  match ofText? kind text with
  | none => .error (.unparsed kind)
  | some document =>
    match document.checkFormats with
    | .ok () => .ok document
    | .error e => .error (.malformed e)

/-- What follows the last point of a file's name, unless the point begins the name. -/
def extension (name : String) : List Char :=
  let base := (name.toList.reverse.takeWhile (· ≠ '/')).reverse
  let extension := (base.reverse.takeWhile (· ≠ '.')).reverse
  if base.length ≤ extension.length + 1 then [] else extension

/-- A file is JSON if its extension says so in any case, and TOML otherwise. -/
def kindOf (name : String) : DocumentKind :=
  if (extension name).map Char.toLower = ['j', 's', 'o', 'n'] then .json else .toml

/-- Loads a file by its name. `read` gives the text of a file that can be read. -/
def load (read : String → Option String) (name : String) : Except LoadError SchemaDocument :=
  match read name with
  | none => .error (.unreadable name)
  | some text => (parse (kindOf name) text).mapError (.invalid name)

/-- Compiles the root record. -/
def compile (document : SchemaDocument) : Except SchemaError Grammar :=
  (compileFresh document.registry document.root document.options).1

/-- Checks a payload against the root record. -/
def decode (document : SchemaDocument) (value : Json) : Decoding DecodedValue :=
  decodeRecord document.registry document.root document.options value

end SchemaDocument

end RecordGrammar
