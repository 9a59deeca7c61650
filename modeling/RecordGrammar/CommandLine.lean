import RecordGrammar.SchemaLoading

/-! # The command line

`compile` takes a schema file and prints the grammar of its root record. `decode` takes a schema
file and a payload file, and prints what the payload decodes to. -/

namespace RecordGrammar

inductive Command where
  | compile (schema : String)
  | decode (schema payload : String)
  deriving DecidableEq, Repr

/-- What the arguments ask for. -/
inductive Invocation where
  | run (command : Command)
  | version
  | help
  | misuse
  deriving DecidableEq, Repr

namespace Invocation

/-- An option either ends the reading of arguments or leaves it with the verbose flag. -/
abbrev OptionResult := Except Invocation Bool

/-- A cluster of short options. The version is told only ahead of a command. -/
def shortOptions (ahead : Bool) : Bool → List Char → OptionResult
  | verbose, [] => .ok verbose
  | verbose, c :: rest =>
    if c = 'v' ∧ verbose = false then shortOptions ahead true rest
    else if c = 'h' then .error .help
    else if c = 'V' ∧ ahead then .error .version
    else .error .misuse

def longOption (ahead verbose : Bool) (name : String) : OptionResult :=
  if name = "--verbose" ∧ verbose = false then .ok true
  else if name = "--help" then .error .help
  else if name = "--version" ∧ ahead then .error .version
  else .error .misuse

/-- An argument as an option, none if it is an operand. A dash alone is one. -/
def option? (ahead verbose : Bool) (arg : String) : Option OptionResult :=
  match arg.toList with
  | '-' :: '-' :: _ => some (longOption ahead verbose arg)
  | '-' :: c :: rest => some (shortOptions ahead verbose (c :: rest))
  | _ => none

/-- The operands of a command, of which it takes `wanted` at most. Behind two dashes every argument
is an operand, and none of them is empty. -/
def operands : Nat → Bool → List String → Except Invocation (List String)
  | _, _, [] => .ok []
  | wanted, verbose, arg :: rest =>
    if arg = "--" then
      if wanted < rest.length ∨ rest.any String.isEmpty then .error .misuse else .ok rest
    else match option? false verbose arg, wanted with
      | some (.ok verbose), _ => operands wanted verbose rest
      | some (.error result), _ => .error result
      | none, 0 => .error .misuse
      | none, wanted + 1 =>
        if arg.isEmpty then .error .misuse else (operands wanted verbose rest).map (arg :: ·)

def compile (args : List String) : Invocation :=
  match operands 1 false args with
  | .ok [schema] => .run (.compile schema)
  | .ok _ => .misuse
  | .error result => result

def decode (args : List String) : Invocation :=
  match operands 2 false args with
  | .ok [schema, payload] => .run (.decode schema payload)
  | .ok _ => .misuse
  | .error result => result

def helpOn : List String → Invocation
  | [] => .help
  | [name] => if name ∈ ["compile", "decode", "help"] then .help else .misuse
  | _ => .misuse

/-- Reads the arguments from the left; the first one that settles the matter does so. -/
def ofArguments (verbose : Bool) : List String → Invocation
  | [] => .misuse
  | arg :: rest =>
    if arg = "compile" then compile rest
    else if arg = "decode" then decode rest
    else if arg = "help" then helpOn rest
    else if arg = "--" then .misuse
    else match option? true verbose arg with
      | some (.ok verbose) => ofArguments verbose rest
      | some (.error result) => result
      | none => .misuse

/-- The files that an invocation may read. -/
def files : Invocation → List String
  | .run (.compile schema) => [schema]
  | .run (.decode schema payload) => [schema, payload]
  | _ => []

end Invocation

/-- What a run leaves behind: its exit code and what it printed. -/
structure Response where
  code : Nat
  output : String := ""
  error : String := ""
  deriving DecidableEq, Repr

namespace Response

def failure (headline : String) : Response := { code := 1, error := "Error: " ++ headline ++ "\n" }

def usage : String :=
  "Compile record schemas into BNF grammars\n\n" ++
  "Usage: pie-bnf [-v] compile <schema>\n       pie-bnf [-v] decode <schema> <payload>\n"

end Response

namespace Command

def printGrammar (document : SchemaDocument) : Response :=
  match document.compile with
  | .ok grammar =>
    { code := 0, output := "start: " ++ grammar.start ++ "\n" ++ grammar.text ++ "\n" }
  | .error _ => .failure ("Failed to compile record `" ++ document.root ++ "`")

def printDecoded (document : SchemaDocument) (name payload : String) : Response :=
  match Json.ofText? payload with
  | none => .failure ("Payload is not valid JSON: " ++ quotedName name)
  | some value =>
    match document.decode value with
    | .ok decoded => { code := 0, output := decoded.toJson.indented 0 ++ "\n" }
    | .error _ => .failure ("Payload does not match record `" ++ document.root ++ "`")

/-- Runs a command. `read` gives the text of a file that can be read. -/
def respond (read : String → Option String) : Command → Response
  | .compile schema =>
    match SchemaDocument.load read schema with
    | .error e => .failure e.headline
    | .ok document => printGrammar document
  | .decode schema payload =>
    match SchemaDocument.load read schema with
    | .error e => .failure e.headline
    | .ok document =>
      match read payload with
      | none => .failure ("Failed to read payload: " ++ quotedName payload)
      | some text => printDecoded document payload text

end Command

namespace Invocation

def respond (read : String → Option String) : Invocation → Response
  | .run command => command.respond read
  | .version => { code := 0, output := "pie-bnf 0.1.0\n" }
  | .help => { code := 0, output := Response.usage }
  | .misuse => { code := 2, error := Response.usage }

end Invocation

/-- Runs the program with its arguments. -/
def respondTo (read : String → Option String) (args : List String) : Response :=
  (Invocation.ofArguments false args).respond read

end RecordGrammar
