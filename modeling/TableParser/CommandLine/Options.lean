/-!
# Command line options

The program takes a grammar file, optionally a source file to parse, and options that choose the algorithm, ask for a
dump, and save or load the built parser.

* **Reading the arguments** (`Options.ofArguments`): an option is given at most once, its value in the next argument or
  behind an equals sign; behind `--` every argument is a file.
-/

namespace TableParser

/-- How the parser is built. -/
inductive Algorithm
  | ll
  | lr
deriving DecidableEq, Repr

/-- The algorithm with the given name. -/
def Algorithm.ofName : String → Option Algorithm
  | "ll" => some .ll
  | "lr" => some .lr
  | _ => none

/-- What the program is asked to do. -/
structure Options where
  algorithm : Algorithm
  dump : Bool
  save : Option String
  load : Bool
  grammar : String
  source : Option String
deriving DecidableEq, Repr

/-- The arguments taken so far. -/
structure Arguments where
  algorithm : Option Algorithm
  dump : Bool
  save : Option String
  load : Bool
  files : List String
deriving DecidableEq, Repr

namespace Arguments

/-- No argument was taken yet. -/
def empty : Arguments := ⟨none, false, none, false, []⟩

/-- Choose the algorithm by its name. -/
def setAlgorithm (a : Arguments) (name : String) : Option Arguments :=
  match a.algorithm, Algorithm.ofName name with
  | none, some algorithm => some { a with algorithm := some algorithm }
  | _, _ => none

/-- Ask for the parser to be saved. -/
def setSave (a : Arguments) (path : String) : Option Arguments :=
  if a.save.isSome || path.isEmpty then none else some { a with save := some path }

/-- Ask for a dump. -/
def setDump (a : Arguments) : Option Arguments := if a.dump then none else some { a with dump := true }

/-- Ask for a saved parser to be loaded. -/
def setLoad (a : Arguments) : Option Arguments := if a.load then none else some { a with load := true }

/-- Take a file, of which there are two at most. -/
def addFile (a : Arguments) (path : String) : Option Arguments :=
  if path.isEmpty || 1 < a.files.length then none else some { a with files := a.files ++ [path] }

/-- The options, once a grammar file is given. -/
def options? (a : Arguments) : Option Options :=
  match a.files with
  | [] => none
  | grammar :: source => some ⟨a.algorithm.getD .lr, a.dump, a.save, a.load, grammar, source.head?⟩

end Arguments

/-- What an argument is by its form. -/
inductive ArgumentForm
  /-- From here on every argument is a file. -/
  | filesFollow
  /-- An option with the value behind its equals sign, if there is one. -/
  | option (name : String) (value : Option String)
  | file
deriving DecidableEq, Repr

namespace ArgumentForm

/-- The text behind an equals sign. -/
def valueOf : List Char → Option String
  | '=' :: value => some (String.ofList value)
  | _ => none

/-- Tell the form of an argument. A short option may have its value right behind its letter. -/
def ofText (text : String) : ArgumentForm :=
  match text.toList with
  | ['-', '-'] => .filesFollow
  | '-' :: '-' :: body =>
    .option (String.ofList (body.takeWhile (· != '='))) (valueOf (body.dropWhile (· != '=')))
  | ['-', 'a'] => .option "algorithm" none
  | '-' :: 'a' :: value => .option "algorithm" (some ((valueOf value).getD (String.ofList value)))
  | ['-'] => .file
  | '-' :: _ => .option "" none
  | _ => .file

/-- Whether an argument can be the value of the option before it. -/
def canBeValue (text : String) : Bool := ofText text = .file

end ArgumentForm

namespace Arguments

/-- Take an option that has a value. -/
def setValue (a : Arguments) (name value : String) : Option Arguments :=
  match name with
  | "algorithm" => a.setAlgorithm value
  | "save" => a.setSave value
  | _ => none

/-- Take an option that has no value behind an equals sign, and is no option with a value in the next argument. -/
def setFlag (a : Arguments) (name : String) : Option Arguments :=
  match name with
  | "dump" => a.setDump
  | "load" => a.setLoad
  | _ => none

/-- Whether an option has a value. -/
def hasValue (name : String) : Bool := name == "algorithm" || name == "save"

/-- Take the arguments from left to right. -/
def takeAll (a : Arguments) : List String → Option Arguments
  | [] => some a
  | text :: rest =>
    match ArgumentForm.ofText text with
    | .filesFollow => rest.foldlM addFile a
    | .file => (a.addFile text).bind fun a => takeAll a rest
    | .option name (some value) => (a.setValue name value).bind fun a => takeAll a rest
    | .option name none =>
      if hasValue name then
        match rest with
        | [] => none
        | value :: rest =>
          if ArgumentForm.canBeValue value then (a.setValue name value).bind fun a => takeAll a rest else none
      else (a.setFlag name).bind fun a => takeAll a rest

end Arguments

/-- The options that the arguments ask for, if they are well-formed. -/
def Options.ofArguments (arguments : List String) : Option Options :=
  (Arguments.empty.takeAll arguments).bind Arguments.options?

end TableParser
