import Workflow.Settings

/-!
# Command lines

A command line names a task and its files, with options in front of the task or behind it. Most
options may also come from the environment; what stands on the command line counts more, and behind
the task more than in front of it. An option may occur once in each of the two places.

Words are looked at in order, and the first that is wrong or asks for help decides. A value that is
a word of its own is only looked at together with the next option or file behind it; in front of the
task the last such value is therefore looked at after the words behind the task.
-/

namespace Workflow.Program

/-- An option. -/
inductive Flag where
  | scriptIndent
  | strict
  | noEntryFallback
  | logFormat
  | output
  deriving DecidableEq, Repr

namespace Flag

/-- The options that may stand in front of a task. -/
def general : List Flag := [scriptIndent, strict, noEntryFallback, logFormat]

/-- The long name of an option. -/
def name : Flag → String
  | scriptIndent => "script-indent"
  | strict => "strict"
  | noEntryFallback => "no-entry-fallback"
  | logFormat => "log-format"
  | output => "output"

/-- Whether an option has a value. -/
def hasValue : Flag → Bool
  | strict | noEntryFallback => false
  | scriptIndent | logFormat | output => true

/-- The variable of the environment that stands in for an option. -/
def envName? : Flag → Option String
  | scriptIndent => some "FLOWMAP_SCRIPT_INDENT"
  | strict => some "FLOWMAP_STRICT"
  | noEntryFallback => some "FLOWMAP_NO_ENTRY_FALLBACK"
  | logFormat => some "FLOWMAP_LOG_FORMAT"
  | output => none

end Flag

/-- What a command line asks for. -/
inductive Task where
  /-- A document as a snapshot of its graph. -/
  | importDocument
  /-- A snapshot as a document. -/
  | compile
  /-- A document imported and compiled again. -/
  | check
  deriving DecidableEq, Repr

namespace Task

/-- The tasks, in order. -/
def all : List Task := [importDocument, compile, check]

/-- The name of a task. -/
def name : Task → String
  | importDocument => "import"
  | compile => "compile"
  | check => "check"

/-- The task with a given name. -/
def ofName? (name : String) : Option Task := all.find? (·.name = name)

/-- The options that may stand behind a task. -/
def flags : Task → List Flag
  | importDocument | compile => .output :: Flag.general
  | check => Flag.general

end Task

/-- The name that asks for help like a task. -/
def helpName : String := "help"

/-- The layout of log lines. -/
inductive LogFormat where
  | text
  | json
  deriving DecidableEq, Repr

/-- The format with a given name. -/
def LogFormat.ofName? : String → Option LogFormat
  | "text" => some text
  | "json" => some json
  | _ => none

/-- Why a command line leads to no task. -/
inductive Stop where
  /-- It is not understood. -/
  | usage
  /-- It asks for help. -/
  | help
  /-- It asks for the version. -/
  | version
  deriving DecidableEq, Repr

/-- One word of a command line. -/
inductive Word where
  /-- The mark behind which every word is a file. -/
  | separator
  /-- A long option, with the value behind an equals sign. -/
  | long (name : String) (value : Option String)
  /-- A short option, with the text behind its letter. -/
  | short (letter : Char) (rest : String)
  | plain (text : String)
  deriving DecidableEq, Repr

namespace Word

/-- The kind of a word. -/
def of (text : String) : Word :=
  match text.toList with
  | ['-', '-'] => separator
  | '-' :: '-' :: rest =>
    let name := rest.takeWhile (· ≠ '=')
    match rest.drop name.length with
    | [] => long (String.ofList name) none
    | _ :: value => long (String.ofList name) (some (String.ofList value))
  | '-' :: c :: rest => short c (String.ofList rest)
  | _ => plain text

end Word

/-- Options that were given, with the values of those that have one. -/
abbrev Given := List (Flag × Option String)

namespace Given

/-- Whether an option was given. -/
def has (g : Given) (f : Flag) : Bool := g.any (·.1 = f)

/-- The value that an option was given. -/
def value? (g : Given) (f : Flag) : Option String := (g.find? (·.1 = f)).bind Prod.snd

end Given

/-- One of the two places where options stand. -/
inductive Place where
  /-- In front of the task. -/
  | front
  /-- Behind the task. -/
  | behind (task : Task)
  deriving DecidableEq, Repr

/-- The options that may stand in a place. -/
def Place.flags : Place → List Flag
  | front => Flag.general
  | behind task => task.flags

/-- The number that a text spells, which has to fit 64 bits. -/
def number? (text : String) : Option Nat :=
  let digits := match text.toList with
    | '+' :: rest => rest
    | cs => cs
  if digits.isEmpty || !digits.all Char.isDigit then none
  else
    let n := digits.foldl (fun n c => 10 * n + (c.toNat - '0'.toNat)) 0
    if n < Nat.pow 2 64 then some n else none

/-- The truth value that a text spells. -/
def truth? : String → Option Bool
  | "true" => some true
  | "false" => some false
  | _ => none

/-- Whether a text is a value of an option. -/
def Flag.accepts (f : Flag) (value : String) : Bool :=
  match f with
  | .scriptIndent => (number? value).isSome
  | .logFormat => (LogFormat.ofName? value).isSome
  | .output => !value.isEmpty
  | .strict | .noEntryFallback => false

/-- Adds an option, which must not be there and must accept its value. -/
def Given.add (g : Given) (f : Flag) (value : Option String) : Except Stop Given :=
  if g.has f || value.any (!f.accepts ·) then .error .usage else .ok ((f, value) :: g)

/-- An option whose value is a word of its own that has not been looked at. -/
abbrev Pending := Option (Flag × String)

/-- Adds an option whose value has not been looked at. -/
def Given.settle (g : Given) : Pending → Except Stop Given
  | none => .ok g
  | some (f, value) => g.add f (some value)

/-- The option that a word starts, and its value where the word holds it. -/
def flagOf (place : Place) : Word → Except Stop (Flag × Option String)
  | .long name value =>
    match place.flags.find? (·.name = name) with
    | some f => if !f.hasValue && value.isSome then .error .usage else .ok (f, value)
    | none =>
      if value.isSome then .error .usage
      else if name = "help" then .error .help
      else if name = "version" && place = .front then .error .version
      else .error .usage
  | .short 'o' rest =>
    if Flag.output ∈ place.flags then
      match rest.toList with
      | [] => .ok (.output, none)
      | '=' :: value => .ok (.output, some (String.ofList value))
      | _ => .ok (.output, some rest)
    else .error .usage
  | .short 'h' _ => .error .help
  | .short 'V' _ => .error (if place = .front then .version else .usage)
  | _ => .error .usage

/-- Takes options off the front of a command line, up to a plain word or the separator. -/
def takeFlags (place : Place) (g : Given) (pending : Pending) :
    List String → Except Stop (Given × Pending × List String)
  | [] => .ok (g, pending, [])
  | text :: rest =>
    match Word.of text with
    | .plain _ | .separator => .ok (g, pending, text :: rest)
    | word => do
      let g ← g.settle pending
      let (f, value) ← flagOf place word
      if !f.hasValue || value.isSome then takeFlags place (← g.add f value) none rest
      else match rest with
        | [] => .error .usage
        | value :: rest =>
          match Word.of value with
          | .plain value => takeFlags place g (some (f, value)) rest
          | _ => .error .usage

/-- Takes the words behind a task: options and one file; behind the separator every word is a
file. -/
def takeWords (task : Task) : (fuel : Nat) → Given → (file : Option String) → List String →
    Except Stop (Given × String)
  | 0, _, _, _ => .error .usage
  | fuel + 1, g, file, words => do
    let (g, pending, words) ← takeFlags (.behind task) g none words
    let g ← g.settle pending
    match file, words with
    | some file, [] => return (g, file)
    | none, text :: rest =>
      match Word.of text, rest with
      | .separator, [file] => if file.isEmpty then .error .usage else return (g, file)
      | .separator, _ => .error .usage
      | _, rest => if text.isEmpty then .error .usage else takeWords task fuel g (some text) rest
    | some file, [text] =>
      match Word.of text with
      | .separator => return (g, file)
      | _ => .error .usage
    | _, _ => .error .usage

/-- What the help task says about the words behind it: they name one task. -/
def helpOn : List String → Stop
  | [] => .help
  | [name] => if (Task.ofName? name).isSome || name = helpName then .help else .usage
  | _ => .usage

/-- A command line that was understood. -/
structure Invocation where
  task : Task
  input : String
  /-- The file to write; standard output if there is none. -/
  output : Option String
  scriptIndent : Nat
  strict : Bool
  noEntryFallback : Bool
  logFormat : LogFormat
  deriving DecidableEq, Repr

/-- The value of an option in the environment, which is looked at unless the option stands in both
places of the command line. -/
def outside {α : Type} (parse : String → Option α) (env : String → Option String)
    (front behind : Given) (f : Flag) : Except Stop (Option α) :=
  if front.has f && behind.has f then .ok none
  else match f.envName?.bind env with
    | none => .ok none
    | some text =>
      match parse text with
      | some v => .ok (some v)
      | none => .error .usage

/-- The value of an option: from behind the task, from in front of it, or from the environment. -/
def valueOf {α : Type} (parse : String → Option α) (env : String → Option String)
    (front behind : Given) (f : Flag) : Except Stop (Option α) := do
  let outside ← outside parse env front behind f
  return (behind.value? f).bind parse <|> (front.value? f).bind parse <|> outside

/-- Whether an option without value is on. -/
def isOn (env : String → Option String) (front behind : Given) (f : Flag) :
    Except Stop Bool := do
  let outside ← outside truth? env front behind f
  return front.has f || behind.has f || outside.getD false

/-- Understands a command line in an environment. -/
def Invocation.of (env : String → Option String) (args : List String) :
    Except Stop Invocation := do
  let (front, pending, rest) ← takeFlags .front [] none args
  match rest with
  | [] => .error .usage
  | name :: words =>
    match Task.ofName? name with
    | none => .error (if name = helpName then helpOn words else .usage)
    | some task => do
      let (behind, input) ← takeWords task (words.length + 1) [] none words
      let front ← front.settle pending
      let indent ← valueOf number? env front behind .scriptIndent
      let strict ← isOn env front behind .strict
      let noEntryFallback ← isOn env front behind .noEntryFallback
      let format ← valueOf LogFormat.ofName? env front behind .logFormat
      return ⟨task, input, behind.value? .output, indent.getD Script.defaultIndent, strict,
        noEntryFallback, format.getD .text⟩

example : (Invocation.of (fun _ => none) ["--strict", "import", "a", "-ob"]).toOption
    = some ⟨.importDocument, "a", some "b", 2, true, false, .text⟩ := by decide +kernel
example : (Invocation.of (fun _ => none) ["check", "--", "-a"]).toOption.map Invocation.input
    = some "-a" := by decide +kernel
example : (Invocation.of (fun _ => none) ["check", "a", "-o", "b"]).toOption = none := by
  decide +kernel
example : (takeFlags .front [] none ["--script-indent", "x", "import"]).toOption
    = some ([], some (.scriptIndent, "x"), ["import"]) := by decide +kernel

end Workflow.Program
