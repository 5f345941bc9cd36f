import Workflow.Compile
import Workflow.Program.Arguments
import Workflow.Snapshot.Reading
import Workflow.Snapshot.Writing

/-!
# The program

`run` carries out a command line: it reads one file, converts its text, and writes one file or
standard output. It is a function of how files are read and written, so that it can be run on real
files and on any model of them.
-/

namespace Workflow.Program

/-- Why a file cannot be read or written. -/
inductive FileFault where
  | notFound
  | isDirectory
  | notDirectory
  | nameTooLong
  /-- The file holds no text. -/
  | notText
  /-- Any other reason, in the words of the system. -/
  | other (reason : String)
  deriving DecidableEq, Repr

/-- The message of a fault. -/
def FileFault.message : FileFault → String
  | notFound => "No such file or directory (os error 2)"
  | notDirectory => "Not a directory (os error 20)"
  | isDirectory => "Is a directory (os error 21)"
  | nameTooLong => "File name too long (os error 36)"
  | notText => "stream did not contain valid UTF-8"
  | other reason => reason

/-- How files are read and written. -/
structure Files (m : Type → Type) where
  read : (path : String) → m (Except FileFault String)
  write : (path text : String) → m (Except FileFault Unit)

/-- How the program ends: its exit code, and what it leaves on its outputs. -/
structure Exit where
  code : Nat
  output : String
  error : String
  deriving DecidableEq, Repr

namespace Exit

/-- The program succeeds. -/
def success (output : String) : Exit := ⟨0, output, ""⟩

/-- The program fails; the message lists the causes, the outermost first. -/
def failure (causes : List String) : Exit := ⟨1, "", "Error: " ++ ": ".intercalate causes ++ "\n"⟩

end Exit

/-- The summary of the command line. -/
def usage : String :=
  "Usage: flowmap [OPTIONS] <import|compile|check> <INPUT> [-o <OUTPUT>]\n"

/-- How the program ends without a task. -/
def Stop.exit : Stop → Exit
  | usage => ⟨2, "", Program.usage⟩
  | help => .success Program.usage
  | version => .success "flowmap 0.1.0\n"

/-- The message of an error. -/
def causeOf (e : Error) : String := e.message NodeId.text

/-- The snapshot of the graph of a document. -/
def importText (settings : Settings) (supply : Nat → NodeId) (text : String) :
    Except (List String) String :=
  match Document.ofYamlText text with
  | .error c => .error [causeOf (.yaml c)]
  | .ok d =>
    match (d.toGraph settings .standard supply).outcome with
    | .error e => .error [causeOf e]
    | .ok imported => .ok imported.graph.snapshot.jsonText

/-- The document of the graph of a snapshot. -/
def compileText (settings : Settings) (text : String) : Except (List String) String :=
  match Snapshot.ofJsonText text with
  | .error c => .error ["invalid graph snapshot", causeOf (.json c)]
  | .ok s =>
    match s.toGraph with
    | .error e => .error [causeOf e]
    | .ok g =>
      match (g.compileText settings .standard).outcome with
      | .error e => .error [causeOf e]
      | .ok text => .ok text

/-- A document imported and compiled again; no state may be left out. -/
def checkText (settings : Settings) (supply : Nat → NodeId) (text : String) :
    Except (List String) String :=
  match Document.ofYamlText text with
  | .error c => .error [causeOf (.yaml c)]
  | .ok d =>
    match (d.toGraph settings .standard supply).outcome with
    | .error e => .error [causeOf e]
    | .ok imported =>
      if !imported.skipped.isEmpty then
        .error ["states of unregistered types: " ++
          ", ".intercalate (imported.skipped.map SkippedState.id)]
      else
        match (imported.graph.compileText settings .standard).outcome with
        | .error e => .error [causeOf e]
        | .ok text => .ok text

namespace Task

/-- Converts the text of the input. -/
def convert (settings : Settings) (supply : Nat → NodeId) : Task → String →
    Except (List String) String
  | importDocument => importText settings supply
  | compile => compileText settings
  | check => checkText settings supply

/-- What is said when the input cannot be converted. -/
def failure (path : String) : Task → String
  | importDocument => "failed to import " ++ path
  | compile => "failed to compile " ++ path
  | check => "check failed for " ++ path

end Task

variable {m : Type → Type} [Monad m]

/-- Writes a file or standard output. -/
def write (files : Files m) (path : Option String) (text : String) : m Exit := do
  match path with
  | none => return .success text
  | some path =>
    match ← files.write path text with
    | .ok _ => return .success ""
    | .error f => return .failure ["failed to write " ++ path, f.message]

/-- Carries out a command line that was understood. -/
def Invocation.run (files : Files m) (supply : Nat → NodeId) (i : Invocation) : m Exit := do
  match Settings.choose (some i.scriptIndent) (some !i.noEntryFallback) (some !i.strict) with
  | .error f => return .failure ["invalid engine configuration", f.message]
  | .ok settings =>
    match ← files.read i.input with
    | .error f => return .failure ["failed to read " ++ i.input, f.message]
    | .ok text =>
      match i.task.convert settings supply text with
      | .error causes => return .failure (i.task.failure i.input :: causes)
      | .ok result => write files i.output result

/-- Carries out a command line; new nodes get their identifiers from `supply`. -/
def run (files : Files m) (supply : Nat → NodeId) (env : String → Option String)
    (args : List String) : m Exit :=
  match Invocation.of env args with
  | .ok i => i.run files supply
  | .error s => return s.exit

end Workflow.Program
