import TruthTrees.Session
import TruthTrees.Text.Blank
import TruthTrees.Text.Numeral

/-! Scripts: texts with one instruction a line. An instruction is echoed and followed by what it has
to say, or by why it failed. A line that fails does not stop the script. -/
namespace TruthTrees

inductive Instruction where
  | command (c : Command)
  | print
  | history
  | help
deriving DecidableEq, Repr

inductive LineError where
  | missingArgument
  | invalidNumber (text : String)
  | unknownCommand (name : String)
  | refused (refusal : Refusal)
deriving DecidableEq, Repr

def LineError.message : LineError → String
  | missingArgument => "missing argument"
  | invalidNumber text => s!"invalid number '{text}'"
  | unknownCommand name => s!"unknown command '{name}'"
  | refused r => r.message

namespace Instruction

def helpText : String :=
  "\n".intercalate
    ["commands:",
     "  premise <formula>         add a premise to the root",
     "  add <formula>             add a formula to the current node",
     "  delete <formula>          delete a formula",
     "  branch <formula>          branch the current node on a formula",
     "  delete_branch             delete the branches of the current node",
     "  go_to <node>              move to a node",
     "  justify <child> <parent>  mark the parent of a formula",
     "  checkmark <formula>       checkmark a formula",
     "  close <formula> <formula> close the current node",
     "  reopen <node>             reopen a closed node",
     "  mark_open                 mark the current node open",
     "  check_all_closed          check that every branch is closed",
     "  check_any_open            check that some branch is open",
     "  undo | redo | reset | print | history | help"]

def readNumber (args : List (List Char)) : Except LineError (Nat × List (List Char)) :=
  match args with
  | [] => .error .missingArgument
  | arg :: rest =>
    match Text.readNumber? arg with
    | some n => .ok (n, rest)
    | none => .error (.invalidNumber (String.ofList arg))

/-- An instruction about one number. Further arguments are ignored. -/
def withNumber (args : List (List Char)) (c : Nat → Command) : Except LineError Instruction := do
  let (n, _) ← readNumber args
  return .command (c n)

def withNumbers (args : List (List Char)) (c : Nat → Nat → Command) :
    Except LineError Instruction := do
  let (m, rest) ← readNumber args
  let (n, _) ← readNumber rest
  return .command (c m n)

/-- Reads a trimmed line: a name, and behind the first blank its arguments. -/
def parse (line : List Char) : Except LineError Instruction :=
  let (word, behind) := Text.firstWord line
  let rest := Text.trim behind
  let args := Text.words rest
  match String.ofList word with
  | "premise" => .ok (.command (.addPremise (String.ofList rest)))
  | "add" => .ok (.command (.addLine (String.ofList rest)))
  | "delete" => withNumber args .deleteLine
  | "branch" => withNumber args .branch
  | "delete_branch" => .ok (.command .deleteBranch)
  | "go_to" => withNumber args .goTo
  | "justify" => withNumbers args .justify
  | "checkmark" => withNumber args .checkmark
  | "close" => withNumbers args .close
  | "reopen" => withNumber args .reopen
  | "mark_open" => .ok (.command .markOpen)
  | "check_all_closed" => .ok (.command .checkAllClosed)
  | "check_any_open" => .ok (.command .checkAnyOpen)
  | "undo" => .ok (.command .undo)
  | "redo" => .ok (.command .redo)
  | "reset" => .ok (.command .reset)
  | "print" => .ok .print
  | "history" => .ok .history
  | "help" => .ok .help
  | name => .error (.unknownCommand name)

def answer : Command → Reply → String
  | .checkAllClosed, _ => "all branches closed\n"
  | .checkAnyOpen, _ => "open branch found\n"
  | .undo, .description text => s!"undid: {text}\n"
  | .redo, .description text => s!"redid: {text}\n"
  | _, .line number => s!"added formula {number}\n"
  | _, .nodes left right => s!"created nodes {left} and {right}\n"
  | _, _ => ""

def historyText (h : History) : String :=
  String.join (h.steps.zipIdx.map
    (fun (step, k) => Text.padLeft 3 (k + 1) ++ "  " ++ step.description ++ "\n"))

def run (s : Session) : Instruction → Session × Except LineError String
  | command c =>
    match s.run c with
    | (s', .ok reply) => (s', .ok (answer c reply))
    | (s', .error e) => (s', .error (.refused e))
  | print => (s, .ok (s.tree.render ++ s!"current node: {s.currentNumber}\n"))
  | history => (s, .ok (historyText s.history))
  | help => (s, .ok (helpText ++ "\n"))

end Instruction

namespace Script

def runLine (s : Session) (line : List Char) : Session × Except LineError String :=
  match Instruction.parse line with
  | .ok instruction => instruction.run s
  | .error e => (s, .error e)

/-- Whether a trimmed line asks for something: it is neither empty nor a comment. -/
def isActive (line : List Char) : Bool :=
  match line with
  | [] => false
  | c :: _ => c ≠ '#'

def transcript (line : List Char) : Except LineError String → String
  | .ok text => s!"> {String.ofList line}\n" ++ text
  | .error e => s!"> {String.ofList line}\nerror: {e.message}\n"

def runTyped (s : Session) (typed : List Char) : Session × String :=
  let line := Text.trim typed
  if isActive line then
    let (s', outcome) := runLine s line
    (s', transcript line outcome)
  else (s, "")

def runLines (s : Session) : List (List Char) → Session × String
  | [] => (s, "")
  | typed :: rest =>
    let (s₁, shown) := runTyped s typed
    let (s₂, more) := runLines s₁ rest
    (s₂, shown ++ more)

/-- What a script shows when it is run in a new session. -/
def output (config : Config) (script : String) : String :=
  (runLines (.start config) (Text.lines script.toList)).2

end Script

end TruthTrees
