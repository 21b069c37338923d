import Patchwork.Text.Basic

/-!
# Commands

What a command line can ask for, and what is told instead if it asks for nothing that can be run.
-/
namespace Patchwork

/-- What is told to the user instead of running a command. -/
inductive Usage
  | help
  | version
  | nothingGiven
  | noCommand
  | unknownCommand
  | unknownArgument
  | missingArgument
  | badValue
  | needlessValue
  | repeated
  deriving DecidableEq, Repr

namespace Usage

/-- Whether the user asked for it. -/
def isAsked : Usage → Bool
  | help | version => true
  | _ => false

def reason : Usage → String
  | help | version | nothingGiven => ""
  | noCommand => "a command is missing\n"
  | unknownCommand => "there is no such command\n"
  | unknownArgument => "an argument is not understood\n"
  | missingArgument => "a path is missing\n"
  | badValue => "a value is missing or empty\n"
  | needlessValue => "a value is given where there can be none\n"
  | repeated => "an option is given twice\n"

def summary : List String := [
  "usage: modforge [--config FILE] COMMAND",
  "commands:",
  "  copy INPUT OUTPUT [-i GLOB]...",
  "  extract INPUT DIR [-i GLOB]...",
  "  strip INPUT OUTPUT [-i GLOB]...",
  "  diff BASELINE MODIFIED PATCH_DIR",
  "  patch BASELINE PATCH_DIR OUTPUT",
  "  checksum CONTENT [-r RECORD]"]

def message (u : Usage) : String := u.reason ++ String.join (summary.map fun line => line ++ "\n")

end Usage

/-- Operations on the entries of an archive that a filter accepts. -/
inductive Selection
  | copy
  | extract
  | strip
  deriving DecidableEq, Repr

inductive Action
  | select (kind : Selection) (source target : Text) (includes : List Text)
  | diff (baseline modified patchDir : Text)
  | patch (baseline patchDir output : Text)
  | checksum (content : Text) (record? : Option Text)
  deriving DecidableEq, Repr

/-- An action, and the configuration file that is named for it. -/
structure Request where
  config? : Option Text
  action : Action
  deriving DecidableEq, Repr

/-- Arguments that have a value and a name instead of a place. -/
inductive Switch
  | config
  | includes
  | record
  deriving DecidableEq, Repr

namespace Switch

def long : Switch → Text
  | config => "config".toList
  | includes => "include".toList
  | record => "record".toList

def short? : Switch → Option Char
  | config => none
  | includes => some 'i'
  | record => some 'r'

/-- Whether it may be given several times. -/
def repeats : Switch → Bool
  | includes => true
  | _ => false

/-- Whether its value is a path, which may not be empty. -/
def isPath : Switch → Bool
  | includes => false
  | _ => true

end Switch

inductive Command
  | select (kind : Selection)
  | diff
  | patch
  | checksum
  deriving DecidableEq, Repr

namespace Command

def name : Command → Text
  | select .copy => "copy".toList
  | select .extract => "extract".toList
  | select .strip => "strip".toList
  | diff => "diff".toList
  | patch => "patch".toList
  | checksum => "checksum".toList

def all : List Command :=
  [select .copy, select .extract, select .strip, diff, patch, checksum]

def ofName? (name : Text) : Option Command := all.find? (·.name = name)

/-- How many paths a command takes. -/
def wordCount : Command → Nat
  | select _ => 2
  | diff | patch => 3
  | checksum => 1

/-- The switches that a command has beside those that every command has. -/
def switches : Command → List Switch
  | select _ => [.includes]
  | diff | patch => []
  | checksum => [.record]

theorem ofName?_name (c : Command) : ofName? c.name = some c := by
  cases c with
  | select kind => cases kind <;> rfl
  | _ => rfl

end Command

end Patchwork
