import Patchwork.Config.Basic
import Patchwork.Text.Decimal
import Patchwork.Toml.Document
import Patchwork.Toml.Printer

/-!
# Configurations as documents

Settings are written as the keys of a TOML document.  A key that is missing leaves the setting as it
is by default, and keys of other names are passed over.
-/
namespace Patchwork.Config

open Toml (Entries Value)

def contextLinesKey : Text := "context_lines".toList

def patchExtensionKey : Text := "patch_extension".toList

def patchLabelKey : Text := "patch_label_prefix".toList

def beginningsKey : Text := "strip_prefixes".toList

def includesKey : Text := "include".toList

/-- The greatest number in a document. -/
def numberLimit : Nat := 0x7fffffffffffffff

def text? : Value → Option Text
  | .string t => some t
  | _ => none

def number? : Value → Option Nat
  | .integer n => if 0 ≤ n then some n.toNat else none
  | _ => none

def texts? : Value → Option (List Text)
  | .array vs => vs.mapM text?
  | _ => none

/-- The value of a key as `read` takes it, or the one by default if the key is missing. -/
def setting? {α : Type} (es : Entries) (key : Text) (read : Value → Option α) (default : α) :
    Option α :=
  match es.get? key with
  | some v => read v
  | none => some default

def ofEntries? (es : Entries) : Option Config := do
  let c : Config := {}
  let contextLines ← setting? es contextLinesKey number? c.contextLines
  let patchExtension ← setting? es patchExtensionKey text? c.patchExtension
  let patchLabel ← setting? es patchLabelKey text? c.patchLabel
  let beginnings ← setting? es beginningsKey texts? c.beginnings
  let includes ← setting? es includesKey texts? c.includes
  pure { contextLines, patchExtension, patchLabel, beginnings, includes }

/-- The configuration that a document holds. -/
def parse (document : Text) : Except Fault Config :=
  match (Toml.parse? document).bind ofEntries? with
  | some c => .ok c
  | none => .error (.serialization "the document does not hold a configuration".toList)

/-- The document of a configuration, unless a number is too large for one. -/
def print (c : Config) : Except Fault Text :=
  if numberLimit < c.contextLines then
    .error (.serialization "a number does not fit into the document".toList)
  else .ok (
    Toml.assignment contextLinesKey (Text.Decimal.digits c.contextLines) ++
    Toml.assignment patchExtensionKey (Toml.quoted c.patchExtension) ++
    Toml.assignment patchLabelKey (Toml.quoted c.patchLabel) ++
    Toml.assignment beginningsKey (Toml.quotedList c.beginnings) ++
    Toml.assignment includesKey (Toml.quotedList c.includes))

end Patchwork.Config
