import Patchwork.Command.Basic

/-!
# Reading a command line

Arguments are read from left to right.  The value of a word or of a switch is looked at when the
next argument has been understood, or at the end, and so a fault in it gives way to an argument
behind it that is not understood at all.
-/
namespace Patchwork

/-- What has been read, but not looked at yet. -/
inductive Pending
  | word (value : Text)
  | switch (s : Switch) (value? : Option Text)

structure Reading where
  words : List Text := []
  given : List (Switch × Text) := []
  pending? : Option Pending := none

namespace Reading

def settle (r : Reading) : Except Usage Reading :=
  match r.pending? with
  | none => .ok r
  | some (.word w) =>
    if w = [] then .error .badValue else .ok { r with words := r.words ++ [w], pending? := none }
  | some (.switch _ none) => .error .badValue
  | some (.switch s (some v)) =>
    if !s.repeats ∧ r.given.any (·.1 = s) then .error .repeated
    else if s.isPath ∧ v = [] then .error .badValue
    else .ok { r with given := r.given ++ [(s, v)], pending? := none }

/-- The same reading with something else to be looked at next. -/
def followedBy (r : Reading) (p : Pending) : Except Usage Reading :=
  r.settle.map fun r => { r with pending? := some p }

/-- The switch that waits for a value. -/
def awaiting? (r : Reading) : Option Switch :=
  match r.pending? with
  | some (.switch s none) => some s
  | _ => none

def wordCount (r : Reading) : Nat :=
  r.words.length + match r.pending? with
    | some (.word _) => 1
    | _ => 0

def values (r : Reading) (s : Switch) : List Text := (r.given.filter (·.1 = s)).map (·.2)

end Reading

/-- An argument that starts with dashes. -/
inductive Dashed
  | long (name : Text) (value? : Option Text)
  | short (name : Char) (rest : Text)

namespace Dashed

def ofArgument? : Text → Option Dashed
  | '-' :: '-' :: t =>
    if t = [] then none
    else
      let name := t.takeWhile (· ≠ '=')
      some (.long name (if '=' ∈ t then some (t.drop (name.length + 1)) else none))
  | '-' :: c :: t => some (.short c t)
  | _ => none

/-- The value that is part of the argument. -/
def value? : Dashed → Option Text
  | long _ v => v
  | short _ [] => none
  | short _ ('=' :: v) => some v
  | short _ v => some v

/-- Whether there is a value, for which an argument without one has no use. -/
def isNeedless : Dashed → Bool
  | long _ v => v.isSome
  | short _ _ => false

end Dashed

/-- What an argument with dashes can stand for. -/
inductive Meaning
  | help
  | version
  | switch (s : Switch)

/-- What arguments there may be. -/
structure Grammar where
  switches : List Switch
  /-- Whether the version can be asked for. -/
  version : Bool
  wordCount : Nat

namespace Grammar

/-- In front of the command. -/
def global : Grammar := ⟨[.config], true, 0⟩

/-- Behind a command. -/
def ofCommand (c : Command) : Grammar := ⟨.config :: c.switches, false, c.wordCount⟩

def meaning? (g : Grammar) : Dashed → Option Meaning
  | .long name _ =>
    if name = "help".toList then some .help
    else if g.version ∧ name = "version".toList then some .version
    else (g.switches.find? (·.long = name)).map .switch
  | .short name _ =>
    if name = 'h' then some .help
    else if g.version ∧ name = 'V' then some .version
    else (g.switches.find? (·.short? = some name)).map .switch

/-- Goes on with an argument that starts with dashes. -/
def dashed (g : Grammar) (r : Reading) (d : Dashed) : Except Usage Reading :=
  match g.meaning? d with
  | none => .error .unknownArgument
  | some (.switch s) =>
    match d.value? with
    | some v => r.followedBy (.switch s (some v)) >>= Reading.settle
    | none => r.followedBy (.switch s none)
  | some .help => flag .help
  | some .version => flag .version
where
  flag (u : Usage) : Except Usage Reading :=
    if d.isNeedless then .error .needlessValue else r.settle >>= fun _ => .error u

/-- Reads what stands behind a command.  After two dashes, here counted by `plain`, every argument is
a word. -/
def read (g : Grammar) (plain : Bool) (r : Reading) : List Text → Except Usage Reading
  | [] => r.settle
  | a :: args =>
    if !plain ∧ a = ['-', '-'] then read g true r args
    else match if plain then none else Dashed.ofArgument? a with
      | some d => g.dashed r d >>= fun r => read g plain r args
      | none =>
        match if plain then none else r.awaiting? with
        | some s => read g plain { r with pending? := some (.switch s (some a)) } args
        | none =>
          if r.wordCount = g.wordCount then .error .unknownArgument
          else r.followedBy (.word a) >>= fun r => read g plain r args

end Grammar

namespace Command

def helpName : Text := "help".toList

/-- What is told when help is asked for on some commands. -/
def helpOn : List Text → Usage
  | [] => .help
  | [name] => if (ofName? name).isSome ∨ name = helpName then .help else .unknownCommand
  | _ => .unknownCommand

/-- Reads up to the command, and answers what stands behind it too. -/
def find (plain : Bool) (r : Reading) :
    List Text → Except Usage (Reading × Command × List Text)
  | [] => r.settle >>= fun r => .error (if r.given = [] then .nothingGiven else .noCommand)
  | a :: args =>
    if !plain ∧ a = ['-', '-'] then find true r args
    else match if plain then none else Dashed.ofArgument? a with
      | some d => Grammar.global.dashed r d >>= fun r => find plain r args
      | none =>
        match if plain then none else r.awaiting? with
        | some s => find plain { r with pending? := some (.switch s (some a)) } args
        | none =>
          match ofName? a with
          | some c => if plain then .error .unknownArgument else .ok (r, c, args)
          | none =>
            if a ≠ helpName then .error .unknownCommand
            else .error (if plain then .unknownArgument else helpOn args)

/-- The action of a command, if all its paths are there. -/
def action? (r : Reading) : Command → Option Action
  | select kind => match r.words with
    | [source, target] => some (.select kind source target (r.values .includes))
    | _ => none
  | diff => match r.words with
    | [baseline, modified, patchDir] => some (.diff baseline modified patchDir)
    | _ => none
  | patch => match r.words with
    | [baseline, patchDir, output] => some (.patch baseline patchDir output)
    | _ => none
  | checksum => match r.words with
    | [content] => some (.checksum content (r.values .record).head?)
    | _ => none

end Command

namespace Request

/-- The request that arguments make.  A configuration file that is named behind the command goes
before one that is named in front of it. -/
def ofArguments (args : List Text) : Except Usage Request := do
  let (outer, c, rest) ← Command.find false {} args
  let inner ← (Grammar.ofCommand c).read false {} rest
  match c.action? inner with
  | none => throw .missingArgument
  | some action =>
    let outer ← outer.settle
    pure ⟨(inner.values .config ++ outer.values .config).head?, action⟩

end Request

end Patchwork
