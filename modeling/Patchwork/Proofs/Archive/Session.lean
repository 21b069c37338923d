import Patchwork.Proofs.Archive.Advance
import Patchwork.Proofs.Archive.Close

/-!
# Sessions

Any number of handles are used on one volume, in any order.  Beside what the programs leave, a session
records how each handle was got, what was added through it, and which archives were put where; what is
recorded decides nothing.
-/
namespace Patchwork

open Handle Volume
open Zip (Member)

/-- A handle in use, and what is recorded of it. -/
structure Use where
  /-- The volume before the handle was got. -/
  before : Volume
  /-- The volume when the handle was got. -/
  begun : Volume
  start : Handle
  handle : Handle
  /-- The members of the archive when the handle was got. -/
  old : List Member
  /-- What the calls on the handle have added. -/
  added : List Addition
  /-- The place of the temporary file. -/
  room : Option Place

structure Session where
  volume : Volume
  /-- The handles in use, by their names. -/
  uses : Text → Option Use
  /-- The members of the archives that were put at places, in the end. -/
  archives : Place → Option (List Member)

inductive Event
  | openAt (name path : Text) (create : Bool)
  | create (name path : Text)
  | write (name path : Text) (data : Bytes)
  | createDirAll (name path : Text)
  | copyFrom (name source path : Text)
  | close (name : Text)
  | drop (name : Text)

/-- The name of the handle that an event gets, uses or gives up. -/
def Event.name : Event → Text
  | .openAt name .. | .create name _ | .write name .. | .createDirAll name _ | .copyFrom name ..
  | .close name | .drop name => name

/-- What can be asked about an archive. -/
inductive Question
  | len
  | files
  | entries
  | walk
  | read (path : Text)

inductive Answer
  | number (n : Nat)
  | paths (ps : List Text)
  | kinds (es : List (Text × EntryKind))
  | contents (es : List (Except Fault Entry))
  | content (r : Except Fault Bytes)
  deriving DecidableEq

def Question.answer (h : Handle) (v : Volume) : Question → Answer
  | len => .number h.size
  | files => .paths h.files
  | entries => .kinds h.entries
  | walk => .contents (h.walk v)
  | read path => .content (h.read v path)

/-- The place of the temporary file of a handle. -/
def Handle.room? (h : Handle) (v : Volume) : Option Place :=
  h.temp?.bind fun temp => (v.locate .entry temp).toOption

/-- The members of the archive that a handle was opened for. -/
def Handle.members (h : Handle) (v : Volume) : List Member :=
  (h.opened.mapM (h.memberOf v)).toOption.getD []

namespace Use

def ofStart (before begun : Volume) (h : Handle) : Use :=
  ⟨before, begun, h, h, h.members begun, [], h.room? begun⟩

/-- The handle was opened, and nothing has been added. -/
def idle (u : Use) : Bool := u.start.stage.isNone && u.added.isEmpty

/-- The members of the archive that is put in place when the handle is closed. -/
def staged (u : Use) : List Member := u.old.map Member.copied ++ u.added.map (·.2)

/-- What is recorded once a call has been made that ends with an outcome. -/
def called (u : Use) (v w : Volume) (c : Call) (r : Except Fault Unit) (h : Handle) : Use :=
  { u with
    handle := h
    added := u.added ++ if r.isOk then c.additions v u.handle.present else []
    room := u.room.or (h.room? w) }

end Use

namespace Session

def start (v : Volume) : Session := ⟨v, fun _ => none, fun _ => none⟩

/-- The archives, with one of some members put at a place, if that is found. -/
def put (s : Session) (found : Except IoError Place) (ms : List Member) : Place → Option (List Member) :=
  match found with
  | .ok p => Function.update s.archives p (some ms)
  | .error _ => s.archives

/-- Gets a handle for a name that is not in use. -/
def get (s : Session) (name : Text) (d : Disk Fault Handle)
    (archives : Volume → Place → Option (List Member)) : Session :=
  match s.uses name with
  | some _ => s
  | none => match Disk.on s.volume d with
    | (.ok h, w) => ⟨w, Function.update s.uses name (some (.ofStart s.volume w h)), archives w⟩
    | (.error _, w) => ⟨w, s.uses, s.archives⟩

def call (s : Session) (name : Text) (c : Call) : Session :=
  match s.uses name with
  | none => s
  | some u => match Staging.on s.volume u.handle c.run with
    | ((r, h), w) => ⟨w, Function.update s.uses name (some (u.called s.volume w c r h)), s.archives⟩

/-- Ends the use of a handle. -/
def finish (s : Session) (name : Text) (d : Handle → Disk Fault Unit)
    (archives : Use → Except Fault Unit → Place → Option (List Member)) : Session :=
  match s.uses name with
  | none => s
  | some u => match Disk.on s.volume (d u.handle) with
    | (r, w) => ⟨w, Function.update s.uses name none, archives u r⟩

def step (s : Session) : Event → Session
  | .openAt name path create => s.get name (Handle.openAt path create) fun w =>
    if s.volume.isFile path then s.archives else s.put (w.canonical path) []
  | .create name path => s.get name (Handle.create path) fun _ => s.archives
  | .write name path data => s.call name (.write path data)
  | .createDirAll name path => s.call name (.createDirAll path)
  | .copyFrom name source path =>
    match s.uses source with
    | some u => s.call name (.copyFrom u.handle path)
    | none => s
  | .close name => s.finish name Handle.close fun u r =>
    if r.isOk ∧ u.idle = false then s.put (s.volume.locate .entry u.start.path) u.staged else s.archives
  | .drop name => s.finish name Handle.discard fun _ _ => s.archives

def run (s : Session) (events : List Event) : Session := events.foldl step s

section Names

variable {s : Session} {name other : Text}

theorem uses_get (d : Disk Fault Handle) (archives : Volume → Place → Option (List Member))
    (hn : other ≠ name) : (s.get name d archives).uses other = s.uses other := by
  unfold get
  split
  · rfl
  · split
    · exact Function.update_of_ne hn _ _
    · rfl

theorem uses_call (c : Call) (hn : other ≠ name) : (s.call name c).uses other = s.uses other := by
  unfold call
  split
  · rfl
  · exact Function.update_of_ne hn _ _

theorem uses_finish (d : Handle → Disk Fault Unit)
    (archives : Use → Except Fault Unit → Place → Option (List Member)) (hn : other ≠ name) :
    (s.finish name d archives).uses other = s.uses other := by
  unfold finish
  split
  · rfl
  · exact Function.update_of_ne hn _ _

/-- An event leaves the handles of other names as they are. -/
theorem uses_step {e : Event} (hn : other ≠ e.name) : (s.step e).uses other = s.uses other := by
  cases e with
  | openAt | create => exact uses_get _ _ hn
  | write | createDirAll => exact uses_call _ hn
  | copyFrom name source path =>
    simp only [step]
    split
    · exact uses_call _ hn
    · rfl
  | close | drop => exact uses_finish _ _ hn

/-- A name that no event is about is not in use. -/
theorem uses_run {events : List Event} (hn : ∀ e ∈ events, other ≠ e.name) :
    (s.run events).uses other = s.uses other := by
  induction events generalizing s with
  | nil => rfl
  | cons e events ih =>
    exact (ih fun e he => hn e (List.mem_cons_of_mem _ he)).trans (uses_step (hn e List.mem_cons_self))

end Names

/-- The directories that an event makes do not bring a file to light where none was found, and it takes
no temporary file of another handle away. -/
def Calm (s : Session) : Event → Prop
  | .openAt _ path true => s.volume.isFile path = false → (s.volume.parentsMade path).isFile path = false
  | .close name => ∀ other u temp, other ≠ name → s.uses other = some u → u.handle.temp? = some temp →
    (s.step (.close name)).volume.find .entry temp = s.volume.find .entry temp
  | _ => True

/-- Each event is calm when it happens. -/
def CalmRun (s : Session) : List Event → Prop
  | [] => True
  | e :: events => s.Calm e ∧ CalmRun (s.step e) events

theorem calmRun_concat {s : Session} {events : List Event} {e : Event} :
    CalmRun s (events ++ [e]) ↔ CalmRun s events ∧ (s.run events).Calm e := by
  induction events generalizing s with
  | nil => exact and_comm
  | cons first events ih => exact (and_congr_right fun _ => ih).trans and_assoc.symm

/-- Each handle answers as when it was got; and the files are those that were there at first, apart from the
archives that were put in place since then and the empty temporary files of the handles in use. -/
structure Isolated (v : Volume) (s : Session) : Prop where
  original : ∀ name u, s.uses name = some u → Original u.before u.begun u.start.path u.start u.old
  answers : ∀ name u, s.uses name = some u →
    ∀ q : Question, q.answer u.handle s.volume = q.answer u.start u.begun
  room : ∀ name u, s.uses name = some u → (u.room = none ↔ u.idle)
  temporary : ∀ name u p, s.uses name = some u → u.room = some p → s.volume.file? p = some []
  archive : ∀ p ms, s.archives p = some ms →
    s.volume.file? p = some (Zip.write ms) ∧ (Zip.ReadsBack ms → Lists s.volume p ms)
  others : ∀ p, s.archives p = none → (∀ name u, s.uses name = some u → u.room ≠ some p) →
    s.volume.file? p = v.file? p

end Session

end Patchwork
