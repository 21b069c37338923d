import Patchwork.Text.Quoted

/-!
# Faults

Everything that can go wrong, as causes.  The wording is in the `message` functions alone; a cause
`stated` carries a reason in a caller's own words.
-/
namespace Patchwork

open Text (str)

/-- The kind of an input or output failure. -/
inductive IoKind
  | notFound | permissionDenied | connectionRefused | connectionReset | connectionAborted
  | notConnected | addrInUse | addrNotAvailable | brokenPipe | alreadyExists | wouldBlock
  | notADirectory | isADirectory | directoryNotEmpty | readOnlyFilesystem | filesystemLoop
  | invalidInput | invalidData | timedOut | writeZero | storageFull | fileTooLarge | resourceBusy
  | invalidFilename | interrupted | unsupported | unexpectedEof | outOfMemory | other
  deriving DecidableEq, Repr

/-- Refusals of the file system. -/
inductive OsError
  | noEntry | busy | occupied | notDirectory | isDirectory | invalidArgument | nameTooLong | notEmpty
  | linkLoop
  deriving DecidableEq, Repr

namespace OsError

def number : OsError → Nat
  | noEntry => 2
  | busy => 16
  | occupied => 17
  | notDirectory => 20
  | isDirectory => 21
  | invalidArgument => 22
  | nameTooLong => 36
  | notEmpty => 39
  | linkLoop => 40

def kind : OsError → IoKind
  | noEntry => .notFound
  | busy => .resourceBusy
  | occupied => .alreadyExists
  | notDirectory => .notADirectory
  | isDirectory => .isADirectory
  | invalidArgument => .invalidInput
  | nameTooLong => .invalidFilename
  | notEmpty => .directoryNotEmpty
  | linkLoop => .filesystemLoop

def words : OsError → String
  | noEntry => "No such file or directory"
  | busy => "Device or resource busy"
  | occupied => "File exists"
  | notDirectory => "Not a directory"
  | isDirectory => "Is a directory"
  | invalidArgument => "Invalid argument"
  | nameTooLong => "File name too long"
  | notEmpty => "Directory not empty"
  | linkLoop => "Too many levels of symbolic links"

end OsError

/-- Failures of reading, writing and decoding. -/
inductive IoError
  | os (cause : OsError)
  | nulInName
  | notText
  | shortRead
  | wrongChecksum
  | corruptDeflate
  | incompleteDeflate
  | entryIsDirectory (path : Text)
  | entryExists (archive path : Text)
  | stated (kind : IoKind) (text : Text)
  deriving DecidableEq, Repr

namespace IoError

def kind : IoError → IoKind
  | os cause => cause.kind
  | nulInName => .invalidInput
  | notText => .invalidData
  | shortRead => .unexpectedEof
  | wrongChecksum => .other
  | corruptDeflate => .invalidInput
  | incompleteDeflate => .unexpectedEof
  | entryIsDirectory _ => .other
  | entryExists _ _ => .alreadyExists
  | stated kind _ => kind

def message : IoError → String
  | os cause => s!"{cause.words} (os error {cause.number})"
  | nulInName => "file name contained an unexpected NUL byte"
  | notText => "stream did not contain valid UTF-8"
  | shortRead => "failed to fill whole buffer"
  | wrongChecksum => "Invalid checksum"
  | corruptDeflate => "corrupt deflate stream"
  | incompleteDeflate => "incomplete deflate stream"
  | entryIsDirectory path => s!"{str path} is a directory"
  | entryExists archive path => s!"{str archive} already contains {str path}"
  | stated _ text => str text

end IoError

/-- Defects that make an archive unreadable. -/
inductive ArchiveFlaw
  | tooShort
  | noEndRecord
  | noWideEndRecord
  | noRoomForWideEndRecord
  | directoryMisplaced
  | notDirectoryHeader
  | notLocalHeader
  | headerTooFar
  | directoryTooFar
  | severalDisks
  | passwordRequired
  | unknownMethod
  | aesLength
  | aesVendor
  | aesVersion
  | aesStrength
  | aesMissing
  | entryEscapes (path : Text)
  | stated (reason : Text)
  deriving DecidableEq, Repr

namespace ArchiveFlaw

def message : ArchiveFlaw → String
  | tooShort => "invalid Zip archive: Invalid zip header"
  | noEndRecord => "invalid Zip archive: Could not find central directory end"
  | noWideEndRecord => "invalid Zip archive: Could not find ZIP64 central directory end"
  | noRoomForWideEndRecord => "invalid Zip archive: File cannot contain ZIP64 central directory end"
  | directoryMisplaced => "invalid Zip archive: Invalid central directory size or offset"
  | notDirectoryHeader => "invalid Zip archive: Invalid Central Directory header"
  | notLocalHeader => "invalid Zip archive: Invalid local file header"
  | headerTooFar => "invalid Zip archive: Archive header is too large"
  | directoryTooFar => "invalid Zip archive: Could not seek to start of central directory"
  | severalDisks => "unsupported Zip archive: Support for multi-disk files is not implemented"
  | passwordRequired => "unsupported Zip archive: Password required to decrypt file"
  | unknownMethod => "unsupported Zip archive: Compression method not supported"
  | aesLength => "unsupported Zip archive: AES extra data field has an unsupported length"
  | aesVendor => "invalid Zip archive: Invalid AES vendor"
  | aesVersion => "invalid Zip archive: Invalid AES vendor version"
  | aesStrength => "invalid Zip archive: Invalid AES encryption strength"
  | aesMissing => "invalid Zip archive: AES encryption without AES extra data field"
  | entryEscapes path => s!"entry {str path} escapes the extraction directory"
  | stated reason => str reason

end ArchiveFlaw

/-- Defects of a glob pattern. -/
inductive PatternFlaw
  | tooLarge (limit : Nat)
  | unreadable
  | stated (reason : Text)
  deriving DecidableEq, Repr

def PatternFlaw.message : PatternFlaw → String
  | tooLarge limit => s!"Compiled regex exceeds size limit of {limit} bytes."
  | unreadable => "regex parse error"
  | stated reason => str reason

/-- Defects of a patch file. -/
inductive PatchFlaw
  | badNumber (header : Text)
  | endsEarly (start count : Nat)
  | overfull (start count : Nat)
  | strayLine (number : Nat) (line : Text)
  | strayMarker (line : Text)
  | noHeader
  | leavesTree
  | stated (reason : Text)
  deriving DecidableEq, Repr

def PatchFlaw.message : PatchFlaw → String
  | badNumber header => s!"bad number in hunk header '{str header}'"
  | endsEarly start count => s!"hunk at -{start},{count} ends early"
  | overfull start count => s!"hunk at -{start},{count} has more lines than its header declares"
  | strayLine number line =>
    s!"unexpected line {number} inside hunk: {str (Text.Quoted.render line)}"
  | strayMarker line => s!"unexpected marker {str (Text.Quoted.render line)}"
  | noHeader => "no file header found"
  | leavesTree => "target path leaves the baseline tree"
  | stated reason => str reason

/-- Why a hunk does not fit. -/
inductive Conflict
  | startsOutside (lineCount : Nat)
  | fileEnds
  | differs (expected found : Text)
  | stated (reason : Text)
  deriving DecidableEq, Repr

def Conflict.message : Conflict → String
  | startsOutside lineCount =>
    s!"hunk starts outside the unpatched part of a {lineCount} line file"
  | fileEnds => "file ends before the hunk does"
  | differs expected found =>
    s!"expected {str (Text.Quoted.render expected)}, found {str (Text.Quoted.render found)}"
  | stated reason => str reason

/-- Why a configuration or an arrangement of directories is refused. -/
inductive ConfigFlaw
  | contextLines (required given : Nat)
  | patchExtension (given : Text)
  | overlap (cleared kept : Text)
  | noHome
  | stated (reason : Text)
  deriving DecidableEq, Repr

def ConfigFlaw.message : ConfigFlaw → String
  | contextLines required given => s!"context_lines must be {required}, got {given}"
  | patchExtension given => s!"patch_extension must be a bare extension, got '{str given}'"
  | overlap cleared kept => s!"{str cleared} overlaps {str kept}; refusing to clear it"
  | noHome => "Unable to determine config directory"
  | stated reason => str reason

inductive Fault
  | io (cause : IoError)
  | notFound (path : Text)
  | malformedArchive (path : Text) (flaw : ArchiveFlaw)
  | invalidPattern (pattern : Text) (flaw : PatternFlaw)
  | malformedPatch (file : Text) (flaw : PatchFlaw)
  | patchConflict (file : Text) (hunk line : Nat) (reason : Conflict)
  | patchCollision (patch first second : Text)
  | duplicateTarget (target : Text)
  | config (flaw : ConfigFlaw)
  | serialization (detail : Text)
  deriving DecidableEq, Repr

namespace Fault

/-- An absent file is named by its path; every other failure is passed on. -/
def ofIo (path : Text) (cause : IoError) : Fault :=
  if cause.kind = .notFound then notFound path else io cause

def message : Fault → String
  | io cause => s!"IO error: {cause.message}"
  | notFound path => s!"Path not found: {str path}"
  | malformedArchive path flaw => s!"Malformed archive {str path}: {flaw.message}"
  | invalidPattern pattern flaw => s!"Invalid glob pattern '{str pattern}': {flaw.message}"
  | malformedPatch file flaw => s!"Malformed patch {str file}: {flaw.message}"
  | patchConflict file hunk line reason =>
    s!"Patch conflict in {str file} (hunk {hunk}, line {line}): {reason.message}"
  | patchCollision patch first second =>
    s!"Patch file {str patch} would be written for both {str first} and {str second}"
  | duplicateTarget target => s!"More than one patch targets {str target}"
  | config flaw => s!"Invalid configuration: {flaw.message}"
  | serialization detail => s!"Serialization error: {str detail}"

/-- The message followed by that of the failure behind it, if there is one. -/
def fullMessage : Fault → String
  | io cause => s!"{(io cause).message}: {cause.message}"
  | fault => fault.message

end Fault

end Patchwork
