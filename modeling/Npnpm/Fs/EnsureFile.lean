import Npnpm.Library.Path
import Npnpm.Library.Run

/-!
# Writing a file unless it exists

`ensure_file` tests for the file, creates the directories above it, opens it and
writes the content. These are separate system calls: other tasks and processes
take theirs in between, any of them can fail, and a process can be killed between
any two of them.

## Implementation notes

A call is known by a number. `write_all` is a row of writes, each of which takes
any positive number of the bytes that are left. The file is opened without
truncation, and the write position belongs to the opened handle.
-/

namespace Npnpm

inductive EnsureFileError
  | createDir (parentDir : List Path.Component) (error : Text)
  | createFile (filePath error : Text)
  | writeFile (filePath error : Text)
deriving DecidableEq

/-- A file with the mode that was asked for when it was created. -/
structure FileOnDisk where
  bytes : List UInt8
  mode : Option Nat
deriving DecidableEq

namespace EnsureFile

/-- Where a call stands. -/
inductive Phase
  | checking
  | creatingDir (parentDir : List Path.Component)
  | opening
  | writing
  | returned (result : Except EnsureFileError Unit)
  | panicked
  | killed

/-- `written` counts the bytes written through the handle, once there is one. -/
structure Call where
  filePath : Text
  content : List UInt8
  mode : Option Nat
  phase : Phase
  written : Option Nat

structure State where
  files : Text → Option FileOnDisk
  calls : Nat → Option Call

inductive Event
  | call (c : Nat) (filePath : Text) (content : List UInt8) (mode : Option Nat)
  | found (c : Nat)
  | notFound (c : Nat)
  | dirCreated (c : Nat)
  | dirFailed (c : Nat) (error : Text)
  | opened (c : Nat)
  | openFailed (c : Nat) (error : Text)
  | wrote (c n : Nat)
  | writeFailed (c : Nat) (error : Text)
  | finished (c : Nat)
  | killed (c : Nat)

def State.setCall (s : State) (c : Nat) (call : Call) : State :=
  { s with calls := fun d => if d = c then some call else s.calls d }

def State.setFile (s : State) (p : Text) (file : FileOnDisk) : State :=
  { s with files := fun q => if q = p then some file else s.files q }

def Call.setPhase (call : Call) (phase : Phase) : Call := { call with phase := phase }

/-- A write of `chunk` at a position of a file. -/
def writeAt (bytes : List UInt8) (position : Nat) (chunk : List UInt8) : List UInt8 :=
  bytes.take position ++ List.replicate (position - bytes.length) 0 ++ chunk ++
    bytes.drop (position + chunk.length)

/-- The handle's next `n` bytes of the content. -/
def Call.chunk (call : Call) (k n : Nat) : List UInt8 := (call.content.drop k).take n

/-- Opening creates the file if it is missing and leaves it as it is otherwise. -/
def openFile (files : Text → Option FileOnDisk) (call : Call) : FileOnDisk :=
  (files call.filePath).getD ⟨[], call.mode⟩

/-- The parent of the path, or the panic of a path that has none. -/
def Call.parentPhase (call : Call) : Phase :=
  match Path.parent (Path.components call.filePath) with
  | none => .panicked
  | some parentDir => .creatingDir parentDir

def Phase.Running : Phase → Prop
  | .returned _ | .panicked | .killed => False
  | _ => True

inductive Step (s : State) : Event → State → Prop
  | call (c filePath content mode) (h : s.calls c = none) :
      Step s (.call c filePath content mode)
        (s.setCall c ⟨filePath, content, mode, .checking, none⟩)
  | found {c call} (h : s.calls c = some call) (hphase : call.phase = .checking)
      (hfile : s.files call.filePath ≠ none) :
      Step s (.found c) (s.setCall c (call.setPhase (.returned (.ok ()))))
  -- `exists` also answers no when it cannot read the metadata of the file.
  | notFound {c call} (h : s.calls c = some call) (hphase : call.phase = .checking) :
      Step s (.notFound c) (s.setCall c (call.setPhase call.parentPhase))
  | dirCreated {c call dir} (h : s.calls c = some call) (hphase : call.phase = .creatingDir dir) :
      Step s (.dirCreated c) (s.setCall c (call.setPhase .opening))
  | dirFailed {c call dir} (error) (h : s.calls c = some call)
      (hphase : call.phase = .creatingDir dir) :
      Step s (.dirFailed c error)
        (s.setCall c (call.setPhase (.returned (.error (.createDir dir error)))))
  | opened {c call} (h : s.calls c = some call) (hphase : call.phase = .opening) :
      Step s (.opened c)
        ((s.setFile call.filePath (openFile s.files call)).setCall c
          { call with phase := .writing, written := some 0 })
  | openFailed {c call} (error) (h : s.calls c = some call) (hphase : call.phase = .opening) :
      Step s (.openFailed c error)
        (s.setCall c (call.setPhase (.returned (.error (.createFile call.filePath error)))))
  | wrote {c call k file n} (h : s.calls c = some call) (hphase : call.phase = .writing)
      (hwritten : call.written = some k) (hfile : s.files call.filePath = some file)
      (hpos : 0 < n) (hn : k + n ≤ call.content.length) :
      Step s (.wrote c n)
        ((s.setFile call.filePath
          { file with bytes := writeAt file.bytes k (call.chunk k n) }).setCall c
            { call with written := some (k + n) })
  | writeFailed {c call} (error) (h : s.calls c = some call) (hphase : call.phase = .writing) :
      Step s (.writeFailed c error)
        (s.setCall c (call.setPhase (.returned (.error (.writeFile call.filePath error)))))
  | finished {c call} (h : s.calls c = some call) (hphase : call.phase = .writing)
      (hwritten : call.written = some call.content.length) :
      Step s (.finished c) (s.setCall c (call.setPhase (.returned (.ok ()))))
  | killed {c call} (h : s.calls c = some call) (hphase : call.phase.Running) :
      Step s (.killed c) (s.setCall c (call.setPhase .killed))

end EnsureFile

end Npnpm
