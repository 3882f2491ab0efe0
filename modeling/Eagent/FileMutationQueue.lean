import Eagent.Machine
import Eagent.OrdMap

/-!
# The queue of file mutations

`withFileMutationQueue`, cut at its awaits. A call is registered when every
call before it is: `realpath` answers, then the map is read and written. It
waits for the chained queue that was in the map, its callback runs, and when
the callback has returned or thrown it releases its own queue. What happens
to the files in between is any change.
-/

namespace Eagent

/-- The code of an error of `realpath`. -/
inductive PathErrorCode where
  | ENOENT
  | ENOTDIR
  | other
deriving Repr, DecidableEq

def isMissingPathError : PathErrorCode → Bool
  | .ENOENT | .ENOTDIR => true
  | .other => false

/-- Paths and the files they lead to. `file` is where a file is, or would be
created, all links followed; `realpath` answers with that for a file that
exists. -/
structure FileSystem where
  State : Type
  Path : Type
  decEq : DecidableEq Path
  resolve : String → Path
  realpath : State → Path → Except PathErrorCode Path
  file : State → Path → Path
  file_of_realpath : ∀ {s p r}, realpath s p = .ok r → file s p = r
  file_file : ∀ s p, file s (file s p) = file s p

instance (F : FileSystem) : DecidableEq F.Path := F.decEq

def getMutationQueueKey (F : FileSystem) (files : F.State) (filePath : String) :
    Except PathErrorCode F.Path :=
  let resolvedPath := F.resolve filePath
  match F.realpath files resolvedPath with
  | .ok path => .ok path
  | .error error => if isMissingPathError error then .ok resolvedPath else .error error

/-! ## Calls -/

/-- Where a call is. `currentQueue` is the call whose chained queue was in
the map, `chained` says that the call's own chained queue has resolved. -/
inductive MutationPhase (Path : Type) where
  | queued
  | keyed (key : Path)
  | rejected
  | waiting (key : Path) (currentQueue : Option Nat)
  | running (key : Path) (currentQueue : Option Nat)
  | settled (key : Path) (currentQueue : Option Nat) (threw chained : Bool)
deriving DecidableEq

namespace MutationPhase

variable {Path : Type}

def isRegistered : MutationPhase Path → Bool
  | queued | keyed _ => false
  | _ => true

def isOver : MutationPhase Path → Bool
  | rejected | settled .. => true
  | _ => false

/-- The callback has been started. -/
def hasRun : MutationPhase Path → Bool
  | running .. | settled .. => true
  | _ => false

def isChained : MutationPhase Path → Bool
  | settled _ _ _ chained => chained
  | _ => false

def place : MutationPhase Path → Option (Path × Option Nat)
  | waiting key currentQueue | running key currentQueue => some (key, currentQueue)
  | settled key currentQueue _ _ => some (key, currentQueue)
  | _ => none

/-- The key of a call that is not over. -/
def openKey : MutationPhase Path → Option Path
  | keyed key | waiting key _ | running key _ => some key
  | _ => none

def stepsLeft : MutationPhase Path → Nat
  | queued => 5
  | keyed _ => 4
  | waiting .. => 3
  | running .. => 2
  | settled _ _ _ chained => if chained then 0 else 1
  | rejected => 0

end MutationPhase

structure MutationCall (F : FileSystem) where
  filePath : String
  phase : MutationPhase F.Path

/-! ## Steps -/

/-- `started` lists the callbacks in the order they were called. -/
structure MutationQueues (F : FileSystem) where
  files : F.State
  calls : List (MutationCall F)
  fileMutationQueues : OrdMap F.Path Nat
  started : List Nat

inductive MutationAction (F : FileSystem) where
  | call (filePath : String)
  | changeFiles (files : F.State)
  | realpath (n : Nat)
  | register (n : Nat)
  | start (n : Nat)
  | finish (n : Nat) (threw : Bool)
  | chain (n : Nat)

namespace MutationQueues

variable {F : FileSystem}

def start (files : F.State) : MutationQueues F := ⟨files, [], .empty, []⟩

def phaseOf (s : MutationQueues F) (n : Nat) : Option (MutationPhase F.Path) :=
  (s.calls[n]?).map (·.phase)

def fileOf (s : MutationQueues F) (n : Nat) : Option F.Path :=
  (s.calls[n]?).map fun c => F.file s.files (F.resolve c.filePath)

def setPhase (s : MutationQueues F) (n : Nat) (phase : MutationPhase F.Path) :
    MutationQueues F :=
  { s with calls := s.calls.modify n fun c => { c with phase } }

/-- `Promise.resolve()`, or the chained queue of a call. -/
def hasResolved (s : MutationQueues F) : Option Nat → Bool
  | none => true
  | some m => (s.phaseOf m).any (·.isChained)

/-- A step: a new call, a change of the files, an answer of `realpath` for
the next call in the registration queue, its registration, a callback that
is called or settles, a chained queue that resolves. -/
def step (s : MutationQueues F) : MutationAction F → Option (MutationQueues F)
  | .call filePath => some { s with calls := s.calls ++ [⟨filePath, .queued⟩] }
  | .changeFiles files => some { s with files }
  | .realpath n => match s.calls[n]? with
      | some ⟨filePath, .queued⟩ =>
          if (s.calls.take n).all (·.phase.isRegistered) then
            match getMutationQueueKey F s.files filePath with
            | .ok key => some (s.setPhase n (.keyed key))
            | .error _ => some (s.setPhase n .rejected)
          else none
      | _ => none
  | .register n => match s.phaseOf n with
      | some (.keyed key) => some
          { s.setPhase n (.waiting key (s.fileMutationQueues.get key)) with
            fileMutationQueues := s.fileMutationQueues.set key n }
      | _ => none
  | .start n => match s.phaseOf n with
      | some (.waiting key currentQueue) =>
          if s.hasResolved currentQueue then
            some { s.setPhase n (.running key currentQueue) with started := s.started ++ [n] }
          else none
      | _ => none
  | .finish n threw => match s.phaseOf n with
      | some (.running key currentQueue) => some
          { s.setPhase n (.settled key currentQueue threw false) with
            fileMutationQueues :=
              if s.fileMutationQueues.get key = some n then s.fileMutationQueues.delete key
              else s.fileMutationQueues }
      | _ => none
  | .chain n => match s.phaseOf n with
      | some (.settled key currentQueue threw false) =>
          if s.hasResolved currentQueue then
            some (s.setPhase n (.settled key currentQueue threw true))
          else none
      | _ => none

end MutationQueues

end Eagent
