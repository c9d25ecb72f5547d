import Omdrop.Stream.Read
import Omdrop.Text.Basic

namespace Omdrop.Proto

open Omdrop.Stream

/-!
# Failures

What the layers of an upload raise, and how it travels through a reader: a refusal of the body
or of the archive becomes the payload of an I/O error, and is taken out again by the caller.
-/

/-- Read and write granularity. -/
def ioChunkBytes : ℕ+ := 65536

/-- Which clock a stalled body ran out of. -/
inductive Stall
  | idle
  | rate
  deriving DecidableEq, Repr

/-- Why a request body was refused. -/
inductive BodyError
  /-- Malformed framing. -/
  | invalid (message : Text)
  /-- Over the byte limit. -/
  | tooLarge (message : Text)
  /-- The body stalled. -/
  | timeout (stall : Stall)
  /-- Not a refusal: the body went quiet at a chunk boundary when it was already whole. -/
  | complete
  deriving DecidableEq, Repr

/-- What an I/O error may carry. -/
inductive Payload
  | body (e : BodyError)
  | limit (message : Text)
  | invalid (message : Text)
  deriving DecidableEq, Repr

/-- The I/O errors of the readers. -/
abbrev IoErr := IoError Payload

/-- A body's refusal on its way through a reader. -/
def BodyError.intoIo (e : BodyError) : IoErr := .custom (.body e)

/-- Is this the end of a body that went quiet when it was whole? -/
def isComplete : IoErr → Bool
  | .custom (.body .complete) => true
  | _                         => false

/-- Why an archive was refused. -/
inductive ArchiveError
  /-- A byte, member or free-space ceiling was reached. -/
  | limit (message : Text)
  /-- Not a valid body or archive. -/
  | invalid (message : Text)
  /-- Reading the body or writing a file failed. -/
  | io (e : IoErr)
  deriving DecidableEq, Repr

/-- An archive's refusal on its way through a reader. -/
def ArchiveError.intoIo : ArchiveError → IoErr
  | .limit m   => .custom (.limit m)
  | .invalid m => .custom (.invalid m)
  | .io e      => e

/-- A refusal that travelled through a reader comes out as itself; anything else is `io`. -/
def ArchiveError.ofIo : IoErr → ArchiveError
  | .custom (.limit m)   => .limit m
  | .custom (.invalid m) => .invalid m
  | e                    => .io e

/-- The text of a body's refusal. -/
def BodyError.display : BodyError → Text
  | .invalid m      => m
  | .tooLarge m     => m
  | .timeout .idle  => "timed out"
  | .timeout .rate  => "request body did not meet minimum read rate"
  | .complete       => "the body went quiet after a complete archive"

/-- The text of an I/O error. -/
def displayIo : IoErr → Text
  | .os _ text          => text
  | .custom (.body e)   => e.display
  | .custom (.limit m)  => m
  | .custom (.invalid m) => m

/-- The text of an archive's refusal. -/
def ArchiveError.display : ArchiveError → Text
  | .limit m   => m
  | .invalid m => m
  | .io e      => displayIo e

/-- A malformed archive, raised inside a reader. -/
def invalid (message : Text) : IoErr := (ArchiveError.invalid message).intoIo

@[simp] theorem isInterrupted_intoIo (e : BodyError) : e.intoIo.isInterrupted = false := rfl

@[simp] theorem isInterrupted_invalid (message : Text) :
    (invalid message).isInterrupted = false := rfl

end Omdrop.Proto
