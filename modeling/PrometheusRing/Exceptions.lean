import Mathlib.Tactic.Common

/-!
# Exceptions

The exceptions that the program raises itself carry their message; those of the language and of the Docker
client that it meets carry what identifies them.
-/

namespace PrometheusRing

/-- What the Docker client raises: `docker.errors.APIError` and its subclasses, or anything else. -/
inductive DockerError where
  | apiError (message : String)
  | other (message : String)
  deriving DecidableEq

inductive Exn where
  | keyAlreadyExistsError (message : String)
  | keyNotFoundError (message : String)
  | nodeNotFoundError (message : String)
  | invalidScrapeConfigError (message : String)
  | invalidTimeLiteralError (message : String)
  | serviceDiscoveryDoesNotExist (message : String)
  | updatingServiceError (message : String)
  /-- A bare `Exception`. -/
  | exception (message : String)
  /-- An attribute of `None` was read. -/
  | attributeError (name : String)
  | zeroDivisionError
  /-- A dictionary has no entry under the key. -/
  | keyError (key : Nat)
  /-- `None` was iterated. -/
  | typeError
  /-- `int` rejected the text. -/
  | valueError (text : String)
  /-- An integer is too large for a float. -/
  | overflowError
  /-- The Docker client raised. -/
  | docker (e : DockerError)
  deriving DecidableEq

/-- Reading an attribute of something that may be `None`. -/
def notNone {α : Type} (name : String) : Option α → Except Exn α
  | some a => .ok a
  | none => .error (.attributeError name)

end PrometheusRing
