import PrometheusRing.Adt.BinarySearchTree
import PrometheusRing.Api.Basic
import PrometheusRing.Settings

/-!
# The HTTP service

Three endpoints in front of the API. Each turns the exception it expects into a status code; any other exception
makes the framework answer with an internal server error.
-/

namespace PrometheusRing

inductive Request where
  /-- `POST /register-target` -/
  | registerTarget (target : Target)
  /-- `DELETE /unregister-target` -/
  | unregisterTarget (targetId : String)
  /-- `GET /targets` -/
  | getTargets

inductive Response where
  | message (text : String)
  | targets (content : List TargetGroup)
  | httpException (statusCode : Nat) (detail : String)
  | internalServerError

namespace Main

open API

variable {σ δ : Type} [AbstractDataType σ Ref] (stableHash : String → Nat) (docker : Docker δ) (dump : Yaml → String)

def registerTarget (target : Target) : ApiM σ δ Response :=
  Effect.except (do
    API.registerTarget stableHash docker dump target
    return .message "Target registered successfully!") fun
  | .keyAlreadyExistsError _ =>
      return .httpException 400 s!"Error registering target: id {target.id} already exists"
  | e => throw e

def unregisterTarget (targetId : String) : ApiM σ δ Response :=
  Effect.except (do
    API.unregisterTarget stableHash docker targetId
    return .message "Target unregistered successfully!") fun
  | .keyNotFoundError _ =>
      return .httpException 404 s!"Error deregistering instance: ID {targetId} not found"
  | e => throw e

def getTargets : ApiM σ δ Response := do
  return .targets (← get).buildTargetsJson

def endpoint : Request → ApiM σ δ Response
  | .registerTarget target => registerTarget stableHash docker dump target
  | .unregisterTarget targetId => unregisterTarget stableHash docker targetId
  | .getTargets => getTargets

/-- The service as a machine that handles one request after the other. -/
def machine : Machine Request Response (API σ δ) := fun request api =>
  match Effect.exec (endpoint stableHash docker dump request) api with
  | (.ok response, api') => (response, api')
  | (.error _, api') => (.internalServerError, api')

/-- What the module sets up before it serves the first request, on a daemon in the given state. -/
def start (settings : Settings) (client : δ) : Except Exn (API (BinarySearchTree Nat Ref) δ) := do
  let ring ← settings.ring (BinarySearchTree Nat Ref)
  let orquestrator : SwarmOrquestrator δ := {
    client
    dockerNetwork := settings.dockerNetwork
    prometheusDockerImage := settings.dockerPrometheusImage }
  match Effect.exec (createFirstNode docker dump) ⟨ring, orquestrator⟩ with
  | (.ok (), api) => return api
  | (.error e, _) => throw e

end Main

end PrometheusRing
