import ContractIntel.Api.Endpoints
import ContractIntel.Services.Worker

/-!
# The deployment

The API's requests and the worker processes, on one database and one directory of files.
-/

namespace ContractIntel.Api

variable {Key ι : Type} [Auth.Identity Key] [Ucd] [Platform]

inductive Member (Key : Type) where
  | request (incoming : Incoming Key)
  /-- A worker process for so many rounds, from this turn on. -/
  | worker (rounds turn : Nat)

def Member.program (settings : Settings) (worker : Worker.Settings) : Member Key → Service Unit
  | .request incoming => do
    let _response ← serve settings incoming
    return ()
  | .worker rounds turn => Worker.loop worker rounds turn

/-- The members of a deployment before they do anything. -/
def deployment (settings : Settings) (worker : Worker.Settings) (s : Store)
    (members : ι → Option (Member Key)) : System ι :=
  System.start s fun i => (members i).map (Member.program settings worker)

end ContractIntel.Api
