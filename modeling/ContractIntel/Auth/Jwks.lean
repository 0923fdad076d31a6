import ContractIntel.Data.Values
import ContractIntel.Lib.Transition
import Mathlib.Data.Rat.Defs
import Mathlib.Algebra.Order.Ring.Unbundled.Rat
import Mathlib.Logic.Function.Basic

/-!
# The signing-key cache (`app/auth/jwks.py`)

One `JwksClient` and the `get_key` calls on it. A call runs without interruption up to the request it
awaits, if it makes one, and from the reply on: these are the two steps of the system, and between them
any other call may take one. The clock is what `time.monotonic()` returned last, and never goes back.

The transport and the key parser are third-party code: a reply is an exception or a response, and
`pyJwk` is a parameter. `float("-inf")`, the time of a fetch that never was, is `none`.
-/

namespace ContractIntel.Auth

/-- `_UNKNOWN_KID_REFRESH_SECONDS`. -/
def UNKNOWN_KID_REFRESH_SECONDS : Rat := 30

/-- What the `try` block of `_fetch` may raise: the classes its `except` clause names, or another. -/
inductive FetchError where
  | httpError
  | pyJwtError
  | keyError
  | typeError
  | valueError
  | other (className : Str)

/-- `except (httpx.HTTPError, jwt.PyJWTError, KeyError, TypeError, ValueError)`. -/
def FetchError.caught : FetchError → Bool
  | .other _ => false
  | _ => true

/-- What a call raises. -/
inductive JwksError where
  | jwksUnavailableError
  /-- An exception that `_fetch` does not catch. -/
  | raised (e : FetchError)

/-- A response: its status, and what `json` makes of its body. -/
structure Response where
  status : Nat
  json : Except FetchError Json

/-- What awaiting `http.get` comes to. -/
abbrev Reply := Except FetchError Response

/-! ## Reading a reply -/

/-- `bool(value)`. -/
def truthy : Json → Bool
  | .null => false
  | .bool value => value
  | .num value => value ≠ 0
  | .str value => value ≠ []
  | .arr items => ¬ items.isEmpty
  | .obj fields => ¬ fields.isEmpty

/-- `value.get(name)` of a dictionary. -/
def field (name : String) (fields : List (Str × Json)) : Option Json :=
  (fields.find? (·.1 = name.toList)).map (·.2)

/-- `entry.get("kid") and entry.get("use", "sig") == "sig"`. -/
def selected (fields : List (Str × Json)) : Bool :=
  truthy ((field "kid" fields).getD .null) &&
    match field "use" fields with
    | none => true
    | some (.str use) => use = "sig".toList
    | some _ => false

/-- What a loop over the value goes through. -/
def iterate : Json → Except FetchError (List Json)
  | .arr items => .ok items
  | .obj fields => .ok (fields.map fun entry => .str entry.1)
  | .str value => .ok (value.map fun c => .str [c])
  | _ => .error .typeError

variable {Key ι : Type}

/-- Keys by their ids, the ones set last first. -/
abbrev KeySet (Key : Type) := List (Str × Key)

/-- `keys.get(kid)`. -/
def KeySet.get (keys : KeySet Key) (kid : Str) : Option Key :=
  (keys.find? (·.1 = kid)).map (·.2)

/-- One round of the comprehension over the entries. A key under an id that is no string is built, and
never found; an id without a hash is no dictionary key. -/
def readEntry (pyJwk : List (Str × Json) → Except FetchError Key) :
    Json → Except FetchError (KeySet Key)
  | .obj fields =>
    if selected fields then do
      let key ← pyJwk fields
      match field "kid" fields with
      | some (.str kid) => return [(kid, key)]
      | some (.arr _) | some (.obj _) => throw .typeError
      | _ => return []
    else return []
  | _ => .error (.other "AttributeError".toList)

def readEntries (pyJwk : List (Str × Json) → Except FetchError Key) :
    List Json → Except FetchError (KeySet Key)
  | [] => return []
  | entry :: rest => do
    let keys ← readEntry pyJwk entry
    return (← readEntries pyJwk rest) ++ keys

/-- The `try` block of `_fetch`. -/
def readReply (pyJwk : List (Str × Json) → Except FetchError Key) (reply : Reply) :
    Except FetchError (KeySet Key) := do
  let response ← reply
  -- `raise_for_status`
  if ¬ (200 ≤ response.status ∧ response.status < 300) then throw .httpError
  match ← response.json with
  | .obj fields =>
    match field "keys" fields with
    | none => throw .keyError
    | some entries => readEntries pyJwk (← iterate entries)
  | _ => throw .typeError

/-! ## The client -/

structure JwksClient (Key : Type) where
  cacheSeconds : Rat
  keys : KeySet Key
  fetchedAt : Option Rat

namespace JwksClient

def new (cacheSeconds : Rat) : JwksClient Key := ⟨cacheSeconds, [], none⟩

/-- `time.monotonic() - self._fetched_at > seconds`. -/
def olderThan (c : JwksClient Key) (seconds now : Rat) : Bool :=
  c.fetchedAt.all fun fetchedAt => seconds < now - fetchedAt

def expired (c : JwksClient Key) (now : Rat) : Bool := c.olderThan c.cacheSeconds now

def unknownKidRefresh (c : JwksClient Key) (kid : Str) (now : Rat) : Bool :=
  (c.keys.get kid).isNone && c.olderThan UNKNOWN_KID_REFRESH_SECONDS now

/-- `_fetch`, from the reply on. -/
def fetch (pyJwk : List (Str × Json) → Except FetchError Key) (c : JwksClient Key) (reply : Reply)
    (now : Rat) : Except JwksError (JwksClient Key) :=
  match readReply pyJwk reply with
  | .ok keys => .ok { c with keys, fetchedAt := some now }
  | .error e => .error (if e.caught then .jwksUnavailableError else .raised e)

end JwksClient

/-! ## Calls -/

/-- A client, the clock, and the calls that await a reply, with the ids they ask for. -/
structure Calls (ι Key : Type) where
  client : JwksClient Key
  clock : Rat
  waiting : ι → Option Str

/-- A step of one call. The clock is read once or twice before the request, and once after the reply. -/
inductive Event (ι : Type) where
  | call (i : ι) (kid : Str) (now later : Rat)
  | reply (i : ι) (reply : Reply) (now : Rat)

/-- A call that is over, and what it returns or raises. -/
abbrev Answered (Key : Type) := Except JwksError (Option Key)

variable [DecidableEq ι]

/-- `get_key`, step by step. -/
def Calls.step (pyJwk : List (Str × Json) → Except FetchError Key) (w : Calls ι Key) :
    Event ι → Option (Calls ι Key × Option (Answered Key))
  | .call i kid now later =>
    if w.clock ≤ now ∧ now ≤ later ∧ w.waiting i = none then
      if w.client.expired now || w.client.unknownKidRefresh kid later then
        some (⟨w.client, later, Function.update w.waiting i (some kid)⟩, none)
      else some (⟨w.client, later, w.waiting⟩, some (.ok (w.client.keys.get kid)))
    else none
  | .reply i reply now =>
    match w.waiting i with
    | none => none
    | some kid =>
      if w.clock ≤ now then
        let waiting := Function.update w.waiting i none
        match w.client.fetch pyJwk reply now with
        | .ok client => some (⟨client, now, waiting⟩, some (.ok (client.keys.get kid)))
        | .error e => some (⟨w.client, now, waiting⟩, some (.error e))
      else none

/-- A client that has never fetched, and no calls. -/
def Calls.start (cacheSeconds now : Rat) : Calls ι Key := ⟨.new cacheSeconds, now, fun _ => none⟩

end ContractIntel.Auth
