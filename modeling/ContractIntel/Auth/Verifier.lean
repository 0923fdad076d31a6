import ContractIntel.Auth.Jwks
import ContractIntel.Text.Str

/-!
# Bearer tokens (`app/auth/verifier.py`, the principal of `app/api/deps.py`)

A token becomes a principal: the tenant, the role and the subject the rest of the application scopes
and audits on. PyJWT and `uuid.UUID` are parameters; what the signing-key cache answers is too.
-/

namespace ContractIntel.Auth

def TENANT_CLAIM : String := "https://cci/tenant_id"

def ROLE_CLAIM : String := "https://cci/role"

def SUPPORTED_ALGORITHMS : List Str := ["RS256".toList]

/-- For the clocks of this host and the issuer. -/
def LEEWAY_SECONDS : Nat := 30

inductive Role | admin | reviewer
  deriving DecidableEq, Repr

def Role.value : Role → Str
  | .admin => "admin".toList
  | .reviewer => "reviewer".toList

/-- `Role(value)`, `none` for a `ValueError`. -/
def Role.ofValue (value : Str) : Option Role := [Role.admin, .reviewer].find? (·.value = value)

structure Principal where
  tenantId : Uuid
  role : Role
  subject : Str
  deriving DecidableEq

/-- The settings that authentication reads. -/
structure AuthSettings where
  auth0Domain : Str
  auth0Audience : Str

/-- Why a request is turned away before its service is called. -/
inductive AuthError where
  | authenticationError (message : Str)
  | authorizationError (message : Str)
  | authNotConfiguredError
  | jwksUnavailableError (url : Str)
  /-- An exception of the key client that nobody catches. -/
  | raised (e : FetchError)

/-- What a token is decoded against. -/
structure DecodeOptions where
  algorithms : List Str
  audience : Str
  issuer : Str
  leeway : Nat
  require : List Str

/-- What `jwt.decode` raises. -/
inductive DecodeError where
  | expiredSignatureError
  /-- Any other `PyJWTError`. -/
  | pyJwtError

/-- Third-party and library code that tokens are read with. -/
class Identity (Key : Type) where
  /-- `jwt.get_unverified_header`, `none` for a `PyJWTError`. -/
  unverifiedHeader : Str → Option (List (Str × Json))
  decode : Str → Key → DecodeOptions → Except DecodeError (List (Str × Json))
  /-- `uuid.UUID(text)`, `none` for a `ValueError`. -/
  uuid : Str → Option Uuid
  /-- `str(value)` of a value that is no string. -/
  repr : Json → Str

variable {Key : Type} [Identity Key]

/-- `str(value)`. -/
def text (Key : Type) [Identity Key] : Json → Str
  | .str value => value
  | value => Identity.repr Key value

/-- `claims.get(name)` of a claim that has to be there, `none` when it is missing or falsy. -/
def claim (name : String) (claims : List (Str × Json)) : Option Json :=
  (field name claims).filter truthy

/-- `str(header.get("kid") or "")`. -/
def keyId (Key : Type) [Identity Key] (header : List (Str × Json)) : Str :=
  match claim "kid" header with
  | some kid => text Key kid
  | none => []

def decodeOptions (settings : AuthSettings) : DecodeOptions where
  algorithms := SUPPORTED_ALGORITHMS
  audience := settings.auth0Audience
  issuer := "https://".toList ++ settings.auth0Domain ++ "/".toList
  leeway := LEEWAY_SECONDS
  require := ["exp".toList, "iat".toList, "sub".toList]

def JWKS_PATH : Str := "/.well-known/jwks.json".toList

/-- What a failed `get_key` raises. -/
def keyError (settings : AuthSettings) : JwksError → AuthError
  | .jwksUnavailableError =>
    .jwksUnavailableError ("https://".toList ++ settings.auth0Domain ++ JWKS_PATH)
  | .raised e => .raised e

/-- The claims of a decoded token as a principal. -/
def readClaims (Key : Type) [Identity Key] (claims : List (Str × Json)) :
    Except AuthError Principal :=
  match claim "sub" claims, claim TENANT_CLAIM claims, claim ROLE_CLAIM claims with
  | some subject, some tenant, some role =>
    match Identity.uuid Key (text Key tenant) with
    | none => .error (.authenticationError "tenant claim is not a valid tenant id".toList)
    | some tenantId =>
      match Role.ofValue (text Key role) with
      | none => .error (.authenticationError "unknown role claim".toList)
      | some role => .ok ⟨tenantId, role, text Key subject⟩
  | _, _, _ =>
    .error (.authenticationError "token is missing tenant, role, or subject claims".toList)

/-- `verify_token`, `getKey` being what the key client answers. -/
def verifyToken (getKey : Str → Except JwksError (Option Key)) (settings : AuthSettings)
    (token : Str) : Except AuthError Principal :=
  match Identity.unverifiedHeader Key token with
  | none => .error (.authenticationError "malformed token".toList)
  | some header =>
    match getKey (keyId Key header) with
    | .error e => .error (keyError settings e)
    | .ok none => .error (.authenticationError "unknown signing key".toList)
    | .ok (some key) =>
      match Identity.decode token key (decodeOptions settings) with
      | .error .expiredSignatureError =>
        .error (.authenticationError "token has expired".toList)
      | .error .pyJwtError => .error (.authenticationError "invalid token".toList)
      | .ok claims => readClaims Key claims

/-! ## The principal of a request -/

/-- `lower()` of a header: its characters are bytes, so of the letters of `bearer` there are the ASCII
ones only. -/
def lower (header : Str) : Str := header.map Char.toLower

/-- `get_principal`. -/
def getPrincipal (getKey : Str → Except JwksError (Option Key)) (settings : AuthSettings)
    (authorization : Option Str) : Except AuthError Principal :=
  -- the key client is a dependency of its own, resolved first
  if settings.auth0Domain = [] ∨ settings.auth0Audience = [] then .error .authNotConfiguredError
  else
    let header := authorization.getD []
    let scheme := header.takeWhile (· ≠ ' ')
    let token := Str.strip ((header.dropWhile (· ≠ ' ')).drop 1)
    if lower scheme ≠ "bearer".toList ∨ token = [] then
      .error (.authenticationError "missing bearer token".toList)
    else verifyToken getKey settings token

/-- `require_role`. -/
def requireRole (allowed : List Role) (principal : Principal) : Except AuthError Principal :=
  if principal.role ∈ allowed then .ok principal
  else .error (.authorizationError ("role '".toList ++ principal.role.value ++
    "' may not do this".toList))

end ContractIntel.Auth
