import Rtbit.Spec.Chunks

/-! `CredentialStore` of `http_api/auth.rs`, and the two handlers that write to it. A request is a
`Stage` between two of its locks or calls of the system. `serde_json` is a parameter. -/

namespace Rtbit

structure StoredCredentials where
  username : String
  password : String
  deriving DecidableEq, Repr

/-- What is in memory, and the bytes of `credentials.json` if it is there. -/
structure CredentialStore where
  credentials : Option StoredCredentials
  file : Option (List UInt8)
  deriving DecidableEq, Repr

namespace CredentialStore

inductive Request where
  | setup (username password : String)
  | changeCredentials (currentPassword : String) (newUsername newPassword : Option String)
  deriving DecidableEq, Repr

inductive StatusCode where
  | ok
  | badRequest
  | unauthorized
  | forbidden
  | notFound
  | internalServerError
  deriving DecidableEq, Repr

inductive Stage where
  | handler (r : Request)
  /-- In `set_credentials`: the file is opened next. -/
  | saving (creds : StoredCredentials)
  /-- So many bytes have been written. -/
  | writing (creds : StoredCredentials) (written : ℕ)
  /-- The permissions are set next. -/
  | written (creds : StoredCredentials)
  /-- The memory is updated next. -/
  | saved (creds : StoredCredentials)
  | responded (status : StatusCode)
  deriving DecidableEq, Repr

section

variable (fromStr : List UInt8 → Option StoredCredentials)

/-- The credentials on disk, as `new` would find them. -/
def onDisk (file : Option (List UInt8)) : Option StoredCredentials := file.bind fromStr

/-- `CredentialStore::new`, where a file that is there may still fail to be read. -/
def new (readFails : Bool) (file : Option (List UInt8)) : CredentialStore :=
  ⟨if readFails then none else onDisk fromStr file, file⟩

end

/-- The checks of `h_auth_setup` and `h_auth_change_credentials`. -/
def check (basicAuth : Option StoredCredentials) (s : CredentialStore) : Request → Stage
  | .setup username password =>
    if s.credentials.isSome || basicAuth.isSome then .responded .forbidden
    else if username.isEmpty || password.isEmpty then .responded .badRequest
    else .saving ⟨username, password⟩
  | .changeCredentials currentPassword newUsername newPassword =>
    match s.credentials.or basicAuth with
    | none => .responded .notFound
    | some current =>
      if currentPassword = current.password then
        .saving ⟨newUsername.getD current.username, newPassword.getD current.password⟩
      else .responded .unauthorized

/-- One step of a request. A call of the system fails or, where it writes, writes at most `n`
bytes; to write nothing is an error too. -/
def step (toStringPretty : StoredCredentials → List UInt8) (basicAuth : Option StoredCredentials)
    (outcome : Option ℕ) (s : CredentialStore) : Stage → Option (CredentialStore × Stage)
  | .handler r => some (s, s.check basicAuth r)
  | .saving creds =>
    match outcome with
    | none => some (s, .responded .internalServerError)
    | some _ => some ({ s with file := some [] }, .writing creds 0)
  | .writing creds written =>
    let buf := ((toStringPretty creds).drop written).take (outcome.getD 0)
    if buf = [] then some (s, .responded .internalServerError)
    else
      let total := written + buf.length
      some ({ s with file := some (Storage.overwrite (s.file.getD []) written buf) },
        if total = (toStringPretty creds).length then .written creds else .writing creds total)
  | .written creds =>
    match outcome with
    | none => some (s, .responded .internalServerError)
    | some _ => some (s, .saved creds)
  | .saved creds => some ({ s with credentials := some creds }, .responded .ok)
  | .responded _ => none

end CredentialStore

end Rtbit
