import Mathlib.Logic.Function.Basic
import Mathlib.Data.Nat.Notation

/-! `TokenStore` of `http_api/auth.rs`, one lock at a time: between two of its critical sections a
call is a `Stage`. `T` is the type of the tokens, and instants are nanoseconds. -/

namespace Rtbit

/-- The tokens that there are, each with `expires_at`. -/
structure TokenStore (T : Type) where
  accessTokens : T → Option ℕ
  refreshTokens : T → Option ℕ

structure TokenResponse (T : Type) where
  accessToken : T
  refreshToken : T
  deriving DecidableEq, Repr

namespace TokenStore

/-- `ACCESS_TOKEN_TTL` and `REFRESH_TOKEN_TTL`. -/
def accessTokenTtl : ℕ := 15 * 60 * 1000000000

def refreshTokenTtl : ℕ := 30 * 24 * 60 * 60 * 1000000000

/-- What a call has to do next. -/
inductive Stage (T : Type) where
  | createTokens
  | insertAccess (r : TokenResponse T) (now : ℕ)
  | insertRefresh (r : TokenResponse T) (now : ℕ)
  | refresh (refreshToken : T)
  /-- The refresh token was valid. -/
  | rotate (refreshToken : T)
  | revokeRefreshToken (refreshToken : T)
  | cleanupExpired
  | cleanupAccess (now : ℕ)
  | cleanupRefresh (now : ℕ)
  | returned (r : Option (TokenResponse T))
  deriving DecidableEq, Repr

variable {T : Type} [DecidableEq T]

def new : TokenStore T := ⟨fun _ => none, fun _ => none⟩

/-- `retain` of the entries that have not expired. -/
def retain (now : ℕ) (tokens : T → Option ℕ) : T → Option ℕ :=
  fun t => (tokens t).filter fun expiresAt => decide (now < expiresAt)

/-- One critical section. The clock shows `now`, and `generate_token` returns `generated`. -/
def step (now : ℕ) (generated : TokenResponse T) (s : TokenStore T) :
    Stage T → Option (TokenStore T × Stage T)
  | .createTokens => some (s, .insertAccess generated now)
  | .insertAccess r t =>
    some ({ s with
      accessTokens := Function.update s.accessTokens r.accessToken (some (t + accessTokenTtl)) },
      .insertRefresh r t)
  | .insertRefresh r t =>
    some ({ s with
      refreshTokens := Function.update s.refreshTokens r.refreshToken (some (t + refreshTokenTtl)) },
      .returned (some r))
  | .refresh refreshToken =>
    let valid := (s.refreshTokens refreshToken).any fun expiresAt => decide (now < expiresAt)
    some (s, if valid then .rotate refreshToken else .returned none)
  | .rotate refreshToken =>
    some ({ s with refreshTokens := Function.update s.refreshTokens refreshToken none },
      .createTokens)
  | .revokeRefreshToken refreshToken =>
    some ({ s with refreshTokens := Function.update s.refreshTokens refreshToken none },
      .returned none)
  | .cleanupExpired => some (s, .cleanupAccess now)
  | .cleanupAccess t =>
    some ({ s with accessTokens := retain t s.accessTokens }, .cleanupRefresh t)
  | .cleanupRefresh t =>
    some ({ s with refreshTokens := retain t s.refreshTokens }, .returned none)
  | .returned _ => none

end TokenStore

end Rtbit
