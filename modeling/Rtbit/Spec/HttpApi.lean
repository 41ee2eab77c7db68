import Rtbit.Lib.Router

/-! The HTTP API: the routes of `make_http_api_and_run` with the middleware in front of each, and
the handlers that change who may reach the others. The router for UPnP is left out, and of the other
handlers only what they are. Times are seconds. -/

namespace Rtbit

open Lib

namespace HttpApi

/-- The handlers of the main router. -/
inductive ApiHandler where
  | apiRoot | streamLogs | setRustLog | dhtStats | dhtTable | sessionStats | torrentsList
  | torrentDetails | torrentHaves | metadata | torrentStatsV0 | torrentStatsV1 | peerStats
  | peerStatsPrometheus | torrentPlaylist | globalPlaylist | resolveMagnet | torrentStreamFile
  | getSessionRatelimits | listCategories | getFolders | browseDirectory
  | torrentsPost | updateSessionRatelimits | torrentActionPause | torrentActionStart
  | torrentActionForget | torrentActionDelete | torrentActionUpdateOnlyFiles | addPeers
  | createTorrent | createOrEditCategory | deleteCategory | setTorrentCategory | setFolders
  | indexarrStatus | indexarrSearch | indexarrRecent | indexarrTrending | indexarrTorrentDetail
  | indexarrIdentityStatus | indexarrIdentityAcknowledge | indexarrSyncPreferencesGet
  | indexarrSyncPreferencesSet
  | rssFeedsList | rssFeedAdd | rssFeedUpdate | rssFeedDelete | rssItemsList | rssItemDownload
  | rssRulesList | rssRuleAdd | rssRuleUpdate | rssRuleDelete | rssSettingsGet
  | authStatus | authLogin | authRefresh | authLogout | authSetup | authChangeCredentials
  | webui | swagger | metrics
  deriving DecidableEq, Repr

/-- The handlers of `qbit_compat`. -/
inductive QbitHandler where
  | authLogin | authLogout
  | appVersion | appWebapiVersion | appBuildInfo | appPreferences
  | torrentsInfo | torrentsProperties | torrentsFiles | torrentsAdd | torrentsPause
  | torrentsResume | torrentsDelete | torrentsSetCategory | categories | createCategory
  | editCategory | removeCategories
  | transferInfo
  deriving DecidableEq, Repr

inductive Handler where
  | api (h : ApiHandler)
  | qbit (h : QbitHandler)
  deriving DecidableEq, Repr

/-- What stands in front of a handler. -/
inductive Layer where
  | open_
  /-- The middleware of `make_http_api_and_run`. -/
  | auth
  /-- The middleware of `make_qbit_router`. -/
  | session
  deriving DecidableEq, Repr

structure HttpApiOptions where
  readOnly : Bool
  basicAuth : Option (String × String)
  /-- `token_store` and `credential_store` are there. -/
  tokenStore : Bool
  credentialStore : Bool
  /-- The features of the build, and a handle for Prometheus. -/
  webui : Bool
  swagger : Bool
  prometheus : Bool
  deriving DecidableEq, Repr

structure QbitSession where
  created : ℕ
  /-- The login presented credentials that were configured; not stored by the code. -/
  presented : Bool
  deriving DecidableEq, Repr

structure Server where
  now : ℕ
  /-- The content of the credential store. -/
  credentials : Option (String × String)
  /-- When a token expires. -/
  accessTokens : String → Option ℕ
  refreshTokens : String → Option ℕ
  qbitSessions : String → Option QbitSession

/-- The body, as the extractor of a handler reads it. -/
inductive Body where
  | login (username password : String)
  | refresh (refreshToken : String)
  | change (currentPassword : String) (newUsername newPassword : Option String)
  | other
  deriving DecidableEq, Repr

structure Request where
  method : Method
  path : List String
  /-- The headers, if they are visible ASCII. -/
  authorization : Option String
  cookie : Option String
  body : Body
  deriving DecidableEq, Repr

/-- What a handler gets from outside: random tokens, and whether the credentials are saved. -/
structure Outside where
  accessToken : String
  refreshToken : String
  sid : String
  saved : Bool
  deriving DecidableEq, Repr

inductive Event where
  | tick (seconds : ℕ)
  | request (r : Request) (o : Outside)

/-! The routes. -/

/-- A pattern: a segment `*` is a parameter, and `**` the rest of the path. -/
def pattern (path : List String) : List Router.Segment :=
  path.map fun s => if s = "*" then .param else if s = "**" then .rest else .literal s

def api (method : Method) (path : List String) (h : ApiHandler) : Route (Handler × Layer) :=
  ⟨method, pattern path, .api h, .auth⟩

def readRoutes : List (Route (Handler × Layer)) :=
  [api .get [""] .apiRoot,
    api .get ["stream_logs"] .streamLogs,
    api .post ["rust_log"] .setRustLog,
    api .get ["dht", "stats"] .dhtStats,
    api .get ["dht", "table"] .dhtTable,
    api .get ["stats"] .sessionStats,
    api .get ["torrents"] .torrentsList,
    api .get ["torrents", "*"] .torrentDetails,
    api .get ["torrents", "*", "haves"] .torrentHaves,
    api .get ["torrents", "*", "metadata"] .metadata,
    api .get ["torrents", "*", "stats"] .torrentStatsV0,
    api .get ["torrents", "*", "stats", "v1"] .torrentStatsV1,
    api .get ["torrents", "*", "peer_stats"] .peerStats,
    api .get ["torrents", "*", "peer_stats", "prometheus"] .peerStatsPrometheus,
    api .get ["torrents", "*", "playlist"] .torrentPlaylist,
    api .get ["torrents", "playlist"] .globalPlaylist,
    api .post ["torrents", "resolve_magnet"] .resolveMagnet,
    api .get ["torrents", "*", "stream", "*"] .torrentStreamFile,
    api .get ["torrents", "*", "stream", "*", "**"] .torrentStreamFile,
    api .get ["torrents", "limits"] .getSessionRatelimits,
    api .get ["torrents", "categories"] .listCategories,
    api .get ["session", "folders"] .getFolders,
    api .get ["fs", "browse"] .browseDirectory]

/-- The routes that are there unless `read_only` is set. -/
def writeRoutes : List (Route (Handler × Layer)) :=
  [api .post ["torrents"] .torrentsPost,
    api .post ["torrents", "limits"] .updateSessionRatelimits,
    api .post ["torrents", "*", "pause"] .torrentActionPause,
    api .post ["torrents", "*", "start"] .torrentActionStart,
    api .post ["torrents", "*", "forget"] .torrentActionForget,
    api .post ["torrents", "*", "delete"] .torrentActionDelete,
    api .post ["torrents", "*", "update_only_files"] .torrentActionUpdateOnlyFiles,
    api .post ["torrents", "*", "add_peers"] .addPeers,
    api .post ["torrents", "create"] .createTorrent,
    api .post ["torrents", "categories"] .createOrEditCategory,
    api .delete ["torrents", "categories", "*"] .deleteCategory,
    api .post ["torrents", "*", "set_category"] .setTorrentCategory,
    api .post ["session", "folders"] .setFolders]

def indexarrRoutes : List (Route (Handler × Layer)) :=
  [api .get ["indexarr", "status"] .indexarrStatus,
    api .get ["indexarr", "search"] .indexarrSearch,
    api .get ["indexarr", "recent"] .indexarrRecent,
    api .get ["indexarr", "trending"] .indexarrTrending,
    api .get ["indexarr", "torrent", "*"] .indexarrTorrentDetail,
    api .get ["indexarr", "identity", "status"] .indexarrIdentityStatus,
    api .post ["indexarr", "identity", "acknowledge"] .indexarrIdentityAcknowledge,
    api .get ["indexarr", "sync", "preferences"] .indexarrSyncPreferencesGet,
    api .post ["indexarr", "sync", "preferences"] .indexarrSyncPreferencesSet]

def rssRoutes : List (Route (Handler × Layer)) :=
  [api .get ["rss", "feeds"] .rssFeedsList,
    api .post ["rss", "feeds"] .rssFeedAdd,
    api .put ["rss", "feeds", "*"] .rssFeedUpdate,
    api .delete ["rss", "feeds", "*"] .rssFeedDelete,
    api .get ["rss", "items"] .rssItemsList,
    api .post ["rss", "items", "*", "download"] .rssItemDownload,
    api .get ["rss", "rules"] .rssRulesList,
    api .post ["rss", "rules"] .rssRuleAdd,
    api .put ["rss", "rules", "*"] .rssRuleUpdate,
    api .delete ["rss", "rules", "*"] .rssRuleDelete,
    api .get ["rss", "settings"] .rssSettingsGet]

def tokenRoutes : List (Route (Handler × Layer)) :=
  [api .post ["auth", "login"] .authLogin,
    api .post ["auth", "refresh"] .authRefresh,
    api .post ["auth", "logout"] .authLogout]

def credentialRoutes : List (Route (Handler × Layer)) :=
  [api .post ["auth", "setup"] .authSetup,
    api .post ["auth", "change_credentials"] .authChangeCredentials]

def makeApiRouter (opts : HttpApiOptions) : List (Route (Handler × Layer)) :=
  readRoutes ++ (if opts.readOnly then [] else writeRoutes) ++ indexarrRoutes ++ rssRoutes ++
    [api .get ["auth", "status"] .authStatus] ++
    (if opts.tokenStore then tokenRoutes else []) ++
    (if opts.credentialStore then credentialRoutes else [])

def webuiRoutes : List (Route (Handler × Layer)) :=
  [api .get ["web"] .webui,
    api .get ["web", ""] .webui,
    api .get ["web", "assets", "index.js"] .webui,
    api .get ["web", "assets", "index.css"] .webui,
    api .get ["web", "assets", "logo.svg"] .webui]

/-- `SwaggerUi`, and the document that it shows. -/
def swaggerRoutes : List (Route (Handler × Layer)) :=
  [api .get ["swagger"] .swagger,
    api .get ["swagger", ""] .swagger,
    api .get ["swagger", "**"] .swagger,
    api .get ["api-docs", "openapi.json"] .swagger]

def qbit (layer : Layer) (method : Method) (path : List String) (h : QbitHandler) :
    Route (Handler × Layer) :=
  ⟨method, pattern ("api" :: "v2" :: path), .qbit h, layer⟩

def qbitAuthRoutes : List (Route (Handler × Layer)) :=
  [qbit .open_ .post ["auth", "login"] .authLogin,
    qbit .open_ .post ["auth", "logout"] .authLogout]

def qbitProtectedRoutes (layer : Layer) : List (Route (Handler × Layer)) :=
  [qbit layer .get ["app", "version"] .appVersion,
    qbit layer .get ["app", "webapiVersion"] .appWebapiVersion,
    qbit layer .get ["app", "buildInfo"] .appBuildInfo,
    qbit layer .get ["app", "preferences"] .appPreferences,
    qbit layer .get ["torrents", "info"] .torrentsInfo,
    qbit layer .get ["torrents", "properties"] .torrentsProperties,
    qbit layer .get ["torrents", "files"] .torrentsFiles,
    qbit layer .post ["torrents", "add"] .torrentsAdd,
    qbit layer .post ["torrents", "pause"] .torrentsPause,
    qbit layer .post ["torrents", "resume"] .torrentsResume,
    qbit layer .post ["torrents", "delete"] .torrentsDelete,
    qbit layer .post ["torrents", "setCategory"] .torrentsSetCategory,
    qbit layer .get ["torrents", "categories"] .categories,
    qbit layer .post ["torrents", "createCategory"] .createCategory,
    qbit layer .post ["torrents", "editCategory"] .editCategory,
    qbit layer .post ["torrents", "removeCategories"] .removeCategories,
    qbit layer .get ["transfer", "info"] .transferInfo]

/-- "Protected endpoints get auth middleware if basic_auth is configured". -/
def makeQbitRouter (opts : HttpApiOptions) : List (Route (Handler × Layer)) :=
  qbitAuthRoutes ++ qbitProtectedRoutes (if opts.basicAuth.isSome then .session else .open_)

/-- The routes of the server. The middleware stands in front of all but those of qBittorrent, which
are added after it. -/
def routes (opts : HttpApiOptions) : List (Route (Handler × Layer)) :=
  makeApiRouter opts ++ (if opts.webui then webuiRoutes else []) ++
    (if opts.swagger then swaggerRoutes else []) ++
    (if opts.prometheus then [api .get ["metrics"] .metrics] else []) ++ makeQbitRouter opts

/-! The headers. -/

def stripPrefix (pre s : String) : Option String :=
  (s.toList.dropPrefix? pre.toList).map String.ofList

/-- `split_once`. -/
def splitOnce (c : Char) (s : String) : Option (String × String) :=
  match s.toList.span (· ≠ c) with
  | (_, []) => none
  | (a, _ :: b) => some (String.ofList a, String.ofList b)

def trim (s : List Char) : List Char :=
  ((s.dropWhile Char.isWhitespace).reverse.dropWhile Char.isWhitespace).reverse

/-- `extract_sid`. -/
def extractSid (r : Request) : Option String :=
  r.cookie.bind fun cookies =>
    ((cookies.toList.splitOn ';').map trim).findSome? fun c => stripPrefix "SID=" (String.ofList c)

namespace Request

def bearer (r : Request) : Option String := r.authorization.bind (stripPrefix "Bearer ")

/-- User and password of a `Basic` header; `decode` is the decoder of base64, up to UTF-8. -/
def basic (decode : String → Option String) (r : Request) : Option String :=
  (r.authorization.bind (stripPrefix "Basic ")).bind decode

end Request

namespace Server

def start (credentials : Option (String × String)) : Server :=
  ⟨0, credentials, fun _ => none, fun _ => none, fun _ => none⟩

/-- `ACCESS_TOKEN_TTL` and `REFRESH_TOKEN_TTL`. -/
def accessTokenTtl : ℕ := 15 * 60

def refreshTokenTtl : ℕ := 30 * 24 * 60 * 60

/-- A session of qBittorrent expires after an hour. -/
def sessionTtl : ℕ := 3600

def hasStoredCreds (opts : HttpApiOptions) (s : Server) : Bool :=
  opts.credentialStore && s.credentials.isSome

/-- All credentials there are: in the store, and in the environment. -/
def configured (opts : HttpApiOptions) (s : Server) : List (String × String) :=
  (if opts.credentialStore then s.credentials.toList else []) ++ opts.basicAuth.toList

def validateAccessToken (s : Server) (token : String) : Bool :=
  (s.accessTokens token).any fun expiresAt => decide (s.now < expiresAt)

def validateSession (s : Server) (sid : String) : Bool :=
  (s.qbitSessions sid).any fun session => decide (s.now - session.created < sessionTtl)

/-- The comparison of the middleware: the stored credentials, or those of the environment. -/
def acceptsBasic (opts : HttpApiOptions) (s : Server) (user password : String) : Bool :=
  s.hasStoredCreds opts && s.credentials == some (user, password) ||
    opts.basicAuth == some (user, password)

variable (decode : String → Option String) (opts : HttpApiOptions)

/-- The middleware of `make_http_api_and_run`: whether it calls the handler. -/
def passesAuth (s : Server) (r : Request) : Bool :=
  if r.path = ["auth", "login"] ∨ r.path = ["auth", "refresh"] ∨ r.path = ["auth", "status"] ∨
      r.path = ["auth", "setup"] then true
  else if !s.hasStoredCreds opts && !opts.basicAuth.isSome then true
  else
    match if opts.tokenStore then r.bearer else none with
    | some token => s.validateAccessToken token
    | none =>
      match (r.basic decode).bind (splitOnce ':') with
      | some (user, password) => s.acceptsBasic opts user password
      | none => false

def passes (s : Server) (r : Request) : Layer → Bool
  | .open_ => true
  | .auth => s.passesAuth decode opts r
  | .session => (extractSid r).any s.validateSession

/-- The handler that a request reaches. -/
def serve (s : Server) (r : Request) : Option Handler :=
  (Router.route (routes opts) r.method r.path).bind fun route =>
    if s.passes decode opts r route.target.2 then some route.target.1 else none

/-! The handlers that change the stores of tokens, credentials and sessions. -/

def cleanupExpired (s : Server) : Server :=
  { s with
    accessTokens := fun t => (s.accessTokens t).filter fun expiresAt => decide (s.now < expiresAt)
    refreshTokens := fun t =>
      (s.refreshTokens t).filter fun expiresAt => decide (s.now < expiresAt) }

def createTokens (s : Server) (o : Outside) : Server :=
  { s with
    accessTokens := Function.update s.accessTokens o.accessToken (some (s.now + accessTokenTtl))
    refreshTokens :=
      Function.update s.refreshTokens o.refreshToken (some (s.now + refreshTokenTtl)) }

def authLogin (s : Server) (username password : String) (o : Outside) : Server :=
  let valid :=
    if s.hasStoredCreds opts then s.credentials == some (username, password)
    else opts.basicAuth == some (username, password)
  if valid && opts.tokenStore then s.cleanupExpired.createTokens o else s

def authRefresh (s : Server) (refreshToken : String) (o : Outside) : Server :=
  if opts.tokenStore &&
      (s.refreshTokens refreshToken).any fun expiresAt => decide (s.now < expiresAt) then
    { s with refreshTokens := Function.update s.refreshTokens refreshToken none }.createTokens o
  else s

def authLogout (s : Server) (refreshToken : String) : Server :=
  if opts.tokenStore then
    { s with refreshTokens := Function.update s.refreshTokens refreshToken none }
  else s

def authSetup (s : Server) (username password : String) (o : Outside) : Server :=
  if !opts.credentialStore || s.hasStoredCreds opts || opts.basicAuth.isSome then s
  else if username = "" ∨ password = "" then s
  else if o.saved then
    let s := { s with credentials := some (username, password) }
    if opts.tokenStore then s.createTokens o else s
  else s

def authChangeCredentials (s : Server) (currentPassword : String)
    (newUsername newPassword : Option String) (o : Outside) : Server :=
  if !opts.credentialStore then s
  else
    match s.credentials.or opts.basicAuth with
    | none => s
    | some (user, password) =>
      if currentPassword = password && o.saved then
        { s with credentials := some (newUsername.getD user, newPassword.getD password) }
      else s

/-- `h_auth_login` of qBittorrent: what cannot be read as a form is two empty strings. -/
def qbitLogin (s : Server) (username password : String) (o : Outside) : Server :=
  let authOk :=
    match opts.basicAuth with
    | some creds => creds == (username, password)
    | none => true
  let session : QbitSession := ⟨s.now, decide ((username, password) ∈ s.configured opts)⟩
  if authOk then { s with qbitSessions := Function.update s.qbitSessions o.sid (some session) }
  else s

def qbitLogout (s : Server) (r : Request) : Server :=
  match extractSid r with
  | some sid => { s with qbitSessions := Function.update s.qbitSessions sid none }
  | none => s

def handle (s : Server) (r : Request) (o : Outside) : Handler → Server
  | .api .authLogin =>
    match r.body with
    | .login username password => s.authLogin opts username password o
    | _ => s
  | .api .authRefresh =>
    match r.body with
    | .refresh refreshToken => s.authRefresh opts refreshToken o
    | _ => s
  | .api .authLogout =>
    match r.body with
    | .refresh refreshToken => s.authLogout opts refreshToken
    | _ => s
  | .api .authSetup =>
    match r.body with
    | .login username password => s.authSetup opts username password o
    | _ => s
  | .api .authChangeCredentials =>
    match r.body with
    | .change currentPassword newUsername newPassword =>
      s.authChangeCredentials opts currentPassword newUsername newPassword o
    | _ => s
  | .qbit .authLogin =>
    match r.body with
    | .login username password => s.qbitLogin opts username password o
    | _ => s.qbitLogin opts "" "" o
  | .qbit .authLogout => s.qbitLogout r
  | .api _ | .qbit _ => s

def step (s : Server) : Event → Option Server
  | .tick seconds => some { s with now := s.now + seconds }
  | .request r o =>
    match s.serve decode opts r with
    | some h => some (s.handle opts r o h)
    | none => some s

end Server

end HttpApi

end Rtbit
