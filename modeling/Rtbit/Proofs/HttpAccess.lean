import Rtbit.Lib.Runs
import Rtbit.Spec.HttpApi

/-! Who reaches the handlers of the HTTP API. The middleware of the main router looks at the
credentials that are there when a request comes, but the router of qBittorrent has one only if there
were credentials in the environment when it was made; and `read_only` leaves out neither the routes
of RSS nor those of qBittorrent. -/

namespace Rtbit

open Lib

namespace HttpApi

/-- The handlers that anyone may reach. -/
def Handler.isPublic : Handler → Bool
  | .api .authLogin | .api .authLogout | .api .authRefresh | .api .authStatus | .api .authSetup
  | .qbit .authLogin | .qbit .authLogout => true
  | _ => false

/-- The handlers that change torrents, categories, RSS feeds, RSS rules or the settings of the
session. `h_torrents_set_category` of qBittorrent only says that it does. -/
def Handler.changes : Handler → Bool
  | .api .torrentsPost | .api .torrentActionPause | .api .torrentActionStart
  | .api .torrentActionForget | .api .torrentActionDelete | .api .torrentActionUpdateOnlyFiles
  | .api .addPeers | .api .createTorrent | .api .rssItemDownload
  | .api .createOrEditCategory | .api .deleteCategory | .api .setTorrentCategory
  | .api .rssFeedAdd | .api .rssFeedUpdate | .api .rssFeedDelete
  | .api .rssRuleAdd | .api .rssRuleUpdate | .api .rssRuleDelete
  | .api .updateSessionRatelimits | .api .setFolders
  | .qbit .torrentsAdd | .qbit .torrentsPause | .qbit .torrentsResume | .qbit .torrentsDelete
  | .qbit .createCategory | .qbit .editCategory | .qbit .removeCategories => true
  | _ => false

/-- The handlers of qBittorrent that are to be protected. -/
def Handler.qbitProtected : Handler → Bool
  | .qbit .authLogin | .qbit .authLogout => false
  | .qbit _ => true
  | .api _ => false

/-- The routes that change something and are there with `read_only` as well. -/
def unguardedWrites : List (Route (Handler × Layer)) :=
  (rssRoutes ++ qbitProtectedRoutes .open_).filter fun route => route.target.1.changes

/-- Whether one of the routes is for the request. -/
def Request.isFor (r : Request) (routes : List (Route (Handler × Layer))) : Bool :=
  routes.any fun route => Router.answers route r.method r.path

variable {decode : String → Option String} {opts : HttpApiOptions} {s : Server} {r : Request}

/-! The table of routes. -/

/-- All routes that there are with some features and stores. -/
def table (readOnly basicAuth : Bool) : List (Route (Handler × Layer)) :=
  readRoutes ++ (if readOnly then [] else writeRoutes) ++ indexarrRoutes ++ rssRoutes ++
    [api .get ["auth", "status"] .authStatus] ++ tokenRoutes ++ credentialRoutes ++
    webuiRoutes ++ swaggerRoutes ++ [api .get ["metrics"] .metrics] ++
    qbitAuthRoutes ++ qbitProtectedRoutes (if basicAuth then .session else .open_)

theorem mem_table {route : Route (Handler × Layer)} (h : route ∈ routes opts) :
    route ∈ table opts.readOnly opts.basicAuth.isSome := by
  simp only [routes, makeApiRouter, makeQbitRouter, table, List.mem_append,
    List.mem_ite_nil_right] at h ⊢
  tauto

/-- `read_only` adds no routes. -/
theorem table_subset (readOnly basicAuth : Bool) :
    table readOnly basicAuth ⊆ table false basicAuth := by
  cases readOnly with
  | false => exact List.Subset.refl _
  | true =>
    intro route h
    simp only [table, Bool.false_eq_true, if_true, if_false, List.append_nil,
      List.mem_append] at h ⊢
    tauto

/-- What is read off the table. -/
structure TableFacts (basicAuth : Bool) : Prop where
  /-- The routes without a middleware. -/
  withoutLayer : ∀ route ∈ table false basicAuth, route.target.2 = .open_ →
    route.target.1.isPublic = true ∨ basicAuth = false ∧ route.target.1.qbitProtected = true
  session : ∀ route ∈ table false basicAuth, route.target.2 = .session → basicAuth = true
  /-- The paths that the middleware does not look at lead to public handlers. -/
  exempt : ∀ route ∈ table false basicAuth, ∀ path ∈ [["auth", "login"], ["auth", "refresh"],
    ["auth", "status"], ["auth", "setup"]], Router.matchesPath route.path path = true →
      route.target.1.isPublic = true
  qbit : ∀ route ∈ table false basicAuth, route.target.1.qbitProtected = true →
    ∃ p ∈ qbitProtectedRoutes .open_, p.method = route.method ∧ p.path = route.path
  qbitMeets : ∀ route ∈ table false basicAuth, ∀ p ∈ qbitProtectedRoutes .open_,
    Router.meets route p = true → route.target.1.qbitProtected = true
  /-- With `read_only` what changes something are routes of RSS or of qBittorrent. -/
  changes : ∀ route ∈ table true basicAuth, route.target.1.changes = true →
    ∃ p ∈ unguardedWrites, p.method = route.method ∧ p.path = route.path
  changesMeets : ∀ route ∈ table true basicAuth, ∀ p ∈ unguardedWrites,
    Router.meets route p = true → route.target.1.changes = true

theorem tableFacts (basicAuth : Bool) : TableFacts basicAuth := by
  cases basicAuth <;> constructor <;> decide +kernel

/-! The sessions of qBittorrent, over a run. -/

namespace Server

/-- With credentials in the environment, every session was opened by presenting some. -/
def Presented (opts : HttpApiOptions) (s : Server) : Prop :=
  opts.basicAuth.isSome = true →
    ∀ sid session, s.qbitSessions sid = some session → session.presented = true

theorem qbitSessions_authLogin (username password : String) (o : Outside) :
    (s.authLogin opts username password o).qbitSessions = s.qbitSessions := by
  unfold authLogin
  dsimp only
  split_ifs <;> rfl

theorem qbitSessions_authRefresh (token : String) (o : Outside) :
    (s.authRefresh opts token o).qbitSessions = s.qbitSessions := by
  unfold authRefresh
  split_ifs <;> rfl

theorem qbitSessions_authLogout (token : String) :
    (s.authLogout opts token).qbitSessions = s.qbitSessions := by
  unfold authLogout
  split_ifs <;> rfl

theorem qbitSessions_authSetup (username password : String) (o : Outside) :
    (s.authSetup opts username password o).qbitSessions = s.qbitSessions := by
  unfold authSetup
  dsimp only
  split_ifs <;> rfl

theorem qbitSessions_authChangeCredentials (current : String) (username password : Option String)
    (o : Outside) :
    (s.authChangeCredentials opts current username password o).qbitSessions = s.qbitSessions := by
  unfold authChangeCredentials
  split_ifs
  · rfl
  · split
    · rfl
    · split_ifs <;> rfl

/-- A session is opened for credentials that are those of the environment. -/
theorem Presented.qbitLogin (h : s.Presented opts) (username password : String) (o : Outside) :
    (s.qbitLogin opts username password o).Presented opts := by
  intro hsome sid session hsid
  obtain ⟨creds, hcreds⟩ := Option.isSome_iff_exists.1 hsome
  simp only [Server.qbitLogin, hcreds] at hsid
  split_ifs at hsid with hok
  · simp only [Function.update_apply] at hsid
    split_ifs at hsid with hsame
    · obtain rfl := Option.some.inj hsid
      rw [decide_eq_true_eq, ← eq_of_beq hok, configured, hcreds]
      exact List.mem_append_right _ (List.mem_singleton_self creds)
    · exact h hsome sid session hsid
  · exact h hsome sid session hsid

theorem Presented.qbitLogout (h : s.Presented opts) (r : Request) :
    (s.qbitLogout r).Presented opts := by
  intro hsome sid session hsid
  unfold Server.qbitLogout at hsid
  split at hsid
  · simp only [Function.update_apply] at hsid
    split_ifs at hsid
    exact h hsome sid session hsid
  · exact h hsome sid session hsid

theorem Presented.congr {s' : Server} (h : s.Presented opts)
    (heq : s'.qbitSessions = s.qbitSessions) : s'.Presented opts := by
  intro hsome sid session hsid
  rw [heq] at hsid
  exact h hsome sid session hsid

theorem qbitSessions_handle_api (r : Request) (o : Outside) (handler : ApiHandler) :
    (s.handle opts r o (.api handler)).qbitSessions = s.qbitSessions := by
  cases handler with
  | authLogin =>
    simp only [handle]
    split
    · exact qbitSessions_authLogin _ _ o
    · rfl
  | authRefresh =>
    simp only [handle]
    split
    · exact qbitSessions_authRefresh _ o
    · rfl
  | authLogout =>
    simp only [handle]
    split
    · exact qbitSessions_authLogout _
    · rfl
  | authSetup =>
    simp only [handle]
    split
    · exact qbitSessions_authSetup _ _ o
    · rfl
  | authChangeCredentials =>
    simp only [handle]
    split
    · exact qbitSessions_authChangeCredentials _ _ _ o
    · rfl
  | _ => rfl

theorem Presented.handle (h : s.Presented opts) (r : Request) (o : Outside) (handler : Handler) :
    (s.handle opts r o handler).Presented opts := by
  cases handler with
  | api handler => exact h.congr (qbitSessions_handle_api r o handler)
  | qbit handler =>
    cases handler with
    | authLogin =>
      simp only [Server.handle]
      split
      · exact h.qbitLogin _ _ o
      · exact h.qbitLogin _ _ o
    | authLogout => exact h.qbitLogout r
    | _ => exact h

theorem Presented.step {s' : Server} {e : Event} (h : s.Presented opts)
    (hs : s.step decode opts e = some s') : s'.Presented opts := by
  cases e with
  | tick seconds =>
    obtain rfl := Option.some.inj hs
    exact h
  | request r o =>
    simp only [Server.step] at hs
    split at hs
    · obtain rfl := Option.some.inj hs
      exact h.handle r o _
    · obtain rfl := Option.some.inj hs
      exact h

theorem run_presented {credentials : Option (String × String)} {evs : List Event}
    (h : Run (step decode opts) Any (start credentials) evs s) : s.Presented opts := by
  refine h.inv (Presented opts) ?_ fun _ _ _ hp _ hs => hp.step hs
  intro _ sid session hsid
  cases hsid

/-! The middleware. -/

/-- The request carries a valid access token, or credentials that are configured, or a session of
qBittorrent that was opened by presenting such credentials. -/
inductive Authorized (decode : String → Option String) (opts : HttpApiOptions) (s : Server)
    (r : Request) : Prop
  | bearer (token : String) (hstore : opts.tokenStore = true) (htoken : r.bearer = some token)
    (hvalid : s.validateAccessToken token = true)
  | basic (userPass : String) (creds : String × String) (hbasic : r.basic decode = some userPass)
    (hsplit : splitOnce ':' userPass = some creds) (hvalid : creds ∈ s.configured opts)
  | session (sid : String) (session : QbitSession) (hsid : extractSid r = some sid)
    (hstored : s.qbitSessions sid = some session) (hvalid : s.now - session.created < sessionTtl)
    (hpresented : session.presented = true)

theorem mem_configured_iff {creds : String × String} : creds ∈ s.configured opts ↔
    s.hasStoredCreds opts = true ∧ s.credentials = some creds ∨ opts.basicAuth = some creds := by
  unfold configured hasStoredCreds
  cases opts.credentialStore <;> cases s.credentials <;> simp [eq_comm]

theorem configured_eq_nil_iff :
    s.configured opts = [] ↔ s.hasStoredCreds opts = false ∧ opts.basicAuth = none := by
  unfold configured hasStoredCreds
  cases opts.credentialStore <;> simp

theorem acceptsBasic_iff {user password : String} :
    s.acceptsBasic opts user password = true ↔ (user, password) ∈ s.configured opts := by
  rw [mem_configured_iff, acceptsBasic, Bool.or_eq_true, Bool.and_eq_true, beq_iff_eq, beq_iff_eq]

/-- The middleware of the main router lets through the paths it does not look at, everything as
long as nothing is configured, and authorized requests. -/
theorem passesAuth_cases (h : s.passesAuth decode opts r = true) :
    r.path ∈ [["auth", "login"], ["auth", "refresh"], ["auth", "status"], ["auth", "setup"]] ∨
      s.configured opts = [] ∨ s.Authorized decode opts r := by
  by_cases hexempt : r.path = ["auth", "login"] ∨ r.path = ["auth", "refresh"] ∨
      r.path = ["auth", "status"] ∨ r.path = ["auth", "setup"]
  · left
    simpa using hexempt
  by_cases hnone : (!s.hasStoredCreds opts && !opts.basicAuth.isSome) = true
  · right; left
    rw [configured_eq_nil_iff]
    simpa using hnone
  · right; right
    rw [passesAuth, if_neg hexempt, if_neg hnone] at h
    split at h
    case h_1 token htoken =>
      obtain ⟨hstore, htoken⟩ := Option.ite_none_right_eq_some.1 htoken
      exact .bearer token hstore htoken h
    case h_2 =>
      split at h
      case h_1 user password hbasic =>
        obtain ⟨userPass, hbasic, hsplit⟩ := Option.bind_eq_some_iff.1 hbasic
        exact .basic userPass (user, password) hbasic hsplit (acceptsBasic_iff.1 h)
      case h_2 => cases h

/-- The middleware of qBittorrent lets through requests with a session. -/
theorem session_authorized (hp : s.Presented opts) (hsome : opts.basicAuth.isSome = true)
    (h : s.passes decode opts r .session = true) : s.Authorized decode opts r := by
  obtain ⟨sid, hsid, hvalid⟩ := (Option.any_eq_true _ _).1 h
  obtain ⟨session, hstored, hvalid⟩ := (Option.any_eq_true _ _).1 hvalid
  exact .session sid session hsid hstored (of_decide_eq_true hvalid) (hp hsome sid session hstored)

/-! What a request reaches. -/

theorem serve_eq_some {handler : Handler} (h : s.serve decode opts r = some handler) :
    ∃ route, Router.route (routes opts) r.method r.path = some route ∧
      s.passes decode opts r route.target.2 = true ∧ route.target.1 = handler := by
  obtain ⟨route, hroute, h⟩ := Option.bind_eq_some_iff.1 h
  obtain ⟨hpasses, h⟩ := Option.ite_none_right_eq_some.1 h
  exact ⟨route, hroute, hpasses, Option.some.inj h⟩

theorem isFor_qbitProtected_iff {route : Route (Handler × Layer)}
    (h : Router.route (routes opts) r.method r.path = some route) :
    r.isFor (qbitProtectedRoutes .open_) = true ↔ route.target.1.qbitProtected = true := by
  refine Router.any_answers_iff (fun t => t.1.qbitProtected) h ?_ ?_
  · exact fun q hq => (tableFacts _).qbit q (table_subset _ _ (mem_table hq))
  · exact fun q hq => (tableFacts _).qbitMeets q (table_subset _ _ (mem_table hq))

theorem isFor_unguardedWrites_iff {route : Route (Handler × Layer)} (hro : opts.readOnly = true)
    (h : Router.route (routes opts) r.method r.path = some route) :
    r.isFor unguardedWrites = true ↔ route.target.1.changes = true := by
  have hmem : ∀ q ∈ routes opts, q ∈ table true opts.basicAuth.isSome := by
    intro q hq
    rw [← hro]
    exact mem_table hq
  refine Router.any_answers_iff (fun t => t.1.changes) h ?_ ?_
  · exact fun q hq => (tableFacts _).changes q (hmem q hq)
  · exact fun q hq => (tableFacts _).changesMeets q (hmem q hq)

theorem isPublic_of_qbitProtected {handler : Handler} (h : handler.qbitProtected = true) :
    handler.isPublic = false := by
  cases handler with
  | api handler => cases h
  | qbit handler => cases handler <;> first | rfl | cases h

/-- A handler is public, or nothing is configured, or the request is authorized, or it is one of
qBittorrent in a server without credentials in the environment. -/
theorem serve_cases {handler : Handler} (hp : s.Presented opts)
    (h : s.serve decode opts r = some handler) :
    handler.isPublic = true ∨ s.configured opts = [] ∨ s.Authorized decode opts r ∨
      opts.basicAuth = none ∧ handler.qbitProtected = true := by
  obtain ⟨route, hroute, hpasses, rfl⟩ := serve_eq_some h
  obtain ⟨hmem, hanswers⟩ := Router.route_eq_some hroute
  have hmem := table_subset _ _ (mem_table hmem)
  have hmatches := (Bool.and_eq_true_iff.1 hanswers).2
  cases hlayer : route.target.2 with
  | open_ =>
    rcases (tableFacts _).withoutLayer route hmem hlayer with hpublic | ⟨hnone, hqbit⟩
    · exact Or.inl hpublic
    · rw [Option.isSome_eq_false_iff, Option.isNone_iff_eq_none] at hnone
      exact Or.inr (Or.inr (Or.inr ⟨hnone, hqbit⟩))
  | auth =>
    rw [hlayer] at hpasses
    rcases passesAuth_cases hpasses with hexempt | hnone | hauth
    · exact Or.inl ((tableFacts _).exempt route hmem r.path hexempt hmatches)
    · exact Or.inr (Or.inl hnone)
    · exact Or.inr (Or.inr (Or.inl hauth))
  | session =>
    rw [hlayer] at hpasses
    have hsome := (tableFacts _).session route hmem hlayer
    exact Or.inr (Or.inr (Or.inl (session_authorized hp hsome hpasses)))

/-- A request for a handler of qBittorrent is authorized if credentials are only in the store, and
with `read_only` no request is for one of the routes that are always there and change something. -/
def Guarded (decode : String → Option String) (opts : HttpApiOptions) (s : Server) (r : Request) :
    Prop :=
  (opts.basicAuth = none → s.hasStoredCreds opts = true →
      r.isFor (qbitProtectedRoutes .open_) = true → s.Authorized decode opts r) ∧
    (opts.readOnly = true → r.isFor unguardedWrites = false)

/-- In every run, for every request that reaches a handler: that it is public or the request is
authorized, if anything is configured, and that nothing is changed with `read_only`, holds exactly
if the request is guarded. -/
theorem access_iff (decode : String → Option String) (opts : HttpApiOptions)
    (credentials : Option (String × String)) (evs : List Event) (s : Server) (r : Request)
    (handler : Handler) (hrun : Run (step decode opts) Any (start credentials) evs s)
    (hserve : s.serve decode opts r = some handler) :
    ((s.configured opts ≠ [] → handler.isPublic = false → s.Authorized decode opts r) ∧
      (opts.readOnly = true → handler.changes = false)) ↔ s.Guarded decode opts r := by
  obtain ⟨route, hroute, -, htarget⟩ := serve_eq_some hserve
  have hqbit := isFor_qbitProtected_iff hroute
  rw [htarget] at hqbit
  refine and_congr ⟨?_, ?_⟩ (forall_congr' fun hro => ?_)
  · intro hkept _ hstored hfor
    refine hkept ?_ (isPublic_of_qbitProtected (hqbit.1 hfor))
    intro hnil
    rw [(configured_eq_nil_iff.1 hnil).1] at hstored
    cases hstored
  · intro hguarded hsome hpublic
    rcases serve_cases (run_presented hrun) hserve with h | hnil | hauth | ⟨hnone, hprotected⟩
    · rw [hpublic] at h
      cases h
    · exact absurd hnil hsome
    · exact hauth
    · refine hguarded hnone ?_ (hqbit.2 hprotected)
      rw [← Bool.not_eq_false]
      exact fun hstored => hsome (configured_eq_nil_iff.2 ⟨hstored, hnone⟩)
  · have hiff := isFor_unguardedWrites_iff hro hroute
    rw [htarget] at hiff
    rw [← Bool.not_eq_true, ← Bool.not_eq_true, hiff]

end Server

/-- A server that is read only, with credentials in the environment. -/
def envServer : HttpApiOptions where
  readOnly := true
  basicAuth := some ("admin", "secret")
  tokenStore := true
  credentialStore := true
  webui := true
  swagger := false
  prometheus := false

/-- A server whose credentials are in the store. -/
def storeServer : HttpApiOptions := { envServer with readOnly := false, basicAuth := none }

/-- A request without an `Authorization` header. -/
def request (method : Method) (path : List String) (cookie : Option String) (body : Body) :
    Request :=
  ⟨method, path, none, cookie, body⟩

def random : Outside := ⟨"a1", "b2", "c3", true⟩

def setupEvents : List Event :=
  [.request (request .post ["auth", "setup"] none (.login "admin" "secret")) random]

def qbitLoginEvents : List Event :=
  [.request (request .post ["api", "v2", "auth", "login"] none (.login "admin" "secret")) random,
    .tick 3599]

def torrentsInfoRequest (cookie : Option String) : Request :=
  request .get ["api", "v2", "torrents", "info"] cookie .other

/-- A session that was opened with the credentials of the environment. -/
theorem session_guarded :
    ∃ s, Run (Server.step some envServer) Any (Server.start none) qbitLoginEvents s ∧
      (s.configured envServer ≠ [] → Handler.isPublic (.qbit .torrentsInfo) = false →
        s.Authorized some envServer (torrentsInfoRequest (some "SID=c3"))) ∧
      (envServer.readOnly = true → Handler.changes (.qbit .torrentsInfo) = false) := by
  have hexec : (exec (Server.step some envServer) Any (Server.start none) qbitLoginEvents).any
      (fun s => s.serve some envServer (torrentsInfoRequest (some "SID=c3")) ==
        some (.qbit .torrentsInfo)) = true := by
    decide +kernel
  obtain ⟨s, hrun, hserve⟩ := Run.exists_of_exec hexec
  refine ⟨s, hrun, (Server.access_iff _ _ _ _ s _ _ hrun (eq_of_beq hserve)).2 ⟨?_, ?_⟩⟩
  · intro hnone
    cases hnone
  · intro _
    decide +kernel

/-- After `/auth/setup` anyone reads the torrents under `/api/v2`; and a server that is read only
adds an RSS feed, and a torrent under `/api/v2`. -/
theorem unguarded_requests :
    (∃ s, Run (Server.step some storeServer) Any (Server.start none) setupEvents s ∧
      s.configured storeServer ≠ [] ∧
      s.serve some storeServer (torrentsInfoRequest none) = some (.qbit .torrentsInfo) ∧
      Handler.isPublic (.qbit .torrentsInfo) = false ∧
      ¬s.Authorized some storeServer (torrentsInfoRequest none)) ∧
    let opts : HttpApiOptions := { storeServer with readOnly := true }
    (Server.start none).serve some opts (request .post ["rss", "feeds"] none .other) =
        some (.api .rssFeedAdd) ∧
      Handler.changes (.api .rssFeedAdd) = true ∧
      (Server.start none).serve some opts
        (request .post ["api", "v2", "torrents", "add"] none .other) = some (.qbit .torrentsAdd) ∧
      Handler.changes (.qbit .torrentsAdd) = true := by
  refine ⟨?_, by decide +kernel⟩
  have hexec : (exec (Server.step some storeServer) Any (Server.start none) setupEvents).any
      (fun s => decide (s.configured storeServer ≠ []) &&
        s.serve some storeServer (torrentsInfoRequest none) == some (.qbit .torrentsInfo)) =
      true := by
    decide +kernel
  obtain ⟨s, hrun, hs⟩ := Run.exists_of_exec hexec
  obtain ⟨hconfigured, hserve⟩ := Bool.and_eq_true_iff.1 hs
  refine ⟨s, hrun, of_decide_eq_true hconfigured, eq_of_beq hserve, rfl, ?_⟩
  rintro (⟨_, _, h, _⟩ | ⟨_, _, h, _, _⟩ | ⟨_, _, h, _, _, _⟩) <;> cases h

end HttpApi

end Rtbit
