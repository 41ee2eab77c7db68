import Mathlib.Data.List.TakeWhile
import Rtbit.Proofs.HttpAccess

/-! Which credentials the three logins accept. `/auth/login` looks at the store, and at the
environment only while the store is empty; the `Basic` branch of the middleware looks at both; and
the login of qBittorrent never looks at the store. So they agree only on a pair of the environment
that the store does not override. -/

namespace Rtbit

open Lib

namespace HttpApi

theorem notMem_of_splitOnce {c : Char} {s a b : String} (h : splitOnce c s = some (a, b)) :
    c ∉ a.toList := by
  rw [splitOnce, List.span_eq_takeWhile_dropWhile] at h
  split at h
  · cases h
  · next hspan =>
    obtain ⟨htake, -⟩ := Prod.mk.inj hspan
    obtain ⟨rfl, -⟩ := Prod.mk.inj (Option.some.inj h)
    rw [String.toList_ofList, ← htake]
    intro hmem
    have hne := List.mem_takeWhile_imp hmem
    simp at hne

theorem splitOnce_append {c : Char} {a : String} (h : c ∉ a.toList) (b : String) :
    splitOnce c (String.ofList (a.toList ++ c :: b.toList)) = some (a, b) := by
  have hall : ∀ x ∈ a.toList, decide (x ≠ c) = true := by
    intro x hx
    exact decide_eq_true (fun he => h (he ▸ hx))
  rw [splitOnce, List.span_eq_takeWhile_dropWhile, String.toList_ofList,
    List.takeWhile_append_of_pos hall, List.dropWhile_append_of_pos hall]
  simp

namespace Server

variable {decode : String → Option String} {opts : HttpApiOptions} {s : Server} {r : Request}
  {user password : String} {creds old : String × String}

/-- The check of `h_auth_login`. -/
def loginAccepts (opts : HttpApiOptions) (s : Server) (user password : String) : Bool :=
  if s.hasStoredCreds opts then s.credentials == some (user, password)
  else opts.basicAuth == some (user, password)

/-- The check of `h_auth_login` of qBittorrent. -/
def qbitAccepts (opts : HttpApiOptions) (user password : String) : Bool :=
  match opts.basicAuth with
  | some creds => creds == (user, password)
  | none => true

/-- The check of the `Basic` branch of the middleware, for the text that was decoded. -/
def basicAccepts (opts : HttpApiOptions) (s : Server) (userPass : String) : Bool :=
  match splitOnce ':' userPass with
  | some (user, password) => s.acceptsBasic opts user password
  | none => false

/-- The branch accepts the pair: a text that it reads as the pair. -/
def BasicAccepts (opts : HttpApiOptions) (s : Server) (user password : String) : Prop :=
  ∃ userPass, splitOnce ':' userPass = some (user, password) ∧ s.basicAccepts opts userPass = true

theorem authLogin_eq (o : Outside) : s.authLogin opts user password o =
    if s.loginAccepts opts user password && opts.tokenStore then s.cleanupExpired.createTokens o
    else s := rfl

theorem qbitLogin_eq (o : Outside) : s.qbitLogin opts user password o =
    let session : QbitSession := ⟨s.now, decide ((user, password) ∈ s.configured opts)⟩
    if qbitAccepts opts user password then
      { s with qbitSessions := Function.update s.qbitSessions o.sid (some session) }
    else s := rfl

/-- What the middleware does with a `Basic` header, on a path that it looks at. -/
theorem passesAuth_basic {userPass : String} (hconfigured : s.configured opts ≠ [])
    (hpath : r.path ∉
      [["auth", "login"], ["auth", "refresh"], ["auth", "status"], ["auth", "setup"]])
    (hbearer : r.bearer = none) (hbasic : r.basic decode = some userPass) :
    s.passesAuth decode opts r = s.basicAccepts opts userPass := by
  have hexempt : ¬(r.path = ["auth", "login"] ∨ r.path = ["auth", "refresh"] ∨
      r.path = ["auth", "status"] ∨ r.path = ["auth", "setup"]) := by
    simpa using hpath
  have hsome : ¬(!s.hasStoredCreds opts && !opts.basicAuth.isSome) = true := by
    intro hnone
    refine hconfigured (configured_eq_nil_iff.2 ?_)
    simpa using hnone
  rw [passesAuth, if_neg hexempt, if_neg hsome, hbearer, ite_self]
  simp only [hbasic, Option.bind_some]
  rfl

theorem loginAccepts_iff : s.loginAccepts opts user password = true ↔
    (if s.hasStoredCreds opts then s.credentials else opts.basicAuth) = some (user, password) := by
  unfold loginAccepts
  split_ifs <;> exact beq_iff_eq

theorem qbitAccepts_iff : qbitAccepts opts user password = true ↔
    opts.basicAuth = none ∨ opts.basicAuth = some (user, password) := by
  unfold qbitAccepts
  cases opts.basicAuth <;> simp

theorem BasicAccepts_iff : s.BasicAccepts opts user password ↔
    ':' ∉ user.toList ∧ (user, password) ∈ s.configured opts := by
  constructor
  · rintro ⟨userPass, hsplit, h⟩
    rw [basicAccepts, hsplit] at h
    exact ⟨notMem_of_splitOnce hsplit, acceptsBasic_iff.1 h⟩
  · rintro ⟨hcolon, h⟩
    refine ⟨_, splitOnce_append hcolon password, ?_⟩
    rw [basicAccepts, splitOnce_append hcolon]
    exact acceptsBasic_iff.2 h

/-- The three checks accept the same pairs. -/
def OneNotion (opts : HttpApiOptions) (s : Server) : Prop :=
  ∀ user password,
    (s.loginAccepts opts user password = true ↔ s.BasicAccepts opts user password) ∧
    (qbitAccepts opts user password = true ↔ s.BasicAccepts opts user password)

/-- None of the three accepts the pair. -/
def Rejected (opts : HttpApiOptions) (s : Server) (creds : String × String) : Prop :=
  s.loginAccepts opts creds.1 creds.2 = false ∧ ¬s.BasicAccepts opts creds.1 creds.2 ∧
    qbitAccepts opts creds.1 creds.2 = false

/-- A pair of the environment, that is also what is stored, if anything is. -/
def EnvOnly (opts : HttpApiOptions) (s : Server) (creds : String × String) : Prop :=
  opts.basicAuth = some creds ∧ (s.hasStoredCreds opts = true → s.credentials = some creds)

theorem loginAccepts_envOnly (h : s.EnvOnly opts creds) :
    s.loginAccepts opts user password = true ↔ creds = (user, password) := by
  rw [loginAccepts_iff]
  split_ifs with hstored
  · rw [h.2 hstored, Option.some.injEq]
  · rw [h.1, Option.some.injEq]

theorem mem_configured_envOnly (h : s.EnvOnly opts creds) :
    (user, password) ∈ s.configured opts ↔ creds = (user, password) := by
  rw [mem_configured_iff, h.1, Option.some.injEq]
  constructor
  · rintro (⟨hstored, heq⟩ | heq)
    · rw [h.2 hstored] at heq
      exact Option.some.inj heq
    · exact heq
  · exact Or.inr

theorem oneNotion_iff :
    s.OneNotion opts ↔ ∃ creds, s.EnvOnly opts creds ∧ ':' ∉ creds.1.toList := by
  constructor
  · intro h
    cases henv : opts.basicAuth with
    | none =>
      -- qBittorrent accepts everything, also a name that no header can carry
      have hbasic := (h ":" "").2.1 (qbitAccepts_iff.2 (Or.inl henv))
      exact absurd (by decide) (BasicAccepts_iff.1 hbasic).1
    | some creds =>
      have hbasic := (h creds.1 creds.2).2.1 (qbitAccepts_iff.2 (Or.inr henv))
      have hlogin := loginAccepts_iff.1 ((h creds.1 creds.2).1.2 hbasic)
      refine ⟨creds, ⟨henv, fun hstored => ?_⟩, (BasicAccepts_iff.1 hbasic).1⟩
      rwa [if_pos hstored] at hlogin
  · rintro ⟨creds, henv, hcolon⟩ user password
    have hbasic : s.BasicAccepts opts user password ↔ creds = (user, password) := by
      rw [BasicAccepts_iff, mem_configured_envOnly henv, and_iff_right_iff_imp]
      rintro rfl
      exact hcolon
    refine ⟨(loginAccepts_envOnly henv).trans hbasic.symm, ?_⟩
    rw [qbitAccepts_iff, henv.1, hbasic]
    simp

/-- `h_auth_change_credentials` gets to the end, and the password is another one; `old` is what was
in force before. -/
structure ChangesPassword (opts : HttpApiOptions) (s : Server) (currentPassword newPassword : String)
    (o : Outside) (old : String × String) : Prop where
  store : opts.credentialStore = true
  current : s.credentials.or opts.basicAuth = some old
  verified : currentPassword = old.2
  saved : o.saved = true
  differs : newPassword ≠ old.2

theorem ChangesPassword.credentials_eq {currentPassword newPassword : String} {o : Outside}
    (h : s.ChangesPassword opts currentPassword newPassword o old) (newUsername : Option String) :
    (s.authChangeCredentials opts currentPassword newUsername (some newPassword) o).credentials =
      some (newUsername.getD old.1, newPassword) := by
  simp [authChangeCredentials, h.store, h.current, h.verified, h.saved]

/-- After a change of the password the replaced pair is accepted nowhere exactly if the environment
has a pair, and another one. -/
theorem rejected_iff {currentPassword newPassword : String} {o : Outside}
    (h : s.ChangesPassword opts currentPassword newPassword o old) (newUsername : Option String) :
    (s.authChangeCredentials opts currentPassword newUsername (some newPassword) o).Rejected opts old
      ↔ ∃ creds, opts.basicAuth = some creds ∧ creds ≠ old := by
  set t := s.authChangeCredentials opts currentPassword newUsername (some newPassword) o
  have hcredentials : t.credentials = some (newUsername.getD old.1, newPassword) :=
    h.credentials_eq newUsername
  have hne : t.credentials ≠ some old := by
    rw [hcredentials]
    intro he
    exact h.differs (congrArg Prod.snd (Option.some.inj he))
  have hstored : t.hasStoredCreds opts = true := by
    rw [hasStoredCreds, h.store, hcredentials]
    rfl
  unfold Rejected
  rw [← Bool.not_eq_true, loginAccepts_iff, if_pos hstored, BasicAccepts_iff, mem_configured_iff,
    ← Bool.not_eq_true, qbitAccepts_iff]
  constructor
  · rintro ⟨-, -, hqbit⟩
    rw [not_or] at hqbit
    obtain ⟨creds, hcreds⟩ := Option.ne_none_iff_exists'.1 hqbit.1
    exact ⟨creds, hcreds, fun he => hqbit.2 (hcreds.trans (congrArg some he))⟩
  · rintro ⟨creds, hcreds, hother⟩
    have henv : opts.basicAuth ≠ some old := by
      rw [hcreds]
      exact fun he => hother (Option.some.inj he)
    refine ⟨hne, ?_, ?_⟩
    · rintro ⟨-, ⟨-, he⟩ | he⟩
      · exact hne he
      · exact henv he
    · rintro (he | he)
      · rw [hcreds] at he
        cases he
      · exact henv he

/-- In every state that requests lead to: the three logins accept the same pairs exactly if the
environment has a pair, without a colon in the name, and the store holds nothing else; and a change
of the password leaves the replaced pair accepted nowhere exactly if the environment has a pair, and
that is another one. -/
theorem credentials_iff (decode : String → Option String) (opts : HttpApiOptions)
    (credentials : Option (String × String)) :
    ∀ evs s, Run (step decode opts) Any (start credentials) evs s →
      (s.OneNotion opts ↔ ∃ creds, s.EnvOnly opts creds ∧ ':' ∉ creds.1.toList) ∧
      ∀ currentPassword newPassword newUsername o old,
        s.ChangesPassword opts currentPassword newPassword o old →
        ((s.authChangeCredentials opts currentPassword newUsername (some newPassword) o).Rejected
          opts old ↔ ∃ creds, opts.basicAuth = some creds ∧ creds ≠ old) :=
  fun _ _ _ => ⟨oneNotion_iff, fun _ _ newUsername _ _ h => rejected_iff h newUsername⟩

end Server

/-- Two seconds later: the environment alone, and a pair of the store that is changed. -/
theorem changed_pair_rejected :
    (∃ s, Run (Server.step some envServer) Any (Server.start none) [.tick 2] s ∧
      s.OneNotion envServer) ∧
    ∃ s, Run (Server.step some envServer) Any (Server.start (some ("admin", "stored"))) [.tick 2] s ∧
      s.ChangesPassword envServer "stored" "changed" random ("admin", "stored") ∧
      (s.authChangeCredentials envServer "stored" none (some "changed") random).Rejected envServer
        ("admin", "stored") := by
  constructor
  · let s : Server := { Server.start none with now := 2 }
    have hrun : Run (Server.step some envServer) Any (Server.start none) [.tick 2] s :=
      Run.single trivial rfl
    refine ⟨s, hrun, (Server.credentials_iff some envServer none _ s hrun).1.2 ?_⟩
    exact ⟨("admin", "secret"), ⟨rfl, fun hstored => absurd hstored (by decide)⟩, by decide⟩
  · let s : Server := { Server.start (some ("admin", "stored")) with now := 2 }
    have hrun : Run (Server.step some envServer) Any (Server.start (some ("admin", "stored")))
        [.tick 2] s := Run.single trivial rfl
    have hchanges : s.ChangesPassword envServer "stored" "changed" random ("admin", "stored") :=
      ⟨rfl, rfl, rfl, rfl, by decide⟩
    have hiff := (Server.credentials_iff some envServer _ _ s hrun).2 _ _ none _ _ hchanges
    exact ⟨s, hrun, hchanges, hiff.2 ⟨("admin", "secret"), rfl, by decide⟩⟩

/-- The decoder of base64 on the header below. -/
def decodeAdmin (text : String) : Option String :=
  if text = "YWRtaW46c2VjcmV0" then some "admin:secret" else none

/-- Whoever has the pair of the environment stores another password. -/
def changeEvents : List Event :=
  [.request ⟨.post, ["auth", "change_credentials"], some "Basic YWRtaW46c2VjcmV0", none,
    .change "secret" none (some "changed")⟩ random]

/-- After the password was changed, the old one is still accepted by the `Basic` branch and by
qBittorrent; and with credentials in the store alone qBittorrent accepts any pair. -/
theorem replaced_pair_accepted :
    (∃ s, Run (Server.step decodeAdmin envServer) Any (Server.start none) changeEvents s ∧
      s.credentials = some ("admin", "changed") ∧
      s.loginAccepts envServer "admin" "secret" = false ∧
      s.BasicAccepts envServer "admin" "secret" ∧
      Server.qbitAccepts envServer "admin" "secret" = true) ∧
    ∃ s, Run (Server.step some storeServer) Any (Server.start none) setupEvents s ∧
      s.credentials = some ("admin", "secret") ∧
      s.loginAccepts storeServer "anyone" "" = false ∧ ¬s.BasicAccepts storeServer "anyone" "" ∧
      Server.qbitAccepts storeServer "anyone" "" = true := by
  constructor
  · have hexec : (exec (Server.step decodeAdmin envServer) Any (Server.start none)
        changeEvents).any (fun s => s.credentials == some ("admin", "changed")) = true := by
      decide +kernel
    obtain ⟨s, hrun, hs⟩ := Run.exists_of_exec hexec
    have hs := eq_of_beq hs
    refine ⟨s, hrun, hs, ?_, ?_, by decide⟩
    · rw [← Bool.not_eq_true, Server.loginAccepts_iff, Server.hasStoredCreds, hs]
      decide
    · rw [Server.BasicAccepts_iff, Server.mem_configured_iff]
      exact ⟨by decide, Or.inr rfl⟩
  · have hexec : (exec (Server.step some storeServer) Any (Server.start none) setupEvents).any
        (fun s => s.credentials == some ("admin", "secret")) = true := by
      decide +kernel
    obtain ⟨s, hrun, hs⟩ := Run.exists_of_exec hexec
    have hs := eq_of_beq hs
    refine ⟨s, hrun, hs, ?_, ?_, by decide⟩
    · rw [← Bool.not_eq_true, Server.loginAccepts_iff, Server.hasStoredCreds, hs]
      decide
    · rw [Server.BasicAccepts_iff, Server.mem_configured_iff, hs]
      rintro ⟨-, ⟨-, h⟩ | h⟩
      · exact absurd h (by decide)
      · exact absurd h (by decide)

end HttpApi

end Rtbit
