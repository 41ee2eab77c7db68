import Rtbit.Lib.Runs
import Rtbit.Spec.TokenStore

/-! The calls of one token store, interleaved at its locks. No call redeems a refresh token that was
revoked or had expired when the call started; and no two calls redeem the same one, unless the
second looks at it while the first is between its two locks. -/

namespace Rtbit

open Lib

namespace TokenStore

variable {T : Type} [DecidableEq T]

/-- A call as it was made, where it is, and whether its token was revoked or had expired by then. -/
structure Call (T : Type) where
  call : Stage T
  stage : Stage T
  late : Bool
  deriving DecidableEq, Repr

/-- The token that the call is to redeem. -/
def Call.token (c : Call T) : Option T :=
  match c.call with
  | .refresh t => some t
  | _ => none

/-- The token that the call has found to be valid. -/
def Call.taken (c : Call T) : Option T :=
  match c.stage with
  | .refresh _ => none
  | .returned none => none
  | _ => c.token

/-- The token that the call has redeemed. -/
def Call.redeemed (c : Call T) : Option T :=
  match c.stage with
  | .returned (some _) => c.token
  | _ => none

structure System (T : Type) where
  store : TokenStore T
  now : ℕ
  calls : List (Call T)
  /-- The refresh tokens that have been generated. -/
  generated : List T
  /-- When those that have been stored expire. -/
  expiresAt : T → Option ℕ
  /-- Those that have been revoked since. -/
  revoked : T → Bool

inductive Event (T : Type) where
  | elapse (d : ℕ)
  | call (c : Stage T)
  /-- The next critical section of a call; `generate_token` would return `generated`. -/
  | next (i : ℕ) (generated : TokenResponse T)
  deriving DecidableEq, Repr

/-- The calls of the store. -/
def Stage.isCall : Stage T → Bool
  | .createTokens => true
  | .refresh _ => true
  | .revokeRefreshToken _ => true
  | .cleanupExpired => true
  | _ => false

namespace System

def start : System T := ⟨new, 0, [], [], fun _ => none, fun _ => false⟩

def isLate (s : System T) : Stage T → Bool
  | .refresh t => s.revoked t || (s.expiresAt t).any fun e => decide (e ≤ s.now)
  | _ => false

def generatedBehind (s : System T) (g : TokenResponse T) : Stage T → List T
  | .createTokens => g.refreshToken :: s.generated
  | _ => s.generated

def expiresAtBehind (s : System T) : Stage T → T → Option ℕ
  | .insertRefresh r t => Function.update s.expiresAt r.refreshToken (some (t + refreshTokenTtl))
  | _ => s.expiresAt

def revokedBehind (s : System T) : Stage T → T → Bool
  | .revokeRefreshToken t => Function.update s.revoked t (s.expiresAt t).isSome
  | _ => s.revoked

def step (s : System T) : Event T → Option (System T)
  | .elapse d => some { s with now := s.now + d }
  | .call c =>
    if c.isCall then some { s with calls := s.calls ++ [⟨c, c, s.isLate c⟩] } else none
  | .next i g =>
    match s.calls[i]? with
    | none => none
    | some c =>
      (s.store.step s.now g c.stage).map fun (store, stage) =>
        ⟨store, s.now, s.calls.set i { c with stage := stage }, s.generatedBehind g c.stage,
          s.expiresAtBehind c.stage, s.revokedBehind c.stage⟩

/-- A refresh token is not generated twice. -/
def Fresh (s : System T) : Event T → Prop
  | .next i g =>
    s.calls[i]?.map Call.stage = some .createTokens → g.refreshToken ∉ s.generated
  | _ => True

/-- The token that the call is about to find valid. -/
def finds (s : System T) (i : ℕ) : Option T :=
  match s.calls[i]?.map Call.stage with
  | some (.refresh t) =>
    if (s.store.refreshTokens t).any fun e => decide (s.now < e) then some t else none
  | _ => none

/-- No call finds a token valid while another one that has done so is about to remove it. -/
def Apart (s : System T) : Event T → Prop
  | .next i _ => ∀ t ∈ s.finds i, ∀ c ∈ s.calls, c.stage ≠ .rotate t
  | _ => True

/-- No refresh token is redeemed twice. -/
def AtMostOnce (s : System T) : Prop :=
  ∀ (i j : ℕ) (c c' : Call T) t, s.calls[i]? = some c → s.calls[j]? = some c' → c.redeemed = some t →
    c'.redeemed = some t → i = j

/-- No refresh token is redeemed by a call that started after its revocation or expiry. -/
def NoneLate (s : System T) : Prop := ∀ c ∈ s.calls, c.late = true → c.redeemed = none

def SingleUse (s : System T) : Prop := s.AtMostOnce ∧ s.NoneLate

end System

/-! Pending tokens: generated, and about to be stored. -/

/-- The refresh token that the call is about to store. -/
def Stage.pending : Stage T → Option T
  | .insertAccess r _ => some r.refreshToken
  | .insertRefresh r _ => some r.refreshToken
  | _ => none

/-- The token that the call looks at, or is about to remove. -/
def Stage.wanted : Stage T → Option T
  | .refresh t => some t
  | .rotate t => some t
  | _ => none

namespace System

/-- What holds in every run. -/
structure Inv (s : System T) : Prop where
  stored : ∀ t e, s.store.refreshTokens t = some e → s.expiresAt t = some e
  issued : ∀ t e, s.expiresAt t = some e → t ∈ s.generated
  revoked : ∀ t, s.revoked t = true → s.store.refreshTokens t = none ∧ (s.expiresAt t).isSome
  pending : ∀ (i : ℕ) c t, s.calls[i]? = some c → c.stage.pending = some t →
    t ∈ s.generated ∧ s.expiresAt t = none
  pendingOnce : ∀ (i j : ℕ) c c' t, s.calls[i]? = some c → s.calls[j]? = some c' →
    c.stage.pending = some t → c'.stage.pending = some t → i = j
  origin : ∀ (i : ℕ) c t, s.calls[i]? = some c → c.stage.wanted = some t → c.token = some t
  taken : ∀ (i : ℕ) c t, s.calls[i]? = some c → c.taken = some t →
    c.late = false ∧ (s.expiresAt t).isSome
  late : ∀ (i : ℕ) c t, s.calls[i]? = some c → c.token = some t → c.late = true →
    s.revoked t = true ∨ ∃ e, s.expiresAt t = some e ∧ e ≤ s.now

variable {s s' : System T} {i : ℕ} {c : Call T} {stage : Stage T}

omit [DecidableEq T] in
theorem Inv.onePending (h : Inv s) (t : T) :
    AtMostOne (fun c => c.stage.pending = some t) s.calls :=
  fun i j c c' => h.pendingOnce i j c c' t

/-- A call goes on, and no token is generated or stored. -/
structure Moves (s s' : System T) (i : ℕ) (c : Call T) (stage : Stage T) : Prop where
  get : s.calls[i]? = some c
  calls : s'.calls = s.calls.set i { c with stage := stage }
  now : s'.now = s.now
  generated : s'.generated = s.generated
  expiresAt : s'.expiresAt = s.expiresAt
  tokens : ∀ t e, s'.store.refreshTokens t = some e → s.store.refreshTokens t = some e
  revoked : ∀ t, s.revoked t = true → s'.revoked t = true
  revokes : ∀ t, s'.revoked t = true →
    s.revoked t = true ∨ s'.store.refreshTokens t = none ∧ (s.expiresAt t).isSome

omit [DecidableEq T] in
/-- No token is revoked by this step, and some may leave the store. -/
theorem Moves.forgets {store : TokenStore T} (hc : s.calls[i]? = some c)
    (htokens : ∀ t e, store.refreshTokens t = some e → s.store.refreshTokens t = some e) :
    Moves s { s with store := store, calls := s.calls.set i { c with stage := stage } } i c stage :=
  ⟨hc, rfl, rfl, rfl, rfl, htokens, fun _ hr => hr, fun _ hr => Or.inl hr⟩

omit [DecidableEq T] in
theorem Inv.moves (h : Inv s) (hm : Moves s s' i c stage)
    (hpending : ∀ t, stage.pending = some t → c.stage.pending = some t)
    (horigin : ∀ t, stage.wanted = some t → c.token = some t)
    (htaken : ∀ t, ({ c with stage := stage } : Call T).taken = some t →
      c.late = false ∧ (s.expiresAt t).isSome) : Inv s' := by
  constructor
  case stored =>
    intro t e ht
    rw [hm.expiresAt]
    exact h.stored t e (hm.tokens t e ht)
  case issued =>
    rw [hm.expiresAt, hm.generated]
    exact h.issued
  case revoked =>
    intro t ht
    rw [hm.expiresAt]
    rcases hm.revokes t ht with hold | hnew
    · obtain ⟨hnone, hsome⟩ := h.revoked t hold
      refine ⟨?_, hsome⟩
      rw [Option.eq_none_iff_forall_ne_some]
      intro e he
      rw [hm.tokens t e he] at hnone
      cases hnone
    · exact hnew
  case pending =>
    intro j c' t hj ht
    rw [hm.generated, hm.expiresAt]
    rw [hm.calls] at hj
    rcases get_set hj with ⟨-, rfl⟩ | ⟨-, hj⟩
    · exact h.pending i c t hm.get (hpending t ht)
    · exact h.pending j c' t hj ht
  case pendingOnce =>
    intro j k c₁ c₂ t
    rw [hm.calls]
    refine (h.onePending t).set ?_ j k c₁ c₂
    exact fun ht j d => (h.onePending t).others hm.get (hpending t ht)
  case origin =>
    intro j c' t hj ht
    rw [hm.calls] at hj
    rcases get_set hj with ⟨-, rfl⟩ | ⟨-, hj⟩
    · exact horigin t ht
    · exact h.origin j c' t hj ht
  case taken =>
    intro j c' t hj ht
    rw [hm.expiresAt]
    rw [hm.calls] at hj
    rcases get_set hj with ⟨-, rfl⟩ | ⟨-, hj⟩
    · exact htaken t ht
    · exact h.taken j c' t hj ht
  case late =>
    intro j c' t hj ht hlate
    rw [hm.expiresAt, hm.now]
    rw [hm.calls] at hj
    have hold : s.revoked t = true ∨ ∃ e, s.expiresAt t = some e ∧ e ≤ s.now := by
      rcases get_set hj with ⟨-, rfl⟩ | ⟨-, hj⟩
      · exact h.late i c t hm.get ht hlate
      · exact h.late j c' t hj ht hlate
    exact hold.imp_left (hm.revoked t)

omit [DecidableEq T] in
/-- A call that has just been made has taken nothing. -/
theorem taken_call {call : Stage T} (hcall : call.isCall = true) (late : Bool) (t : T)
    (ht : (⟨call, call, late⟩ : Call T).taken = some t) : False := by
  cases call <;> first | cases ht | cases hcall

omit [DecidableEq T] in
theorem Inv.call {call : Stage T} (h : Inv s) (hcall : call.isCall = true) :
    Inv { s with calls := s.calls ++ [⟨call, call, s.isLate call⟩] } := by
  have hpending (t : T) : call.pending ≠ some t := by
    intro ht
    cases call with
    | insertAccess | insertRefresh => cases hcall
    | _ => cases ht
  refine ⟨h.stored, h.issued, h.revoked, ?_, ?_, ?_, ?_, ?_⟩
  · intro j c t hj ht
    rcases get_append hj with hj | ⟨-, rfl⟩
    · exact h.pending j c t hj ht
    · exact absurd ht (hpending t)
  · exact fun j k c₁ c₂ t => (h.onePending t).append (hpending t) j k c₁ c₂
  · intro j c t hj ht
    rcases get_append hj with hj | ⟨-, rfl⟩
    · exact h.origin j c t hj ht
    · cases call with
      | refresh => exact ht
      | rotate => cases hcall
      | _ => cases ht
  · intro j c t hj ht
    rcases get_append hj with hj | ⟨-, rfl⟩
    · exact h.taken j c t hj ht
    · exact (taken_call hcall _ t ht).elim
  · intro j c t hj ht hlate
    rcases get_append hj with hj | ⟨-, rfl⟩
    · exact h.late j c t hj ht hlate
    · cases call with
      | refresh t' =>
        obtain rfl := Option.some.inj ht
        rcases Bool.or_eq_true_iff.1 hlate with hrev | hexp
        · exact Or.inl hrev
        · obtain ⟨e, he, hle⟩ := (Option.any_eq_true _ _).1 hexp
          exact Or.inr ⟨e, he, of_decide_eq_true hle⟩
      | _ => cases ht

omit [DecidableEq T] in
/-- New tokens, which are not those that are there. -/
theorem Inv.create {g : TokenResponse T} (h : Inv s) (hc : s.calls[i]? = some c)
    (hstage : c.stage = .createTokens) (hfresh : g.refreshToken ∉ s.generated) :
    Inv { s with
      calls := s.calls.set i { c with stage := .insertAccess g s.now }
      generated := g.refreshToken :: s.generated } := by
  have hexp : s.expiresAt g.refreshToken = none := by
    rw [Option.eq_none_iff_forall_ne_some]
    exact fun e he => hfresh (h.issued _ e he)
  refine ⟨h.stored, fun t e he => List.mem_cons_of_mem _ (h.issued t e he), h.revoked, ?_, ?_, ?_, ?_,
    ?_⟩
  · intro j c' t hj ht
    rcases get_set hj with ⟨-, rfl⟩ | ⟨-, hj⟩
    · obtain rfl := Option.some.inj ht
      exact ⟨List.mem_cons_self, hexp⟩
    · obtain ⟨hmem, hnone⟩ := h.pending j c' t hj ht
      exact ⟨List.mem_cons_of_mem _ hmem, hnone⟩
  · intro j k c₁ c₂ t
    refine (h.onePending t).set ?_ j k c₁ c₂
    intro ht j d _ hj hd
    obtain rfl := Option.some.inj ht
    exact hfresh (h.pending j d _ hj hd).1
  · intro j c' t hj ht
    rcases get_set hj with ⟨-, rfl⟩ | ⟨-, hj⟩
    · cases ht
    · exact h.origin j c' t hj ht
  · intro j c' t hj ht
    rcases get_set hj with ⟨-, rfl⟩ | ⟨-, hj⟩
    · refine h.taken i c t hc ?_
      rw [Call.taken, hstage]
      exact ht
    · exact h.taken j c' t hj ht
  · intro j c' t hj ht hlate
    rcases get_set hj with ⟨-, rfl⟩ | ⟨-, hj⟩
    · exact h.late i c t hc ht hlate
    · exact h.late j c' t hj ht hlate

/-- The refresh token of a response is stored. -/
theorem Inv.store {r : TokenResponse T} {n : ℕ} (h : Inv s) (hc : s.calls[i]? = some c)
    (hstage : c.stage = .insertRefresh r n) :
    Inv { s with
      store := { s.store with
        refreshTokens :=
          Function.update s.store.refreshTokens r.refreshToken (some (n + refreshTokenTtl)) }
      calls := s.calls.set i { c with stage := .returned (some r) }
      expiresAt := Function.update s.expiresAt r.refreshToken (some (n + refreshTokenTtl)) } := by
  have hpend : c.stage.pending = some r.refreshToken := by rw [hstage]; rfl
  obtain ⟨hgen, hexp⟩ := h.pending i c _ hc hpend
  have hkeep {t : T} {e : ℕ} (he : s.expiresAt t = some e) :
      Function.update s.expiresAt r.refreshToken (some (n + refreshTokenTtl)) t = some e := by
    rw [Function.update_of_ne, he]
    rintro rfl
    rw [hexp] at he
    cases he
  have hkeep' {t : T} (he : (s.expiresAt t).isSome) :
      (Function.update s.expiresAt r.refreshToken (some (n + refreshTokenTtl)) t).isSome := by
    obtain ⟨e, he⟩ := Option.isSome_iff_exists.1 he
    rw [hkeep he]
    rfl
  constructor
  case stored =>
    intro t e ht
    dsimp only at ht ⊢
    by_cases hr : t = r.refreshToken
    · subst hr
      rwa [Function.update_self] at ht ⊢
    · rw [Function.update_of_ne hr] at ht ⊢
      exact h.stored t e ht
  case issued =>
    intro t e ht
    dsimp only at ht
    by_cases hr : t = r.refreshToken
    · exact hr ▸ hgen
    · rw [Function.update_of_ne hr] at ht
      exact h.issued t e ht
  case revoked =>
    intro t ht
    obtain ⟨hnone, hsome⟩ := h.revoked t ht
    refine ⟨?_, hkeep' hsome⟩
    have hr : t ≠ r.refreshToken := by
      rintro rfl
      rw [hexp] at hsome
      cases hsome
    dsimp only
    rw [Function.update_of_ne hr]
    exact hnone
  case pending =>
    intro j c' t hj ht
    rcases get_set hj with ⟨-, rfl⟩ | ⟨hji, hj⟩
    · cases ht
    · obtain ⟨hmem, hnone⟩ := h.pending j c' t hj ht
      refine ⟨hmem, ?_⟩
      dsimp only
      rw [Function.update_of_ne]
      · exact hnone
      · rintro rfl
        exact hji (h.pendingOnce j i c' c _ hj hc ht hpend)
  case pendingOnce =>
    exact fun j k c₁ c₂ t => (h.onePending t).set (fun ht => by cases ht) j k c₁ c₂
  case origin =>
    intro j c' t hj ht
    rcases get_set hj with ⟨-, rfl⟩ | ⟨-, hj⟩
    · cases ht
    · exact h.origin j c' t hj ht
  case taken =>
    intro j c' t hj ht
    have hold : c'.late = false ∧ (s.expiresAt t).isSome := by
      rcases get_set hj with ⟨-, rfl⟩ | ⟨-, hj⟩
      · refine h.taken i c t hc ?_
        rw [Call.taken, hstage]
        exact ht
      · exact h.taken j c' t hj ht
    exact ⟨hold.1, hkeep' hold.2⟩
  case late =>
    intro j c' t hj ht hlate
    have hold : s.revoked t = true ∨ ∃ e, s.expiresAt t = some e ∧ e ≤ s.now := by
      rcases get_set hj with ⟨-, rfl⟩ | ⟨-, hj⟩
      · exact h.late i c t hc ht hlate
      · exact h.late j c' t hj ht hlate
    rcases hold with hrev | ⟨e, he, hle⟩
    · exact Or.inl hrev
    · exact Or.inr ⟨e, hkeep he, hle⟩

omit [DecidableEq T] in
theorem retain_eq_some {n e : ℕ} {tokens : T → Option ℕ} {t : T} (h : retain n tokens t = some e) :
    tokens t = some e :=
  Option.eq_some_of_filter_eq_some h

theorem update_none_eq_some {tokens : T → Option ℕ} {t t' : T} {e : ℕ}
    (h : Function.update tokens t' none t = some e) : tokens t = some e := by
  by_cases ht : t = t'
  · rw [ht, Function.update_self] at h
    cases h
  · rwa [Function.update_of_ne ht] at h

theorem update_none_eq_none {tokens : T → Option ℕ} {t t' : T} (h : tokens t = none) :
    Function.update tokens t' none t = none := by
  by_cases ht : t = t'
  · rw [ht, Function.update_self]
  · rwa [Function.update_of_ne ht]

omit [DecidableEq T] in
/-- A token that is valid has not been revoked before the call, and had not expired. -/
theorem Inv.valid {t : T} (h : Inv s) (hc : s.calls[i]? = some c) (hstage : c.stage = .refresh t)
    (hvalid : (s.store.refreshTokens t).any (fun e => decide (s.now < e)) = true) :
    c.late = false ∧ (s.expiresAt t).isSome := by
  obtain ⟨e, he, hlt⟩ := (Option.any_eq_true _ _).1 hvalid
  have hlt := of_decide_eq_true hlt
  have hexp := h.stored t e he
  refine ⟨?_, by rw [hexp]; rfl⟩
  by_contra hlate
  rcases h.late i c t hc (h.origin i c t hc (by rw [hstage]; rfl)) (Bool.eq_true_of_not_eq_false hlate)
    with hrev | ⟨e', he', hle⟩
  · rw [(h.revoked t hrev).1] at he
    cases he
  · obtain rfl := Option.some.inj (hexp.symm.trans he')
    omega

theorem Inv.next {g : TokenResponse T} (h : Inv s) (hfresh : s.Fresh (.next i g))
    (hs : s.step (.next i g) = some s') : Inv s' := by
  rw [step] at hs
  cases hc : s.calls[i]? with
  | none =>
    rw [hc] at hs
    cases hs
  | some c =>
    obtain ⟨call, stage, late⟩ := c
    rw [hc] at hs
    dsimp only at hs
    have hkeep (t : T) (ht : (⟨call, stage, late⟩ : Call T).taken = some t) :
        late = false ∧ (s.expiresAt t).isSome := h.taken i _ t hc ht
    cases stage with
    | createTokens =>
      obtain rfl := Option.some.inj hs
      exact h.create hc rfl (hfresh (by rw [hc]; rfl))
    | insertAccess r n =>
      obtain rfl := Option.some.inj hs
      exact @Inv.moves T s _ i _ (.insertRefresh r n) h
        (.forgets hc fun _ _ he => he)
        (fun t ht => ht) (by rintro t ⟨⟩) hkeep
    | insertRefresh r n =>
      obtain rfl := Option.some.inj hs
      exact h.store hc rfl
    | refresh t =>
      obtain rfl := Option.some.inj hs
      dsimp only
      split_ifs with hvalid
      · refine @Inv.moves T s _ i _ (.rotate t) h
          (.forgets hc fun _ _ he => he)
          (by rintro t ⟨⟩) ?_ ?_
        · exact fun t' ht => h.origin i _ t' hc ht
        · intro t' ht
          have horigin := h.origin i _ t hc rfl
          obtain rfl := Option.some.inj (horigin.symm.trans ht)
          exact h.valid hc rfl hvalid
      · exact @Inv.moves T s _ i _ (.returned none) h
          (.forgets hc fun _ _ he => he)
          (by rintro t ⟨⟩) (by rintro t ⟨⟩) (by rintro t ⟨⟩)
    | rotate t =>
      obtain rfl := Option.some.inj hs
      exact @Inv.moves T s _ i _ .createTokens h
        (.forgets hc fun _ _ he => update_none_eq_some he)
        (by rintro t ⟨⟩) (by rintro t ⟨⟩) hkeep
    | revokeRefreshToken t =>
      obtain rfl := Option.some.inj hs
      refine @Inv.moves T s _ i _ (.returned none) h
        ⟨hc, rfl, rfl, rfl, rfl, fun _ _ he => update_none_eq_some he, ?_, ?_⟩
        (by rintro t ⟨⟩) (by rintro t ⟨⟩) (by rintro t ⟨⟩)
      · intro t' hr
        by_cases ht : t' = t
        · subst ht
          exact (Function.update_self ..).trans (h.revoked t' hr).2
        · exact (Function.update_of_ne ht ..).trans hr
      · intro t' hr
        by_cases ht : t' = t
        · subst ht
          exact Or.inr ⟨Function.update_self .., (Function.update_self ..).symm.trans hr⟩
        · exact Or.inl ((Function.update_of_ne ht ..).symm.trans hr)
    | cleanupExpired =>
      obtain rfl := Option.some.inj hs
      exact @Inv.moves T s _ i _ (.cleanupAccess s.now) h
        (.forgets hc fun _ _ he => he)
        (by rintro t ⟨⟩) (by rintro t ⟨⟩) hkeep
    | cleanupAccess n =>
      obtain rfl := Option.some.inj hs
      exact @Inv.moves T s _ i _ (.cleanupRefresh n) h
        (.forgets hc fun _ _ he => he)
        (by rintro t ⟨⟩) (by rintro t ⟨⟩) hkeep
    | cleanupRefresh n =>
      obtain rfl := Option.some.inj hs
      exact @Inv.moves T s _ i _ (.returned none) h
        (.forgets hc fun _ _ he => retain_eq_some he)
        (by rintro t ⟨⟩) (by rintro t ⟨⟩) (by rintro t ⟨⟩)
    | returned r => cases hs

theorem Inv.step {e : Event T} (h : Inv s) (hfresh : s.Fresh e) (hs : s.step e = some s') :
    Inv s' := by
  cases e with
  | elapse d =>
    obtain rfl := Option.some.inj hs
    refine { h with late := ?_ }
    intro i c t hc ht hlate
    rcases h.late i c t hc ht hlate with hrev | ⟨e, he, hle⟩
    · exact Or.inl hrev
    · exact Or.inr ⟨e, he, Nat.le_add_right_of_le hle⟩
  | call c =>
    rw [System.step] at hs
    split_ifs at hs with hcall
    obtain rfl := Option.some.inj hs
    exact h.call hcall
  | next i g => exact h.next hfresh hs

omit [DecidableEq T] in
theorem inv_start : Inv (start : System T) := by
  constructor
  case stored => rintro t e ⟨⟩
  case issued => rintro t e ⟨⟩
  case revoked => rintro t ⟨⟩
  case pending => rintro i c t ⟨⟩
  case pendingOnce => rintro i j c c' t ⟨⟩
  case origin => rintro i c t ⟨⟩
  case taken => rintro i c t ⟨⟩
  case late => rintro i c t ⟨⟩

theorem inv_run {evs : List (Event T)} (h : Run step Fresh (start : System T) evs s) : Inv s :=
  h.inv Inv inv_start fun _ _ _ hinv hfresh hs => hinv.step hfresh hs

omit [DecidableEq T] in
theorem taken_of_redeemed {t : T} (h : c.redeemed = some t) : c.taken = some t := by
  obtain ⟨call, stage, late⟩ := c
  cases stage with
  | returned r =>
    cases r with
    | none => cases h
    | some r => exact h
  | _ => cases h

/-- Whatever is interleaved. -/
theorem none_late {evs : List (Event T)} (h : Run step Fresh (start : System T) evs s) :
    s.NoneLate := by
  intro c hc hlate
  obtain ⟨i, hi⟩ := List.getElem?_of_mem hc
  rw [Option.eq_none_iff_forall_ne_some]
  intro t ht
  have htaken := ((inv_run h).taken i c t hi (taken_of_redeemed ht)).1
  rw [hlate] at htaken
  cases htaken

/-! Calls that are apart. -/

/-- A token is taken by one call, and is not in the store once that call has removed it. -/
structure Once (s : System T) : Prop where
  single : ∀ (i j : ℕ) c c' t, s.calls[i]? = some c → s.calls[j]? = some c' →
    c.taken = some t → c'.taken = some t → i = j
  gone : ∀ (i : ℕ) c t, s.calls[i]? = some c → c.taken = some t → c.stage ≠ .rotate t →
    s.store.refreshTokens t = none

omit [DecidableEq T] in
theorem Once.oneTaker (h : Once s) (t : T) : AtMostOne (fun c => c.taken = some t) s.calls :=
  fun i j c c' => h.single i j c c' t

omit [DecidableEq T] in
/-- The call that goes on takes no other token, and none that is taken is stored. -/
theorem Once.moves (h : Once s) (hc : s.calls[i]? = some c)
    (hcalls : s'.calls = s.calls.set i { c with stage := stage })
    (htaken : ∀ t, ({ c with stage := stage } : Call T).taken = some t → c.taken = some t)
    (htokens : ∀ (j : ℕ) (c' : Call T) t, s.calls[j]? = some c' → c'.taken = some t →
      s.store.refreshTokens t = none → s'.store.refreshTokens t = none)
    (hremoved : ∀ t, c.stage = .rotate t → s'.store.refreshTokens t = none) : Once s' := by
  refine ⟨?_, ?_⟩
  · intro j k c₁ c₂ t
    rw [hcalls]
    refine (h.oneTaker t).set ?_ j k c₁ c₂
    exact fun ht j d => (h.oneTaker t).others hc (htaken t ht)
  · intro j c' t hj ht hne
    rw [hcalls] at hj
    rcases get_set hj with ⟨-, rfl⟩ | ⟨-, hj⟩
    · by_cases hrotate : c.stage = .rotate t
      · exact hremoved t hrotate
      · exact htokens i c t hc (htaken t ht) (h.gone i c t hc (htaken t ht) hrotate)
    · exact htokens j c' t hj ht (h.gone j c' t hj ht hne)

omit [DecidableEq T] in
/-- A token that is found to be valid is taken by no call so far. -/
theorem Once.valid {t : T} (h : Once s) (hinv : Inv s) (hc : s.calls[i]? = some c)
    (hstage : c.stage = .refresh t)
    (hvalid : (s.store.refreshTokens t).any (fun e => decide (s.now < e)) = true)
    (hapart : ∀ c ∈ s.calls, c.stage ≠ .rotate t) :
    Once { s with calls := s.calls.set i { c with stage := .rotate t } } := by
  have hnone {j : ℕ} {c' : Call T} (hj : s.calls[j]? = some c') : c'.taken ≠ some t := by
    intro ht
    rw [h.gone j c' t hj ht (hapart c' (List.mem_of_getElem? hj))] at hvalid
    cases hvalid
  have htoken := hinv.origin i c t hc (by rw [hstage]; rfl)
  refine ⟨?_, ?_⟩
  · intro j k c₁ c₂ t'
    refine (h.oneTaker t').set ?_ j k c₁ c₂
    intro ht j d _ hj
    obtain rfl := Option.some.inj (ht.symm.trans htoken)
    exact hnone hj
  · intro j c' t' hj ht hne
    rcases get_set hj with ⟨-, rfl⟩ | ⟨-, hj⟩
    · obtain rfl := Option.some.inj (ht.symm.trans htoken)
      exact absurd rfl hne
    · exact h.gone j c' t' hj ht hne

theorem Once.next {g : TokenResponse T} (h : Once s) (hinv : Inv s) (hapart : s.Apart (.next i g))
    (hs : s.step (.next i g) = some s') : Once s' := by
  rw [System.step] at hs
  unfold Apart finds at hapart
  dsimp only at hapart
  cases hc : s.calls[i]? with
  | none =>
    rw [hc] at hs
    cases hs
  | some c =>
    obtain ⟨call, stage, late⟩ := c
    rw [hc] at hs hapart
    dsimp only at hs
    cases stage with
    | createTokens =>
      obtain rfl := Option.some.inj hs
      exact @Once.moves T s _ i _ (.insertAccess g s.now) h hc rfl (fun t ht => ht)
        (fun _ _ _ _ _ hnone => hnone) (by rintro t ⟨⟩)
    | insertAccess r n =>
      obtain rfl := Option.some.inj hs
      exact @Once.moves T s _ i _ (.insertRefresh r n) h hc rfl (fun t ht => ht)
        (fun _ _ _ _ _ hnone => hnone) (by rintro t ⟨⟩)
    | insertRefresh r n =>
      obtain rfl := Option.some.inj hs
      refine @Once.moves T s _ i _ (.returned (some r)) h hc rfl (fun t ht => ht) ?_ (by rintro t ⟨⟩)
      intro j c' t hj ht hnone
      refine (Function.update_of_ne ?_ ..).trans hnone
      -- what is taken has been stored before
      rintro rfl
      have hsome := (hinv.taken j c' _ hj ht).2
      rw [(hinv.pending i _ r.refreshToken hc rfl).2] at hsome
      cases hsome
    | refresh t =>
      obtain rfl := Option.some.inj hs
      dsimp only
      split_ifs with hvalid
      · exact h.valid hinv hc rfl hvalid (hapart t (if_pos hvalid))
      · exact @Once.moves T s _ i _ (.returned none) h hc rfl (by rintro t ⟨⟩)
          (fun _ _ _ _ _ hnone => hnone) (by rintro t ⟨⟩)
    | rotate t =>
      obtain rfl := Option.some.inj hs
      refine @Once.moves T s _ i _ .createTokens h hc rfl (fun t ht => ht)
        (fun _ _ _ _ _ hnone => update_none_eq_none hnone) ?_
      rintro t' ⟨⟩
      exact Function.update_self ..
    | revokeRefreshToken t =>
      obtain rfl := Option.some.inj hs
      exact @Once.moves T s _ i _ (.returned none) h hc rfl (by rintro t ⟨⟩)
        (fun _ _ _ _ _ hnone => update_none_eq_none hnone) (by rintro t ⟨⟩)
    | cleanupExpired =>
      obtain rfl := Option.some.inj hs
      exact @Once.moves T s _ i _ (.cleanupAccess s.now) h hc rfl (fun t ht => ht)
        (fun _ _ _ _ _ hnone => hnone) (by rintro t ⟨⟩)
    | cleanupAccess n =>
      obtain rfl := Option.some.inj hs
      exact @Once.moves T s _ i _ (.cleanupRefresh n) h hc rfl (fun t ht => ht)
        (fun _ _ _ _ _ hnone => hnone) (by rintro t ⟨⟩)
    | cleanupRefresh n =>
      obtain rfl := Option.some.inj hs
      refine @Once.moves T s _ i _ (.returned none) h hc rfl (by rintro t ⟨⟩) ?_ (by rintro t ⟨⟩)
      intro j c' t _ _ hnone
      exact congrArg (Option.filter _) hnone
    | returned r => cases hs

theorem Once.step {e : Event T} (h : Once s) (hinv : Inv s) (hapart : s.Apart e)
    (hs : s.step e = some s') : Once s' := by
  cases e with
  | elapse d =>
    obtain rfl := Option.some.inj hs
    exact ⟨h.single, h.gone⟩
  | call c =>
    rw [System.step] at hs
    split_ifs at hs with hcall
    obtain rfl := Option.some.inj hs
    refine ⟨?_, ?_⟩
    · exact fun i j c₁ c₂ t => (h.oneTaker t).append (taken_call hcall _ t) i j c₁ c₂
    · intro i c' t hi ht hne
      rcases get_append hi with hi | ⟨-, rfl⟩
      · exact h.gone i c' t hi ht hne
      · exact (taken_call hcall _ t ht).elim
  | next i g => exact h.next hinv hapart hs

/-- Fresh tokens, and calls that are apart. -/
def Careful (s : System T) (e : Event T) : Prop := s.Fresh e ∧ s.Apart e

theorem careful_single_use {evs : List (Event T)}
    (h : Run step Careful (start : System T) evs s) : s.SingleUse := by
  have honce : Inv s ∧ Once s := by
    refine h.inv (fun s => Inv s ∧ Once s) ⟨inv_start, ?_, ?_⟩ ?_
    · rintro i j c c' t ⟨⟩
    · rintro i c t ⟨⟩
    · rintro s₁ e s₂ ⟨hinv, honce⟩ ⟨hfresh, hapart⟩ hs
      exact ⟨hinv.step hfresh hs, honce.step hinv hapart hs⟩
  refine ⟨?_, none_late (h.mono fun _ _ hok => hok.1)⟩
  intro i j c c' t hi hj hc hc'
  exact honce.2.single i j c c' t hi hj (taken_of_redeemed hc) (taken_of_redeemed hc')

instance (s : System T) (e : Event T) : Decidable (s.Fresh e) :=
  match e with
  | .elapse _ => .isTrue trivial
  | .call _ => .isTrue trivial
  | .next _ _ => inferInstanceAs (Decidable (_ → _))

instance (s : System T) (e : Event T) : Decidable (s.Apart e) :=
  match e with
  | .elapse _ => .isTrue trivial
  | .call _ => .isTrue trivial
  | .next i _ => inferInstanceAs (Decidable (∀ t ∈ s.finds i, _))

instance (s : System T) (e : Event T) : Decidable (s.Careful e) :=
  inferInstanceAs (Decidable (_ ∧ _))

/-- Tokens are created and redeemed by a call, after which another call tries. -/
def rotation : List (Event ℕ) :=
  [.call .createTokens, .next 0 ⟨0, 1⟩, .next 0 ⟨0, 1⟩, .next 0 ⟨0, 1⟩,
    .call (.refresh 1), .next 1 ⟨0, 1⟩, .next 1 ⟨0, 1⟩,
    .call (.refresh 1), .next 2 ⟨0, 1⟩,
    .next 1 ⟨2, 3⟩, .next 1 ⟨2, 3⟩, .next 1 ⟨2, 3⟩]

theorem rotation_single_use : ∃ s, Run step Careful start rotation s ∧
    s.calls.map Call.redeemed = [none, some 1, none] ∧ s.SingleUse := by
  have hex : (exec step Careful start rotation).any
      (fun s => s.calls.map Call.redeemed == [none, some 1, none]) = true := by decide +kernel
  obtain ⟨s, hrun, hs⟩ := Run.exists_of_exec hex
  exact ⟨s, hrun, eq_of_beq hs, careful_single_use hrun⟩

/-- Both calls look at the token before one of them removes it. -/
def replay : List (Event ℕ) :=
  [.call .createTokens, .next 0 ⟨0, 1⟩, .next 0 ⟨0, 1⟩, .next 0 ⟨0, 1⟩,
    .call (.refresh 1), .call (.refresh 1), .next 1 ⟨0, 1⟩, .next 2 ⟨0, 1⟩,
    .next 1 ⟨0, 1⟩, .next 2 ⟨0, 1⟩,
    .next 1 ⟨2, 3⟩, .next 1 ⟨2, 3⟩, .next 1 ⟨2, 3⟩,
    .next 2 ⟨4, 5⟩, .next 2 ⟨4, 5⟩, .next 2 ⟨4, 5⟩]

theorem replay_redeemed_twice : ¬∀ evs s, Run step Fresh (start : System ℕ) evs s → s.SingleUse := by
  intro h
  have hex : (exec step Fresh start replay).any
      (fun s => s.calls.map Call.redeemed == [none, some 1, some 1]) = true := by decide +kernel
  obtain ⟨s, hrun, hs⟩ := Run.exists_of_exec hex
  have hget (i : ℕ) (hi : [none, some 1, some 1][i]? = some (some 1)) :
      ∃ c, s.calls[i]? = some c ∧ c.redeemed = some 1 := by
    rw [← eq_of_beq hs, List.getElem?_map] at hi
    exact Option.map_eq_some_iff.1 hi
  obtain ⟨c, hc, hred⟩ := hget 1 rfl
  obtain ⟨c', hc', hred'⟩ := hget 2 rfl
  exact absurd ((h replay s hrun).1 1 2 c c' 1 hc hc' hred hred') (by decide)

end System

end TokenStore

end Rtbit
