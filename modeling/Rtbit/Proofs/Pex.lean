import Rtbit.Lib.Runs
import Rtbit.Spec.Pex

/-! What a peer can conclude from the PEX messages it gets. The lists of a message are built
from all live peers, and only the update of the view leaves out the addresses that `filter`
rejects: such an address is sent, and sent again at every tick. -/

namespace Rtbit

open Lib

namespace Pex

variable {peer : SocketAddr} {s s' : State} {t : Tick}

/-- The run has seen these contents of `live_outgoing_peers`, and perhaps not yet all. -/
def Sees (lives : List (Finset SocketAddr)) (ticks : List Tick) : Prop :=
  ticks.map (fun t => t.livePeers.toFinset) <+: lives

/-- The bounds and the shape of every message. -/
def WellFormed (m : UtPex) : Prop :=
  List.Disjoint m.added m.dropped ∧ m.added.length ≤ maxSentPeers ∧ m.dropped.length ≤ maxSentPeers

/-- The peer's knowledge: the messages are well formed, they replay to the view the task keeps,
nothing is added twice without being dropped in between, and after a tick whose backlog fits
into one message everything that was added and is not live has been dropped. -/
structure Consistent (peer : SocketAddr) (s : State) : Prop where
  wellFormed : ∀ m ∈ s.sent, WellFormed m
  replay : Delta.replay s.sent = s.peerViewOfLivePeers
  noReAdd : ∀ (i j : ℕ) (m m' : UtPex) (x : SocketAddr), i < j → s.sent[i]? = some m →
    s.sent[j]? = some m' → x ∈ m.added → x ∈ m'.added →
      ∃ k m'', i < k ∧ k < j ∧ s.sent[k]? = some m'' ∧ x ∈ m''.dropped
  drained : ∀ (t : Tick) (s' : State), step peer s t = some s' →
    (s.peerViewOfLivePeers \ t.livePeers.toFinset).card ≤ maxSentPeers →
      ∀ (i : ℕ) (m : UtPex) (x : SocketAddr), s'.sent[i]? = some m → x ∈ m.added →
        x ∉ t.livePeers → ∃ k m', i < k ∧ s'.sent[k]? = some m' ∧ x ∈ m'.dropped

/-! One tick. -/

theorem step_cases (h : step peer s t = some s') :
    t.livePeers.Nodup ∧ t.viewOrder.Nodup ∧ t.viewOrder.toFinset = s.peerViewOfLivePeers ∧
      (s' = s ∧ connected s t = [] ∧ dropped t = [] ∨
        s' =
          { peerViewOfLivePeers := (s.peerViewOfLivePeers \ (dropped t).toFinset) ∪
              ((connected s t).filter (filter peer)).toFinset
            sent := s.sent ++ [⟨connected s t, dropped t⟩] }) := by
  unfold step at h
  split_ifs at h with hord hne
  · exact ⟨hord.1, hord.2.1, hord.2.2, Or.inr (Option.some.inj h).symm⟩
  · push Not at hne
    exact ⟨hord.1, hord.2.1, hord.2.2, Or.inl ⟨(Option.some.inj h).symm, hne.1, hne.2⟩⟩

theorem mem_connected {x : SocketAddr} (h : x ∈ connected s t) :
    x ∈ t.livePeers ∧ x ∉ s.peerViewOfLivePeers := mem_missing h

theorem mem_dropped {x : SocketAddr} (h : x ∈ dropped t) : x ∈ t.viewOrder ∧ x ∉ t.livePeers := by
  simpa using mem_missing h

theorem wellFormed_message (s : State) (t : Tick) : WellFormed ⟨connected s t, dropped t⟩ := by
  refine ⟨?_, length_missing_le _ _ _, length_missing_le _ _ _⟩
  intro x hc hd
  exact (mem_dropped hd).2 (mem_connected hc).1

/-- The state as far as the messages go, whatever the filter rejects. -/
structure Sound (peer : SocketAddr) (s : State) : Prop where
  wellFormed : ∀ m ∈ s.sent, WellFormed m
  view : ∀ x ∈ s.peerViewOfLivePeers, filter peer x = true

theorem Sound.step (h : Sound peer s) (hs : step peer s t = some s') : Sound peer s' := by
  obtain ⟨-, -, -, ⟨rfl, -, -⟩ | rfl⟩ := step_cases hs
  · exact h
  refine ⟨?_, ?_⟩
  · intro m hm
    rcases List.mem_append.1 hm with hold | hnew
    · exact h.wellFormed m hold
    · rw [List.mem_singleton.1 hnew]
      exact wellFormed_message s t
  · intro x hx
    rcases Finset.mem_union.1 hx with hold | hnew
    · exact h.view x (Finset.mem_sdiff.1 hold).1
    · exact (List.mem_filter.1 (List.mem_toFinset.1 hnew)).2

theorem start_sound : Sound peer start := ⟨by simp [start], by simp [start]⟩

/-! Ticks at which the filter rejects nothing. -/

structure Follows (s : State) : Prop where
  replay : Delta.replay s.sent = s.peerViewOfLivePeers
  fresh : Delta.Fresh s.sent

theorem Follows.step (h : Follows s) (hs : step peer s t = some s')
    (hf : ∀ x ∈ t.livePeers, filter peer x = true) : Follows s' := by
  obtain ⟨-, -, -, ⟨rfl, -, -⟩ | rfl⟩ := step_cases hs
  · exact h
  refine ⟨?_, h.fresh.snoc ?_⟩
  · rw [Delta.replay_snoc, h.replay]
    ext x
    rw [Delta.mem_apply]
    have hcon : x ∈ (connected s t).filter (filter peer) ↔ x ∈ connected s t := by
      rw [List.mem_filter, and_iff_left_iff_imp]
      exact fun hx => hf x (mem_connected hx).1
    have hdisj : x ∈ connected s t → x ∉ dropped t := fun hx hd => (wellFormed_message s t).1 hx hd
    simp only [Finset.mem_union, Finset.mem_sdiff, List.mem_toFinset, hcon]
    tauto
  · intro x hx
    rw [h.replay]
    exact (mem_connected hx).2

/-- A backlog that fits into one message is dropped. -/
theorem Follows.drained (h : Follows s) (hw : ∀ m ∈ s.sent, WellFormed m)
    (hs : Pex.step peer s t = some s')
    (hback : (s.peerViewOfLivePeers \ t.livePeers.toFinset).card ≤ maxSentPeers) {i : ℕ} {m : UtPex}
    {x : SocketAddr} (hi : s'.sent[i]? = some m) (hx : x ∈ m.added) (hl : x ∉ t.livePeers) :
    ∃ k m', i < k ∧ s'.sent[k]? = some m' ∧ x ∈ m'.dropped := by
  obtain ⟨-, hnd, hview, hcases⟩ := step_cases hs
  have hdrop (hmem : x ∈ s.peerViewOfLivePeers) : x ∈ dropped t := by
    rw [← hview] at hmem hback
    exact missing_of_card_le hnd hback (List.mem_toFinset.1 hmem) (by simpa using hl)
  have hdisj : ∀ d ∈ s.sent, List.Disjoint d.added d.dropped := fun d hd => (hw d hd).1
  rcases hcases with ⟨rfl, -, hnone⟩ | rfl
  · by_cases hmem : x ∈ s'.peerViewOfLivePeers
    · rw [hnone] at hdrop
      exact absurd (hdrop hmem) (by simp)
    · rw [← h.replay] at hmem
      exact Delta.dropped_of_not_mem hdisj hi hx hmem
  · rcases get_append hi with hold | ⟨-, rfl⟩
    · have hlen : i < s.sent.length := (List.getElem?_eq_some_iff.1 hold).1
      by_cases hmem : x ∈ s.peerViewOfLivePeers
      · exact ⟨s.sent.length, ⟨connected s t, dropped t⟩, hlen, by simp, hdrop hmem⟩
      · rw [← h.replay] at hmem
        obtain ⟨k, m', hik, hk, hm'⟩ := Delta.dropped_of_not_mem hdisj hold hx hmem
        have hkl : k < s.sent.length := (List.getElem?_eq_some_iff.1 hk).1
        exact ⟨k, m', hik, by rw [List.getElem?_append_left hkl]; exact hk, hm'⟩
    · exact absurd (mem_connected hx).1 hl

/-! Runs. -/

section Runs

variable {lives : List (Finset SocketAddr)} {ticks : List Tick}

theorem Sees.init (h : Sees lives (ticks ++ [t])) : Sees lives ticks := by
  rw [Sees, List.map_append] at h
  exact (List.prefix_append _ _).trans h

theorem Sees.last (h : Sees lives (ticks ++ [t])) : t.livePeers.toFinset ∈ lives := by
  rw [Sees, List.map_append] at h
  exact h.subset (List.mem_append_right _ (List.mem_singleton_self _))

/-- An invariant of the ticks that see one of the given contents. -/
theorem run_inv (I : State → Prop) (h0 : I start)
    (hstep : ∀ s t s', I s → t.livePeers.toFinset ∈ lives → step peer s t = some s' → I s')
    (hr : Run (step peer) Any start ticks s) (hsee : Sees lives ticks) : I s := by
  induction hr with
  | nil => exact h0
  | snoc _ _ hs ih => exact hstep _ _ _ (ih hsee.init) hsee.last hs

theorem run_sound (hr : Run (step peer) Any start ticks s) : Sound peer s :=
  hr.inv (Sound peer) start_sound fun _ _ _ h _ hs => h.step hs

/-- Any contents can be seen. -/
theorem exists_run_sees (peer : SocketAddr) (lives : List (Finset SocketAddr)) :
    ∃ ticks s, Run (step peer) Any start ticks s ∧
      ticks.map (fun t => t.livePeers.toFinset) = lives := by
  induction lives using List.reverseRecOn with
  | nil => exact ⟨[], start, Run.nil, rfl⟩
  | append_singleton lives l ih =>
    obtain ⟨ticks, s, hr, hmap⟩ := ih
    have hen : ∃ s', step peer s ⟨l.toList, s.peerViewOfLivePeers.toList⟩ = some s' := by
      unfold step
      rw [if_pos ⟨l.nodup_toList, Finset.nodup_toList _, Finset.toList_toFinset _⟩]
      split_ifs
      · exact ⟨_, rfl⟩
      · exact ⟨_, rfl⟩
    obtain ⟨s', hs'⟩ := hen
    exact ⟨_, s', hr.snoc trivial hs', by simp [hmap]⟩

/-- An address that the filter rejects is sent, if the iteration over the live peers comes to
it first. -/
theorem exists_run_leaks {l : Finset SocketAddr} (hl : l ∈ lives) {x : SocketAddr} (hx : x ∈ l)
    (hf : filter peer x = false) :
    ∃ ticks s before m, Run (step peer) Any start ticks s ∧ Sees lives ticks ∧
      s.sent = before ++ [m] ∧ x ∈ m.added := by
  obtain ⟨pre, post, rfl⟩ := List.append_of_mem hl
  obtain ⟨ticks, s, hr, hmap⟩ := exists_run_sees peer pre
  have hview : x ∉ s.peerViewOfLivePeers := by
    intro hmem
    have hpass := (run_sound hr).view x hmem
    simp [hf] at hpass
  let t : Tick := ⟨x :: (l.erase x).toList, s.peerViewOfLivePeers.toList⟩
  have hlive : t.livePeers.toFinset = l := by
    simp only [t, List.toFinset_cons, Finset.toList_toFinset]
    exact Finset.insert_erase hx
  have hcon : x ∈ connected s t := by
    simp [connected, missing, t, hview, maxSentPeers]
  have hstep : step peer s t = some
      { peerViewOfLivePeers := (s.peerViewOfLivePeers \ (dropped t).toFinset) ∪
          ((connected s t).filter (filter peer)).toFinset
        sent := s.sent ++ [⟨connected s t, dropped t⟩] } := by
    have hnd : t.livePeers.Nodup := List.nodup_cons.2 ⟨by simp, Finset.nodup_toList _⟩
    unfold step
    rw [if_pos ⟨hnd, Finset.nodup_toList _, Finset.toList_toFinset _⟩,
      if_pos (Or.inl (List.ne_nil_of_mem hcon))]
  refine ⟨ticks ++ [t], _, s.sent, _, hr.snoc trivial hstep, ?_, rfl, hcon⟩
  rw [Sees, List.map_append, hmap, List.map_singleton, hlive]
  exact ⟨post, by simp⟩

end Runs

/-- The messages give the peer a consistent view, at every tick and in whatever order the sets
are iterated over, exactly when no live peer is one that `filter` rejects. -/
theorem consistent_iff_filter (peer : SocketAddr) (lives : List (Finset SocketAddr)) :
    (∀ ticks s, Run (step peer) Any start ticks s → Sees lives ticks → Consistent peer s) ↔
      ∀ l ∈ lives, ∀ x ∈ l, filter peer x = true := by
  constructor
  · intro h l hl x hx
    by_contra hf
    obtain ⟨ticks, s, before, m, hr, hsee, hsent, hm⟩ :=
      exists_run_leaks hl hx (by simpa using hf)
    have hc := h ticks s hr hsee
    have hnd : x ∉ m.dropped :=
      (hc.wellFormed m (by rw [hsent]; exact List.mem_append_right _ (List.mem_singleton_self m))).1 hm
    have hmem : x ∈ s.peerViewOfLivePeers := by
      rw [← hc.replay, hsent, Delta.replay_snoc, Delta.mem_apply]
      exact ⟨Or.inr hm, hnd⟩
    exact hf ((run_sound hr).view x hmem)
  · intro hf ticks s hr hsee
    have hw := (run_sound hr).wellFormed
    have hfol : Follows s := by
      refine run_inv Follows ⟨rfl, by simp [Delta.Fresh, start]⟩ ?_ hr hsee
      intro s₁ t s₂ h hmem hs
      exact h.step hs fun x hx => hf _ hmem x (List.mem_toFinset.2 hx)
    refine ⟨hw, hfol.replay, ?_, ?_⟩
    · intro i j m m' x hij hi hj hm hm'
      exact hfol.fresh.dropped_between (fun d hd => (hw d hd).1) hij hi hj hm hm'
    · intro t s' hs hback i m x hi hx hl
      exact hfol.drained hw hs hback hi hx hl

def publicPeer : SocketAddr := ⟨.v4 0x08080808, 6881⟩

def lanPeer : SocketAddr := ⟨.v4 0xC0A80102, 6881⟩

/-- A peer of the local network is live at two ticks. -/
def lanTicks : List Tick := [⟨[lanPeer], []⟩, ⟨[lanPeer], []⟩]

/-- Its address is sent as added twice and is not in the view. -/
theorem lanPeer_not_consistent : ∃ s, Run (step publicPeer) Any start lanTicks s ∧
    s.sent = [⟨[lanPeer], []⟩, ⟨[lanPeer], []⟩] ∧ s.peerViewOfLivePeers = ∅ ∧
      ¬Consistent publicPeer s := by
  have hex : exec (step publicPeer) Any start lanTicks =
      some ⟨∅, [⟨[lanPeer], []⟩, ⟨[lanPeer], []⟩]⟩ := by decide +kernel
  refine ⟨_, Run.of_exec hex, rfl, rfl, ?_⟩
  intro hc
  have hreplay : Delta.replay [⟨[lanPeer], []⟩, ⟨[lanPeer], []⟩] = (∅ : Finset SocketAddr) := hc.replay
  exact absurd hreplay (by decide +kernel)

/-- A peer that is not local is told no local address, in whatever order the sets are iterated
over, exactly when no live peer has one. -/
theorem private_iff_no_local (peer : SocketAddr) (hpeer : peerIpNonLocal peer.ip = true)
    (lives : List (Finset SocketAddr)) :
    (∀ ticks s, Run (step peer) Any start ticks s → Sees lives ticks →
      ∀ m ∈ s.sent, ∀ x, x ∈ m.added ∨ x ∈ m.dropped → otherIpIsLocal x.ip = false) ↔
      ∀ l ∈ lives, ∀ x ∈ l, otherIpIsLocal x.ip = false := by
  have hfilter (x : SocketAddr) : filter peer x = true ↔ otherIpIsLocal x.ip = false := by
    simp [filter, hpeer]
  constructor
  · intro h l hl x hx
    by_contra hloc
    have hf : filter peer x = false := by
      rw [Bool.eq_false_iff, Ne, hfilter]
      exact hloc
    obtain ⟨ticks, s, before, m, hr, hsee, hsent, hm⟩ := exists_run_leaks hl hx hf
    have hmem : m ∈ s.sent := by
      rw [hsent]
      exact List.mem_append_right _ (List.mem_singleton_self m)
    exact hloc (h ticks s hr hsee m hmem x (Or.inl hm))
  · intro hlive ticks s hr hsee
    have hinv : Sound peer s ∧
        ∀ m ∈ s.sent, ∀ x, x ∈ m.added ∨ x ∈ m.dropped → otherIpIsLocal x.ip = false := by
      refine run_inv (fun s => Sound peer s ∧ ∀ m ∈ s.sent, ∀ x, x ∈ m.added ∨ x ∈ m.dropped →
        otherIpIsLocal x.ip = false) ⟨start_sound, by simp [start]⟩ ?_ hr hsee
      rintro s₁ t s₂ ⟨hsound, hpriv⟩ hmem hs
      refine ⟨hsound.step hs, ?_⟩
      obtain ⟨-, -, hview, ⟨rfl, -, -⟩ | rfl⟩ := step_cases hs
      · exact hpriv
      intro m hm x hx
      rcases List.mem_append.1 hm with hold | hnew
      · exact hpriv m hold x hx
      obtain rfl := List.mem_singleton.1 hnew
      rcases hx with hadd | hdrop
      · exact hlive _ hmem x (List.mem_toFinset.2 (mem_connected hadd).1)
      · -- what is dropped was in the view, and the view is filtered
        have hv := List.mem_toFinset.2 (mem_dropped hdrop).1
        rw [hview] at hv
        exact (hfilter x).1 (hsound.view x hv)
    exact hinv.2

/-- Public peers only. -/
theorem publicPeer_told_public : peerIpNonLocal publicPeer.ip = true ∧
    ∀ ticks s, Run (step publicPeer) Any start ticks s → Sees [{publicPeer}, ∅] ticks →
      ∀ m ∈ s.sent, ∀ x, x ∈ m.added ∨ x ∈ m.dropped → otherIpIsLocal x.ip = false :=
  ⟨by decide, (private_iff_no_local publicPeer (by decide) [{publicPeer}, ∅]).2 (by decide)⟩

/-- A public peer is told the address of a peer of the local network. -/
theorem publicPeer_told_lanPeer : peerIpNonLocal publicPeer.ip = true ∧
    otherIpIsLocal lanPeer.ip = true ∧ ∃ s, Run (step publicPeer) Any start lanTicks s ∧
      ∃ m ∈ s.sent, lanPeer ∈ m.added := by
  have hex : exec (step publicPeer) Any start lanTicks =
      some ⟨∅, [⟨[lanPeer], []⟩, ⟨[lanPeer], []⟩]⟩ := by decide +kernel
  exact ⟨by decide, by decide, _, Run.of_exec hex, _, List.mem_cons_self, List.mem_singleton_self _⟩

end Pex

end Rtbit
