import Rtbit.Proofs.ReadMetainfo

/-! The peers of a magnet. The addresses that were consumed while its metadata was read are merged
back into what is left of the stream, so that none is lost to the torrent, and the torrent gets none
that nobody has given. -/

namespace Rtbit

open Lib

namespace Metadata

namespace MagnetPeers

variable {A E I H : Type} {lastElementSize : ℕ → ℕ → ℕ} {sha1 : List UInt8 → H} {infoHash : H}
  {parse : List UInt8 → Except E I} {s s' : MagnetPeers A E I} {e : MagnetEvent A}
  {events : List (MagnetEvent A)}

/-- What the loop has seen of the run. -/
def reads (events : List (MagnetEvent A)) : List (ReadEvent A) :=
  events.filterMap fun
    | .read e => some e
    | _ => none

theorem taken_snoc (b : A) :
    b ∈ taken (events ++ [e]) ↔ b ∈ taken events ∨ given e = some b := by
  rw [taken, List.filterMap_append, List.mem_append]
  exact or_congr_right (by simp)

/-- Every other event leaves to the loop what it has seen. -/
theorem reads_snoc (re : ReadEvent A) : reads (events ++ [.read re]) = reads events ++ [re] :=
  List.filterMap_append

theorem given_read (re : ReadEvent A) (b : A) :
    given (.read re) = some b ↔ b ∈ ReadMetainfo.taken [re] := by
  cases re with
  | nextAddr a => cases a <;> simp [given, ReadMetainfo.taken, eq_comm]
  | acquire i | call i c | result i | connectionEnded i => simp [given, ReadMetainfo.taken]

/-- The magnet is not resolved yet: all that was taken is in `seen`. -/
structure Resolving (sha1 : List UInt8 → H) (infoHash : H) (parse : List UInt8 → Except E I)
    (events : List (MagnetEvent A)) (s : MagnetPeers A E I) : Prop where
  inv : ReadMetainfo.Inv sha1 infoHash parse [] (reads events) s.read
  taken_iff : ∀ a, a ∈ taken events ↔ a ∈ ReadMetainfo.taken (reads events)
  peers : s.peers = ∅

/-- The torrent is added: what was taken is in it, or still to come, and it has no other peers than
these and those of other sources. -/
structure Resolved (sha1 : List UInt8 → H) (infoHash : H) (parse : List UInt8 → Except E I)
    (events : List (MagnetEvent A)) (s : MagnetPeers A E I) (left : List A) : Prop where
  genuine : ∃ info bytes seen, s.read.result = some (.found info bytes seen) ∧
    sha1 bytes = infoHash ∧ parse bytes = .ok info
  kept : ∀ a ∈ taken events, a ∈ left ∨ a ∈ s.peers
  left_taken : ∀ a ∈ left, a ∈ taken events
  peers : ∀ a ∈ s.peers, a ∈ taken events ∨ .otherPeer a ∈ events

def Inv (sha1 : List UInt8 → H) (infoHash : H) (parse : List UInt8 → Except E I)
    (events : List (MagnetEvent A)) (s : MagnetPeers A E I) : Prop :=
  match s.seenPeers with
  | none => Resolving sha1 infoHash parse events s
  | some left => Resolved sha1 infoHash parse events s left

theorem Resolving.inv_of (h : Resolving sha1 infoHash parse events s) (hs : s.seenPeers = none) :
    Inv sha1 infoHash parse events s := by
  unfold Inv
  rw [hs]
  exact h

theorem Resolved.inv_of {left : List A} (h : Resolved sha1 infoHash parse events s left)
    (hs : s.seenPeers = some left) : Inv sha1 infoHash parse events s := by
  unfold Inv
  rw [hs]
  exact h

/-- The end of the stream. -/
theorem Resolved.ended {left : List A} (h : Resolved sha1 infoHash parse events s left)
    (he : given e = none) (hs : s'.read.result = s.read.result) (hpeers : s'.peers = s.peers) :
    Resolved sha1 infoHash parse (events ++ [e]) s' left := by
  have htaken (b : A) : b ∈ taken (events ++ [e]) ↔ b ∈ taken events := by
    rw [taken_snoc, he]
    exact or_iff_left nofun
  constructor
  case genuine =>
    rw [hs]
    exact h.genuine
  case kept =>
    intro b hb
    rw [hpeers]
    exact h.kept b ((htaken b).1 hb)
  case left_taken => exact fun b hb => (htaken b).2 (h.left_taken b hb)
  case peers =>
    intro b hb
    rw [hpeers] at hb
    exact (h.peers b hb).imp (htaken b).2 (List.mem_append_left _)

variable [DecidableEq A]

/-- A peer that is added after the magnet was resolved. -/
theorem Resolved.add {left left' : List A} (h : Resolved sha1 infoHash parse events s left) (a : A)
    (hgiven : ∀ b, given e = some b → b = a)
    (hother : a ∈ left ∨ given e = some a ∨ e = .otherPeer a)
    (hleft : ∀ b, b ∈ left → b = a ∨ b ∈ left') (hsub : ∀ b ∈ left', b ∈ left)
    (hs : s'.read.result = s.read.result) (hpeers : s'.peers = insert a s.peers) :
    Resolved sha1 infoHash parse (events ++ [e]) s' left' := by
  constructor
  case genuine =>
    rw [hs]
    exact h.genuine
  case kept =>
    intro b hb
    rw [hpeers, Finset.mem_insert]
    rcases (taken_snoc b).1 hb with hb | hb
    · rcases h.kept b hb with hl | hp
      · exact (hleft b hl).elim (fun hba => Or.inr (Or.inl hba)) Or.inl
      · exact Or.inr (Or.inr hp)
    · exact Or.inr (Or.inl (hgiven b hb))
  case left_taken => exact fun b hb => (taken_snoc b).2 (Or.inl (h.left_taken b (hsub b hb)))
  case peers =>
    intro b hb
    rw [hpeers, Finset.mem_insert] at hb
    rw [taken_snoc, List.mem_append, List.mem_singleton]
    rcases hb with rfl | hb
    · rcases hother with hl | hg | rfl
      · exact Or.inl (Or.inl (h.left_taken b hl))
      · exact Or.inl (Or.inr hg)
      · exact Or.inr (Or.inr rfl)
    · exact (h.peers b hb).imp Or.inl Or.inl

theorem inv_start : Inv sha1 infoHash parse [] (start : MagnetPeers A E I) :=
  ⟨ReadMetainfo.inv_start [], fun _ => Iff.rfl, rfl⟩

/-- The seen addresses are those that were taken. -/
theorem Resolving.resolved (h : Resolving sha1 infoHash parse events s) {info : I}
    {bytes : List UInt8} {seen : Finset A} {order : List A}
    (hresult : s.read.result = some (.found info bytes seen)) (horder : order.toFinset = seen) :
    Resolved sha1 infoHash parse (events ++ [.resolved order]) { s with seenPeers := some order }
      order := by
  have hret := h.inv.returned
  rw [hresult] at hret
  obtain ⟨hhash, hparse, hseen⟩ := hret
  have hmem (a : A) : a ∈ order ↔ a ∈ taken events := by
    rw [← List.mem_toFinset, horder, hseen, h.inv.seen a, h.taken_iff a]
    exact or_iff_right nofun
  constructor
  case genuine => exact ⟨info, bytes, seen, hresult, hhash, hparse⟩
  case kept =>
    intro a ha
    rcases (taken_snoc a).1 ha with ha | ha
    · exact Or.inl ((hmem a).2 ha)
    · cases ha
  case left_taken => exact fun a ha => (taken_snoc a).2 (Or.inl ((hmem a).1 ha))
  case peers =>
    intro a ha
    change a ∈ s.peers at ha
    rw [h.peers] at ha
    cases ha

section

variable [DecidableEq H]

theorem Resolving.read (hlast : LastElementSize lastElementSize)
    (h : Resolving sha1 infoHash parse events s) {re : ReadEvent A} {r : ReadMetainfo A E I}
    (hr : s.read.step lastElementSize sha1 infoHash parse re = some r) :
    Resolving sha1 infoHash parse (events ++ [.read re]) { s with read := r } := by
  constructor
  case inv =>
    rw [reads_snoc]
    exact h.inv.step hlast hr
  case taken_iff =>
    intro a
    rw [taken_snoc, reads_snoc, ReadMetainfo.taken_append, List.mem_append, h.taken_iff a, given_read]
  case peers => exact h.peers

theorem Inv.step (hlast : LastElementSize lastElementSize) (h : Inv sha1 infoHash parse events s)
    (hs : s.step lastElementSize sha1 infoHash parse e = some s') :
    Inv sha1 infoHash parse (events ++ [e]) s' := by
  unfold Inv at h
  cases hseen : s.seenPeers with
  | none =>
    rw [hseen] at h
    cases e with
    | read re =>
      obtain ⟨r, hr, rfl⟩ := Option.map_eq_some_iff.1 hs
      exact (h.read hlast hr).inv_of hseen
    | resolved order =>
      rw [MagnetPeers.step, hseen] at hs
      split at hs
      · rename_i hresult _
        split_ifs at hs with horder
        cases hs
        exact (h.resolved hresult horder.2).inv_of rfl
      · cases hs
    | nextPeer a =>
      rw [MagnetPeers.step.eq_def, hseen] at hs
      cases hs
    | nextSeen =>
      rw [MagnetPeers.step, hseen] at hs
      cases hs
    | otherPeer a =>
      rw [MagnetPeers.step, hseen] at hs
      cases hs
  | some left =>
    rw [hseen] at h
    obtain ⟨info, bytes, seen, hresult, -⟩ := h.genuine
    cases e with
    | read re =>
      obtain ⟨r, hr, rfl⟩ := Option.map_eq_some_iff.1 hs
      rw [ReadMetainfo.step, hresult] at hr
      cases hr
    | resolved order =>
      rw [MagnetPeers.step, hseen, hresult] at hs
      cases hs
    | nextPeer a =>
      rcases a with _ | a <;> rw [MagnetPeers.step] at hs <;> split_ifs at hs <;> cases hs
      · have hended : Resolved sha1 infoHash parse (events ++ [.nextPeer none])
            { s with read := { s.read with addrsCompleted := true } } left :=
          h.ended rfl rfl rfl
        exact hended.inv_of hseen
      · have hadd : Resolved sha1 infoHash parse (events ++ [.nextPeer (some a)])
            (s.addPeerIfNotSeen a) left :=
          h.add a (fun b hb => (Option.some.inj hb).symm) (Or.inr (Or.inl rfl)) (fun b => Or.inr)
            (fun b => id) rfl rfl
        exact hadd.inv_of hseen
    | nextSeen =>
      rw [MagnetPeers.step, hseen] at hs
      cases left with
      | nil => cases hs
      | cons a rest =>
        cases hs
        have hadd : Resolved sha1 infoHash parse (events ++ [.nextSeen])
            { s.addPeerIfNotSeen a with seenPeers := some rest } rest :=
          h.add a (fun b hb => by cases hb) (Or.inl List.mem_cons_self) (fun b => List.mem_cons.1)
            (fun b => List.mem_cons_of_mem a) rfl rfl
        exact hadd.inv_of rfl
    | otherPeer a =>
      rw [MagnetPeers.step, hseen] at hs
      cases hs
      have hadd : Resolved sha1 infoHash parse (events ++ [.otherPeer a]) (s.addPeerIfNotSeen a)
          left :=
        h.add a (fun b hb => by cases hb) (Or.inr (Or.inr rfl)) (fun b => Or.inr) (fun b => id) rfl rfl
      exact hadd.inv_of hseen

end

/-- One peer goes to the torrent from what was seen and another from what is left of the stream. -/
def resolvedEarly : List (MagnetEvent ℕ) :=
  [.read (.nextAddr (some 1)), .read (.acquire 0), .read (.call 0 offer),
    .read (.call 0 (onePiece 7)), .read (.result 0), .resolved [1], .nextPeer (some 2), .otherPeer 3,
    .nextSeen, .nextPeer none]

end MagnetPeers

end Metadata

end Rtbit
