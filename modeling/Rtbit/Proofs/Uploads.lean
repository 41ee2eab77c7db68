import Rtbit.Proofs.DiskVerified
import Rtbit.Sanity.Exchange

/-! Wrong data is not passed on. Whatever data reaches the nodes from outside, every `Piece`
message they send holds the bytes of the torrent: a request is accepted for a piece that is have,
and its bytes do not change while the request waits. -/

namespace Rtbit

open Lib

namespace Exchange

variable {N : Type} {l : Lengths} {fs : List FileInfo} {B H : Type} [DecidableEq H]
  {ph : PieceHash H} {d : DoubleBufHelper B} {f : ChunkOps.PieceFormat} {s s' : Exchange N l}
  {content : List UInt8}

/-- The step of the node does not overlap another one of it (`DiskWrites.NoOverlap`). -/
def NoOverlap (fs : List FileInfo) (s : Exchange N l) : ExchangeOp N l → Prop
  | .node i op => DiskWrites.NoOverlap fs (s.nodes i) op
  | _ => True

instance (s : Exchange N l) : (op : ExchangeOp N l) → Decidable (NoOverlap fs s op)
  | .node i op => inferInstanceAs (Decidable (DiskWrites.NoOverlap fs (s.nodes i) op))
  | .onDownloadRequest _ _ | .readChunkRequest _ _ | .deliver _ _ _ _ | .receive _ _ _ _ =>
    isTrue trivial

theorem NoOverlap.does {op : ExchangeOp N l} {i : N} {dop : DiskOp l} (h : NoOverlap fs s op)
    (hd : Does s op i dop) : DiskWrites.NoOverlap fs (s.nodes i) dop := by
  cases hd with
  | node i _ => exact h
  | _ => trivial

variable [DecidableEq N]

/-- No node loses a piece. -/
theorem isHave_mono {op : ExchangeOp N l} (hs : Steps fs ph d f s op s') (j : N)
    (p : ValidPieceIndex l) (hp : (s.nodes j).IsHave p) : (s'.nodes j).IsHave p := by
  cases hs with
  | @node _ i dop n hd hn =>
    by_cases hj : j = i
    · subst hj
      simpa [setNode] using hp.step hn
    · simpa [setNode, hj] using hp
  | _ => exact hp

structure Contained (fs : List FileInfo) (content : List UInt8) (s : Exchange N l) : Prop where
  nodes : ∀ i, (s.nodes i).Verified fs content
  uploads : s.UploadsHave
  sent : ∀ x ∈ s.sent, IsGenuine l content x

theorem Contained.step (hl : l.Tiled) (hsum : (fs.map FileInfo.len).sum = l.totalLength)
    (hh : ph.HashesOf l content) {op : ExchangeOp N l} (h : s.Contained fs content)
    (hok : NoOverlap fs s op) (hs : Exchange.step fs ph d f s op = some s') :
    s'.Contained fs content := by
  have hsteps := step_cases hs
  have huploads : s'.UploadsHave := h.uploads.step hl (isHave_mono hsteps) hsteps
  cases hsteps with
  | accepts hc hp => exact ⟨h.nodes, huploads, h.sent⟩
  | fails k writeBuf => exact ⟨h.nodes, huploads, h.sent⟩
  | @sends k writeBuf i c b hk hbuf hb =>
    refine ⟨h.nodes, huploads, ?_⟩
    intro x hx
    rcases List.mem_append.1 hx with hx | hx
    · exact h.sent x hx
    · obtain rfl := List.mem_singleton.1 hx
      obtain ⟨hc, hp⟩ := h.uploads _ (List.mem_of_getElem? hk)
      have hgenuine := (h.nodes i).genuine _ hp
      exact sends_genuine hsum hc (DiskWrites.pieceBytes_eq_iff.1 hgenuine) hbuf hb
  | node hd hn =>
    exact ⟨setNode_nodes h.nodes ((h.nodes _).step hl hsum hh (hok.does hd) hn), huploads, h.sent⟩

/-- A seeder and a node that has nothing. -/
def twoDisks (i : Bool) : Storage := if i then ChunkOps.tenByteDisk else DiskWrites.emptyFiles

def twoHaves (i : Bool) : Bits := if i then somePieces 0 3 else somePieces 0 0

theorem twoHaves_new (i : Bool) : (ChunkTracker.new (l := FileOps.tenBytes) (twoHaves i)
    (somePieces 0 3) FileOps.tenByteFiles).toOption.isSome = true := by
  cases i <;> decide +kernel

def twoTrackers (i : Bool) : ChunkTracker FileOps.tenBytes :=
  (ChunkTracker.new (twoHaves i) (somePieces 0 3) FileOps.tenByteFiles).toOption.get (twoHaves_new i)

theorem new_twoTrackers (i : Bool) :
    ChunkTracker.new (twoHaves i) (somePieces 0 3) FileOps.tenByteFiles = .ok (twoTrackers i) := by
  have hget {r : Except String (ChunkTracker FileOps.tenBytes)} (h : r.toOption.isSome = true) :
      r = .ok (r.toOption.get h) := by
    cases r with
    | error e => cases h
    | ok c => rfl
  exact hget (twoHaves_new i)

/-- The node without pieces is sent a wrong first piece, and the seeder is asked for the second. -/
def poisoned : List (ExchangeOp Bool FileOps.tenBytes) :=
  [.node false (.tracker (.acquire (requestFor _ FileOps.tenByteFiles peerA))),
    .receive false peerA ⟨0, 0, 4⟩ ([9], [9, 9, 9]), .node false (.tracker (.run 0 .check)),
    .node false (.write 0 fun _ _ _ => false), .node false (.tracker (.run 0 (.mark 1))),
    .node false (.tracker (.run 0 .unlock)), .node false (.hashed 0),
    .onDownloadRequest true ⟨1, 0, 4⟩, .readChunkRequest 0 ChunkOps.messageBuffer]

end Exchange

end Rtbit
