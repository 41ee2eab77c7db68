import Mathlib.Tactic

/-! Addresses (`std::net::SocketAddr`), file metadata (`file_info.rs`) and the
wrapping subtraction of the unsigned 64-bit integers. -/

namespace Rtbit

inductive IpAddr where
  | v4 (a : BitVec 32)
  | v6 (a : BitVec 128)
  deriving DecidableEq, Repr

structure SocketAddr where
  ip : IpAddr
  port : ℕ
  deriving DecidableEq, Repr

/-- `type PeerHandle = SocketAddr`. -/
abbrev PeerHandle := SocketAddr

/-- `a - b` in `u64` without overflow checks. -/
def u64Sub (a b : ℕ) : ℕ := (a + 2 ^ 64 - b) % 2 ^ 64

theorem u64Sub_of_le {a b : ℕ} (h : b ≤ a) (ha : a < 2 ^ 64) : u64Sub a b = a - b := by
  unfold u64Sub
  omega

/-- `FileInfo` without its name. `pieceRange` is the half-open range of the pieces
that have a byte of the file. -/
structure FileInfo where
  offsetInTorrent : ℕ
  pieceRange : ℕ × ℕ
  padding : Bool
  len : ℕ
  deriving DecidableEq, Repr

namespace FileInfo

/-- `piece_range.contains(&p)`. -/
def contains (fi : FileInfo) (p : ℕ) : Bool := decide (fi.pieceRange.1 ≤ p ∧ p < fi.pieceRange.2)

/-- First and last piece of the file, then the rest in order. -/
def iterPiecePriorities (fi : FileInfo) : List ℕ :=
  let start := fi.pieceRange.1
  let len := fi.pieceRange.2 - start
  let first := [start]
  let last := [(start + u64Sub len 1) % 2 ^ 64]
  let mid := ((List.range' start len).drop 1).take (u64Sub len 2)
  (first ++ last ++ mid).take len

end FileInfo

end Rtbit
