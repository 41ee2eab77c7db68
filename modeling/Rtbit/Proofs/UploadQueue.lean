import Rtbit.Lib.Runs
import Rtbit.Lib.Values
import Rtbit.Spec.UploadQueue

/-! Uploads in order. All requests of a torrent wait in one queue, but those of one connection are
taken, scheduled and written in the order in which they came. What was asked for on a connection
is at each time what it has been sent, what its writer has, and what waits for the scheduler, one
after the other. -/

namespace Rtbit

open Lib

namespace UploadQueue

namespace WriterRequest

/-- The answer that it comes to. -/
def answer : WriterRequest → Option PieceMsg
  | .readChunkRequest chunk => some (pieceOf chunk)
  | .message => none

end WriterRequest

namespace Connection

/-- What has been sent and what the writer has. -/
def served (conn : Connection) : List PieceMsg :=
  conn.sent ++ (conn.writing.toList.map pieceOf ++
    (conn.outgoingChan.getD []).filterMap WriterRequest.answer)

def sentBytes (conn : Connection) : ℕ := (conn.sent.map PieceMsg.len).sum

end Connection

/-- What of the queue is for the connection. -/
def ofConn (c : ℕ) (queue : List (ℕ × ChunkInfo)) : List PieceMsg :=
  queue.filterMap fun x => if x.1 = c then some (pieceOf x.2) else none

/-- What the scheduler holds for the connection. -/
def SchedulerStage.held (c : ℕ) : SchedulerStage → List PieceMsg
  | .acquire _ c' chunk | .send c' chunk => ofConn c [(c', chunk)]
  | .recv | .ended => []

/-- What the connection waits for the scheduler with. -/
def Uploads.waiting (s : Uploads) (c : ℕ) : List PieceMsg :=
  s.scheduler.held c ++ ofConn c s.queue

variable {l : Lengths} {s s' : Uploads} {conn conn' : Connection} {c c' : ℕ} {chunk : ChunkInfo}
  {request : PieceMsg} {queue : List (ℕ × ChunkInfo)} {w : List PieceMsg} {p q : Prop}

@[simp] theorem ofConn_nil (c : ℕ) : ofConn c [] = [] := rfl

theorem ofConn_append (c : ℕ) (queue queue' : List (ℕ × ChunkInfo)) :
    ofConn c (queue ++ queue') = ofConn c queue ++ ofConn c queue' := List.filterMap_append

theorem ofConn_cons (c : ℕ) (x : ℕ × ChunkInfo) (queue : List (ℕ × ChunkInfo)) :
    ofConn c (x :: queue) = ofConn c [x] ++ ofConn c queue := ofConn_append c [x] queue

@[simp] theorem ofConn_self (c : ℕ) (chunk : ChunkInfo) :
    ofConn c [(c, chunk)] = [pieceOf chunk] := by
  simp [ofConn]

theorem ofConn_ne (h : c' ≠ c) (chunk : ChunkInfo) : ofConn c [(c', chunk)] = [] := by
  simp [ofConn, h]

/-- A request is answered with what it asks for. -/
theorem pieceOf_requested (h : Uploads.requested l request = some chunk) :
    pieceOf chunk = request := by
  obtain ⟨p, hp, hchunk⟩ := Option.bind_eq_some_iff.1 h
  obtain ⟨hmem, hoffset, hsize⟩ := (l.received_iff p p.isLt _ _ _).1 hchunk
  have hpiece : chunk.pieceIndex = request.index := by
    rw [l.validatePieceIndex_eq_some.1 hp]
    exact l.pieceIndex_iter p p.isLt chunk hmem
  rw [pieceOf, hpiece, hoffset, hsize]

/-- What holds of a connection for which `w` waits; `p`: the scheduler has ended. -/
structure Fits (p : Prop) (w : List PieceMsg) (conn : Connection) : Prop where
  sent : conn.sent <+: conn.accepted
  served : conn.isOpen = true → conn.served <+: conn.accepted
  all : conn.isOpen = true → ¬p → conn.served ++ w = conn.accepted

theorem Fits.of_open (hserved : conn.served <+: conn.accepted)
    (h : ¬p → conn.served ++ w = conn.accepted) : Fits p w conn :=
  ⟨(List.prefix_append _ _).trans hserved, fun _ => hserved, fun _ => h⟩

theorem Fits.of_closed (h : conn.sent <+: conn.accepted) (hclosed : conn.isOpen = false) :
    Fits p w conn := by
  refine ⟨h, fun ho => ?_, fun ho => ?_⟩ <;> rw [hclosed] at ho <;> cases ho

theorem Fits.close (h : Fits p w conn) : Fits p w conn.close := Fits.of_closed h.sent rfl

/-- The scheduler has ended. -/
theorem Fits.lost (h : Fits p w conn) (hq : q) (w' : List PieceMsg) : Fits q w' conn :=
  ⟨h.sent, h.served, fun _ hn => absurd hq hn⟩

/-- The scheduler runs, and goes on. -/
theorem Fits.live (h : Fits p w conn) (hp : ¬p) : Fits q w conn :=
  ⟨h.sent, h.served, fun ho _ => h.all ho hp⟩

/-! A connection goes on. -/

theorem served_written (h : conn.writing = some chunk) :
    Connection.served { conn with writing := none, sent := conn.sent ++ [pieceOf chunk] } =
      conn.served := by
  simp [Connection.served, h]

theorem served_recv_message {rest : List WriterRequest} (hw : conn.writing = none)
    (h : conn.outgoingChan = some (.message :: rest)) :
    Connection.served { conn with outgoingChan := some rest } = conn.served := by
  simp [Connection.served, hw, h, List.filterMap_cons, WriterRequest.answer]

theorem served_recv_chunk {rest : List WriterRequest} (hw : conn.writing = none)
    (h : conn.outgoingChan = some (.readChunkRequest chunk :: rest)) :
    Connection.served { conn with outgoingChan := some rest, writing := some chunk } =
      conn.served := by
  simp [Connection.served, hw, h, WriterRequest.answer]

theorem served_send (ho : conn.isOpen = true) (r : WriterRequest) :
    (conn.send r).served = conn.served ++ r.answer.toList := by
  obtain ⟨chan, hchan⟩ := Option.isSome_iff_exists.1 ho
  cases r <;>
    simp [Connection.served, Connection.send, hchan, List.filterMap_append, List.filterMap_cons,
      WriterRequest.answer]

theorem isOpen_send (conn : Connection) (r : WriterRequest) : (conn.send r).isOpen = conn.isOpen :=
  Option.isSome_map

/-- Nothing is sent, accepted or waited for. -/
theorem Fits.same (h : Fits p w conn) (hsent : conn'.sent <+: conn.accepted)
    (haccepted : conn'.accepted = conn.accepted) (ho : conn'.isOpen = conn.isOpen)
    (hserved : conn.isOpen = true → conn'.served = conn.served) : Fits p w conn' := by
  constructor
  case sent => rw [haccepted]; exact hsent
  case served =>
    intro hopen
    rw [ho] at hopen
    rw [haccepted, hserved hopen]
    exact h.served hopen
  case all =>
    intro hopen hp
    rw [ho] at hopen
    rw [haccepted, hserved hopen]
    exact h.all hopen hp

/-- A request is accepted; it waits at the end of the queue. -/
theorem Fits.accept (h : Fits p w conn) (ho : conn.isOpen = true) (hp : ¬p) (piece : PieceMsg) :
    Fits p (w ++ [piece]) { conn with accepted := conn.accepted ++ [piece] } := by
  constructor
  case sent => exact h.sent.trans (List.prefix_append _ _)
  case served => exact fun _ => (h.served ho).trans (List.prefix_append _ _)
  case all =>
    intro _ _
    have hall := h.all ho hp
    change conn.served ++ (w ++ [piece]) = conn.accepted ++ [piece]
    rw [← List.append_assoc, hall]

/-- What has waited longest goes into the queue of the writer. -/
theorem Fits.send (h : Fits p (pieceOf chunk :: w) conn) (hp : ¬p) :
    Fits p w (conn.send (.readChunkRequest chunk)) := by
  by_cases ho : conn.isOpen = true
  · have hall : conn.served ++ pieceOf chunk :: w = conn.accepted := h.all ho hp
    have hserved := served_send ho (.readChunkRequest chunk)
    have heq : (conn.send (.readChunkRequest chunk)).served ++ w = conn.accepted := by
      rw [hserved, List.append_assoc]
      exact hall
    exact Fits.of_open ⟨w, heq⟩ fun _ => heq
  · have hclosed : conn.isOpen = false := Bool.eq_false_iff.2 ho
    exact Fits.of_closed h.sent ((isOpen_send conn _).trans hclosed)

/-! The counters. -/

/-- What the connections with these counters have been sent. -/
def bytesTo (conns : List Connection) (p : ℕ → Bool) : ℕ :=
  (conns.map fun conn => if p conn.counters then conn.sentBytes else 0).sum

structure Counted (s : Uploads) : Prop where
  uploaded : s.uploadedBytes = bytesTo s.conns fun _ => true
  peer : ∀ k, s.peerBytes k = bytesTo s.conns (· == k)

variable {conns : List Connection}

theorem bytesTo_set (conn' : Connection) (hc : conns[c]? = some conn)
    (hk : conn'.counters = conn.counters) (p : ℕ → Bool) :
    bytesTo (conns.set c conn') p + (if p conn.counters then conn.sentBytes else 0) =
      bytesTo conns p + (if p conn.counters then conn'.sentBytes else 0) := by
  have hset := sum_map_set (y := conn')
    (fun conn : Connection => if p conn.counters then conn.sentBytes else 0) hc
  rw [hk] at hset
  exact hset

theorem bytesTo_set_same (hc : conns[c]? = some conn) (hk : conn'.counters = conn.counters)
    (hsent : conn'.sent = conn.sent) (p : ℕ → Bool) :
    bytesTo (conns.set c conn') p = bytesTo conns p := by
  have hset := bytesTo_set conn' hc hk p
  rw [Connection.sentBytes, Connection.sentBytes, hsent] at hset
  omega

theorem bytesTo_append (conns : List Connection) (counters : ℕ) (p : ℕ → Bool) :
    bytesTo (conns ++ [.new counters]) p = bytesTo conns p := by
  simp [bytesTo, Connection.new, Connection.sentBytes]

theorem bytesTo_send (conns : List Connection) (c : ℕ) (r : WriterRequest) (p : ℕ → Bool) :
    bytesTo (conns.modify c (·.send r)) p = bytesTo conns p := by
  have hmap : (conns.modify c (·.send r)).map (fun conn =>
      if p conn.counters then conn.sentBytes else 0) =
        conns.map fun conn => if p conn.counters then conn.sentBytes else 0 := by
    apply List.ext_getElem?
    intro i
    rw [List.getElem?_map, List.getElem?_map, List.getElem?_modify]
    cases conns[i]? with
    | none => rfl
    | some conn => by_cases hi : c = i <;> simp [hi, Connection.send, Connection.sentBytes]
  rw [bytesTo, hmap, bytesTo]

theorem Counted.setConn (h : Counted s) (hc : s.conns[c]? = some conn)
    (hk : conn'.counters = conn.counters) (hsent : conn'.sent = conn.sent) :
    Counted (s.setConn c conn') := by
  constructor
  case uploaded => exact h.uploaded.trans (bytesTo_set_same hc hk hsent _).symm
  case peer => exact fun k => (h.peer k).trans (bytesTo_set_same hc hk hsent _).symm

theorem sentBytes_written (conn : Connection) (chunk : ChunkInfo) :
    Connection.sentBytes { conn with writing := none, sent := conn.sent ++ [pieceOf chunk] } =
      conn.sentBytes + chunk.size := by
  simp [Connection.sentBytes, pieceOf]

theorem Counted.written (h : Counted s) (hc : s.conns[c]? = some conn) (chunk : ChunkInfo) :
    Counted ((s.setConn c { conn with
      writing := none, sent := conn.sent ++ [pieceOf chunk] }).onUploadedBytes
        conn.counters chunk.size) := by
  have hset :=
    bytesTo_set { conn with writing := none, sent := conn.sent ++ [pieceOf chunk] } hc rfl
  simp only [sentBytes_written] at hset
  constructor
  case uploaded =>
    have hall := hset fun _ => true
    rw [if_pos rfl, if_pos rfl] at hall
    have hbytes := h.uploaded
    change s.uploadedBytes + chunk.size = bytesTo (s.conns.set c _) fun _ => true
    omega
  case peer =>
    intro k
    have hof := hset (· == k)
    have hbytes := h.peer k
    change Function.update s.peerBytes conn.counters (s.peerBytes conn.counters + chunk.size) k =
      bytesTo (s.conns.set c _) (· == k)
    by_cases hk : k = conn.counters
    · subst hk
      rw [Function.update_self]
      rw [if_pos (beq_self_eq_true _), if_pos (beq_self_eq_true _)] at hof
      omega
    · rw [Function.update_of_ne hk]
      have hne : (conn.counters == k) = false := beq_eq_false_iff_ne.2 fun he => hk he.symm
      rw [hne, if_neg Bool.false_ne_true, if_neg Bool.false_ne_true] at hof
      omega

/-! The invariant. -/

structure Inv (s : Uploads) : Prop where
  fits : ∀ c conn, s.conns[c]? = some conn → Fits (s.scheduler = .ended) (s.waiting c) conn
  /-- Requests come from connections. -/
  known : ∀ c, s.conns.length ≤ c → s.waiting c = []
  counted : Counted s

theorem Inv.start : Inv .start := by
  constructor
  case fits => intro c conn hc; cases hc
  case known => exact fun _ _ => rfl
  case counted => exact ⟨rfl, fun _ => rfl⟩

theorem Inv.connect (h : Inv s) (counters : ℕ) :
    Inv { s with conns := s.conns ++ [.new counters] } := by
  constructor
  case fits =>
    intro c conn hc
    obtain hold | ⟨rfl, rfl⟩ := get_append hc
    · exact h.fits c conn hold
    · exact Fits.of_open List.prefix_rfl fun _ => h.known _ le_rfl
  case known =>
    intro c hc
    rw [List.length_append] at hc
    exact h.known c (Nat.le_of_add_right_le hc)
  case counted =>
    exact ⟨h.counted.uploaded.trans (bytesTo_append _ _ _).symm,
      fun k => (h.counted.peer k).trans (bytesTo_append _ _ _).symm⟩

/-- Only the connection `c` goes on. -/
theorem Inv.fits_setConn (h : Inv s) (hfits : Fits (s.scheduler = .ended) (s.waiting c) conn')
    (i : ℕ) (conn₁ : Connection) (hi : (s.setConn c conn').conns[i]? = some conn₁) :
    Fits (s.scheduler = .ended) (s.waiting i) conn₁ := by
  obtain ⟨rfl, rfl⟩ | ⟨-, hold⟩ := get_set hi
  · exact hfits
  · exact h.fits i conn₁ hold

theorem length_setConn (s : Uploads) (c : ℕ) (conn : Connection) :
    (s.setConn c conn).conns.length = s.conns.length := List.length_set

theorem Inv.setConn (h : Inv s) (hc : s.conns[c]? = some conn)
    (hk : conn'.counters = conn.counters) (hsent : conn'.sent = conn.sent)
    (hfits : Fits (s.scheduler = .ended) (s.waiting c) conn') : Inv (s.setConn c conn') := by
  constructor
  case fits => exact h.fits_setConn hfits
  case known =>
    intro i hi
    rw [length_setConn] at hi
    exact h.known i hi
  case counted => exact h.counted.setConn hc hk hsent

theorem Inv.close (h : Inv s) (hc : s.conns[c]? = some conn) : Inv (s.setConn c conn.close) :=
  h.setConn hc rfl rfl (h.fits c conn hc).close

theorem waiting_accept (s : Uploads) (c : ℕ) (conn : Connection) (chunk : ChunkInfo) (i : ℕ) :
    ({ s.setConn c conn with queue := s.queue ++ [(c, chunk)] } : Uploads).waiting i =
      s.waiting i ++ ofConn i [(c, chunk)] := by
  rw [Uploads.waiting, Uploads.waiting, List.append_assoc, ofConn_append]
  rfl

theorem Inv.onDownloadRequest (h : Inv s) (hc : s.conns[c]? = some conn)
    (ho : conn.isOpen = true) (request : PieceMsg) (ready : Bool) :
    Inv (s.onDownloadRequest l c request ready conn) := by
  unfold Uploads.onDownloadRequest
  split
  case h_1 => exact h.close hc
  case h_2 chunk hreq =>
    split_ifs with hready
    case neg => exact h.close hc
    case pos =>
      have hp : ¬s.scheduler = .ended := by simpa using (Bool.and_eq_true_iff.1 hready).2
      have hlt : c < s.conns.length := (List.getElem?_eq_some_iff.1 hc).1
      constructor
      case fits =>
        intro i conn₁ hi
        rw [waiting_accept]
        obtain ⟨rfl, rfl⟩ | ⟨hne, hold⟩ := get_set hi
        · rw [ofConn_self, pieceOf_requested hreq]
          exact (h.fits i conn hc).accept ho hp request
        · rw [ofConn_ne (Ne.symm hne), List.append_nil]
          exact h.fits i conn₁ hold
      case known =>
        intro i hi
        have hle : s.conns.length ≤ i := (length_setConn s c _).symm.trans_le hi
        rw [waiting_accept, ofConn_ne (by omega), List.append_nil]
        exact h.known i hle
      case counted =>
        have hcounted : Counted (s.setConn c { conn with
            accepted := conn.accepted ++ [request] }) := h.counted.setConn hc rfl rfl
        exact ⟨hcounted.uploaded, hcounted.peer⟩

/-- The scheduler goes on, and the connections do not see it. -/
theorem Inv.moves (h : Inv s) (queue : List (ℕ × ChunkInfo)) (stage : SchedulerStage)
    (hlive : stage = .ended ↔ s.scheduler = .ended)
    (hwaiting : ∀ i, stage.held i ++ ofConn i queue = s.waiting i) :
    Inv { s with queue := queue, scheduler := stage } := by
  constructor
  case fits =>
    intro i conn hi
    change Fits (stage = .ended) (stage.held i ++ ofConn i queue) conn
    rw [hwaiting, hlive]
    exact h.fits i conn hi
  case known => exact fun i hi => (hwaiting i).trans (h.known i hi)
  case counted => exact ⟨h.counted.uploaded, h.counted.peer⟩

theorem Inv.ends (h : Inv s) : Inv { s with scheduler := .ended } := by
  constructor
  case fits => exact fun i conn hi => (h.fits i conn hi).lost rfl _
  case known => exact fun i hi => (List.append_eq_nil_iff.1 (h.known i hi)).2
  case counted => exact ⟨h.counted.uploaded, h.counted.peer⟩

theorem waiting_held {level : Level} (hst : s.scheduler = .acquire level c chunk) (i : ℕ) :
    s.waiting i = ofConn i [(c, chunk)] ++ ofConn i s.queue := by
  rw [Uploads.waiting, hst]
  rfl

/-- The connection of the request has ended: it is dropped. -/
theorem Inv.drops {level : Level} (h : Inv s) (hst : s.scheduler = .acquire level c chunk)
    (hclosed : (s.conns[c]?).any Connection.isOpen = false) :
    Inv { s with scheduler := .recv } := by
  have hlive : ¬s.scheduler = .ended := by simp [hst]
  constructor
  case fits =>
    intro i conn hi
    have hold := h.fits i conn hi
    by_cases hci : c = i
    · subst hci
      rw [hi] at hclosed
      exact Fits.of_closed hold.sent hclosed
    · rw [waiting_held hst, ofConn_ne hci] at hold
      exact hold.live hlive
  case known =>
    intro i hi
    have hnone := h.known i hi
    rw [waiting_held hst] at hnone
    exact (List.append_eq_nil_iff.1 hnone).2
  case counted => exact ⟨h.counted.uploaded, h.counted.peer⟩

theorem Inv.sends (h : Inv s) (hst : s.scheduler = .send c chunk) :
    Inv { s with
      scheduler := .recv
      conns := s.conns.modify c (·.send (.readChunkRequest chunk)) } := by
  have hlive : ¬s.scheduler = .ended := by simp [hst]
  have hwaiting : ∀ i, s.waiting i = ofConn i [(c, chunk)] ++ ofConn i s.queue := by
    intro i
    rw [Uploads.waiting, hst]
    rfl
  constructor
  case fits =>
    intro i conn hi
    rw [List.getElem?_modify] at hi
    obtain ⟨conn₀, hold, rfl⟩ := Option.map_eq_some_iff.1 hi
    have hfits := h.fits i conn₀ hold
    rw [hwaiting] at hfits
    by_cases hci : c = i
    · subst hci
      rw [ofConn_self] at hfits
      rw [if_pos rfl]
      exact (hfits.send hlive).live hlive
    · rw [ofConn_ne hci] at hfits
      rw [if_neg hci]
      exact hfits.live hlive
  case known =>
    intro i hi
    have hnone := h.known i (by simpa using hi)
    rw [hwaiting] at hnone
    exact (List.append_eq_nil_iff.1 hnone).2
  case counted =>
    exact ⟨h.counted.uploaded.trans (bytesTo_send _ _ _ _).symm,
      fun k => (h.counted.peer k).trans (bytesTo_send _ _ _ _).symm⟩

theorem Inv.schedule {a : Awaited} (h : Inv s) (hs : s.schedule s.scheduler a = some s') :
    Inv s' := by
  cases hst : s.scheduler with
  | recv =>
    rw [hst] at hs
    cases a with
    | ready =>
      cases hq : s.queue with
      | nil => rw [Uploads.schedule, hq] at hs; cases hs
      | cons x rest =>
        rw [Uploads.schedule, hq] at hs
        cases hs
        refine h.moves rest (.acquire .torrent x.1 x.2) (by simp [hst]) fun i => ?_
        rw [Uploads.waiting, hst, hq, ofConn_cons]
        rfl
    | failed => cases hs; exact h.ends
    | closed => cases hs
    | sessionGone => cases hs
  | acquire level c chunk =>
    have hmoves : ∀ stage : SchedulerStage, stage ≠ .ended →
        (∀ i, stage.held i = ofConn i [(c, chunk)]) → Inv { s with scheduler := stage } := by
      intro stage hne hheld
      refine h.moves s.queue stage (by simp [hst, hne]) fun i => ?_
      rw [hheld, waiting_held hst]
    rw [hst] at hs
    cases a with
    | ready =>
      cases level with
      | torrent => cases hs; exact hmoves _ (fun hends => by cases hends) fun i => rfl
      | session => cases hs; exact hmoves _ (fun hends => by cases hends) fun i => rfl
    | sessionGone =>
      cases level with
      | torrent => cases hs
      | session => cases hs; exact hmoves _ (fun hends => by cases hends) fun i => rfl
    | closed =>
      simp only [Uploads.schedule] at hs
      split_ifs at hs with hopen
      cases hs
      exact h.drops hst (Bool.eq_false_iff.2 hopen)
    | failed => cases level <;> cases hs <;> exact h.ends
  | send c chunk =>
    rw [hst] at hs
    cases a with
    | ready => cases hs; exact h.sends hst
    | failed => cases hs
    | closed => cases hs
    | sessionGone => cases hs
  | ended =>
    rw [hst] at hs
    cases a <;> cases hs

theorem opened_eq_some : s.opened c = some conn ↔ s.conns[c]? = some conn ∧ conn.isOpen = true :=
  Option.filter_eq_some_iff

theorem Inv.writerRecv (h : Inv s) (hc : s.conns[c]? = some conn)
    (hs : s.writerRecv c conn = some s') : Inv s' := by
  have hfits := h.fits c conn hc
  unfold Uploads.writerRecv at hs
  split at hs
  case h_1 rest hw hchan =>
    cases hs
    exact h.setConn hc rfl rfl (hfits.same hfits.sent rfl (by simp [Connection.isOpen, hchan])
      fun _ => served_recv_message hw hchan)
  case h_2 chunk rest hw hchan =>
    cases hs
    exact h.setConn hc rfl rfl (hfits.same hfits.sent rfl (by simp [Connection.isOpen, hchan])
      fun _ => served_recv_chunk hw hchan)
  case h_3 => cases hs

theorem Inv.written (h : Inv s) (hc : s.conns[c]? = some conn) (ho : conn.isOpen = true)
    (hs : s.written c conn = some s') : Inv s' := by
  obtain ⟨chunk, hw, rfl⟩ := Option.map_eq_some_iff.1 hs
  have hfits := h.fits c conn hc
  have hserved := served_written hw
  have hsent : conn.sent ++ [pieceOf chunk] <+: conn.accepted := by
    refine List.IsPrefix.trans ?_ (hfits.served ho)
    rw [← hserved]
    exact List.prefix_append _ _
  have hfits' : Fits (s.scheduler = .ended) (s.waiting c)
      { conn with writing := none, sent := conn.sent ++ [pieceOf chunk] } :=
    hfits.same hsent rfl rfl fun _ => hserved
  constructor
  case fits => exact h.fits_setConn hfits'
  case known =>
    intro i hi
    exact h.known i ((length_setConn s c _).symm.trans_le hi)
  case counted => exact h.counted.written hc chunk

theorem Inv.step {e : UploadEvent} (h : Inv s) (hs : s.step l e = some s') : Inv s' := by
  cases e with
  | connect counters => cases hs; exact h.connect counters
  | onDownloadRequest c request ready =>
    obtain ⟨conn, hopened, rfl⟩ := Option.map_eq_some_iff.1 hs
    obtain ⟨hc, ho⟩ := opened_eq_some.1 hopened
    exact h.onDownloadRequest hc ho request ready
  | schedule a => exact h.schedule hs
  | push c =>
    obtain ⟨conn, hopened, rfl⟩ := Option.map_eq_some_iff.1 hs
    obtain ⟨hc, ho⟩ := opened_eq_some.1 hopened
    have hfits := h.fits c conn hc
    refine h.setConn hc rfl rfl (hfits.same hfits.sent rfl (isOpen_send conn _) fun _ => ?_)
    rw [served_send ho]
    exact List.append_nil _
  | recv c =>
    obtain ⟨conn, hopened, hs⟩ := Option.bind_eq_some_iff.1 hs
    exact h.writerRecv (opened_eq_some.1 hopened).1 hs
  | written c =>
    obtain ⟨conn, hopened, hs⟩ := Option.bind_eq_some_iff.1 hs
    obtain ⟨hc, ho⟩ := opened_eq_some.1 hopened
    exact h.written hc ho hs
  | close c =>
    obtain ⟨conn, hopened, rfl⟩ := Option.map_eq_some_iff.1 hs
    exact h.close (opened_eq_some.1 hopened).1

/-! What was asked for. -/

/-- The requests that came on the connection. -/
def asked (c : ℕ) (evs : List UploadEvent) : List PieceMsg :=
  evs.filterMap fun
    | .onDownloadRequest c' request _ => if c' = c then some request else none
    | _ => none

theorem asked_append (c : ℕ) (evs evs' : List UploadEvent) :
    asked c (evs ++ evs') = asked c evs ++ asked c evs' := List.filterMap_append

@[simp] theorem asked_self (c : ℕ) (request : PieceMsg) (ready : Bool) :
    asked c [.onDownloadRequest c request ready] = [request] := by
  simp [asked]

theorem asked_ne (h : c' ≠ c) (request : PieceMsg) (ready : Bool) :
    asked c [.onDownloadRequest c' request ready] = [] := by
  simp [asked, h]

/-- A connection in a step that brings it the requests `new`. -/
structure Goes (new : List PieceMsg) (conn conn' : Connection) : Prop where
  accepted : conn'.accepted = conn.accepted ∨
    conn.isOpen = true ∧ conn'.accepted = conn.accepted ++ new
  opened : conn'.isOpen = true → conn.isOpen = true ∧ conn'.accepted = conn.accepted ++ new

theorem Goes.same (haccepted : conn'.accepted = conn.accepted) (ho : conn'.isOpen = conn.isOpen) :
    Goes [] conn conn' :=
  ⟨Or.inl haccepted, fun h => ⟨ho.symm.trans h, by rw [haccepted, List.append_nil]⟩⟩

theorem Goes.close (new : List PieceMsg) (conn : Connection) : Goes new conn conn.close :=
  ⟨Or.inl rfl, fun h => by cases h⟩

/-- Every connection after a step that brings the requests `new i` to the connection `i`. -/
def AllGo (new : ℕ → List PieceMsg) (s s' : Uploads) : Prop :=
  ∀ (i : ℕ) (conn' : Connection), s'.conns[i]? = some conn' →
    ∃ conn, s.conns[i]? = some conn ∧ Goes (new i) conn conn'

theorem AllGo.setConn {new : ℕ → List PieceMsg} (conn' : Connection)
    (hc : s.conns[c]? = some conn) (hgoes : Goes (new c) conn conn')
    (hnew : ∀ i, i ≠ c → new i = []) (hconns : s'.conns = s.conns.set c conn') : AllGo new s s' := by
  intro i conn₁ hi
  rw [hconns] at hi
  obtain ⟨rfl, rfl⟩ | ⟨hne, hold⟩ := get_set hi
  · exact ⟨conn, hc, hgoes⟩
  · rw [hnew i hne]
    exact ⟨conn₁, hold, Goes.same rfl rfl⟩

theorem AllGo.rfl_of (hconns : s'.conns = s.conns) : AllGo (fun _ => []) s s' := by
  intro i conn hi
  rw [hconns] at hi
  exact ⟨conn, hi, Goes.same rfl rfl⟩

/-- The scheduler only ever puts something into the queue of a writer. -/
theorem conns_schedule {st : SchedulerStage} {a : Awaited} (hs : s.schedule st a = some s') :
    s'.conns = s.conns ∨ ∃ c r, s'.conns = s.conns.modify c (·.send r) := by
  unfold Uploads.schedule at hs
  split at hs
  case h_1 =>
    split at hs
    · cases hs
    · cases hs; exact Or.inl rfl
  case h_5 =>
    split_ifs at hs
    cases hs
    exact Or.inl rfl
  case h_6 c chunk => cases hs; exact Or.inr ⟨c, .readChunkRequest chunk, rfl⟩
  case h_9 => cases hs
  all_goals
    cases hs
    exact Or.inl rfl

theorem allGo_schedule {st : SchedulerStage} {a : Awaited} (hs : s.schedule st a = some s') :
    AllGo (fun _ => []) s s' := by
  obtain hsame | ⟨c, r, hsend⟩ := conns_schedule hs
  · exact AllGo.rfl_of hsame
  · intro i conn hi
    rw [hsend, List.getElem?_modify] at hi
    obtain ⟨conn₀, hold, rfl⟩ := Option.map_eq_some_iff.1 hi
    refine ⟨conn₀, hold, ?_⟩
    by_cases hci : c = i
    · rw [if_pos hci]
      exact Goes.same rfl (isOpen_send conn₀ _)
    · rw [if_neg hci]
      exact Goes.same rfl rfl

theorem length_schedule {st : SchedulerStage} {a : Awaited} (hs : s.schedule st a = some s') :
    s'.conns.length = s.conns.length := by
  obtain hsame | ⟨c, r, hsend⟩ := conns_schedule hs
  · rw [hsame]
  · rw [hsend, List.length_modify]

theorem allGo_onDownloadRequest (hc : s.conns[c]? = some conn) (ho : conn.isOpen = true)
    (request : PieceMsg) (ready : Bool) :
    AllGo (fun i => asked i [.onDownloadRequest c request ready]) s
      (s.onDownloadRequest l c request ready conn) := by
  have hnew : ∀ i, i ≠ c → asked i [.onDownloadRequest c request ready] = [] :=
    fun i hi => asked_ne (Ne.symm hi) request ready
  unfold Uploads.onDownloadRequest
  split
  case h_1 => exact AllGo.setConn _ hc (Goes.close _ conn) hnew rfl
  case h_2 chunk hreq =>
    split_ifs
    case neg => exact AllGo.setConn _ hc (Goes.close _ conn) hnew rfl
    case pos =>
      refine AllGo.setConn { conn with accepted := conn.accepted ++ [request] } hc ?_ hnew rfl
      rw [asked_self]
      exact ⟨Or.inr ⟨ho, rfl⟩, fun _ => ⟨ho, rfl⟩⟩

/-- The requests that each connection has accepted, after the events `evs`. -/
structure Accepted (evs : List UploadEvent) (s : Uploads) : Prop where
  first : ∀ c conn, s.conns[c]? = some conn → conn.accepted <+: asked c evs
  all : ∀ c conn, s.conns[c]? = some conn → conn.isOpen = true → conn.accepted = asked c evs
  known : ∀ c, s.conns.length ≤ c → asked c evs = []

theorem Accepted.go {evs : List UploadEvent} {e : UploadEvent} (h : Accepted evs s)
    (hgo : AllGo (fun i => asked i [e]) s s') (hlen : s'.conns.length = s.conns.length)
    (hknown : ∀ c, s.conns.length ≤ c → asked c [e] = []) : Accepted (evs ++ [e]) s' := by
  constructor
  case first =>
    intro c conn' hc
    obtain ⟨conn, hold, hgoes⟩ := hgo c conn' hc
    rw [asked_append]
    obtain hsame | ⟨ho, hnew⟩ := hgoes.accepted
    · rw [hsame]
      exact (h.first c conn hold).trans (List.prefix_append _ _)
    · rw [hnew, h.all c conn hold ho]
  case all =>
    intro c conn' hc ho'
    obtain ⟨conn, hold, hgoes⟩ := hgo c conn' hc
    obtain ⟨ho, hnew⟩ := hgoes.opened ho'
    rw [asked_append, hnew, h.all c conn hold ho]
  case known =>
    intro c hc
    rw [hlen] at hc
    rw [asked_append, h.known c hc, hknown c hc, List.append_nil]

theorem Accepted.connect {evs : List UploadEvent} (h : Accepted evs s) (counters : ℕ) :
    Accepted (evs ++ [.connect counters]) { s with conns := s.conns ++ [.new counters] } := by
  have hasked : ∀ c, asked c (evs ++ [.connect counters]) = asked c evs := by
    intro c
    rw [asked_append]
    exact List.append_nil _
  constructor
  case first =>
    intro c conn hc
    rw [hasked]
    obtain hold | ⟨-, rfl⟩ := get_append hc
    · exact h.first c conn hold
    · exact List.nil_prefix
  case all =>
    intro c conn hc ho
    rw [hasked]
    obtain hold | ⟨rfl, rfl⟩ := get_append hc
    · exact h.all c conn hold ho
    · exact (h.known _ le_rfl).symm
  case known =>
    intro c hc
    rw [List.length_append] at hc
    rw [hasked]
    exact h.known c (Nat.le_of_add_right_le hc)

theorem Accepted.setConn {evs : List UploadEvent} {e : UploadEvent} (conn' : Connection)
    (h : Accepted evs s) (hc : s.conns[c]? = some conn) (haccepted : conn'.accepted = conn.accepted)
    (ho : conn'.isOpen = conn.isOpen) (he : ∀ i, asked i [e] = [])
    (hconns : s'.conns = s.conns.set c conn') : Accepted (evs ++ [e]) s' := by
  refine h.go ?_ (by rw [hconns, List.length_set]) fun i _ => he i
  exact AllGo.setConn conn' hc (by rw [he]; exact Goes.same haccepted ho) (fun i _ => he i) hconns

theorem Accepted.step {evs : List UploadEvent} {e : UploadEvent} (h : Accepted evs s)
    (hs : s.step l e = some s') : Accepted (evs ++ [e]) s' := by
  cases e with
  | connect counters => cases hs; exact h.connect counters
  | onDownloadRequest c request ready =>
    obtain ⟨conn, hopened, rfl⟩ := Option.map_eq_some_iff.1 hs
    obtain ⟨hc, ho⟩ := opened_eq_some.1 hopened
    have hlt : c < s.conns.length := (List.getElem?_eq_some_iff.1 hc).1
    refine h.go (allGo_onDownloadRequest hc ho request ready) ?_ fun i hi => asked_ne (by omega) _ _
    unfold Uploads.onDownloadRequest
    split
    · exact length_setConn s c _
    · split_ifs <;> exact length_setConn s c _
  | schedule a => exact h.go (allGo_schedule hs) (length_schedule hs) fun _ _ => rfl
  | push c =>
    obtain ⟨conn, hopened, rfl⟩ := Option.map_eq_some_iff.1 hs
    exact Accepted.setConn (conn.send .message) h (opened_eq_some.1 hopened).1 rfl
      (isOpen_send conn .message) (fun _ => rfl) rfl
  | recv c =>
    obtain ⟨conn, hopened, hs⟩ := Option.bind_eq_some_iff.1 hs
    have hc := (opened_eq_some.1 hopened).1
    unfold Uploads.writerRecv at hs
    split at hs
    case h_1 rest hw hchan =>
      cases hs
      exact Accepted.setConn { conn with outgoingChan := some rest } h hc rfl
        (by simp [Connection.isOpen, hchan]) (fun _ => rfl) rfl
    case h_2 chunk rest hw hchan =>
      cases hs
      exact Accepted.setConn { conn with outgoingChan := some rest, writing := some chunk } h hc rfl
        (by simp [Connection.isOpen, hchan]) (fun _ => rfl) rfl
    case h_3 => cases hs
  | written c =>
    obtain ⟨conn, hopened, hs⟩ := Option.bind_eq_some_iff.1 hs
    obtain ⟨chunk, hw, rfl⟩ := Option.map_eq_some_iff.1 hs
    exact Accepted.setConn { conn with writing := none, sent := conn.sent ++ [pieceOf chunk] } h
      (opened_eq_some.1 hopened).1 rfl rfl (fun _ => rfl) rfl
  | close c =>
    obtain ⟨conn, hopened, rfl⟩ := Option.map_eq_some_iff.1 hs
    have hc := (opened_eq_some.1 hopened).1
    exact h.go (AllGo.setConn _ hc (Goes.close _ conn) (fun _ _ => rfl) rfl)
      (length_setConn s c _) fun _ _ => rfl

theorem Accepted.of_run {evs : List UploadEvent} (h : Run (Uploads.step l) Any .start evs s) :
    Accepted evs s := by
  induction h with
  | nil =>
    constructor
    case first => intro c conn hc; cases hc
    case all => intro c conn hc; cases hc
    case known => exact fun _ _ => rfl
  | snoc _ _ hs ih => exact ih.step hs

/-- In every order of steps, what a connection has been sent is what it asked for first, in the
order in which it asked; while it lasts and the scheduler runs, what it was sent, what its writer
has and what waits in the shared queue are together all that it asked for. The counters are the
bytes that were sent. -/
theorem requests_answered_in_order {l : Lengths} {evs : List UploadEvent} {s : Uploads}
    (h : Run (Uploads.step l) Any .start evs s) :
    (∀ c conn, s.conns[c]? = some conn → conn.sent <+: asked c evs ∧
      (conn.isOpen = true → s.scheduler ≠ .ended → conn.served ++ s.waiting c = asked c evs)) ∧
    s.uploadedBytes = (s.conns.map Connection.sentBytes).sum ∧
    ∀ k, s.peerBytes k =
      (s.conns.map fun conn => if conn.counters = k then conn.sentBytes else 0).sum := by
  have hinv : Inv s := h.inv Inv Inv.start fun _ _ _ hs _ hstep => hs.step hstep
  have haccepted := Accepted.of_run h
  refine ⟨fun c conn hc => ⟨?_, fun ho hlive => ?_⟩, ?_, fun k => ?_⟩
  · exact (hinv.fits c conn hc).sent.trans (haccepted.first c conn hc)
  · rw [← haccepted.all c conn hc ho]
    exact (hinv.fits c conn hc).all ho hlive
  · rw [hinv.counted.uploaded, bytesTo]
    simp only [if_true]
  · rw [hinv.counted.peer k, bytesTo]
    simp only [beq_iff_eq]

/-! Two peers of a torrent of two chunks. -/

def twoChunks : Lengths :=
  Lengths.new (4 + 4) (2 + 2) (by decide) (by decide) (by decide) (by decide)

/-- The first peer asks twice, the other one in between, and an answer is left in each place. -/
def threeRequests : List UploadEvent :=
  [.connect 0, .connect 1, .onDownloadRequest 0 ⟨1, 0, 4⟩ true,
    .onDownloadRequest 1 ⟨0, 0, 4⟩ true, .onDownloadRequest 0 ⟨0, 0, 4⟩ true,
    .schedule .ready, .schedule .ready, .schedule .ready,
    .schedule .ready, .push 0, .schedule .ready, .recv 0, .written 0, .recv 0]

theorem threeRequests_in_order : ∃ s, Run (Uploads.step twoChunks) Any .start threeRequests s ∧
    (∀ c conn, s.conns[c]? = some conn → conn.sent <+: asked c threeRequests) ∧
    s.conns.map Connection.sent = [[⟨1, 0, 4⟩], []] ∧ s.waiting 0 = [⟨0, 0, 4⟩] ∧
    s.waiting 1 = [⟨0, 0, 4⟩] ∧ s.uploadedBytes = 4 := by
  obtain ⟨s, hrun, hs⟩ : ∃ s, Run (Uploads.step twoChunks) Any .start threeRequests s ∧
      decide (s.conns.map Connection.sent = [[⟨1, 0, 4⟩], []] ∧ s.waiting 0 = [⟨0, 0, 4⟩] ∧
        s.waiting 1 = [⟨0, 0, 4⟩] ∧ s.uploadedBytes = 4) = true :=
    Run.exists_of_exec (by decide +kernel)
  have hanswered := requests_answered_in_order hrun
  exact ⟨s, hrun, fun c conn hc => (hanswered.1 c conn hc).1, of_decide_eq_true hs⟩

end UploadQueue

end Rtbit
