import Mathlib.Data.List.Basic
import Mathlib.Tactic

/-! Length-prefixed framing of the stream transports: what a sender writes to a
connection and what the reader task at its other end makes of it, wherever the
byte stream is cut. The TCP and the Unix domain socket transport have one wire
format. -/
namespace Daccord
namespace Transport

abbrev Bytes := List UInt8

def maxMessageSize : ℕ := 16 * 1024 * 1024

def toBeBytes (n : ℕ) : Bytes :=
  [.ofNat (n / 2 ^ 24),.ofNat (n / 2 ^ 16),.ofNat (n / 2 ^ 8),.ofNat n]

def fromBeBytes (a b c d : UInt8) : ℕ :=
  a.toNat * 2 ^ 24 + b.toNat * 2 ^ 16 + c.toNat * 2 ^ 8 + d.toNat

inductive TransportError
  | closed
  | other
  deriving DecidableEq, Repr

/-- How the system calls of one `send` go. A write to a connection that the reader
has closed may fail, and it may still go well: what it writes is then in a buffer
of the system. -/
structure Io where
  connects : Bool
  lengthWritten : Bool
  payloadWritten : Bool
  flushed : Bool
  deriving Repr

structure Sender where
  conn : Option Bytes
  deriving DecidableEq, Repr

def Sender.new : Sender := ⟨none⟩

/-- `send` of both transports: connect lazily, write the length and the payload,
flush; a failed write gives the connection up. -/
def Sender.send (io : Io) (s : Sender) (data : Bytes) : Sender × Except TransportError Unit :=
  match s.conn.or (if io.connects then some [] else none) with
  | none => (s,.error .other)
  | some written =>
    -- `data.len() as u32`
    let len := data.length % 2 ^ 32
    if io.lengthWritten = false then (⟨none⟩,.error .closed)
    else if io.payloadWritten = false then (⟨none⟩,.error .closed)
    else if io.flushed = false then (⟨none⟩,.error .closed)
    else (⟨some (written ++ toBeBytes len ++ data)⟩,.ok ())

/-- `reader_task` of both transports on the bytes it gets to read; `room` is the
number of messages after which the receiving end is dropped, if it is. -/
def readFrames (room : Option ℕ) : Bytes → List Bytes
  | a :: b :: c :: d :: rest =>
    let len := fromBeBytes a b c d
    if maxMessageSize < len then []
    else if rest.length < len then []
    else if room = some 0 then []
    else rest.take len :: readFrames (room.map (· - 1)) (rest.drop len)
  | _ => []
termination_by stream => stream.length
decreasing_by simp; omega

/-- `reader_task` closes the connection at a length it does not allow. -/
def refuses : Bytes → Bool
  | a :: b :: c :: d :: rest =>
    let len := fromBeBytes a b c d
    if maxMessageSize < len then true
    else if rest.length < len then false
    else refuses (rest.drop len)
  | _ => false
termination_by stream => stream.length
decreasing_by simp; omega

def TcpSender.send := Sender.send
def UdsSender.send := Sender.send
def TcpReceiver.readerTask := readFrames
def UdsReceiver.readerTask := readFrames

inductive Kind
  | tcp
  | uds

def Kind.send : Kind → Io → Sender → Bytes → Sender × Except TransportError Unit
  | .tcp => TcpSender.send
  | .uds => UdsSender.send

def Kind.readerTask : Kind → Option ℕ → Bytes → List Bytes
  | .tcp => TcpReceiver.readerTask
  | .uds => UdsReceiver.readerTask

/-- The sender after a sequence of calls, if all of them return `Ok`. -/
def Kind.sendAll (kind : Kind) : Sender → List (Io × Bytes) → Option Sender
  | s, [] => some s
  | s, (io,data) :: calls =>
    match kind.send io s data with
    | (s',.ok ()) => sendAll kind s' calls
    | (_,.error _) => none

/-- Where the frame of the `i`th payload ends in the byte stream. -/
def frameEnd (payloads : List Bytes) (i : ℕ) : ℕ :=
  ((payloads.take (i + 1)).map fun p => 4 + p.length).sum

/-! The wire format. -/

def frame (p : Bytes) : Bytes := toBeBytes (p.length % 2 ^ 32) ++ p

def frames (ps : List Bytes) : Bytes := (ps.map frame).flatten

@[simp] theorem frames_nil : frames [] = [] := rfl

@[simp] theorem frames_cons (p : Bytes) (ps : List Bytes) : frames (p :: ps) = frame p ++ frames ps := rfl

@[simp] theorem length_frame (p : Bytes) : (frame p).length = 4 + p.length := by
  simp [frame,toBeBytes]
  omega

theorem fromBeBytes_toBeBytes {n : ℕ} (h : n < 2 ^ 32) :
    fromBeBytes (.ofNat (n / 2 ^ 24)) (.ofNat (n / 2 ^ 16)) (.ofNat (n / 2 ^ 8)) (.ofNat n) = n := by
  simp only [fromBeBytes,UInt8.toNat_ofNat']
  omega

theorem readFrames_frame (room : Option ℕ) (p rest : Bytes) :
    readFrames room (frame p ++ rest) =
      if maxMessageSize < p.length % 2 ^ 32 then []
      else if (p ++ rest).length < p.length % 2 ^ 32 then []
      else if room = some 0 then []
      else (p ++ rest).take (p.length % 2 ^ 32) ::
        readFrames (room.map (· - 1)) ((p ++ rest).drop (p.length % 2 ^ 32)) := by
  have hlen : p.length % 2 ^ 32 < 2 ^ 32 := Nat.mod_lt _ (by norm_num)
  rw [frame,toBeBytes,List.append_assoc]
  simp only [List.cons_append,List.nil_append]
  rw [readFrames,fromBeBytes_toBeBytes hlen]

theorem mod_of_le_max {n : ℕ} (h : n ≤ maxMessageSize) : n % 2 ^ 32 = n := by
  refine Nat.mod_eq_of_lt (h.trans_lt ?_)
  norm_num [maxMessageSize]

theorem readFrames_whole {p : Bytes} (h : p.length ≤ maxMessageSize) (rest : Bytes) :
    readFrames none (frame p ++ rest) = p :: readFrames none rest := by
  rw [readFrames_frame,mod_of_le_max h,if_neg (Nat.not_lt.mpr h),if_neg (by simp)]
  simp

theorem readFrames_short (room : Option ℕ) {stream : Bytes} (h : stream.length < 4) :
    readFrames room stream = [] := by
  match stream with
  | [] | [_] | [_,_] | [_,_,_] => rw [readFrames]; simp
  | _ :: _ :: _ :: _ :: _ =>
    simp only [List.length_cons] at h
    omega

/-- A frame whose end is cut off is not delivered, and nothing after it is. -/
theorem readFrames_cut (room : Option ℕ) {p : Bytes} (h : p.length ≤ maxMessageSize)
    (rest : Bytes) {cut : ℕ} (hcut : cut < 4 + p.length) :
    readFrames room ((frame p ++ rest).take cut) = [] := by
  rw [List.take_append_of_le_length (by simp; omega)]
  by_cases hfour : cut < 4
  · refine readFrames_short room ?_
    rw [List.length_take]
    omega
  · have hlen : p.length % 2 ^ 32 < 2 ^ 32 := Nat.mod_lt _ (by norm_num)
    obtain ⟨k,rfl⟩ := Nat.exists_eq_add_of_le (Nat.not_lt.mp hfour)
    rw [frame,toBeBytes,Nat.add_comm 4 k]
    simp only [List.cons_append,List.nil_append,List.take_succ_cons]
    rw [readFrames,fromBeBytes_toBeBytes hlen,mod_of_le_max h]
    simp only [List.length_take]
    rw [if_neg (Nat.not_lt.mpr h),if_pos (by omega)]

/-- No message above the limit is delivered, whatever the bytes are. -/
theorem readFrames_size (room : Option ℕ) (stream : Bytes) :
    ∀ p ∈ readFrames room stream, p.length ≤ maxMessageSize := by
  induction room, stream using readFrames.induct with
  | case1 room a b c d rest len hsize =>
    rw [readFrames,if_pos hsize]
    exact List.forall_mem_nil _
  | case2 room a b c d rest len hsize hlen =>
    rw [readFrames,if_neg hsize,if_pos hlen]
    exact List.forall_mem_nil _
  | case3 a b c d rest len hsize hlen =>
    rw [readFrames,if_neg hsize,if_neg hlen,if_pos rfl]
    exact List.forall_mem_nil _
  | case4 room a b c d rest len hsize hlen hroom ih =>
    intro p hp
    rw [readFrames,if_neg hsize,if_neg hlen,if_neg hroom] at hp
    rcases List.mem_cons.mp hp with rfl | hp
    · rw [List.length_take]
      exact (min_le_left _ _).trans (Nat.not_lt.mp hsize)
    · exact ih p hp
  | case5 room stream hshort =>
    intro p hp
    rw [readFrames] at hp
    · cases hp
    · exact hshort

theorem frameEnd_zero (p : Bytes) (ps : List Bytes) : frameEnd (p :: ps) 0 = 4 + p.length := by
  simp [frameEnd]

theorem frameEnd_succ (p : Bytes) (ps : List Bytes) (i : ℕ) :
    frameEnd (p :: ps) (i + 1) = 4 + p.length + frameEnd ps i := by
  simp [frameEnd]

/-- The reader delivers the frames that end before the cut. -/
theorem readFrames_take (ps : List Bytes) (h : ∀ p ∈ ps, p.length ≤ maxMessageSize) (cut : ℕ) :
    ∃ k, readFrames none ((frames ps).take cut) = ps.take k ∧
      ∀ i < ps.length, (i < k ↔ frameEnd ps i ≤ cut) := by
  induction ps generalizing cut with
  | nil => exact ⟨0,readFrames_short none (by simp),by simp⟩
  | cons p ps ih =>
    have hp := h p List.mem_cons_self
    by_cases hcut : 4 + p.length ≤ cut
    · obtain ⟨k,hread,hk⟩ := ih (fun q hq => h q (List.mem_cons_of_mem _ hq)) (cut - (4 + p.length))
      refine ⟨k + 1,?_,?_⟩
      · rw [frames_cons,List.take_append,List.take_of_length_le (by simpa using hcut),
          readFrames_whole hp,length_frame,hread,List.take_succ_cons]
      · intro i hi
        cases i with
        | zero => simpa [frameEnd_zero] using hcut
        | succ i =>
          have := hk i (Nat.lt_of_succ_lt_succ hi)
          rw [frameEnd_succ]
          omega
    · refine ⟨0,?_,?_⟩
      · rw [frames_cons,readFrames_cut none hp _ (Nat.not_le.mp hcut),List.take_zero]
      · intro i _
        have : 4 + p.length ≤ frameEnd (p :: ps) i := by
          cases i with
          | zero => rw [frameEnd_zero]
          | succ i => rw [frameEnd_succ]; omega
        omega

/-! Senders. -/

theorem Kind.send_eq (kind : Kind) : kind.send = Sender.send := by
  cases kind <;> rfl

theorem Kind.readerTask_eq (kind : Kind) : kind.readerTask = readFrames := by
  cases kind <;> rfl

/-- A call that returns `Ok` has put one frame behind what was written before. -/
theorem Sender.send_ok {io : Io} {s s' : Sender} {data : Bytes} (h : s.send io data = (s',.ok ())) :
    s'.conn = some (s.conn.getD [] ++ frame data) := by
  unfold Sender.send at h
  split at h
  · cases h
  · rename_i written hconn
    have hwritten : written = s.conn.getD [] := by
      cases hs : s.conn with
      | some w =>
        rw [hs] at hconn
        simpa using hconn.symm
      | none =>
        rw [hs,Option.none_or] at hconn
        split at hconn
        · simpa using hconn.symm
        · cases hconn
    simp only at h
    split at h
    · cases h
    split at h
    · cases h
    split at h
    · cases h
    · obtain rfl := (Prod.mk.inj h).1
      rw [← hwritten,frame,List.append_assoc]

theorem Kind.sendAll_ok {kind : Kind} {s s' : Sender} {calls : List (Io × Bytes)}
    (h : kind.sendAll s calls = some s') :
    s'.conn.getD [] = s.conn.getD [] ++ frames (calls.map Prod.snd) := by
  induction calls generalizing s with
  | nil =>
    cases h
    simp
  | cons call calls ih =>
    obtain ⟨io,data⟩ := call
    rw [Kind.sendAll,kind.send_eq] at h
    split at h
    · rename_i s1 hsend
      rw [ih h,Sender.send_ok hsend]
      simp
    · cases h

theorem frameEnd_le (ps : List Bytes) (i : ℕ) : frameEnd ps i ≤ (frames ps).length := by
  induction ps generalizing i with
  | nil => simp [frameEnd]
  | cons p ps ih =>
    rw [frames_cons,List.length_append,length_frame]
    cases i with
    | zero =>
      rw [frameEnd_zero]
      exact Nat.le_add_right _ _
    | succ i =>
      rw [frameEnd_succ]
      exact Nat.add_le_add_left (ih i) _

/-- Framing is faithful exactly up to the size the reader allows: of payloads that
were all sent on one connection, the reader delivers those whose frame ends before
the cut, in order, and nothing else, wherever the cut is, if and only if none of
them is larger. -/
theorem framing_faithful (kind : Kind) (s s' : Sender) (calls : List (Io × Bytes))
    (hnew : s.conn = none) (hok : kind.sendAll s calls = some s') :
    (∀ c ∈ calls, c.2.length ≤ maxMessageSize) ↔
      ∀ cut, ∃ k, kind.readerTask none ((s'.conn.getD []).take cut) = (calls.map Prod.snd).take k ∧
        ∀ i < calls.length, (i < k ↔ frameEnd (calls.map Prod.snd) i ≤ cut) := by
  have hstream := Kind.sendAll_ok hok
  rw [hnew,Option.getD_none,List.nil_append] at hstream
  rw [hstream,kind.readerTask_eq]
  constructor
  · intro hsize cut
    have hall : ∀ p ∈ calls.map Prod.snd, p.length ≤ maxMessageSize := by
      intro p hp
      obtain ⟨c,hc,rfl⟩ := List.mem_map.mp hp
      exact hsize c hc
    obtain ⟨k,hread,hk⟩ := readFrames_take _ hall cut
    exact ⟨k,hread,fun i hi => hk i (by simpa using hi)⟩
  · intro h c hc
    -- at the end of the stream every payload is due
    obtain ⟨k,hread,hk⟩ := h (frames (calls.map Prod.snd)).length
    obtain ⟨i,hi,hget⟩ := List.getElem_of_mem hc
    have hik : i < k := (hk i hi).mpr (frameEnd_le _ i)
    have hdelivered : c.2 ∈ (calls.map Prod.snd).take k := by
      refine List.mem_of_getElem? (i := i) ?_
      rw [List.getElem?_take_of_lt hik,List.getElem?_map,List.getElem?_eq_getElem hi,hget]
      rfl
    rw [← hread] at hdelivered
    exact readFrames_size none _ c.2 hdelivered

def Io.fine : Io := ⟨true,true,true,true⟩

theorem Kind.sendAll_fine (kind : Kind) (s : Sender) (ps : List Bytes) :
    ∃ s', kind.sendAll s (ps.map fun p => (.fine,p)) = some s' := by
  induction ps generalizing s with
  | nil => exact ⟨s,rfl⟩
  | cons p ps ih =>
    simp only [List.map_cons,Kind.sendAll,kind.send_eq]
    cases hs : s.conn with
    | none => simpa [Sender.send,hs,Io.fine] using ih _
    | some w => simpa [Sender.send,hs,Io.fine] using ih _

theorem framing_faithful_tcp : ∃ s', Kind.tcp.sendAll .new [(.fine,[1,2]),(.fine,[3])] = some s' ∧
    Kind.tcp.readerTask none ((s'.conn.getD []).take 10) = [[1,2]] := by
  refine ⟨_,rfl,?_⟩
  obtain ⟨k,hread,hk⟩ := (framing_faithful .tcp .new _ [(.fine,[1,2]),(.fine,[3])] rfl rfl).mp
    (by decide) 10
  have h0 : 0 < k := (hk 0 (by decide)).mpr (by decide)
  have h1 : ¬ 1 < k := fun h => absurd ((hk 1 (by decide)).mp h) (by decide)
  obtain rfl : k = 1 := by omega
  exact hread

/-- Zeros are read as empty messages, which nobody refuses. -/
theorem readFrames_zeros (n : ℕ) (rest : Bytes) :
    readFrames none (List.replicate (4 * n) 0 ++ rest) = List.replicate n [] ++ readFrames none rest ∧
      refuses (List.replicate (4 * n) 0 ++ rest) = refuses rest := by
  induction n with
  | zero => simp
  | succ n ih =>
    have hsplit : List.replicate (4 * (n + 1)) (0 : UInt8) =
        0 :: 0 :: 0 :: 0 :: List.replicate (4 * n) 0 := rfl
    have hzero : fromBeBytes 0 0 0 0 = 0 := rfl
    constructor
    · rw [hsplit,List.replicate_succ,List.cons_append,List.cons_append,List.cons_append,
        List.cons_append,List.cons_append,← ih.1,readFrames,hzero]
      simp [maxMessageSize]
    · rw [hsplit,← ih.2,List.cons_append,List.cons_append,List.cons_append,List.cons_append,refuses,
        hzero]
      simp [maxMessageSize]

/-- As many bytes as make the length wrap around to zero. -/
def wide : Bytes := List.replicate (2 ^ 32) 0

theorem frame_wide : frame wide = List.replicate (4 * (2 ^ 30 + 1)) 0 := by
  have hlen : wide.length % 2 ^ 32 = 0 := by
    rw [wide,List.length_replicate,Nat.mod_self]
  have hbytes : toBeBytes 0 = List.replicate 4 0 := rfl
  have hsum : 4 + 2 ^ 32 = 4 * (2 ^ 30 + 1) := by norm_num
  rw [frame,hlen,hbytes,wide,← List.replicate_add]
  exact congrArg (List.replicate · 0) hsum
/-- A payload whose frame is zeros is written whole and read as empty messages; the
reader does not close the connection, and what is sent after it arrives. -/
theorem Kind.zeros_read (kind : Kind) {p : Bytes} {n : ℕ} (hp : frame p = List.replicate (4 * n) 0) :
    ∃ s', kind.sendAll .new ([p,[7]].map fun q => (.fine,q)) = some s' ∧
      frameEnd [p,[7]] 1 ≤ (s'.conn.getD []).length ∧ refuses (s'.conn.getD []) = false ∧
      kind.readerTask none (s'.conn.getD []) = List.replicate n [] ++ [[7]] := by
  obtain ⟨s',hs⟩ := kind.sendAll_fine .new [p,[7]]
  have hstream := Kind.sendAll_ok hs
  simp only [Sender.new,Option.getD_none,List.nil_append,List.map_cons,List.map_nil] at hstream
  have hlast : readFrames none (frames [[7]]) = [[7]] := by
    rw [frames_cons,readFrames_whole (by decide),frames_nil,readFrames_short none (by decide)]
  have hopen : refuses (frames [[7]]) = false := by
    simp [frames,frame,toBeBytes,refuses,fromBeBytes,maxMessageSize]
  obtain ⟨hread,hrefuse⟩ := readFrames_zeros n (frames [[7]])
  refine ⟨s',hs,?_,?_,?_⟩
  · rw [hstream]
    exact frameEnd_le _ 1
  · rw [hstream,frames_cons,hp,hrefuse,hopen]
  · rw [hstream,frames_cons,hp,kind.readerTask_eq,hread,hlast]

theorem wide_mangled :
    (∃ s', Kind.tcp.sendAll .new ([wide,[7]].map fun q => (.fine,q)) = some s' ∧
      frameEnd [wide,[7]] 1 ≤ (s'.conn.getD []).length ∧ refuses (s'.conn.getD []) = false ∧
      Kind.tcp.readerTask none (s'.conn.getD []) = List.replicate (2 ^ 30 + 1) [] ++ [[7]]) ∧
    ∃ s', Kind.uds.sendAll .new ([wide,[7]].map fun q => (.fine,q)) = some s' ∧
      frameEnd [wide,[7]] 1 ≤ (s'.conn.getD []).length ∧ refuses (s'.conn.getD []) = false ∧
      Kind.uds.readerTask none (s'.conn.getD []) = List.replicate (2 ^ 30 + 1) [] ++ [[7]] :=
  ⟨Kind.tcp.zeros_read frame_wide,Kind.uds.zeros_read frame_wide⟩

end Transport
end Daccord
