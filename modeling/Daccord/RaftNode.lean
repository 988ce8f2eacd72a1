import Daccord.Raft

/-! A Raft process as `node.rs` drives it: the protocol in memory, the storage
behind it, and what is left of the re-proposal loop. One turn of the event loop
is `propose`, `handle_message` or `on_tick`, then `flush_persist`, then
`send_outgoing`, then `drain_decisions`; a crash can fall between any two
effects of a turn. -/
namespace Daccord
namespace Raft

variable {V W : Type}

/-- The contract of `RaftStorage`, as `RaftMemoryStorage` implements it. -/
structure RaftStorage (W : Type) where
  decisions : AList fun _ : ℕ => W
  term : ℕ
  votedFor : Option NodeId
  log : List (LogEntry W)
  commitIndex : Option ℕ

def RaftStorage.new : RaftStorage W := ⟨∅,0,none,[],none⟩

inductive StorageCall (W : Type)
  | saveTerm (term : ℕ)
  | saveVotedFor (votedFor : Option NodeId)
  | truncateLogFrom (index : ℕ)
  | appendLog (entries : List (LogEntry W))
  | saveCommitIndex (commitIndex : Option ℕ)
  | saveDecision (slot : ℕ) (value : W)

def RaftStorage.call (s : RaftStorage W) : StorageCall W → RaftStorage W
  | .saveTerm term => { s with term := term }
  | .saveVotedFor votedFor => { s with votedFor := votedFor }
  | .truncateLogFrom index => { s with log := s.log.take index }
  | .appendLog entries => { s with log := s.log ++ entries }
  | .saveCommitIndex commitIndex => { s with commitIndex := commitIndex }
  | .saveDecision slot value => { s with decisions := s.decisions.insert slot value }

def RaftStorage.calls (s : RaftStorage W) (cs : List (StorageCall W)) : RaftStorage W :=
  cs.foldl RaftStorage.call s

def RaftStorage.loadDecisions (s : RaftStorage W) : List (ℕ × W) :=
  s.decisions.entries.map fun d => (d.1,d.2)

/-- What a storage adapter does to a value on its way to disk and back.
`PendingRaftStorage` drops the nonce and hands back nonce 0. -/
structure Adapter (V W : Type) where
  strip : V → W
  wrap : W → V
  strip_wrap : ∀ w, strip (wrap w) = w

def Adapter.exact : Adapter V V := ⟨id,id,fun _ => rfl⟩

def Adapter.pending : Adapter (Pending V) V := ⟨Pending.value,fun v => ⟨0,v⟩,fun _ => rfl⟩

def LogEntry.map (f : V → W) (e : LogEntry V) : LogEntry W := ⟨e.term,f e.value⟩

def Adapter.stripLogEntries (A : Adapter V W) (entries : List (LogEntry V)) : List (LogEntry W) :=
  entries.map (LogEntry.map A.strip)

def Adapter.wrapLogEntries (A : Adapter V W) (entries : List (LogEntry W)) : List (LogEntry V) :=
  entries.map (LogEntry.map A.wrap)

structure PersistIntent (V : Type) where
  term : Option ℕ
  votedFor : Option (Option NodeId)
  truncateFrom : Option ℕ
  appendFrom : Option ℕ
  logSnapshot : List (LogEntry V)
  commitIndex : Option (Option ℕ)

def RaftProtocol.drainPersistIntent (p : RaftProtocol V) : RaftProtocol V × PersistIntent V :=
  ({ p with
      pendingPersistTerm := false
      pendingPersistVotedFor := false
      pendingPersistLogFrom := none
      pendingTruncateFrom := none
      pendingPersistCommitIndex := false },
    { term := if p.pendingPersistTerm then some p.currentTerm else none
      votedFor := if p.pendingPersistVotedFor then some p.votedFor else none
      truncateFrom := p.pendingTruncateFrom
      appendFrom := p.pendingPersistLogFrom
      logSnapshot := if p.pendingPersistLogFrom.isSome then p.log else []
      commitIndex := if p.pendingPersistCommitIndex then some p.commitIndex else none })

/-- The writes of `flush_persist`, in the order it issues them. -/
def PersistIntent.calls (A : Adapter V W) (i : PersistIntent V) : List (StorageCall W) :=
  (i.term.map .saveTerm).toList ++
  (i.votedFor.map .saveVotedFor).toList ++
  (i.truncateFrom.map .truncateLogFrom).toList ++
  (i.appendFrom.map fun idx => .appendLog (A.stripLogEntries (i.logSnapshot.drop idx))).toList ++
  (i.commitIndex.map .saveCommitIndex).toList

/-- `recover`: load everything and hand it to `restore_state`. -/
def RaftProtocol.recover (A : Adapter V W) (env : Env) (p : RaftProtocol V) (s : RaftStorage W) :
    RaftProtocol V :=
  p.restoreState env s.term s.votedFor (A.wrapLogEntries s.log)
    (s.loadDecisions.map fun d => (d.1,A.wrap d.2)) s.commitIndex

inductive Input (V : Type)
  | propose (value : V)
  | message (sender : NodeId) (msg : RaftMessage V)
  | tick

def RaftProtocol.handle (env : Env) (p : RaftProtocol V) : Input V → Reply V
  | .propose value => p.propose env value
  | .message sender msg => p.handleMessage env sender msg
  | .tick => p.onTick env

/-- Everything a turn does outside the memory of the process, in order. -/
inductive Effect (V W : Type)
  | store (call : StorageCall W)
  | send (out : Outgoing (RaftMessage V))
  | emit (decisions : List (Decision V))

/-- One turn of the event loop, taken apart at its await points. -/
structure Turn (V W : Type) where
  /-- memory when the handler has returned -/
  handled : RaftProtocol V
  /-- the writes of `flush_persist` -/
  calls : List (StorageCall W)
  /-- memory when `send_outgoing` is called -/
  sending : RaftProtocol V
  outgoing : List (Outgoing (RaftMessage V))
  decisions : List (Decision V)
  /-- memory at the end of the turn -/
  final : RaftProtocol V
  /-- lost proposals the receive handler goes on to re-propose -/
  lost : List V

def turn (A : Adapter V W) (env : Env) (p : RaftProtocol V) (input : Input V) : Turn V W :=
  let reply := p.handle env input
  let flushed := reply.1.drainPersistIntent
  let drained := flushed.1.takeDecisions
  let taken := match input with
    | .message .. => drained.1.takeLostProposals
    | _ => (drained.1,[])
  { handled := reply.1
    calls := flushed.2.calls A
    sending := flushed.1
    outgoing := reply.2
    decisions := drained.2
    final := taken.1
    lost := taken.2 }

def Turn.saves (A : Adapter V W) (t : Turn V W) : List (StorageCall W) :=
  t.decisions.map fun d => .saveDecision d.slot (A.strip d.value)

def Turn.effects (A : Adapter V W) (t : Turn V W) : List (Effect V W) :=
  t.calls.map .store ++ t.outgoing.map .send ++ [.emit t.decisions] ++ (t.saves A).map .store

def Effect.stored : Effect V W → Option (StorageCall W)
  | .store c => some c
  | _ => none

def Effect.sent : Effect V W → Option (Outgoing (RaftMessage V))
  | .send o => some o
  | _ => none

def Effect.emitted : Effect V W → List (Decision V)
  | .emit ds => ds
  | _ => []

/-- A running process. `backlog` is what the re-proposal loop of
`handle_incoming_bytes` has still to propose. -/
structure RaftNode (V W : Type) where
  protocol : RaftProtocol V
  storage : RaftStorage W
  backlog : List V

/-- The process as `Node::run` starts it: a fresh protocol, then `recover`. -/
def RaftNode.boot (A : Adapter V W) (env : Env) (id : NodeId) (total : ℕ) (cfg : RaftConfig)
    (s : RaftStorage W) : RaftNode V W where
  protocol := (RaftProtocol.new env id total cfg).recover A env s
  storage := s
  backlog := []

/-- A turn runs to its end, or the process dies after `k` effects of it and is
restarted from its storage. -/
inductive Fate
  | completes
  | dies (k : ℕ)
  deriving DecidableEq, Repr

def Fate.cut (effects : List (Effect V W)) : Fate → List (Effect V W)
  | .completes => effects
  | .dies k => effects.take k

def Fate.flushes (t : Turn V W) : Fate → Prop
  | .completes => True
  | .dies k => t.calls.length ≤ k

/-- The process after a turn; `rest` is what stays of the backlog when the turn
belongs to the re-proposal loop. -/
def RaftNode.after (A : Adapter V W) (env : Env) (n : RaftNode V W) (t : Turn V W)
    (rest : List V) (fate : Fate) : RaftNode V W :=
  let storage := n.storage.calls ((fate.cut (t.effects A)).filterMap Effect.stored)
  match fate with
  | .completes => ⟨t.final,storage,rest ++ t.lost⟩
  | .dies _ => .boot A env n.protocol.nodeId n.protocol.totalNodes n.protocol.config storage

/-- Inputs the event loop takes next: the head of the backlog while the
re-proposal loop runs, anything otherwise. The second component is the backlog
that remains. -/
def RaftNode.accepts (n : RaftNode V W) : Option (Input V) → Option (Input V × List V)
  | some input => if n.backlog.isEmpty then some (input,[]) else none
  | none => match n.backlog with
    | v :: rest => some (.propose v,rest)
    | [] => none

/-- One turn of a process on its own: the clock, what wakes it (`none` for the
next value of the re-proposal loop), and how the turn ends. -/
structure Wake (V : Type) where
  env : Env
  input : Option (Input V)
  fate : Fate

def RaftNode.step (A : Adapter V W) (n : RaftNode V W) (w : Wake V) : Option (RaftNode V W) :=
  (n.accepts w.input).map fun r => n.after A w.env (turn A w.env n.protocol r.1) r.2 w.fate

end Raft
end Daccord
