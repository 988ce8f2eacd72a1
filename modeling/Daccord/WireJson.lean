import Daccord.Deployment
import Daccord.Framing
import Daccord.JsonSerde

/-! The bytes of a message: `Message::to_bytes` and `Message::from_bytes` with what the
message types derive (`message/`, `config.rs`, `proposal.rs`), over any `SerdeJson`. -/
namespace Daccord

open Layout SerdeJson

variable {V : Type}

section
variable (J : SerdeJson)

def u64 : Serde J.Value ℕ := J.unsigned 64
def u8 : Serde J.Value ℕ := J.unsigned 8

/-- `NodeIdHelper`. -/
def NodeId.serde : Serde J.Value NodeId :=
  (J.record ((one (.required "name" J.string)).and (one (.required "incarnation" (u64 J))))).via
    (fun x => ⟨x.1,x.2⟩) fun id => some (id.name,id.incarnation)

def ProposalNumber.serde : Serde J.Value ProposalNumber :=
  (J.pair (u64 J) (NodeId.serde J)).via toLex fun pn => some (ofLex pn)

def Pending.serde (S : Serde J.Value V) : Serde J.Value (Pending V) :=
  (J.record ((one (.required "nonce" (u64 J))).and (one (.required "value" S)))).via
    (fun x => ⟨x.1,x.2⟩) fun p => some (p.nonce,p.value)

def LogEntry.serde (S : Serde J.Value V) : Serde J.Value (LogEntry V) :=
  (J.record ((one (.required "term" (u64 J))).and (one (.required "value" S)))).via
    (fun x => ⟨x.1,x.2⟩) fun e => some (e.term,e.value)

namespace RaftMessage

def requestVoteSerde : Serde J.Value (RaftMessage V) :=
  (J.record ((one (.required "term" (u64 J))).and ((one (.required "candidate" (NodeId.serde J))).and
    ((one (J.optional "last_log_index" (u64 J))).and (one (.required "last_log_term" (u64 J))))))).via
    (fun x => .requestVote x.1 x.2.1 x.2.2.1 x.2.2.2) fun
      | .requestVote term candidate lastLogIndex lastLogTerm =>
        some (term,candidate,lastLogIndex,lastLogTerm)
      | _ => none

def requestVoteResponseSerde : Serde J.Value (RaftMessage V) :=
  (J.record ((one (.required "term" (u64 J))).and (one (.required "vote_granted" J.bool)))).via
    (fun x => .requestVoteResponse x.1 x.2) fun
      | .requestVoteResponse term voteGranted => some (term,voteGranted)
      | _ => none

def appendEntriesSerde (S : Serde J.Value V) : Serde J.Value (RaftMessage V) :=
  (J.record ((one (.required "term" (u64 J))).and ((one (.required "leader" (NodeId.serde J))).and
    ((one (J.optional "prev_log_index" (u64 J))).and ((one (.required "prev_log_term" (u64 J))).and
      ((one (.required "entries" (J.list (LogEntry.serde J S)))).and
        (one (J.optional "leader_commit" (u64 J))))))))).via
    (fun x => .appendEntries x.1 x.2.1 x.2.2.1 x.2.2.2.1 x.2.2.2.2.1 x.2.2.2.2.2) fun
      | .appendEntries term leader prevLogIndex prevLogTerm entries leaderCommit =>
        some (term,leader,prevLogIndex,prevLogTerm,entries,leaderCommit)
      | _ => none

def appendEntriesResponseSerde : Serde J.Value (RaftMessage V) :=
  (J.record ((one (.required "term" (u64 J))).and ((one (.required "success" J.bool)).and
    ((one (J.optional "match_index" (u64 J))).and ((one (J.optional "conflict_term" (u64 J))).and
      (one (J.optional "conflict_index" (u64 J)))))))).via
    (fun x => .appendEntriesResponse x.1 x.2.1 x.2.2.1 x.2.2.2.1 x.2.2.2.2) fun
      | .appendEntriesResponse term success matchIndex conflictTerm conflictIndex =>
        some (term,success,matchIndex,conflictTerm,conflictIndex)
      | _ => none

/-- `hops` is `#[serde(default)]`. -/
def forwardSerde (S : Serde J.Value V) : Serde J.Value (RaftMessage V) :=
  (J.record ((one (.required "value" S)).and (one (.withDefault "hops" (u8 J) 0)))).via
    (fun x => .forward x.1 x.2) fun
      | .forward value hops => some (value,hops)
      | _ => none

def variants (S : Serde J.Value V) : List (String × Serde J.Value (RaftMessage V)) :=
  [("RequestVote",requestVoteSerde J),("RequestVoteResponse",requestVoteResponseSerde J),
    ("AppendEntries",appendEntriesSerde J S),("AppendEntriesResponse",appendEntriesResponseSerde J),
    ("Forward",forwardSerde J S)]

def serde (S : Serde J.Value V) : Serde J.Value (RaftMessage V) := J.tagged (variants J S)

end RaftMessage

namespace PaxosMessage

def prepareSerde : Serde J.Value (PaxosMessage V) :=
  (J.record ((one (.required "slot" (u64 J))).and
    (one (.required "proposal_number" (ProposalNumber.serde J))))).via
    (fun x => .prepare x.1 x.2) fun
      | .prepare slot proposalNumber => some (slot,proposalNumber)
      | _ => none

def promiseSerde (S : Serde J.Value V) : Serde J.Value (PaxosMessage V) :=
  (J.record ((one (.required "slot" (u64 J))).and
    ((one (.required "proposal_number" (ProposalNumber.serde J))).and
      (one (J.optional "accepted" (J.pair (ProposalNumber.serde J) S)))))).via
    (fun x => .promise x.1 x.2.1 x.2.2) fun
      | .promise slot proposalNumber last => some (slot,proposalNumber,last)
      | _ => none

/-- The fields of `Accept` and `Accepted`. -/
def ballotLayout (S : Serde J.Value V) : Layout J.Value (ℕ × ProposalNumber × V) :=
  (one (.required "slot" (u64 J))).and
    ((one (.required "proposal_number" (ProposalNumber.serde J))).and (one (.required "value" S)))

def acceptSerde (S : Serde J.Value V) : Serde J.Value (PaxosMessage V) :=
  (J.record (ballotLayout J S)).via (fun x => .accept x.1 x.2.1 x.2.2) fun
    | .accept slot proposalNumber value => some (slot,proposalNumber,value)
    | _ => none

def acceptedSerde (S : Serde J.Value V) : Serde J.Value (PaxosMessage V) :=
  (J.record (ballotLayout J S)).via (fun x => .accepted x.1 x.2.1 x.2.2) fun
    | .accepted slot proposalNumber value => some (slot,proposalNumber,value)
    | _ => none

def decideSerde (S : Serde J.Value V) : Serde J.Value (PaxosMessage V) :=
  (J.record ((one (.required "slot" (u64 J))).and (one (.required "value" S)))).via
    (fun x => .decide x.1 x.2) fun
      | .decide slot value => some (slot,value)
      | _ => none

/-- The fields of `NackPrepare` and `NackAccept`. -/
def nackLayout : Layout J.Value (ℕ × ProposalNumber × ProposalNumber) :=
  (one (.required "slot" (u64 J))).and
    ((one (.required "proposal_number" (ProposalNumber.serde J))).and
      (one (.required "highest_promised" (ProposalNumber.serde J))))

def nackPrepareSerde : Serde J.Value (PaxosMessage V) :=
  (J.record (nackLayout J)).via (fun x => .nackPrepare x.1 x.2.1 x.2.2) fun
    | .nackPrepare slot proposalNumber highestPromised => some (slot,proposalNumber,highestPromised)
    | _ => none

def nackAcceptSerde : Serde J.Value (PaxosMessage V) :=
  (J.record (nackLayout J)).via (fun x => .nackAccept x.1 x.2.1 x.2.2) fun
    | .nackAccept slot proposalNumber highestPromised => some (slot,proposalNumber,highestPromised)
    | _ => none

def forwardSerde (S : Serde J.Value V) : Serde J.Value (PaxosMessage V) :=
  (J.record (one (.required "value" S))).via .forward fun
    | .forward value => some value
    | _ => none

def heartbeatSerde : Serde J.Value (PaxosMessage V) :=
  (J.record (one (.required "term" (u64 J)))).via .heartbeat fun
    | .heartbeat term => some term
    | _ => none

def prepareLeaderSerde : Serde J.Value (PaxosMessage V) :=
  (J.record ((one (.required "proposal_number" (ProposalNumber.serde J))).and
    (one (.required "since_slot" (u64 J))))).via (fun x => .prepareLeader x.1 x.2) fun
      | .prepareLeader proposalNumber sinceSlot => some (proposalNumber,sinceSlot)
      | _ => none

def promiseLeaderSerde (S : Serde J.Value V) : Serde J.Value (PaxosMessage V) :=
  (J.record ((one (.required "proposal_number" (ProposalNumber.serde J))).and
    (one (.required "accepted" (J.list (J.triple (u64 J) (ProposalNumber.serde J) S)))))).via
    (fun x => .promiseLeader x.1 x.2) fun
      | .promiseLeader proposalNumber votes => some (proposalNumber,votes)
      | _ => none

def nackLeaderSerde : Serde J.Value (PaxosMessage V) :=
  (J.record ((one (.required "proposal_number" (ProposalNumber.serde J))).and
    (one (.required "highest_promised" (ProposalNumber.serde J))))).via
    (fun x => .nackLeader x.1 x.2) fun
      | .nackLeader proposalNumber highestPromised => some (proposalNumber,highestPromised)
      | _ => none

/-- The last five stand under `#[cfg(feature = "multi-paxos")]`. -/
def variants (multi : Bool) (S : Serde J.Value V) : List (String × Serde J.Value (PaxosMessage V)) :=
  [("Prepare",prepareSerde J),("Promise",promiseSerde J S),("Accept",acceptSerde J S),
    ("Accepted",acceptedSerde J S),("Decide",decideSerde J S),("NackPrepare",nackPrepareSerde J),
    ("NackAccept",nackAcceptSerde J)] ++
  if multi then
    [("Forward",forwardSerde J S),("Heartbeat",heartbeatSerde J),
      ("PrepareLeader",prepareLeaderSerde J),("PromiseLeader",promiseLeaderSerde J S),
      ("NackLeader",nackLeaderSerde J)]
  else []

def serde (multi : Bool) (S : Serde J.Value V) : Serde J.Value (PaxosMessage V) :=
  J.tagged (variants J multi S)

end PaxosMessage

namespace EventLoop

namespace WireVariant

def paxosSerde (multi : Bool) (S : Serde J.Value V) : Serde J.Value (WireVariant V) :=
  (PaxosMessage.serde J multi S).via .paxos fun
    | .paxos msg => some msg
    | .raft _ => none

def raftSerde (S : Serde J.Value V) : Serde J.Value (WireVariant V) :=
  (RaftMessage.serde J S).via .raft fun
    | .raft msg => some msg
    | .paxos _ => none

def variants (multi : Bool) (S : Serde J.Value V) : List (String × Serde J.Value (WireVariant V)) :=
  [("Paxos",paxosSerde J multi S),("Raft",raftSerde J S)]

def serde (multi : Bool) (S : Serde J.Value V) : Serde J.Value (WireVariant V) :=
  J.tagged (variants J multi S)

end WireVariant

/-- `Message`: the sender and what it says. -/
def messageSerde (multi : Bool) (S : Serde J.Value V) : Serde J.Value (NodeId × WireVariant V) :=
  J.record ((one (.required "sender" (NodeId.serde J))).and
    (one (.required "variant" (WireVariant.serde J multi S))))

/-- The format of the bytes on the links, in one of the two builds; `S` is what the
type of the values derives. -/
def jsonFormat (multi : Bool) (S : Serde J.Value V) : WireFormat Transport.Bytes V where
  toBytes id msg := ((messageSerde J multi (Pending.serde J S)).serialize (id,msg)).map J.toVec
  fromBytes bytes := (J.fromSlice bytes).bind (messageSerde J multi (Pending.serde J S)).deserialize

end EventLoop

end

/-! Numbers that fit into the source's types. -/

def NodeId.Fits (id : NodeId) : Prop := id.incarnation < 2 ^ 64

def ProposalNumber.Fits (pn : ProposalNumber) : Prop := pn.round < 2 ^ 64 ∧ pn.node.Fits

def Pending.Fits (ok : V → Prop) (p : Pending V) : Prop := p.nonce < 2 ^ 64 ∧ ok p.value

def LogEntry.Fits (ok : V → Prop) (e : LogEntry V) : Prop := e.term < 2 ^ 64 ∧ ok e.value

def indexFits (index : Option ℕ) : Prop := ∀ i ∈ index, i < 2 ^ 64

def RaftMessage.Fits (ok : V → Prop) : RaftMessage V → Prop
  | .requestVote term candidate lastLogIndex lastLogTerm =>
    term < 2 ^ 64 ∧ candidate.Fits ∧ indexFits lastLogIndex ∧ lastLogTerm < 2 ^ 64
  | .requestVoteResponse term _ => term < 2 ^ 64
  | .appendEntries term leader prevLogIndex prevLogTerm entries leaderCommit =>
    term < 2 ^ 64 ∧ leader.Fits ∧ indexFits prevLogIndex ∧ prevLogTerm < 2 ^ 64 ∧
      (∀ e ∈ entries, e.Fits ok) ∧ indexFits leaderCommit
  | .appendEntriesResponse term _ matchIndex conflictTerm conflictIndex =>
    term < 2 ^ 64 ∧ indexFits matchIndex ∧ indexFits conflictTerm ∧ indexFits conflictIndex
  | .forward value hops => ok value ∧ hops < 2 ^ 8

/-- The last five variants have to be there, too. -/
def PaxosMessage.Fits (multi : Bool) (ok : V → Prop) : PaxosMessage V → Prop
  | .prepare slot proposalNumber => slot < 2 ^ 64 ∧ proposalNumber.Fits
  | .promise slot proposalNumber last =>
    slot < 2 ^ 64 ∧ proposalNumber.Fits ∧ ∀ x ∈ last, x.1.Fits ∧ ok x.2
  | .accept slot proposalNumber value => slot < 2 ^ 64 ∧ proposalNumber.Fits ∧ ok value
  | .accepted slot proposalNumber value => slot < 2 ^ 64 ∧ proposalNumber.Fits ∧ ok value
  | .decide slot value => slot < 2 ^ 64 ∧ ok value
  | .nackPrepare slot proposalNumber highestPromised =>
    slot < 2 ^ 64 ∧ proposalNumber.Fits ∧ highestPromised.Fits
  | .nackAccept slot proposalNumber highestPromised =>
    slot < 2 ^ 64 ∧ proposalNumber.Fits ∧ highestPromised.Fits
  | .forward value => multi = true ∧ ok value
  | .heartbeat term => multi = true ∧ term < 2 ^ 64
  | .prepareLeader proposalNumber sinceSlot => multi = true ∧ proposalNumber.Fits ∧ sinceSlot < 2 ^ 64
  | .promiseLeader proposalNumber votes =>
    multi = true ∧ proposalNumber.Fits ∧ ∀ x ∈ votes, x.1 < 2 ^ 64 ∧ x.2.1.Fits ∧ ok x.2.2
  | .nackLeader proposalNumber highestPromised =>
    multi = true ∧ proposalNumber.Fits ∧ highestPromised.Fits

def EventLoop.WireVariant.Fits (multi : Bool) (ok : V → Prop) : EventLoop.WireVariant V → Prop
  | .paxos msg => msg.Fits multi ok
  | .raft msg => msg.Fits ok

/-! ### What is sent -/

section
variable {J : SerdeJson} (hJ : J.Lawful)
include hJ

theorem u64_writes (k : ℕ) : (u64 J).Writes k ↔ k < 2 ^ 64 := hJ.unsigned_writes 64 k

theorem u8_writes (k : ℕ) : (u8 J).Writes k ↔ k < 2 ^ 8 := hJ.unsigned_writes 8 k

theorem NodeId.serde_writes (id : NodeId) : (NodeId.serde J).Writes id ↔ id.Fits := by
  simp [NodeId.serde,NodeId.Fits,hJ.record_writes,hJ.string_writes,u64_writes hJ]

theorem ProposalNumber.serde_writes (pn : ProposalNumber) :
    (ProposalNumber.serde J).Writes pn ↔ pn.Fits := by
  simp [ProposalNumber.serde,ProposalNumber.Fits,ProposalNumber.round,ProposalNumber.node,
    hJ.pair_writes,u64_writes hJ,NodeId.serde_writes hJ]

theorem Pending.serde_writes (S : Serde J.Value V) (p : Pending V) :
    (Pending.serde J S).Writes p ↔ p.Fits S.Writes := by
  simp [Pending.serde,Pending.Fits,hJ.record_writes,u64_writes hJ]

theorem LogEntry.serde_writes (S : Serde J.Value V) (e : LogEntry V) :
    (LogEntry.serde J S).Writes e ↔ e.Fits S.Writes := by
  simp [LogEntry.serde,LogEntry.Fits,hJ.record_writes,u64_writes hJ]

theorem RaftMessage.serde_writes (S : Serde J.Value V) (m : RaftMessage V) :
    (RaftMessage.serde J S).Writes m ↔ m.Fits S.Writes := by
  cases m <;> simp only [RaftMessage.serde,variants,requestVoteSerde,requestVoteResponseSerde,
    appendEntriesSerde,appendEntriesResponseSerde,forwardSerde,RaftMessage.Fits,indexFits,
    hJ.tagged_cons_writes,hJ.tagged_nil_writes,Serde.via_writes,Option.elim_none,Option.elim_some,
    hJ.record_writes,and_writes,one_writes,Field.required_serde,SerdeJson.optional_serde,
    Field.withDefault_serde,hJ.option_writes,hJ.list_writes,hJ.bool_writes,u64_writes hJ,u8_writes hJ,
    NodeId.serde_writes hJ,LogEntry.serde_writes hJ,or_false,false_or,true_and,and_true]

theorem PaxosMessage.serde_writes (multi : Bool) (S : Serde J.Value V) (m : PaxosMessage V) :
    (PaxosMessage.serde J multi S).Writes m ↔ m.Fits multi S.Writes := by
  cases multi <;> cases m <;> simp only [PaxosMessage.serde,variants,prepareSerde,promiseSerde,
    acceptSerde,acceptedSerde,decideSerde,nackPrepareSerde,nackAcceptSerde,forwardSerde,heartbeatSerde,
    prepareLeaderSerde,promiseLeaderSerde,nackLeaderSerde,ballotLayout,nackLayout,PaxosMessage.Fits,
    List.cons_append,List.nil_append,if_true,if_false,Bool.false_eq_true,
    hJ.tagged_cons_writes,hJ.tagged_nil_writes,Serde.via_writes,Option.elim_none,Option.elim_some,
    hJ.record_writes,and_writes,one_writes,Field.required_serde,SerdeJson.optional_serde,
    hJ.option_writes,hJ.list_writes,hJ.pair_writes,hJ.triple_writes,u64_writes hJ,
    ProposalNumber.serde_writes hJ,or_false,false_or,true_and,false_and]

theorem EventLoop.messageSerde_writes (multi : Bool) (S : Serde J.Value V) (id : NodeId)
    (msg : EventLoop.WireVariant V) :
    (messageSerde J multi S).Writes (id,msg) ↔ id.Fits ∧ msg.Fits multi S.Writes := by
  cases msg <;> simp [messageSerde,WireVariant.serde,WireVariant.variants,WireVariant.paxosSerde,
    WireVariant.raftSerde,WireVariant.Fits,hJ.record_writes,hJ.tagged_cons_writes,
    hJ.tagged_nil_writes,NodeId.serde_writes hJ,RaftMessage.serde_writes hJ,
    PaxosMessage.serde_writes hJ]

end

/-! ### Everything sent is read back -/

section

variable {J : SerdeJson} (hJ : J.Lawful) {n : ℕ}
include hJ

theorem u64_sound (n : ℕ) : J.Sound (u64 J) n := (hJ.unsigned_sound 64).mono (Nat.zero_le n)

theorem u8_sound (n : ℕ) : J.Sound (u8 J) n := (hJ.unsigned_sound 8).mono (Nat.zero_le n)

theorem u64_ne_null (k : ℕ) : (u64 J).serialize k ≠ some J.null := hJ.unsigned_ne_null 64 k

theorem bool_sound (n : ℕ) : J.Sound J.bool n := hJ.bool_sound.mono (Nat.zero_le n)

theorem NodeId.serde_sound (hn : 1 ≤ n) : J.Sound (NodeId.serde J) n := by
  have hrecord : J.Record (NodeId.serde J) 1 := by
    refine Serde.via_record (hJ.record_record (and_sound (required_sound hJ.string_sound)
      (required_sound (u64_sound hJ 0))) (by simp)) ?_ fun _ => rfl
    intro id x h
    cases h
    rfl
  exact hrecord.toSound.mono hn

theorem ProposalNumber.serde_sound (hn : 2 ≤ n) : J.Sound (ProposalNumber.serde J) n := by
  have hsound : J.Sound (ProposalNumber.serde J) 2 := by
    refine Serde.via_sound (hJ.pair_sound (u64_sound hJ 1) (NodeId.serde_sound hJ le_rfl)) ?_ fun _ => rfl
    intro pn x h
    cases h
    rfl
  exact hsound.mono hn

theorem Pending.serde_sound {S : Serde J.Value V} (hS : J.Sound S n) : J.Sound (Pending.serde J S) (n + 1) := by
  have hrecord : J.Record (Pending.serde J S) (n + 1) := by
    refine Serde.via_record (hJ.record_record (and_sound (required_sound (u64_sound hJ n))
      (required_sound hS)) (by simp)) ?_ fun _ => rfl
    intro p x h
    cases h
    rfl
  exact hrecord.toSound

theorem LogEntry.serde_sound {S : Serde J.Value V} (hS : J.Sound S n) : J.Sound (LogEntry.serde J S) (n + 1) := by
  have hrecord : J.Record (LogEntry.serde J S) (n + 1) := by
    refine Serde.via_record (hJ.record_record (and_sound (required_sound (u64_sound hJ n))
      (required_sound hS)) (by simp)) ?_ fun _ => rfl
    intro e x h
    cases h
    rfl
  exact hrecord.toSound

namespace RaftMessage

variable {S : Serde J.Value V}

theorem requestVote_record (hn : 1 ≤ n) : J.Record (requestVoteSerde J : Serde J.Value (RaftMessage V)) (n + 1) := by
  refine Serde.via_record (hJ.record_record (and_sound (required_sound (u64_sound hJ n))
    (and_sound (required_sound (NodeId.serde_sound hJ hn))
      (and_sound (optional_sound hJ (u64_sound hJ n) (u64_ne_null hJ)) (required_sound (u64_sound hJ n)))))
    (by simp)) ?_ fun _ => rfl
  intro m x h
  cases m <;> cases h
  rfl

theorem requestVoteResponse_record (n : ℕ) :
    J.Record (requestVoteResponseSerde J : Serde J.Value (RaftMessage V)) (n + 1) := by
  refine Serde.via_record (hJ.record_record (and_sound (required_sound (u64_sound hJ n))
    (required_sound (bool_sound hJ n))) (by simp)) ?_ fun _ => rfl
  intro m x h
  cases m <;> cases h
  rfl

theorem appendEntries_record (hS : J.Sound S n) : J.Record (appendEntriesSerde J S) (n + 3) := by
  refine Serde.via_record (hJ.record_record (and_sound (required_sound (u64_sound hJ _))
    (and_sound (required_sound (NodeId.serde_sound hJ (Nat.le_add_left 1 _)))
      (and_sound (optional_sound hJ (u64_sound hJ _) (u64_ne_null hJ))
        (and_sound (required_sound (u64_sound hJ _))
          (and_sound (required_sound (hJ.list_sound (LogEntry.serde_sound hJ hS)))
            (optional_sound hJ (u64_sound hJ _) (u64_ne_null hJ))))))) (by simp)) ?_ fun _ => rfl
  intro m x h
  cases m <;> cases h
  rfl

theorem appendEntriesResponse_record (n : ℕ) :
    J.Record (appendEntriesResponseSerde J : Serde J.Value (RaftMessage V)) (n + 1) := by
  refine Serde.via_record (hJ.record_record (and_sound (required_sound (u64_sound hJ n))
    (and_sound (required_sound (bool_sound hJ n))
      (and_sound (optional_sound hJ (u64_sound hJ n) (u64_ne_null hJ))
        (and_sound (optional_sound hJ (u64_sound hJ n) (u64_ne_null hJ))
          (optional_sound hJ (u64_sound hJ n) (u64_ne_null hJ)))))) (by simp)) ?_ fun _ => rfl
  intro m x h
  cases m <;> cases h
  rfl

theorem forward_record (hS : J.Sound S n) : J.Record (forwardSerde J S) (n + 1) := by
  refine Serde.via_record (hJ.record_record (and_sound (required_sound hS)
    (withDefault_sound (u8_sound hJ n) ((u8_writes hJ 0).mpr (by decide)))) (by simp)) ?_ fun _ => rfl
  intro m x h
  cases m <;> cases h
  rfl

theorem variants_record (hS : J.Sound S n) : ∀ v ∈ variants J S, J.Record v.2 (n + 3) := by
  intro v hv
  simp only [variants,List.mem_cons,List.not_mem_nil,or_false] at hv
  rcases hv with rfl | rfl | rfl | rfl | rfl
  · exact requestVote_record hJ (Nat.le_add_left 1 _)
  · exact requestVoteResponse_record hJ _
  · exact appendEntries_record hJ hS
  · exact appendEntriesResponse_record hJ _
  · exact (forward_record hJ hS).mono (by omega)

omit hJ in
theorem variants_names (S : Serde J.Value V) : ((variants J S).map Prod.fst).Nodup := by
  simp [variants]

theorem serde_sound (hS : J.Sound S n) : J.Sound (serde J S) (n + 4) :=
  hJ.tagged_sound (variants_names S) fun v hv => (variants_record hJ hS v hv).toSound

end RaftMessage

namespace PaxosMessage

variable {S : Serde J.Value V}

theorem prepare_record (hn : 2 ≤ n) : J.Record (prepareSerde J : Serde J.Value (PaxosMessage V)) (n + 1) := by
  refine Serde.via_record (hJ.record_record (and_sound (required_sound (u64_sound hJ n))
    (required_sound (ProposalNumber.serde_sound hJ hn))) (by simp)) ?_ fun _ => rfl
  intro m x h
  cases m <;> cases h
  rfl

theorem promise_record (hn : 2 ≤ n) (hS : J.Sound S n) : J.Record (promiseSerde J S) (n + 2) := by
  have hpair := hJ.pair_sound (ProposalNumber.serde_sound hJ hn) hS
  refine Serde.via_record (hJ.record_record (and_sound (required_sound (u64_sound hJ _))
    (and_sound (required_sound (ProposalNumber.serde_sound hJ (by omega)))
      (optional_sound hJ hpair hJ.pair_ne_null))) (by simp)) ?_ fun _ => rfl
  intro m x h
  cases m <;> cases h
  rfl

theorem ballotLayout_record (hn : 2 ≤ n) (hS : J.Sound S n) : J.Record (J.record (ballotLayout J S)) (n + 1) :=
  hJ.record_record (and_sound (required_sound (u64_sound hJ n))
    (and_sound (required_sound (ProposalNumber.serde_sound hJ hn)) (required_sound hS)))
    (by simp [ballotLayout])

theorem accept_record (hn : 2 ≤ n) (hS : J.Sound S n) : J.Record (acceptSerde J S) (n + 1) := by
  refine Serde.via_record (ballotLayout_record hJ hn hS) ?_ fun _ => rfl
  intro m x h
  cases m <;> cases h
  rfl

theorem accepted_record (hn : 2 ≤ n) (hS : J.Sound S n) : J.Record (acceptedSerde J S) (n + 1) := by
  refine Serde.via_record (ballotLayout_record hJ hn hS) ?_ fun _ => rfl
  intro m x h
  cases m <;> cases h
  rfl

theorem decide_record (hS : J.Sound S n) : J.Record (decideSerde J S) (n + 1) := by
  refine Serde.via_record (hJ.record_record (and_sound (required_sound (u64_sound hJ n))
    (required_sound hS)) (by simp)) ?_ fun _ => rfl
  intro m x h
  cases m <;> cases h
  rfl

theorem nackLayout_record (hn : 2 ≤ n) : J.Record (J.record (nackLayout J)) (n + 1) :=
  hJ.record_record (and_sound (required_sound (u64_sound hJ n))
    (and_sound (required_sound (ProposalNumber.serde_sound hJ hn))
      (required_sound (ProposalNumber.serde_sound hJ hn)))) (by simp [nackLayout])

theorem nackPrepare_record (hn : 2 ≤ n) : J.Record (nackPrepareSerde J : Serde J.Value (PaxosMessage V)) (n + 1) := by
  refine Serde.via_record (nackLayout_record hJ hn) ?_ fun _ => rfl
  intro m x h
  cases m <;> cases h
  rfl

theorem nackAccept_record (hn : 2 ≤ n) : J.Record (nackAcceptSerde J : Serde J.Value (PaxosMessage V)) (n + 1) := by
  refine Serde.via_record (nackLayout_record hJ hn) ?_ fun _ => rfl
  intro m x h
  cases m <;> cases h
  rfl

theorem forward_record (hS : J.Sound S n) : J.Record (forwardSerde J S) (n + 1) := by
  refine Serde.via_record (hJ.record_record (required_sound hS) (by simp)) ?_ fun _ => rfl
  intro m x h
  cases m <;> cases h
  rfl

theorem heartbeat_record (n : ℕ) : J.Record (heartbeatSerde J : Serde J.Value (PaxosMessage V)) (n + 1) := by
  refine Serde.via_record (hJ.record_record (required_sound (u64_sound hJ n)) (by simp)) ?_ fun _ => rfl
  intro m x h
  cases m <;> cases h
  rfl

theorem prepareLeader_record (hn : 2 ≤ n) :
    J.Record (prepareLeaderSerde J : Serde J.Value (PaxosMessage V)) (n + 1) := by
  refine Serde.via_record (hJ.record_record (and_sound
    (required_sound (ProposalNumber.serde_sound hJ hn)) (required_sound (u64_sound hJ n)))
    (by simp)) ?_ fun _ => rfl
  intro m x h
  cases m <;> cases h
  rfl

theorem promiseLeader_record (hn : 2 ≤ n) (hS : J.Sound S n) : J.Record (promiseLeaderSerde J S) (n + 3) := by
  have hvotes := hJ.list_sound
    (hJ.triple_sound (u64_sound hJ n) (ProposalNumber.serde_sound hJ hn) hS)
  refine Serde.via_record (hJ.record_record (and_sound
    (required_sound (ProposalNumber.serde_sound hJ (by omega))) (required_sound hvotes))
    (by simp)) ?_ fun _ => rfl
  intro m x h
  cases m <;> cases h
  rfl

theorem nackLeader_record (hn : 2 ≤ n) : J.Record (nackLeaderSerde J : Serde J.Value (PaxosMessage V)) (n + 1) := by
  refine Serde.via_record (hJ.record_record (and_sound
    (required_sound (ProposalNumber.serde_sound hJ hn))
    (required_sound (ProposalNumber.serde_sound hJ hn))) (by simp)) ?_ fun _ => rfl
  intro m x h
  cases m <;> cases h
  rfl

theorem variants_record (multi : Bool) (hn : 2 ≤ n) (hS : J.Sound S n) :
    ∀ v ∈ variants J multi S, J.Record v.2 (n + 3) := by
  intro v hv
  have hle : n + 1 ≤ n + 3 := by omega
  rcases List.mem_append.mp hv with hv | hv
  · simp only [List.mem_cons,List.not_mem_nil,or_false] at hv
    rcases hv with rfl | rfl | rfl | rfl | rfl | rfl | rfl
    · exact (prepare_record hJ hn).mono hle
    · exact (promise_record hJ hn hS).mono (by omega)
    · exact (accept_record hJ hn hS).mono hle
    · exact (accepted_record hJ hn hS).mono hle
    · exact (decide_record hJ hS).mono hle
    · exact (nackPrepare_record hJ hn).mono hle
    · exact (nackAccept_record hJ hn).mono hle
  · cases multi with
    | false => cases hv
    | true =>
      simp only [if_true,List.mem_cons,List.not_mem_nil,or_false] at hv
      rcases hv with rfl | rfl | rfl | rfl | rfl
      · exact (forward_record hJ hS).mono hle
      · exact heartbeat_record hJ _
      · exact (prepareLeader_record hJ hn).mono hle
      · exact promiseLeader_record hJ hn hS
      · exact (nackLeader_record hJ hn).mono hle

omit hJ in
theorem variants_names (multi : Bool) (S : Serde J.Value V) : ((variants J multi S).map Prod.fst).Nodup := by
  cases multi <;> simp [variants]

theorem serde_sound (multi : Bool) (hn : 2 ≤ n) (hS : J.Sound S n) : J.Sound (serde J multi S) (n + 4) :=
  hJ.tagged_sound (variants_names multi S) fun v hv => (variants_record hJ multi hn hS v hv).toSound

end PaxosMessage

end

namespace EventLoop

section

variable {J : SerdeJson} (hJ : J.Lawful) {n : ℕ} {S : Serde J.Value V}
include hJ

theorem WireVariant.paxosSerde_sound (multi : Bool) (hn : 2 ≤ n) (hS : J.Sound S n) :
    J.Sound (paxosSerde J multi S) (n + 4) := by
  refine Serde.via_sound (PaxosMessage.serde_sound hJ multi hn hS) ?_ fun _ => rfl
  intro m x h
  cases m <;> cases h
  rfl

theorem WireVariant.raftSerde_sound (hS : J.Sound S n) : J.Sound (raftSerde J S) (n + 4) := by
  refine Serde.via_sound (RaftMessage.serde_sound hJ hS) ?_ fun _ => rfl
  intro m x h
  cases m <;> cases h
  rfl

theorem WireVariant.serde_sound (multi : Bool) (hn : 2 ≤ n) (hS : J.Sound S n) :
    J.Sound (serde J multi S) (n + 5) := by
  refine hJ.tagged_sound (by simp [variants]) ?_
  intro v hv
  simp only [variants,List.mem_cons,List.not_mem_nil,or_false] at hv
  rcases hv with rfl | rfl
  · exact paxosSerde_sound hJ multi hn hS
  · exact raftSerde_sound hJ hS

theorem messageSerde_record (multi : Bool) (hn : 2 ≤ n) (hS : J.Sound S n) :
    J.Record (messageSerde J multi S) (n + 6) :=
  hJ.record_record (and_sound (required_sound (NodeId.serde_sound hJ (by omega)))
    (required_sound (WireVariant.serde_sound hJ multi hn hS))) (by simp)

end

/-- How deep the JSON of a value may nest: seven levels are around it. -/
def valueDepth : ℕ := 120

section

variable {J : SerdeJson} (hJ : J.Lawful) {S : Serde J.Value V}
include hJ

theorem jsonFormat_record (multi : Bool) (hS : J.Sound S valueDepth) :
    J.Record (messageSerde J multi (Pending.serde J S)) 127 :=
  messageSerde_record hJ multi (by decide) (Pending.serde_sound hJ hS)

theorem jsonFormat_faithful (multi : Bool) (hS : J.Sound S valueDepth) :
    (jsonFormat J multi S).Faithful := by
  intro id msg bytes h
  obtain ⟨v,hv,rfl⟩ := Option.map_eq_some_iff.mp h
  have hrecord := jsonFormat_record hJ multi hS
  have hread : J.fromSlice (J.toVec v) = some v :=
    hJ.fromSlice_toVec (Nat.lt_succ_of_le (hrecord.nests hv))
  show (J.fromSlice (J.toVec v)).bind _ = _
  rw [hread]
  exact hrecord.reads hv

theorem jsonFormat_sends (multi : Bool) (S : Serde J.Value V) (id : NodeId)
    (msg : WireVariant (Pending V)) :
    (∃ bytes, (jsonFormat J multi S).toBytes id msg = some bytes) ↔
      id.Fits ∧ msg.Fits multi (Pending.Fits S.Writes) := by
  have hvalues : (Pending.serde J S).Writes = Pending.Fits S.Writes := by
    funext p
    exact propext (Pending.serde_writes hJ S p)
  rw [← hvalues,← messageSerde_writes hJ multi (Pending.serde J S) id msg]
  simp [jsonFormat,Serde.Writes]

end

/-- A message gets bytes exactly when its numbers are `u64`s and `u8`s and its values
can be written, and then the bytes are read as that message; nothing else is ever
read. -/
theorem wire_round_trip (J : SerdeJson) (hJ : J.Lawful) (multi : Bool) (S : Serde J.Value V)
    (hS : J.Sound S valueDepth) :
    (∀ id msg, (∃ bytes, (jsonFormat J multi S).toBytes id msg = some bytes) ↔
      id.Fits ∧ msg.Fits multi (Pending.Fits S.Writes)) ∧
    (∀ id msg bytes, (jsonFormat J multi S).toBytes id msg = some bytes →
      (jsonFormat J multi S).fromBytes bytes = some (id,msg)) ∧
    ∀ bytes id msg, (jsonFormat J multi S).fromBytes bytes = some (id,msg) →
      id.Fits ∧ msg.Fits multi (Pending.Fits S.Writes) := by
  refine ⟨jsonFormat_sends hJ multi S,jsonFormat_faithful hJ multi hS,?_⟩
  intro bytes id msg h
  obtain ⟨v,_,hv⟩ := Option.bind_eq_some_iff.mp h
  obtain ⟨w,hw⟩ := (jsonFormat_record hJ multi hS).writes hv
  exact (jsonFormat_sends hJ multi S id msg).mp ⟨J.toVec w,by simp [jsonFormat,hw]⟩

def forwarded : WireVariant (Pending ℕ) := .raft (.forward ⟨5,7⟩ 1)

def numberFormat : WireFormat Transport.Bytes ℕ := jsonFormat serdeJson false (u64 serdeJson)

theorem wire_round_trip_forwarded : serdeJson.Lawful ∧ serdeJson.Sound (u64 serdeJson) valueDepth ∧
    ∃ bytes, numberFormat.toBytes ⟨"a",0⟩ forwarded = some bytes ∧
      numberFormat.fromBytes bytes = some (⟨"a",0⟩,forwarded) := by
  have hsound := u64_sound serdeJson_lawful valueDepth
  obtain ⟨hsends,hreads,_⟩ := wire_round_trip serdeJson serdeJson_lawful false (u64 serdeJson) hsound
  have hfits : NodeId.Fits ⟨"a",0⟩ ∧ forwarded.Fits false (Pending.Fits (u64 serdeJson).Writes) := by
    simp [forwarded,NodeId.Fits,WireVariant.Fits,RaftMessage.Fits,Pending.Fits,u64_writes serdeJson_lawful]
  obtain ⟨bytes,hbytes⟩ := (hsends ⟨"a",0⟩ forwarded).mpr hfits
  exact ⟨serdeJson_lawful,hsound,bytes,hbytes,hreads _ _ _ hbytes⟩

theorem WireFormat.Faithful.decodes {F : WireFormat Transport.Bytes V} (hF : F.Faithful)
    {msgs : List (NodeId × WireVariant (Pending V))} {payloads : List Transport.Bytes}
    (h : msgs.mapM (fun m => F.toBytes m.1 m.2) = some payloads) :
    payloads.map F.fromBytes = msgs.map some := by
  induction msgs generalizing payloads with
  | nil =>
    cases h
    rfl
  | cons m ms ih =>
    simp only [List.mapM_cons,Option.bind_eq_bind,Option.bind_eq_some_iff,Option.pure_def,
      Option.some.injEq] at h
    obtain ⟨p,hp,rest,hrest,rfl⟩ := h
    rw [List.map_cons,List.map_cons,ih hrest,hF m.1 m.2 p hp]

/-- Messages written to one connection and decoded at its other end: wherever the byte
stream is cut, the reader gets those that were written whole, in order, and nothing
else. -/
theorem messages_over_stream (kind : Transport.Kind) (F : WireFormat Transport.Bytes V)
    (hF : F.Faithful) (msgs : List (NodeId × WireVariant (Pending V)))
    (calls : List (Transport.Io × Transport.Bytes)) (s' : Transport.Sender)
    (hmsgs : msgs.mapM (fun m => F.toBytes m.1 m.2) = some (calls.map Prod.snd))
    (hok : kind.sendAll .new calls = some s')
    (hsize : ∀ c ∈ calls, c.2.length ≤ Transport.maxMessageSize) (cut : ℕ) :
    ∃ k, (kind.readerTask none ((s'.conn.getD []).take cut)).map F.fromBytes = (msgs.take k).map some ∧
      ∀ i < msgs.length, (i < k ↔ Transport.frameEnd (calls.map Prod.snd) i ≤ cut) := by
  have hpayloads := hF.decodes hmsgs
  have hlength : msgs.length = (calls.map Prod.snd).length := by
    have := congrArg List.length hpayloads
    simpa using this.symm
  have hstream : s'.conn.getD [] = Transport.frames (calls.map Prod.snd) := by
    simpa [Transport.Sender.new] using Transport.Kind.sendAll_ok hok
  have hall : ∀ p ∈ calls.map Prod.snd, p.length ≤ Transport.maxMessageSize := by
    intro p hp
    obtain ⟨c,hc,rfl⟩ := List.mem_map.mp hp
    exact hsize c hc
  obtain ⟨k,hread,hk⟩ := Transport.readFrames_take _ hall cut
  refine ⟨k,?_,fun i hi => hk i (hlength ▸ hi)⟩
  rw [hstream,kind.readerTask_eq,hread,List.map_take,hpayloads,List.map_take]

theorem forwarded_length :
    ∃ bytes, numberFormat.toBytes ⟨"a",0⟩ forwarded = some bytes ∧ bytes.length = 111 := by
  have hlength : (numberFormat.toBytes ⟨"a",0⟩ forwarded).map List.length = some 111 := by
    decide +kernel
  exact Option.map_eq_some_iff.mp hlength

theorem messages_over_stream_tcp : numberFormat.Faithful ∧ ∃ bytes s',
    numberFormat.toBytes ⟨"a",0⟩ forwarded = some bytes ∧
      Transport.Kind.tcp.sendAll .new [(.fine,bytes),(.fine,bytes)] = some s' ∧
      (Transport.Kind.tcp.readerTask none ((s'.conn.getD []).take 200)).map numberFormat.fromBytes =
        [some (⟨"a",0⟩,forwarded)] := by
  have hfaithful : numberFormat.Faithful :=
    jsonFormat_faithful serdeJson_lawful false (u64_sound serdeJson_lawful _)
  obtain ⟨bytes,hbytes,hlength⟩ := forwarded_length
  have hsize : ∀ c ∈ [(Transport.Io.fine,bytes),(Transport.Io.fine,bytes)],
      c.2.length ≤ Transport.maxMessageSize := by
    simp [hlength,Transport.maxMessageSize]
  obtain ⟨k,hread,hk⟩ := messages_over_stream .tcp numberFormat hfaithful
    [(⟨"a",0⟩,forwarded),(⟨"a",0⟩,forwarded)] [(.fine,bytes),(.fine,bytes)] _
    (by simp [hbytes]) rfl hsize 200
  have h0 : 0 < k := (hk 0 (by decide)).mpr (by simp [Transport.frameEnd,hlength])
  have h1 : ¬ 1 < k := fun h => absurd ((hk 1 (by decide)).mp h) (by simp [Transport.frameEnd,hlength])
  obtain rfl : k = 1 := by omega
  exact ⟨hfaithful,bytes,_,hbytes,rfl,hread⟩

section

variable {J : SerdeJson} (hJ : J.Lawful) {S : Serde J.Value V} {n : ℕ}
include hJ

theorem WireVariant.serde_tolerates (multi : Bool) (hn : 2 ≤ n) (hS : J.Sound S n)
    {msg : WireVariant V} {v : J.Value} (hv : (serde J multi S).serialize msg = some v) :
    ∃ protocol tag fields, v = J.object [(protocol,J.object [(tag,J.object fields)])] ∧
      ∀ others, Widens fields others → (serde J multi S).deserialize
        (J.object [(protocol,J.object [(tag,J.object others)])]) = some msg := by
  obtain ⟨u,hu,w,hw,rfl⟩ := hJ.tagged_parts hv
  have hreads := hJ.tagged_reads (by simp [variants]) hu
  simp only [variants,List.mem_cons,List.not_mem_nil,or_false] at hu
  rcases hu with rfl | rfl
  · obtain ⟨m,hm,hw⟩ := Option.bind_eq_some_iff.mp hw
    obtain ⟨tag,fields,rfl,hread⟩ := hJ.tagged_tolerates (PaxosMessage.variants_names multi S)
      (PaxosMessage.variants_record hJ multi hn hS) hw
    refine ⟨_,tag,fields,rfl,fun others hothers => (hreads _).trans ?_⟩
    cases msg <;> cases hm
    exact congrArg (Option.map WireVariant.paxos) (hread others hothers)
  · obtain ⟨m,hm,hw⟩ := Option.bind_eq_some_iff.mp hw
    obtain ⟨tag,fields,rfl,hread⟩ := hJ.tagged_tolerates (RaftMessage.variants_names S)
      (RaftMessage.variants_record hJ hS) hw
    refine ⟨_,tag,fields,rfl,fun others hothers => (hreads _).trans ?_⟩
    cases msg <;> cases hm
    exact congrArg (Option.map WireVariant.raft) (hread others hothers)

theorem messageSerde_reads {multi : Bool} {id : NodeId} {msg : WireVariant V} {sender variant : J.Value}
    {top : List (String × J.Value)} (hid : (NodeId.serde J).deserialize sender = some id)
    (hmsg : (WireVariant.serde J multi S).deserialize variant = some msg)
    (htop : Widens [("sender",sender),("variant",variant)] top) :
    (messageSerde J multi S).deserialize (J.object top) = some (id,msg) := by
  have hnames : (List.map Prod.fst [("sender",sender),("variant",variant)]).Nodup := by
    simp
  have hsender : top.lookup "sender" = some sender :=
    htop.lookup hnames (f := ("sender",sender)) (by simp)
  have hvariant : top.lookup "variant" = some variant :=
    htop.lookup hnames (f := ("variant",variant)) (by simp)
  have hcount : ∀ name ∈ ["sender","variant"], (top.map Prod.fst).count name ≤ 1 :=
    fun name hname => htop.count hnames hname
  rw [messageSerde,hJ.record_object]
  · simp [Layout.read,hsender,hvariant,hid,hmsg]
  · exact hcount

/-- A `Forward` that says nothing about `hops`. -/
theorem forward_without_hops (hS : J.Sound S n) {value : V} {v : J.Value}
    {fields : List (String × J.Value)} (hvalue : S.serialize value = some v)
    (hfields : Widens [("value",v)] fields) (hhops : "hops" ∉ fields.map Prod.fst) :
    (RaftMessage.serde J S).deserialize (J.object [("Forward",J.object fields)]) =
      some (.forward value 0) := by
  have hnames : (List.map Prod.fst [("value",v)]).Nodup := by
    simp
  have hlookup : fields.lookup "value" = some v := hfields.lookup hnames (f := ("value",v)) (by simp)
  have hmissing : fields.lookup "hops" = none := by
    rw [List.lookup_eq_none_iff]
    intro f hf
    rw [bne_iff_ne]
    rintro heq
    exact hhops (heq ▸ List.mem_map_of_mem hf)
  have hcount : ∀ name ∈ ["value","hops"], (fields.map Prod.fst).count name ≤ 1 := by
    intro name hname
    rcases List.mem_cons.mp hname with rfl | hname
    · exact hfields.count hnames (by simp)
    · rw [List.mem_singleton.mp hname,List.count_eq_zero_of_not_mem hhops]
      exact Nat.zero_le _
  have hmem : ("Forward",RaftMessage.forwardSerde J S) ∈ RaftMessage.variants J S := by
    simp [RaftMessage.variants]
  have hread : (J.record ((one (.required "value" S)).and
      (one (.withDefault "hops" (u8 J) 0)))).deserialize (J.object fields) = some (value,0) := by
    rw [hJ.record_object]
    · simp [Layout.read,hlookup,hmissing,hS.reads hvalue,Field.withDefault]
    · exact hcount
  refine (hJ.tagged_reads (RaftMessage.variants_names S) hmem _).trans ?_
  exact congrArg (Option.map fun x => RaftMessage.forward x.1 x.2) hread

end

/-- What other releases may send. A newer one adds fields, and nobody promises an order:
the message is read all the same. An older one knows no `hops`: they are 0. -/
theorem other_releases_understood (J : SerdeJson) (hJ : J.Lawful) (multi : Bool)
    (S : Serde J.Value V) (hS : J.Sound S valueDepth) :
    (∀ id msg v, (messageSerde J multi (Pending.serde J S)).serialize (id,msg) = some v →
      ∃ sender protocol tag fields,
        v = J.object [("sender",sender),
          ("variant",J.object [(protocol,J.object [(tag,J.object fields)])])] ∧
        ∀ others top, Widens fields others →
          Widens [("sender",sender),
            ("variant",J.object [(protocol,J.object [(tag,J.object others)])])] top →
          J.depth (J.object top) < recursionLimit →
          (jsonFormat J multi S).fromBytes (J.toVec (J.object top)) = some (id,msg)) ∧
    ∀ id sender value v fields top, (NodeId.serde J).serialize id = some sender →
      (Pending.serde J S).serialize value = some v →
      Widens [("value",v)] fields → "hops" ∉ fields.map Prod.fst →
      Widens [("sender",sender),
        ("variant",J.object [("Raft",J.object [("Forward",J.object fields)])])] top →
      J.depth (J.object top) < recursionLimit →
      (jsonFormat J multi S).fromBytes (J.toVec (J.object top)) = some (id,.raft (.forward value 0)) := by
  have hpending := Pending.serde_sound hJ hS
  have hid : ∀ {id sender}, (NodeId.serde J).serialize id = some sender →
      (NodeId.serde J).deserialize sender = some id := (NodeId.serde_sound hJ le_rfl).reads
  -- it is enough that the tree is read
  have hbytes : ∀ {top id msg}, (messageSerde J multi (Pending.serde J S)).deserialize (J.object top) =
      some (id,msg) → J.depth (J.object top) < recursionLimit →
      (jsonFormat J multi S).fromBytes (J.toVec (J.object top)) = some (id,msg) := by
    intro top id msg hread hdepth
    show (J.fromSlice (J.toVec (J.object top))).bind _ = _
    rw [hJ.fromSlice_toVec hdepth]
    exact hread
  constructor
  · intro id msg v hv
    rw [messageSerde,hJ.record_serialize] at hv
    obtain ⟨fields,hfields,rfl⟩ := Option.map_eq_some_iff.mp hv
    simp only [Layout.write,Field.required,Option.bind_eq_bind,Option.bind_eq_some_iff,
      Option.map_eq_some_iff,Option.pure_def,Option.some.injEq] at hfields
    obtain ⟨_,⟨sender,hsender,rfl⟩,_,⟨variant,hvariant,rfl⟩,rfl⟩ := hfields
    obtain ⟨protocol,tag,fields,rfl,hread⟩ :=
      WireVariant.serde_tolerates hJ multi (by decide) hpending hvariant
    refine ⟨sender,protocol,tag,fields,rfl,fun others top hothers htop hdepth => ?_⟩
    exact hbytes (messageSerde_reads hJ (hid hsender) (hread others hothers) htop) hdepth
  · intro id sender value v fields top hsender hvalue hfields hhops htop hdepth
    refine hbytes (messageSerde_reads hJ (hid hsender) ?_ htop) hdepth
    have hforward := forward_without_hops hJ hpending hvalue hfields hhops
    have hmem : ("Raft",WireVariant.raftSerde J (Pending.serde J S)) ∈
        WireVariant.variants J multi (Pending.serde J S) := by
      simp [WireVariant.variants]
    refine (hJ.tagged_reads (by simp [WireVariant.variants]) hmem _).trans ?_
    exact congrArg (Option.map WireVariant.raft) hforward

/-- A `Forward` as a release without `hops` but with an `epoch` would send it. -/
def foreignForward : List (String × Json) :=
  [("variant",.object [("Raft",.object [("Forward",.object
      [("epoch",.null),("value",.object [("nonce",.number (.ofNat 5)),("value",.number (.ofNat 7))])])])]),
    ("sender",.object [("name",.string "a"),("incarnation",.number (.ofNat 0))])]

theorem other_releases_understood_foreign : serdeJson.Lawful ∧
    serdeJson.Sound (u64 serdeJson) valueDepth ∧
    numberFormat.fromBytes (serdeJson.toVec (serdeJson.object foreignForward)) =
      some (⟨"a",0⟩,.raft (.forward ⟨5,7⟩ 0)) := by
  have hsound := u64_sound serdeJson_lawful valueDepth
  refine ⟨serdeJson_lawful,hsound,?_⟩
  refine (other_releases_understood serdeJson serdeJson_lawful false (u64 serdeJson) hsound).2 ⟨"a",0⟩
    (Json.object [("name",.string "a"),("incarnation",.number (.ofNat 0))]) ⟨5,7⟩
    (Json.object [("nonce",.number (.ofNat 5)),("value",.number (.ofNat 7))])
    [("epoch",Json.null),("value",Json.object [("nonce",.number (.ofNat 5)),("value",.number (.ofNat 7))])]
    foreignForward rfl rfl ?_ (by decide) ?_ (by decide)
  · simp [Widens]
  · simp only [Widens,foreignForward]
    exact List.Perm.swap _ _ _

end EventLoop

end Daccord
