import Daccord.EventLoopRuns
import Daccord.PaxosNodes
import Daccord.RaftFifo

/-! `Node::run` over `ProtocolImpl`: what holds of the calls and of the decision channel
for both protocols, and that the loop of a Raft node takes the turns of `RaftNode`. -/
namespace Daccord
namespace EventLoop

open Raft (RaftProtocol RaftStorage RaftNode Adapter turn StorageCall)
open Paxos (PaxosProtocol PaxosEnv)

variable {B V : Type}

inductive WireVariant (V : Type)
  | paxos (msg : PaxosMessage V)
  | raft (msg : RaftMessage V)

/-- `Message::to_bytes` and `Message::from_bytes`. -/
structure WireFormat (B V : Type) where
  toBytes : NodeId → WireVariant (Pending V) → Option B
  fromBytes : B → Option (NodeId × WireVariant (Pending V))

/-- Both protocols own their storage. -/
inductive ProtocolImpl (V : Type)
  | paxos (p : PaxosProtocol (Pending V)) (storage : AList fun _ : ℕ => V)
  | raft (p : RaftProtocol (Pending V)) (storage : RaftStorage V)

/-- Storage call number `index` fails or is not waited for; it may have taken effect all
the same. -/
structure Fault where
  index : ℕ
  applied : Bool
  stop : Stop

structure Outside where
  raft : Env
  paxos : PaxosEnv
  load : Option StorageError
  flush : Option Fault
  interrupted : Option ℕ
  drain : Option Fault

/-- The calls that take effect, and why there are no more. -/
def Fault.cut {C : Type} (calls : List C) : Option Fault → List C × Option Stop
  | none => (calls,none)
  | some f =>
    if f.index < calls.length then (calls.take (f.index + f.applied.toNat),some f.stop)
    else (calls,none)

def wrapRaft (o : Outgoing (RaftMessage V)) : Outgoing (WireVariant V) := ⟨o.target,.raft o.message⟩

def wrapPaxos (o : Outgoing (PaxosMessage V)) : Outgoing (WireVariant V) :=
  ⟨o.target,.paxos o.message⟩

namespace ProtocolImpl

def ignore (P : ProtocolImpl V) : ProtocolImpl V × List (Outgoing (WireVariant (Pending V))) := (P,[])

def ofRaft (storage : RaftStorage V) (r : Raft.Reply (Pending V)) :
    ProtocolImpl V × List (Outgoing (WireVariant (Pending V))) :=
  (.raft r.1 storage,r.2.map wrapRaft)

def ofPaxos (storage : AList fun _ : ℕ => V) (r : Paxos.Reply (Pending V)) :
    ProtocolImpl V × List (Outgoing (WireVariant (Pending V))) :=
  (.paxos r.1 storage,r.2.map wrapPaxos)

def recover (env : Outside) (P : ProtocolImpl V) : ProtocolImpl V × Option StorageError :=
  match env.load, P with
  | some e, P => (P,some e)
  | none, .paxos p storage =>
    (.paxos (p.initializeFromDecisions (storage.entries.map fun d => (d.1,⟨0,d.2⟩))) storage,none)
  | none, .raft p storage => (.raft (p.recover .pending env.raft storage) storage,none)

def flushPersist (env : Outside) : ProtocolImpl V → ProtocolImpl V × Option Stop
  | .paxos p storage => (.paxos p storage,none)
  | .raft p storage =>
    let r := Fault.cut (p.drainPersistIntent.2.calls .pending) env.flush
    (.raft p.drainPersistIntent.1 (storage.calls r.1),r.2)

def outcome (ds : List (Decision (Pending V))) :
    Option Stop → Except Stop (List (Decision (Pending V)))
  | none => .ok ds
  | some stop => .error stop

def drainDecisions (env : Outside) :
    ProtocolImpl V → ProtocolImpl V × Except Stop (List (Decision (Pending V)))
  | .paxos p storage =>
    let r := Fault.cut p.takeDecisions.2 env.drain
    (.paxos p.takeDecisions.1 (Paxos.saveAll storage r.1),outcome p.takeDecisions.2 r.2)
  | .raft p storage =>
    let r := Fault.cut (p.takeDecisions.2.map fun d => StorageCall.saveDecision d.slot d.value.value)
      env.drain
    (.raft p.takeDecisions.1 (storage.calls r.1),outcome p.takeDecisions.2 r.2)

def takeLostProposals : ProtocolImpl V → ProtocolImpl V × List (Pending V)
  | .paxos p storage => (.paxos p.takeLostProposals.1 storage,p.takeLostProposals.2)
  | .raft p storage => (.raft p.takeLostProposals.1 storage,p.takeLostProposals.2)

def isIdle : ProtocolImpl V → Bool
  | .paxos p _ => p.instances.entries.isEmpty
  | .raft p _ => p.log.isEmpty && p.pendingProposals.isEmpty && p.lostProposals.isEmpty &&
      decide (p.role ≠ .leader)

def peekState : ProtocolImpl V → ProtocolSnapshot
  | .paxos _ _ => ⟨none,0,none,none,0,none,none⟩
  | .raft p _ =>
    { role := match p.role with
        | .follower => some .follower
        | .candidate => some .candidate
        | .leader => some .leader
      term := p.currentTerm
      leader := p.leader
      votedFor := p.votedFor
      logLen := p.log.length
      commitIndex := p.commitIndex
      lastApplied := p.lastApplied }

variable [DecidableEq V]

def propose (env : Outside) (P : ProtocolImpl V) (value : Pending V) :
    ProtocolImpl V × List (Outgoing (WireVariant (Pending V))) :=
  match P with
  | .paxos p storage => ofPaxos storage (p.propose env.paxos value)
  | .raft p storage => ofRaft storage (p.propose env.raft value)

/-- Messages of the other protocol are dropped. -/
def handleWireMessage (env : Outside) (P : ProtocolImpl V) (sender : NodeId)
    (msg : WireVariant (Pending V)) : ProtocolImpl V × List (Outgoing (WireVariant (Pending V))) :=
  match P, msg with
  | .paxos p storage, .paxos m => ofPaxos storage (p.handleMessage env.paxos sender m)
  | .raft p storage, .raft m => ofRaft storage (p.handleMessage env.raft sender m)
  | .paxos p storage, .raft _ => (ProtocolImpl.paxos p storage).ignore
  | .raft p storage, .paxos _ => (ProtocolImpl.raft p storage).ignore

def onTick (env : Outside) :
    ProtocolImpl V → ProtocolImpl V × List (Outgoing (WireVariant (Pending V)))
  | .paxos p storage => ofPaxos storage (p.onTick env.paxos)
  | .raft p storage => ofRaft storage (p.onTick env.raft)

end ProtocolImpl

def protocolImpl [DecidableEq V] (F : WireFormat B V) :
    Engine (ProtocolImpl V) Outside B (WireVariant (Pending V)) V where
  recover := ProtocolImpl.recover
  propose := ProtocolImpl.propose
  handleWireMessage := ProtocolImpl.handleWireMessage
  onTick := ProtocolImpl.onTick
  flushPersist := ProtocolImpl.flushPersist
  drainDecisions := ProtocolImpl.drainDecisions
  takeLostProposals := ProtocolImpl.takeLostProposals
  isIdle := ProtocolImpl.isIdle
  peekState := ProtocolImpl.peekState
  interrupted := Outside.interrupted
  toBytes := F.toBytes
  fromBytes := F.fromBytes

/-! ### The loop of a Raft node takes the turns of `RaftNode` -/

structure Journal (V : Type) where
  node : RaftNode (Pending V) V
  sent : List (Outgoing (RaftMessage (Pending V)))
  emitted : List (Decision (Pending V))

def Journal.step (j : Journal V) (w : Raft.Wake (Pending V)) : Option (Journal V) :=
  (j.node.accepts w.input).map fun r =>
    let t := turn .pending w.env j.node.protocol r.1
    let effects := w.fate.cut (t.effects .pending)
    { node := j.node.after .pending w.env t r.2 w.fate
      sent := j.sent ++ effects.filterMap Raft.Effect.sent
      emitted := j.emitted ++ effects.flatMap Raft.Effect.emitted }

theorem emitted_of_turn {A : Adapter (Pending V) V} (t : Raft.Turn (Pending V) V) :
    (t.effects A).flatMap Raft.Effect.emitted = t.decisions := by
  have hall := t.emitted_cut A (t.effects A).length
  rwa [List.take_length,if_pos (by simp [Raft.Turn.effects])] at hall

theorem sent_of_turn {A : Adapter (Pending V) V} (t : Raft.Turn (Pending V) V) :
    (t.effects A).filterMap Raft.Effect.sent = t.outgoing := by
  have hall := t.sent_cut A (t.effects A).length
  rw [List.take_length] at hall
  rw [hall,List.take_of_length_le (by simp [Raft.Turn.effects])]

theorem Fault.cut_cases {C : Type} (calls : List C) (fault : Option Fault) :
    Fault.cut calls fault = (calls,none) ∨
      ∃ k stop, k ≤ calls.length ∧ Fault.cut calls fault = (calls.take k,some stop) := by
  cases fault with
  | none => exact Or.inl rfl
  | some f =>
    by_cases hlt : f.index < calls.length
    · refine Or.inr ⟨f.index + f.applied.toNat,f.stop,?_,if_pos hlt⟩
      have := Bool.toNat_le f.applied
      omega
    · exact Or.inl (if_neg hlt)

section
variable [DecidableEq V] (F : WireFormat B V) (C : Setup)

def onWire (outs : List (Outgoing (RaftMessage (Pending V)))) : List (NodeId × B) :=
  sendOutgoing (protocolImpl F) C (outs.map wrapRaft)

variable {F C} {w₀ w w' : World (ProtocolImpl V) B V} {chance : Chance} {p : RaftProtocol (Pending V)}
  {st : RaftStorage V}

theorem onWire_append (xs ys : List (Outgoing (RaftMessage (Pending V)))) :
    onWire F C (xs ++ ys) = onWire F C xs ++ onWire F C ys := by
  rw [onWire,List.map_append,sendOutgoing,List.flatMap_append]
  rfl

/-- The rest of a round is the rest of the turn, or the turn stops somewhere. -/
theorem finish_raft (env : Outside) (chance : Chance) (w : World (ProtocolImpl V) B V)
    (p : RaftProtocol (Pending V)) (st : RaftStorage V) (input : Raft.Input (Pending V)) :
    let t := turn .pending env.raft p input
    let r := ProtocolImpl.ofRaft st (p.handle env.raft input)
    w.finish (protocolImpl F) C env chance r =
      ({ w with
          protocol := .raft t.sending.takeDecisions.1 (st.calls (t.calls ++ t.saves .pending))
          sent := w.sent ++ onWire F C t.outgoing
          desk := w.desk.processDecisions chance t.decisions },none) ∨
    ∃ k stop q packets, packets <+: onWire F C (((t.effects .pending).take k).filterMap Raft.Effect.sent) ∧
      w.finish (protocolImpl F) C env chance r =
        ({ w with
            protocol := .raft q (st.calls (((t.effects .pending).take k).filterMap Raft.Effect.stored))
            sent := w.sent ++ packets },some stop) := by
  intro t r
  have hflushPersist : (protocolImpl F).flushPersist env r.1 = (.raft t.sending
      (st.calls (Fault.cut t.calls env.flush).1),(Fault.cut t.calls env.flush).2) := rfl
  have hdrainDecisions : ∀ st', (protocolImpl F).drainDecisions env (.raft t.sending st') =
      (.raft t.sending.takeDecisions.1 (st'.calls (Fault.cut (t.saves .pending) env.drain).1),
        ProtocolImpl.outcome t.decisions (Fault.cut (t.saves .pending) env.drain).2) := fun _ => rfl
  have hsent : sendOutgoing (protocolImpl F) C r.2 = onWire F C t.outgoing := rfl
  have hinterrupted : (protocolImpl F).interrupted env = env.interrupted := rfl
  have hcalls : ∀ cs cs' : List (StorageCall V), (st.calls cs).calls cs' = st.calls (cs ++ cs') := by
    intro cs cs'
    exact (List.foldl_append).symm
  -- a turn that ends after its messages has done all its writes before
  have hcut : ∀ n, t.calls.length + t.outgoing.length ≤ n →
      t.calls.take n = t.calls ∧ t.outgoing.take (n - t.calls.length) = t.outgoing := by
    intro n hn
    exact ⟨List.take_of_length_le (by omega),List.take_of_length_le (by omega)⟩
  rcases Fault.cut_cases t.calls env.flush with hflush | ⟨k,stop,hk,hflush⟩
  · rw [hflush] at hflushPersist
    cases hdrop : env.interrupted with
    | some k =>
      right
      refine ⟨t.calls.length + t.outgoing.length,.dropped,t.sending,(onWire F C t.outgoing).take k,?_,?_⟩
      · rw [t.sent_cut,(hcut _ le_rfl).2]
        exact List.take_prefix _ _
      · have hzero : t.calls.length + t.outgoing.length - (t.calls.length + t.outgoing.length + 1) = 0 := by
          omega
        rw [t.stored_cut,(hcut _ le_rfl).1,hzero,List.take_zero,List.append_nil]
        simp only [World.finish,hflushPersist,hinterrupted,hdrop,hsent]
    | none =>
      rcases Fault.cut_cases (t.saves .pending) env.drain with hdrain | ⟨k,stop,hk,hdrain⟩
      · left
        rw [hdrain] at hdrainDecisions
        simp only [World.finish,hflushPersist,hinterrupted,hdrop,hdrainDecisions,ProtocolImpl.outcome,
          hcalls,hsent]
      · right
        rw [hdrain] at hdrainDecisions
        refine ⟨t.calls.length + t.outgoing.length + (1 + k),stop,t.sending.takeDecisions.1,
          onWire F C t.outgoing,?_,?_⟩
        · rw [t.sent_cut,(hcut _ (Nat.le_add_right _ _)).2]
        · have hlast : t.calls.length + t.outgoing.length + (1 + k) -
              (t.calls.length + t.outgoing.length + 1) = k := by omega
          rw [t.stored_cut,(hcut _ (Nat.le_add_right _ _)).1,hlast]
          simp only [World.finish,hflushPersist,hinterrupted,hdrop,hdrainDecisions,
            ProtocolImpl.outcome,hcalls,hsent]
  · right
    rw [hflush] at hflushPersist
    refine ⟨k,stop,t.sending,[],List.nil_prefix,?_⟩
    have hzero : k - (t.calls.length + t.outgoing.length + 1) = 0 := by omega
    rw [t.stored_cut,hzero,List.take_zero,List.append_nil,List.append_nil]
    simp only [World.finish,hflushPersist]

/-- Since `w₀` the disk, what the node has sent and what it has drained are those of a
process; the last turn of that one may have sent and handed out more. -/
structure Remains (F : WireFormat B V) (C : Setup) (w₀ w : World (ProtocolImpl V) B V)
    (j : Journal V) : Prop where
  storage : ∃ p, w.protocol = .raft p j.node.storage
  sent : w.sent <+: w₀.sent ++ onWire F C j.sent
  drained : w.desk.drained <+: w₀.desk.drained ++ j.emitted

/-- The node is a process, in the middle of the loop over the lost proposals. -/
structure Mirrors (F : WireFormat B V) (C : Setup) (w₀ w : World (ProtocolImpl V) B V)
    (j : Journal V) (backlog : List (Pending V)) : Prop where
  protocol : w.protocol = .raft j.node.protocol j.node.storage
  backlog : j.node.backlog = backlog
  sent : w.sent = w₀.sent ++ onWire F C j.sent
  drained : w.desk.drained = w₀.desk.drained ++ j.emitted

variable {j : Journal V} {backlog rest : List (Pending V)}

theorem Mirrors.remains (h : Mirrors F C w₀ w j backlog) : Remains F C w₀ w j :=
  ⟨⟨_,h.protocol⟩,h.sent ▸ List.prefix_refl _,h.drained ▸ List.prefix_refl _⟩

/-- Only the protocol, what was sent and what was drained matter. -/
theorem Mirrors.same (h : Mirrors F C w₀ w j backlog) (hp : w'.protocol = w.protocol)
    (hs : w'.sent = w.sent) (hd : w'.desk.drained = w.desk.drained) : Mirrors F C w₀ w' j backlog :=
  ⟨hp.trans h.protocol,h.backlog,hs.trans h.sent,hd.trans h.drained⟩

theorem Remains.same (h : Remains F C w₀ w j) (hp : w'.protocol = w.protocol) (hs : w'.sent = w.sent)
    (hd : w'.desk.drained = w.desk.drained) : Remains F C w₀ w' j :=
  ⟨hp ▸ h.storage,hs ▸ h.sent,hd ▸ h.drained⟩

theorem Mirrors.finish (h : Mirrors F C w₀ w j backlog) (env : Outside) (chance : Chance)
    {wake : Option (Raft.Input (Pending V))} {input : Raft.Input (Pending V)}
    (ha : j.node.accepts wake = some (input,rest)) :
    let t := turn .pending env.raft j.node.protocol input
    let r := w.finish (protocolImpl F) C env chance
      (ProtocolImpl.ofRaft j.node.storage (j.node.protocol.handle env.raft input))
    (r.2 = none ∧ ∃ j', j.step ⟨env.raft,wake,.completes⟩ = some j' ∧
      r.1.protocol = .raft t.sending.takeDecisions.1 j'.node.storage ∧
      j'.node.protocol = t.final ∧ j'.node.backlog = rest ++ t.lost ∧
      r.1.sent = w₀.sent ++ onWire F C j'.sent ∧
      r.1.desk.drained = w₀.desk.drained ++ j'.emitted) ∨
    (r.2.isSome ∧ ∃ k j', j.step ⟨env.raft,wake,.dies k⟩ = some j' ∧ Remains F C w₀ r.1 j') := by
  intro t r
  rcases finish_raft (F := F) (C := C) env chance w j.node.protocol j.node.storage input with
    heq | ⟨k,stop,q,packets,hpackets,heq⟩
  · have hr : r = _ := heq
    refine Or.inl ⟨by rw [hr],⟨j.node.after .pending env.raft t rest .completes,
      j.sent ++ t.outgoing,j.emitted ++ t.decisions⟩,?_,?_,rfl,rfl,?_,?_⟩
    · simp only [Journal.step,ha,Option.map_some,Raft.Fate.cut]
      rw [sent_of_turn,emitted_of_turn]
    · rw [hr]
      simp only [RaftNode.after,Raft.Fate.cut]
      rw [t.stored_all]
    · rw [hr,onWire_append,← List.append_assoc,← h.sent]
    · rw [hr,(Desk.processDecisions_keeps chance t.decisions w.desk).2.2.2.1,h.drained,
        List.append_assoc]
  · have hr : r = _ := heq
    refine Or.inr ⟨by rw [hr]; rfl,k,⟨j.node.after .pending env.raft t rest (.dies k),
      j.sent ++ ((t.effects .pending).take k).filterMap Raft.Effect.sent,
      j.emitted ++ ((t.effects .pending).take k).flatMap Raft.Effect.emitted⟩,?_,⟨q,?_⟩,?_,?_⟩
    · simp only [Journal.step,ha,Option.map_some,Raft.Fate.cut]
      rfl
    · rw [hr]
      rfl
    · rw [hr,onWire_append,← List.append_assoc,← h.sent]
      exact (List.prefix_append_right_inj _).mpr hpackets
    · rw [hr,← List.append_assoc,← h.drained]
      exact List.prefix_append _ _

/-- The process goes on to `j'`, and mirrors the node as long as nothing fails. -/
structure Shadowed (F : WireFormat B V) (C : Setup) (w₀ : World (ProtocolImpl V) B V) (j' : Journal V)
    (r : World (ProtocolImpl V) B V × Option Stop) : Prop where
  remains : Remains F C w₀ r.1 j'
  mirrors : r.2 = none → Mirrors F C w₀ r.1 j' []

def Reproposes (_ : Journal V) (wake : Raft.Wake (Pending V)) : Prop := wake.input = none

theorem Mirrors.reproposeLost (envs : ℕ → Outside) (chance : Chance) (lost : List (Pending V)) (k : ℕ)
    {w : World (ProtocolImpl V) B V} {j : Journal V} (h : Mirrors F C w₀ w j lost) :
    ∃ j', Runs.Reaches Journal.step Reproposes j j' ∧
      Shadowed F C w₀ j' (w.reproposeLost (protocolImpl F) C envs chance k lost) := by
  induction lost generalizing k w j with
  | nil => exact ⟨j,.start,h.remains,fun _ => h⟩
  | cons value lost ih =>
    have ha : j.node.accepts none = some (.propose value,lost) := by
      simp [RaftNode.accepts,h.backlog]
    have hpropose : (protocolImpl F).propose (envs k) w.protocol value =
        ProtocolImpl.ofRaft j.node.storage (j.node.protocol.handle (envs k).raft (.propose value)) := by
      rw [h.protocol]
      rfl
    unfold World.reproposeLost
    rw [hpropose]
    rcases h.finish (envs k) chance ha with ⟨hnone,j',hstep,hp,hproto,hback,hsent,hdrained⟩ |
      ⟨hsome,n,j',hstep,hremains⟩
    · -- re-proposals take no lost proposals
      have hback' : j'.node.backlog = lost := hback.trans (List.append_nil lost)
      have hmirrors : Mirrors F C w₀ (w.finish (protocolImpl F) C (envs k) chance (ProtocolImpl.ofRaft
          j.node.storage (j.node.protocol.handle (envs k).raft (.propose value)))).1 j' lost :=
        ⟨hp.trans (by rw [hproto]; rfl),hback',hsent,hdrained⟩
      split
      · rename_i heq
        rw [heq] at hnone
        cases hnone
      · rename_i w' heq
        rw [heq] at hmirrors
        obtain ⟨j'',hreach,hrest⟩ := ih (k + 1) hmirrors
        have hnext : Runs.Reaches Journal.step Reproposes j j' :=
          .next .start (show Reproposes j ⟨_,none,_⟩ from rfl) hstep
        exact ⟨j'',hnext.trans hreach,hrest⟩
    · split
      · rename_i w' stop heq
        rw [heq] at hremains
        refine ⟨j',.next .start (show Reproposes j ⟨_,none,_⟩ from rfl) hstep,hremains,fun hno => ?_⟩
        cases hno
      · rename_i heq
        rw [heq] at hsome
        cases hsome

/-- One input is taken, and then what it cost is proposed again. -/
def Journal.Takes (j : Journal V) (input : Raft.Input (Pending V)) (j' : Journal V) : Prop :=
  ∃ env fate j₁, j.step ⟨env,some input,fate⟩ = some j₁ ∧ Runs.Reaches Journal.step Reproposes j₁ j'

theorem Shadowed.publishState {j' : Journal V} {r : World (ProtocolImpl V) B V × Option Stop}
    (h : Shadowed F C w₀ j' r) : Shadowed F C w₀ j' (World.publishState (protocolImpl F) C r) := by
  obtain ⟨w',stop⟩ := r
  cases stop with
  | none => exact ⟨h.remains.same rfl rfl rfl,fun _ => (h.mirrors rfl).same rfl rfl rfl⟩
  | some stop => exact h

theorem Mirrors.act (h : Mirrors F C w₀ w j []) (env : Outside) (chance : Chance)
    (input : Raft.Input (Pending V)) (hinput : ∀ sender msg, input ≠ .message sender msg) :
    ∃ j', j.Takes input j' ∧ Shadowed F C w₀ j' (w.finish (protocolImpl F) C env chance
      (ProtocolImpl.ofRaft j.node.storage (j.node.protocol.handle env.raft input))) := by
  have ha : j.node.accepts (some input) = some (input,[]) := by
    simp [RaftNode.accepts,h.backlog]
  have hquiet : (turn .pending env.raft j.node.protocol input).final =
      (turn .pending env.raft j.node.protocol input).sending.takeDecisions.1 ∧
      (turn .pending env.raft j.node.protocol input).lost = [] := by
    cases input with
    | propose value => exact ⟨rfl,rfl⟩
    | tick => exact ⟨rfl,rfl⟩
    | message sender msg => exact absurd rfl (hinput sender msg)
  rcases h.finish env chance ha with ⟨hnone,j',hstep,hp,hproto,hback,hsent,hdrained⟩ |
    ⟨hsome,n,j',hstep,hremains⟩
  · rw [hquiet.1] at hproto
    rw [hquiet.2] at hback
    have hmirrors : Mirrors F C w₀ _ j' [] := ⟨hp.trans (by rw [hproto]),hback,hsent,hdrained⟩
    exact ⟨j',⟨_,_,_,hstep,.start⟩,hmirrors.remains,fun _ => hmirrors⟩
  · refine ⟨j',⟨_,_,_,hstep,.start⟩,hremains,fun hno => ?_⟩
    rw [hno] at hsome
    cases hsome

theorem Mirrors.message (h : Mirrors F C w₀ w j []) (envs : ℕ → Outside) (chance : Chance)
    (sender : NodeId) {msg : WireVariant (Pending V)} {m : RaftMessage (Pending V)}
    (hmsg : (protocolImpl F).handleWireMessage (envs 0) w.protocol sender msg =
      ProtocolImpl.ofRaft j.node.storage (j.node.protocol.handle (envs 0).raft (.message sender m))) :
    ∃ j', j.Takes (.message sender m) j' ∧
      Shadowed F C w₀ j' (w.handleMessage (protocolImpl F) C envs chance sender msg) := by
  unfold World.handleMessage
  rw [hmsg]
  have ha : j.node.accepts (some (.message sender m)) = some (.message sender m,[]) := by
    simp [RaftNode.accepts,h.backlog]
  rcases h.finish (envs 0) chance ha with ⟨hnone,j₁,hstep,hp,hproto,hback,hsent,hdrained⟩ |
    ⟨hsome,n,j₁,hstep,hremains⟩
  · split
    · rename_i heq
      rw [heq] at hnone
      cases hnone
    · rename_i w' heq
      rw [heq] at hp hsent hdrained
      have hmirrors : Mirrors F C w₀
          { w' with protocol := (ProtocolImpl.takeLostProposals w'.protocol).1 }
          j₁ (ProtocolImpl.takeLostProposals w'.protocol).2 := by
        refine ⟨?_,?_,hsent,hdrained⟩
        · rw [hp,hproto]
          rfl
        · rw [hp,hback]
          rfl
      obtain ⟨j',hreach,hrest⟩ := hmirrors.reproposeLost envs chance _ 1
      exact ⟨j',⟨_,_,_,hstep,hreach⟩,hrest⟩
  · split
    · rename_i w' stop heq
      rw [heq] at hremains
      refine ⟨j₁,⟨_,_,_,hstep,.start⟩,hremains,fun hno => ?_⟩
      cases hno
    · rename_i heq
      rw [heq] at hsome
      cases hsome

theorem Mirrors.submission (h : Mirrors F C w₀ w j []) (env : Outside) (chance : Chance)
    (s : Submission V) : ∃ j', j.Takes (.propose s.pending) j' ∧
      Shadowed F C w₀ j' (w.handleSubmission (protocolImpl F) C env chance s) := by
  have hpropose : (protocolImpl F).propose env w.protocol s.pending = ProtocolImpl.ofRaft
      j.node.storage (j.node.protocol.handle env.raft (.propose s.pending)) := by
    rw [h.protocol]
    rfl
  have hentered : Mirrors F C w₀ { w with desk := w.desk.insert s } j [] := h.same rfl rfl rfl
  obtain ⟨j',htakes,hshadow⟩ := hentered.act env chance (.propose s.pending) (by simp)
  rw [World.handleSubmission,hpropose]
  exact ⟨j',htakes,hshadow.publishState⟩

theorem Mirrors.retries (h : Mirrors F C w₀ w j []) (env : Outside) (chance : Chance) :
    ∃ j', j.Takes .tick j' ∧ Shadowed F C w₀ j' (w.handleRetries (protocolImpl F) C env chance) := by
  have htick : (protocolImpl F).onTick env w.protocol =
      ProtocolImpl.ofRaft j.node.storage (j.node.protocol.handle env.raft .tick) := by
    rw [h.protocol]
    rfl
  obtain ⟨j',htakes,hshadow⟩ := h.act env chance .tick (by simp)
  rw [World.handleRetries,htick]
  exact ⟨j',htakes,hshadow.publishState⟩

end

/-! ### The callers and the decision receiver -/

/-- Messages go over the links as they are. -/
def plain : WireFormat (NodeId × WireVariant (Pending V)) V where
  toBytes id msg := some (id,msg)
  fromBytes := some

/-- Nothing goes wrong at time `now`. -/
def onTime (now : ℕ) : Outside := ⟨⟨now,0⟩,⟨now,fun _ => 0,fun _ n => n⟩,none,none,none,none⟩

def alone : Setup := ⟨⟨"a",1⟩,.raft,[]⟩

/-- A node on its own elects itself, takes 7, answers the call and hands the decision
out; then the last handle is dropped. -/
def aloneServed : World (ProtocolImpl ℕ) (NodeId × WireVariant (Pending ℕ)) ℕ :=
  Runs.after (World.step (protocolImpl plain) alone) (Attentive (protocolImpl plain) alone)
    (.new alone (.raft (.new ⟨0,0⟩ alone.nodeId 1 ⟨50,150,300⟩) .new))
    [.run (onTime 0),.call 1 7,.tick (onTime 1000) .still,.submission (onTime 1001) .still,
      .takeDecision,.dropHandle,.submission (onTime 1002) .still] (by decide +kernel)

section
variable {P E M : Type} [DecidableEq V]

/-- A call of `propose` is answered, waits in the map or waits in the queue, and only one
of them; when the loop is over it is answered. Whoever gets a decision gets one with the
nonce of the call, or a recovered one with its value, and no decision goes to two calls. -/
theorem calls_answered (G : Engine P E B M V) (C : Setup) (p : P) (w : World P B V)
    (h : Runs.Reaches (World.step G C) (fun _ _ => True) (.new C p) w) :
    (w.desk.answers.map Prod.fst ++ w.desk.pending.completions ++
      w.queue.map Submission.completion).Perm (List.range w.calls.length) ∧
    (w.exit.isSome → (w.desk.answers.map Prod.fst).Perm (List.range w.calls.length)) ∧
    (∀ call x, (call,.ok x) ∈ w.desk.answers → Truthful w.calls w.desk.drained call x) ∧
    w.desk.granted.Sublist (w.desk.drained.map reveal) := by
  have hok := (World.Sound.reaches h).ok
  refine ⟨hok.accounted,fun hexit => ?_,hok.desk.truthful,hok.desk.inOrder⟩
  obtain ⟨hqueue,hpending⟩ := hok.stopped hexit
  have hall := hok.accounted
  rw [World.ids,Desk.ids,hqueue,hpending] at hall
  simpa [PendingMap.completions] using hall

theorem calls_answered_alone :
    aloneServed.exit = some .finished ∧ aloneServed.desk.granted = [⟨0,7⟩] ∧
    (aloneServed.desk.answers.map Prod.fst).Perm (List.range aloneServed.calls.length) :=
  ⟨by decide +kernel,by decide +kernel,
    (calls_answered (protocolImpl plain) alone _ aloneServed ((Runs.after_reaches .start
      (by decide +kernel)).weaken fun _ _ _ => trivial)).2.1 (by decide +kernel)⟩

/-- The decision receiver gets decisions in the order in which they are drained, and all
of them if the channel always has room for those of one step. -/
theorem receiver_hears (G : Engine P E B M V) (C : Setup) (p : P) (w : World P B V)
    (h : Runs.Reaches (World.step G C) (fun _ _ => True) (.new C p) w) :
    (w.desk.taken ++ w.desk.channel).Sublist (w.desk.drained.map reveal) ∧
    w.desk.channel.length ≤ decisionChannelCapacity ∧
    (Runs.Reaches (World.step G C) (Attentive G C) (.new C p) w →
      w.desk.taken ++ w.desk.channel = w.desk.drained.map reveal) :=
  ⟨(World.Sound.reaches h).ok.desk.delivered,(World.Sound.reaches h).ok.desk.room,
    fun hall => (World.Heard.reaches hall).all⟩

theorem receiver_hears_alone :
    aloneServed.desk.taken = [⟨0,7⟩] ∧
    aloneServed.desk.taken ++ aloneServed.desk.channel = aloneServed.desk.drained.map reveal := by
  have hall : Runs.Reaches (World.step (protocolImpl plain) alone)
      (Attentive (protocolImpl plain) alone)
      (.new alone (.raft (.new ⟨0,0⟩ alone.nodeId 1 ⟨50,150,300⟩) .new)) aloneServed :=
    Runs.after_reaches .start (by decide +kernel)
  exact ⟨by decide +kernel,(receiver_hears (protocolImpl plain) alone _ aloneServed
    (hall.weaken fun _ _ _ => trivial)).2.2 hall⟩

end
end EventLoop
end Daccord
