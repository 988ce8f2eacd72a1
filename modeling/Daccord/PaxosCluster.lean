import Daccord.Paxos
import Daccord.Network

/-! A cluster of Paxos processes. Packets stay in `sent` and can be delivered at
any later time, any number of times or never, so that loss, duplication and
reordering need no steps of their own. -/
namespace Daccord
namespace Paxos

variable {V : Type} {N : ℕ}

structure Membership (N : ℕ) extends Daccord.Membership N where
  config : PaxosConfig
  multi : Bool

structure Wire (V : Type) where
  sender : NodeId
  variant : PaxosMessage V
  deriving DecidableEq

abbrev Packet (N : ℕ) (V : Type) := Daccord.Packet N (Wire V)

/-- A running node: the protocol and the decisions its `PaxosStorage` holds. -/
structure Process (V : Type) where
  protocol : PaxosProtocol V
  storage : AList fun _ : ℕ => V

structure Cluster (N : ℕ) (V : Type) where
  nodes : Fin N → Process V
  sent : List (Packet N V)

def Cluster.init (M : Membership N) (env : PaxosEnv) : Cluster N V where
  nodes i := ⟨.new M.multi env (M.ids i) N M.config,∅⟩
  sent := []

def packets (M : Membership N) (i : Fin N) (sender : NodeId)
    (outs : List (Outgoing (PaxosMessage V))) : List (Packet N V) :=
  outs.flatMap fun out => M.route i ⟨out.target,⟨sender,out.message⟩⟩

variable [DecidableEq V]

def Cluster.take (M : Membership N) (s : Cluster N V) (i : Fin N) (env : PaxosEnv)
    (input : Input V) : Cluster N V :=
  let p := (s.nodes i).protocol
  let r := p.handle env input
  { nodes := Function.update s.nodes i { s.nodes i with protocol := r.1 }
    sent := s.sent ++ packets M i p.nodeId r.2 }

/-- `drain_decisions`, which saves what it returns, and `take_lost_proposals`. -/
def Process.drain (n : Process V) : Process V where
  protocol := n.protocol.takeDecisions.1.takeLostProposals.1
  storage := n.protocol.takeDecisions.2.foldl (fun m d => m.insert d.slot d.value) n.storage

/-- A new process under the same name, after `recover`. -/
def Process.reboot (M : Membership N) (env : PaxosEnv) (n : Process V) (incarnation : ℕ) :
    Process V where
  protocol := (PaxosProtocol.new M.multi env ⟨n.protocol.nodeId.name,incarnation⟩ N
    M.config).initializeFromDecisions (n.storage.entries.map fun d => (d.1,d.2))
  storage := n.storage

/-- One step. `act` is a proposal or, without a value, a tick. -/
inductive Label (V : Type) (N : ℕ)
  | act (i : Fin N) (env : PaxosEnv) (value : Option V)
  | deliver (pos : ℕ) (env : PaxosEnv)
  | drain (i : Fin N)
  | restart (i : Fin N) (env : PaxosEnv) (incarnation : ℕ)

def Label.input : Option V → Input V
  | some v => .propose v
  | none => .tick

/-- The node a label addresses and what it is asked to do. -/
def Cluster.turn (s : Cluster N V) : Label V N → Option (Fin N × PaxosEnv × Input V)
  | .act i env value => some (i,env,Label.input value)
  | .deliver pos env => s.sent[pos]?.map fun pkt =>
      (pkt.dst,env,.message pkt.msg.sender pkt.msg.variant)
  | .drain _ | .restart .. => none

def Cluster.step (M : Membership N) (s : Cluster N V) (l : Label V N) : Option (Cluster N V) :=
  match l with
  | .act .. | .deliver .. => (s.turn l).map fun t => s.take M t.1 t.2.1 t.2.2
  | .drain i => some { s with nodes := Function.update s.nodes i (s.nodes i).drain }
  | .restart i env incarnation =>
    if (s.nodes i).protocol.nodeId.incarnation < incarnation then
      some { s with
        nodes := Function.update s.nodes i ((s.nodes i).reboot M env incarnation) }
    else none

theorem Cluster.step_cases {M : Membership N} {s s' : Cluster N V} {l : Label V N}
    (h : Cluster.step M s l = some s') :
    (∃ i env input, s.turn l = some (i,env,input) ∧ s' = s.take M i env input) ∨
    (∃ i, l = .drain i ∧
      s' = { s with nodes := Function.update s.nodes i (s.nodes i).drain }) ∨
    ∃ i env incarnation, l = .restart i env incarnation ∧
      (s.nodes i).protocol.nodeId.incarnation < incarnation ∧
      s' = { s with nodes := Function.update s.nodes i ((s.nodes i).reboot M env incarnation) } := by
  cases l with
  | act i env value =>
    cases h
    exact Or.inl ⟨i,env,_,rfl,rfl⟩
  | deliver pos env =>
    obtain ⟨⟨i,env',input⟩,ht,rfl⟩ := Option.map_eq_some_iff.mp h
    exact Or.inl ⟨i,env',input,ht,rfl⟩
  | drain i =>
    cases h
    exact Or.inr (Or.inl ⟨i,rfl,rfl⟩)
  | restart i env incarnation =>
    simp only [Cluster.step] at h
    split at h
    · rename_i hlt
      cases h
      exact Or.inr (Or.inr ⟨i,env,incarnation,rfl,hlt,rfl⟩)
    · cases h

omit [DecidableEq V] in
theorem Cluster.turn_message {s : Cluster N V} {l : Label V N} {i : Fin N} {env : PaxosEnv}
    {sender : NodeId} {msg : PaxosMessage V} (h : s.turn l = some (i,env,.message sender msg)) :
    ∃ src, ⟨src,i,⟨sender,msg⟩⟩ ∈ s.sent := by
  cases l with
  | act j env' value => cases value <;> cases h
  | deliver pos env' =>
    obtain ⟨⟨src,dst,wire⟩,hpkt,heq⟩ := Option.map_eq_some_iff.mp h
    cases heq
    exact ⟨src,List.mem_of_getElem? hpkt⟩
  | drain j => cases h
  | restart j env' incarnation => cases h

omit [DecidableEq V] in
theorem Cluster.turn_propose {s : Cluster N V} {l : Label V N} {i : Fin N} {env : PaxosEnv} {v : V}
    (h : s.turn l = some (i,env,.propose v)) : l = .act i env (some v) := by
  cases l with
  | act j env' value =>
    cases value with
    | none => cases h
    | some w =>
      cases h
      rfl
  | deliver pos env' =>
    obtain ⟨pkt,_,heq⟩ := Option.map_eq_some_iff.mp h
    cases heq
  | drain j => cases h
  | restart j env' incarnation => cases h

omit [DecidableEq V] in
theorem mem_packets {M : Membership N} {i : Fin N} {sender : NodeId}
    {outs : List (Outgoing (PaxosMessage V))} {pkt : Packet N V}
    (h : pkt ∈ packets M i sender outs) : ∃ out ∈ outs, pkt.src = i ∧ pkt.dst ≠ i ∧
      pkt.msg = ⟨sender,out.message⟩ := by
  obtain ⟨out,hout,hpkt⟩ := List.mem_flatMap.mp h
  obtain ⟨hsrc,hdst,_,hmsg⟩ := Membership.mem_route hpkt
  exact ⟨out,hout,hsrc,hdst,hmsg⟩

/-- No jitter, and maps are visited in the order of their keys. -/
def PaxosEnv.steady (now : ℕ) : PaxosEnv := ⟨now,fun _ => 0,fun _ slot => slot⟩

def trio (multi : Bool) : Membership 3 where
  ids := ![⟨"a",1⟩,⟨"b",1⟩,⟨"c",1⟩]
  distinct := by decide
  config := ⟨100⟩
  multi := multi

end Paxos
end Daccord
