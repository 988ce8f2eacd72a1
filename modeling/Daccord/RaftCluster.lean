import Daccord.RaftNode
import Daccord.Network

/-! A cluster of Raft processes and the packets between them. -/
namespace Daccord
namespace Raft

variable {V : Type} {N : ℕ}

structure Membership (N : ℕ) extends Daccord.Membership N where
  config : RaftConfig

abbrev Packet (N : ℕ) (V : Type) := Daccord.Packet N (RaftMessage V)

/-- `flight` holds undelivered packets in the order they were sent. The last
three fields are history: every packet ever sent, every decision ever returned
by `take_decisions`, and every `(term, node)` that ever held `Role::Leader`. -/
structure Cluster (N : ℕ) (V : Type) where
  nodes : Fin N → RaftNode V V
  flight : List (Packet N V)
  sent : List (Packet N V)
  emitted : List (Fin N × Decision V)
  elected : List (ℕ × Fin N)

def Cluster.init (M : Membership N) (env : Env) : Cluster N V where
  nodes i := .boot .exact env (M.ids i) N M.config .new
  flight := []
  sent := []
  emitted := []
  elected := []

def leading (i : Fin N) (p : RaftProtocol V) : List (ℕ × Fin N) :=
  if p.role = .leader then [(p.currentTerm,i)] else []

def Cluster.take (M : Membership N) (s : Cluster N V) (i : Fin N) (env : Env) (input : Input V)
    (rest : List V) (fate : Fate) : Cluster N V :=
  let t := turn .exact env (s.nodes i).protocol input
  let effects := fate.cut (t.effects .exact)
  let packets := (effects.filterMap Effect.sent).flatMap (M.route i)
  let node := (s.nodes i).after .exact env t rest fate
  { nodes := Function.update s.nodes i node
    flight := s.flight ++ packets
    sent := s.sent ++ packets
    emitted := s.emitted ++ (effects.flatMap Effect.emitted).map fun d => (i,d)
    elected := s.elected ++ leading i t.handled ++ leading i node.protocol }

/-- One step of the cluster. `act` is a submission or a tick at one node,
`repropose` the next value of its re-proposal loop, `deliver` hands over the
packet at a position of `flight`. -/
inductive Label (V : Type) (N : ℕ)
  | act (i : Fin N) (env : Env) (input : Option V) (fate : Fate)
  | repropose (i : Fin N) (env : Env) (fate : Fate)
  | deliver (pos : ℕ) (env : Env) (fate : Fate)
  | restart (i : Fin N) (env : Env)
  | lose (pos : ℕ)
  | duplicate (pos : ℕ)

def Label.input (input : Option V) : Input V :=
  match input with
  | some v => .propose v
  | none => .tick

def Cluster.step (M : Membership N) (s : Cluster N V) : Label V N → Option (Cluster N V)
  | .act i env input fate =>
    ((s.nodes i).accepts (some (Label.input input))).map fun r => s.take M i env r.1 r.2 fate
  | .repropose i env fate =>
    ((s.nodes i).accepts none).map fun r => s.take M i env r.1 r.2 fate
  | .deliver pos env fate =>
    s.flight[pos]?.bind fun pkt =>
      ((s.nodes pkt.dst).accepts (some (.message (M.ids pkt.src) pkt.msg))).map fun r =>
        { s with flight := s.flight.eraseIdx pos }.take M pkt.dst env r.1 r.2 fate
  | .restart i env =>
    let n := s.nodes i
    let node : RaftNode V V :=
      .boot .exact env n.protocol.nodeId n.protocol.totalNodes n.protocol.config n.storage
    some { s with
      nodes := Function.update s.nodes i node
      elected := s.elected ++ leading i node.protocol }
  | .lose pos => if pos < s.flight.length then some { s with flight := s.flight.eraseIdx pos } else none
  | .duplicate pos => s.flight[pos]?.map fun pkt => { s with flight := s.flight ++ [pkt] }

/-- The turn a step consists of, with the node that takes it and how it ends. -/
def Cluster.turnOf (M : Membership N) (s : Cluster N V) :
    Label V N → Option (Fin N × Turn V V × Fate)
  | .act i env input fate =>
    ((s.nodes i).accepts (some (Label.input input))).map fun r =>
      (i,turn .exact env (s.nodes i).protocol r.1,fate)
  | .repropose i env fate =>
    ((s.nodes i).accepts none).map fun r => (i,turn .exact env (s.nodes i).protocol r.1,fate)
  | .deliver pos env fate =>
    s.flight[pos]?.bind fun pkt =>
      ((s.nodes pkt.dst).accepts (some (.message (M.ids pkt.src) pkt.msg))).map fun r =>
        (pkt.dst,turn .exact env (s.nodes pkt.dst).protocol r.1,fate)
  | _ => none

/-- In the step from `s` to `s'` node `i` has memory `q` with everything in it
on disk: at the end of the step, or when it begins to send. -/
def Cluster.Shows (M : Membership N) (s : Cluster N V) (l : Label V N) (s' : Cluster N V)
    (i : Fin N) (q : RaftProtocol V) : Prop :=
  q = (s'.nodes i).protocol ∨
    ∃ t fate, s.turnOf M l = some (i,t,fate) ∧ fate.flushes t ∧ q = t.sending

/-- Step `l` lets node `i` take a turn on `input`; `rest` is what stays of its
backlog and `flight` what stays on the links. -/
inductive Cluster.Wakes (M : Membership N) (s : Cluster N V) :
    Label V N → Fin N → Env → Input V → List V → Fate → List (Packet N V) → Prop
  | act {i : Fin N} {env : Env} {input : Option V} {fate : Fate} (h : (s.nodes i).backlog = []) :
      s.Wakes M (.act i env input fate) i env (Label.input input) [] fate s.flight
  | repropose {i : Fin N} {env : Env} {fate : Fate} {v : V} {rest : List V}
      (h : (s.nodes i).backlog = v :: rest) :
      s.Wakes M (.repropose i env fate) i env (.propose v) rest fate s.flight
  | deliver {pos : ℕ} {env : Env} {fate : Fate} {pkt : Packet N V}
      (hpkt : s.flight[pos]? = some pkt) (h : (s.nodes pkt.dst).backlog = []) :
      s.Wakes M (.deliver pos env fate) pkt.dst env (.message (M.ids pkt.src) pkt.msg) [] fate
        (s.flight.eraseIdx pos)

def Cluster.rebooted (s : Cluster N V) (i : Fin N) (env : Env) : RaftNode V V :=
  .boot .exact env (s.nodes i).protocol.nodeId (s.nodes i).protocol.totalNodes
    (s.nodes i).protocol.config (s.nodes i).storage

theorem RaftNode.accepts_some {W : Type} {n : RaftNode V W} {x : Input V} {r : Input V × List V}
    (h : n.accepts (some x) = some r) : n.backlog = [] ∧ r = (x,[]) := by
  simp only [RaftNode.accepts,List.isEmpty_iff] at h
  split at h
  · exact ⟨‹_›,(Option.some.inj h).symm⟩
  · cases h

theorem RaftNode.accepts_none {W : Type} {n : RaftNode V W} {r : Input V × List V}
    (h : n.accepts none = some r) : ∃ v, n.backlog = v :: r.2 ∧ r.1 = .propose v := by
  simp only [RaftNode.accepts] at h
  split at h
  · rename_i v rest hb
    obtain rfl := Option.some.inj h
    exact ⟨v,hb,rfl⟩
  · cases h

theorem Cluster.step_cases {M : Membership N} {s s' : Cluster N V} {l : Label V N}
    (h : s.step M l = some s') :
    (∃ i env input rest fate flight, s.Wakes M l i env input rest fate flight ∧
      s' = { s with flight := flight }.take M i env input rest fate) ∨
    (∃ i env, l = .restart i env ∧ s' = { s with
      nodes := Function.update s.nodes i (s.rebooted i env)
      elected := s.elected ++ leading i (s.rebooted i env).protocol }) ∨
    (∃ pos, l = .lose pos ∧ s' = { s with flight := s.flight.eraseIdx pos }) ∨
    ∃ pos pkt, l = .duplicate pos ∧ s.flight[pos]? = some pkt ∧
      s' = { s with flight := s.flight ++ [pkt] } := by
  cases l with
  | act i env input fate =>
    simp only [Cluster.step,Option.map_eq_some_iff] at h
    obtain ⟨r,hr,rfl⟩ := h
    obtain ⟨hb,rfl⟩ := RaftNode.accepts_some hr
    exact Or.inl ⟨i,env,_,_,fate,_,.act hb,rfl⟩
  | repropose i env fate =>
    simp only [Cluster.step,Option.map_eq_some_iff] at h
    obtain ⟨⟨input,rest⟩,hr,rfl⟩ := h
    obtain ⟨v,hb,rfl⟩ := RaftNode.accepts_none hr
    exact Or.inl ⟨i,env,_,_,fate,_,.repropose hb,rfl⟩
  | deliver pos env fate =>
    simp only [Cluster.step,Option.bind_eq_some_iff,Option.map_eq_some_iff] at h
    obtain ⟨pkt,hpkt,r,hr,rfl⟩ := h
    obtain ⟨hb,rfl⟩ := RaftNode.accepts_some hr
    exact Or.inl ⟨pkt.dst,env,_,_,fate,_,.deliver hpkt hb,rfl⟩
  | restart i env => exact Or.inr (Or.inl ⟨i,env,rfl,(Option.some.inj h).symm⟩)
  | lose pos =>
    simp only [Cluster.step] at h
    split at h
    · exact Or.inr (Or.inr (Or.inl ⟨pos,rfl,(Option.some.inj h).symm⟩))
    · cases h
  | duplicate pos =>
    simp only [Cluster.step,Option.map_eq_some_iff] at h
    obtain ⟨pkt,hpkt,rfl⟩ := h
    exact Or.inr (Or.inr (Or.inr ⟨pos,pkt,rfl,hpkt,rfl⟩))

theorem Cluster.Wakes.turnOf {M : Membership N} {s : Cluster N V} {l : Label V N} {i : Fin N}
    {env : Env} {input : Input V} {rest : List V} {fate : Fate} {flight : List (Packet N V)}
    (h : s.Wakes M l i env input rest fate flight) :
    s.turnOf M l = some (i,turn .exact env (s.nodes i).protocol input,fate) := by
  cases h with
  | act h => simp [Cluster.turnOf,RaftNode.accepts,h]
  | repropose h => simp [Cluster.turnOf,RaftNode.accepts,h]
  | deliver hpkt h => simp [Cluster.turnOf,RaftNode.accepts,hpkt,h]

end Raft
end Daccord
