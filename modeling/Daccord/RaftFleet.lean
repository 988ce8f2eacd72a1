import Daccord.RaftNatural
import Daccord.RaftFifo

/-! Raft processes as `Node::raft` makes them: the name of a node stays, its
incarnation is new with every start. A message carries the full identity of its
sender. -/
namespace Daccord
namespace Raft

variable {V W V' W' : Type} {N : ℕ}

/-- `Message`: what goes over a link. -/
structure Message (V : Type) where
  sender : NodeId
  variant : RaftMessage V
  deriving DecidableEq

structure Named (N : ℕ) extends members : Membership N where
  names : Function.Injective fun i => (ids i).name

/-- A member goes by its name, under any incarnation. -/
def Named.byName (M : Named N) : Roster N where
  owns v id := (M.ids v).name = id.name
  unique h h' := M.names (h.trans h'.symm)

def Named.born (M : Named N) (i : Fin N) (incarnation : ℕ) : NodeId :=
  ⟨(M.ids i).name,incarnation⟩

/-- `flight` holds undelivered packets in the order they were sent; `sent` and
`emitted` are history: every packet ever sent and every decision ever returned
by `take_decisions`. -/
structure Fleet (N : ℕ) (V W : Type) where
  nodes : Fin N → RaftNode V W
  flight : List (Daccord.Packet N (Message V))
  sent : List (Daccord.Packet N (Message V))
  emitted : List (Fin N × Decision V)

def Fleet.init (A : Adapter V W) (M : Named N) (env : Env) : Fleet N V W where
  nodes i := .boot A env (M.ids i) N M.config .new
  flight := []
  sent := []
  emitted := []

/-- `send_outgoing` of member `i` under the identity `id`. -/
def Named.packets (M : Named N) (i : Fin N) (id : NodeId) (outs : List (Outgoing (RaftMessage V))) :
    List (Daccord.Packet N (Message V)) :=
  outs.flatMap fun out => M.routeByName i (readdress (Message.mk id) out)

def Fleet.take (A : Adapter V W) (M : Named N) (s : Fleet N V W) (i : Fin N) (env : Env)
    (input : Input V) (rest : List V) (fate : Fate) : Fleet N V W :=
  let t := turn A env (s.nodes i).protocol input
  let effects := fate.cut (t.effects A)
  let packets := M.packets i (s.nodes i).protocol.nodeId (effects.filterMap Effect.sent)
  { nodes := Function.update s.nodes i ((s.nodes i).after A env t rest fate)
    flight := s.flight ++ packets
    sent := s.sent ++ packets
    emitted := s.emitted ++ (effects.flatMap Effect.emitted).map fun d => (i,d) }

/-- One step: a submission or a tick at one node, the next value of its
re-proposal loop, the delivery of a packet, a restart under some incarnation, or
the loss of a packet. -/
inductive Fleet.Label (V : Type) (N : ℕ)
  | act (i : Fin N) (env : Env) (input : Option V) (fate : Fate)
  | repropose (i : Fin N) (env : Env) (fate : Fate)
  | deliver (pos : ℕ) (env : Env) (fate : Fate)
  | restart (i : Fin N) (env : Env) (incarnation : ℕ)
  | lose (pos : ℕ)

def Fleet.reborn (A : Adapter V W) (M : Named N) (s : Fleet N V W) (i : Fin N) (env : Env)
    (incarnation : ℕ) : RaftNode V W :=
  .boot A env (M.born i incarnation) N M.config (s.nodes i).storage

def Fleet.step (A : Adapter V W) (M : Named N) (s : Fleet N V W) :
    Fleet.Label V N → Option (Fleet N V W)
  | .act i env input fate =>
    ((s.nodes i).accepts (some (Label.input input))).map fun r => s.take A M i env r.1 r.2 fate
  | .repropose i env fate =>
    ((s.nodes i).accepts none).map fun r => s.take A M i env r.1 r.2 fate
  | .deliver pos env fate =>
    s.flight[pos]?.bind fun pkt =>
      ((s.nodes pkt.dst).accepts (some (.message pkt.msg.sender pkt.msg.variant))).map fun r =>
        { s with flight := s.flight.eraseIdx pos }.take A M pkt.dst env r.1 r.2 fate
  | .restart i env incarnation =>
    some { s with nodes := Function.update s.nodes i (s.reborn A M i env incarnation) }
  | .lose pos =>
    if pos < s.flight.length then some { s with flight := s.flight.eraseIdx pos } else none

/-- The turn a step consists of, with the node that takes it and how it ends. -/
def Fleet.turnOf (A : Adapter V W) (s : Fleet N V W) :
    Fleet.Label V N → Option (Fin N × Turn V W × Fate)
  | .act i env input fate =>
    ((s.nodes i).accepts (some (Label.input input))).map fun r =>
      (i,turn A env (s.nodes i).protocol r.1,fate)
  | .repropose i env fate =>
    ((s.nodes i).accepts none).map fun r => (i,turn A env (s.nodes i).protocol r.1,fate)
  | .deliver pos env fate =>
    s.flight[pos]?.bind fun pkt =>
      ((s.nodes pkt.dst).accepts (some (.message pkt.msg.sender pkt.msg.variant))).map fun r =>
        (pkt.dst,turn A env (s.nodes pkt.dst).protocol r.1,fate)
  | _ => none

/-- Step `l` lets node `i` take a turn on `input`; `rest` is what stays of its
backlog and `flight` what stays on the links. -/
inductive Fleet.Wakes (s : Fleet N V W) : Fleet.Label V N → Fin N → Env → Input V → List V → Fate →
    List (Daccord.Packet N (Message V)) → Prop
  | act {i : Fin N} {env : Env} {input : Option V} {fate : Fate} (h : (s.nodes i).backlog = []) :
      s.Wakes (.act i env input fate) i env (Label.input input) [] fate s.flight
  | repropose {i : Fin N} {env : Env} {fate : Fate} {v : V} {rest : List V}
      (h : (s.nodes i).backlog = v :: rest) :
      s.Wakes (.repropose i env fate) i env (.propose v) rest fate s.flight
  | deliver {pos : ℕ} {env : Env} {fate : Fate} {pkt : Daccord.Packet N (Message V)}
      (hpkt : s.flight[pos]? = some pkt) (h : (s.nodes pkt.dst).backlog = []) :
      s.Wakes (.deliver pos env fate) pkt.dst env (.message pkt.msg.sender pkt.msg.variant) [] fate
        (s.flight.eraseIdx pos)

theorem Fleet.step_cases {A : Adapter V W} {M : Named N} {s s' : Fleet N V W}
    {l : Fleet.Label V N} (h : s.step A M l = some s') :
    (∃ i env input rest fate flight, s.Wakes l i env input rest fate flight ∧
      s' = { s with flight := flight }.take A M i env input rest fate) ∨
    (∃ i env incarnation, l = .restart i env incarnation ∧
      s' = { s with nodes := Function.update s.nodes i (s.reborn A M i env incarnation) }) ∨
    ∃ pos, l = .lose pos ∧ s' = { s with flight := s.flight.eraseIdx pos } := by
  cases l with
  | act i env input fate =>
    simp only [Fleet.step,Option.map_eq_some_iff] at h
    obtain ⟨r,hr,rfl⟩ := h
    obtain ⟨hb,rfl⟩ := RaftNode.accepts_some hr
    exact Or.inl ⟨i,env,_,_,fate,_,.act hb,rfl⟩
  | repropose i env fate =>
    simp only [Fleet.step,Option.map_eq_some_iff] at h
    obtain ⟨⟨input,rest⟩,hr,rfl⟩ := h
    obtain ⟨v,hb,rfl⟩ := RaftNode.accepts_none hr
    exact Or.inl ⟨i,env,_,_,fate,_,.repropose hb,rfl⟩
  | deliver pos env fate =>
    simp only [Fleet.step,Option.bind_eq_some_iff,Option.map_eq_some_iff] at h
    obtain ⟨pkt,hpkt,r,hr,rfl⟩ := h
    obtain ⟨hb,rfl⟩ := RaftNode.accepts_some hr
    exact Or.inl ⟨pkt.dst,env,_,_,fate,_,.deliver hpkt hb,rfl⟩
  | restart i env incarnation =>
    exact Or.inr (Or.inl ⟨i,env,incarnation,rfl,(Option.some.inj h).symm⟩)
  | lose pos =>
    simp only [Fleet.step] at h
    split at h
    · exact Or.inr (Or.inr ⟨pos,rfl,(Option.some.inj h).symm⟩)
    · cases h

theorem Fleet.Wakes.turnOf (A : Adapter V W) {s : Fleet N V W} {l : Fleet.Label V N} {i : Fin N}
    {env : Env} {input : Input V} {rest : List V} {fate : Fate}
    {flight : List (Daccord.Packet N (Message V))}
    (h : s.Wakes l i env input rest fate flight) :
    s.turnOf A l = some (i,turn A env (s.nodes i).protocol input,fate) := by
  cases h with
  | act h => simp [Fleet.turnOf,RaftNode.accepts,h]
  | repropose h => simp [Fleet.turnOf,RaftNode.accepts,h]
  | deliver hpkt h => simp [Fleet.turnOf,RaftNode.accepts,hpkt,h]

theorem Fleet.turnOf_wakes {A : Adapter V W} {s : Fleet N V W} {l : Fleet.Label V N} {i : Fin N}
    {t : Turn V W} {fate : Fate} (h : s.turnOf A l = some (i,t,fate)) :
    ∃ env input rest flight, s.Wakes l i env input rest fate flight ∧
      t = turn A env (s.nodes i).protocol input := by
  cases l with
  | act j env input fate =>
    simp only [Fleet.turnOf,Option.map_eq_some_iff] at h
    obtain ⟨r,hr,heq⟩ := h
    obtain ⟨hb,rfl⟩ := RaftNode.accepts_some hr
    cases heq
    exact ⟨env,_,_,_,.act hb,rfl⟩
  | repropose j env fate =>
    simp only [Fleet.turnOf,Option.map_eq_some_iff] at h
    obtain ⟨⟨input,rest⟩,hr,heq⟩ := h
    obtain ⟨v,hb,rfl⟩ := RaftNode.accepts_none hr
    cases heq
    exact ⟨env,_,_,_,.repropose hb,rfl⟩
  | deliver pos env fate =>
    simp only [Fleet.turnOf,Option.bind_eq_some_iff,Option.map_eq_some_iff] at h
    obtain ⟨pkt,hpkt,r,hr,heq⟩ := h
    obtain ⟨hb,rfl⟩ := RaftNode.accepts_some hr
    cases heq
    exact ⟨env,_,_,_,.deliver hpkt hb,rfl⟩
  | restart i env incarnation => cases h
  | lose pos => cases h

/-- Every link is a queue: a step hands over the oldest packet of its link. Any
packet may be lost. -/
def Fleet.Queued (s : Fleet N V W) : Fleet.Label V N → Prop
  | .deliver pos _ _ => ∀ pkt ∈ s.flight[pos]?, ∀ x ∈ s.flight.take pos,
      ¬ (x.src = pkt.src ∧ x.dst = pkt.dst)
  | _ => True

instance (s : Fleet N V W) (l : Fleet.Label V N) : Decidable (s.Queued l) :=
  match l with
  | .deliver pos _ _ => inferInstanceAs (Decidable (∀ pkt ∈ s.flight[pos]?, _))
  | .act .. => isTrue trivial
  | .repropose .. => isTrue trivial
  | .restart .. => isTrue trivial
  | .lose .. => isTrue trivial

/-! A change of values, as far as the adapters allow it, changes nothing else. -/

def Message.map (f : V → V') (m : Message V) : Message V' := ⟨m.sender,RaftMessage.map f m.variant⟩

def Fleet.map (f : V → V') (g : W → W') (s : Fleet N V W) : Fleet N V' W' where
  nodes i := (s.nodes i).map f g
  flight := s.flight.map (Packet.map (Message.map f))
  sent := s.sent.map (Packet.map (Message.map f))
  emitted := s.emitted.map fun x => (x.1,Decision.map f x.2)

def Fleet.Label.map (f : V → V') : Fleet.Label V N → Fleet.Label V' N
  | .act i env input fate => .act i env (input.map f) fate
  | .repropose i env fate => .repropose i env fate
  | .deliver pos env fate => .deliver pos env fate
  | .restart i env incarnation => .restart i env incarnation
  | .lose pos => .lose pos

theorem Membership.routeByName_map {S T : Type} (M : Daccord.Membership N) (f : S → T) (i : Fin N)
    (out : Outgoing S) :
    M.routeByName i (readdress f out) = (M.routeByName i out).map (Packet.map f) := by
  simp only [Membership.routeByName,List.map_map]
  rfl

theorem Named.packets_map (M : Named N) (f : V → V') (i : Fin N) (id : NodeId)
    (outs : List (Outgoing (RaftMessage V))) :
    M.packets i id (outs.map (readdress (RaftMessage.map f))) =
      (M.packets i id outs).map (Packet.map (Message.map f)) := by
  simp only [Named.packets,List.flatMap_map,List.map_flatMap,← Membership.routeByName_map]
  rfl

section
variable {A : Adapter V W} {B : Adapter V' W'} {f : V → V'} {g : W → W'} {M : Named N}

theorem Fleet.update_map (nodes : Fin N → RaftNode V W) (i : Fin N) (n : RaftNode V W) :
    Function.update (fun j => (nodes j).map f g) i (n.map f g) =
      fun j => (Function.update nodes i n j).map f g := by
  funext j
  by_cases hj : j = i
  · subst hj
    simp
  · simp [hj]

theorem Fleet.take_map (h : A.Over B f g) (s : Fleet N V W) (i : Fin N) (env : Env)
    (input : Input V) (rest : List V) (fate : Fate) :
    (s.map f g).take B M i env (Input.map f input) (rest.map f) fate =
      (s.take A M i env input rest fate).map f g := by
  have hturn := h.turn env (s.nodes i).protocol input
  have hafter := h.after env (s.nodes i) (turn A env (s.nodes i).protocol input) rest fate
  have heffects := h.effects (turn A env (s.nodes i).protocol input)
  have hnodes : (s.map f g).nodes i = (s.nodes i).map f g := rfl
  have hprot : ((s.nodes i).map f g).protocol = (s.nodes i).protocol.map f := rfl
  have hid : ((s.nodes i).protocol.map f).nodeId = (s.nodes i).protocol.nodeId := rfl
  simp only [Fleet.take,hnodes,hprot,hid,hturn,hafter,heffects,Fate.cut_map,sent_map,emitted_map,
    Named.packets_map]
  simp only [Fleet.map,List.map_append,List.map_map]
  congr 1
  exact Fleet.update_map s.nodes i _

theorem Label.input_map (input : Option V) :
    Label.input (input.map f) = Input.map f (Label.input input) := by
  cases input <;> rfl

theorem Fleet.getElem_map (s : Fleet N V W) (pos : ℕ) :
    (s.map f g).flight[pos]? = s.flight[pos]?.map (Packet.map (Message.map f)) :=
  List.getElem?_map ..

theorem Fleet.step_map (h : A.Over B f g) (s : Fleet N V W) (l : Fleet.Label V N) :
    (s.map f g).step B M (l.map f) = (s.step A M l).map (Fleet.map f g) := by
  have haccepts : ∀ i input, ((s.map f g).nodes i).accepts (input.map (Input.map f)) =
      ((s.nodes i).accepts input).map fun r => (Input.map f r.1,r.2.map f) := fun i input =>
    (s.nodes i).accepts_map input
  cases l with
  | act i env input fate =>
    have hi := haccepts i (some (Label.input input))
    rw [Option.map_some,← Label.input_map] at hi
    simp only [Fleet.step,Fleet.Label.map,hi,Option.map_map]
    refine Option.map_congr fun r _ => ?_
    exact Fleet.take_map h s i env r.1 r.2 fate
  | repropose i env fate =>
    have hi := haccepts i none
    rw [Option.map_none] at hi
    simp only [Fleet.step,Fleet.Label.map,hi,Option.map_map]
    refine Option.map_congr fun r _ => ?_
    exact Fleet.take_map h s i env r.1 r.2 fate
  | deliver pos env fate =>
    simp only [Fleet.step,Fleet.Label.map,Fleet.getElem_map]
    cases s.flight[pos]? with
    | none => rfl
    | some pkt =>
      have hi := haccepts pkt.dst (some (.message pkt.msg.sender pkt.msg.variant))
      have herase : { s.map f g with flight := (s.map f g).flight.eraseIdx pos } =
          ({ s with flight := s.flight.eraseIdx pos } : Fleet N V W).map f g := by
        simp only [Fleet.map,List.eraseIdx_map]
      rw [Option.map_some] at hi
      simp only [Option.map_some,Option.bind_some]
      rw [herase]
      refine (congrArg (Option.map _) hi).trans ?_
      rw [Option.map_map,Option.map_map]
      refine Option.map_congr fun r _ => ?_
      exact Fleet.take_map h { s with flight := s.flight.eraseIdx pos } pkt.dst env r.1 r.2 fate
  | restart i env incarnation =>
    have hborn : (s.map f g).reborn B M i env incarnation =
        (s.reborn A M i env incarnation).map f g := h.boot env _ _ _ _
    simp only [Fleet.step,Fleet.Label.map,hborn,Option.map_some]
    simp only [Fleet.map,Fleet.update_map]
  | lose pos =>
    have hlen : (s.map f g).flight.length = s.flight.length := List.length_map _
    simp only [Fleet.step,Fleet.Label.map,hlen]
    split
    · simp only [Option.map_some,Fleet.map,List.eraseIdx_map]
    · rfl

theorem Fleet.init_map (h : A.Over B f g) (M : Named N) (env : Env) :
    (Fleet.init A M env).map f g = Fleet.init B M env := by
  have hboot : ∀ i, (RaftNode.boot A env (M.ids i) N M.config .new).map f g =
      .boot B env (M.ids i) N M.config .new := fun i => (h.boot env _ _ _ _).symm
  simp only [Fleet.map,Fleet.init,hboot,List.map_nil]

theorem Fleet.Wakes.map {s : Fleet N V W} {l : Fleet.Label V N} {i : Fin N} {env : Env}
    {input : Input V} {rest : List V} {fate : Fate} {flight : List (Daccord.Packet N (Message V))}
    (hw : s.Wakes l i env input rest fate flight) :
    (s.map f g).Wakes (l.map f) i env (Input.map f input) (rest.map f) fate
      (flight.map (Packet.map (Message.map f))) := by
  cases hw with
  | @act _ _ value _ h =>
    rw [← Label.input_map]
    exact .act (by simp [Fleet.map,RaftNode.map,h])
  | repropose h => exact .repropose (by simp [Fleet.map,RaftNode.map,h])
  | @deliver pos _ _ pkt hpkt h =>
    have hpkt' : (s.map f g).flight[pos]? = some (Packet.map (Message.map f) pkt) := by
      rw [Fleet.getElem_map,hpkt,Option.map_some]
    rw [← List.eraseIdx_map]
    exact .deliver hpkt' (by simp [Fleet.map,RaftNode.map,Packet.map,h])

theorem Fleet.queued_map (s : Fleet N V W) (l : Fleet.Label V N) :
    (s.map f g).Queued (l.map f) ↔ s.Queued l := by
  cases l with
  | deliver pos env fate =>
    simp only [Fleet.Queued,Fleet.Label.map,Fleet.getElem_map,Option.mem_def,Option.map_eq_some_iff,
      forall_exists_index,and_imp,forall_apply_eq_imp_iff₂]
    simp only [Fleet.map,← List.map_take,List.forall_mem_map]
    rfl
  | _ => rfl

end
end Raft
end Daccord
