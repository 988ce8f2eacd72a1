import Daccord.Messages
import Daccord.Runs

/-! The event loop of `node.rs`: the calls of `NodeHandle::propose`, the proposal and
the decision channel, the `PendingMap`, and `Node::run`. The protocol is any `Engine`. -/
namespace Daccord
namespace EventLoop

inductive ProposeError
  | notRunning | channelFull | cancelled | superseded
  deriving DecidableEq, Repr

inductive NodeError
  | noQuorum
  | storage (error : StorageError)
  deriving DecidableEq, Repr

/-- Why a round of the loop does not come to its end: a storage operation fails, or the
task is dropped while it waits. -/
inductive Stop
  | storage (error : StorageError)
  | dropped
  deriving DecidableEq, Repr

inductive NodeRole
  | follower | candidate | leader
  deriving DecidableEq, Repr

inductive NodeAlgorithm
  | paxos | raft
  deriving DecidableEq, Repr

structure ProtocolSnapshot where
  role : Option NodeRole
  term : ℕ
  leader : Option NodeId
  votedFor : Option NodeId
  logLen : ℕ
  commitIndex : Option ℕ
  lastApplied : Option ℕ
  deriving DecidableEq

structure NodeState extends ProtocolSnapshot where
  nodeId : NodeId
  algorithm : NodeAlgorithm
  deriving DecidableEq

def proposalChannelCapacity : ℕ := 1024

def decisionChannelCapacity : ℕ := 1024

variable {P E B M V : Type}

/-- What the loop asks of `ProtocolImpl` and of `Message`. `E` is what a call reads from
the outside. An operation that does not come to its end hands back the state as well:
what is on disk stays there. `interrupted` is how many packets of the round are out when
the task is dropped, if it is dropped while it sends. -/
structure Engine (P E B M V : Type) where
  recover : E → P → P × Option StorageError
  propose : E → P → Pending V → P × List (Outgoing M)
  handleWireMessage : E → P → NodeId → M → P × List (Outgoing M)
  onTick : E → P → P × List (Outgoing M)
  flushPersist : E → P → P × Option Stop
  drainDecisions : E → P → P × Except Stop (List (Decision (Pending V)))
  takeLostProposals : P → P × List (Pending V)
  isIdle : P → Bool
  peekState : P → ProtocolSnapshot
  interrupted : E → Option ℕ
  toBytes : NodeId → M → Option B
  fromBytes : B → Option (NodeId × M)

abbrev Answer (V : Type) := Except ProposeError (Decision V)

/-- `completion` is the number of the call that waits at the other end. -/
structure PendingEntry (V : Type) where
  value : V
  completion : ℕ
  deriving DecidableEq

abbrev PendingMap (V : Type) := AList fun _ : ℕ => PendingEntry V

structure Submission (V : Type) where
  pending : Pending V
  completion : ℕ
  deriving DecidableEq

/-- What the loop has to do with its callers. `channel` holds decisions for the
`DecisionReceiver`; `entered`, `answers`, `drained` and `taken` are history. -/
structure Desk (V : Type) where
  pending : PendingMap V
  channel : List (Decision V)
  listening : Bool
  entered : List ℕ
  answers : List (ℕ × Answer V)
  drained : List (Decision (Pending V))
  taken : List (Decision V)

/-- `PendingMap::insert`. An entry that is replaced drops its completion, and the call
at the other end returns `Cancelled`. -/
def Desk.insert (d : Desk V) (s : Submission V) : Desk V :=
  { d with
    pending := d.pending.insert s.pending.nonce ⟨s.pending.value,s.completion⟩
    entered := d.entered ++ [s.completion]
    answers := d.answers ++
      ((d.pending.lookup s.pending.nonce).map fun old => (old.completion,.error .cancelled)).toList }

/-- The call whose entry `remove_for_decision` finds. -/
def PendingMap.removeForDecision [DecidableEq V] (m : PendingMap V) (pick : ℕ) (p : Pending V) :
    PendingMap V × Option ℕ :=
  let r := Daccord.removeForDecision PendingEntry.value m pick p
  (r.1,r.2.map fun x => x.2.completion)

/-- What the rest of the world sees of a decision. -/
def reveal (x : Decision (Pending V)) : Decision V := ⟨x.slot,x.value.value⟩

/-- What is left to chance when the decision of a slot is handed out: the entry a hash map
finds first, and how many decisions the receiver, which runs on its own, takes before
`try_send`. -/
structure Chance where
  pick : ℕ → ℕ
  takes : ℕ → ℕ

def Chance.still : Chance := ⟨fun _ => 0,fun _ => 0⟩

/-- The receiver takes what there is, `n` decisions at most. -/
def Desk.take (n : ℕ) (d : Desk V) : Desk V :=
  { d with
    taken := d.taken ++ d.channel.take n
    channel := d.channel.drop n }

/-- One round of `process_decisions`: `try_send` drops what the decision channel has no
room for. -/
def Desk.decided [DecidableEq V] (chance : Chance) (d : Desk V) (x : Decision (Pending V)) : Desk V :=
  let r := d.pending.removeForDecision (chance.pick x.slot) x.value
  let d := d.take (chance.takes x.slot)
  { d with
    pending := r.1
    answers := d.answers ++ (r.2.map fun call => (call,.ok (reveal x))).toList
    channel := if d.listening ∧ d.channel.length < decisionChannelCapacity then
      d.channel ++ [reveal x] else d.channel
    drained := d.drained ++ [x] }

def Desk.processDecisions [DecidableEq V] (chance : Chance) (d : Desk V)
    (xs : List (Decision (Pending V))) : Desk V :=
  xs.foldl (Desk.decided chance) d

/-- `Drop for PendingMap`. -/
def Desk.cancelAll (d : Desk V) : Desk V :=
  { d with
    pending := ∅
    answers := d.answers ++ d.pending.entries.map fun e => (e.2.completion,.error .cancelled) }

inductive Exit
  | finished
  | failed (error : NodeError)
  | dropped
  deriving DecidableEq, Repr

def Stop.exit : Stop → Exit
  | .storage e => .failed (.storage e)
  | .dropped => .dropped

/-- A node, the handles to it, and what is between them. `status` is what
`NodeHandle::status` returns; `calls` and `sent` are history. -/
structure World (P B V : Type) where
  protocol : P
  desk : Desk V
  status : NodeState
  queue : List (Submission V)
  handles : ℕ
  started : Bool
  receiverAlive : Bool
  exit : Option Exit
  calls : List (Pending V)
  sent : List (NodeId × B)

/-- Who the node is, what it runs and who its peers are. -/
structure Setup where
  nodeId : NodeId
  algorithm : NodeAlgorithm
  peers : List NodeId

def Setup.initialState (C : Setup) : NodeState where
  nodeId := C.nodeId
  algorithm := C.algorithm
  role := match C.algorithm with
    | .raft => some .follower
    | .paxos => none
  term := 0
  leader := none
  votedFor := none
  logLen := 0
  commitIndex := none
  lastApplied := none

/-- `Node::paxos` and `Node::raft`: a node, one handle and the decision receiver. -/
def World.new (C : Setup) (p : P) : World P B V where
  protocol := p
  desk := ⟨∅,[],true,[],[],[],[]⟩
  status := C.initialState
  queue := []
  handles := 1
  started := false
  receiverAlive := !C.peers.isEmpty
  exit := none
  calls := []
  sent := []

def Setup.addressees (C : Setup) : SendTarget → List NodeId
  | .peer target => (C.peers.find? fun id => id = target).toList
  | .broadcast => C.peers

def Setup.quorum (C : Setup) : ℕ := (C.peers.length + 1) / 2 + 1

/-- The node is gone: the map fires its completions, and those in the queue are dropped. -/
def World.stop (w : World P B V) (e : Exit) : World P B V :=
  { w with
    exit := some e
    queue := []
    desk := { w.desk.cancelAll with
      answers := w.desk.cancelAll.answers ++
        w.queue.map fun s => (s.completion,.error .cancelled) } }

/-- `NodeHandle::propose` up to the point where it waits for its answer. -/
def World.propose (w : World P B V) (p : Pending V) : World P B V :=
  let call := w.calls.length
  let w := { w with calls := w.calls ++ [p] }
  if w.exit.isSome then
    { w with desk := { w.desk with answers := w.desk.answers ++ [(call,.error .notRunning)] } }
  else if proposalChannelCapacity ≤ w.queue.length then
    { w with desk := { w.desk with answers := w.desk.answers ++ [(call,.error .channelFull)] } }
  else { w with queue := w.queue ++ [⟨p,call⟩] }

section
variable [DecidableEq V] (G : Engine P E B M V) (C : Setup)

/-- `send_outgoing`: a message that cannot be serialized or whose peer is not found goes
nowhere. -/
def sendOutgoing (outgoing : List (Outgoing M)) : List (NodeId × B) :=
  outgoing.flatMap fun out =>
    match G.toBytes C.nodeId out.message with
    | none => []
    | some bytes => (C.addressees out.target).map fun id => (id,bytes)

/-- What follows every handler: `flush_persist`, `send_outgoing`, `process_decisions`. -/
def World.finish (env : E) (chance : Chance) (w : World P B V) (r : P × List (Outgoing M)) :
    World P B V × Option Stop :=
  match G.flushPersist env r.1 with
  | (p,some stop) => ({ w with protocol := p },some stop)
  | (p,none) =>
    let packets := sendOutgoing G C r.2
    match G.interrupted env with
    | some k => ({ w with protocol := p, sent := w.sent ++ packets.take k },some .dropped)
    | none =>
      let w := { w with sent := w.sent ++ packets }
      match G.drainDecisions env p with
      | (p,.error stop) => ({ w with protocol := p },some stop)
      | (p,.ok ds) => ({ w with protocol := p, desk := w.desk.processDecisions chance ds },none)

def World.computeState (w : World P B V) : NodeState where
  toProtocolSnapshot := G.peekState w.protocol
  nodeId := C.nodeId
  algorithm := C.algorithm

/-- `publish_state`, which is the last thing a handler does. -/
def World.publishState (r : World P B V × Option Stop) : World P B V × Option Stop :=
  match r with
  | (w,none) => ({ w with status := w.computeState G C },none)
  | (w,some stop) => (w,some stop)

def World.handleSubmission (env : E) (chance : Chance) (w : World P B V) (s : Submission V) :
    World P B V × Option Stop :=
  World.publishState G C
    ({ w with desk := w.desk.insert s }.finish G C env chance (G.propose env w.protocol s.pending))

/-- The loop over the lost proposals; round `k` reads `envs k`. -/
def World.reproposeLost (envs : ℕ → E) (chance : Chance) :
    ℕ → List (Pending V) → World P B V → World P B V × Option Stop
  | _, [], w => (w,none)
  | k, value :: lost, w =>
    match w.finish G C (envs k) chance (G.propose (envs k) w.protocol value) with
    | (w,some stop) => (w,some stop)
    | (w,none) => w.reproposeLost envs chance (k + 1) lost

def World.handleMessage (envs : ℕ → E) (chance : Chance) (w : World P B V) (sender : NodeId) (msg : M) :
    World P B V × Option Stop :=
  match w.finish G C (envs 0) chance (G.handleWireMessage (envs 0) w.protocol sender msg) with
  | (w,some stop) => (w,some stop)
  | (w,none) =>
    let taken := G.takeLostProposals w.protocol
    { w with protocol := taken.1 }.reproposeLost G C envs chance 1 taken.2

def World.handleIncomingBytes (envs : ℕ → E) (chance : Chance) (w : World P B V) (data : B) :
    World P B V × Option Stop :=
  match G.fromBytes data with
  | none => (w,none)
  | some (sender,msg) => World.publishState G C (w.handleMessage G C envs chance sender msg)

def World.handleRetries (env : E) (chance : Chance) (w : World P B V) : World P B V × Option Stop :=
  World.publishState G C (w.finish G C env chance (G.onTick env w.protocol))

def World.carryOn (r : World P B V × Option Stop) : World P B V :=
  match r with
  | (w,none) => w
  | (w,some stop) => w.stop stop.exit

/-- What can happen. `run` starts the loop; `submission`, `receive` and `tick` are the
branches of `select!`. -/
inductive Action (E B V : Type)
  | call (nonce : ℕ) (value : V)
  | clone
  | dropHandle
  | run (env : E)
  | submission (env : E) (chance : Chance)
  | receive (data : Option B) (envs : ℕ → E) (chance : Chance)
  | tick (env : E) (chance : Chance)
  | takeDecision
  | dropReceiver
  | dropNode

def World.looping (w : World P B V) : Bool := w.started && w.exit.isNone

def World.step (w : World P B V) : Action E B V → Option (World P B V)
  | .call nonce value =>
    -- `live_nonce` never returns 0
    if 0 < w.handles ∧ nonce ≠ 0 then some (w.propose ⟨nonce,value⟩) else none
  | .clone => if 0 < w.handles then some { w with handles := w.handles + 1 } else none
  | .dropHandle => if 0 < w.handles then some { w with handles := w.handles - 1 } else none
  | .run env =>
    if w.started ∨ w.exit.isSome then none
    else match G.recover env w.protocol with
      | (p,none) =>
        let w := { w with protocol := p, started := true }
        some { w with status := w.computeState G C }
      | (p,some e) => some ({ w with protocol := p, started := true }.stop (.failed (.storage e)))
  | .submission env chance =>
    if w.looping then
      match w.queue with
      | s :: queue => some (World.carryOn ({ w with queue := queue }.handleSubmission G C env chance s))
      -- the channel is closed once the last handle is gone and the queue is empty
      | [] => if w.handles = 0 then some (w.stop .finished) else none
    else none
  | .receive data envs chance =>
    if w.looping && w.receiverAlive then
      match data with
      | some data => some (World.carryOn (w.handleIncomingBytes G C envs chance data))
      | none =>
        if 1 < C.quorum ∧ G.isIdle w.protocol = false then some (w.stop (.failed .noQuorum))
        else some { w with receiverAlive := false }
    else none
  | .tick env chance =>
    if w.looping then some (World.carryOn (w.handleRetries G C env chance)) else none
  | .takeDecision =>
    if w.desk.listening && !w.desk.channel.isEmpty then some { w with desk := w.desk.take 1 } else none
  | .dropReceiver => some { w with desk := { w.desk with listening := false, channel := [] } }
  | .dropNode => if w.exit.isNone then some (w.stop .dropped) else none

end

/-! ### The map and the calls -/

def PendingMap.completions (m : PendingMap V) : List ℕ := m.entries.map fun e => e.2.completion

theorem PendingMap.completions_lookup {m : PendingMap V} {n : ℕ} {e : PendingEntry V}
    (h : m.lookup n = some e) :
    m.completions.Perm (e.completion :: PendingMap.completions (m.erase n)) := by
  have hmem : n ∈ m.entries.keys := List.mem_keys_of_mem (AList.mem_lookup_iff.mp h)
  obtain ⟨b,l₁,l₂,_,hl,herase⟩ := List.exists_of_kerase hmem
  have hb : b = e := by
    have hin : (⟨n,b⟩ : Sigma fun _ : ℕ => PendingEntry V) ∈ m.entries := by
      rw [hl]
      exact List.mem_append_right _ List.mem_cons_self
    exact Option.some.inj ((AList.mem_lookup_iff.mpr hin).symm.trans h)
  have hrest : (m.erase n).entries = l₁ ++ l₂ := herase
  rw [PendingMap.completions,PendingMap.completions,hl,hrest,hb,List.map_append,List.map_cons,
    List.map_append]
  exact List.perm_middle

theorem PendingMap.erase_of_none {m : PendingMap V} {n : ℕ} (h : m.lookup n = none) :
    PendingMap.completions (m.erase n) = m.completions := by
  have hnot : n ∉ m.entries.keys := AList.lookup_eq_none.mp h
  have hrest : (m.erase n).entries = m.entries := List.kerase_of_notMem_keys hnot
  rw [PendingMap.completions,hrest]
  rfl

theorem PendingMap.completions_insert (m : PendingMap V) (n : ℕ) (e : PendingEntry V) :
    PendingMap.completions (m.insert n e) = e.completion :: PendingMap.completions (m.erase n) := by
  rw [PendingMap.completions,AList.entries_insert]
  rfl

/-- The calls the desk has to do with: answered, or waiting in the map. -/
def Desk.ids (d : Desk V) : List ℕ := d.answers.map Prod.fst ++ d.pending.completions

theorem Desk.ids_insert (d : Desk V) (s : Submission V) :
    (d.insert s).ids.Perm (s.completion :: d.ids) := by
  simp only [Desk.ids,Desk.insert,PendingMap.completions_insert,List.map_append]
  cases h : d.pending.lookup s.pending.nonce with
  | none =>
    rw [PendingMap.erase_of_none h]
    simp
  | some old =>
    -- the call that is replaced moves from the map to the answers
    have hperm := PendingMap.completions_lookup h
    simp only [Option.map_some,Option.toList_some,List.map_cons,List.map_nil,List.append_assoc,
      List.cons_append,List.nil_append]
    refine List.Perm.trans ?_ (((hperm.append_left _).cons _).symm)
    refine List.Perm.trans (List.perm_middle) ?_
    refine List.Perm.trans (List.Perm.cons _ List.perm_middle) ?_
    exact (List.Perm.swap _ _ _).trans (List.Perm.cons _ List.perm_middle.symm)

section
variable [DecidableEq V]

theorem PendingMap.removeForDecision_cases (m : PendingMap V) (pick : ℕ) (p : Pending V) :
    m.removeForDecision pick p = (m,none) ∨
    ∃ n e, m.lookup n = some e ∧ m.removeForDecision pick p = (m.erase n,some e.completion) ∧
      (p.nonce ≠ 0 ∧ n = p.nonce ∨ p.nonce = 0 ∧ e.value = p.value) := by
  rcases Daccord.removeForDecision_cases PendingEntry.value m pick p with hnone |
    ⟨n,e,hlook,heq,hwhy⟩
  · exact Or.inl (by simp [PendingMap.removeForDecision,hnone])
  · exact Or.inr ⟨n,e,hlook,by simp [PendingMap.removeForDecision,heq],hwhy⟩

theorem Desk.ids_decided (chance : Chance) (d : Desk V) (x : Decision (Pending V)) :
    (d.decided chance x).ids.Perm d.ids := by
  rcases d.pending.removeForDecision_cases (chance.pick x.slot) x.value with hnone |
    ⟨n,e,hlook,heq,_⟩
  · simp only [Desk.ids,Desk.decided,Desk.take,hnone,Option.map_none,Option.toList_none,
      List.append_nil]
    exact List.Perm.refl _
  · simp only [Desk.ids,Desk.decided,Desk.take,heq,Option.map_some,Option.toList_some,List.map_append,
      List.map_cons,List.map_nil,List.append_assoc,List.cons_append,List.nil_append]
    exact (PendingMap.completions_lookup hlook).symm.append_left _

end

/-- A call that returned `Ok` was answered by a decision with its nonce, or by a
recovered decision with its value. -/
def Truthful (calls : List (Pending V)) (drained : List (Decision (Pending V))) (id : ℕ)
    (d : Decision V) : Prop :=
  ∃ c x, calls[id]? = some c ∧ x ∈ drained ∧ d = reveal x ∧
    (x.value.nonce = c.nonce ∨ x.value.nonce = 0 ∧ d.value = c.value)

def Desk.granted (d : Desk V) : List (Decision V) := d.answers.filterMap fun a => a.2.toOption

structure Desk.Ok (calls : List (Pending V)) (d : Desk V) : Prop where
  filed : ∀ n e, d.pending.lookup n = some e → calls[e.completion]? = some ⟨n,e.value⟩
  truthful : ∀ id x, (id,.ok x) ∈ d.answers → Truthful calls d.drained id x
  inOrder : d.granted.Sublist (d.drained.map reveal)
  room : d.channel.length ≤ decisionChannelCapacity
  delivered : (d.taken ++ d.channel).Sublist (d.drained.map reveal)

section
variable {calls : List (Pending V)} {d : Desk V}

theorem Truthful.mono {calls' : List (Pending V)} {drained drained' : List (Decision (Pending V))}
    {id : ℕ} {x : Decision V} (h : Truthful calls drained id x) (hc : calls <+: calls')
    (hd : ∀ y ∈ drained, y ∈ drained') : Truthful calls' drained' id x := by
  obtain ⟨c,y,hcall,hy,heq,hwhy⟩ := h
  obtain ⟨rest,rfl⟩ := hc
  refine ⟨c,y,?_,hd y hy,heq,hwhy⟩
  rw [List.getElem?_append_left (List.getElem?_eq_some_iff.mp hcall).1]
  exact hcall

theorem Desk.Ok.mono {calls' : List (Pending V)} (h : d.Ok calls) (hc : calls <+: calls') :
    d.Ok calls' := by
  refine ⟨fun n e he => ?_,fun id x hx => (h.truthful id x hx).mono hc fun _ hy => hy,h.inOrder,h.room,
    h.delivered⟩
  have hcall := h.filed n e he
  obtain ⟨rest,rfl⟩ := hc
  rw [List.getElem?_append_left (List.getElem?_eq_some_iff.mp hcall).1]
  exact hcall

theorem Desk.Ok.refuse (h : d.Ok calls) (refused : List (ℕ × Answer V))
    (hr : ∀ a ∈ refused, a.2.toOption = none) : { d with answers := d.answers ++ refused }.Ok calls := by
  have hnone : refused.filterMap (fun a => a.2.toOption) = [] :=
    List.filterMap_eq_nil_iff.mpr hr
  refine ⟨h.filed,fun id x hx => ?_,?_,h.room,h.delivered⟩
  · rcases List.mem_append.mp hx with hx | hx
    · exact h.truthful id x hx
    · cases hr _ hx
  · simp only [Desk.granted,List.filterMap_append,hnone,List.append_nil]
    exact h.inOrder

theorem Desk.Ok.insert (h : d.Ok calls) {s : Submission V}
    (hs : calls[s.completion]? = some s.pending) : (d.insert s).Ok calls := by
  have hrefused : ∀ a ∈ ((d.pending.lookup s.pending.nonce).map fun old =>
      (old.completion,(.error .cancelled : Answer V))).toList, a.2.toOption = none := by
    intro a ha
    obtain ⟨old,_,rfl⟩ := Option.map_eq_some_iff.mp (Option.mem_toList.mp ha)
    rfl
  have hok := h.refuse _ hrefused
  refine ⟨fun n e he => ?_,hok.truthful,hok.inOrder,h.room,h.delivered⟩
  simp only [Desk.insert] at he
  by_cases hn : n = s.pending.nonce
  · subst hn
    rw [AList.lookup_insert] at he
    cases he
    exact hs
  · rw [AList.lookup_insert_ne hn] at he
    exact h.filed n e he

theorem Desk.Ok.take (h : d.Ok calls) (n : ℕ) : (d.take n).Ok calls := by
  refine ⟨h.filed,h.truthful,h.inOrder,?_,?_⟩
  · exact (List.drop_sublist n d.channel).length_le.trans h.room
  · simp only [Desk.take,List.append_assoc,List.take_append_drop]
    exact h.delivered

theorem Desk.Ok.cancelAll (h : d.Ok calls) : d.cancelAll.Ok calls := by
  have hok := h.refuse (d.pending.entries.map fun e =>
      (e.2.completion,(.error .cancelled : Answer V))) (by
    intro a ha
    obtain ⟨e,_,rfl⟩ := List.mem_map.mp ha
    rfl)
  refine ⟨fun n e he => ?_,hok.truthful,hok.inOrder,h.room,h.delivered⟩
  simp [Desk.cancelAll] at he

variable [DecidableEq V]

theorem Desk.Ok.decided (h : d.Ok calls) (chance : Chance) (x : Decision (Pending V)) :
    (d.decided chance x).Ok calls := by
  have hold : ∀ id y, (id,.ok y) ∈ d.answers → Truthful calls (d.drained ++ [x]) id y :=
    fun id y hy => (h.truthful id y hy).mono (List.prefix_refl _) fun _ hz => List.mem_append_left _ hz
  have htook := h.take (chance.takes x.slot)
  have hroom : (d.decided chance x).channel.length ≤ decisionChannelCapacity := by
    simp only [Desk.decided]
    split
    · rename_i hlt
      rw [List.length_append]
      exact hlt.2
    · exact htook.room
  have hdelivered : ((d.decided chance x).taken ++ (d.decided chance x).channel).Sublist
      ((d.decided chance x).drained.map reveal) := by
    simp only [Desk.decided,List.map_append]
    split
    · rw [← List.append_assoc]
      exact htook.delivered.append (List.Sublist.refl _)
    · exact htook.delivered.trans (List.sublist_append_left _ _)
  rcases d.pending.removeForDecision_cases (chance.pick x.slot) x.value with hnone |
    ⟨n,e,hlook,heq,hwhy⟩
  · refine ⟨fun m e' he' => ?_,fun id y hy => ?_,?_,hroom,hdelivered⟩
    · simp only [Desk.decided,Desk.take,hnone] at he'
      exact h.filed m e' he'
    · simp only [Desk.decided,Desk.take,hnone,Option.map_none,Option.toList_none,List.append_nil] at hy
      exact hold id y hy
    · simp only [Desk.granted,Desk.decided,Desk.take,hnone,Option.map_none,Option.toList_none,
        List.append_nil,List.map_append]
      exact h.inOrder.trans (List.sublist_append_left _ _)
  · have hcall := h.filed n e hlook
    refine ⟨fun m e' he' => ?_,fun id y hy => ?_,?_,hroom,hdelivered⟩
    · simp only [Desk.decided,Desk.take,heq] at he'
      by_cases hm : m = n
      · subst hm
        rw [AList.lookup_erase] at he'
        cases he'
      · rw [AList.lookup_erase_ne hm] at he'
        exact h.filed m e' he'
    · simp only [Desk.decided,Desk.take,heq,Option.map_some,Option.toList_some] at hy
      rcases List.mem_append.mp hy with hy | hy
      · exact hold id y hy
      · cases List.mem_singleton.mp hy
        refine ⟨_,x,hcall,List.mem_append_right _ (List.mem_singleton.mpr rfl),rfl,?_⟩
        rcases hwhy with ⟨_,hn⟩ | ⟨h0,hval⟩
        · exact Or.inl hn.symm
        · exact Or.inr ⟨h0,hval.symm⟩
    · simp only [Desk.granted,Desk.decided,Desk.take,heq,Option.map_some,Option.toList_some,
        List.filterMap_append,List.map_append]
      exact h.inOrder.append (List.Sublist.refl _)

end

end EventLoop
end Daccord
