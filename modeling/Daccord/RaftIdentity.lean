import Daccord.RaftReplicas
import Daccord.RaftCommit

/-! Members that come back under the identity they had, as the demo's do: then nobody is
ever counted twice. -/
namespace Daccord
namespace Raft

open RaftProtocol (ownMatch handle_leading)

variable {V W : Type} {N : ℕ}

/-- Whom a leader keeps match indexes for. -/
def Knows (S : NodeId → Prop) (p : RaftProtocol V) : Prop :=
  p.role = .leader → ∀ id ∈ p.matchIndex, S id

section
variable {S : NodeId → Prop} {p q : RaftProtocol V} {input : Input V}

theorem mem_ownMatch {own id : NodeId} {log : List (LogEntry V)} (h : id ∈ ownMatch own log) :
    id = own := by
  unfold ownMatch at h
  split at h
  · rcases (AList.mem_insert _).mp h with heq | hno
    · exact heq
    · exact absurd hno (AList.notMem_empty id)
  · exact absurd h (AList.notMem_empty id)

theorem mem_appendOwn {es : List (LogEntry V)} {id : NodeId} (h : id ∈ (p.appendOwn es).matchIndex) :
    id = p.nodeId ∨ id ∈ p.matchIndex := (AList.mem_insert _).mp h

theorem Knows.handle (h : Knows S p) (hc : Clean p) (hown : S p.nodeId)
    (hinput : ∀ sender msg, input = .message sender msg → S sender) (env : Env) :
    Knows S (p.handle env input).1 := by
  intro hrole id hid
  -- one who takes office starts with its own entry
  have hoffice : ∀ {w : RaftProtocol V} {es}, w.nodeId = p.nodeId →
      id ∈ (w.takeOffice.appendOwn es).matchIndex → S id := by
    intro w es hw hmem
    have heq : id = p.nodeId := by
      rcases mem_appendOwn hmem with heq | hmem
      · exact heq.trans hw
      · exact (mem_ownMatch hmem).trans hw
    exact heq ▸ hown
  have happend : ∀ {es}, p.role = .leader → id ∈ (p.appendOwn es).matchIndex → S id := by
    intro es hl hmem
    rcases mem_appendOwn hmem with rfl | hmem
    · exact hown
    · exact h hl id hmem
  cases handle_leading hc env input with
  | other hno => exact absurd hrole hno
  | kept hl _ hmatch _ => exact h hl id (hmatch ▸ hid)
  | office hmatch _ =>
    rw [hmatch] at hid
    exact mem_ownMatch hid ▸ hown
  | advanced w hw _ hmatch _ =>
    rw [hmatch] at hid
    cases hw with
    | propose v hl => exact happend hl hid
    | forward sender v hops hl => exact happend hl hid
    | counted sender k ct ci hl =>
      rcases (AList.mem_insert _).mp hid with rfl | hid
      · exact hinput _ _ rfl
      · exact h hl id hid
    | elected sender => exact hoffice rfl hid
    | alone => exact hoffice rfl hid

theorem Knows.boot (A : Adapter V W) (env : Env) {id : NodeId} (hid : S id) (total : ℕ)
    (cfg : RaftConfig) (st : RaftStorage W) : Knows S (RaftNode.boot A env id total cfg st).protocol := by
  intro _ own hown
  obtain ⟨ds,la,heq,_⟩ := recover_frame A env (.new env id total cfg) st
  rw [RaftNode.boot,heq] at hown
  have hmatch : own ∈ (if resumes (.new (V := V) env id total cfg) st.term st.votedFor then
      ownMatch id (A.wrapLogEntries st.log) else ∅) := hown
  split at hmatch
  · exact mem_ownMatch hmatch ▸ hid
  · exact absurd hmatch (AList.notMem_empty own)

theorem Knows.after {A : Adapter V W} {n : RaftNode V W} (h : Knows S n.protocol)
    (hc : Clean n.protocol) (hown : S n.protocol.nodeId)
    (hinput : ∀ sender msg, input = .message sender msg → S sender) (env : Env) (rest : List V)
    (fate : Fate) : Knows S (n.after A env (turn A env n.protocol input) rest fate).protocol := by
  cases fate with
  | completes =>
    obtain ⟨lost,hfinal⟩ := turn_final A env n.protocol input
    simp only [RaftNode.after]
    rw [hfinal]
    exact h.handle hc hown hinput env
  | dies k => exact .boot A env hown _ _ _

end

def Named.member (M : Named N) (id : NodeId) : Prop := ∃ k, id = M.ids k

/-- Every member goes by the one identity it has. -/
structure Fleet.Steady (M : Named N) (s : Fleet N V W) : Prop where
  ident : ∀ i, (s.nodes i).protocol.nodeId = M.ids i
  senders : ∀ pkt ∈ s.flight, pkt.msg.sender = M.ids pkt.src
  knows : ∀ i, Knows M.member (s.nodes i).protocol

/-- Members come back under the identity they had. -/
def Named.Keeps (M : Named N) (i : Fin N) (incarnation : ℕ) : Prop :=
  incarnation = (M.ids i).incarnation

section
variable {A : Adapter V W} {M : Named N} {s s' : Fleet N V W} {l : Fleet.Label V N} {i : Fin N}
  {env : Env}

theorem Fleet.Steady.init (A : Adapter V W) (M : Named N) (env : Env) :
    (Fleet.init A M env).Steady M := by
  refine ⟨fun i => (boot_facts A env (M.ids i) N M.config .new).1,?_,fun i => ?_⟩
  · exact List.forall_mem_nil _
  · exact .boot A env ⟨i,rfl⟩ N M.config .new

theorem Fleet.Steady.wakes (h : s.Steady M) (hp : s.Polling A M) {input : Input V} {rest : List V}
    {fate : Fate} {flight : List (Daccord.Packet N (Message V))}
    (hw : s.Wakes l i env input rest fate flight) :
    ({ s with flight := flight }.take A M i env input rest fate).Steady M := by
  obtain ⟨hsub,hfrom⟩ := hp.wakes hw
  have hown : M.member (s.nodes i).protocol.nodeId := ⟨i,h.ident i⟩
  have hinput : ∀ sender msg, input = .message sender msg → M.member sender := by
    intro sender msg hmsg
    obtain ⟨pkt,hpkt,_,heq,_⟩ := hfrom sender msg hmsg
    have hsender := h.senders pkt hpkt
    rw [heq] at hsender
    exact ⟨pkt.src,hsender⟩
  refine ⟨?_,fun pkt hpkt => ?_,?_⟩
  · refine (Function.forall_update_iff _ fun k (n : RaftNode V W) => n.protocol.nodeId = M.ids k).mpr
      ⟨?_,fun k _ => h.ident k⟩
    exact ((hp.synced i).landed env input rest fate).ident.trans (h.ident i)
  · rcases List.mem_append.mp hpkt with hold | hnew
    · exact h.senders pkt (hsub.subset hold)
    · obtain ⟨out,_,hsrc,_,_,hmsg⟩ := Named.mem_packets hnew
      rw [hmsg,hsrc]
      exact h.ident i
  · refine (Function.forall_update_iff _ fun _ (n : RaftNode V W) => Knows M.member n.protocol).mpr
      ⟨?_,fun k _ => h.knows k⟩
    exact (h.knows i).after (hp.synced i).clean hown hinput env rest fate

theorem Fleet.Steady.step (h : s.Steady M) (hp : s.Polling A M)
    (hl : ∀ i now incarnation, l = .restart i now incarnation → M.Keeps i incarnation)
    (hs : s.step A M l = some s') : s'.Steady M := by
  rcases Fleet.step_cases hs with ⟨i,env,input,rest,fate,flight,hw,rfl⟩ | ⟨i,env,k,rfl,rfl⟩ |
    ⟨pos,rfl,rfl⟩
  · exact h.wakes hp hw
  · have hborn : M.born i k = M.ids i := by
      rw [hl i env k rfl]
      rfl
    refine ⟨?_,h.senders,?_⟩
    · refine (Function.forall_update_iff _ fun k (n : RaftNode V W) => n.protocol.nodeId = M.ids k).mpr
        ⟨?_,fun k _ => h.ident k⟩
      exact (boot_facts A env (M.born i k) N M.config (s.nodes i).storage).1.trans hborn
    · refine (Function.forall_update_iff _ fun _ (n : RaftNode V W) => Knows M.member n.protocol).mpr
        ⟨?_,fun k _ => h.knows k⟩
      exact .boot A env ⟨i,hborn⟩ N M.config (s.nodes i).storage
  · exact ⟨h.ident,fun pkt hpkt => h.senders pkt (List.eraseIdx_subset hpkt),h.knows⟩

theorem Fleet.Steady.countsOnce (h : s.Steady M) {src dst : Fin N} (msg : RaftMessage V) :
    (s.nodes dst).protocol.CountsOnce (M.ids src) msg := by
  cases msg with
  | appendEntriesResponse t success mi ct ci =>
    intro hcounts id hid hname
    obtain ⟨k,rfl⟩ := h.knows dst hcounts.1 id (AList.mem_keys.mpr hid)
    rw [M.names hname]
  | _ => trivial

end
end Raft
end Daccord
