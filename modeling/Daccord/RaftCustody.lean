import Daccord.RaftSimulation

/-! Who holds a proposal. Until it becomes an entry of a leader's log, a value
is in one place: a buffer, the list of lost proposals or a `Forward`. From then
on it is copied from log to log, and stays at its index. -/
namespace Daccord
namespace Raft

open RaftProtocol (startAt Adopted Advanced Announces)

variable {V : Type}

/-- An `AppendEntries` that brings entry `e` for index `n`. -/
def Brings (msg : RaftMessage V) (n : ℕ) (e : LogEntry V) : Prop :=
  match msg with
  | .appendEntries _ _ prev _ es _ => startAt prev ≤ n ∧ es[n - startAt prev]? = some e
  | _ => False

def passed : RaftMessage V → List V
  | .forward v _ => [v]
  | _ => []

def passedOn (outs : List (Outgoing (RaftMessage V))) : List V :=
  outs.flatMap fun out => passed out.message

def Input.offered : Input V → List V
  | .propose v => [v]
  | .message _ msg => passed msg
  | .tick => []

def RaftProtocol.waiting (p : RaftProtocol V) : List V := p.pendingProposals ++ p.lostProposals

/-- The entries a leader has made of proposals since `p`. -/
def born (p q : RaftProtocol V) : List (LogEntry V) :=
  if q.role = .leader then q.log.drop p.log.length else []

/-- A `Forward` that has come too far is not passed on. -/
def RaftProtocol.Refuses (p : RaftProtocol V) (sender : NodeId) (hops : ℕ) : Prop :=
  p.role ≠ .leader ∧ maxForwardHops ≤ min (hops + 1) 255 ∧ ∃ leader ∈ p.leader, leader ≠ sender

instance (p : RaftProtocol V) (sender : NodeId) (hops : ℕ) : Decidable (p.Refuses sender hops) :=
  inferInstanceAs (Decidable (_ ∧ _ ∧ ∃ leader ∈ p.leader, leader ≠ sender))

def dropped (p : RaftProtocol V) : Input V → List V
  | .message sender (.forward v hops) => if p.Refuses sender hops then [v] else []
  | _ => []

section
variable {p q : RaftProtocol V} {input : Input V} {r : Reply V}

/-- Where the entries, the decisions and the waiting proposals of a call come from. -/
structure Custody (p : RaftProtocol V) (input : Input V) (r : Reply V) : Prop where
  log : ∀ {n e}, r.1.log[n]? = some e → p.log[n]? = some e ∨
    (p.log.length ≤ n ∧ (born p r.1)[n - p.log.length]? = some e) ∨
    ∃ sender msg, input = .message sender msg ∧ Brings msg n e
  sent : ∀ out ∈ r.2, ∀ {n e}, Brings out.message n e → r.1.log[n]? = some e
  addressed : ∀ out ∈ r.2, passed out.message ≠ [] → r.1.role ≠ .leader ∧
    ∃ id, r.1.leader = some id ∧ out.target = .peer id
  decisions : ∀ d ∈ r.1.pendingDecisions, d ∈ p.pendingDecisions ∨
    ∃ e, r.1.log[d.slot]? = some e ∧ e.value = d.value
  proposals : List.Perm (r.1.waiting ++ passedOn r.2 ++ (born p r.1).map LogEntry.value ++
    dropped p input) (p.waiting ++ input.offered)

theorem born_of_same (h : q.log = p.log) : born p q = [] := by
  unfold born
  split
  · rw [h,List.drop_length]
  · rfl

theorem born_of_follower (h : q.role ≠ .leader) : born p q = [] := if_neg h

theorem born_of_append {es : List (LogEntry V)} (h : q.role = .leader) (hl : q.log = p.log ++ es) :
    born p q = es := by
  rw [born,if_pos h,hl,List.drop_left]

theorem Custody.before (h : Custody q input r) (hl : q.log = p.log) (hw : q.waiting = p.waiting)
    (hd : q.pendingDecisions = p.pendingDecisions) (hdrop : dropped q input = dropped p input) :
    Custody p input r := by
  have hborn : born q r.1 = born p r.1 := by rw [born,born,hl]
  obtain ⟨hlog,hsent,haddr,hdec,hprop⟩ := h
  rw [hl,hborn] at hlog
  rw [hd] at hdec
  rw [hborn,hdrop,hw] at hprop
  exact ⟨hlog,hsent,haddr,hdec,hprop⟩

theorem Custody.unborn (hb : born p r.1 = [])
    (hl : ∀ {n e}, r.1.log[n]? = some e → p.log[n]? = some e ∨
      ∃ sender msg, input = .message sender msg ∧ Brings msg n e)
    (ho : ∀ out ∈ r.2, ∀ {n e}, Brings out.message n e → r.1.log[n]? = some e)
    (ha : ∀ out ∈ r.2, passed out.message ≠ [] → r.1.role ≠ .leader ∧
      ∃ id, r.1.leader = some id ∧ out.target = .peer id)
    (hd : ∀ d ∈ r.1.pendingDecisions, d ∈ p.pendingDecisions ∨
      ∃ e, r.1.log[d.slot]? = some e ∧ e.value = d.value)
    (hw : List.Perm (r.1.waiting ++ passedOn r.2 ++ dropped p input) (p.waiting ++ input.offered)) :
    Custody p input r := by
  refine ⟨fun h => (hl h).imp_right Or.inr,ho,ha,hd,?_⟩
  rw [hb]
  simpa using hw

/-- The log stays; proposals may change hands. -/
theorem Custody.moved (hl : r.1.log = p.log) (hd : r.1.pendingDecisions = p.pendingDecisions)
    (ho : ∀ out ∈ r.2, ∀ n e, Brings out.message n e → p.log[n]? = some e)
    (ha : ∀ out ∈ r.2, passed out.message ≠ [] → r.1.role ≠ .leader ∧
      ∃ id, r.1.leader = some id ∧ out.target = .peer id)
    (hw : List.Perm (r.1.waiting ++ passedOn r.2 ++ dropped p input) (p.waiting ++ input.offered)) :
    Custody p input r :=
  .unborn (born_of_same hl) (fun h => Or.inl (hl ▸ h))
    (fun out hout n e hb => hl ▸ ho out hout n e hb) ha (fun _ h => Or.inl (hd ▸ h)) hw

theorem Custody.still (hl : r.1.log = p.log) (hw : r.1.waiting = p.waiting)
    (hd : r.1.pendingDecisions = p.pendingDecisions)
    (ho : ∀ out ∈ r.2, passed out.message = [] ∧
      ∀ n e, Brings out.message n e → p.log[n]? = some e)
    (hin : input.offered = []) (hdrop : dropped p input = []) : Custody p input r := by
  have hpass : passedOn r.2 = [] := List.flatMap_eq_nil_iff.mpr fun out hout => (ho out hout).1
  refine .moved hl hd (fun out hout => (ho out hout).2)
    (fun out hout h => absurd (ho out hout).1 h) ?_
  rw [hw,hpass,hin,hdrop]
  simp

/-- There is one message to send, which carries neither entries nor a proposal. -/
theorem Custody.replies {target : SendTarget} {msg : RaftMessage V} (hl : q.log = p.log)
    (hw : q.waiting = p.waiting) (hd : q.pendingDecisions = p.pendingDecisions)
    (hmsg : passed msg = []) (hb : ∀ n e, ¬ Brings msg n e) (hin : input.offered = [])
    (hdrop : dropped p input = []) : Custody p input (q,[⟨target,msg⟩]) :=
  .still hl hw hd (List.forall_mem_singleton.mpr ⟨hmsg,fun n e h => absurd h (hb n e)⟩) hin hdrop

theorem Announces.brings {out : Outgoing (RaftMessage V)} (h : Announces p out) :
    passed out.message = [] ∧ ∀ n e, Brings out.message n e → p.log[n]? = some e := by
  obtain ⟨prev,prevTerm,es,hm,hc⟩ := h
  rw [hm]
  refine ⟨rfl,fun n e hb => ?_⟩
  obtain ⟨hle,he⟩ := hb
  rw [hc.rest,List.getElem?_drop] at he
  rwa [Nat.add_sub_cancel' hle] at he

theorem passedOn_announces {outs : List (Outgoing (RaftMessage V))}
    (h : ∀ out ∈ outs, Announces p out) : passedOn outs = [] :=
  List.flatMap_eq_nil_iff.mpr fun out hout => (Announces.brings (h out hout)).1

theorem Custody.appendOwn (env : Env) {es : List (LogEntry V)} (hr : q.role = .leader)
    (hl : q.log = p.log) (hd : q.pendingDecisions = p.pendingDecisions)
    (hdrop : dropped p input = [])
    (hw : List.Perm (q.waiting ++ es.map LogEntry.value) (p.waiting ++ input.offered)) :
    Custody p input ((q.appendOwn es).tryAdvanceCommit.broadcastWithEntries env es) := by
  obtain ⟨ci,ds,la,b,heq,_,hds⟩ := (q.appendOwn es).tryAdvanceCommit_advanced.frame
  have hann := q.appendOwn_announces env es
  have hlog' : ((q.appendOwn es).tryAdvanceCommit.broadcastWithEntries env es).1.log =
      p.log ++ es := (q.appendOwn_log env es).trans (by rw [hl])
  have hrole := (q.appendOwn_role env es).trans hr
  refine ⟨fun {n e} hn => ?_,fun out hout n e hb => (Announces.brings (hann out hout)).2 n e hb,
    fun out hout h => absurd (Announces.brings (hann out hout)).1 h,fun d hdm => ?_,?_⟩
  · rw [born_of_append hrole hlog']
    rw [hlog'] at hn
    rcases Nat.lt_or_ge n p.log.length with hlt | hge
    · rw [List.getElem?_append_left hlt] at hn
      exact Or.inl hn
    · rw [List.getElem?_append_right hge] at hn
      exact Or.inr (Or.inl ⟨hge,hn⟩)
  · change d ∈ (q.appendOwn es).tryAdvanceCommit.pendingDecisions at hdm
    rw [heq] at hdm
    rcases List.mem_append.mp hdm with hdm | hdm
    · exact Or.inl (hd ▸ hdm)
    · obtain ⟨c,e,_,_,he,hv⟩ := hds d hdm
      refine Or.inr ⟨e,?_,hv⟩
      rw [hlog',← hl]
      exact he
  · have hwait : ((q.appendOwn es).tryAdvanceCommit.broadcastWithEntries env es).1.waiting =
        q.waiting := by
      change (q.appendOwn es).tryAdvanceCommit.waiting = q.waiting
      rw [heq]
      rfl
    rw [hwait,passedOn_announces hann,born_of_append hrole hlog',hdrop]
    simpa using hw

theorem Custody.becomeLeader (env : Env) (hp : q.pendingPersistLogFrom = none) (hl : q.log = p.log)
    (hd : q.pendingDecisions = p.pendingDecisions) (hw : q.waiting = p.waiting)
    (hin : input.offered = []) (hdrop : dropped p input = []) :
    Custody p input (q.becomeLeader env) := by
  by_cases h : q.pendingProposals = []
  · rw [RaftProtocol.becomeLeader_of_empty env q h]
    refine .still hl ?_ hd (fun out hout => ?_) hin hdrop
    · change [] ++ q.lostProposals = p.waiting
      rw [← h]
      exact hw
    · rw [← hl]
      exact Announces.brings (RaftProtocol.broadcastHeartbeat_announces env q.takeOffice out hout)
  · rw [RaftProtocol.becomeLeader_of_batch env q h hp]
    refine .appendOwn env rfl hl hd hdrop ?_
    have hbatch : q.batch.map LogEntry.value = q.pendingProposals := by
      simp [RaftProtocol.batch,Function.comp_def]
    rw [hbatch,hin,List.append_nil,← hw]
    exact List.perm_append_comm

theorem RaftProtocol.waiting_buffer (p : RaftProtocol V) (v : V) :
    List.Perm ({ p with pendingProposals := p.pendingProposals ++ [v] }.waiting ++ [] ++ [])
      (p.waiting ++ [v]) := by
  simp only [RaftProtocol.waiting,List.append_nil,List.append_assoc]
  exact List.Perm.append_left _ List.perm_append_comm

theorem Custody.propose (env : Env) (v : V) (hp : p.pendingPersistLogFrom = none)
    (hin : input.offered = [v]) (hdrop : dropped p input = []) :
    Custody p input (p.propose env v) := by
  by_cases hr : p.role = .leader
  · rw [RaftProtocol.propose_of_leader env p v hr hp]
    refine .appendOwn env hr rfl rfl hdrop ?_
    rw [hin]
    exact .refl _
  · unfold RaftProtocol.propose
    rw [if_neg hr]
    split
    · rename_i leader hl
      refine .moved rfl rfl (List.forall_mem_singleton.mpr fun _ _ => False.elim)
        (fun out hout _ => ⟨hr,leader,hl,?_⟩) ?_
      · rw [List.mem_singleton.mp hout]
      · rw [hin,hdrop]
        simp [passedOn,passed]
    · refine .moved rfl rfl (List.forall_mem_nil _) (List.forall_mem_nil _) ?_
      rw [hin,hdrop]
      exact RaftProtocol.waiting_buffer p v

theorem Custody.handleForward (env : Env) {sender : NodeId} {v : V} {hops : ℕ}
    (hp : p.pendingPersistLogFrom = none) :
    Custody p (.message sender (.forward v hops)) (p.handleForward env sender v hops) := by
  have hbuffer : ¬ p.Refuses sender hops → Custody p (.message sender (.forward v hops))
      ({ p with pendingProposals := p.pendingProposals ++ [v] },[]) := by
    intro hn
    refine .moved rfl rfl (List.forall_mem_nil _) (List.forall_mem_nil _) ?_
    rw [dropped,if_neg hn]
    exact RaftProtocol.waiting_buffer p v
  unfold RaftProtocol.handleForward
  by_cases hr : p.role = .leader
  · rw [if_pos hr]
    exact .propose env v hp rfl (if_neg fun h => h.1 hr)
  · rw [if_neg hr]
    simp only
    split
    · rename_i leader hl
      split
      · rename_i hne
        split
        · rename_i hmax
          have hrefuse : p.Refuses sender hops := ⟨hr,hmax,leader,hl,hne⟩
          refine .moved rfl rfl (List.forall_mem_nil _) (List.forall_mem_nil _) ?_
          simp [dropped,hrefuse,passedOn,Input.offered,passed]
        · rename_i hmax
          have hno : ¬ p.Refuses sender hops := fun h => hmax h.2.1
          refine .moved rfl rfl (List.forall_mem_singleton.mpr fun _ _ => False.elim)
            (fun out hout _ => ⟨hr,leader,hl,?_⟩) ?_
          · rw [List.mem_singleton.mp hout]
          · simp [dropped,hno,passedOn,Input.offered,passed]
      · rename_i hne
        refine hbuffer fun h => ?_
        obtain ⟨_,_,l,hl',hne'⟩ := h
        cases hl.symm.trans hl'
        exact hne hne'
    · rename_i hl
      refine hbuffer fun h => ?_
      obtain ⟨_,_,l,hl',_⟩ := h
      cases hl.symm.trans hl'

/-- A candidate that gives up what it buffered loses none of it. -/
theorem Custody.startElection (env : Env) (hp : p.pendingPersistLogFrom = none)
    (hin : input.offered = []) (hdrop : dropped p input = []) :
    Custody p input (p.startElection env) := by
  unfold RaftProtocol.startElection
  simp only
  split
  · exact .becomeLeader env hp rfl rfl rfl hin hdrop
  · split
    · refine .moved rfl rfl (List.forall_mem_singleton.mpr fun _ _ => False.elim)
        (List.forall_mem_singleton.mpr fun h => absurd rfl h) ?_
      rw [hin,hdrop]
      simp only [RaftProtocol.waiting,passedOn,passed,List.flatMap_cons,List.flatMap_nil,
        List.append_nil,List.nil_append]
      exact List.perm_append_comm
    · exact .replies rfl rfl rfl rfl (fun _ _ => id) hin hdrop

theorem Custody.onTick (env : Env) (hp : p.pendingPersistLogFrom = none) :
    Custody p .tick (p.onTick env) := by
  rcases RaftProtocol.onTick_cases env p with heq | ⟨hr,heq⟩ | ⟨_,heq⟩
  · rw [heq]
    exact .still rfl rfl rfl (List.forall_mem_nil _) rfl rfl
  · rw [heq]
    exact .still rfl rfl rfl (fun out hout =>
      Announces.brings (RaftProtocol.broadcastHeartbeat_announces env p out hout)) rfl rfl
  · rw [heq]
    exact .startElection env hp rfl rfl

/-- An entry that was not there before is brought by the message. -/
theorem Adopted.brought {start : ℕ} {es : List (LogEntry V)} (h : Adopted p start es q) {n : ℕ}
    {e : LogEntry V} (hn : q.log[n]? = some e) :
    p.log[n]? = some e ∨ (start ≤ n ∧ es[n - start]? = some e) := by
  have htake : ∀ k, (p.log.take k)[n]? = some e → p.log[n]? = some e := by
    intro k hk
    rw [List.getElem?_take] at hk
    split at hk
    · exact hk
    · cases hk
  have hdrop : ∀ k m, (p.log.take k ++ es.drop m)[n]? = some e → start + m = k →
      k ≤ p.log.length → p.log[n]? = some e ∨ (start ≤ n ∧ es[n - start]? = some e) := by
    intro k m hk hkm hle
    have hlen : (p.log.take k).length = k := List.length_take_of_le hle
    rcases Nat.lt_or_ge n k with hlt | hge
    · rw [List.getElem?_append_left (by omega)] at hk
      exact Or.inl (htake k hk)
    · rw [List.getElem?_append_right (by omega),hlen,List.getElem?_drop] at hk
      refine Or.inr ⟨by omega,?_⟩
      rwa [show n - start = m + (n - k) by omega]
  cases h with
  | kept => exact Or.inl hn
  | cut => exact Or.inl (htake _ hn)
  | extended m hm hlen =>
    refine hdrop p.log.length m ?_ hlen le_rfl
    rwa [List.take_length]
  | replaced m x hx hlen => exact hdrop _ m hn rfl hlen.le

theorem Custody.handleAppendEntries (env : Env) {sender : NodeId} {term : ℕ} {leader : NodeId}
    {prev : Option ℕ} {prevTerm : ℕ} {es : List (LogEntry V)} {lc : Option ℕ}
    (hp : p.pendingPersistLogFrom = none) (ht : p.pendingTruncateFrom = none) :
    Custody p (.message sender (.appendEntries term leader prev prevTerm es lc))
      (p.handleAppendEntries env term leader prev prevTerm es lc) := by
  rcases RaftProtocol.handleAppendEntries_cases env p term leader prev prevTerm es lc hp ht with
    ⟨_,heq⟩ | ⟨_,_,⟨_,ct,ci,heq⟩ | ⟨_,a,f,hadopt,hadv,heq⟩⟩
  · rw [heq]
    exact .replies rfl rfl rfl rfl (fun _ _ => id) rfl rfl
  · rw [heq]
    exact .replies rfl rfl rfl rfl (fun _ _ => id) rfl rfl
  · obtain ⟨_,_,ha⟩ := hadopt.frame
    obtain ⟨_,ds,_,_,hf,_,hds⟩ := hadv.frame
    have hflog : f.log = a.log := by rw [hf]
    have hdec : f.pendingDecisions = p.pendingDecisions ++ ds := by
      rw [hf,ha]
      rfl
    have hpend : f.pendingProposals = p.pendingProposals := by
      rw [hf,ha]
      rfl
    have hlost : f.lostProposals = p.lostProposals := by
      rw [hf,ha]
      rfl
    have hrole : f.role ≠ .leader := by
      rw [hf,ha]
      exact nofun
    have hleader : f.leader = some leader := by
      rw [hf,ha]
      rfl
    rw [heq]
    refine .unborn (born_of_follower hrole) (fun {n e} hn => ?_) ?_
      (fun out hout h => ⟨hrole,leader,hleader,?_⟩) (fun d hdm => ?_) ?_
    · rw [hflog] at hn
      exact (Adopted.brought hadopt hn).imp id fun hb => ⟨_,_,rfl,hb⟩
    · intro out hout n e hb
      rcases List.mem_cons.mp hout with rfl | hout
      · exact hb.elim
      · obtain ⟨v,_,rfl⟩ := List.mem_map.mp hout
        exact hb.elim
    · rcases List.mem_cons.mp hout with rfl | hout
      · rfl
      · obtain ⟨v,_,rfl⟩ := List.mem_map.mp hout
        rfl
    · have hdm : d ∈ f.pendingDecisions := hdm
      rw [hdec] at hdm
      rcases List.mem_append.mp hdm with hdm | hdm
      · exact Or.inl hdm
      · obtain ⟨c,e,_,_,he,hv⟩ := hds d hdm
        exact Or.inr ⟨e,hflog ▸ he,hv⟩
    · simp only [RaftProtocol.waiting,passedOn,passed,dropped,Input.offered,hpend,hlost,
        List.flatMap_cons,List.flatMap_map,List.append_nil,List.nil_append]
      rw [List.flatMap_singleton']
      exact List.perm_append_comm

theorem Custody.dispatch (env : Env) {sender : NodeId} {msg : RaftMessage V}
    (hp : p.pendingPersistLogFrom = none) (ht : p.pendingTruncateFrom = none) :
    Custody p (.message sender msg) (p.dispatch env sender msg) := by
  cases msg with
  | requestVote term candidate li lt =>
    rcases RaftProtocol.handleRequestVote_cases env p term candidate li lt with heq | ⟨_,_,_,heq⟩
    · simp only [RaftProtocol.dispatch,heq]
      exact .replies rfl rfl rfl rfl (fun _ _ => id) rfl rfl
    · simp only [RaftProtocol.dispatch,heq]
      exact .replies rfl rfl rfl rfl (fun _ _ => id) rfl rfl
  | requestVoteResponse term granted =>
    rcases RaftProtocol.handleRequestVoteResponse_cases env p sender term granted with
      heq | ⟨_,_,_,heq | ⟨_,heq⟩⟩
    · simp only [RaftProtocol.dispatch,heq]
      exact .still rfl rfl rfl (List.forall_mem_nil _) rfl rfl
    · simp only [RaftProtocol.dispatch,heq]
      exact .still rfl rfl rfl (List.forall_mem_nil _) rfl rfl
    · simp only [RaftProtocol.dispatch,heq]
      exact .becomeLeader env hp rfl rfl rfl rfl rfl
  | appendEntries => exact .handleAppendEntries env hp ht
  | appendEntriesResponse term success mi ct ci =>
    rcases RaftProtocol.handleAppendEntriesResponse_cases p sender term success mi ct ci with
      heq | ⟨hr,_,⟨_,k,_,_,heq⟩ | ⟨next,out,hout,heq⟩⟩
    · simp only [RaftProtocol.dispatch,heq]
      exact .still rfl rfl rfl (List.forall_mem_nil _) rfl rfl
    · simp only [RaftProtocol.dispatch,heq]
      obtain ⟨_,ds,_,_,hadv,_,hds⟩ := (RaftProtocol.tryAdvanceCommit_advanced { p with
        matchIndex := p.matchIndex.insert sender (some k)
        nextIndex := p.nextIndex.insert sender (k + 1) }).frame
      rw [hadv]
      refine .unborn (born_of_same rfl) Or.inl (List.forall_mem_nil _) (List.forall_mem_nil _)
        (fun d hd => ?_) ?_
      · refine (List.mem_append.mp hd).imp id fun hd => ?_
        obtain ⟨c,e,_,_,he,hv⟩ := hds d hd
        exact ⟨e,he,hv⟩
      · simp [passedOn,dropped,Input.offered,passed,RaftProtocol.waiting]
    · simp only [RaftProtocol.dispatch,heq]
      refine .still rfl rfl rfl (fun o ho => ?_) rfl rfl
      rw [List.mem_singleton.mp ho]
      exact Announces.brings hout
  | forward v hops => exact .handleForward env hp

theorem Clean.custody (hc : Clean p) (env : Env) (input : Input V) :
    Custody p input (p.handle env input) := by
  cases input with
  | propose v => exact .propose env v hc.append rfl rfl
  | tick => exact .onTick env hc.append
  | message sender msg =>
    change Custody p _ ((p.bumpTerm env msg).dispatch env sender msg)
    rcases p.bumpTerm_cases env msg with ⟨heq,_⟩ | ⟨t,ht,_,heq⟩
    · rw [heq]
      exact .dispatch env hc.append hc.truncate
    · -- stepping down moves nothing, and a `Forward` has no term
      have hdrop : ∀ q : RaftProtocol V, dropped q (.message sender msg) = [] := by
        intro q
        cases msg with
        | forward => cases ht
        | _ => rfl
      rw [heq]
      refine Custody.before (.dispatch env rfl hc.truncate) rfl rfl rfl ?_
      rw [hdrop,hdrop]

/-- Whom a node that is not leader takes for the leader: whoever it was before,
or the sender of the `AppendEntries` it has just handled. -/
def Led (p : RaftProtocol V) (input : Input V) (q : RaftProtocol V) : Prop :=
  q.role ≠ .leader → ∀ id, q.leader = some id → (p.role ≠ .leader ∧ p.leader = some id) ∨
    ∃ sender t prev prevTerm es lc,
      input = .message sender (.appendEntries t id prev prevTerm es lc)

theorem Led.same (hr : q.role = p.role) (hl : q.leader = p.leader) : Led p input q :=
  fun h _ hid => Or.inl ⟨hr ▸ h,hl ▸ hid⟩

theorem Led.leads (hr : q.role = .leader) : Led p input q := fun h => absurd hr h

theorem Led.lost (hl : q.leader = none) : Led p input q := by
  intro _ id hid
  rw [hl] at hid
  cases hid

theorem Led.after_lost {q' : RaftProtocol V} (h : Led q input q') (hl : q.leader = none) :
    Led p input q' := by
  intro hr id hid
  rcases h hr id hid with ⟨_,hq⟩ | hnew
  · cases hl.symm.trans hq
  · exact Or.inr hnew

theorem RaftProtocol.becomeLeader_role (env : Env) (p : RaftProtocol V)
    (hp : p.pendingPersistLogFrom = none) : (p.becomeLeader env).1.role = .leader := by
  by_cases h : p.pendingProposals = []
  · rw [p.becomeLeader_of_empty env h]
    rfl
  · rw [p.becomeLeader_of_batch env h hp,appendOwn_role]
    rfl

theorem Led.propose (env : Env) (v : V) (hp : p.pendingPersistLogFrom = none) :
    Led p input (p.propose env v).1 := by
  by_cases hr : p.role = .leader
  · rw [RaftProtocol.propose_of_leader env p v hr hp]
    exact .leads ((RaftProtocol.appendOwn_role env p _).trans hr)
  · obtain ⟨_,_,heq,_⟩ := RaftProtocol.propose_cases env p v hr
    rw [heq]
    exact .same rfl rfl

theorem Led.onTick (env : Env) (hp : p.pendingPersistLogFrom = none) :
    Led p input (p.onTick env).1 := by
  rcases RaftProtocol.onTick_cases env p with heq | ⟨_,heq⟩ | ⟨_,heq⟩
  · rw [heq]
    exact .same rfl rfl
  · rw [heq]
    exact .same rfl rfl
  · rw [heq]
    rcases RaftProtocol.startElection_cases env p with ⟨_,heq⟩ | ⟨_,_,_,heq⟩
    · rw [heq]
      exact .leads (RaftProtocol.becomeLeader_role env (p.candidacy env) hp)
    · rw [heq]
      exact .lost rfl

theorem Led.dispatch (env : Env) {sender : NodeId} {msg : RaftMessage V}
    (hp : p.pendingPersistLogFrom = none) (ht : p.pendingTruncateFrom = none) :
    Led p (.message sender msg) (p.dispatch env sender msg).1 := by
  cases msg with
  | requestVote term candidate li lt =>
    rcases RaftProtocol.handleRequestVote_cases env p term candidate li lt with heq | ⟨_,_,_,heq⟩
    · simp only [RaftProtocol.dispatch,heq]
      exact .same rfl rfl
    · simp only [RaftProtocol.dispatch,heq]
      exact .same rfl rfl
  | requestVoteResponse term granted =>
    rcases RaftProtocol.handleRequestVoteResponse_cases env p sender term granted with
      heq | ⟨_,_,_,heq | ⟨_,heq⟩⟩
    · simp only [RaftProtocol.dispatch,heq]
      exact .same rfl rfl
    · simp only [RaftProtocol.dispatch,heq]
      exact .same rfl rfl
    · simp only [RaftProtocol.dispatch,heq]
      exact .leads (RaftProtocol.becomeLeader_role env _ hp)
  | appendEntries term leader prev prevTerm es lc =>
    have hnew : ∀ q : RaftProtocol V, q.leader = some leader →
        Led p (.message sender (.appendEntries term leader prev prevTerm es lc)) q := by
      intro q hq _ id hid
      cases hq.symm.trans hid
      exact Or.inr ⟨_,_,_,_,_,_,rfl⟩
    rcases RaftProtocol.handleAppendEntries_cases env p term leader prev prevTerm es lc hp ht with
      ⟨_,heq⟩ | ⟨_,_,⟨_,_,_,heq⟩ | ⟨_,a,f,hadopt,hadv,heq⟩⟩
    · simp only [RaftProtocol.dispatch,heq]
      exact .same rfl rfl
    · simp only [RaftProtocol.dispatch,heq]
      exact hnew _ rfl
    · obtain ⟨_,_,ha⟩ := hadopt.frame
      obtain ⟨_,_,_,_,hf,_⟩ := hadv.frame
      simp only [RaftProtocol.dispatch,heq]
      refine hnew _ ?_
      rw [hf,ha]
      rfl
  | appendEntriesResponse term success mi ct ci =>
    rcases RaftProtocol.handleAppendEntriesResponse_cases p sender term success mi ct ci with
      heq | ⟨hr,_,⟨_,k,_,_,heq⟩ | ⟨_,_,_,heq⟩⟩
    · simp only [RaftProtocol.dispatch,heq]
      exact .same rfl rfl
    · simp only [RaftProtocol.dispatch,heq]
      obtain ⟨_,_,_,_,hadv,_⟩ := (RaftProtocol.tryAdvanceCommit_advanced { p with
        matchIndex := p.matchIndex.insert sender (some k)
        nextIndex := p.nextIndex.insert sender (k + 1) }).frame
      rw [hadv]
      exact .leads hr
    · simp only [RaftProtocol.dispatch,heq]
      exact .leads hr
  | forward v hops =>
    rcases RaftProtocol.handleForward_cases env p sender v hops with ⟨_,heq⟩ | ⟨_,_,_,heq,_⟩
    · simp only [RaftProtocol.dispatch,heq]
      exact .propose env v hp
    · simp only [RaftProtocol.dispatch,heq]
      exact .same rfl rfl

theorem Clean.led (hc : Clean p) (env : Env) (input : Input V) :
    Led p input (p.handle env input).1 := by
  cases input with
  | propose v => exact .propose env v hc.append
  | tick => exact .onTick env hc.append
  | message sender msg =>
    change Led p _ ((p.bumpTerm env msg).dispatch env sender msg).1
    rcases p.bumpTerm_cases env msg with ⟨heq,_⟩ | ⟨t,_,_,heq⟩
    · rw [heq]
      exact .dispatch env hc.append hc.truncate
    · rw [heq]
      exact Led.after_lost (.dispatch env rfl hc.truncate) rfl

end

end Raft
end Daccord
