import Daccord.RaftHandlers
import Daccord.RaftNode
import Daccord.Runs

/-! What a turn writes. A handler that starts with no write pending leaves
exactly the intents that carry its change of term, vote and log to disk, so
storage and memory agree whenever messages leave the node. -/
namespace Daccord
namespace Raft

variable {V W : Type}

structure Clean (p : RaftProtocol V) : Prop where
  term : p.pendingPersistTerm = false
  votedFor : p.pendingPersistVotedFor = false
  truncate : p.pendingTruncateFrom = none
  append : p.pendingPersistLogFrom = none
  commitIndex : p.pendingPersistCommitIndex = false

/-- From term `t` and vote `v` to a later term and vote, with the two flags. -/
inductive VoteChange (t : ℕ) (v : Option NodeId) : ℕ → Option NodeId → Bool → Bool → Prop
  | same : VoteChange t v t v false false
  | voted (v' : Option NodeId) : VoteChange t v t v' false true
  | moved {t' : ℕ} (v' : Option NodeId) (ht : t < t') : VoteChange t v t' v' true true

/-- From log `l` to a later log, with the index to truncate at and the index to
append from. -/
inductive LogChange (l : List (LogEntry V)) :
    List (LogEntry V) → Option ℕ → Option ℕ → Prop
  | same : LogChange l l none none
  | cut (n : ℕ) : LogChange l (l.take n) (some n) none
  | extended (es : List (LogEntry V)) : LogChange l (l ++ es) none (some l.length)
  | replaced {n : ℕ} (es : List (LogEntry V)) (hn : n ≤ l.length) :
      LogChange l (l.take n ++ es) (some n) (some n)

/-- The change of `p` to `p'` is what the intents of `p'` say. -/
structure Footprint (p p' : RaftProtocol V) : Prop where
  vote : VoteChange p.currentTerm p.votedFor p'.currentTerm p'.votedFor p'.pendingPersistTerm
    p'.pendingPersistVotedFor
  log : LogChange p.log p'.log p'.pendingTruncateFrom p'.pendingPersistLogFrom

/-- `p'` has changed no log and marked no log write since `p`. -/
structure Unlogged (p p' : RaftProtocol V) : Prop where
  vote : VoteChange p.currentTerm p.votedFor p'.currentTerm p'.votedFor p'.pendingPersistTerm
    p'.pendingPersistVotedFor
  log : p'.log = p.log
  truncate : p'.pendingTruncateFrom = none
  append : p'.pendingPersistLogFrom = none

section
variable {p q : RaftProtocol V}

theorem Clean.unlogged (h : Clean p) : Unlogged p p where
  vote := by rw [h.term,h.votedFor]; exact .same
  log := rfl
  truncate := h.truncate
  append := h.append

theorem Unlogged.footprint (h : Unlogged p q) : Footprint p q where
  vote := h.vote
  log := by rw [h.log,h.truncate,h.append]; exact .same

theorem Clean.bumpTerm (h : Clean p) (env : Env) (msg : RaftMessage V) :
    Unlogged p (p.bumpTerm env msg) := by
  rcases p.bumpTerm_cases env msg with ⟨heq,_⟩ | ⟨t,_,ht,heq⟩
  · rw [heq]
    exact h.unlogged
  · rw [heq]
    exact ⟨.moved none ht,rfl,h.truncate,rfl⟩

theorem Unlogged.advanced (h : Unlogged p q) {why : ℕ → Prop} {r : RaftProtocol V}
    (hr : q.Advanced why r) : Unlogged p r := by
  obtain ⟨ci,ds,la,b,rfl,_⟩ := hr.frame
  exact ⟨h.vote,h.log,h.truncate,h.append⟩

theorem Footprint.advanced (h : Footprint p q) {why : ℕ → Prop} {r : RaftProtocol V}
    (hr : q.Advanced why r) : Footprint p r := by
  obtain ⟨ci,ds,la,b,rfl,_⟩ := hr.frame
  exact ⟨h.vote,h.log⟩

theorem Unlogged.appendOwn (h : Unlogged p q) (es : List (LogEntry V)) :
    Footprint p (q.appendOwn es).tryAdvanceCommit := by
  have hown : Footprint p (q.appendOwn es) := by
    refine ⟨h.vote,?_⟩
    simp only [RaftProtocol.appendOwn,h.log,h.truncate]
    exact .extended es
  exact hown.advanced (q.appendOwn es).tryAdvanceCommit_advanced

theorem Footprint.broadcastWithEntries (h : Footprint p q) (env : Env) (es : List (LogEntry V)) :
    Footprint p (q.broadcastWithEntries env es).1 := ⟨h.vote,h.log⟩

theorem Unlogged.propose (h : Unlogged p q) (env : Env) (v : V) :
    Footprint p (q.propose env v).1 := by
  by_cases hr : q.role = .leader
  · rw [q.propose_of_leader env v hr h.append]
    exact (h.appendOwn [⟨q.currentTerm,v⟩]).broadcastWithEntries env _
  · obtain ⟨pend,outs,heq,_⟩ := q.propose_cases env v hr
    rw [heq]
    exact ⟨h.footprint.vote,h.footprint.log⟩

theorem Unlogged.becomeLeader (h : Unlogged p q) (env : Env) :
    Footprint p (q.becomeLeader env).1 := by
  have hoffice : Unlogged p q.takeOffice := ⟨h.vote,h.log,h.truncate,h.append⟩
  by_cases hp : q.pendingProposals = []
  · rw [q.becomeLeader_of_empty env hp]
    exact ⟨hoffice.footprint.vote,hoffice.footprint.log⟩
  · rw [q.becomeLeader_of_batch env hp h.append]
    exact (hoffice.appendOwn q.batch).broadcastWithEntries env _

theorem Clean.startElection (h : Clean p) (env : Env) : Footprint p (p.startElection env).1 := by
  have hcand : Unlogged p (p.candidacy env) :=
    ⟨.moved _ (Nat.lt_succ_self _),rfl,h.truncate,h.append⟩
  rcases p.startElection_cases env with ⟨_,heq⟩ | ⟨_,lost,pend,heq⟩
  · rw [heq]
    exact hcand.becomeLeader env
  · rw [heq]
    exact ⟨hcand.footprint.vote,hcand.footprint.log⟩

theorem Unlogged.handleRequestVote (h : Unlogged p q) (env : Env) (term : ℕ) (candidate : NodeId)
    (li : Option ℕ) (lt : ℕ) : Unlogged p (q.handleRequestVote env term candidate li lt).1 := by
  rcases q.handleRequestVote_cases env term candidate li lt with heq | ⟨_,_,_,heq⟩
  · rw [heq]
    exact h
  · rw [heq]
    refine ⟨?_,h.log,h.truncate,h.append⟩
    have hv := h.vote
    simp only
    generalize q.currentTerm = t,q.votedFor = v,q.pendingPersistTerm = a,
      q.pendingPersistVotedFor = b at hv
    cases hv with
    | same => exact .voted _
    | voted => exact .voted _
    | moved _ ht => exact .moved _ ht

theorem Unlogged.handleRequestVoteResponse (h : Unlogged p q) (env : Env) (sender : NodeId)
    (term : ℕ) (granted : Bool) :
    Footprint p (q.handleRequestVoteResponse env sender term granted).1 := by
  rcases q.handleRequestVoteResponse_cases env sender term granted with
    heq | ⟨_,_,_,heq | ⟨_,heq⟩⟩
  · rw [heq]
    exact h.footprint
  · rw [heq]
    exact ⟨h.footprint.vote,h.footprint.log⟩
  · rw [heq]
    have hq : Unlogged p { q with votesReceived := insert sender q.votesReceived } :=
      ⟨h.vote,h.log,h.truncate,h.append⟩
    exact hq.becomeLeader env

theorem Unlogged.adopted (h : Unlogged p q) {start : ℕ} {es : List (LogEntry V)}
    {r : RaftProtocol V} (hr : q.Adopted start es r) : Footprint p r := by
  cases hr with
  | kept => exact h.footprint
  | cut =>
    refine ⟨h.vote,?_⟩
    simp only [h.log,h.append]
    exact .cut _
  | extended m =>
    refine ⟨h.vote,?_⟩
    simp only [h.log,h.truncate]
    exact .extended _
  | replaced m e he hlen =>
    refine ⟨h.vote,?_⟩
    simp only [h.log] at hlen ⊢
    exact .replaced _ hlen.le

theorem Unlogged.handleAppendEntries (h : Unlogged p q) (env : Env) (term : ℕ) (leader : NodeId)
    (prev : Option ℕ) (prevTerm : ℕ) (es : List (LogEntry V)) (lc : Option ℕ) :
    Footprint p (q.handleAppendEntries env term leader prev prevTerm es lc).1 := by
  have hfollow : Unlogged p (q.follow env leader) := ⟨h.vote,h.log,h.truncate,h.append⟩
  rcases q.handleAppendEntries_cases env term leader prev prevTerm es lc h.append h.truncate with
    ⟨_,heq⟩ | ⟨_,_,⟨_,ct,ci,heq⟩ | ⟨_,r,f,hr,hf,heq⟩⟩
  · rw [heq]
    exact h.footprint
  · rw [heq]
    exact hfollow.footprint
  · rw [heq]
    have hcommit := (hfollow.adopted hr).advanced hf
    exact ⟨hcommit.vote,hcommit.log⟩

theorem Unlogged.handleAppendEntriesResponse (h : Unlogged p q) (sender : NodeId) (term : ℕ)
    (success : Bool) (mi ct ci : Option ℕ) :
    Unlogged p (q.handleAppendEntriesResponse sender term success mi ct ci).1 := by
  rcases q.handleAppendEntriesResponse_cases sender term success mi ct ci with
    heq | ⟨_,_,⟨_,k,_,_,heq⟩ | ⟨next,out,_,heq⟩⟩
  · rw [heq]
    exact h
  · rw [heq]
    have hq : Unlogged p { q with
      matchIndex := q.matchIndex.insert sender (some k)
      nextIndex := q.nextIndex.insert sender (k + 1) } := ⟨h.vote,h.log,h.truncate,h.append⟩
    exact hq.advanced (RaftProtocol.tryAdvanceCommit_advanced _)
  · rw [heq]
    exact ⟨h.vote,h.log,h.truncate,h.append⟩

theorem Unlogged.handleForward (h : Unlogged p q) (env : Env) (sender : NodeId) (v : V)
    (hops : ℕ) : Footprint p (q.handleForward env sender v hops).1 := by
  rcases q.handleForward_cases env sender v hops with ⟨_,heq⟩ | ⟨_,pend,outs,heq,_⟩
  · rw [heq]
    exact h.propose env v
  · rw [heq]
    exact ⟨h.footprint.vote,h.footprint.log⟩

/-- Every event changes term, vote and log exactly as the intents it leaves say. -/
theorem Clean.handle (h : Clean p) (env : Env) (input : Input V) :
    Footprint p (p.handle env input).1 := by
  cases input with
  | propose v => exact h.unlogged.propose env v
  | tick =>
    change Footprint p (p.onTick env).1
    rcases p.onTick_cases env with heq | ⟨_,heq⟩ | ⟨_,heq⟩
    · rw [heq]
      exact h.unlogged.footprint
    · rw [heq]
      exact ⟨h.unlogged.footprint.vote,h.unlogged.footprint.log⟩
    · rw [heq]
      exact h.startElection env
  | message sender msg =>
    have hb := h.bumpTerm env msg
    change Footprint p ((p.bumpTerm env msg).dispatch env sender msg).1
    cases msg with
    | requestVote term candidate li lt => exact (hb.handleRequestVote env term candidate li lt).footprint
    | requestVoteResponse term granted => exact hb.handleRequestVoteResponse env sender term granted
    | appendEntries term leader prev prevTerm es lc =>
      exact hb.handleAppendEntries env term leader prev prevTerm es lc
    | appendEntriesResponse term success mi ct ci =>
      exact (hb.handleAppendEntriesResponse sender term success mi ct ci).footprint
    | forward v hops => exact hb.handleForward env sender v hops

end

/-- The storage has the term, vote and log in memory. -/
structure Holds (A : Adapter V W) (st : RaftStorage W) (t : ℕ) (v : Option NodeId)
    (l : List (LogEntry V)) : Prop where
  term : st.term = t
  votedFor : st.votedFor = v
  log : st.log = A.stripLogEntries l

/-- What the storage can hold after some of the writes that take it from `p` to `p'`. -/
inductive Torn (p p' : RaftProtocol V) : ℕ → Option NodeId → List (LogEntry V) → Prop
  | before : Torn p p' p.currentTerm p.votedFor p.log
  | term (ht : p.currentTerm < p'.currentTerm) : Torn p p' p'.currentTerm p.votedFor p.log
  | vote : Torn p p' p'.currentTerm p'.votedFor p.log
  | cut (n k : ℕ) (hn : p'.pendingTruncateFrom = some n) (hk : p'.pendingPersistLogFrom = some k) :
      Torn p p' p'.currentTerm p'.votedFor (p.log.take n)
  | after : Torn p p' p'.currentTerm p'.votedFor p'.log

@[simp] theorem Adapter.stripLogEntries_append (A : Adapter V W) (l l' : List (LogEntry V)) :
    A.stripLogEntries (l ++ l') = A.stripLogEntries l ++ A.stripLogEntries l' :=
  List.map_append

theorem Adapter.stripLogEntries_take (A : Adapter V W) (l : List (LogEntry V)) (n : ℕ) :
    A.stripLogEntries (l.take n) = (A.stripLogEntries l).take n := List.map_take

@[simp] theorem RaftStorage.calls_nil (st : RaftStorage W) : st.calls [] = st := rfl

@[simp] theorem RaftStorage.calls_cons (st : RaftStorage W) (c : StorageCall W)
    (cs : List (StorageCall W)) : st.calls (c :: cs) = (st.call c).calls cs := rfl

theorem RaftStorage.calls_append (st : RaftStorage W) (cs ds : List (StorageCall W)) :
    st.calls (cs ++ ds) = (st.calls cs).calls ds := List.foldl_append

def voteCalls (t : ℕ) (v : Option NodeId) (term votedFor : Bool) : List (StorageCall W) :=
  ((if term then some t else none).map .saveTerm).toList ++
  ((if votedFor then some v else none).map .saveVotedFor).toList

def logCalls (A : Adapter V W) (l : List (LogEntry V)) (truncate append : Option ℕ) :
    List (StorageCall W) :=
  (truncate.map .truncateLogFrom).toList ++
  (append.map fun idx => .appendLog (A.stripLogEntries (l.drop idx))).toList

theorem drainPersistIntent_calls (A : Adapter V W) (p : RaftProtocol V) :
    p.drainPersistIntent.2.calls A =
      voteCalls p.currentTerm p.votedFor p.pendingPersistTerm p.pendingPersistVotedFor ++
      (logCalls A p.log p.pendingTruncateFrom p.pendingPersistLogFrom ++
      ((if p.pendingPersistCommitIndex then some p.commitIndex else none).map
        StorageCall.saveCommitIndex).toList) := by
  cases h : p.pendingPersistLogFrom <;>
    simp [PersistIntent.calls,RaftProtocol.drainPersistIntent,voteCalls,logCalls,h]

section
variable {A : Adapter V W} {st : RaftStorage W}

theorem VoteChange.torn {t t' : ℕ} {v v' : Option NodeId} {a b : Bool}
    (h : VoteChange t v t' v' a b) (ht : st.term = t) (hv : st.votedFor = v) (k : ℕ) :
    ∃ u w, (st.calls ((voteCalls t' v' a b).take k)) = { st with term := u, votedFor := w } ∧
      ((u = t' ∧ w = v') ∨ (k < (voteCalls (W := W) t' v' a b).length ∧
        ((u = t ∧ w = v) ∨ (t < t' ∧ u = t' ∧ w = v)))) := by
  cases h with
  | same => exact ⟨t,v,by simp [voteCalls,← ht,← hv],by simp⟩
  | voted v' =>
    match k with
    | 0 => exact ⟨t,v,by simp [← ht,← hv],by simp [voteCalls]⟩
    | k + 1 => exact ⟨t,v',by simp [voteCalls,RaftStorage.call,← ht],by simp⟩
  | moved v' hlt =>
    match k with
    | 0 => exact ⟨t,v,by simp [← ht,← hv],by simp [voteCalls]⟩
    | 1 => exact ⟨t',v,by simp [voteCalls,RaftStorage.call,← hv],by simp [voteCalls,hlt]⟩
    | k + 2 => exact ⟨t',v',by simp [voteCalls,RaftStorage.call],by simp⟩

theorem LogChange.torn {l l' : List (LogEntry V)} {a b : Option ℕ} (h : LogChange l l' a b)
    (hl : st.log = A.stripLogEntries l) (k : ℕ) :
    ∃ u, st.calls ((logCalls A l' a b).take k) = { st with log := A.stripLogEntries u } ∧
      (k = 0 → u = l) ∧ (u = l' ∨ (k < (logCalls A l' a b).length ∧
        (u = l ∨ ∃ n m, a = some n ∧ b = some m ∧ u = l.take n))) := by
  cases h with
  | same => exact ⟨l,by simp [logCalls,← hl],by simp⟩
  | cut n =>
    match k with
    | 0 => exact ⟨l,by simp [← hl],by simp [logCalls]⟩
    | k + 1 =>
      exact ⟨l.take n,by simp [logCalls,RaftStorage.call,hl,A.stripLogEntries_take],by simp⟩
  | extended es =>
    match k with
    | 0 => exact ⟨l,by simp [← hl],by simp [logCalls]⟩
    | k + 1 => exact ⟨l ++ es,by simp [logCalls,RaftStorage.call,hl],by simp⟩
  | @replaced n es hn =>
    match k with
    | 0 => exact ⟨l,by simp [← hl],by simp [logCalls]⟩
    | 1 =>
      exact ⟨l.take n,by simp [logCalls,RaftStorage.call,hl,A.stripLogEntries_take],
        by simp [logCalls]⟩
    | k + 2 =>
      refine ⟨l.take n ++ es,?_,by simp⟩
      have hd : (l.take n ++ es).drop n = es := by
        have hlen : (l.take n).length = n := by simp [hn]
        rw [List.drop_append,hlen,List.drop_of_length_le hlen.le]
        simp
      simp [logCalls,RaftStorage.call,hl,A.stripLogEntries_take,hd]

variable {p p' : RaftProtocol V}

theorem Footprint.torn (h : Footprint p p') (hst : Holds A st p.currentTerm p.votedFor p.log)
    (k : ℕ) : ∃ t v l ci,
      st.calls ((p'.drainPersistIntent.2.calls A).take k) =
        { st with term := t, votedFor := v, log := A.stripLogEntries l, commitIndex := ci } ∧
      Torn p p' t v l ∧
      (ci = st.commitIndex ∨
        (ci = p'.commitIndex ∧ t = p'.currentTerm ∧ v = p'.votedFor ∧ l = p'.log)) ∧
      ((p'.drainPersistIntent.2.calls A).length ≤ k →
        t = p'.currentTerm ∧ v = p'.votedFor ∧ l = p'.log ∧
          (p'.pendingPersistCommitIndex = true → ci = p'.commitIndex)) := by
  rw [drainPersistIntent_calls,List.take_append,List.take_append,RaftStorage.calls_append,
    RaftStorage.calls_append]
  obtain ⟨t,v,hvote,hv⟩ := h.vote.torn hst.term hst.votedFor k
  rw [hvote]
  set k' := k - (voteCalls (W := W) p'.currentTerm p'.votedFor p'.pendingPersistTerm
    p'.pendingPersistVotedFor).length with hk'
  have hst' : ({ st with term := t, votedFor := v } : RaftStorage W).log =
    A.stripLogEntries p.log := hst.log
  obtain ⟨l,hlog,hl0,hl⟩ := h.log.torn hst' k'
  rw [hlog]
  set k'' := k' - (logCalls A p'.log p'.pendingTruncateFrom p'.pendingPersistLogFrom).length
    with hk''
  -- a later phase is reached only when the earlier ones are complete
  have htorn : Torn p p' t v l := by
    rcases hv with ⟨rfl,rfl⟩ | ⟨hlt,hv⟩
    · rcases hl with rfl | ⟨_,rfl | ⟨n,m,hn,hm,rfl⟩⟩
      · exact .after
      · exact .vote
      · exact .cut n m hn hm
    · rw [hl0 (by omega)]
      rcases hv with ⟨rfl,rfl⟩ | ⟨ht,rfl,rfl⟩
      · exact .before
      · exact .term ht
  have hfull : k' ≥ (logCalls A p'.log p'.pendingTruncateFrom p'.pendingPersistLogFrom).length →
      k ≥ (voteCalls (W := W) p'.currentTerm p'.votedFor p'.pendingPersistTerm
        p'.pendingPersistVotedFor).length → t = p'.currentTerm ∧ v = p'.votedFor ∧ l = p'.log := by
    intro hk1 hk2
    rcases hv with ⟨rfl,rfl⟩ | ⟨hlt,_⟩
    · rcases hl with rfl | ⟨hlt,_⟩
      · exact ⟨rfl,rfl,rfl⟩
      · omega
    · omega
  cases hc : p'.pendingPersistCommitIndex with
  | false =>
    refine ⟨t,v,l,st.commitIndex,by simp,htorn,Or.inl rfl,fun hlen => ?_⟩
    simp only [List.length_append] at hlen
    obtain ⟨rfl,rfl,rfl⟩ := hfull (by omega) (by omega)
    simp
  | true =>
    simp only [if_true,Option.map_some,Option.toList_some]
    rcases Nat.eq_zero_or_pos k'' with h0 | hpos
    · refine ⟨t,v,l,st.commitIndex,by simp [h0],htorn,Or.inl rfl,fun hlen => ?_⟩
      simp only [List.length_append,List.length_singleton] at hlen
      omega
    · obtain ⟨rfl,rfl,rfl⟩ := hfull (by omega) (by omega)
      refine ⟨_,_,_,p'.commitIndex,?_,htorn,Or.inr ⟨rfl,rfl,rfl,rfl⟩,by simp⟩
      rw [List.take_of_length_le (by simp; omega)]
      rfl

end

/-! Turns, and the part of them that a crash lets happen. -/

section
variable {A : Adapter V W}

theorem filterMap_stored_store (cs : List (StorageCall W)) :
    (cs.map (Effect.store (V := V))).filterMap Effect.stored = cs := by
  rw [List.filterMap_map]
  exact List.filterMap_some

theorem filterMap_stored_send (outs : List (Outgoing (RaftMessage V))) :
    (outs.map (Effect.send (W := W))).filterMap Effect.stored = [] := by
  rw [List.filterMap_map]
  simp [Function.comp_def,Effect.stored]

theorem Turn.stored_cut (A : Adapter V W) (t : Turn V W) (k : ℕ) :
    ((t.effects A).take k).filterMap Effect.stored =
      t.calls.take k ++ (t.saves A).take (k - (t.calls.length + t.outgoing.length + 1)) := by
  simp only [Turn.effects,List.take_append,List.filterMap_append,← List.map_take,
    filterMap_stored_store,filterMap_stored_send,List.length_append,List.length_map,
    List.length_singleton,List.append_nil]
  congr 1
  cases k - (t.calls.length + t.outgoing.length) <;> simp [Effect.stored]

theorem filterMap_sent_store (cs : List (StorageCall W)) :
    (cs.map (Effect.store (V := V))).filterMap Effect.sent = [] := by
  rw [List.filterMap_map]
  simp [Function.comp_def,Effect.sent]

theorem filterMap_sent_send (outs : List (Outgoing (RaftMessage V))) :
    (outs.map (Effect.send (W := W))).filterMap Effect.sent = outs := by
  rw [List.filterMap_map]
  exact List.filterMap_some

theorem Turn.sent_cut (A : Adapter V W) (t : Turn V W) (k : ℕ) :
    ((t.effects A).take k).filterMap Effect.sent = t.outgoing.take (k - t.calls.length) := by
  simp only [Turn.effects,List.take_append,List.filterMap_append,← List.map_take,
    filterMap_sent_store,filterMap_sent_send,List.length_append,List.length_map,
    List.length_singleton,List.append_nil,List.nil_append]
  cases k - (t.calls.length + t.outgoing.length) <;> simp [Effect.sent]

theorem Turn.emitted_cut (A : Adapter V W) (t : Turn V W) (k : ℕ) :
    ((t.effects A).take k).flatMap Effect.emitted =
      if t.calls.length + t.outgoing.length < k then t.decisions else [] := by
  have hstore : ∀ cs : List (StorageCall W),
      (cs.map (Effect.store (V := V))).flatMap Effect.emitted = [] := by
    intro cs
    simp [List.flatMap_map,Effect.emitted]
  have hsend : ∀ outs : List (Outgoing (RaftMessage V)),
      (outs.map (Effect.send (W := W))).flatMap Effect.emitted = [] := by
    intro outs
    simp [List.flatMap_map,Effect.emitted]
  simp only [Turn.effects,List.take_append,List.flatMap_append,← List.map_take,hstore,hsend,
    List.length_append,List.length_map,List.append_nil,List.nil_append]
  by_cases hk : t.calls.length + t.outgoing.length < k
  · obtain ⟨m,hm⟩ : ∃ m, k - (t.calls.length + t.outgoing.length) = m + 1 :=
      ⟨k - (t.calls.length + t.outgoing.length) - 1,by omega⟩
    simp [hk,hm,Effect.emitted]
  · have h0 : k - (t.calls.length + t.outgoing.length) = 0 := by omega
    simp [hk,h0]

theorem Fate.sent_prefix {A : Adapter V W} (t : Turn V W) (fate : Fate) :
    (fate.cut (t.effects A)).filterMap Effect.sent <+: t.outgoing := by
  have hall : ∀ k, ((t.effects A).take k).filterMap Effect.sent <+: t.outgoing := by
    intro k
    rw [Turn.sent_cut]
    exact List.take_prefix _ _
  cases fate with
  | completes =>
    have h := hall (t.effects A).length
    rwa [List.take_length] at h
  | dies k => exact hall k

theorem Fate.mem_emitted {A : Adapter V W} {t : Turn V W} {fate : Fate} {d : Decision V}
    (h : d ∈ (fate.cut (t.effects A)).flatMap Effect.emitted) : d ∈ t.decisions := by
  have hall : ∀ k, d ∈ ((t.effects A).take k).flatMap Effect.emitted → d ∈ t.decisions := by
    intro k hk
    rw [Turn.emitted_cut] at hk
    split at hk
    · exact hk
    · cases hk
  cases fate with
  | completes => exact hall (t.effects A).length (by rwa [List.take_length])
  | dies k => exact hall k h

def saveAll (A : Adapter V W) (m : AList fun _ : ℕ => W) (ds : List (Decision V)) :
    AList fun _ : ℕ => W :=
  ds.foldl (fun m d => m.insert d.slot (A.strip d.value)) m

theorem mem_saveAll {A : Adapter V W} {m : AList fun _ : ℕ => W} {ds : List (Decision V)}
    {slot : ℕ} : slot ∈ saveAll A m ds ↔ slot ∈ m ∨ ∃ d ∈ ds, d.slot = slot := by
  induction ds generalizing m with
  | nil => simp [saveAll]
  | cons d ds ih =>
    have hstep : saveAll A m (d :: ds) = saveAll A (m.insert d.slot (A.strip d.value)) ds := rfl
    rw [hstep,ih,AList.mem_insert]
    constructor
    · rintro ((rfl | hm) | ⟨d',hd',hs⟩)
      · exact Or.inr ⟨d,List.mem_cons_self,rfl⟩
      · exact Or.inl hm
      · exact Or.inr ⟨d',List.mem_cons_of_mem _ hd',hs⟩
    · rintro (hm | ⟨d',hd',hs⟩)
      · exact Or.inl (Or.inr hm)
      · rcases List.mem_cons.mp hd' with rfl | hd'
        · exact Or.inl (Or.inl hs.symm)
        · exact Or.inr ⟨d',hd',hs⟩

theorem Turn.calls_saves (A : Adapter V W) (t : Turn V W) (st : RaftStorage W) (k : ℕ) :
    st.calls ((t.saves A).take k) =
      { st with decisions := saveAll A st.decisions (t.decisions.take k) } := by
  rw [Turn.saves,← List.map_take]
  generalize t.decisions.take k = ds
  induction ds generalizing st with
  | nil => rfl
  | cons d ds ih => exact ih (st.call (.saveDecision d.slot (A.strip d.value)))

/-- At the start of a turn nothing is pending and the storage has what memory has. -/
structure Synced (A : Adapter V W) (n : RaftNode V W) : Prop where
  clean : Clean n.protocol
  holds : Holds A n.storage n.protocol.currentTerm n.protocol.votedFor n.protocol.log

theorem Adapter.strip_wrapLogEntries (A : Adapter V W) (l : List (LogEntry W)) :
    A.stripLogEntries (A.wrapLogEntries l) = l := by
  have h : LogEntry.map A.strip ∘ LogEntry.map A.wrap = id := by
    funext e
    simp [LogEntry.map,A.strip_wrap]
  rw [Adapter.stripLogEntries,Adapter.wrapLogEntries,List.map_map,h,List.map_id]

/-- A lone node resumes as leader when it voted for itself in its term. -/
def resumes (p : RaftProtocol V) (t : ℕ) (v : Option NodeId) : Prop :=
  p.totalNodes = 1 ∧ 0 < t ∧ v = some p.nodeId

instance (p : RaftProtocol V) (t : ℕ) (v : Option NodeId) : Decidable (resumes p t v) :=
  inferInstanceAs (Decidable (_ ∧ _ ∧ _))

/-- The state `restore_state` has built when it comes to apply committed entries. -/
def restored (env : Env) (p : RaftProtocol V) (t : ℕ) (v : Option NodeId) (l : List (LogEntry V))
    (ds : List (ℕ × V)) (ci : Option ℕ) : RaftProtocol V where
  nodeId := p.nodeId
  totalNodes := p.totalNodes
  config := p.config
  currentTerm := t
  votedFor := v
  log := l
  commitIndex := RaftProtocol.capIndex l (RaftProtocol.maxIndex ci (ds.map Prod.fst).max?)
  lastApplied := (ds.map Prod.fst).max?
  role := if resumes p t v then .leader else .follower
  leader := if resumes p t v then some p.nodeId else none
  nextIndex := ∅
  matchIndex := if resumes p t v then RaftProtocol.ownMatch p.nodeId l else ∅
  electionDeadline := nextDeadline env p.config
  votesReceived := ∅
  lastHeartbeatSent := p.lastHeartbeatSent
  pendingDecisions := []
  pendingPersistTerm := false
  pendingPersistVotedFor := false
  pendingPersistLogFrom := none
  pendingTruncateFrom := none
  pendingPersistCommitIndex := false
  pendingProposals := []
  lostProposals := []

theorem restoreState_eq (env : Env) (p : RaftProtocol V) (t : ℕ) (v : Option NodeId)
    (l : List (LogEntry V)) (ds : List (ℕ × V)) (ci : Option ℕ) :
    p.restoreState env t v l ds ci = (restored env p t v l ds ci).applyCommittedEntries := by
  unfold RaftProtocol.restoreState restored
  simp only
  by_cases hs : p.totalNodes = 1 ∧ 0 < t ∧ v = some p.nodeId
  · have hs' : resumes p t v := hs
    rw [if_pos hs,RaftProtocol.seedOwnMatch_eq _ rfl]
    simp only [hs',if_true]
  · have hs' : ¬ resumes p t v := hs
    rw [if_neg hs]
    simp only [hs',if_false]

/-- The state `recover` has built when it comes to apply committed entries. -/
def recovering (A : Adapter V W) (env : Env) (p : RaftProtocol V) (st : RaftStorage W) :
    RaftProtocol V :=
  restored env p st.term st.votedFor (A.wrapLogEntries st.log)
    (st.loadDecisions.map fun d => (d.1,A.wrap d.2)) st.commitIndex

theorem recover_eq (A : Adapter V W) (env : Env) (p : RaftProtocol V) (st : RaftStorage W) :
    p.recover A env st = (recovering A env p st).applyCommittedEntries :=
  restoreState_eq env _ _ _ _ _ _

/-- What is applied in a recovery are entries of the stored log. -/
theorem recover_frame (A : Adapter V W) (env : Env) (p : RaftProtocol V) (st : RaftStorage W) :
    ∃ ds la, p.recover A env st =
        { recovering A env p st with pendingDecisions := ds, lastApplied := la } ∧
      ∀ d ∈ ds, ∃ e, (A.wrapLogEntries st.log)[d.slot]? = some e ∧ e.value = d.value := by
  obtain ⟨ds,la,heq,hds⟩ := (recovering A env p st).applyCommittedEntries_frame
  refine ⟨ds,la,(recover_eq A env p st).trans heq,fun d hd => ?_⟩
  obtain ⟨_,e,_,_,he,hv⟩ := hds d hd
  exact ⟨e,he,hv⟩

theorem Clean.applied {p : RaftProtocol V} (h : Clean p) : Clean p.applyCommittedEntries := by
  obtain ⟨ds,la,heq,_⟩ := p.applyCommittedEntries_frame
  rw [heq]
  exact ⟨h.term,h.votedFor,h.truncate,h.append,h.commitIndex⟩

theorem Synced.boot (A : Adapter V W) (env : Env) (id : NodeId) (total : ℕ) (cfg : RaftConfig)
    (st : RaftStorage W) : Synced A (.boot A env id total cfg st) := by
  obtain ⟨ds,la,heq,_⟩ := recover_frame A env (.new env id total cfg) st
  refine ⟨?_,?_⟩
  · rw [RaftNode.boot,heq]
    exact ⟨rfl,rfl,rfl,rfl,rfl⟩
  · rw [RaftNode.boot,heq]
    exact ⟨rfl,rfl,(A.strip_wrapLogEntries st.log).symm⟩

theorem turn_final (A : Adapter V W) (env : Env) (p : RaftProtocol V) (input : Input V) :
    ∃ lost, (turn A env p input).final =
      { (p.handle env input).1.drainPersistIntent.1 with
        pendingDecisions := []
        lostProposals := lost } := by
  cases input with
  | propose v => exact ⟨_,rfl⟩
  | message sender msg => exact ⟨[],rfl⟩
  | tick => exact ⟨_,rfl⟩

theorem Turn.stored_all (A : Adapter V W) (t : Turn V W) :
    (t.effects A).filterMap Effect.stored = t.calls ++ t.saves A := by
  have h := t.stored_cut A (t.effects A).length
  rw [List.take_length] at h
  rw [h,List.take_of_length_le (by simp [Turn.effects]),
    List.take_of_length_le (by simp [Turn.effects]; omega)]

/-- Once `flush_persist` has returned, the storage has what memory has. -/
theorem Synced.flushed {n : RaftNode V W} (h : Synced A n) (env : Env) (input : Input V) :
    ∃ ci, n.storage.calls (turn A env n.protocol input).calls =
      { n.storage with
        term := (n.protocol.handle env input).1.currentTerm
        votedFor := (n.protocol.handle env input).1.votedFor
        log := A.stripLogEntries (n.protocol.handle env input).1.log
        commitIndex := ci } := by
  obtain ⟨t,v,l,ci,heq,_,_,hfull⟩ := (h.clean.handle env input).torn h.holds
    ((n.protocol.handle env input).1.drainPersistIntent.2.calls A).length
  obtain ⟨rfl,rfl,rfl,_⟩ := hfull (le_refl _)
  rw [List.take_length] at heq
  exact ⟨ci,heq⟩

theorem Synced.after {n : RaftNode V W} (h : Synced A n) (env : Env) (input : Input V)
    (rest : List V) (fate : Fate) :
    Synced A (n.after A env (turn A env n.protocol input) rest fate) := by
  cases fate with
  | dies k => exact Synced.boot A env _ _ _ _
  | completes =>
    obtain ⟨lost,hfinal⟩ := turn_final A env n.protocol input
    obtain ⟨ci,hflush⟩ := h.flushed env input
    have hsaves := (turn A env n.protocol input).calls_saves A
      (n.storage.calls (turn A env n.protocol input).calls)
      ((turn A env n.protocol input).saves A).length
    rw [List.take_length] at hsaves
    simp only [RaftNode.after,Fate.cut]
    rw [Turn.stored_all,RaftStorage.calls_append,hsaves,hflush,hfinal]
    exact ⟨⟨rfl,rfl,rfl,rfl,rfl⟩,⟨rfl,rfl,rfl⟩⟩

theorem Synced.cut {n : RaftNode V W} (h : Synced A n) (env : Env) (input : Input V) (k : ℕ) :
    ∃ t v l ci,
      n.storage.calls ((((turn A env n.protocol input).effects A).take k).filterMap
        Effect.stored) =
        { n.storage with
          term := t
          votedFor := v
          log := A.stripLogEntries l
          commitIndex := ci
          decisions := saveAll A n.storage.decisions ((turn A env n.protocol input).decisions.take
            (k - ((turn A env n.protocol input).calls.length +
              (turn A env n.protocol input).outgoing.length + 1))) } ∧
      Torn n.protocol (turn A env n.protocol input).handled t v l ∧
      (ci = n.storage.commitIndex ∨ (ci = (turn A env n.protocol input).handled.commitIndex ∧
        t = (turn A env n.protocol input).handled.currentTerm ∧
        v = (turn A env n.protocol input).handled.votedFor ∧
        l = (turn A env n.protocol input).handled.log)) ∧
      ((turn A env n.protocol input).calls.length ≤ k →
        t = (turn A env n.protocol input).handled.currentTerm ∧
        v = (turn A env n.protocol input).handled.votedFor ∧
        l = (turn A env n.protocol input).handled.log ∧
        ((turn A env n.protocol input).handled.pendingPersistCommitIndex = true →
          ci = (turn A env n.protocol input).handled.commitIndex)) := by
  obtain ⟨t,v,l,ci,heq,htorn,hci,hfull⟩ := (h.clean.handle env input).torn h.holds k
  refine ⟨t,v,l,ci,?_,htorn,hci,hfull⟩
  rw [Turn.stored_cut,RaftStorage.calls_append,Turn.calls_saves]
  have heq' : n.storage.calls ((turn A env n.protocol input).calls.take k) =
      { n.storage with
        term := t
        votedFor := v
        log := A.stripLogEntries l
        commitIndex := ci } := heq
  rw [heq']

theorem boot_new (A : Adapter V W) (env : Env) (id : NodeId) (total : ℕ) (cfg : RaftConfig) :
    (RaftNode.boot A env id total cfg .new).protocol = .new env id total cfg := by
  have hrec : (RaftNode.boot A env id total cfg .new).protocol =
      (restored env (.new env id total cfg) 0 none [] [] none).applyCommittedEntries :=
    restoreState_eq env _ _ _ _ _ _
  rw [hrec]
  simp [restored,resumes,RaftProtocol.applyCommittedEntries,RaftProtocol.capIndex,
    RaftProtocol.maxIndex,RaftProtocol.new]

theorem recover_restores (A : Adapter V W) (env : Env) (p : RaftProtocol V) (st : RaftStorage W) :
    (p.recover A env st).currentTerm = st.term ∧ (p.recover A env st).votedFor = st.votedFor ∧
      A.stripLogEntries (p.recover A env st).log = st.log := by
  obtain ⟨ds,la,heq,_⟩ := recover_frame A env p st
  rw [heq]
  exact ⟨rfl,rfl,A.strip_wrapLogEntries st.log⟩

/-- Whenever messages leave a node, on whatever run from whatever storage, the
storage has the term, vote and log in memory, and `recover` would bring exactly
them back. -/
theorem storage_synced_at_send (A : Adapter V W) (env : Env) (id : NodeId) (total : ℕ)
    (cfg : RaftConfig) (st : RaftStorage W) (n : RaftNode V W)
    (hn : Runs.Reaches (RaftNode.step A) (fun _ _ => True) (.boot A env id total cfg st) n)
    (env' : Env) (input : Input V) :
    let t := turn A env' n.protocol input
    let disk := n.storage.calls t.calls
    (disk.term = t.sending.currentTerm ∧ disk.votedFor = t.sending.votedFor ∧
      disk.log = A.stripLogEntries t.sending.log) ∧
    ∀ (boot : Env) (q : RaftProtocol V),
      (q.recover A boot disk).currentTerm = t.sending.currentTerm ∧
      (q.recover A boot disk).votedFor = t.sending.votedFor ∧
      A.stripLogEntries (q.recover A boot disk).log = A.stripLogEntries t.sending.log := by
  have hsync : Synced A n := by
    refine hn.invariant (Synced A) (Synced.boot A env id total cfg st) ?_
    intro s w s' _ hs _ hstep
    simp only [RaftNode.step,Option.map_eq_some_iff] at hstep
    obtain ⟨r,_,rfl⟩ := hstep
    exact hs.after w.env r.1 r.2 w.fate
  obtain ⟨ci,hflush⟩ := hsync.flushed env' input
  intro t disk
  have hdisk : disk = { n.storage with
      term := (n.protocol.handle env' input).1.currentTerm
      votedFor := (n.protocol.handle env' input).1.votedFor
      log := A.stripLogEntries (n.protocol.handle env' input).1.log
      commitIndex := ci } := hflush
  rw [hdisk]
  exact ⟨⟨rfl,rfl,rfl⟩,fun boot q => recover_restores A boot q _⟩

def followed : RaftNode (Pending ℕ) ℕ :=
  Runs.after (RaftNode.step .pending) (fun _ _ => True)
    (.boot .pending ⟨0,0⟩ ⟨"a",1⟩ 3 ⟨50,150,300⟩ .new)
    [⟨⟨5,0⟩,some (.message ⟨"b",1⟩ (.appendEntries 1 ⟨"b",1⟩ none 0 [⟨1,⟨1,7⟩⟩,⟨1,⟨2,8⟩⟩] none)),
      .completes⟩] (by decide +kernel)

/-- The leader of term 2 replaces the second entry. -/
def replacement : Input (Pending ℕ) :=
  .message ⟨"c",1⟩ (.appendEntries 2 ⟨"c",1⟩ (some 0) 1 [⟨2,⟨3,9⟩⟩] none)

/-- The log is truncated and appended to on disk before the answer is sent. -/
theorem storage_synced_at_send_replacement :
    let t := turn .pending ⟨9,0⟩ followed.protocol replacement
    followed.storage.log = [⟨1,7⟩,⟨1,8⟩] ∧
      t.calls = [.saveTerm 2,.saveVotedFor none,.truncateLogFrom 1,.appendLog [⟨2,9⟩]] ∧
      (followed.storage.calls t.calls).log = [⟨1,7⟩,⟨2,9⟩] :=
  ⟨by decide +kernel,rfl,(storage_synced_at_send .pending ⟨0,0⟩ ⟨"a",1⟩ 3 ⟨50,150,300⟩ .new followed
    (Runs.after_reaches .start (by decide +kernel)) ⟨9,0⟩ replacement).1.2.2.trans
    (by decide +kernel)⟩

end
end Raft
end Daccord
