import Daccord.RaftSafety

/-! The commit rule of the leader. `try_advance_commit` looks at one order
statistic of `match_index`; in every leader a cluster can have, that is the same
as looking for the greatest index of the current term a quorum has reached. -/
namespace Daccord
namespace Raft

variable {V : Type} {N : ℕ}

namespace RaftProtocol

/-- When `q` keys carry `n` or more, so does position `q - 1` of the descending order. -/
theorem sorted_of_quorum (m : AList fun _ : NodeId => Option ℕ) {q n : ℕ} (hq : 0 < q)
    {Q : Finset NodeId} (hcard : q ≤ Q.card)
    (hQ : ∀ id ∈ Q, ∃ k, m.lookup id = some (some k) ∧ n ≤ k) :
    ∃ c, ((m.entries.map Sigma.snd).insertionSort fun a b => descending a b)[q - 1]? =
      some (some c) ∧ n ≤ c := by
  set r : Option ℕ → Option ℕ → Prop := fun a b => descending a b
  set sorted := (m.entries.map Sigma.snd).insertionSort r
  have hsorted : sorted.Pairwise r := List.pairwise_insertionSort r _
  let good : Option ℕ → Bool := fun o => descending o (some n)
  have hcount : q ≤ (sorted.filter good).length := by
    have hsub : Q ⊆ ((m.entries.filter fun e => good e.2).map Sigma.fst).toFinset := by
      intro id hid
      obtain ⟨k,hk,hle⟩ := hQ id hid
      refine List.mem_toFinset.mpr (List.mem_map.mpr ⟨⟨id,some k⟩,List.mem_filter.mpr ⟨?_,?_⟩,rfl⟩)
      · exact AList.mem_lookup_iff.mp hk
      · simpa [good,descending] using hle
    calc q ≤ Q.card := hcard
      _ ≤ _ := Finset.card_le_card hsub
      _ ≤ ((m.entries.filter fun e => good e.2).map Sigma.fst).length := List.toFinset_card_le _
      _ = ((m.entries.map Sigma.snd).filter good).length := by
          rw [List.filter_map,List.length_map,List.length_map]
          rfl
      _ = (sorted.filter good).length :=
          ((List.perm_insertionSort r _).filter good).length_eq.symm
  have hlt : q - 1 < sorted.length := by
    have := List.length_filter_le good sorted
    omega
  have hgood : good sorted[q - 1] = true := by
    -- otherwise only the first `q - 1` places can be good
    by_contra hbad
    have hdrop : (sorted.drop (q - 1)).filter good = [] := by
      refine List.filter_eq_nil_iff.mpr fun o ho hgo => hbad ?_
      obtain ⟨j,hj,rfl⟩ := List.mem_iff_getElem.mp ho
      rw [List.length_drop] at hj
      rw [List.getElem_drop] at hgo
      rcases Nat.eq_zero_or_pos j with rfl | hpos
      · exact hgo
      · have hp := List.pairwise_iff_getElem.mp hsorted (q - 1) (q - 1 + j) hlt (by omega) (by omega)
        exact trans_of (fun a b => descending a b = true) hp hgo
    rw [← List.take_append_drop (q - 1) sorted,List.filter_append,hdrop,List.append_nil] at hcount
    have := List.length_filter_le good (sorted.take (q - 1))
    rw [List.length_take] at this
    omega
  cases hc : sorted[q - 1] with
  | none => simp [good,hc,descending] at hgood
  | some c =>
    refine ⟨c,by rw [List.getElem?_eq_getElem hlt,hc],?_⟩
    simpa [good,hc,descending] using hgood

/-- `commit_index` after `try_advance_commit` is the greatest index of the
current term that a quorum of keys has reached, unless it was higher before. -/
def CommitRule (p : RaftProtocol V) : Prop :=
  (∀ n, IsGreatest {n | p.Replicated n} n →
    p.tryAdvanceCommit.commitIndex = maxIndex p.commitIndex (some n)) ∧
  ((∀ n, ¬ p.Replicated n) → p.tryAdvanceCommit.commitIndex = p.commitIndex)

def Matched (p : RaftProtocol V) : Prop :=
  ∀ id k, p.matchIndex.lookup id = some (some k) → k < p.log.length

structure Climbs (p : RaftProtocol V) : Prop where
  sorted : p.log.Pairwise fun a b => a.term ≤ b.term
  bounded : ∀ e ∈ p.log, e.term ≤ p.currentTerm

theorem tryAdvanceCommit_commitIndex (p : RaftProtocol V) {c : ℕ} {e : LogEntry V}
    (hc : ((p.matchIndex.entries.map Sigma.snd).insertionSort fun a b =>
      descending a b)[p.quorum - 1]? = some (some c)) (he : p.log[c]? = some e) :
    p.tryAdvanceCommit.commitIndex =
      if e.term = p.currentTerm then maxIndex p.commitIndex (some c) else p.commitIndex := by
  obtain ⟨ds,la,heq,_⟩ := applyCommittedEntries_frame
    { p with commitIndex := some c, pendingPersistCommitIndex := true }
  simp only [tryAdvanceCommit,hc,he]
  rw [heq]
  by_cases ht : e.term = p.currentTerm
  · cases hci : p.commitIndex with
    | none => simp [ht,above,maxIndex]
    | some old =>
      by_cases hlt : old < c
      · simp [ht,above,maxIndex,hlt,max_eq_right hlt.le]
      · simp [ht,above,maxIndex,hlt,hci,max_eq_left (Nat.not_lt.mp hlt)]
  · simp [ht]

/-- The rule needs no more than that. -/
theorem Climbs.commitRule {p : RaftProtocol V} (h : p.Climbs) (hm : p.Matched) : p.CommitRule := by
  have hpos : 0 < p.quorum := Nat.succ_pos _
  -- every replicated index lies at or below the one the code looks at
  have hbelow : ∀ {n}, p.Replicated n → ∃ c, ((p.matchIndex.entries.map Sigma.snd).insertionSort
      fun a b => descending a b)[p.quorum - 1]? = some (some c) ∧ n ≤ c := fun {n} hn => by
    obtain ⟨_,Q,hcard,hQ⟩ := hn
    exact sorted_of_quorum p.matchIndex hpos hcard hQ
  have hinside : ∀ {c}, ((p.matchIndex.entries.map Sigma.snd).insertionSort
      fun a b => descending a b)[p.quorum - 1]? = some (some c) → ∃ e, p.log[c]? = some e := by
    intro c hc
    obtain ⟨Q,hcard,hQ⟩ := quorum_of_sorted p.matchIndex hpos hc
    obtain ⟨id,hid⟩ := Finset.card_pos.mp (hpos.trans_le hcard)
    obtain ⟨k,hk,hle⟩ := hQ id hid
    exact ⟨_,List.getElem?_eq_getElem (hle.trans_lt (hm id k hk))⟩
  refine ⟨fun n hn => ?_,fun hnone => ?_⟩
  · obtain ⟨c,hc,hle⟩ := hbelow hn.1
    obtain ⟨e,he⟩ := hinside hc
    have hterm : e.term = p.currentTerm := by
      obtain ⟨⟨e',he',ht'⟩,_⟩ := hn.1
      refine le_antisymm (h.bounded e (List.mem_of_getElem? he)) (ht' ▸ ?_)
      rcases Nat.eq_or_lt_of_le hle with rfl | hlt
      · rw [he] at he'
        exact (congrArg LogEntry.term (Option.some.inj he')).ge
      · obtain ⟨hl,rfl⟩ := List.getElem?_eq_some_iff.mp he
        obtain ⟨hl',rfl⟩ := List.getElem?_eq_some_iff.mp he'
        exact List.pairwise_iff_getElem.mp h.sorted n c hl' hl hlt
    have hrep : p.Replicated c := ⟨⟨e,he,hterm⟩,quorum_of_sorted p.matchIndex hpos hc⟩
    obtain rfl : n = c := le_antisymm hle (hn.2 hrep)
    rw [tryAdvanceCommit_commitIndex p hc he,if_pos hterm]
  · have hstay := p.tryAdvanceCommit_advanced
    generalize p.tryAdvanceCommit = q at hstay
    cases hstay with
    | stay => rfl
    | move c hc => exact absurd hc (hnone c)

/-- The state in which handling `input` at `p` calls `try_advance_commit`. -/
inductive Advances (env : Env) (p : RaftProtocol V) : Input V → RaftProtocol V → Prop
  | propose (v : V) (h : p.role = .leader) :
      Advances env p (.propose v) (p.appendOwn [⟨p.currentTerm,v⟩])
  | forward (sender : NodeId) (v : V) (hops : ℕ) (h : p.role = .leader) :
      Advances env p (.message sender (.forward v hops)) (p.appendOwn [⟨p.currentTerm,v⟩])
  | counted (sender : NodeId) (k : ℕ) (ct ci : Option ℕ) (h : p.role = .leader)
      (hk : k < p.log.length) :
      Advances env p (.message sender (.appendEntriesResponse p.currentTerm true (some k) ct ci))
        { p with
          matchIndex := p.matchIndex.insert sender (some k)
          nextIndex := p.nextIndex.insert sender (k + 1) }
  | elected (sender : NodeId) (h : p.role = .candidate) (hp : p.pendingProposals ≠ []) :
      Advances env p (.message sender (.requestVoteResponse p.currentTerm true))
        ({ p with votesReceived := insert sender p.votesReceived }.takeOffice.appendOwn p.batch)
  | alone (hp : p.pendingProposals ≠ []) :
      Advances env p .tick ((p.candidacy env).takeOffice.appendOwn (p.candidacy env).batch)

/-- What a handler may leave behind as far as leaders go. -/
inductive Leading (env : Env) (p : RaftProtocol V) (input : Input V) (q : RaftProtocol V) : Prop
  | other (h : q.role ≠ .leader)
  | kept (h : p.role = .leader) (hlog : q.log = p.log) (hmatch : q.matchIndex = p.matchIndex)
      (hcommit : q.commitIndex = p.commitIndex)
  | office (hmatch : q.matchIndex = ownMatch p.nodeId q.log) (hcommit : q.commitIndex = p.commitIndex)
  | advanced (w : RaftProtocol V) (hw : Advances env p input w) (hlog : q.log = w.log)
      (hmatch : q.matchIndex = w.matchIndex)
      (hcommit : q.commitIndex = w.tryAdvanceCommit.commitIndex)

section
variable {p : RaftProtocol V} {input : Input V}

theorem Leading.same {env : Env} {q : RaftProtocol V} (hrole : q.role = p.role) (hlog : q.log = p.log)
    (hmatch : q.matchIndex = p.matchIndex) (hcommit : q.commitIndex = p.commitIndex) :
    Leading env p input q := by
  by_cases hr : p.role = .leader
  · exact .kept hr hlog hmatch hcommit
  · exact .other (hrole ▸ hr)

theorem Leading.broadcastOwn {env : Env} {w : RaftProtocol V} (hw : Advances env p input w)
    (es : List (LogEntry V)) :
    Leading env p input (w.tryAdvanceCommit.broadcastWithEntries env es).1 := by
  obtain ⟨ci,ds,la,b,heq,_⟩ := w.tryAdvanceCommit_advanced.frame
  refine .advanced w hw ?_ ?_ rfl
  · simp only [broadcastWithEntries,heq]
  · simp only [broadcastWithEntries,heq]

theorem Leading.propose (env : Env) (v : V) (hp : p.pendingPersistLogFrom = none)
    (hw : p.role = .leader → Advances env p input (p.appendOwn [⟨p.currentTerm,v⟩])) :
    Leading env p input (p.propose env v).1 := by
  by_cases hr : p.role = .leader
  · rw [propose_of_leader env p v hr hp]
    exact .broadcastOwn (hw hr) _
  · obtain ⟨pend,outs,heq,_⟩ := propose_cases env p v hr
    rw [heq]
    exact .other hr

theorem Leading.becomeLeader (env : Env) {w : RaftProtocol V} (hid : w.nodeId = p.nodeId)
    (hcommit : w.commitIndex = p.commitIndex) (hp : w.pendingPersistLogFrom = none)
    (hw : w.pendingProposals ≠ [] → Advances env p input (w.takeOffice.appendOwn w.batch)) :
    Leading env p input (w.becomeLeader env).1 := by
  by_cases h : w.pendingProposals = []
  · rw [becomeLeader_of_empty env w h]
    refine .office ?_ hcommit
    rw [← hid]
    rfl
  · rw [becomeLeader_of_batch env w h hp]
    exact .broadcastOwn (hw h) _

theorem Leading.onTick (env : Env) (hp : p.pendingPersistLogFrom = none) :
    Leading env p .tick (p.onTick env).1 := by
  rcases onTick_cases env p with heq | ⟨hr,heq⟩ | ⟨hr,heq⟩
  · rw [heq]
    exact .same rfl rfl rfl rfl
  · rw [heq]
    exact .kept hr rfl rfl rfl
  · rw [heq]
    rcases startElection_cases env p with ⟨_,heq⟩ | ⟨_,lost,pend,heq⟩
    · rw [heq]
      exact .becomeLeader env rfl rfl hp fun h => .alone h
    · rw [heq]
      exact .other nofun

theorem Leading.handleRequestVote (env : Env) (term : ℕ) (candidate : NodeId) (li : Option ℕ)
    (lt : ℕ) : Leading env p input (p.handleRequestVote env term candidate li lt).1 := by
  rcases handleRequestVote_cases env p term candidate li lt with heq | ⟨_,_,_,heq⟩
  · rw [heq]
    exact .same rfl rfl rfl rfl
  · rw [heq]
    exact .same rfl rfl rfl rfl

theorem Leading.handleRequestVoteResponse (env : Env) {sender : NodeId} {term : ℕ} {granted : Bool}
    (hin : input = .message sender (.requestVoteResponse term granted))
    (hp : p.pendingPersistLogFrom = none) :
    Leading env p input (p.handleRequestVoteResponse env sender term granted).1 := by
  rcases handleRequestVoteResponse_cases env p sender term granted with
    heq | ⟨hcand,rfl,rfl,heq | ⟨_,heq⟩⟩
  · rw [heq]
    exact .same rfl rfl rfl rfl
  · rw [heq]
    exact .other fun hl => absurd (hcand.symm.trans hl) nofun
  · rw [heq]
    exact .becomeLeader env rfl rfl hp fun h => hin ▸ .elected sender hcand h

theorem Leading.handleAppendEntries (env : Env) (term : ℕ) (leader : NodeId) (prev : Option ℕ)
    (prevTerm : ℕ) (es : List (LogEntry V)) (lc : Option ℕ) (hp : p.pendingPersistLogFrom = none)
    (ht : p.pendingTruncateFrom = none) :
    Leading env p input (p.handleAppendEntries env term leader prev prevTerm es lc).1 := by
  rcases handleAppendEntries_cases env p term leader prev prevTerm es lc hp ht with
    ⟨_,heq⟩ | ⟨_,_,⟨_,ct,ci,heq⟩ | ⟨_,a,f,hadopt,hadv,heq⟩⟩
  · rw [heq]
    exact .same rfl rfl rfl rfl
  · rw [heq]
    exact .other nofun
  · obtain ⟨_,_,ha⟩ := hadopt.frame
    obtain ⟨_,_,_,_,hf,_⟩ := hadv.frame
    rw [heq,hf,ha]
    exact .other nofun

theorem Leading.handleAppendEntriesResponse (env : Env) {sender : NodeId} {term : ℕ}
    {success : Bool} {mi ct ci : Option ℕ}
    (hin : input = .message sender (.appendEntriesResponse term success mi ct ci)) :
    Leading env p input (p.handleAppendEntriesResponse sender term success mi ct ci).1 := by
  rcases handleAppendEntriesResponse_cases p sender term success mi ct ci with
    heq | ⟨hr,rfl,⟨rfl,k,rfl,hk,heq⟩ | ⟨next,out,_,heq⟩⟩
  · rw [heq]
    exact .same rfl rfl rfl rfl
  · rw [heq]
    obtain ⟨_,_,_,_,hadv,_⟩ := (tryAdvanceCommit_advanced { p with
      matchIndex := p.matchIndex.insert sender (some k)
      nextIndex := p.nextIndex.insert sender (k + 1) }).frame
    refine .advanced _ (hin ▸ .counted sender k ct ci hr hk) ?_ ?_ rfl
    · rw [hadv]
    · rw [hadv]
  · rw [heq]
    exact .kept hr rfl rfl rfl

theorem Leading.handleForward (env : Env) {sender : NodeId} {v : V} {hops : ℕ}
    (hin : input = .message sender (.forward v hops)) (hp : p.pendingPersistLogFrom = none) :
    Leading env p input (p.handleForward env sender v hops).1 := by
  rcases handleForward_cases env p sender v hops with ⟨_,heq⟩ | ⟨hr,pend,outs,heq,_⟩
  · rw [heq]
    exact .propose env v hp fun hr => hin ▸ .forward sender v hops hr
  · rw [heq]
    exact .other hr

theorem Leading.dispatch (env : Env) {sender : NodeId} {msg : RaftMessage V}
    (hin : input = .message sender msg) (hp : p.pendingPersistLogFrom = none)
    (ht : p.pendingTruncateFrom = none) : Leading env p input (p.dispatch env sender msg).1 := by
  cases msg with
  | requestVote => exact .handleRequestVote env _ _ _ _
  | requestVoteResponse => exact .handleRequestVoteResponse env hin hp
  | appendEntries => exact .handleAppendEntries env _ _ _ _ _ _ hp ht
  | appendEntriesResponse => exact .handleAppendEntriesResponse env hin
  | forward => exact .handleForward env hin hp

theorem Leading.stepped {env : Env} {sender : NodeId} {msg : RaftMessage V} {w q : RaftProtocol V}
    (h : Leading env w (.message sender msg) q) (hid : w.nodeId = p.nodeId)
    (hcommit : w.commitIndex = p.commitIndex) (hrole : w.role = .follower) :
    Leading env p (.message sender msg) q := by
  cases h with
  | other h => exact .other h
  | kept h => exact absurd (hrole.symm.trans h) nofun
  | office hm hc => exact .office (hid ▸ hm) (hc.trans hcommit)
  | advanced x hx =>
    cases hx with
    | forward _ _ _ h => exact absurd (hrole.symm.trans h) nofun
    | counted _ _ _ _ h => exact absurd (hrole.symm.trans h) nofun
    | elected _ h => exact absurd (hrole.symm.trans h) nofun

theorem handle_leading (hc : Clean p) (env : Env) (input : Input V) :
    Leading env p input (p.handle env input).1 := by
  cases input with
  | propose v => exact .propose env v hc.append fun hr => .propose v hr
  | tick => exact .onTick env hc.append
  | message sender msg =>
    change Leading env p _ ((p.bumpTerm env msg).dispatch env sender msg).1
    rcases p.bumpTerm_cases env msg with ⟨heq,_⟩ | ⟨t,_,_,heq⟩
    · rw [heq]
      exact .dispatch env rfl hc.append hc.truncate
    · rw [heq]
      refine Leading.stepped (.dispatch env rfl ?_ hc.truncate) rfl rfl rfl
      rfl

theorem lookup_insert_lt {m : AList fun _ : NodeId => Option ℕ} {n : ℕ} {own : NodeId} {last : ℕ}
    (hm : ∀ id k, m.lookup id = some (some k) → k < n) (hlast : last < n) (id : NodeId) (k : ℕ)
    (h : (m.insert own (some last)).lookup id = some (some k)) : k < n := by
  by_cases hid : id = own
  · subst hid
    rw [AList.lookup_insert] at h
    obtain rfl := Option.some.inj (Option.some.inj h)
    exact hlast
  · rw [AList.lookup_insert_ne hid] at h
    exact hm id k h

theorem Matched.own {own : NodeId} (h : p.matchIndex = ownMatch own p.log) : p.Matched := by
  intro id k hk
  rw [h] at hk
  have := (ownMatch_lookup hk).2
  omega

theorem Matched.appendOwn {w : RaftProtocol V} (h : w.Matched) {es : List (LogEntry V)}
    (hne : es ≠ []) : (w.appendOwn es).Matched := by
  have hpos := List.length_pos_iff.mpr hne
  refine lookup_insert_lt (fun id k hk => ?_) ?_
  · exact (h id k hk).trans_le (by simp [RaftProtocol.appendOwn])
  · simp only [RaftProtocol.appendOwn,List.length_append]
    omega

theorem Climbs.appendOwn {w : RaftProtocol V} (h : w.Climbs) {es : List (LogEntry V)}
    (hes : ∀ e ∈ es, e.term = w.currentTerm) : (w.appendOwn es).Climbs := by
  refine ⟨List.pairwise_append.mpr ⟨h.sorted,?_,fun a ha b hb => ?_⟩,fun e he => ?_⟩
  · exact List.pairwise_of_forall_mem_list fun a ha b hb => ((hes a ha).trans (hes b hb).symm).le
  · exact (h.bounded a ha).trans (hes b hb).ge
  · rcases List.mem_append.mp he with he | he
    · exact h.bounded e he
    · exact (hes e he).le

theorem batch_ne_nil {w : RaftProtocol V} (h : w.pendingProposals ≠ []) : w.batch ≠ [] := by
  simpa [batch] using h

theorem batch_term {w : RaftProtocol V} (e : LogEntry V) (he : e ∈ w.batch) :
    e.term = w.currentTerm := by
  obtain ⟨v,_,rfl⟩ := List.mem_map.mp he
  rfl

theorem Advances.matched {env : Env} {w : RaftProtocol V} (h : Advances env p input w)
    (hm : p.role = .leader → p.Matched) : w.Matched := by
  cases h with
  | propose v hl => exact (hm hl).appendOwn (List.cons_ne_nil _ _)
  | forward sender v hops hl => exact (hm hl).appendOwn (List.cons_ne_nil _ _)
  | counted sender k ct ci hl hk => exact lookup_insert_lt (hm hl) hk
  | elected sender hc hne => exact (Matched.own rfl).appendOwn (batch_ne_nil hne)
  | alone hne =>
    exact (Matched.own (p := (p.candidacy env).takeOffice) rfl).appendOwn (batch_ne_nil hne)

theorem Advances.climbs {env : Env} {w : RaftProtocol V} (h : Advances env p input w)
    (hp : p.Climbs) : w.Climbs := by
  cases h with
  | propose v hl => exact hp.appendOwn (by simp)
  | forward sender v hops hl => exact hp.appendOwn (by simp)
  | counted sender k ct ci hl hk => exact ⟨hp.sorted,hp.bounded⟩
  | elected sender hc hne =>
    have hup : ({ p with votesReceived := insert sender p.votesReceived }.takeOffice).Climbs :=
      ⟨hp.sorted,hp.bounded⟩
    exact hup.appendOwn batch_term
  | alone hne =>
    have hup : (p.candidacy env).takeOffice.Climbs :=
      ⟨hp.sorted,fun e he => (hp.bounded e he).trans (Nat.le_succ _)⟩
    exact hup.appendOwn batch_term

/-- A leader's `match_index` stays inside its log, whatever it is sent. -/
theorem Leading.matched {env : Env} {q : RaftProtocol V} (h : Leading env p input q)
    (hm : p.role = .leader → p.Matched) (hl : q.role = .leader) : q.Matched := by
  cases h with
  | other hno => exact absurd hl hno
  | kept hr hlog hmatch _ =>
    intro id k
    rw [hlog,hmatch]
    exact hm hr id k
  | office hmatch _ => exact .own hmatch
  | advanced w hw hlog hmatch _ =>
    intro id k
    rw [hlog,hmatch]
    exact hw.matched hm id k

end
end RaftProtocol

theorem boot_matched {W : Type} (A : Adapter V W) (env : Env) (id : NodeId) (total : ℕ)
    (cfg : RaftConfig) (st : RaftStorage W)
    (h : (RaftNode.boot A env id total cfg st).protocol.role = .leader) :
    (RaftNode.boot A env id total cfg st).protocol.Matched := by
  obtain ⟨ds,la,heq,_⟩ := recover_frame A env (.new env id total cfg) st
  rw [RaftNode.boot,heq] at h ⊢
  have hres : resumes (.new (V := V) env id total cfg) st.term st.votedFor := by
    by_contra hno
    cases (if_neg hno).symm.trans h
  exact .own (if_pos hres)

theorem Synced.after_matched {W : Type} {A : Adapter V W} {n : RaftNode V W} (h : Synced A n)
    (hm : n.protocol.role = .leader → n.protocol.Matched) (env : Env) (input : Input V)
    (rest : List V) (fate : Fate)
    (hl : (n.after A env (turn A env n.protocol input) rest fate).protocol.role = .leader) :
    (n.after A env (turn A env n.protocol input) rest fate).protocol.Matched := by
  cases fate with
  | completes =>
    obtain ⟨lost,hfinal⟩ := turn_final A env n.protocol input
    simp only [RaftNode.after] at hl ⊢
    rw [hfinal] at hl ⊢
    exact (RaftProtocol.handle_leading h.clean env input).matched hm hl
  | dies k => exact boot_matched A env _ _ _ _ hl

theorem Cluster.matched_reaches {M : Membership N} {env : Env} {s : Cluster N V}
    {ok : Cluster N V → Label V N → Prop}
    (h : Runs.Reaches (Cluster.step M) ok (.init M env) s) (i : Fin N) :
    Synced .exact (s.nodes i) ∧
      ((s.nodes i).protocol.role = .leader → (s.nodes i).protocol.Matched) := by
  refine h.invariant (fun s => ∀ i, Synced .exact (s.nodes i) ∧
    ((s.nodes i).protocol.role = .leader → (s.nodes i).protocol.Matched)) ?_ ?_ i
  · intro i
    exact ⟨.boot .exact env (M.ids i) N M.config .new,boot_matched .exact env (M.ids i) N M.config .new⟩
  · intro s l s' _ ih _ hs
    rcases Cluster.step_cases hs with ⟨j,env,input,rest,fate,flight,hw,rfl⟩ | ⟨j,env,rfl,rfl⟩ |
      ⟨pos,rfl,rfl⟩ | ⟨pos,pkt,rfl,hpkt,rfl⟩
    · exact (Function.forall_update_iff s.nodes fun _ n => Synced .exact n ∧
        (n.protocol.role = .leader → n.protocol.Matched)).mpr
        ⟨⟨(ih j).1.after env input rest fate,(ih j).1.after_matched (ih j).2 env input rest fate⟩,
          fun k _ => ih k⟩
    · exact (Function.forall_update_iff s.nodes fun _ n => Synced .exact n ∧
        (n.protocol.role = .leader → n.protocol.Matched)).mpr
        ⟨⟨.boot .exact env _ _ _ _,boot_matched .exact env _ _ _ _⟩,fun k _ => ih k⟩
    · exact ih
    · exact ih

/-- In every state a cluster can reach, `try_advance_commit` sets the commit
index of a leader to the greatest index of its term that a quorum of the keys of
`match_index` has reached. So it does in the middle of every turn that calls it,
and nothing else moves the commit index of a leader. -/
theorem commit_rule_exact (M : Membership N) (env : Env) (s : Cluster N V)
    (h : Runs.Reaches (Cluster.step M) AnyLabel (.init M env) s) (i : Fin N) :
    ((s.nodes i).protocol.role = .leader → (s.nodes i).protocol.CommitRule) ∧
    ∀ (now : Env) (input : Input V),
      (∀ w, (s.nodes i).protocol.Advances now input w → w.CommitRule) ∧
      (((s.nodes i).protocol.handle now input).1.role = .leader →
        ((s.nodes i).protocol.handle now input).1.commitIndex = (s.nodes i).protocol.commitIndex ∨
        ∃ w, (s.nodes i).protocol.Advances now input w ∧
          ((s.nodes i).protocol.handle now input).1.commitIndex = w.tryAdvanceCommit.commitIndex) := by
  obtain ⟨hsynced,hm⟩ := Cluster.matched_reaches h i
  have hclimbs : (s.nodes i).protocol.Climbs := by
    obtain ⟨a,ha⟩ := reaches_ok False False.elim h
    have ht := (ha.nodes i).tracks
    refine ⟨?_,fun e he => ?_⟩
    · rw [ht.log]
      exact ha.sound.base.log_sorted i
    · rw [ht.log] at he
      rw [ht.term]
      exact ha.sound.base.log_le he
  refine ⟨fun hl => hclimbs.commitRule (hm hl),fun now input => ⟨fun w hw => ?_,fun hl => ?_⟩⟩
  · exact (hw.climbs hclimbs).commitRule (hw.matched hm)
  · cases RaftProtocol.handle_leading hsynced.clean now input with
    | other hno => exact absurd hl hno
    | kept _ _ _ hc => exact Or.inl hc
    | office _ hc => exact Or.inl hc
    | advanced w hw _ _ hc => exact Or.inr ⟨w,hw,hc⟩

/-- The leader of the first term, and the same leader on the answer of `b`. -/
theorem commit_rule_firstTerm :
    (firstTermEnd.nodes 0).protocol.role = .leader ∧ (firstTermEnd.nodes 0).protocol.CommitRule ∧
    ∀ w, (firstTermEnd.nodes 0).protocol.Advances ⟨1006,0⟩
      (.message ⟨"b",1⟩ (.appendEntriesResponse 1 true (some 0) none none)) w → w.CommitRule := by
  have hlead : (firstTermEnd.nodes 0).protocol.role = .leader := by decide +kernel
  obtain ⟨hnow,hcall⟩ := commit_rule_exact trio ⟨0,0⟩ firstTermEnd
    (Runs.after_reaches .start (by decide +kernel)) 0
  exact ⟨hlead,hnow hlead,(hcall ⟨1006,0⟩ _).1⟩

end Raft
end Daccord
