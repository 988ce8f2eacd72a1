import Daccord.RaftBroadcast

/-! Decisions keep up with the commit index: every slot that a node counts as committed
has come out of `take_decisions`, in this life of it or in an earlier one. A crash may
come before `process_decisions` has delivered what was taken. -/
namespace Daccord
namespace Raft

variable {V : Type} {N : ℕ}

section
variable {p q : RaftProtocol V}

def CaughtUp (p : RaftProtocol V) : Prop := ∀ c, p.commitIndex = some c → c < p.appliedEnd

theorem CaughtUp.apply (p : RaftProtocol V) : CaughtUp p.applyCommittedEntries := by
  intro c hc
  unfold RaftProtocol.applyCommittedEntries at hc ⊢
  cases hp : p.commitIndex with
  | none =>
    rw [hp] at hc
    cases hp.symm.trans hc
  | some target =>
    simp only [hp] at hc ⊢
    split at hc <;> rename_i hlt
    · obtain rfl := Option.some.inj (hp.symm.trans hc)
      rw [if_pos hlt]
      exact hlt
    · obtain rfl : target = c := Option.some.inj hc
      rw [if_neg hlt]
      exact Nat.lt_succ_self _

theorem CaughtUp.advanced {why : ℕ → Prop} (h : CaughtUp p) (hq : RaftProtocol.Advanced p why q) :
    CaughtUp q := by
  cases hq with
  | stay => exact h
  | move c => exact .apply _

theorem CaughtUp.becomeLeader (h : CaughtUp p) (env : Env) (hp : p.pendingPersistLogFrom = none) :
    CaughtUp (p.becomeLeader env).1 := by
  by_cases hb : p.pendingProposals = []
  · rw [p.becomeLeader_of_empty env hb]
    exact h
  · rw [p.becomeLeader_of_batch env hb hp]
    have hadv := CaughtUp.advanced (p := p.takeOffice.appendOwn p.batch) h
      (RaftProtocol.tryAdvanceCommit_advanced _)
    exact hadv

theorem CaughtUp.propose (h : CaughtUp p) (env : Env) (v : V) (hp : p.pendingPersistLogFrom = none) :
    CaughtUp (p.propose env v).1 := by
  by_cases hr : p.role = .leader
  · rw [p.propose_of_leader env v hr hp]
    have hadv := CaughtUp.advanced (p := p.appendOwn [⟨p.currentTerm,v⟩]) h
      (RaftProtocol.tryAdvanceCommit_advanced _)
    exact hadv
  · obtain ⟨_,_,heq,_⟩ := p.propose_cases env v hr
    rw [heq]
    exact h

theorem CaughtUp.onTick (h : CaughtUp p) (env : Env) (hp : p.pendingPersistLogFrom = none) :
    CaughtUp (p.onTick env).1 := by
  rcases p.onTick_cases env with heq | ⟨_,heq⟩ | ⟨_,heq⟩
  · rw [heq]
    exact h
  · rw [heq]
    exact h
  · rw [heq]
    rcases p.startElection_cases env with ⟨_,heq⟩ | ⟨_,_,_,heq⟩
    · rw [heq]
      exact CaughtUp.becomeLeader (p := p.candidacy env) h env hp
    · rw [heq]
      exact h

theorem CaughtUp.handleAppendEntries (h : CaughtUp p) (env : Env) (term : ℕ) (leader : NodeId)
    (prev : Option ℕ) (prevTerm : ℕ) (es : List (LogEntry V)) (lc : Option ℕ)
    (hp : p.pendingPersistLogFrom = none) (ht : p.pendingTruncateFrom = none) :
    CaughtUp (p.handleAppendEntries env term leader prev prevTerm es lc).1 := by
  rcases p.handleAppendEntries_cases env term leader prev prevTerm es lc hp ht with
    ⟨_,heq⟩ | ⟨_,_,⟨_,_,_,heq⟩ | ⟨_,a,f,hadopt,hadv,heq⟩⟩
  · rw [heq]
    exact h
  · rw [heq]
    exact h
  · obtain ⟨_,_,ha⟩ := hadopt.frame
    have haccepted : CaughtUp a := by
      rw [ha]
      exact h
    have hfollowed := haccepted.advanced hadv
    rw [heq]
    exact hfollowed

theorem CaughtUp.handle (h : CaughtUp p) (hc : Clean p) (env : Env) (input : Input V) :
    CaughtUp (p.handle env input).1 := by
  cases input with
  | propose v => exact h.propose env v hc.append
  | tick => exact h.onTick env hc.append
  | message sender msg =>
    have hbump : ∃ p1, p.bumpTerm env msg = p1 ∧ CaughtUp p1 ∧ p1.pendingPersistLogFrom = none ∧
        p1.pendingTruncateFrom = none := by
      rcases p.bumpTerm_cases env msg with ⟨heq,_⟩ | ⟨t,_,_,heq⟩
      · exact ⟨_,heq,h,hc.append,hc.truncate⟩
      · exact ⟨_,heq,h,rfl,hc.truncate⟩
    obtain ⟨p1,heq,h1,hp,ht⟩ := hbump
    change CaughtUp ((p.bumpTerm env msg).dispatch env sender msg).1
    rw [heq]
    cases msg with
    | requestVote term candidate li lt =>
      rcases p1.handleRequestVote_cases env term candidate li lt with heq | ⟨_,_,_,heq⟩
      · simp only [RaftProtocol.dispatch,heq]
        exact h1
      · simp only [RaftProtocol.dispatch,heq]
        exact h1
    | requestVoteResponse term granted =>
      rcases p1.handleRequestVoteResponse_cases env sender term granted with
        heq | ⟨_,_,_,heq | ⟨_,heq⟩⟩
      · simp only [RaftProtocol.dispatch,heq]
        exact h1
      · simp only [RaftProtocol.dispatch,heq]
        exact h1
      · simp only [RaftProtocol.dispatch,heq]
        exact CaughtUp.becomeLeader (p := { p1 with
          votesReceived := insert sender p1.votesReceived }) h1 env hp
    | appendEntries term leader prev prevTerm es lc =>
      exact h1.handleAppendEntries env term leader prev prevTerm es lc hp ht
    | appendEntriesResponse term success mi ct ci =>
      rcases p1.handleAppendEntriesResponse_cases sender term success mi ct ci with
        heq | ⟨_,_,⟨_,k,_,_,heq⟩ | ⟨next,out,_,heq⟩⟩
      · simp only [RaftProtocol.dispatch,heq]
        exact h1
      · simp only [RaftProtocol.dispatch,heq]
        exact CaughtUp.advanced (p := { p1 with
          matchIndex := p1.matchIndex.insert sender (some k)
          nextIndex := p1.nextIndex.insert sender (k + 1) }) h1
          (RaftProtocol.tryAdvanceCommit_advanced _)
      · simp only [RaftProtocol.dispatch,heq]
        exact h1
    | forward v hops =>
      rcases p1.handleForward_cases env sender v hops with ⟨_,heq⟩ | ⟨_,_,_,heq,_⟩
      · simp only [RaftProtocol.dispatch,heq]
        exact h1.propose env v hp
      · simp only [RaftProtocol.dispatch,heq]
        exact h1

end

/-- Node `n` has applied what it has committed, and has handed out, to `out`, whatever
it has on disk. -/
structure HandsOut (n : RaftNode V V) (out : List (Decision V)) : Prop where
  synced : Synced .exact n
  caughtUp : CaughtUp n.protocol
  handed : ∃ k, Gapless n k ∧ ∀ slot < k, ∃ d ∈ out, d.slot = slot

theorem HandsOut.boot (env : Env) (id : NodeId) (total : ℕ) (cfg : RaftConfig) {st : RaftStorage V}
    {k : ℕ} (hst : StoredBelow st.decisions k) {out : List (Decision V)}
    (hout : ∀ slot < k, ∃ d ∈ out, d.slot = slot) :
    HandsOut (.boot .exact env id total cfg st) out := by
  refine ⟨.boot .exact env id total cfg st,?_,k,.boot .exact env id total cfg hst,hout⟩
  rw [RaftNode.boot,recover_eq]
  exact .apply _

theorem HandsOut.after {n : RaftNode V V} {out : List (Decision V)} (h : HandsOut n out) (env : Env)
    (input : Input V) (rest : List V) (fate : Fate) :
    HandsOut (n.after .exact env (turn .exact env n.protocol input) rest fate)
      (out ++ (fate.cut ((turn .exact env n.protocol input).effects .exact)).flatMap
        Effect.emitted) := by
  obtain ⟨k,hk,hout⟩ := h.handed
  obtain ⟨hsucc,k',hk',hle,_⟩ := hk.emits h.synced env input rest fate
  refine ⟨h.synced.after env input rest fate,?_,k',hk',fun slot hslot => ?_⟩
  · cases fate with
    | completes =>
      obtain ⟨lost,hfinal⟩ := turn_final .exact env n.protocol input
      simp only [RaftNode.after]
      rw [hfinal]
      exact h.caughtUp.handle h.synced.clean env input
    | dies j =>
      simp only [RaftNode.after]
      rw [RaftNode.boot,recover_eq]
      exact .apply _
  · by_cases hlt : slot < k
    · obtain ⟨d,hd,rfl⟩ := hout slot hlt
      exact ⟨d,List.mem_append_left _ hd,rfl⟩
    · obtain ⟨d,hd,rfl⟩ := hsucc.mem_slots.mpr ⟨Nat.le_of_not_lt hlt,hslot.trans_le hle⟩
      exact ⟨d,List.mem_append_right _ hd,rfl⟩

theorem HandsOut.mono {n : RaftNode V V} {out out' : List (Decision V)} (h : HandsOut n out)
    (hsub : ∀ d ∈ out, d ∈ out') : HandsOut n out' := by
  obtain ⟨k,hk,hout⟩ := h.handed
  refine ⟨h.synced,h.caughtUp,k,hk,fun slot hslot => ?_⟩
  obtain ⟨d,hd,heq⟩ := hout slot hslot
  exact ⟨d,hsub d hd,heq⟩

def Cluster.outOf (s : Cluster N V) (j : Fin N) : List (Decision V) :=
  (s.emitted.filter fun x => x.1 = j).map Prod.snd

theorem Cluster.mem_outOf {s : Cluster N V} {j : Fin N} {d : Decision V} :
    d ∈ s.outOf j ↔ (j,d) ∈ s.emitted := by
  simp [Cluster.outOf]

theorem Cluster.handsOut_reaches {M : Membership N} {env : Env} {s : Cluster N V}
    {ok : Cluster N V → Label V N → Prop} (h : Runs.Reaches (Cluster.step M) ok (.init M env) s)
    (j : Fin N) : HandsOut (s.nodes j) (s.outOf j) := by
  refine h.invariant (fun s : Cluster N V => ∀ j, HandsOut (s.nodes j) (s.outOf j)) ?_ ?_ j
  · intro j
    exact HandsOut.boot (k := 0) env _ _ _ (fun slot => by simp [RaftStorage.new])
      fun _ hlt => absurd hlt (Nat.not_lt_zero _)
  · intro s l s' _ ih _ hs j
    rcases Cluster.step_cases hs with ⟨i,env,input,rest,fate,flight,hw,rfl⟩ | ⟨i,env,rfl,rfl⟩ |
      ⟨pos,rfl,rfl⟩ | ⟨pos,pkt,rfl,hpkt,rfl⟩
    · by_cases hj : j = i
      · subst hj
        have hafter := (ih j).after env input rest fate
        simp only [Cluster.take,Function.update_self]
        refine hafter.mono fun d hd => ?_
        rw [Cluster.mem_outOf]
        rcases List.mem_append.mp hd with hd | hd
        · exact List.mem_append_left _ (Cluster.mem_outOf.mp hd)
        · exact List.mem_append_right _ (List.mem_map.mpr ⟨d,hd,rfl⟩)
      · simp only [Cluster.take,Function.update_of_ne hj]
        refine (ih j).mono fun d hd => ?_
        rw [Cluster.mem_outOf] at hd ⊢
        exact List.mem_append_left _ hd
    · by_cases hj : j = i
      · subst hj
        obtain ⟨k,hk,hout⟩ := (ih j).handed
        simp only [Function.update_self]
        exact HandsOut.boot env _ _ _ hk.stored hout
      · simp only [Function.update_of_ne hj]
        exact ih j
    · exact ih j
    · exact ih j

/-- Whatever messages arrive in whatever order and wherever nodes crash: every slot up
to the commit index of a node has been handed out by that node or is queued to be, and
what is queued is not on disk yet. -/
theorem committed_handed_out (M : Membership N) (env : Env) (s : Cluster N V)
    (h : Runs.Reaches (Cluster.step M) AnyLabel (.init M env) s) (j : Fin N) :
    (∀ c slot, (s.nodes j).protocol.commitIndex = some c → slot ≤ c →
      (∃ d, (j,d) ∈ s.emitted ∧ d.slot = slot) ∨
      ∃ d ∈ (s.nodes j).protocol.pendingDecisions, d.slot = slot) ∧
    ∀ d ∈ (s.nodes j).protocol.pendingDecisions, d.slot ∉ (s.nodes j).storage.decisions := by
  have hout := Cluster.handsOut_reaches h j
  obtain ⟨k,hk,hhanded⟩ := hout.handed
  refine ⟨fun c slot hc hle => ?_,fun d hd hstored => ?_⟩
  · have hlt := hout.caughtUp c hc
    rw [hk.applied] at hlt
    by_cases hslot : slot < k
    · obtain ⟨d,hd,heq⟩ := hhanded slot hslot
      exact Or.inl ⟨d,Cluster.mem_outOf.mp hd,heq⟩
    · exact Or.inr (hk.pending.mem_slots.mpr ⟨Nat.le_of_not_lt hslot,hle.trans_lt hlt⟩)
  · have hlow := (hk.pending.mem_slots.mp ⟨d,hd,rfl⟩).1
    have hhigh := (hk.stored d.slot).mp hstored
    omega

theorem committed_handed_out_queued :
    (queuedCommit.nodes 0).protocol.commitIndex = some 0 ∧
    ((∃ d, (0,d) ∈ queuedCommit.emitted ∧ d.slot = 0) ∨
      ∃ d ∈ (queuedCommit.nodes 0).protocol.pendingDecisions, d.slot = 0) := by
  have hcommit : (queuedCommit.nodes 0).protocol.commitIndex = some 0 := by decide +kernel
  have hqueued : Runs.Reaches (Cluster.step trio) Fifo (.init trio ⟨0,0⟩) queued :=
    Runs.after_reaches .start (by decide +kernel)
  have hreach : Runs.Reaches (Cluster.step trio) AnyLabel (.init trio ⟨0,0⟩) queuedCommit :=
    .next (hqueued.weaken fun _ _ _ => trivial) trivial (Option.some_get _).symm
  exact ⟨hcommit,(committed_handed_out trio ⟨0,0⟩ queuedCommit hreach 0).1 0 0 hcommit (le_refl 0)⟩

end Raft
end Daccord
