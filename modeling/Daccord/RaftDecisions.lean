import Daccord.RaftDurability

/-! Decisions come without gaps: over the lifetimes of one process, whatever
messages it is sent and wherever it crashes. -/
namespace Daccord
namespace Raft

open RaftProtocol (startAt verifiedIndex Adopted Advanced)

variable {V W : Type}

/-- `slots` is `start, start + 1, …`. -/
def Successive (start : ℕ) (ds : List (Decision V)) : Prop :=
  ds.map Decision.slot = List.range' start ds.length

theorem Successive.nil (start : ℕ) : Successive (V := V) start [] := rfl

theorem Successive.append {start : ℕ} {ds es : List (Decision V)} (h : Successive start ds)
    (h' : Successive (start + ds.length) es) : Successive start (ds ++ es) := by
  unfold Successive at *
  rw [List.map_append,h,h',List.length_append,← List.range'_append,Nat.one_mul]

theorem Successive.take {start : ℕ} {ds : List (Decision V)} (h : Successive start ds) (k : ℕ) :
    Successive start (ds.take k) := by
  unfold Successive at *
  rw [List.map_take,h]
  exact List.ext_getElem (by simp) (by simp)

theorem Successive.mem_slots {start : ℕ} {ds : List (Decision V)} (h : Successive start ds)
    {slot : ℕ} : (∃ d ∈ ds, d.slot = slot) ↔ start ≤ slot ∧ slot < start + ds.length := by
  have hmem : (∃ d ∈ ds, d.slot = slot) ↔ slot ∈ ds.map Decision.slot := by simp
  rw [hmem,h,List.mem_range'_1]

section
variable {p q : RaftProtocol V}

def Applied (p q : RaftProtocol V) : Prop :=
  ∃ ds, q.pendingDecisions = p.pendingDecisions ++ ds ∧ Successive p.appliedEnd ds ∧
    q.appliedEnd = p.appliedEnd + ds.length

theorem Applied.of_same (hl : q.lastApplied = p.lastApplied)
    (hd : q.pendingDecisions = p.pendingDecisions) : Applied p q :=
  ⟨[],by simp [hd],.nil _,by simp [RaftProtocol.appliedEnd,hl]⟩

theorem successive_decisionsBetween {log : List (LogEntry V)} (start : ℕ) {stop : ℕ}
    (h : stop ≤ log.length) : Successive start (RaftProtocol.decisionsBetween log start stop) ∧
      (RaftProtocol.decisionsBetween log start stop).length = stop - start := by
  have hslots : (RaftProtocol.decisionsBetween log start stop).map Decision.slot =
      List.range' start (stop - start) := by
    unfold RaftProtocol.decisionsBetween
    rw [List.map_filterMap]
    conv_rhs => rw [← List.filterMap_some (l := List.range' start (stop - start))]
    refine List.filterMap_congr fun n hn => ?_
    have hlt : n < log.length := by
      rw [List.mem_range'_1] at hn
      omega
    simp [List.getElem?_eq_getElem hlt]
  have hlen := congrArg List.length hslots
  rw [List.length_map,List.length_range'] at hlen
  exact ⟨by rw [Successive,hslots,hlen],hlen⟩

theorem Applied.apply (h : ∀ c, p.commitIndex = some c → c < p.log.length) :
    Applied p p.applyCommittedEntries := by
  unfold RaftProtocol.applyCommittedEntries
  cases hc : p.commitIndex with
  | none => exact .of_same rfl rfl
  | some target =>
    simp only
    split
    · exact .of_same rfl rfl
    · rename_i hlt
      obtain ⟨hs,hlen⟩ := successive_decisionsBetween p.appliedEnd
        (show target + 1 ≤ p.log.length from h target hc)
      refine ⟨_,rfl,hs,?_⟩
      rw [hlen]
      simp only [RaftProtocol.appliedEnd] at hlt ⊢
      omega

theorem Applied.advanced {why : ℕ → Prop} (h : Advanced p why q)
    (hwhy : ∀ c, why c → c < p.log.length) : Applied p q := by
  cases h with
  | stay => exact .of_same rfl rfl
  | move c hc =>
    refine Applied.apply (p := { p with
      commitIndex := some c
      pendingPersistCommitIndex := true }) fun c' hc' => ?_
    cases hc'
    exact hwhy c hc

theorem Applied.tryAdvanceCommit (p : RaftProtocol V) : Applied p p.tryAdvanceCommit :=
  .advanced p.tryAdvanceCommit_advanced fun _ hc => by
    obtain ⟨e,he,_⟩ := hc.1
    exact (List.getElem?_eq_some_iff.mp he).1

theorem Applied.becomeLeader (env : Env) (hp : p.pendingPersistLogFrom = none) :
    Applied p (p.becomeLeader env).1 := by
  by_cases h : p.pendingProposals = []
  · rw [RaftProtocol.becomeLeader_of_empty env p h]
    exact .of_same rfl rfl
  · rw [RaftProtocol.becomeLeader_of_batch env p h hp]
    exact Applied.tryAdvanceCommit (p.takeOffice.appendOwn p.batch)

theorem Applied.propose (env : Env) (v : V) (hp : p.pendingPersistLogFrom = none) :
    Applied p (p.propose env v).1 := by
  by_cases hr : p.role = .leader
  · rw [RaftProtocol.propose_of_leader env p v hr hp]
    exact Applied.tryAdvanceCommit (p.appendOwn _)
  · obtain ⟨pend,outs,heq,_⟩ := RaftProtocol.propose_cases env p v hr
    rw [heq]
    exact .of_same rfl rfl

theorem Applied.onTick (env : Env) (hp : p.pendingPersistLogFrom = none) :
    Applied p (p.onTick env).1 := by
  rcases RaftProtocol.onTick_cases env p with heq | ⟨_,heq⟩ | ⟨_,heq⟩
  · rw [heq]
    exact .of_same rfl rfl
  · rw [heq]
    exact .of_same rfl rfl
  · rw [heq]
    rcases RaftProtocol.startElection_cases env p with ⟨_,heq⟩ | ⟨_,_,_,heq⟩
    · rw [heq]
      exact Applied.becomeLeader (p := p.candidacy env) env hp
    · rw [heq]
      exact .of_same rfl rfl

theorem Adopted.length_ge {start : ℕ} {es : List (LogEntry V)} (h : Adopted p start es q) :
    start + es.length ≤ q.log.length := by
  cases h with
  | kept hlen => omega
  | cut h0 hlen => simp only [List.length_take]; omega
  | extended m hm hlen => simp only [List.length_append,List.length_drop]; omega
  | replaced m x hx hlen =>
    have hm := (List.getElem?_eq_some_iff.mp hx).1
    simp only [List.length_append,List.length_take,List.length_drop]
    omega

theorem Applied.handleAppendEntries (env : Env) (term : ℕ) (leader : NodeId) (prev : Option ℕ)
    (prevTerm : ℕ) (es : List (LogEntry V)) (lc : Option ℕ) (hp : p.pendingPersistLogFrom = none)
    (ht : p.pendingTruncateFrom = none) :
    Applied p (p.handleAppendEntries env term leader prev prevTerm es lc).1 := by
  rcases RaftProtocol.handleAppendEntries_cases env p term leader prev prevTerm es lc hp ht with
    ⟨_,heq⟩ | ⟨_,_,⟨_,_,_,heq⟩ | ⟨_,a,f,hadopt,hadv,heq⟩⟩
  · rw [heq]
    exact .of_same rfl rfl
  · rw [heq]
    exact .of_same rfl rfl
  · rw [heq]
    have hlen := Adopted.length_ge hadopt
    have happ : Applied a f := .advanced hadv fun c hc => by
      obtain ⟨l,last,_,hlast,rfl⟩ := hc
      rw [RaftProtocol.verifiedIndex_eq] at hlast
      split at hlast
      · cases hlast
      · have := Option.some.inj hlast
        omega
    obtain ⟨_,_,ha⟩ := hadopt.frame
    rw [ha] at happ
    exact happ

/-- Every event queues the decisions next in line. -/
theorem Clean.applied_handle (hc : Clean p) (env : Env) (input : Input V) :
    Applied p (p.handle env input).1 := by
  cases input with
  | propose v => exact .propose env v hc.append
  | tick => exact .onTick env hc.append
  | message sender msg =>
    -- the step down before the message is handled leaves both fields alone
    have hbump : ∃ p1, p.bumpTerm env msg = p1 ∧ p1.lastApplied = p.lastApplied ∧
        p1.pendingDecisions = p.pendingDecisions ∧ p1.pendingPersistLogFrom = none ∧
        p1.pendingTruncateFrom = none := by
      rcases p.bumpTerm_cases env msg with ⟨heq,_⟩ | ⟨t,_,_,heq⟩
      · exact ⟨_,heq,rfl,rfl,hc.append,hc.truncate⟩
      · exact ⟨_,heq,rfl,rfl,rfl,hc.truncate⟩
    obtain ⟨p1,heq,hl,hd,hp,ht⟩ := hbump
    have hmain : Applied p1 (p1.dispatch env sender msg).1 := by
      cases msg with
      | requestVote term candidate li lt =>
        rcases RaftProtocol.handleRequestVote_cases env p1 term candidate li lt with
          heq | ⟨_,_,_,heq⟩
        · simp only [RaftProtocol.dispatch,heq]
          exact .of_same rfl rfl
        · simp only [RaftProtocol.dispatch,heq]
          exact .of_same rfl rfl
      | requestVoteResponse term granted =>
        rcases RaftProtocol.handleRequestVoteResponse_cases env p1 sender term granted with
          heq | ⟨_,_,_,heq | ⟨_,heq⟩⟩
        · simp only [RaftProtocol.dispatch,heq]
          exact .of_same rfl rfl
        · simp only [RaftProtocol.dispatch,heq]
          exact .of_same rfl rfl
        · simp only [RaftProtocol.dispatch,heq]
          exact Applied.becomeLeader (p := { p1 with
            votesReceived := insert sender p1.votesReceived }) env hp
      | appendEntries term leader prev prevTerm es lc =>
        exact .handleAppendEntries env term leader prev prevTerm es lc hp ht
      | appendEntriesResponse term success mi ct ci =>
        rcases RaftProtocol.handleAppendEntriesResponse_cases p1 sender term success mi ct ci with
          heq | ⟨_,_,⟨_,k,_,_,heq⟩ | ⟨next,out,_,heq⟩⟩
        · simp only [RaftProtocol.dispatch,heq]
          exact .of_same rfl rfl
        · simp only [RaftProtocol.dispatch,heq]
          exact Applied.tryAdvanceCommit { p1 with
            matchIndex := p1.matchIndex.insert sender (some k)
            nextIndex := p1.nextIndex.insert sender (k + 1) }
        · simp only [RaftProtocol.dispatch,heq]
          exact .of_same rfl rfl
      | forward v hops =>
        rcases RaftProtocol.handleForward_cases env p1 sender v hops with
          ⟨_,heq⟩ | ⟨_,_,_,heq,_⟩
        · simp only [RaftProtocol.dispatch,heq]
          exact .propose env v hp
        · simp only [RaftProtocol.dispatch,heq]
          exact .of_same rfl rfl
    change Applied p ((p.bumpTerm env msg).dispatch env sender msg).1
    rw [heq]
    obtain ⟨ds,h1,h2,h3⟩ := hmain
    simp only [RaftProtocol.appliedEnd,hl] at h2 h3
    exact ⟨ds,by rw [h1,hd],h2,h3⟩

end

def StoredBelow (m : AList fun _ : ℕ => W) (k : ℕ) : Prop := ∀ slot, slot ∈ m ↔ slot < k

theorem StoredBelow.saveAll {A : Adapter V W} {m : AList fun _ : ℕ => W} {k : ℕ}
    (h : StoredBelow m k) {ds : List (Decision V)} (hds : Successive k ds) :
    StoredBelow (saveAll A m ds) (k + ds.length) := by
  intro slot
  rw [mem_saveAll,h slot,hds.mem_slots]
  omega

theorem max?_of_mem_iff {l : List ℕ} {k : ℕ} (h : ∀ n, n ∈ l ↔ n < k) :
    l.max? = if k = 0 then none else some (k - 1) := by
  split
  · rename_i h0
    rw [List.max?_eq_none_iff,List.eq_nil_iff_forall_not_mem]
    intro n hn
    have := (h n).mp hn
    omega
  · rw [List.max?_eq_some_iff]
    refine ⟨(h _).mpr (by omega),fun n hn => ?_⟩
    have := (h n).mp hn
    omega

/-- Between two turns: what is stored, what is queued and what is applied fit together. -/
structure Gapless (n : RaftNode V W) (k : ℕ) : Prop where
  stored : StoredBelow n.storage.decisions k
  pending : Successive k n.protocol.pendingDecisions
  applied : n.protocol.appliedEnd = k + n.protocol.pendingDecisions.length

variable {A : Adapter V W}

theorem Gapless.boot (A : Adapter V W) (env : Env) (id : NodeId) (total : ℕ) (cfg : RaftConfig)
    {st : RaftStorage W} {k : ℕ} (h : StoredBelow st.decisions k) :
    Gapless (.boot A env id total cfg st) k := by
  set q := recovering A env (.new env id total cfg) st
  have hprot : (RaftNode.boot A env id total cfg st).protocol = q.applyCommittedEntries :=
    recover_eq A env _ st
  have hkeys : ∀ n, n ∈ ((st.loadDecisions.map fun d => (d.1,A.wrap d.2)).map Prod.fst) ↔
      n < k := by
    intro n
    rw [← h n,AList.mem_keys]
    simp [RaftStorage.loadDecisions,AList.keys,List.keys]
  have hlast : q.lastApplied = if k = 0 then none else some (k - 1) := max?_of_mem_iff hkeys
  have hend : q.appliedEnd = k := by
    rw [RaftProtocol.appliedEnd,hlast]
    split_ifs with h0
    · exact h0.symm
    · simp only
      omega
  -- the restored commit index is capped at the last entry of the log
  have hcap : ∀ c, q.commitIndex = some c → c < q.log.length := by
    intro c hc
    change RaftProtocol.capIndex q.log _ = some c at hc
    unfold RaftProtocol.capIndex at hc
    split at hc
    · obtain ⟨m,hm,rfl⟩ := Option.map_eq_some_iff.mp hc
      rw [RaftProtocol.lastIndexOf_eq] at hm
      split at hm
      · cases hm
      · have := Option.some.inj hm
        omega
    · cases hc
  obtain ⟨ds,hpend,hsucc,happ⟩ := Applied.apply hcap
  have hds : q.applyCommittedEntries.pendingDecisions = ds := hpend
  rw [hend] at hsucc happ
  refine ⟨h,?_,?_⟩
  · rw [hprot,hds]
    exact hsucc
  · rw [hprot,hds]
    exact happ

/-- The decisions a turn hands out are the next ones. -/
theorem Gapless.decisions {n : RaftNode V W} {k : ℕ} (h : Gapless n k) (hs : Synced A n)
    (env : Env) (input : Input V) : Successive k (turn A env n.protocol input).decisions ∧
      (n.protocol.handle env input).1.appliedEnd =
        k + (turn A env n.protocol input).decisions.length := by
  obtain ⟨ds,hpend,hsucc,happ⟩ := hs.clean.applied_handle env input
  have hds : (turn A env n.protocol input).decisions = n.protocol.pendingDecisions ++ ds := hpend
  rw [h.applied] at hsucc happ
  rw [hds,List.length_append,happ]
  exact ⟨h.pending.append hsucc,by omega⟩

theorem Gapless.after {n : RaftNode V W} {k : ℕ} (h : Gapless n k) (hs : Synced A n) (env : Env)
    (input : Input V) (rest : List V) (fate : Fate) :
    ∃ k', Gapless (n.after A env (turn A env n.protocol input) rest fate) k' ∧
      (fate = .completes → k' = k + (turn A env n.protocol input).decisions.length) := by
  obtain ⟨hsucc,happ⟩ := h.decisions hs env input
  set t := turn A env n.protocol input with ht
  have hcut : ∀ j, StoredBelow (n.storage.calls (((t.effects A).take j).filterMap
      Effect.stored)).decisions
      (k + (t.decisions.take (j - (t.calls.length + t.outgoing.length + 1))).length) := by
    intro j
    obtain ⟨_,_,_,_,hstore,_⟩ := hs.cut env input j
    rw [hstore]
    exact h.stored.saveAll (hsucc.take _)
  cases fate with
  | completes =>
    refine ⟨_,⟨?_,?_,?_⟩,fun _ => rfl⟩
    · have hlen : t.decisions.length ≤
          (t.effects A).length - (t.calls.length + t.outgoing.length + 1) := by
        simp only [Turn.effects,Turn.saves,List.length_append,List.length_map,List.length_singleton]
        omega
      have hall := hcut (t.effects A).length
      rw [List.take_length,List.take_of_length_le hlen] at hall
      exact hall
    · obtain ⟨lost,hfinal⟩ := turn_final A env n.protocol input
      simp only [RaftNode.after]
      rw [ht,hfinal]
      exact .nil _
    · obtain ⟨lost,hfinal⟩ := turn_final A env n.protocol input
      simp only [RaftNode.after]
      rw [ht,hfinal]
      exact happ
  | dies j =>
    refine ⟨_,.boot A env _ _ _ (hcut j),fun heq => ?_⟩
    cases heq

/-- From one start of the process to its crash: what was on disk at the start,
and what `take_decisions` has returned since. -/
structure Lifetime (V W : Type) where
  stored : AList fun _ : ℕ => W
  emitted : List (Decision V)

structure History (V W : Type) where
  node : RaftNode V W
  current : Lifetime V W
  past : List (Lifetime V W)

def History.start (A : Adapter V W) (env : Env) (id : NodeId) (total : ℕ) (cfg : RaftConfig) :
    History V W :=
  ⟨.boot A env id total cfg .new,⟨∅,[]⟩,[]⟩

def History.step (A : Adapter V W) (h : History V W) (w : Wake V) : Option (History V W) :=
  (h.node.accepts w.input).map fun r =>
    let t := turn A w.env h.node.protocol r.1
    let node := h.node.after A w.env t r.2 w.fate
    let emitted := h.current.emitted ++ (w.fate.cut (t.effects A)).flatMap Effect.emitted
    match w.fate with
    | .completes => ⟨node,⟨h.current.stored,emitted⟩,h.past⟩
    | .dies _ => ⟨node,⟨node.storage.decisions,[]⟩,⟨h.current.stored,emitted⟩ :: h.past⟩

/-- A lifetime hands out the slots from the first one not on disk when it began. -/
def Lifetime.Whole (life : Lifetime V W) : Prop :=
  ∃ first, StoredBelow life.stored first ∧ Successive first life.emitted

structure History.Ok (A : Adapter V W) (h : History V W) : Prop where
  synced : Synced A h.node
  current : ∃ first, StoredBelow h.current.stored first ∧ Successive first h.current.emitted ∧
    Gapless h.node (first + h.current.emitted.length)
  past : ∀ life ∈ h.past, life.Whole

theorem History.Ok.start (A : Adapter V W) (env : Env) (id : NodeId) (total : ℕ)
    (cfg : RaftConfig) : Ok A (.start A env id total cfg) := by
  have hempty : StoredBelow (W := W) ∅ 0 := fun slot => by simp
  exact ⟨.boot A env id total cfg .new,⟨0,hempty,.nil 0,.boot A env id total cfg hempty⟩,
    by simp [History.start]⟩

theorem History.Ok.step {h h' : History V W} {w : Wake V} (hok : h.Ok A)
    (hs : h.step A w = some h') : h'.Ok A := by
  simp only [History.step,Option.map_eq_some_iff] at hs
  obtain ⟨r,_,rfl⟩ := hs
  obtain ⟨first,hstored,hsucc,hgap⟩ := hok.current
  have hsync := hok.synced.after w.env r.1 r.2 w.fate
  obtain ⟨hds,_⟩ := hgap.decisions hok.synced w.env r.1
  obtain ⟨k',hgap',hk'⟩ := hgap.after hok.synced w.env r.1 r.2 w.fate
  set t := turn A w.env h.node.protocol r.1
  cases hfate : w.fate with
  | completes =>
    rw [hfate] at hsync hgap' hk'
    have hall := t.emitted_cut A (t.effects A).length
    rw [List.take_length,if_pos (by simp [Turn.effects])] at hall
    refine ⟨hsync,⟨first,hstored,?_,?_⟩,hok.past⟩
    · simp only [Fate.cut]
      rw [hall]
      exact hsucc.append hds
    · simp only [Fate.cut]
      rw [hall,List.length_append,← Nat.add_assoc,← hk' rfl]
      exact hgap'
  | dies j =>
    rw [hfate] at hsync hgap'
    refine ⟨hsync,⟨k',hgap'.stored,.nil _,hgap'⟩,?_⟩
    intro life hlife
    rcases List.mem_cons.mp hlife with rfl | hlife
    · refine ⟨first,hstored,?_⟩
      simp only [Fate.cut]
      rw [t.emitted_cut]
      split_ifs
      · exact hsucc.append hds
      · simpa using hsucc
    · exact hok.past life hlife

/-- In every lifetime of a process, the decisions handed out start at the first
slot not on disk when it began and go up one by one; and the slots on disk are
always an initial segment. -/
theorem decisions_gapless (A : Adapter V W) (env : Env) (id : NodeId) (total : ℕ)
    (cfg : RaftConfig) (h : History V W)
    (hr : Runs.Reaches (History.step A) (fun _ _ => True) (.start A env id total cfg) h) :
    (∃ k, ∀ slot, slot ∈ h.node.storage.decisions ↔ slot < k) ∧
    ∀ life ∈ h.current :: h.past, ∃ first, (∀ slot, slot ∈ life.stored ↔ slot < first) ∧
      life.emitted.map Decision.slot = List.range' first life.emitted.length := by
  have hok : h.Ok A := hr.invariant (fun h => h.Ok A) (.start A env id total cfg)
    fun _ _ _ _ hi _ hs => hi.step hs
  obtain ⟨first,hstored,hsucc,hgap⟩ := hok.current
  refine ⟨⟨_,hgap.stored⟩,fun life hlife => ?_⟩
  rcases List.mem_cons.mp hlife with rfl | hlife
  · exact ⟨first,hstored,hsucc⟩
  · exact hok.past life hlife

/-- A lone node decides 7 and 8, crashes before 8 is saved, and comes back. -/
def reborn : History ℕ ℕ :=
  Runs.after (History.step .exact) (fun _ _ => True)
    (.start .exact ⟨0,0⟩ ⟨"a",1⟩ 1 ⟨50,150,300⟩)
    [⟨⟨1000,0⟩,some .tick,.completes⟩,⟨⟨1001,0⟩,some (.propose 7),.completes⟩,
      ⟨⟨1002,0⟩,some (.propose 8),.dies 4⟩,⟨⟨1003,0⟩,some .tick,.completes⟩] (by decide +kernel)

theorem decisions_gapless_reborn :
    (reborn.past.map fun life => life.emitted.map Decision.slot) = [[0,1]] ∧
    reborn.current.emitted.map Decision.slot = [1] ∧
    ∃ first, (∀ slot, slot ∈ reborn.current.stored ↔ slot < first) ∧
      reborn.current.emitted.map Decision.slot =
        List.range' first reborn.current.emitted.length :=
  ⟨by decide +kernel,by decide +kernel,(decisions_gapless .exact ⟨0,0⟩ ⟨"a",1⟩ 1 ⟨50,150,300⟩ reborn
    (Runs.after_reaches .start (by decide +kernel))).2 _ List.mem_cons_self⟩

end Raft
end Daccord
