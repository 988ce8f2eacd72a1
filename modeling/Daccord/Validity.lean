import Daccord.RaftProposals
import Daccord.PaxosValues

/-! Validity of both protocols: what a node decides was proposed. -/
namespace Daccord

variable {V : Type} {N : ℕ}

namespace Raft

structure Cluster.Valid (P : V → Prop) (s : Cluster N V) : Prop where
  placed : s.Placed fun _ e => P e.value
  tokens : ∀ v ∈ s.tokens, P v

variable {P : V → Prop} {M : Membership N} {s s' : Cluster N V} {l : Label V N}

theorem Cluster.Valid.init (M : Membership N) (env : Env) : (Cluster.init M env).Valid P := by
  refine ⟨.init _ M env,fun v hv => ?_⟩
  have hnone := Multiset.mem_of_le (Multiset.le_add_right _ _ |>.trans (Ledger.init M env).once) hv
  cases hnone

theorem Cluster.Valid.step (h : s.Valid P) (hl : ∀ v, l.submitted = some v → P v)
    (hs : s.step M l = some s') : s'.Valid P := by
  rcases Cluster.step_cases hs with ⟨i,env,input,rest,fate,flight,hw,rfl⟩ | ⟨i,env,rfl,rfl⟩ |
    ⟨pos,rfl,rfl⟩ | ⟨pos,pkt,rfl,hpkt,rfl⟩
  · have ht := hw.tokens (h.placed.synced i)
    have hP : ∀ v ∈ s.tokens + (l.submitted.toList : Multiset V), P v := by
      intro v hv
      rcases Multiset.mem_add.mp hv with hv | hv
      · exact h.tokens v hv
      · exact hl v (by simpa using hv)
    refine ⟨h.placed.wakes hw fun x hx => hP _ (Multiset.mem_of_le ht ?_),
      fun v hv => hP v (Multiset.mem_of_le ht (Multiset.mem_add.mpr (Or.inl hv)))⟩
    refine Multiset.mem_add.mpr (Or.inr ?_)
    rw [← bornAt_values]
    exact List.mem_map_of_mem (f := fun x : ℕ × LogEntry V => x.2.value) hx
  · exact ⟨h.placed.restart i env,fun v hv =>
      h.tokens v (Multiset.mem_of_le (s.tokens_restart i env) hv)⟩
  · exact ⟨h.placed.fewer fun _ hp => List.mem_of_mem_eraseIdx hp,fun v hv =>
      h.tokens v (Multiset.mem_of_le (s.tokens_lose pos) hv)⟩
  · -- a second copy of a packet brings no new value
    have hmem := List.mem_of_getElem? hpkt
    have hsub : ∀ x ∈ s.flight ++ [pkt], x ∈ s.flight := by
      intro x hx
      rcases List.mem_append.mp hx with hx | hx
      · exact hx
      · exact List.mem_singleton.mp hx ▸ hmem
    refine ⟨h.placed.fewer hsub,fun v hv => h.tokens v ?_⟩
    rcases Multiset.mem_add.mp hv with hv | hv
    · exact Multiset.mem_add.mpr (Or.inl hv)
    · obtain ⟨x,hx,hv⟩ := List.mem_flatMap.mp hv
      exact Multiset.mem_add.mpr (Or.inr (List.mem_flatMap.mpr ⟨x,hsub x hx,hv⟩))

theorem Cluster.valid_reaches {ok : Cluster N V → Label V N → Prop} {env : Env}
    (hok : ∀ s l, ok s l → ∀ v, l.submitted = some v → P v)
    (h : Runs.Reaches (Cluster.step M) ok (.init M env) s) : s.Valid P :=
  h.invariant (Cluster.Valid P) (.init M env) fun s l _ _ ih hl hs => ih.step (hok s l hl) hs

theorem Label.submitted_eq_some {v : V} (h : l.submitted = some v) :
    ∃ i env fate, l = .act i env (some v) fate := by
  cases l with
  | act i env input fate => exact ⟨i,env,fate,by rw [← h]; rfl⟩
  | _ => cases h

end Raft

/-- What a node of either protocol hands out as decided was passed to `propose`
before, and a Paxos proposer that reaches phase 2 has a value to send. -/
theorem decisions_were_proposed [DecidableEq V] :
    (∀ (M : Paxos.Membership N) (env : Paxos.PaxosEnv) (ls : List (Paxos.Label V N))
      (s : Paxos.Cluster N V),
      Runs.Trace (Paxos.Cluster.step M) (fun _ _ => True) (.init M env) ls s →
      (∀ i, ∀ d ∈ (s.nodes i).protocol.takeDecisions.2,
        ∃ j env, .act j env (some d.value) ∈ ls) ∧
      ∀ i, (s.nodes i).protocol.record.valueMissing = false) ∧
    ∀ (M : Raft.Membership N) (env : Env) (ls : List (Raft.Label V N)) (s : Raft.Cluster N V),
      Runs.Trace (Raft.Cluster.step M) Raft.AnyLabel (.init M env) ls s →
      ∀ x ∈ s.emitted, ∃ j env fate, .act j env (some x.2.value) fate ∈ ls := by
  refine ⟨fun M env ls s h => ?_,fun M env ls s h x hx => ?_⟩
  · have hvalid : s.Valid fun v => ∃ j env, .act j env (some v) ∈ ls := by
      refine Paxos.Cluster.valid_reaches ?_ h.reaches
      rintro s l ⟨_,hmem⟩ i env v rfl
      exact ⟨i,env,hmem⟩
    refine ⟨fun i d hd => ?_,hvalid.present⟩
    have htidy := (Paxos.Kept.reaches h.reaches i).tidy
    exact (hvalid.nodes i).decided (htidy.pending d hd)
  · have hvalid : s.Valid fun v => ∃ j env fate, .act j env (some v) fate ∈ ls := by
      refine Raft.Cluster.valid_reaches ?_ h.reaches
      rintro s l ⟨_,hmem⟩ v hv
      obtain ⟨i,env,fate,rfl⟩ := Raft.Label.submitted_eq_some hv
      exact ⟨i,env,fate,hmem⟩
    obtain ⟨e,he,hv⟩ := hvalid.placed.emitted x hx
    exact hv ▸ he

/-- Node 2 of a Paxos cluster decides its value and node 0 learns it. -/
def learning : List (Paxos.Label ℕ 3) :=
  [.act 2 (.steady 1) (some 5),.deliver 0 (.steady 2),.deliver 2 (.steady 3),.deliver 3 (.steady 4),
    .deliver 5 (.steady 5),.deliver 6 (.steady 6)]

def learningEnd : Paxos.Cluster 3 ℕ :=
  Runs.after (Paxos.Cluster.step (Paxos.trio false)) (fun _ _ => True)
    (.init (Paxos.trio false) (.steady 0)) learning (by decide +kernel)

def committingEnd : Raft.Cluster 3 ℕ :=
  Runs.after (Raft.Cluster.step Raft.trio) Raft.AnyLabel (.init Raft.trio ⟨0,0⟩) Raft.firstCommit
    (by decide +kernel)

theorem decisions_were_proposed_here :
    (⟨0,5⟩ ∈ (learningEnd.nodes 0).protocol.takeDecisions.2 ∧
      ∃ j env, .act j env (some 5) ∈ learning) ∧
    ((1,⟨0,7⟩) ∈ committingEnd.emitted ∧
      ∃ j env fate, .act j env (some 7) fate ∈ Raft.firstCommit) := by
  have hp : (⟨0,5⟩ : Decision ℕ) ∈ (learningEnd.nodes 0).protocol.takeDecisions.2 := by
    decide +kernel
  have hr : ((1,⟨0,7⟩) : Fin 3 × Decision ℕ) ∈ committingEnd.emitted := by decide +kernel
  exact ⟨⟨hp,(decisions_were_proposed.1 (Paxos.trio false) (.steady 0) learning learningEnd
      (Runs.after_trace (by decide +kernel))).1 0 _ hp⟩,
    hr,decisions_were_proposed.2 Raft.trio ⟨0,0⟩ Raft.firstCommit committingEnd
      (Runs.after_trace (by decide +kernel)) _ hr⟩

end Daccord
