import Daccord.PaxosCluster
import Daccord.PaxosSums

/-! The leader promise as a fence: which votes of a single node respect it,
whatever messages the node is given. Rounds and slots are `u64`s, so a run is one of a
build. -/
namespace Daccord
namespace Paxos

variable {V : Type} [DecidableEq V]
variable {R : Rules V} {env : PaxosEnv} {input : Input V} {p q : PaxosProtocol V}
  {out : List (Outgoing (PaxosMessage V))}

def VotesFenced (p q : PaxosProtocol V) : Prop :=
  ∃ later, q.record.votes = p.record.votes ++ later ∧
    ∀ x ∈ later, ∀ l ∈ p.leaderPromise, l ≤ x.number

omit [DecidableEq V] in
theorem VotesFenced.quiet (h : q.record.votes = p.record.votes) : VotesFenced p q :=
  ⟨[],by simp [h],nofun⟩

omit [DecidableEq V] in
theorem VotesFenced.vote {slot : ℕ} {inst : PaxosInstance V} {pn : ProposalNumber} {value : V}
    (hq : q.record.votes = ((p.putInstance slot inst).noteVote slot pn value).record.votes)
    (h : ∀ l ∈ p.leaderPromise, l ≤ pn) : VotesFenced p q := by
  refine ⟨[⟨slot,pn,value⟩],hq,fun x hx => ?_⟩
  rw [List.mem_singleton.mp hx]
  exact h

theorem VotesFenced.selfAccept {slot : ℕ} {inst : PaxosInstance V} {pn : ProposalNumber} {value : V}
    (h : ∀ l ∈ p.leaderPromise, l ≤ pn) :
    VotesFenced p (p.selfAccept env slot inst pn value).1 := by
  unfold PaxosProtocol.selfAccept
  simp only
  split
  · exact .vote (PaxosProtocol.conclude_votes _ env slot value) h
  · exact .vote rfl h

theorem Move.votesFenced (h : Tidy p) (hmulti : p.multi = true) (hfe : R.fenced)
    (hm : Move R env input p q out) : VotesFenced p q := by
  cases hm with
  | aside hq => exact .quiet hq.votes
  | accept _ hs hfloor =>
    refine .vote rfl fun l hl => ?_
    obtain ⟨f,hf,hle⟩ := PaxosProtocol.effectiveFloor_ge hmulti hl
    exact hle.trans (hfloor f hf)
  | phase2 hl hv hq hp hf => exact .selfAccept (hf hfe)
  | belated => exact .quiet (PaxosProtocol.conclude_votes ..)
  | settle => exact .quiet (PaxosProtocol.conclude_votes ..)
  | learn => exact .quiet ((p.lose _).conclude_votes ..)
  | lead _ _ hl =>
    exact VotesFenced.selfAccept (p := { p with nextSlot := p.nextSlot + 1 })
      (h.allocate.leader_le hl)
  | submit _ _ hfree =>
    obtain ⟨_,_,_,heq⟩ := PaxosProtocol.submit_frame h env _ hfree
    exact .quiet (by rw [heq])
  | replay hr hv hl ho hs =>
    unfold PaxosProtocol.replayAccept
    rw [if_neg hs]
    have hle := h.leader_le hl
    rw [← ho] at hle
    exact .selfAccept hle
  | _ => exact .quiet rfl

omit [DecidableEq V] in
theorem VotesFenced.trans {r : PaxosProtocol V} (h : VotesFenced p q) (hk : Keeps p q)
    (h' : VotesFenced q r) : VotesFenced p r := by
  obtain ⟨new,hnew,hle⟩ := h
  obtain ⟨new',hnew',hle'⟩ := h'
  refine ⟨new ++ new',by rw [hnew',hnew,List.append_assoc],fun x hx l hl => ?_⟩
  rcases List.mem_append.mp hx with hx | hx
  · exact hle x hx l hl
  · obtain ⟨l',hl',hll⟩ := hk.promise hl
    exact hll.trans (hle' x hx l' hl')

theorem Moves.votesFenced (h : Tidy p) (hmulti : p.multi = true) (hfe : R.fenced)
    (hm : Moves R env input p q out) : VotesFenced p q := by
  induction hm with
  | nil => exact .quiet rfl
  | snoc hm hlast ih =>
    have hk := hm.keeps h
    exact ih.trans hk (hlast.votesFenced hk.tidy (hk.multi.trans hmulti) hfe)

def PaxosProtocol.step (p : PaxosProtocol V) (call : PaxosEnv × Input V) :
    Option (PaxosProtocol V) :=
  some (p.handle call.1 call.2).1

def AnyCall (_ : PaxosProtocol V) (_ : PaxosEnv × Input V) : Prop := True

/-- A call with which votes stay behind no leader promise, and whose sums fit. -/
def FencedCall (p : PaxosProtocol V) (call : PaxosEnv × Input V) : Prop :=
  Fences p call.2 ∧ Roomy call.1 p call.2

theorem Machine.step_eq {k : Profile} {call : PaxosEnv × Input V} (h : Tidy p)
    (hr : Roomy call.1 p call.2) :
    Machine.step k p call = some (p.handle call.1 call.2).1 := by
  unfold Machine.step
  rw [Machine.handle_eq h hr]
  rfl

theorem Machine.reaches_keeps {k : Profile} (h : Tidy p)
    (hq : Runs.Reaches (Machine.step k) FencedCall p q) : Keeps p q := by
  induction hq with
  | start => exact .refl h
  | next _ hok hs ih =>
    rw [Machine.step_eq ih.tidy hok.2] at hs
    cases hs
    exact ih.trans ((handle_lax _ _ ih.tidy).keeps ih.tidy)

/-- In runs in which the proposer's own votes are fenced, nothing is accepted
below a leader promise given before. -/
theorem accepted_respects_leaderPromise {k : Profile} {nodeId : NodeId} {totalNodes : ℕ}
    {config : PaxosConfig}
    (hp : Runs.Reaches (Machine.step k) FencedCall
      (PaxosProtocol.new true env nodeId totalNodes config : PaxosProtocol V) p)
    (hq : Runs.Reaches (Machine.step k) FencedCall p q) {l : ProposalNumber}
    (hl : p.leaderPromise = some l) :
    ∃ later, q.record.votes = p.record.votes ++ later ∧ ∀ x ∈ later, l ≤ x.number := by
  have hk := Machine.reaches_keeps (Tidy.new true env nodeId totalNodes config) hp
  have hfenced : VotesFenced p q := by
    induction hq with
    | start => exact .quiet rfl
    | @next s s' call hr hok hs ih =>
      have hk' := Machine.reaches_keeps hk.tidy hr
      rw [Machine.step_eq hk'.tidy hok.2] at hs
      cases hs
      have hmoves := handle_moves ⟨True,False,False,False,False,fun _ _ => True,0⟩ call.1 call.2 hk'.tidy
        ⟨fun _ => hok.1,False.elim,False.elim,False.elim,False.elim,
          fun h => h.elim False.elim False.elim,fun _ _ _ => trivial,Nat.zero_le _⟩
      exact ih.trans hk' (hmoves.votesFenced hk'.tidy (hk'.multi.trans hk.multi) trivial)
  obtain ⟨later,heq,hle⟩ := hfenced
  exact ⟨later,heq,fun x hx => hle x hx l hl⟩

section Example

instance (p : PaxosProtocol V) (call : PaxosEnv × Input V) : Decidable (FencedCall p call) :=
  inferInstanceAs (Decidable (Fences p call.2 ∧ Roomy call.1 p call.2))

instance (p : PaxosProtocol V) (call : PaxosEnv × Input V) : Decidable (AnyCall p call) :=
  .isTrue trivial

def follower : PaxosProtocol ℕ := .new true (.steady 0) ⟨"b",1⟩ 3 ⟨100⟩

def pledged : PaxosProtocol ℕ :=
  Runs.after (Machine.step .release) FencedCall follower
    [(.steady 1,.message ⟨"c",1⟩ (.prepareLeader (.mk 1 ⟨"c",1⟩) 0))] (by decide +kernel)

def accepting : PaxosProtocol ℕ :=
  Runs.after (Machine.step .release) FencedCall pledged
    [(.steady 2,.message ⟨"c",1⟩ (.accept 0 (.mk 1 ⟨"c",1⟩) 7)),
      (.steady 3,.message ⟨"a",1⟩ (.accept 1 (.mk 1 ⟨"a",1⟩) 8))] (by decide +kernel)

/-- The leader's value is accepted, the one of the lower number is not. -/
theorem accepted_respects_leaderPromise_pledged :
    pledged.leaderPromise = some (.mk 1 ⟨"c",1⟩) ∧ accepting.record.votes.length = 1 ∧
      ∃ later, accepting.record.votes = pledged.record.votes ++ later ∧
        ∀ x ∈ later, .mk 1 ⟨"c",1⟩ ≤ x.number :=
  ⟨by decide +kernel,by decide +kernel,
    accepted_respects_leaderPromise (Runs.after_reaches .start (by decide +kernel))
      (Runs.after_reaches .start (by decide +kernel)) (by decide +kernel)⟩

def proposing : PaxosProtocol ℕ :=
  Runs.after (Machine.step .release) AnyCall follower
    [(.steady 1,.propose 7),
      (.steady 2,.message ⟨"c",1⟩ (.prepareLeader (.mk 1 ⟨"c",1⟩) 0))] (by decide +kernel)

def overtaken : PaxosProtocol ℕ :=
  Runs.after (Machine.step .release) AnyCall proposing
    [(.steady 3,.message ⟨"a",1⟩ (.promise 0 (.mk 1 ⟨"b",1⟩) none))] (by decide +kernel)

/-- A promise of the slot that arrives after the leader promise starts phase 2,
and the proposer accepts its own value below the leader promise. -/
theorem accepted_below_leaderPromise :
    Runs.Reaches (Machine.step .release) AnyCall follower proposing ∧
      Runs.Reaches (Machine.step .release) AnyCall proposing overtaken ∧
      proposing.leaderPromise = some (.mk 1 ⟨"c",1⟩) ∧ proposing.record.votes.length = 0 ∧
      ∃ x ∈ overtaken.record.votes, x.number < .mk 1 ⟨"c",1⟩ :=
  ⟨Runs.after_reaches .start (by decide +kernel),Runs.after_reaches .start (by decide +kernel),
    by decide +kernel,by decide +kernel,by decide +kernel⟩

end Example

end Paxos
end Daccord
