import Daccord.RaftSimulation

/-! Safety of a Raft cluster over whole runs: one leader a term, matching logs,
and agreement of the decisions handed out. -/
namespace Daccord
namespace Raft

open ReplicatedLog (State Base Sound Steps Moves Settled)

variable {V : Type} {N : ℕ}

/-- Anything goes: loss, duplication, reordering, restarts, crashes inside a turn. -/
def AnyLabel (_ : Cluster N V) (_ : Label V N) : Prop := True

instance (s : Cluster N V) (l : Label V N) : Decidable (AnyLabel s l) := isTrue trivial

def trio : Membership 3 where
  ids i := ⟨["a","b","c"][i],1⟩
  distinct := by decide
  config := ⟨50,150,300⟩

def tickAt (now : ℕ) (i : Fin 3) : Label ℕ 3 := .act i ⟨now,0⟩ none .completes
def submitAt (now : ℕ) (i : Fin 3) (v : ℕ) : Label ℕ 3 := .act i ⟨now,0⟩ (some v) .completes
def handAt (now pos : ℕ) : Label ℕ 3 := .deliver pos ⟨now,0⟩ .completes

/-- Node `a` is elected and replicates 7 to the two others. -/
def firstTerm : List (Label ℕ 3) :=
  [tickAt 1000 0,handAt 1001 0,handAt 1002 1,submitAt 1003 0 7,handAt 1004 3,handAt 1005 3]

theorem reaches_ok {ok : Cluster N V → Label V N → Prop} {M : Membership N} {env : Env}
    {s : Cluster N V} (strict : Prop) (hok : strict → ∀ s l, ok s l → KeepsOwnOnDeliver s l)
    (h : Runs.Reaches (Cluster.step M) ok (.init M env) s) : ∃ a, ClusterOk M.roster strict a s := by
  obtain ⟨a,_,ha⟩ := (ClusterOk.init M strict env).reaches hok h
  exact ⟨a,ha⟩

/-- In every term at most one node ever takes the leader role. -/
theorem election_safety (M : Membership N) (env : Env) (s : Cluster N V)
    (h : Runs.Reaches (Cluster.step M) AnyLabel (.init M env) s) (t : ℕ) (i j : Fin N)
    (hi : (t,i) ∈ s.elected) (hj : (t,j) ∈ s.elected) : i = j := by
  obtain ⟨a,ha⟩ := reaches_ok False False.elim h
  rcases ha.elected _ hi with hN | hwi
  · subst hN
    exact Subsingleton.elim i j
  rcases ha.elected _ hj with hN | hwj
  · subst hN
    exact Subsingleton.elim i j
  exact ha.sound.base.won_unique hwi hwj

def firstTermEnd : Cluster 3 ℕ :=
  Runs.after (Cluster.step trio) AnyLabel (.init trio ⟨0,0⟩) firstTerm (by decide +kernel)

theorem election_safety_firstTerm :
    (1,0) ∈ firstTermEnd.elected ∧ ∀ j, (1,j) ∈ firstTermEnd.elected → (0 : Fin 3) = j :=
  ⟨by decide +kernel,fun j hj => election_safety trio ⟨0,0⟩ firstTermEnd
    (Runs.after_reaches .start (by decide +kernel)) 1 0 j (by decide +kernel) hj⟩

/-- Two logs with the same term at one index are identical up to it, and along
each log the terms do not decrease and stay at or below the current term. -/
theorem log_matching (M : Membership N) (env : Env) (s : Cluster N V)
    (h : Runs.Reaches (Cluster.step M) AnyLabel (.init M env) s) :
    (∀ (i j : Fin N) (n : ℕ) (e e' : LogEntry V), (s.nodes i).protocol.log[n]? = some e →
      (s.nodes j).protocol.log[n]? = some e' → e.term = e'.term →
      (s.nodes i).protocol.log.take (n + 1) = (s.nodes j).protocol.log.take (n + 1)) ∧
    ∀ i : Fin N, ((s.nodes i).protocol.log.Pairwise fun e e' => e.term ≤ e'.term) ∧
      ∀ e ∈ (s.nodes i).protocol.log, e.term ≤ (s.nodes i).protocol.currentTerm := by
  obtain ⟨a,ha⟩ := reaches_ok False False.elim h
  have hlog : ∀ i, (s.nodes i).protocol.log = a.log i := fun i => (ha.nodes i).tracks.log
  have hterm : ∀ i, (s.nodes i).protocol.currentTerm = a.term i := fun i => (ha.nodes i).tracks.term
  have hb := ha.sound.base
  refine ⟨?_,fun i => ⟨?_,?_⟩⟩
  · intro i j n e e' he he' ht
    rw [hlog] at he he' ⊢
    rw [hlog]
    exact (hb.log_grown i).matching (hb.log_grown j) he he' ht
  · rw [hlog]
    exact hb.log_sorted i
  · intro e he
    rw [hlog] at he
    rw [hterm]
    exact hb.log_le he

theorem log_matching_firstTerm :
    (firstTermEnd.nodes 0).protocol.log[0]? = some ⟨1,7⟩ ∧
    (firstTermEnd.nodes 0).protocol.log.take 1 = (firstTermEnd.nodes 1).protocol.log.take 1 :=
  ⟨by decide +kernel,(log_matching trio ⟨0,0⟩ firstTermEnd
    (Runs.after_reaches .start (by decide +kernel))).1 0 1 0 ⟨1,7⟩ ⟨1,7⟩ (by decide +kernel)
    (by decide +kernel) rfl⟩

/-- No two decisions handed out for one slot differ, as long as every accepted
`AppendEntries` keeps the entries its own term has stored at the receiver. -/
theorem decisions_agree_of_keepsOwn (M : Membership N) (env : Env) (s : Cluster N V)
    (h : Runs.Reaches (Cluster.step M) KeepsOwnOnDeliver (.init M env) s) (i j : Fin N)
    (d d' : Decision V) (hd : (i,d) ∈ s.emitted) (hd' : (j,d') ∈ s.emitted)
    (hslot : d.slot = d'.slot) : d.value = d'.value := by
  obtain ⟨a,ha⟩ := reaches_ok True (fun _ _ _ hl => hl) h
  exact (ha.emitted trivial _ hd).agree ha.sound trivial (ha.emitted trivial _ hd') hslot

/-- The answers of `b` and `c` reach `a`, which then tells them of the commit. -/
def firstCommit : List (Label ℕ 3) :=
  firstTerm ++ [handAt 1006 3,submitAt 1007 0 8,handAt 1008 4]

def firstCommitEnd : Cluster 3 ℕ :=
  Runs.after (Cluster.step trio) KeepsOwnOnDeliver (.init trio ⟨0,0⟩) firstCommit (by decide +kernel)

theorem decisions_agree_firstCommit :
    (0,⟨0,7⟩) ∈ firstCommitEnd.emitted ∧ (1,⟨0,7⟩) ∈ firstCommitEnd.emitted ∧
    ∀ v, (1,⟨0,v⟩) ∈ firstCommitEnd.emitted → 7 = v :=
  ⟨by decide +kernel,by decide +kernel,fun v hv => decisions_agree_of_keepsOwn trio ⟨0,0⟩
    firstCommitEnd (Runs.after_reaches .start (by decide +kernel)) 0 1 ⟨0,7⟩ ⟨0,v⟩ (by decide +kernel) hv rfl⟩

/-- Loss, reordering and restarts between turns; no duplication and no crash
inside a turn. -/
def Reordering (_ : Cluster N V) : Label V N → Prop
  | .act _ _ _ fate => fate = .completes
  | .repropose _ _ fate => fate = .completes
  | .deliver _ _ fate => fate = .completes
  | .duplicate _ => False
  | .restart .. => True
  | .lose _ => True

instance (s : Cluster N V) (l : Label V N) : Decidable (Reordering s l) :=
  match l with
  | .act _ _ _ fate => inferInstanceAs (Decidable (fate = .completes))
  | .repropose _ _ fate => inferInstanceAs (Decidable (fate = .completes))
  | .deliver _ _ fate => inferInstanceAs (Decidable (fate = .completes))
  | .duplicate _ => isFalse id
  | .restart .. => isTrue trivial
  | .lose _ => isTrue trivial

/-- After `firstTerm`, `a` sends a heartbeat and then 8. `b` takes 8 in and
acknowledges it, `a` decides it, and only then the heartbeat reaches `b`, which
drops 8 again. With `c` behind, `b` wins the next term and decides 9 in its place. -/
def lateHeartbeat : List (Label ℕ 3) :=
  firstTerm ++ [tickAt 1100 0,submitAt 1101 0 8,handAt 1102 7,handAt 1103 8,handAt 1104 5,
    tickAt 2000 1,handAt 2001 9,handAt 2002 9,submitAt 2003 1 9,handAt 2004 12,handAt 2005 12]

def lateHeartbeatEnd : Cluster 3 ℕ :=
  Runs.after (Cluster.step trio) Reordering (.init trio ⟨0,0⟩) lateHeartbeat (by decide +kernel)

theorem decisions_differ_lateHeartbeat :
    Runs.Reaches (Cluster.step trio) Reordering (.init trio ⟨0,0⟩) lateHeartbeatEnd ∧
    (0,⟨1,8⟩) ∈ lateHeartbeatEnd.emitted ∧ (1,⟨1,9⟩) ∈ lateHeartbeatEnd.emitted :=
  ⟨Runs.after_reaches .start (by decide +kernel),by decide +kernel,by decide +kernel⟩

end Raft
end Daccord
