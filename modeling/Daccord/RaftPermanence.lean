import Daccord.RaftFifo

/-! What a Raft cluster never takes back: the log of a leader, and entries that
some node counts as committed. -/
namespace Daccord
namespace Raft

open ReplicatedLog (Base Sound Moves Settled)

variable {V : Type} {N : ℕ} {R : Roster N} {strict : Prop} {a a' : Abstract N V}

theorem ClusterOk.leads {s : Cluster N V} (h : ClusterOk R strict a s) {i : Fin N}
    (hi : (s.nodes i).protocol.role = .leader) :
    a.won (s.nodes i).protocol.currentTerm i ∧
      (s.nodes i).protocol.log = a.book (s.nodes i).protocol.currentTerm := by
  have htracks := (h.nodes i).tracks
  have hlead := htracks.lead.mp hi
  rw [htracks.term,htracks.log]
  exact ⟨h.sound.base.lead_won hlead,h.sound.base.lead_log hlead⟩

/-- The log of a leader only grows as long as it leads its term, and it holds every
entry of that term, with all entries before it, that was ever in a log. -/
theorem leader_appends_only (M : Membership N) (env : Env) (s s' : Cluster N V)
    (h : Runs.Reaches (Cluster.step M) AnyLabel (.init M env) s)
    (h' : Runs.Reaches (Cluster.step M) AnyLabel s s') (j : Fin N)
    (hj : (s'.nodes j).protocol.role = .leader) :
    (∀ i, (s.nodes i).protocol.role = .leader →
      (s.nodes i).protocol.currentTerm = (s'.nodes j).protocol.currentTerm →
      i = j ∧ (s.nodes i).protocol.log <+: (s'.nodes j).protocol.log) ∧
    ∀ i n e, (s.nodes i).protocol.log[n]? = some e →
      e.term = (s'.nodes j).protocol.currentTerm →
      (s.nodes i).protocol.log.take (n + 1) = (s'.nodes j).protocol.log.take (n + 1) := by
  obtain ⟨a,ha⟩ := reaches_ok False False.elim h
  obtain ⟨a',hmoves,ha'⟩ := ha.reaches False.elim h'
  have hx := (ha.sound.base.moves hmoves).2
  obtain ⟨hwon',hlog'⟩ := ha'.leads hj
  refine ⟨fun i hi ht => ?_,fun i n e he ht => ?_⟩
  · obtain ⟨hwon,hlog⟩ := ha.leads hi
    rw [ht] at hwon hlog
    rw [hlog,hlog']
    exact ⟨ha'.sound.base.won_unique (hx.won hwon) hwon',hx.book _⟩
  · have hlog := (ha.nodes i).tracks.log
    rw [hlog] at he ⊢
    have hgrown := ha.sound.base.log_grown i n e he
    have hlen : n < (a.log i).length := (List.getElem?_eq_some_iff.mp he).1
    have hbook : n + 1 ≤ (a.book e.term).length := by
      have := congrArg List.length hgrown
      simp only [List.length_take] at this
      omega
    rw [hgrown,hlog',← ht,hx.take_book hbook]

theorem leader_appends_only_firstTerm :
    (firstTermEnd.nodes 0).protocol.role = .leader ∧
    ∀ n e, (firstTermEnd.nodes 1).protocol.log[n]? = some e → e.term = 1 →
      (firstTermEnd.nodes 1).protocol.log.take (n + 1) =
        (firstTermEnd.nodes 0).protocol.log.take (n + 1) := by
  have hterm : (firstTermEnd.nodes 0).protocol.currentTerm = 1 := by decide +kernel
  refine ⟨by decide +kernel,fun n e he ht => ?_⟩
  exact (leader_appends_only trio ⟨0,0⟩ firstTermEnd firstTermEnd
    (Runs.after_reaches .start (by decide +kernel)) .start 0 (by decide +kernel)).2 1 n e he
    (ht.trans hterm.symm)

/-- Lists that agree below `k` and are long enough have the same beginning. -/
theorem take_eq_of_agree {α : Type} {l l' : List α} {k : ℕ} (h : ∀ n < k, l[n]? = l'[n]?) :
    l.take k = l'.take k := by
  refine List.ext_getElem? fun n => ?_
  by_cases hn : n < k
  · rw [List.getElem?_take_of_lt hn,List.getElem?_take_of_lt hn,h n hn]
  · rw [List.getElem?_take_eq_none (Nat.le_of_not_lt hn),
      List.getElem?_take_eq_none (Nat.le_of_not_lt hn)]

/-- Over links that are queues, entries that a node counts as committed stay in its
log and on its disk for ever, and every node that counts as much as committed has
the same entries. -/
theorem committed_stays (M : Membership N) (env : Env) (s s' : Cluster N V)
    (h : Runs.Reaches (Cluster.step M) Fifo (.init M env) s)
    (h' : Runs.Reaches (Cluster.step M) Fifo s s') (i : Fin N) (c : ℕ)
    (hc : (s.nodes i).protocol.commitIndex = some c) :
    c < (s.nodes i).protocol.log.length ∧
    (s'.nodes i).protocol.log.take (c + 1) = (s.nodes i).protocol.log.take (c + 1) ∧
    (s'.nodes i).storage.log.take (c + 1) = (s.nodes i).protocol.log.take (c + 1) ∧
    ∀ j c', (s'.nodes j).protocol.commitIndex = some c' → c ≤ c' →
      (s'.nodes j).protocol.log.take (c + 1) = (s.nodes i).protocol.log.take (c + 1) := by
  obtain ⟨a,_,ha⟩ := (InOrder.init M env).reaches h
  obtain ⟨a',hmoves,ha'⟩ := ha.reaches h'
  have hx := (ha.ok.sound.base.moves hmoves).2
  have hlog : ∀ j, (s'.nodes j).protocol.log = a'.log j := fun j => (ha'.ok.nodes j).tracks.log
  -- what was settled then is settled now, and all settled entries agree
  have hset := (ha.ok.nodes i).tracks.commit trivial c hc
  have hold := hset.mono hx (le_refl _) (List.take_prefix _ _)
  have hagree : ∀ {j k}, Settled LogEntry.term a' (a'.term j) (a'.log j) k → c + 1 ≤ k →
      (a'.log j).take (c + 1) = (a.log i).take (c + 1) := by
    intro j k hk hle
    refine take_eq_of_agree fun n hn => ?_
    exact (ha'.ok.sound.durable trivial).settled_agree ha'.ok.sound.base hk hold (by omega) hn
  have hown := hagree (ha.ok.sound.settled_moves trivial hmoves hset) (le_refl _)
  rw [(ha.ok.nodes i).tracks.log]
  refine ⟨hset.length_le,?_,?_,fun j c' hc' hle => ?_⟩
  · rw [hlog]
    exact hown
  · rw [(ha'.ok.nodes i).synced.holds.log,Adapter.exact_strip,hlog]
    exact hown
  · rw [hlog]
    exact hagree ((ha'.ok.nodes j).tracks.commit trivial c' hc') (by omega)

theorem committed_stays_queued :
    (queuedCommit.nodes 0).protocol.commitIndex = some 0 ∧
    (queuedElection.nodes 0).protocol.log.take 1 = (queuedCommit.nodes 0).protocol.log.take 1 := by
  have hreach : Runs.Reaches (Cluster.step trio) Fifo (.init trio ⟨0,0⟩) queuedCommit :=
    .next (Runs.after_reaches .start (by decide +kernel) : Runs.Reaches _ _ _ queued)
      (by decide +kernel) (Option.some_get _).symm
  exact ⟨by decide +kernel,(committed_stays trio ⟨0,0⟩ queuedCommit queuedElection hreach
    (Runs.after_reaches .start (by decide +kernel)) 0 0 (by decide +kernel)).2.1⟩

end Raft
end Daccord
