import Daccord.RaftElection
import Daccord.RaftCatchUp
import Daccord.RaftCommit
import Daccord.RaftHandouts
import Daccord.RaftPermanence

/-! No state a Raft cluster can reach is a dead end: whatever has happened before,
there is a way on, without crashes, on which a value submitted at any node is decided
by every node. -/
namespace Daccord
namespace Raft

open ReplicatedLog (Grown Settled)

variable {V : Type} {N : ℕ}

namespace RaftProtocol

theorem onTick_of_beat {env : Env} {p : RaftProtocol V} (hr : p.role = .leader)
    (hdue : p.lastHeartbeatSent.getD 0 + p.config.heartbeatInterval ≤ env.now) :
    p.onTick env = p.broadcastHeartbeat env := by
  unfold onTick
  rw [hr]
  cases hb : p.lastHeartbeatSent with
  | none => simp
  | some t =>
    have hlate : p.config.heartbeatInterval ≤ env.now - t := by
      rw [hb,Option.getD_some] at hdue
      omega
    simp [hlate]

/-- Accepted or not, the sender is the leader from now on. -/
theorem handleAppendEntries_follows (env : Env) {p : RaftProtocol V} (hc : Clean p)
    (hrole : p.role ≠ .leader) (leader : NodeId) (prev : Option ℕ) (prevTerm : ℕ)
    (es : List (LogEntry V)) (lc : Option ℕ) :
    let r := p.handleAppendEntries env p.currentTerm leader prev prevTerm es lc
    r.1.role = .follower ∧ r.1.leader = some leader ∧ r.1.currentTerm = p.currentTerm := by
  rcases p.handleAppendEntries_cases env p.currentTerm leader prev prevTerm es lc hc.append
    hc.truncate with ⟨hstale,_⟩ | ⟨_,_,⟨_,_,_,heq⟩ | ⟨_,a,f,hadopt,hadv,heq⟩⟩
  · rcases hstale with hlt | ⟨_,hl⟩
    · exact absurd hlt (lt_irrefl _)
    · exact absurd hl hrole
  · rw [heq]
    exact ⟨rfl,rfl,rfl⟩
  · obtain ⟨_,_,ha⟩ := hadopt.frame
    obtain ⟨_,_,_,_,hf,_⟩ := hadv.frame
    rw [heq,hf,ha]
    exact ⟨rfl,rfl,rfl⟩

/-- A leader all of whose peers have its whole log commits it, when the last entry
is of its term. -/
theorem tryAdvanceCommit_all {p : RaftProtocol V} (hm : p.Matched) {Q : Finset NodeId}
    (hcard : p.quorum ≤ Q.card) {last : ℕ} (hlast : last + 1 = p.log.length)
    (hQ : ∀ id ∈ Q, p.matchIndex.lookup id = some (some last))
    (hterm : ∀ e, p.log[last]? = some e → e.term = p.currentTerm) :
    ∃ c, p.tryAdvanceCommit.commitIndex = some c ∧ last ≤ c := by
  have hpos : 0 < p.quorum := Nat.succ_pos _
  obtain ⟨c,hc,hle⟩ := sorted_of_quorum p.matchIndex hpos hcard fun id hid => ⟨last,hQ id hid,le_refl _⟩
  obtain ⟨Q',hcard',hQ'⟩ := quorum_of_sorted p.matchIndex hpos hc
  obtain ⟨id,hid⟩ := Finset.card_pos.mp (hpos.trans_le hcard')
  obtain ⟨k,hk,hck⟩ := hQ' id hid
  have hkl := hm id k hk
  obtain rfl : c = last := by omega
  have he := List.getElem?_eq_getElem (show c < p.log.length by omega)
  rw [tryAdvanceCommit_commitIndex p hc he,if_pos (hterm _ he)]
  cases p.commitIndex with
  | none => exact ⟨c,rfl,le_refl _⟩
  | some old => exact ⟨max old c,rfl,le_max_right _ _⟩

end RaftProtocol

section
variable {M : Membership N} {i : Fin N} {v : V} {t t' : Timed N V} {c d j : Fin N}

theorem Timed.Grounded.matched (h : t.Grounded M) (hr : (t.memory c).role = .leader) :
    (t.memory c).Matched := by
  obtain ⟨env,hreach⟩ := h
  exact (Cluster.matched_reaches hreach c).2 hr

theorem Timed.Grounded.grown (h : t.Grounded M) :
    ∃ book, ∀ j, Grown LogEntry.term book (t.memory j).log := by
  obtain ⟨a,ha⟩ := h.inOrder
  refine ⟨a.book,fun j => ?_⟩
  have hlog : (t.memory j).log = a.log j := (ha.ok.nodes j).tracks.log
  rw [hlog]
  exact ha.ok.sound.base.log_grown j

theorem Leads.follower (h : Leads t c) (hm : Moved M i v t t' d) (hd : d ≠ c)
    (hrole : (t'.memory d).role = .follower)
    (hterm : (t'.memory d).currentTerm = (t.memory d).currentTerm) : Leads t' c := by
  have hc := hm.memory hd.symm
  refine ⟨hm.idle_all h.idle,hc ▸ h.role,hc ▸ h.lost,fun e he => ?_⟩
  rw [hc]
  by_cases hed : e = d
  · rw [hed]
    exact ⟨hterm.trans (h.others d hd).1,hrole⟩
  · rw [hm.memory hed]
    exact h.others e he

theorem Leads.leader (h : Leads t c) (hm : Moved M i v t t' c)
    (hrole : (t'.memory c).role = .leader) (hlost : (t'.memory c).lostProposals = [])
    (hterm : (t'.memory c).currentTerm = (t.memory c).currentTerm) : Leads t' c := by
  refine ⟨hm.idle_all h.idle,hrole,hlost,fun e he => ?_⟩
  rw [hm.memory he,hterm]
  exact h.others e he

/-- An `AppendEntries` of leader `c` is on its way to `d`, with what follows `prev` in
the leader's log. -/
def Offered (M : Membership N) (t : Timed N V) (c d : Fin N) (prev lc : Option ℕ) : Prop :=
  ∃ prevTerm, ⟨c,d,.appendEntries (t.memory c).currentTerm (M.ids c) prev prevTerm
      ((t.memory c).log.drop (RaftProtocol.startAt prev)) lc⟩ ∈ t.cluster.flight ∧
    ∀ n, prev = some n → n < (t.memory c).log.length ∧
      prevTerm = RaftProtocol.termAt (t.memory c).log n

/-- What the leader remembers of its peers and of the log. -/
structure SameLead (p q : RaftProtocol V) : Prop where
  term : q.currentTerm = p.currentTerm
  log : q.log = p.log
  matched : q.matchIndex = p.matchIndex
  commit : q.commitIndex = p.commitIndex

theorem Leads.beat (h : Leads t c) (hg : t.Grounded M) :
    ∃ t', Moved M i v t t' c ∧ Leads t' c ∧ SameLead (t.memory c) (t'.memory c) ∧
      (t'.memory c).pendingDecisions = [] ∧
      ∀ d, d ≠ c → Offered M t' c d (t.memory c).lastLogIndex (t.memory c).commitIndex := by
  have hdue := Nat.le_max_right t.clock
    ((t.memory c).lastHeartbeatSent.getD 0 + (t.memory c).config.heartbeatInterval)
  obtain ⟨t',hmoved,hmem,hflight⟩ := t.tick (M := M) (i := i) (v := v) (h.idle c)
    (Nat.le_max_left t.clock
      ((t.memory c).lastHeartbeatSent.getD 0 + (t.memory c).config.heartbeatInterval))
  rw [RaftProtocol.onTick_of_beat h.role hdue] at hmem hflight
  have hsame : SameLead (t.memory c) (t'.memory c) := by
    rw [hmem]
    exact ⟨rfl,rfl,rfl,rfl⟩
  have hrole : (t'.memory c).role = .leader := by
    rw [hmem]
    exact h.role
  have hlost : (t'.memory c).lostProposals = [] := by
    rw [hmem]
    exact h.lost
  refine ⟨t',hmoved,h.leader hmoved hrole hlost hsame.term,hsame,by rw [hmem]; rfl,fun d hd => ?_⟩
  refine ⟨(t.memory c).lastLogTerm,?_,fun n hn => ?_⟩
  · have hdrop : (t.memory c).log.drop (RaftProtocol.startAt (t.memory c).lastLogIndex) = [] := by
      rw [RaftProtocol.lastLogIndex,RaftProtocol.startAt_lastIndexOf,List.drop_length]
    rw [hsame.term,hsame.log,hdrop,hflight,← hg.ident c]
    refine List.mem_append_right _ (List.mem_flatMap.mpr ⟨_,List.mem_singleton.mpr rfl,?_⟩)
    exact mem_route_broadcast hd _
  · rw [RaftProtocol.lastLogIndex,RaftProtocol.lastIndexOf_eq] at hn
    split at hn
    · cases hn
    · cases hn
      rw [hsame.log]
      exact ⟨by omega,lastLogTerm_eq _⟩

theorem Leads.answer (h : Leads t c) (hg : t.Grounded M) (hd : d ≠ c) {prev lc : Option ℕ}
    (hoff : Offered M t c d prev lc) :
    ∃ t', Moved M i v t t' d ∧ Leads t' c ∧ (t'.memory d).leader = some (M.ids c) ∧
      (t'.memory d).pendingDecisions = [] ∧
      ((t.memory c).log ≠ [] → Ready (t.memory c).log (t.memory d).log prev →
        (t'.memory d).log = (t.memory c).log ∧
        ⟨d,c,.appendEntriesResponse (t.memory c).currentTerm true
          (some ((t.memory c).log.length - 1)) none none⟩ ∈ t'.cluster.flight ∧
        ∀ k, lc = some k → (t.memory c).log.length - 1 ≤ k →
          ∃ k', (t'.memory d).commitIndex = some k' ∧ (t.memory c).log.length - 1 ≤ k') ∧
      (¬ Ready (t.memory c).log (t.memory d).log prev →
        (t'.memory d).log = (t.memory d).log ∧
        ⟨d,c,.appendEntriesResponse (t.memory c).currentTerm false none
          (RaftProtocol.conflictHint (t.memory d).log prev).1
          (RaftProtocol.conflictHint (t.memory d).log prev).2⟩ ∈ t'.cluster.flight) := by
  obtain ⟨prevTerm,hpkt,hprev⟩ := hoff
  obtain ⟨hterm,hrole⟩ := h.others d hd
  obtain ⟨book,hbook⟩ := hg.grown
  obtain ⟨t',hmoved,hsettles,_,hsent,_⟩ := t.receive (M := M) (i := i) (v := v) hpkt (h.idle d)
  set T := (t.memory c).currentTerm with hT
  set ll := (t.memory c).log with hll
  have hfol : (t.memory d).role ≠ .leader := by
    rw [hrole]
    decide
  have hhandle : (t.memory d).handleMessage ⟨t.clock,0⟩ (M.ids c) (.appendEntries T (M.ids c) prev
      prevTerm (ll.drop (RaftProtocol.startAt prev)) lc) =
      (t.memory d).handleAppendEntries ⟨t.clock,0⟩ T (M.ids c) prev prevTerm
        (ll.drop (RaftProtocol.startAt prev)) lc := by
    rw [RaftProtocol.handleMessage,RaftProtocol.bumpTerm_same]
    · rfl
    · rw [hterm]
      rfl
  simp only [hhandle] at hsettles hsent
  have hiff : Ready ll (t.memory d).log prev ↔
      RaftProtocol.Follows (t.memory d).log prev prevTerm := by
    refine ⟨fun hr n hn => ?_,fun hf n hn => ?_⟩
    · rw [(hprev n hn).2]
      exact hr n hn n rfl
    · rw [← (hprev n hn).2,← hn]
      exact hf
  obtain ⟨hrole1,hleader1,hterm1⟩ := RaftProtocol.handleAppendEntries_follows ⟨t.clock,0⟩ (hg.clean d)
    hfol (M.ids c) prev prevTerm (ll.drop (RaftProtocol.startAt prev)) lc
  rw [hterm] at hrole1 hleader1 hterm1
  have hquiet := hsettles.quiet (by rw [hrole1]; decide)
  refine ⟨t',hmoved,h.follower hmoved hd (hsettles.role.trans hrole1)
    (hsettles.term.trans (hterm1.trans hterm.symm)),hsettles.leader.trans hleader1,
    hsettles.decisions,fun hne hready => ?_,fun hnot => ?_⟩
  · obtain ⟨hlog,hcommit,forwards,hreply⟩ := (t.memory d).handleAppendEntries_accepted ⟨t.clock,0⟩
      (M.ids c) (ll.drop (RaftProtocol.startAt prev)) lc hterm hfol (hiff.mp hready)
    have hpos : 0 < ll.length := List.length_pos_iff.mpr hne
    have hlen : RaftProtocol.startAt prev + (ll.drop (RaftProtocol.startAt prev)).length =
        ll.length := by
      have hstart : RaftProtocol.startAt prev ≤ ll.length := by
        cases prev with
        | none => exact Nat.zero_le _
        | some n => exact (hprev n rfl).1
      rw [List.length_drop]
      omega
    have hverified : RaftProtocol.verifiedIndex prev (ll.drop (RaftProtocol.startAt prev)).length =
        some (ll.length - 1) := by
      rw [RaftProtocol.verifiedIndex_eq,hlen,if_neg hpos.ne']
    have hsome : RaftProtocol.startAt prev + (ll.drop (RaftProtocol.startAt prev)).length ≠ 0 := by
      omega
    rw [RaftProtocol.spliced_log _ _ _ (hiff.mp hready) (grown_agrees (hbook c) (hbook d) _) hsome,
      hready.take_eq (hbook c) (hbook d) fun n hn => (hprev n hn).1,List.take_append_drop] at hlog
    rw [hverified,RaftProtocol.followCommit_commitIndex] at hcommit
    rw [hverified] at hreply
    refine ⟨hquiet.1.trans hlog,hsent _ ?_ _ (mem_route_peer hd.symm _),fun k hk hle => ?_⟩
    · rw [hreply]
      exact List.mem_cons_self
    · rw [hquiet.2.2,hcommit,hk]
      have hmin : min k (ll.length - 1) = ll.length - 1 := Nat.min_eq_right hle
      cases ((t.memory d).spliced ⟨t.clock,0⟩ (M.ids c) prev
          (ll.drop (RaftProtocol.startAt prev))).commitIndex with
      | none => exact ⟨_,rfl,hmin.ge⟩
      | some old => exact ⟨_,rfl,hmin.ge.trans (le_max_right _ _)⟩
  · have hreply := (t.memory d).handleAppendEntries_rejected ⟨t.clock,0⟩ (M.ids c)
      (ll.drop (RaftProtocol.startAt prev)) lc hterm hfol fun hf => hnot (hiff.mpr hf)
    refine ⟨hquiet.1.trans ?_,hsent _ ?_ _ (mem_route_peer hd.symm _)⟩
    · rw [hreply]
      rfl
    · rw [hreply]
      exact List.mem_singleton.mpr rfl

theorem Leads.heed (h : Leads t c) {success : Bool} {mi ct ci : Option ℕ}
    (hpkt : ⟨d,c,.appendEntriesResponse (t.memory c).currentTerm success mi ct ci⟩ ∈
      t.cluster.flight) {q : RaftProtocol V} {outs : List (Outgoing (RaftMessage V))}
    (hq : (t.memory c).handleAppendEntriesResponse (M.ids d) (t.memory c).currentTerm success mi ct
      ci = (q,outs)) (hrole : q.role = .leader) (hterm : q.currentTerm = (t.memory c).currentTerm)
    (hlost : q.lostProposals = []) :
    ∃ t', Moved M i v t t' c ∧ Leads t' c ∧ t'.memory c = q.rested [] ∧
      ∀ out ∈ outs, ∀ x ∈ M.route c out, x ∈ t'.cluster.flight := by
  obtain ⟨t',hmoved,_,hexact,hsent,_⟩ := t.receive (M := M) (i := i) (v := v) hpkt (h.idle c)
  have hhandle : (t.memory c).handleMessage ⟨t.clock,0⟩ (M.ids d)
      (.appendEntriesResponse (t.memory c).currentTerm success mi ct ci) = (q,outs) := by
    rw [RaftProtocol.handleMessage,RaftProtocol.bumpTerm_same _ _ _ rfl]
    exact hq
  simp only [hhandle] at hexact hsent
  have hmem : t'.memory c = q.rested [] := hexact hlost
  refine ⟨t',hmoved,h.leader hmoved ?_ ?_ ?_,hmem,hsent⟩
  · rw [hmem]
    exact hrole
  · rw [hmem]
    rfl
  · rw [hmem]
    exact hterm

/-- A refusal is followed by an offer that builds on an earlier entry. -/
theorem Leads.refused (h : Leads t c) (hg : t.Grounded M) (hd : d ≠ c) {n : ℕ}
    (hnot : ¬ RaftProtocol.Follows (t.memory d).log (some n)
      (RaftProtocol.termAt (t.memory c).log n))
    (hpkt : ⟨d,c,.appendEntriesResponse (t.memory c).currentTerm false none
      (RaftProtocol.conflictHint (t.memory d).log (some n)).1
      (RaftProtocol.conflictHint (t.memory d).log (some n)).2⟩ ∈ t.cluster.flight) :
    ∃ t', Moved M i v t t' c ∧ Leads t' c ∧ SameLead (t.memory c) (t'.memory c) ∧
      ∃ prev lc, Offered M t' c d prev lc ∧ RaftProtocol.startAt prev ≤ n := by
  obtain ⟨book,hbook⟩ := hg.grown
  have hoffers : Exchange.Offers ⟨t.memory c,t.memory d,.appendEntries (t.memory c).currentTerm
      (M.ids c) none 0 (t.memory c).log none⟩ (M.ids c) (t.memory c).currentTerm (t.memory c).log
      (t.memory d).log none := by
    obtain ⟨hterm,hrole⟩ := h.others d hd
    exact {
      role := h.role
      term := rfl
      ident := hg.ident c
      log := rfl
      behind := hterm.le
      follows := by simp [hrole]
      held := rfl
      message := ⟨0,none,rfl,by simp⟩ }
  obtain ⟨next,prev,prevTerm,lc,hreply,hprev⟩ := hoffers.rewinds (f := M.ids d)
    (RaftProtocol.rewindIndex_le_refused (hbook c) (hbook d) (M.ids d) hnot)
  obtain ⟨t',hmoved,hleads,hmem,hsent⟩ := h.heed (i := i) (v := v) hpkt hreply h.role rfl h.lost
  have hsame : SameLead (t.memory c) (t'.memory c) := by
    rw [hmem]
    exact ⟨rfl,rfl,rfl,rfl⟩
  refine ⟨t',hmoved,hleads,hsame,prev,lc,⟨prevTerm,?_,fun k hk => ?_⟩,?_⟩
  · rw [hsame.term,hsame.log]
    exact hsent _ (List.mem_singleton.mpr rfl) _ (mem_route_peer hd _)
  · rw [hsame.log]
    exact (hprev k hk).2
  · cases prev with
    | none => exact Nat.zero_le _
    | some k => exact (hprev k rfl).1

structure InSync (M : Membership N) (t : Timed N V) (c d : Fin N) : Prop where
  log : (t.memory d).log = (t.memory c).log
  known : (t.memory c).matchIndex.lookup (M.ids d) = some (some ((t.memory c).log.length - 1))

def Fresh (p : RaftProtocol V) : Prop :=
  ∃ log v, p.log = log ++ [⟨p.currentTerm,v⟩]

def Concluded (p : RaftProtocol V) : Prop :=
  ∃ k, p.commitIndex = some k ∧ p.log.length - 1 ≤ k

/-- When all nodes are known to have it, the leader commits its log. -/
theorem concluded_of_known (M : Membership N) {p : RaftProtocol V} (hm : p.Matched)
    (hq : p.quorum ≤ N) (hfresh : Fresh p)
    (hknown : ∀ e, p.matchIndex.lookup (M.ids e) = some (some (p.log.length - 1))) :
    ∃ k, p.tryAdvanceCommit.commitIndex = some k ∧ p.log.length - 1 ≤ k := by
  obtain ⟨log,v,hlog⟩ := hfresh
  have hlen : p.log.length = log.length + 1 := by rw [hlog,List.length_append,List.length_singleton]
  refine RaftProtocol.tryAdvanceCommit_all hm (Q := Finset.univ.image M.ids) ?_ (by omega)
    (fun id hid => ?_) fun e he => ?_
  · rw [Finset.card_image_of_injective _ M.distinct,Finset.card_univ,Fintype.card_fin]
    exact hq
  · obtain ⟨e,_,rfl⟩ := Finset.mem_image.mp hid
    exact hknown e
  · have hlast : p.log.length - 1 = log.length := by omega
    rw [hlast,hlog,List.getElem?_concat_length] at he
    rw [← Option.some.inj he]

theorem Leads.counted (h : Leads t c) (hg : t.Grounded M) (hfresh : Fresh (t.memory c))
    (hlog : (t.memory d).log = (t.memory c).log) (hd : d ≠ c)
    (hpkt : ⟨d,c,.appendEntriesResponse (t.memory c).currentTerm true
      (some ((t.memory c).log.length - 1)) none none⟩ ∈ t.cluster.flight) :
    ∃ t', Moved M i v t t' c ∧ Leads t' c ∧ (t'.memory c).log = (t.memory c).log ∧
      (t'.memory c).currentTerm = (t.memory c).currentTerm ∧ InSync M t' c d ∧
      (∀ e, e ≠ c → InSync M t c e → InSync M t' c e) ∧
      ((t.memory c).matchIndex.lookup (M.ids c) = some (some ((t.memory c).log.length - 1)) →
        (t'.memory c).matchIndex.lookup (M.ids c) = some (some ((t.memory c).log.length - 1)) ∧
        ((∀ e, e ≠ c → InSync M t' c e) → Concluded (t'.memory c))) := by
  obtain ⟨log,w,hlast⟩ := hfresh
  have hlen : (t.memory c).log.length = log.length + 1 := by
    rw [hlast,List.length_append,List.length_singleton]
  set p : RaftProtocol V := { t.memory c with
    matchIndex := (t.memory c).matchIndex.insert (M.ids d) (some ((t.memory c).log.length - 1))
    nextIndex := (t.memory c).nextIndex.insert (M.ids d) ((t.memory c).log.length - 1 + 1) } with hp
  have hreply : (t.memory c).handleAppendEntriesResponse (M.ids d) (t.memory c).currentTerm true
      (some ((t.memory c).log.length - 1)) none none = (p.tryAdvanceCommit,[]) := by
    have hlead : ¬ ((t.memory c).role ≠ .leader ∨
        (t.memory c).currentTerm ≠ (t.memory c).currentTerm) := by
      simp [h.role]
    have hbound : ¬ ((t.memory c).log.length = 0 ∨
        (t.memory c).log.length ≤ (t.memory c).log.length - 1) := by omega
    rw [RaftProtocol.handleAppendEntriesResponse,if_neg hlead]
    simp only [if_true,if_neg hbound]
    rfl
  obtain ⟨ci,ds,la,b,hadv,-⟩ := p.tryAdvanceCommit_advanced.frame
  obtain ⟨t',hmoved,hleads,hmem,_⟩ := h.heed (i := i) (v := v) hpkt hreply
    (by rw [hadv]; exact h.role) (by rw [hadv]) (by rw [hadv]; exact h.lost)
  have hlog' : (t'.memory c).log = (t.memory c).log := by
    rw [hmem,hadv]
    rfl
  have hterm' : (t'.memory c).currentTerm = (t.memory c).currentTerm := by
    rw [hmem,hadv]
    rfl
  have hmatch' : (t'.memory c).matchIndex = p.matchIndex := by
    rw [hmem,hadv]
    rfl
  have hkeep : ∀ e, (t.memory c).matchIndex.lookup (M.ids e) =
      some (some ((t.memory c).log.length - 1)) → (t'.memory c).matchIndex.lookup (M.ids e) =
      some (some ((t.memory c).log.length - 1)) := by
    intro e he
    rw [hmatch']
    by_cases hed : e = d
    · rw [hed]
      exact AList.lookup_insert _
    · exact (AList.lookup_insert_ne (M.distinct.ne hed)).trans he
  refine ⟨t',hmoved,hleads,hlog',hterm',⟨?_,?_⟩,fun e he hsync => ⟨?_,?_⟩,fun hown => ⟨hkeep c hown,
    fun hall => ?_⟩⟩
  · rw [hmoved.memory hd,hlog',hlog]
  · rw [hmatch',hlog']
    exact AList.lookup_insert _
  · rw [hmoved.memory he,hlog',hsync.log]
  · rw [hlog']
    exact hkeep e hsync.known
  · have hin : (t.memory c).log.length - 1 < (t.memory c).log.length := by omega
    have hmatched : p.Matched := RaftProtocol.lookup_insert_lt (hg.matched h.role) hin
    have hquorum : p.quorum ≤ N := by
      have := hg.quorum c
      have hN : 0 < N := Nat.zero_lt_of_lt c.isLt
      change (t.memory c).quorum ≤ N
      omega
    obtain ⟨k,hk,hle⟩ := concluded_of_known M hmatched hquorum ⟨log,w,hlast⟩ fun e => by
      by_cases hec : e = c
      · rw [hec,← hmatch']
        exact hkeep c hown
      · rw [← hmatch']
        exact hlog' ▸ (hall e hec).known
    refine ⟨k,?_,?_⟩
    · rw [hmem]
      exact hk
    · rw [hlog']
      exact hle

/-- A leader that still has to bring its log to the others. -/
structure Spreads (M : Membership N) (t : Timed N V) (c : Fin N) : Prop where
  leads : Leads t c
  grounded : t.Grounded M
  fresh : Fresh (t.memory c)
  own : (t.memory c).matchIndex.lookup (M.ids c) = some (some ((t.memory c).log.length - 1))

theorem Fresh.ne_nil {p : RaftProtocol V} (h : Fresh p) : p.log ≠ [] := by
  obtain ⟨_,_,heq⟩ := h
  rw [heq]
  exact List.concat_ne_nil _ _

theorem Fresh.same {p q : RaftProtocol V} (h : Fresh p) (hlog : q.log = p.log)
    (hterm : q.currentTerm = p.currentTerm) : Fresh q := by
  obtain ⟨log,v,heq⟩ := h
  exact ⟨log,v,by rw [hlog,hterm,heq]⟩

theorem Spreads.same (h : Spreads M t c) (hrun : Calmly M i v t t') (hleads : Leads t' c)
    (hsame : SameLead (t.memory c) (t'.memory c)) : Spreads M t' c := by
  refine ⟨hleads,h.grounded.calmly hrun,h.fresh.same hsame.log hsame.term,?_⟩
  rw [hsame.log,hsame.matched]
  exact h.own

theorem InSync.same {e : Fin N} (h : InSync M t c e) (hsame : SameLead (t.memory c) (t'.memory c))
    (he : (t'.memory e).log = (t.memory e).log) : InSync M t' c e :=
  ⟨by rw [he,hsame.log,h.log],by rw [hsame.matched,hsame.log,h.known]⟩

theorem SameLead.of_eq {p q : RaftProtocol V} (h : q = p) : SameLead p q :=
  h ▸ ⟨rfl,rfl,rfl,rfl⟩

/-- An offer under way ends with a follower in sync: each refusal moves the next
offer to an earlier entry. -/
theorem Spreads.exchange (h : Spreads M t c) (hd : d ≠ c) {prev lc : Option ℕ}
    (hoff : Offered M t c d prev lc) :
    ∃ t', Calmly M i v t t' ∧ Spreads M t' c ∧ (t'.memory c).log = (t.memory c).log ∧
      InSync M t' c d ∧ (∀ e, e ≠ c → InSync M t c e → InSync M t' c e) ∧
      ((∀ e, e ≠ c → InSync M t' c e) → Concluded (t'.memory c)) := by
  generalize hn : RaftProtocol.startAt prev = n
  induction n using Nat.strong_induction_on generalizing t prev lc with
  | h n ih =>
    obtain ⟨t1,hm1,hleads1,_,_,haccept,hrefuse⟩ := h.leads.answer (i := i) (v := v) h.grounded hd hoff
    have hg1 := h.grounded.calmly hm1.run
    have hlead1 : t1.memory c = t.memory c := hm1.memory hd.symm
    have h1 : Spreads M t1 c := h.same hm1.run hleads1 (.of_eq hlead1)
    -- a node in sync stays so: when `d` accepts it has the leader's log
    have hkeep : ∀ e, e ≠ c → InSync M t c e → InSync M t1 c e := by
      intro e _ hsync
      refine hsync.same (.of_eq hlead1) ?_
      by_cases hed : e = d
      · subst hed
        by_cases hready : Ready (t.memory c).log (t.memory e).log prev
        · rw [(haccept h.fresh.ne_nil hready).1,hsync.log]
        · exact (hrefuse hready).1
      · rw [hm1.memory hed]
    by_cases hready : Ready (t.memory c).log (t.memory d).log prev
    · obtain ⟨hlog,hpkt,_⟩ := haccept h.fresh.ne_nil hready
      rw [← hlead1] at hlog hpkt
      obtain ⟨t2,hm2,hleads2,hlog2,hterm2,hsync,hothers,hcommit⟩ := hleads1.counted (i := i) (v := v)
        hg1 h1.fresh hlog hd hpkt
      obtain ⟨hown,hconclude⟩ := hcommit h1.own
      refine ⟨t2,hm1.run.trans hm2.run,⟨hleads2,hg1.calmly hm2.run,h1.fresh.same hlog2 hterm2,?_⟩,
        hlog2.trans (congrArg _ hlead1),hsync,fun e he hs => hothers e he (hkeep e he hs),hconclude⟩
      rw [hlog2]
      exact hown
    · obtain ⟨hlog,hpkt⟩ := hrefuse hready
      rw [← hlead1,← hlog] at hpkt
      obtain ⟨k,rfl,hnot⟩ : ∃ k, prev = some k ∧ ¬ RaftProtocol.Follows (t.memory d).log (some k)
          (RaftProtocol.termAt (t.memory c).log k) := by
        unfold Ready at hready
        push Not at hready
        exact hready
      rw [← hlead1,← hlog] at hnot
      obtain ⟨t2,hm2,hleads2,hsame2,prev2,lc2,hoff2,hlt⟩ := hleads1.refused (i := i) (v := v) hg1 hd
        hnot hpkt
      have hk : k + 1 = n := hn
      obtain ⟨t3,hrun3,h3,hlog3,hsync3,hothers3,hconclude3⟩ := ih (RaftProtocol.startAt prev2)
        (by omega) (h1.same hm2.run hleads2 hsame2) hoff2 rfl
      refine ⟨t3,(hm1.run.trans hm2.run).trans hrun3,h3,?_,hsync3,fun e he hs => ?_,hconclude3⟩
      · rw [hlog3,hsame2.log,hlead1]
      · exact hothers3 e he ((hkeep e he hs).same hsame2 (by rw [hm2.memory he]))

theorem Spreads.sync (h : Spreads M t c) (hd : d ≠ c) :
    ∃ t', Calmly M i v t t' ∧ Spreads M t' c ∧ (t'.memory c).log = (t.memory c).log ∧
      InSync M t' c d ∧ (∀ e, e ≠ c → InSync M t c e → InSync M t' c e) ∧
      ((∀ e, e ≠ c → InSync M t' c e) → Concluded (t'.memory c)) := by
  obtain ⟨t1,hm1,hleads1,hsame1,_,hoff⟩ := h.leads.beat (i := i) (v := v) h.grounded
  obtain ⟨t2,hrun2,h2,hlog2,hsync2,hothers2,hconclude⟩ := (h.same hm1.run hleads1 hsame1).exchange
    (i := i) (v := v) hd (hoff d hd)
  refine ⟨t2,hm1.run.trans hrun2,h2,hlog2.trans hsame1.log,hsync2,fun e he hs => ?_,hconclude⟩
  exact hothers2 e he (hs.same hsame1 (by rw [hm1.memory he]))

theorem Spreads.sync_all (h : Spreads M t c) (ds : List (Fin N)) (hds : c ∉ ds) :
    ∃ t', Calmly M i v t t' ∧ Spreads M t' c ∧ (t'.memory c).log = (t.memory c).log ∧
      ∀ d ∈ ds, InSync M t' c d := by
  induction ds with
  | nil => exact ⟨t,.start,h,rfl,List.forall_mem_nil _⟩
  | cons d ds ih =>
    obtain ⟨t1,hrun1,h1,hlog1,hsync1⟩ := ih fun hc => hds (List.mem_cons_of_mem d hc)
    obtain ⟨t2,hrun2,h2,hlog2,hsync2,hothers2,_⟩ := h1.sync (i := i) (v := v)
      fun hdc : d = c => hds (hdc ▸ List.mem_cons_self)
    refine ⟨t2,hrun1.trans hrun2,h2,hlog2.trans hlog1,fun e he => ?_⟩
    rcases List.mem_cons.mp he with rfl | he'
    · exact hsync2
    · exact hothers2 e (fun hec => hds (hec ▸ he)) (hsync1 e he')

/-- All nodes have the leader's log, and the leader counts it as committed. -/
theorem Spreads.conclude (h : Spreads M t c) (hN : 1 < N) :
    ∃ t', Calmly M i v t t' ∧ Spreads M t' c ∧ (t'.memory c).log = (t.memory c).log ∧
      (∀ d, d ≠ c → (t'.memory d).log = (t'.memory c).log) ∧ Concluded (t'.memory c) := by
  obtain ⟨t1,hrun1,h1,hlog1,hsync1⟩ := h.sync_all (i := i) (v := v)
    ((List.finRange N).filter (· ≠ c)) (by simp)
  -- one more round, now that all nodes are in sync
  have : Nontrivial (Fin N) := Fin.nontrivial_iff_two_le.mpr hN
  obtain ⟨d,hd⟩ := exists_ne c
  obtain ⟨t2,hrun2,h2,hlog2,_,hothers2,hconclude⟩ := h1.sync (i := i) (v := v) hd
  have hall : ∀ e, e ≠ c → InSync M t2 c e := fun e he => hothers2 e he (hsync1 e (by simp [he]))
  exact ⟨t2,hrun1.trans hrun2,h2,hlog2.trans hlog1,fun e he => (hall e he).log,hconclude hall⟩

structure Told (t : Timed N V) (c d : Fin N) : Prop where
  log : (t.memory d).log = (t.memory c).log
  concluded : Concluded (t.memory d)
  drained : (t.memory d).pendingDecisions = []

/-- A heartbeat tells followers that have the leader's log that it is committed. -/
theorem Spreads.tell_all (h : Spreads M t c) (hcommit : Concluded (t.memory c))
    (hlogs : ∀ d, d ≠ c → (t.memory d).log = (t.memory c).log) (ds : List (Fin N)) (hds : c ∉ ds) :
    ∃ t', Calmly M i v t t' ∧ Spreads M t' c ∧ SameLead (t.memory c) (t'.memory c) ∧
      (∀ d, d ≠ c → (t'.memory d).log = (t'.memory c).log) ∧ ∀ d ∈ ds, Told t' c d := by
  induction ds with
  | nil => exact ⟨t,.start,h,.of_eq rfl,hlogs,List.forall_mem_nil _⟩
  | cons d ds ih =>
    obtain ⟨t1,hrun1,h1,hsame1,hlogs1,htold1⟩ := ih fun hc => hds (List.mem_cons_of_mem d hc)
    have hdc : d ≠ c := fun hdc => hds (hdc ▸ List.mem_cons_self)
    obtain ⟨t2,hm2,hleads2,hsame2,_,hoff⟩ := h1.leads.beat (i := i) (v := v) h1.grounded
    have h2 := h1.same hm2.run hleads2 hsame2
    have hd2 : (t2.memory d).log = (t2.memory c).log := by rw [hm2.memory hdc,hlogs1 d hdc,hsame2.log]
    obtain ⟨t3,hm3,hleads3,_,hdrained,haccept,_⟩ := hleads2.answer (i := i) (v := v) h2.grounded hdc (hoff d hdc)
    have hlead3 : t3.memory c = t2.memory c := hm3.memory hdc.symm
    have hready : Ready (t2.memory c).log (t2.memory d).log (t1.memory c).lastLogIndex := by
      intro n hn k hk
      cases hk
      rw [RaftProtocol.lastLogIndex,RaftProtocol.lastIndexOf_eq] at hn
      split at hn
      · cases hn
      · cases hn
        rw [hd2,hsame2.log]
        have hlast := List.getElem?_eq_getElem
          (show (t1.memory c).log.length - 1 < (t1.memory c).log.length by omega)
        exact ⟨_,hlast,(RaftProtocol.termAt_of_getElem? hlast).symm⟩
    obtain ⟨hlog3,_,hcommit3⟩ := haccept h2.fresh.ne_nil hready
    obtain ⟨k,hk,hle⟩ := hcommit
    have hlead1 : (t2.memory c).log = (t.memory c).log := hsame2.log.trans hsame1.log
    obtain ⟨k',hk',hle'⟩ := hcommit3 k (hsame1.commit.trans hk) (by rw [hlead1]; exact hle)
    have hsame3 : SameLead (t2.memory c) (t3.memory c) := .of_eq hlead3
    have htold : Told t3 c d := ⟨by rw [hlog3,hlead3],⟨k',hk',by rw [hlog3]; exact hle'⟩,hdrained⟩
    refine ⟨t3,(hrun1.trans hm2.run).trans hm3.run,h2.same hm3.run hleads3 hsame3,?_,fun e he => ?_,
      fun e he => ?_⟩
    · exact ⟨hsame3.term.trans (hsame2.term.trans hsame1.term),
        hsame3.log.trans (hsame2.log.trans hsame1.log),
        hsame3.matched.trans (hsame2.matched.trans hsame1.matched),
        hsame3.commit.trans (hsame2.commit.trans hsame1.commit)⟩
    · by_cases hed : e = d
      · rw [hed]
        exact htold.log
      · rw [hm3.memory hed,hm2.memory he,hlogs1 e he,hsame3.log,hsame2.log]
    · by_cases hed : e = d
      · rw [hed]
        exact htold
      · have hec : e ≠ c := fun hec => hds (hec ▸ he)
        have hold := htold1 e ((List.mem_cons.mp he).resolve_left hed)
        have hsame : t3.memory e = t1.memory e := (hm3.memory hed).trans (hm2.memory hec)
        refine ⟨?_,hsame ▸ hold.concluded,hsame ▸ hold.drained⟩
        rw [hsame,hold.log,hsame3.log,hsame2.log]

theorem RaftProtocol.propose_facts (env : Env) {p : RaftProtocol V} (hr : p.role = .leader)
    (hp : p.pendingPersistLogFrom = none) (v : V) :
    let q := (p.propose env v).1
    q.role = .leader ∧ q.currentTerm = p.currentTerm ∧ q.log = p.log ++ [⟨p.currentTerm,v⟩] ∧
      q.matchIndex = p.matchIndex.insert p.nodeId (some p.log.length) ∧
      q.lostProposals = p.lostProposals ∧
      q.commitIndex = (p.appendOwn [⟨p.currentTerm,v⟩]).tryAdvanceCommit.commitIndex := by
  rw [p.propose_of_leader env v hr hp,RaftProtocol.broadcastWithEntries]
  obtain ⟨_,_,_,_,heq,_⟩ := (p.appendOwn [⟨p.currentTerm,v⟩]).tryAdvanceCommit_advanced.frame
  refine ⟨?_,?_,?_,?_,?_,rfl⟩
  all_goals rw [heq]
  · exact hr
  · rfl
  · rfl
  · rfl
  · rfl

theorem Leads.appended (h : Leads t c) (hg : t.Grounded M) (hm : Moved M i v t t' c) {env : Env}
    (hmem : t'.memory c = ((t.memory c).propose env v).1.rested []) :
    Spreads M t' c ∧ (t'.memory c).log = (t.memory c).log ++ [⟨(t.memory c).currentTerm,v⟩] := by
  obtain ⟨hrole,hterm,hlog,hmatch,_⟩ := RaftProtocol.propose_facts env h.role (hg.clean c).append v
  have hlog' : (t'.memory c).log = (t.memory c).log ++ [⟨(t.memory c).currentTerm,v⟩] := by
    rw [hmem]
    exact hlog
  have hterm' : (t'.memory c).currentTerm = (t.memory c).currentTerm := by
    rw [hmem]
    exact hterm
  refine ⟨⟨h.leader hm ?_ ?_ hterm',hg.calmly hm.run,⟨_,v,by rw [hlog',hterm']⟩,?_⟩,hlog'⟩
  · rw [hmem]
    exact hrole
  · rw [hmem]
    rfl
  · have hmatch' : (t'.memory c).matchIndex = (t.memory c).matchIndex.insert (M.ids c)
        (some (t.memory c).log.length) := by
      rw [hmem,← hg.ident c]
      exact hmatch
    rw [hmatch',hlog',List.length_append,List.length_singleton,Nat.add_sub_cancel]
    exact AList.lookup_insert _

/-- A value submitted at any node comes to be the last entry of the leader's log. -/
theorem Leads.place (h : Leads t c) (hg : t.Grounded M) :
    ∃ t', Calmly M i v t t' ∧ Spreads M t' c ∧
      (t'.memory c).log = (t.memory c).log ++ [⟨(t.memory c).currentTerm,v⟩] := by
  by_cases hic : i = c
  · subst hic
    obtain ⟨t',hm,hmem,_⟩ := t.submit (M := M) (v := v) (h.idle i)
    have hlost : ((t.memory i).propose ⟨t.clock,0⟩ v).1.lostProposals = [] := by
      rw [(RaftProtocol.propose_facts ⟨t.clock,0⟩ h.role (hg.clean i).append v).2.2.2.2.1]
      exact h.lost
    rw [hlost] at hmem
    obtain ⟨hspreads,hlog⟩ := h.appended hg hm hmem
    exact ⟨t',hm.run,hspreads,hlog⟩
  · -- the leader makes itself known, then node `i` forwards the value
    obtain ⟨t1,hm1,hleads1,hsame1,_,hoff⟩ := h.beat (i := i) (v := v) hg
    have hg1 := hg.calmly hm1.run
    obtain ⟨t2,hm2,hleads2,hknown,_⟩ := hleads1.answer (i := i) (v := v) hg1 hic (hoff i hic)
    have hg2 := hg1.calmly hm2.run
    obtain ⟨hterm2,hrole2⟩ := hleads2.others i hic
    obtain ⟨t3,hm3,hmem3,hflight3⟩ := t2.submit (M := M) (v := v) (hleads2.idle i)
    have hpropose : (t2.memory i).propose ⟨t2.clock,0⟩ v =
        (t2.memory i,[⟨.peer (M.ids c),.forward v 0⟩]) := by
      simp [RaftProtocol.propose,hrole2,hknown]
    rw [hpropose] at hmem3 hflight3
    have hleads3 : Leads t3 c := by
      refine hleads2.follower hm3 hic ?_ ?_
      · rw [hmem3]
        exact hrole2
      · rw [hmem3]
        rfl
    have hg3 := hg2.calmly hm3.run
    have hpkt : ⟨i,c,.forward v 0⟩ ∈ t3.cluster.flight := by
      rw [hflight3]
      exact List.mem_append_right _ (List.mem_flatMap.mpr
        ⟨_,List.mem_singleton.mpr rfl,mem_route_peer (Ne.symm hic) _⟩)
    have hlead3 : t3.memory c = t1.memory c :=
      (hm3.memory (Ne.symm hic)).trans (hm2.memory (Ne.symm hic))
    obtain ⟨t4,hm4,_,hexact,_⟩ := t3.receive (M := M) (i := i) (v := v) hpkt (hleads3.idle c)
    have hhandle : (t3.memory c).handleMessage ⟨t3.clock,0⟩ (M.ids i) (.forward v 0) =
        (t3.memory c).propose ⟨t3.clock,0⟩ v := by
      have hfwd : (t3.memory c).handleForward ⟨t3.clock,0⟩ (M.ids i) v 0 =
          (t3.memory c).propose ⟨t3.clock,0⟩ v := if_pos hleads3.role
      exact hfwd
    simp only [hhandle] at hexact
    have hmem4 := hexact (by
      rw [(RaftProtocol.propose_facts ⟨t3.clock,0⟩ hleads3.role (hg3.clean c).append v).2.2.2.2.1]
      exact hleads3.lost)
    obtain ⟨hspreads,hlog⟩ := hleads3.appended hg3 hm4 hmem4
    refine ⟨t4,((hm1.run.trans hm2.run).trans hm3.run).trans hm4.run,hspreads,?_⟩
    rw [hlog,hlead3,hsame1.log,hsame1.term]

structure Agreed (t : Timed N V) (slot : ℕ) (v : V) : Prop where
  held : ∀ d, ∃ e, (t.memory d).log[slot]? = some e ∧ e.value = v
  committed : ∀ d, ∃ k, (t.memory d).commitIndex = some k ∧ slot ≤ k
  drained : ∀ d, (t.memory d).pendingDecisions = []

/-- What all nodes count as committed, all nodes have decided. -/
theorem Agreed.decided {slot : ℕ} (h : Agreed t slot v) (hg : t.Grounded M) (d : Fin N) :
    (d,⟨slot,v⟩) ∈ t.cluster.emitted := by
  obtain ⟨a,ha⟩ := hg.inOrder
  obtain ⟨env,hreach⟩ := hg
  have hout := Cluster.handsOut_reaches hreach d
  obtain ⟨k,hk,hhanded⟩ := hout.handed
  obtain ⟨n,hn,hle⟩ := h.committed d
  have hend : (t.memory d).appliedEnd = k := by
    have happlied : (t.memory d).appliedEnd = k + (t.memory d).pendingDecisions.length := hk.applied
    rw [happlied,h.drained d]
    rfl
  have hlt : n < (t.memory d).appliedEnd := hout.caughtUp n hn
  obtain ⟨dec,hdec,rfl⟩ := hhanded slot (by omega)
  rw [Cluster.mem_outOf] at hdec
  -- the decision has the value of the log
  obtain ⟨_,e,he,hval⟩ := ha.ok.emitted trivial _ hdec
  obtain ⟨e',he',hval'⟩ := h.held d
  have hlog : (t.memory d).log = a.log d := (ha.ok.nodes d).tracks.log
  rw [hlog,he] at he'
  obtain rfl := Option.some.inj he'
  have hsame : dec = ⟨dec.slot,v⟩ := by
    rw [← hval',hval]
  rw [← hsame]
  exact hdec

/-- The log of a leader whose term all nodes have heard of covers every decision made
before. -/
theorem Timed.Grounded.covers (hg : t.Grounded M) (hrun : Calmly M i v t t')
    (hlead : (t'.memory c).role = .leader)
    (hterms : ∀ d, (t'.memory d).currentTerm = (t'.memory c).currentTerm)
    (x : Fin N × Decision V) (hx : x ∈ t.cluster.emitted) :
    x.2.slot < (t'.memory c).log.length := by
  obtain ⟨a,ha⟩ := hg.inOrder
  obtain ⟨a',hmoves,ha'⟩ := ha.reaches hrun.cluster
  have hset := ha.ok.sound.settled_moves trivial hmoves (ha.ok.emitted trivial x hx).1
  obtain ⟨hwon,hlog⟩ : a'.won (t'.memory c).currentTerm c ∧
      (t'.memory c).log = a'.book (t'.memory c).currentTerm := ha'.ok.leads hlead
  have hterm : a'.term x.1 = (t'.memory c).currentTerm :=
    (ha'.ok.nodes x.1).tracks.term.symm.trans (hterms x.1)
  rcases hset with h0 | ⟨u,m,hu,hc,hkm,_⟩
  · omega
  · have hdurable := ha'.ok.sound.durable trivial
    have hprefix := hdurable.committed_prefix ha'.ok.sound.base hc hwon (hu.trans hterm.le)
    have hlen := hprefix.length_le
    have hlt := hc.lt
    rw [List.length_take,← hlog] at hlen
    omega

/-- With two nodes or more: elect, append, spread, and tell. -/
theorem Timed.agree (hg : t.Grounded M) (hN : 1 < N) : ∃ t' slot, Calmly M i v t t' ∧
    Agreed t' slot v ∧ ∀ x ∈ t.cluster.emitted, x.2.slot < slot := by
  obtain ⟨t0,hrun0,hidle0⟩ := t.settle (M := M) (i := i) (v := v)
  obtain ⟨t1,c,hrun1,hleads1⟩ := t0.elect (i := i) (v := v) (hg.calmly hrun0) hN hidle0
  have hrun01 := hrun0.trans hrun1
  obtain ⟨t2,hrun2,h2,hlog2⟩ := hleads1.place (i := i) (v := v) (hg.calmly hrun01)
  obtain ⟨t3,hrun3,h3,hlog3,hlogs3,hcommit3⟩ := h2.conclude (i := i) (v := v) hN
  obtain ⟨t4,hrun4,h4,hsame4,_,htold4⟩ := h3.tell_all (i := i) (v := v) hcommit3 hlogs3
    ((List.finRange N).filter (· ≠ c)) (by simp)
  obtain ⟨t5,hm5,_,hsame5,hdrained5,_⟩ := h4.leads.beat (i := i) (v := v) h4.grounded
  have hlog4 : (t4.memory c).log = (t1.memory c).log ++ [⟨(t1.memory c).currentTerm,v⟩] := by
    rw [hsame4.log,hlog3,hlog2]
  have hlast : (t4.memory c).log.length - 1 = (t1.memory c).log.length := by
    rw [hlog4,List.length_append,List.length_singleton,Nat.add_sub_cancel]
  have htold : ∀ d, d ≠ c → Told t4 c d := fun d hd => htold4 d (by simp [hd])
  refine ⟨t5,(t1.memory c).log.length,
    (((hrun01.trans hrun2).trans hrun3).trans hrun4).trans hm5.run,⟨fun d => ?_,fun d => ?_,fun d => ?_⟩,
    hg.covers hrun01 hleads1.role fun d => ?_⟩
  · refine ⟨⟨(t1.memory c).currentTerm,v⟩,?_,rfl⟩
    by_cases hd : d = c
    · rw [hd,hsame5.log,hlog4,List.getElem?_concat_length]
    · rw [hm5.memory hd,(htold d hd).log,hlog4,List.getElem?_concat_length]
  · by_cases hd : d = c
    · obtain ⟨k,hk,hle⟩ := hcommit3
      rw [hd,hsame5.commit,hsame4.commit]
      exact ⟨k,hk,by rw [← hlast,hsame4.log]; exact hle⟩
    · obtain ⟨k,hk,hle⟩ := (htold d hd).concluded
      rw [hm5.memory hd]
      exact ⟨k,hk,by rw [← hlast,← (htold d hd).log]; exact hle⟩
  · by_cases hd : d = c
    · rw [hd]
      exact hdrained5
    · rw [hm5.memory hd]
      exact (htold d hd).drained
  · by_cases hd : d = c
    · rw [hd]
    · exact (hleads1.others d hd).1

end

end Raft
end Daccord
