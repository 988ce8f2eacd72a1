import Daccord.Raft

/-! What the pieces of the Raft handlers do: the commit rule of the leader, the
append loop of the follower and the messages a leader sends. -/
namespace Daccord
namespace Raft
namespace RaftProtocol

variable {V : Type}

theorem markPersistFrom_log (p : RaftProtocol V) (idx : ℕ) : (p.markPersistFrom idx).log = p.log := by
  unfold markPersistFrom
  split <;> rfl

theorem mem_decisionsBetween {log : List (LogEntry V)} {start stop : ℕ} {d : Decision V} :
    d ∈ decisionsBetween log start stop ↔
      start ≤ d.slot ∧ d.slot < stop ∧ ∃ e, log[d.slot]? = some e ∧ e.value = d.value := by
  simp only [decisionsBetween,List.mem_filterMap,List.mem_range'_1,Option.map_eq_some_iff]
  constructor
  · rintro ⟨n,hn,e,he,rfl⟩
    exact ⟨hn.1,by simp only; omega,e,he,rfl⟩
  · rintro ⟨h1,h2,e,he,hv⟩
    exact ⟨d.slot,by omega,e,he,by cases d; simp_all⟩

/-- Applying touches the decision queue and `last_applied` only, and queues
entries of the log at or below the commit index. -/
theorem applyCommittedEntries_frame (p : RaftProtocol V) : ∃ ds la,
    p.applyCommittedEntries =
      { p with pendingDecisions := p.pendingDecisions ++ ds, lastApplied := la } ∧
    ∀ d ∈ ds, ∃ c e, p.commitIndex = some c ∧ d.slot ≤ c ∧ p.log[d.slot]? = some e ∧
      e.value = d.value := by
  unfold applyCommittedEntries
  split
  · exact ⟨[],p.lastApplied,by simp,by simp⟩
  · rename_i target ht
    split
    · exact ⟨[],p.lastApplied,by simp,by simp⟩
    · refine ⟨_,_,rfl,fun d hd => ?_⟩
      obtain ⟨_,hlt,e,he,hv⟩ := mem_decisionsBetween.mp hd
      exact ⟨target,e,ht,by omega,he,hv⟩

/-! The commit rule. -/

instance : Std.Total fun a b : Option ℕ => descending a b = true where
  total a b := by
    cases a <;> cases b <;> simp [descending]
    omega

instance : IsTrans (Option ℕ) fun a b => descending a b = true where
  trans a b c h h' := by
    cases a <;> cases b <;> cases c <;> simp_all [descending]
    omega

/-- At least `q` keys carry an index not below the one at position `q - 1` of
the descending order. -/
theorem quorum_of_sorted (m : AList fun _ : NodeId => Option ℕ) {q c : ℕ} (hq : 0 < q)
    (h : ((m.entries.map Sigma.snd).insertionSort fun a b => descending a b)[q - 1]? =
      some (some c)) :
    ∃ Q : Finset NodeId, q ≤ Q.card ∧ ∀ id ∈ Q, ∃ k, m.lookup id = some (some k) ∧ c ≤ k := by
  set r : Option ℕ → Option ℕ → Prop := fun a b => descending a b
  set sorted := (m.entries.map Sigma.snd).insertionSort r
  have hsorted : sorted.Pairwise r := List.pairwise_insertionSort r _
  let good : Option ℕ → Bool := fun o => descending o (some c)
  -- the first `q` of the sorted list are good, and sorting permutes
  have hlt : q - 1 < sorted.length := (List.getElem?_eq_some_iff.mp h).1
  have htake : ∀ o ∈ sorted.take q, good o = true := by
    intro o ho
    obtain ⟨n,hn,rfl⟩ := List.mem_iff_getElem.mp ho
    rw [List.length_take] at hn
    rw [List.getElem_take]
    have hc : sorted[q - 1] = some c := (List.getElem?_eq_some_iff.mp h).2
    rcases Nat.lt_or_ge n (q - 1) with hlt' | hge
    · have hp := List.pairwise_iff_getElem.mp hsorted n (q - 1) (by omega) hlt hlt'
      rw [hc] at hp
      exact hp
    · have hnq : n = q - 1 := by omega
      subst hnq
      simp [good,hc,descending]
  have hcount : q ≤ (m.entries.filter fun e => good e.2).length := by
    calc q = ((sorted.take q).filter good).length := by
          rw [List.filter_eq_self.mpr htake,List.length_take]
          omega
      _ ≤ (sorted.filter good).length := ((List.take_sublist q sorted).filter good).length_le
      _ = ((m.entries.map Sigma.snd).filter good).length :=
          ((List.perm_insertionSort r _).filter good).length_eq
      _ = (m.entries.filter fun e => good e.2).length := by
          rw [List.filter_map,List.length_map]
          rfl
  refine ⟨((m.entries.filter fun e => good e.2).map Sigma.fst).toFinset,?_,?_⟩
  · have hnd : ((m.entries.filter fun e => good e.2).map Sigma.fst).Nodup :=
      m.nodupKeys.sublist (List.filter_sublist)
    rw [List.toFinset_card_of_nodup hnd,List.length_map]
    exact hcount
  · intro id hid
    simp only [List.mem_toFinset,List.mem_map,List.mem_filter] at hid
    obtain ⟨⟨id',o⟩,⟨hmem,hgood⟩,rfl⟩ := hid
    have hlook : m.lookup id' = some o := (AList.mem_lookup_iff).mpr hmem
    cases o with
    | none => simp [good,descending] at hgood
    | some k => exact ⟨k,hlook,by simpa [good,descending] using hgood⟩

def Replicated (p : RaftProtocol V) (c : ℕ) : Prop :=
  (∃ e, p.log[c]? = some e ∧ e.term = p.currentTerm) ∧
    ∃ Q : Finset NodeId, p.quorum ≤ Q.card ∧
      ∀ id ∈ Q, ∃ k, p.matchIndex.lookup id = some (some k) ∧ c ≤ k

inductive Advanced (p : RaftProtocol V) (why : ℕ → Prop) : RaftProtocol V → Prop
  | stay : Advanced p why p
  | move (c : ℕ) (hc : why c) (ha : above c p.commitIndex = true) : Advanced p why
      { p with commitIndex := some c, pendingPersistCommitIndex := true }.applyCommittedEntries

theorem Advanced.frame {p q : RaftProtocol V} {why : ℕ → Prop} (h : Advanced p why q) :
    ∃ ci ds la b, q = { p with
        commitIndex := ci
        pendingDecisions := p.pendingDecisions ++ ds
        lastApplied := la
        pendingPersistCommitIndex := b } ∧
      (ci = p.commitIndex ∨ ∃ c, ci = some c ∧ why c) ∧
      ∀ d ∈ ds, ∃ c e, ci = some c ∧ d.slot ≤ c ∧ p.log[d.slot]? = some e ∧ e.value = d.value := by
  cases h with
  | stay => exact ⟨p.commitIndex,[],p.lastApplied,p.pendingPersistCommitIndex,by simp,by simp⟩
  | move c hc ha =>
    obtain ⟨ds,la,heq,hds⟩ := applyCommittedEntries_frame
      { p with commitIndex := some c, pendingPersistCommitIndex := true }
    exact ⟨some c,ds,la,true,heq,Or.inr ⟨c,rfl,hc⟩,hds⟩

theorem tryAdvanceCommit_advanced (p : RaftProtocol V) :
    Advanced p p.Replicated p.tryAdvanceCommit := by
  unfold tryAdvanceCommit
  simp only
  split
  · rename_i c hc
    split
    · exact .stay
    · rename_i entry he
      split
      · rename_i hif
        exact .move c ⟨⟨entry,he,hif.1⟩,quorum_of_sorted _ (Nat.succ_pos _) hc⟩ hif.2
      · exact .stay
  · exact .stay

theorem followCommit_advanced (p : RaftProtocol V) (leaderCommit matchIdx : Option ℕ) :
    Advanced p (fun c => ∃ lc last, leaderCommit = some lc ∧ matchIdx = some last ∧
      c = min lc last) (p.followCommit leaderCommit matchIdx) := by
  unfold followCommit
  split
  · rename_i lc last
    split
    · rename_i ha
      exact .move _ ⟨lc,last,rfl,rfl,rfl⟩ ha
    · exact .stay
  · exact .stay

/-! The append loop. -/

theorem verifiedEnd_eq (prev : Option ℕ) (n : ℕ) : verifiedEnd prev n = startAt prev + n := by
  cases prev <;> simp [verifiedEnd,startAt]

/-- `verifiedIndex` is the last index below `verifiedEnd`. -/
theorem verifiedIndex_eq (prev : Option ℕ) (n : ℕ) :
    verifiedIndex prev n =
      if startAt prev + n = 0 then none else some (startAt prev + n - 1) := by
  cases prev <;> cases n <;> simp [verifiedIndex,startAt]
  omega

/-- The first `m` entries of `es` carry the terms the log has from `start` on. -/
def Matches (log : List (LogEntry V)) (start : ℕ) (es : List (LogEntry V)) (m : ℕ) : Prop :=
  ∀ j e, j < m → es[j]? = some e → termAt log (start + j) = e.term

theorem insertEntries_append (p : RaftProtocol V) {k : ℕ} (es : List (LogEntry V))
    (hk : p.pendingPersistLogFrom = some k) :
    p.insertEntries p.log.length es = { p with log := p.log ++ es } := by
  induction es generalizing p with
  | nil => simp [insertEntries]
  | cons e es ih =>
    have hone : p.insertEntry p.log.length e = { p with log := p.log ++ [e] } := by
      simp [insertEntry,markPersistFrom,hk]
    have hrest := ih { p with log := p.log ++ [e] } hk
    simp only [List.length_append,List.length_singleton] at hrest
    rw [insertEntries,hone,hrest]
    simp

/-- The three ways the append loop ends when nothing was pending before it. -/
inductive Inserted (p : RaftProtocol V) (start : ℕ) (es : List (LogEntry V)) :
    RaftProtocol V → Prop
  | kept (hlen : start + es.length ≤ p.log.length) (hm : Matches p.log start es es.length) :
      Inserted p start es p
  | extended (m : ℕ) (hlt : m < es.length) (hlen : start + m = p.log.length)
      (hm : Matches p.log start es m) :
      Inserted p start es
        { p with log := p.log ++ es.drop m, pendingPersistLogFrom := some p.log.length }
  | replaced (m : ℕ) (e : LogEntry V) (he : es[m]? = some e) (hlen : start + m < p.log.length)
      (hm : Matches p.log start es m) (hne : termAt p.log (start + m) ≠ e.term) :
      Inserted p start es
        { p with
          log := p.log.take (start + m) ++ es.drop m
          pendingTruncateFrom := some (start + m)
          pendingPersistLogFrom := some (start + m) }

theorem Matches.cons {log : List (LogEntry V)} {start m : ℕ} {e : LogEntry V}
    {es : List (LogEntry V)} (he : termAt log start = e.term)
    (h : Matches log (start + 1) es m) : Matches log start (e :: es) (m + 1) := by
  intro j x hj hx
  cases j with
  | zero =>
    simp only [List.getElem?_cons_zero,Option.some.injEq] at hx
    rw [← hx]
    exact he
  | succ j =>
    rw [List.getElem?_cons_succ] at hx
    have hh := h j x (by omega) hx
    rwa [show start + (j + 1) = start + 1 + j by omega]

theorem insertEntries_inserted (p : RaftProtocol V) {start : ℕ} (es : List (LogEntry V))
    (hs : start ≤ p.log.length) (hp : p.pendingPersistLogFrom = none) :
    Inserted p start es (p.insertEntries start es) := by
  induction es generalizing start with
  | nil => exact .kept (by simpa using hs) (by intro j e hj; simp at hj)
  | cons e es ih =>
    rw [insertEntries]
    rcases Nat.lt_or_ge start p.log.length with hlt | hge
    · by_cases ht : termAt p.log start = e.term
      · have hone : p.insertEntry start e = p := by simp [insertEntry,hlt,ht]
        rw [hone]
        have hrest := ih (show start + 1 ≤ p.log.length from hlt)
        generalize p.insertEntries (start + 1) es = q at hrest ⊢
        cases hrest with
        | kept hlen hm => exact .kept (by simp; omega) (hm.cons ht)
        | extended m hm' hlen hm =>
          have hh := Inserted.extended (m + 1) (by simpa using hm' : m + 1 < (e :: es).length)
            (by omega : start + (m + 1) = p.log.length) (hm.cons ht)
          simpa using hh
        | replaced m x hx hlen hm hne =>
          have heq : start + 1 + m = start + (m + 1) := by omega
          rw [heq] at hne hlen ⊢
          have hh := Inserted.replaced (m + 1) x (by simpa using hx : (e :: es)[m + 1]? = some x)
            hlen (hm.cons ht) hne
          simpa using hh
      · -- the first conflict cuts the log, so the rest is appended
        have hone : p.insertEntry start e =
            { p with
              log := p.log.take start ++ [e]
              pendingTruncateFrom := some start
              pendingPersistLogFrom := some start } := by
          simp [insertEntry,hlt,ht,hp]
        have hl : (p.log.take start ++ [e]).length = start + 1 := by simp; omega
        rw [hone]
        have hrest := insertEntries_append (k := start)
          { p with
            log := p.log.take start ++ [e]
            pendingTruncateFrom := some start
            pendingPersistLogFrom := some start } es rfl
        simp only [hl] at hrest
        rw [hrest]
        have hh := Inserted.replaced 0 e (by simp : (e :: es)[0]? = some e)
          (by omega : start + 0 < p.log.length) (by intro j x hj; omega) (by simpa using ht)
        simpa using hh
    · have hst : start = p.log.length := by omega
      subst hst
      have hone : p.insertEntry p.log.length e =
          { p with log := p.log ++ [e], pendingPersistLogFrom := some p.log.length } := by
        simp [insertEntry,markPersistFrom,hp]
      rw [hone]
      have hrest := insertEntries_append (k := p.log.length)
        { p with log := p.log ++ [e], pendingPersistLogFrom := some p.log.length } es rfl
      simp only [List.length_append,List.length_singleton] at hrest
      rw [hrest]
      have hh := Inserted.extended 0 (by simp : 0 < (e :: es).length)
        (Nat.add_zero p.log.length) (by intro j x hj; omega)
      simpa using hh

/-- How a consistent `AppendEntries` changes the log and its persistence intents. -/
inductive Adopted (p : RaftProtocol V) (start : ℕ) (es : List (LogEntry V)) :
    RaftProtocol V → Prop
  | kept (hlen : p.log.length = start + es.length ∨ start + es.length = 0)
      (hm : Matches p.log start es es.length) : Adopted p start es p
  | cut (h0 : start + es.length ≠ 0) (hlen : start + es.length < p.log.length)
      (hm : Matches p.log start es es.length) :
      Adopted p start es
        { p with
          log := p.log.take (start + es.length)
          pendingTruncateFrom := some (start + es.length) }
  | extended (m : ℕ) (hlt : m < es.length) (hlen : start + m = p.log.length)
      (hm : Matches p.log start es m) :
      Adopted p start es
        { p with log := p.log ++ es.drop m, pendingPersistLogFrom := some p.log.length }
  | replaced (m : ℕ) (e : LogEntry V) (he : es[m]? = some e) (hlen : start + m < p.log.length)
      (hm : Matches p.log start es m) (hne : termAt p.log (start + m) ≠ e.term) :
      Adopted p start es
        { p with
          log := p.log.take (start + m) ++ es.drop m
          pendingTruncateFrom := some (start + m)
          pendingPersistLogFrom := some (start + m) }

theorem truncateUnverified_of_le (q : RaftProtocol V) (prev : Option ℕ) (n : ℕ)
    (h : startAt prev + n = 0 ∨ q.log.length ≤ startAt prev + n) :
    q.truncateUnverified (verifiedIndex prev n) = q := by
  by_cases h0 : startAt prev + n = 0
  · rw [verifiedIndex_eq,if_pos h0,truncateUnverified]
  · have hle : ¬ startAt prev + n - 1 + 1 < q.log.length := by omega
    rw [verifiedIndex_eq,if_neg h0,truncateUnverified,if_neg hle]

theorem truncateUnverified_of_lt (q : RaftProtocol V) (prev : Option ℕ) (n : ℕ)
    (h0 : startAt prev + n ≠ 0) (h : startAt prev + n < q.log.length)
    (hq : q.pendingTruncateFrom = none) :
    q.truncateUnverified (verifiedIndex prev n) =
      { q with
        log := q.log.take (startAt prev + n)
        pendingTruncateFrom := some (startAt prev + n) } := by
  have heq : startAt prev + n - 1 + 1 = startAt prev + n := by omega
  rw [verifiedIndex_eq,if_neg h0,truncateUnverified,heq,if_pos h,hq]

theorem adopted (p : RaftProtocol V) (prev : Option ℕ) (es : List (LogEntry V))
    (hs : startAt prev ≤ p.log.length) (hp : p.pendingPersistLogFrom = none)
    (ht : p.pendingTruncateFrom = none) :
    Adopted p (startAt prev) es
      ((p.insertEntries (startAt prev) es).truncateUnverified (verifiedIndex prev es.length)) := by
  have hins := insertEntries_inserted p es hs hp
  generalize p.insertEntries (startAt prev) es = q at hins ⊢
  cases hins with
  | kept hlen hm =>
    rcases Nat.eq_or_lt_of_le hlen with heq | hlt
    · rw [truncateUnverified_of_le _ _ _ (Or.inr heq.ge)]
      exact .kept (Or.inl heq.symm) hm
    · by_cases h0 : startAt prev + es.length = 0
      · rw [truncateUnverified_of_le _ _ _ (Or.inl h0)]
        exact .kept (Or.inr h0) hm
      · rw [truncateUnverified_of_lt _ _ _ h0 hlt ht]
        exact .cut h0 hlt hm
  | extended m hlt hlen hm =>
    rw [truncateUnverified_of_le _ _ _ (Or.inr (by simp; omega))]
    exact .extended m hlt hlen hm
  | replaced m e he hlen hm hne =>
    have hlt := (List.getElem?_eq_some_iff.mp he).1
    rw [truncateUnverified_of_le _ _ _ (Or.inr (by simp; omega))]
    exact .replaced m e he hlen hm hne

theorem Adopted.frame {p r : RaftProtocol V} {start : ℕ} {es : List (LogEntry V)}
    (h : Adopted p start es r) : ∃ tr pe,
      r = { p with log := r.log, pendingTruncateFrom := tr, pendingPersistLogFrom := pe } := by
  cases h <;> exact ⟨_,_,rfl⟩

/-- Both a truncation and an append are pending only after a conflict. -/
theorem Adopted.conflict {p r : RaftProtocol V} {start n k : ℕ} {es : List (LogEntry V)}
    (h : Adopted p start es r) (hp : p.pendingPersistLogFrom = none)
    (ht : p.pendingTruncateFrom = none) (hn : r.pendingTruncateFrom = some n)
    (hk : r.pendingPersistLogFrom = some k) :
    ∃ m e, n = start + m ∧ es[m]? = some e ∧ n < p.log.length ∧ termAt p.log n ≠ e.term := by
  cases h with
  | kept => simp [ht] at hn
  | cut => simp [hp] at hk
  | extended => simp [ht] at hn
  | replaced m e he hlen hm hne =>
    obtain rfl := Option.some.inj hn
    exact ⟨m,e,rfl,he,hlen,hne⟩

theorem Adopted.eq_of_zero {p r : RaftProtocol V} {start : ℕ} {es : List (LogEntry V)}
    (h : Adopted p start es r) (h0 : start + es.length = 0) : r = p := by
  cases h with
  | kept => rfl
  | cut hpos => exact absurd h0 hpos
  | extended m hlt => omega
  | replaced m e he =>
    have := (List.getElem?_eq_some_iff.mp he).1
    omega

theorem startAt_le_of_prevOk {log : List (LogEntry V)} {prev : Option ℕ} {prevTerm : ℕ}
    (h : prevOk log prev prevTerm = true) : startAt prev ≤ log.length := by
  cases prev with
  | none => exact Nat.zero_le _
  | some i =>
    simp only [prevOk,Bool.and_eq_true,decide_eq_true_eq] at h
    exact h.1

/-! The messages of a leader. Whatever the occasion, an `AppendEntries` carries
the log from its start index to the end. -/

structure Carries (log : List (LogEntry V)) (prev : Option ℕ) (prevTerm : ℕ)
    (es : List (LogEntry V)) : Prop where
  rest : es = log.drop (startAt prev)
  bound : startAt prev ≤ log.length
  term : ∀ i, prev = some i → termAt log i = prevTerm

theorem Carries.length {log es : List (LogEntry V)} {prev : Option ℕ} {prevTerm : ℕ}
    (h : Carries log prev prevTerm es) : startAt prev + es.length = log.length := by
  have hb := h.bound
  rw [h.rest,List.length_drop]
  omega

theorem lastIndexOf_eq (log : List (LogEntry V)) :
    lastIndexOf log = if log.length = 0 then none else some (log.length - 1) := rfl

theorem startAt_lastIndexOf (log : List (LogEntry V)) : startAt (lastIndexOf log) = log.length := by
  rw [lastIndexOf_eq]
  by_cases h : log.length = 0
  · simp [h,startAt]
  · simp only [h,if_false,startAt]
    omega

theorem lastLogTerm_eq (p : RaftProtocol V) :
    p.lastLogTerm = termAt p.log (p.log.length - 1) := by
  rw [lastLogTerm,termAt,List.getLast?_eq_getElem?]

/-- `out` replicates the whole log of the leader `p`. -/
def Announces (p : RaftProtocol V) (out : Outgoing (RaftMessage V)) : Prop :=
  ∃ prev prevTerm es,
    out.message = .appendEntries p.currentTerm p.nodeId prev prevTerm es p.commitIndex ∧
    Carries p.log prev prevTerm es

theorem broadcastHeartbeat_announces (env : Env) (p : RaftProtocol V) :
    ∀ out ∈ (p.broadcastHeartbeat env).2, Announces p out := by
  intro out hout
  simp only [broadcastHeartbeat,List.mem_singleton] at hout
  subst hout
  refine ⟨_,_,_,rfl,?_,?_,?_⟩
  · rw [lastLogIndex,startAt_lastIndexOf,List.drop_length]
  · rw [lastLogIndex,startAt_lastIndexOf]
  · intro i hi
    rw [lastLogIndex,lastIndexOf_eq] at hi
    split at hi
    · cases hi
    · rw [lastLogTerm_eq,Option.some.inj hi]

/-- `prev` and `prev_term` for the entries from `start` on. -/
theorem Carries.from (log : List (LogEntry V)) {start : ℕ} (h : start ≤ log.length) :
    Carries log (if start = 0 then none else some (start - 1))
      (match (if start = 0 then none else some (start - 1)) with
        | some i => termAt log i
        | none => 0) (log.drop start) := by
  by_cases h0 : start = 0
  · subst h0
    exact ⟨by simp [startAt],by simp [startAt],by simp⟩
  · simp only [h0,if_false]
    have hs : startAt (some (start - 1)) = start := by
      simp only [startAt]
      omega
    exact ⟨by rw [hs],by rw [hs]; exact h,by simp⟩

theorem broadcastWithEntries_announces (env : Env) (p : RaftProtocol V) {log es}
    (hl : p.log = log ++ es) : ∀ out ∈ (p.broadcastWithEntries env es).2, Announces p out := by
  intro out hout
  simp only [broadcastWithEntries,List.mem_singleton] at hout
  subst hout
  have hfrom := Carries.from p.log (show log.length ≤ p.log.length by simp [hl])
  have hdrop : p.log.drop log.length = es := by simp [hl]
  have hlen : p.log.length = log.length + es.length := by simp [hl]
  refine ⟨_,_,_,rfl,?_⟩
  rw [hdrop] at hfrom
  by_cases h0 : log.length = 0
  · have hif : ¬ es.length < p.log.length := by omega
    simpa [h0,hif] using hfrom
  · have hif : es.length < p.log.length := by omega
    have hsub : p.log.length - es.length - 1 = log.length - 1 := by omega
    simpa [h0,hif,hsub] using hfrom

theorem rewindIndex_le (p : RaftProtocol V) (sender : NodeId) (ct ci : Option ℕ) :
    p.rewindIndex sender ct ci ≤ p.log.length := Nat.min_le_right _ _

/-! A leader taking office and appending entries of its own term. -/

def ownMatch (id : NodeId) (log : List (LogEntry V)) : AList fun _ : NodeId => Option ℕ :=
  match lastIndexOf log with
  | some last => (∅ : AList fun _ : NodeId => Option ℕ).insert id (some last)
  | none => ∅

def takeOffice (p : RaftProtocol V) : RaftProtocol V :=
  { p with
    role := .leader
    leader := some p.nodeId
    nextIndex := ∅
    matchIndex := ownMatch p.nodeId p.log
    pendingProposals := [] }

def appendOwn (p : RaftProtocol V) (es : List (LogEntry V)) : RaftProtocol V :=
  { p with
    log := p.log ++ es
    pendingPersistLogFrom := some p.log.length
    matchIndex := p.matchIndex.insert p.nodeId (some (p.log.length + es.length - 1)) }

theorem appendOwn_log (env : Env) (p : RaftProtocol V) (es : List (LogEntry V)) :
    ((p.appendOwn es).tryAdvanceCommit.broadcastWithEntries env es).1.log = p.log ++ es := by
  obtain ⟨_,_,_,_,heq,_⟩ := (p.appendOwn es).tryAdvanceCommit_advanced.frame
  change (p.appendOwn es).tryAdvanceCommit.log = p.log ++ es
  rw [heq]
  rfl

theorem appendOwn_role (env : Env) (p : RaftProtocol V) (es : List (LogEntry V)) :
    ((p.appendOwn es).tryAdvanceCommit.broadcastWithEntries env es).1.role = p.role := by
  obtain ⟨_,_,_,_,heq,_⟩ := (p.appendOwn es).tryAdvanceCommit_advanced.frame
  change (p.appendOwn es).tryAdvanceCommit.role = p.role
  rw [heq]
  rfl

theorem appendOwn_announces (env : Env) (p : RaftProtocol V) (es : List (LogEntry V)) :
    ∀ out ∈ ((p.appendOwn es).tryAdvanceCommit.broadcastWithEntries env es).2,
      Announces (p.appendOwn es).tryAdvanceCommit out :=
  broadcastWithEntries_announces env _ (p.appendOwn_log env es)

theorem seedOwnMatch_eq (p : RaftProtocol V) (h : p.matchIndex = ∅) :
    p.seedOwnMatch = { p with matchIndex := ownMatch p.nodeId p.log } := by
  unfold seedOwnMatch ownMatch
  cases hl : lastIndexOf p.log with
  | none => rw [← h]
  | some last => rw [← h]

theorem ownMatch_lookup {own id : NodeId} {log : List (LogEntry V)} {k : ℕ}
    (h : (ownMatch own log).lookup id = some (some k)) : id = own ∧ k + 1 = log.length := by
  unfold ownMatch at h
  rw [lastIndexOf_eq] at h
  by_cases h0 : log.length = 0
  · simp [h0] at h
  · simp only [h0,if_false] at h
    by_cases hid : id = own
    · subst hid
      rw [AList.lookup_insert] at h
      refine ⟨rfl,?_⟩
      have := Option.some.inj (Option.some.inj h)
      omega
    · rw [AList.lookup_insert_ne hid] at h
      simp at h

theorem eq_of_mem_ownMatch {own id : NodeId} {log : List (LogEntry V)}
    (h : id ∈ ownMatch own log) : id = own := by
  unfold ownMatch at h
  cases hlast : lastIndexOf log with
  | none =>
    rw [hlast] at h
    exact absurd h (AList.notMem_empty id)
  | some last =>
    rw [hlast] at h
    exact ((AList.mem_insert _).mp h).resolve_right (AList.notMem_empty id)

theorem becomeLeader_of_empty (env : Env) (p : RaftProtocol V) (h : p.pendingProposals = []) :
    p.becomeLeader env = p.takeOffice.broadcastHeartbeat env := by
  unfold becomeLeader
  simp only
  rw [seedOwnMatch_eq _ rfl]
  simp [h,takeOffice,ownMatch]

def batch (p : RaftProtocol V) : List (LogEntry V) :=
  p.pendingProposals.map fun value => ⟨p.currentTerm,value⟩

theorem becomeLeader_of_batch (env : Env) (p : RaftProtocol V) (h : p.pendingProposals ≠ [])
    (hp : p.pendingPersistLogFrom = none) : p.becomeLeader env =
      (p.takeOffice.appendOwn p.batch).tryAdvanceCommit.broadcastWithEntries env p.batch := by
  unfold becomeLeader
  simp only
  rw [seedOwnMatch_eq _ rfl]
  simp [h,takeOffice,ownMatch,markPersistFrom,hp,appendOwn,batch]

theorem propose_of_leader (env : Env) (p : RaftProtocol V) (v : V) (h : p.role = .leader)
    (hp : p.pendingPersistLogFrom = none) : p.propose env v =
      (p.appendOwn [⟨p.currentTerm,v⟩]).tryAdvanceCommit.broadcastWithEntries env
        [⟨p.currentTerm,v⟩] := by
  simp [propose,h,markPersistFrom,hp,appendOwn]

/-! What each handler can do, one lemma per handler. -/

def candidacy (env : Env) (p : RaftProtocol V) : RaftProtocol V :=
  { p with
    currentTerm := p.currentTerm + 1
    role := .candidate
    votedFor := some p.nodeId
    votesReceived := {p.nodeId}
    leader := none
    electionDeadline := nextDeadline env p.config
    pendingPersistTerm := true
    pendingPersistVotedFor := true }

theorem startElection_cases (env : Env) (p : RaftProtocol V) :
    (p.quorum ≤ 1 ∧ p.startElection env = (p.candidacy env).becomeLeader env) ∨
    (1 < p.quorum ∧ ∃ lost pend, p.startElection env =
      ({ p.candidacy env with lostProposals := lost, pendingProposals := pend },
        [⟨.broadcast,.requestVote (p.currentTerm + 1) p.nodeId p.lastLogIndex p.lastLogTerm⟩])) := by
  unfold startElection
  simp only [Finset.card_singleton]
  by_cases hq : p.quorum ≤ 1
  · left
    refine ⟨hq,?_⟩
    have hq' : quorum { p with
      currentTerm := p.currentTerm + 1
      role := .candidate
      votedFor := some p.nodeId
      votesReceived := {p.nodeId}
      leader := none
      electionDeadline := nextDeadline env p.config
      pendingPersistTerm := true
      pendingPersistVotedFor := true } ≤ 1 := hq
    rw [if_pos hq']
    rfl
  · right
    refine ⟨by omega,?_⟩
    rw [if_neg (by exact hq)]
    by_cases hc : p.role = .candidate
    · exact ⟨_,_,by rw [if_pos hc]; rfl⟩
    · exact ⟨p.lostProposals,p.pendingProposals,by rw [if_neg hc]; rfl⟩

theorem handleRequestVote_cases (env : Env) (p : RaftProtocol V) (term : ℕ) (candidate : NodeId)
    (li : Option ℕ) (lt : ℕ) :
    (p.handleRequestVote env term candidate li lt =
      (p,[⟨.peer candidate,.requestVoteResponse p.currentTerm false⟩])) ∨
    (p.currentTerm ≤ term ∧ (p.votedFor = none ∨ p.votedFor = some candidate) ∧
      p.candidateLogAtLeastAsUpToDate lt li = true ∧
      p.handleRequestVote env term candidate li lt =
        ({ p with
            votedFor := some candidate
            pendingPersistVotedFor := true
            electionDeadline := nextDeadline env p.config },
          [⟨.peer candidate,.requestVoteResponse p.currentTerm true⟩])) := by
  unfold handleRequestVote
  by_cases ht : term < p.currentTerm
  · simp [ht]
  · simp only [if_neg ht]
    cases hv : p.votedFor with
    | none => cases hup : p.candidateLogAtLeastAsUpToDate lt li <;> simp; omega
    | some v =>
      by_cases hvc : v = candidate
      · cases hup : p.candidateLogAtLeastAsUpToDate lt li <;> simp [hvc]; omega
      · simp [hvc]

theorem handleRequestVoteResponse_cases (env : Env) (p : RaftProtocol V) (sender : NodeId)
    (term : ℕ) (granted : Bool) :
    (p.handleRequestVoteResponse env sender term granted = (p,[])) ∨
    (p.role = .candidate ∧ term = p.currentTerm ∧ granted = true ∧
      ((p.handleRequestVoteResponse env sender term granted =
          ({ p with votesReceived := insert sender p.votesReceived },[])) ∨
        (p.quorum ≤ (insert sender p.votesReceived).card ∧
          p.handleRequestVoteResponse env sender term granted =
            { p with votesReceived := insert sender p.votesReceived }.becomeLeader env))) := by
  unfold handleRequestVoteResponse
  by_cases hr : p.role ≠ .candidate ∨ term ≠ p.currentTerm
  · exact Or.inl (if_pos hr)
  · rw [if_neg hr]
    simp only [ne_eq,not_or,not_not] at hr
    cases granted with
    | false => exact Or.inl rfl
    | true =>
      right
      refine ⟨hr.1,hr.2,rfl,?_⟩
      simp only [if_true]
      by_cases hq : p.quorum ≤ (insert sender p.votesReceived).card
      · exact Or.inr ⟨hq,if_pos hq⟩
      · exact Or.inl (if_neg hq)

/-- The follower a current `AppendEntries` makes of its receiver. -/
def follow (env : Env) (p : RaftProtocol V) (leader : NodeId) : RaftProtocol V :=
  { p with
    role := .follower
    leader := some leader
    electionDeadline := nextDeadline env p.config }

theorem handleAppendEntries_cases (env : Env) (p : RaftProtocol V) (term : ℕ) (leader : NodeId)
    (prev : Option ℕ) (prevTerm : ℕ) (es : List (LogEntry V)) (lc : Option ℕ)
    (hp : p.pendingPersistLogFrom = none) (ht : p.pendingTruncateFrom = none) :
    ((term < p.currentTerm ∨ term = p.currentTerm ∧ p.role = .leader) ∧
      p.handleAppendEntries env term leader prev prevTerm es lc =
        (p,[⟨.peer leader,.appendEntriesResponse p.currentTerm false none none none⟩])) ∨
    (p.currentTerm ≤ term ∧ (term = p.currentTerm → p.role ≠ .leader) ∧
      ((prevOk p.log prev prevTerm = false ∧ ∃ ct ci,
          p.handleAppendEntries env term leader prev prevTerm es lc =
          (p.follow env leader,
            [⟨.peer leader,.appendEntriesResponse p.currentTerm false none ct ci⟩])) ∨
        (prevOk p.log prev prevTerm = true ∧
          ∃ r f, Adopted (p.follow env leader) (startAt prev) es r ∧
          Advanced r (fun c => ∃ l last, lc = some l ∧
            verifiedIndex prev es.length = some last ∧ c = min l last) f ∧
          p.handleAppendEntries env term leader prev prevTerm es lc =
            ({ f with pendingProposals := [] },
              ⟨.peer leader,.appendEntriesResponse f.currentTerm true
                (verifiedIndex prev es.length) none none⟩ ::
              f.pendingProposals.map fun value => ⟨.peer leader,.forward value 0⟩)))) := by
  unfold handleAppendEntries
  by_cases h1 : term < p.currentTerm
  · exact Or.inl ⟨Or.inl h1,if_pos h1⟩
  · rw [if_neg h1]
    by_cases h2 : term = p.currentTerm ∧ p.role = .leader
    · exact Or.inl ⟨Or.inr h2,if_pos h2⟩
    · rw [if_neg h2]
      right
      refine ⟨by omega,fun he hl => h2 ⟨he,hl⟩,?_⟩
      cases hok : prevOk p.log prev prevTerm with
      | false =>
        left
        refine ⟨rfl,(conflictHint p.log prev).1,(conflictHint p.log prev).2,?_⟩
        simp only [hok,if_true]
        rfl
      | true =>
        right
        refine ⟨rfl,_,_,adopted (p.follow env leader) prev es (startAt_le_of_prevOk hok) hp ht,
          followCommit_advanced _ lc _,?_⟩
        simp only [hok,Bool.true_eq_false,if_false]
        rfl

def Counts (p : RaftProtocol V) (term : ℕ) (success : Bool) (mi : Option ℕ) : Prop :=
  p.role = .leader ∧ term = p.currentTerm ∧ success = true ∧ ∃ k ∈ mi, k < p.log.length

instance (p : RaftProtocol V) (term : ℕ) (success : Bool) (mi : Option ℕ) :
    Decidable (p.Counts term success mi) := inferInstanceAs (Decidable (_ ∧ _ ∧ _ ∧ _))

theorem handleAppendEntriesResponse_cases (p : RaftProtocol V) (sender : NodeId) (term : ℕ)
    (success : Bool) (mi ct ci : Option ℕ) :
    (p.handleAppendEntriesResponse sender term success mi ct ci = (p,[])) ∨
    (p.role = .leader ∧ term = p.currentTerm ∧
      ((success = true ∧ ∃ k, mi = some k ∧ k < p.log.length ∧
          p.handleAppendEntriesResponse sender term success mi ct ci =
            ({ p with
              matchIndex := p.matchIndex.insert sender (some k)
              nextIndex := p.nextIndex.insert sender (k + 1) }.tryAdvanceCommit,[])) ∨
        (∃ next out, Announces p ⟨.peer sender,out⟩ ∧
          p.handleAppendEntriesResponse sender term success mi ct ci =
            ({ p with nextIndex := next },[⟨.peer sender,out⟩])))) := by
  unfold handleAppendEntriesResponse
  by_cases hr : p.role ≠ .leader ∨ term ≠ p.currentTerm
  · exact Or.inl (if_pos hr)
  · rw [if_neg hr]
    simp only [ne_eq,not_or,not_not] at hr
    cases success with
    | true =>
      cases mi with
      | none => exact Or.inl rfl
      | some k =>
        by_cases hk : p.log.length = 0 ∨ p.log.length ≤ k
        · exact Or.inl (if_pos hk)
        · exact Or.inr ⟨hr.1,hr.2,Or.inl ⟨rfl,k,rfl,by omega,if_neg hk⟩⟩
    | false =>
      right
      refine ⟨hr.1,hr.2,Or.inr ⟨_,_,?_,rfl⟩⟩
      exact ⟨_,_,_,rfl,Carries.from p.log (p.rewindIndex_le sender ct ci)⟩

theorem propose_cases (env : Env) (p : RaftProtocol V) (v : V) (h : p.role ≠ .leader) :
    ∃ pend outs, p.propose env v = ({ p with pendingProposals := pend },outs) ∧
      ∀ out ∈ outs, ∃ v hops, out.message = .forward v hops := by
  unfold propose
  rw [if_neg h]
  split
  · exact ⟨p.pendingProposals,_,rfl,by simp⟩
  · exact ⟨_,_,rfl,by simp⟩

theorem handleForward_cases (env : Env) (p : RaftProtocol V) (sender : NodeId) (v : V) (hops : ℕ) :
    (p.role = .leader ∧ p.handleForward env sender v hops = p.propose env v) ∨
    (p.role ≠ .leader ∧ ∃ pend outs,
      p.handleForward env sender v hops = ({ p with pendingProposals := pend },outs) ∧
      ∀ out ∈ outs, ∃ v hops, out.message = .forward v hops) := by
  unfold handleForward
  by_cases hr : p.role = .leader
  · exact Or.inl ⟨hr,if_pos hr⟩
  · right
    refine ⟨hr,?_⟩
    rw [if_neg hr]
    simp only
    split
    · split
      · split
        · exact ⟨p.pendingProposals,_,rfl,by simp⟩
        · exact ⟨p.pendingProposals,_,rfl,by simp⟩
      · exact ⟨_,_,rfl,by simp⟩
    · exact ⟨_,_,rfl,by simp⟩

theorem onTick_cases (env : Env) (p : RaftProtocol V) :
    (p.onTick env = (p,[])) ∨
    (p.role = .leader ∧ p.onTick env = p.broadcastHeartbeat env) ∨
    (p.role ≠ .leader ∧ p.onTick env = p.startElection env) := by
  unfold onTick
  cases hr : p.role with
  | leader =>
    simp only [true_and]
    split
    · split
      · exact Or.inr (Or.inl rfl)
      · exact Or.inl rfl
    · exact Or.inr (Or.inl rfl)
  | follower =>
    simp only
    split
    · exact Or.inr (Or.inr ⟨by simp,rfl⟩)
    · exact Or.inl rfl
  | candidate =>
    simp only
    split
    · exact Or.inr (Or.inr ⟨by simp,rfl⟩)
    · exact Or.inl rfl

/-- A message of a later term makes the node a follower of that term first. -/
theorem bumpTerm_cases (env : Env) (p : RaftProtocol V) (msg : RaftMessage V) :
    (p.bumpTerm env msg = p ∧ ∀ t, incomingTerm msg = some t → t ≤ p.currentTerm) ∨
    (∃ t, incomingTerm msg = some t ∧ p.currentTerm < t ∧ p.bumpTerm env msg =
      { p with
        currentTerm := t
        votedFor := none
        pendingPersistTerm := true
        pendingPersistVotedFor := true
        role := .follower
        leader := none
        votesReceived := ∅
        electionDeadline := nextDeadline env p.config
        pendingPersistLogFrom := none }) := by
  unfold bumpTerm
  cases hi : incomingTerm msg with
  | none => exact Or.inl ⟨rfl,by simp⟩
  | some t =>
    by_cases ht : p.currentTerm < t
    · right
      refine ⟨t,rfl,ht,?_⟩
      simp [ht,becomeFollower]
    · left
      refine ⟨by simp [ht],fun u hu => ?_⟩
      have := Option.some.inj hu
      omega

theorem bumpTerm_eq_or_lt (env : Env) (p : RaftProtocol V) (msg : RaftMessage V) :
    p.bumpTerm env msg = p ∨ p.currentTerm < (p.bumpTerm env msg).currentTerm := by
  rcases p.bumpTerm_cases env msg with ⟨heq,_⟩ | ⟨t,_,hlt,heq⟩
  · exact Or.inl heq
  · right
    rw [heq]
    exact hlt

end RaftProtocol
end Raft
end Daccord
