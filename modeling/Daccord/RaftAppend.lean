import Daccord.RaftHandlers

/-! What `handle_append_entries` does to a follower, whatever state it is in: the
loop, the second truncation and the capped commit together put the entries of
the message behind the index they follow. -/
namespace Daccord
namespace Raft
namespace RaftProtocol

variable {V : Type}

/-- Entries of the log and of the message with one index and one term are equal. -/
def Agrees (log : List (LogEntry V)) (start : ℕ) (es : List (LogEntry V)) : Prop :=
  ∀ k e x, es[k]? = some e → log[start + k]? = some x → x.term = e.term → x = e

theorem insertEntry_frame (p : RaftProtocol V) (k : ℕ) (e : LogEntry V) : ∃ l t a,
    p.insertEntry k e =
      { p with log := l, pendingTruncateFrom := t, pendingPersistLogFrom := a } := by
  unfold insertEntry
  split
  · split
    · exact ⟨_,_,_,rfl⟩
    · exact ⟨_,_,_,rfl⟩
  · unfold markPersistFrom
    cases hp : p.pendingPersistLogFrom with
    | none => exact ⟨_,_,_,rfl⟩
    | some x => exact ⟨p.log ++ [e],p.pendingTruncateFrom,some x,rfl⟩

theorem insertEntries_frame (p : RaftProtocol V) (k : ℕ) (es : List (LogEntry V)) : ∃ l t a,
    p.insertEntries k es =
      { p with log := l, pendingTruncateFrom := t, pendingPersistLogFrom := a } := by
  induction es generalizing p k with
  | nil => exact ⟨_,_,_,rfl⟩
  | cons e es ih =>
    obtain ⟨l,t,a,heq⟩ := p.insertEntry_frame k e
    obtain ⟨l',t',a',heq'⟩ := ih (p.insertEntry k e) (k + 1)
    rw [insertEntries,heq',heq]
    exact ⟨l',t',a',rfl⟩

theorem insertEntry_length (p : RaftProtocol V) {k : ℕ} (e : LogEntry V) (hk : k ≤ p.log.length) :
    k + 1 ≤ (p.insertEntry k e).log.length := by
  unfold insertEntry
  split
  · split
    · simp only [List.length_append,List.length_take,List.length_singleton]
      omega
    · assumption
  · rw [markPersistFrom_log,List.length_append]
    exact Nat.add_le_add_right hk 1

theorem insertEntries_length (p : RaftProtocol V) {start : ℕ} (es : List (LogEntry V))
    (hs : start ≤ p.log.length) :
    start + es.length ≤ (p.insertEntries start es).log.length := by
  induction es generalizing p start with
  | nil => exact hs
  | cons e es ih =>
    rw [insertEntries,List.length_cons,← Nat.succ_add_eq_add_succ]
    exact ih (p.insertEntry start e) (p.insertEntry_length e hs)

/-- One iteration puts its entry in place and brings nothing new past it. -/
theorem insertEntry_log (p : RaftProtocol V) {k : ℕ} {e : LogEntry V} (hk : k ≤ p.log.length)
    (he : ∀ x, p.log[k]? = some x → x.term = e.term → x = e) :
    (p.insertEntry k e).log.take (k + 1) = p.log.take k ++ [e] ∧
      ∀ j x, k < j → (p.insertEntry k e).log[j]? = some x → p.log[j]? = some x := by
  unfold insertEntry
  rcases Nat.lt_or_ge k p.log.length with hlt | hge
  · have hget : p.log[k]? = some p.log[k] := List.getElem?_eq_getElem hlt
    rw [if_pos hlt]
    by_cases ht : termAt p.log k = e.term
    · rw [if_neg (not_not_intro ht)]
      have hx : p.log[k] = e := by
        refine he _ hget ?_
        simpa [termAt,hget] using ht
      refine ⟨?_,fun j x _ hj => hj⟩
      rw [List.take_add_one,hget,hx]
      rfl
    · rw [if_pos ht]
      have hlen : (p.log.take k ++ [e]).length = k + 1 := by simp; omega
      refine ⟨?_,fun j x hj hjx => ?_⟩
      · exact List.take_of_length_le hlen.le
      · rw [List.getElem?_eq_none (by simp only [hlen]; omega)] at hjx
        cases hjx
  · rw [if_neg (Nat.not_lt.mpr hge)]
    have heq : k = p.log.length := le_antisymm hk hge
    rw [markPersistFrom_log,heq,List.take_length]
    refine ⟨List.take_of_length_le (by simp),fun j x hj hjx => ?_⟩
    rw [List.getElem?_eq_none (by simp; omega)] at hjx
    cases hjx

theorem insertEntries_log (p : RaftProtocol V) {start : ℕ} {es : List (LogEntry V)}
    (hs : start ≤ p.log.length) (ha : Agrees p.log start es) :
    (p.insertEntries start es).log.take (start + es.length) = p.log.take start ++ es := by
  induction es generalizing p start with
  | nil => simp [insertEntries]
  | cons e es ih =>
    obtain ⟨htake,hrest⟩ := p.insertEntry_log hs fun x hx ht => ha 0 e x rfl hx ht
    have ha' : Agrees (p.insertEntry start e).log (start + 1) es := by
      intro k y x hy hx ht
      refine ha (k + 1) y x hy ?_ ht
      rw [← Nat.succ_add_eq_add_succ]
      exact hrest _ x (by omega) hx
    rw [insertEntries,List.length_cons,← Nat.succ_add_eq_add_succ,
      ih (p.insertEntry start e) (p.insertEntry_length e hs) ha',htake,List.append_assoc]
    rfl

theorem truncateUnverified_frame (p : RaftProtocol V) (last : Option ℕ) : ∃ l t,
    p.truncateUnverified last = { p with log := l, pendingTruncateFrom := t } := by
  unfold truncateUnverified
  split
  · exact ⟨_,_,rfl⟩
  · split
    · exact ⟨_,_,rfl⟩
    · exact ⟨_,_,rfl⟩

theorem truncateUnverified_log (p : RaftProtocol V) (last : ℕ) :
    (p.truncateUnverified (some last)).log = p.log.take (last + 1) := by
  unfold truncateUnverified
  simp only
  split
  · rfl
  · exact (List.take_of_length_le (by omega)).symm

theorem followCommit_commitIndex (p : RaftProtocol V) (lc : Option ℕ) (last : ℕ) :
    (p.followCommit lc (some last)).commitIndex =
      maxIndex p.commitIndex (lc.map fun c => min c last) := by
  cases lc with
  | none => cases hc : p.commitIndex <;> simp [followCommit,maxIndex,hc]
  | some c =>
    simp only [followCommit,Option.map_some]
    obtain ⟨ds,la,heq,_⟩ := applyCommittedEntries_frame
      { p with commitIndex := some (min c last), pendingPersistCommitIndex := true }
    rw [heq]
    cases hc : p.commitIndex with
    | none => simp [above,maxIndex]
    | some old =>
      by_cases h : old < min c last
      · simp only [above,h,decide_true,if_true,maxIndex]
        rw [max_eq_right h.le]
      · simp only [above,h,decide_false,Bool.false_eq_true,if_false,hc,maxIndex]
        rw [max_eq_left (Nat.not_lt.mp h)]

theorem followCommit_frame (p : RaftProtocol V) (lc last : Option ℕ) : ∃ ci ds la b,
    p.followCommit lc last = { p with
      commitIndex := ci
      pendingDecisions := p.pendingDecisions ++ ds
      lastApplied := la
      pendingPersistCommitIndex := b } := by
  obtain ⟨ci,ds,la,b,heq,_⟩ := (p.followCommit_advanced lc last).frame
  exact ⟨ci,ds,la,b,heq⟩

def Follows (log : List (LogEntry V)) (prev : Option ℕ) (prevTerm : ℕ) : Prop :=
  ∀ i, prev = some i → ∃ e, log[i]? = some e ∧ e.term = prevTerm

theorem prevOk_iff (log : List (LogEntry V)) (prev : Option ℕ) (prevTerm : ℕ) :
    prevOk log prev prevTerm = true ↔ Follows log prev prevTerm := by
  cases prev with
  | none => simp [prevOk,Follows]
  | some i =>
    simp only [prevOk,Bool.and_eq_true,decide_eq_true_eq,Follows,Option.some.injEq]
    constructor
    · rintro ⟨hlt,ht⟩ j rfl
      refine ⟨log[i],List.getElem?_eq_getElem hlt,?_⟩
      simpa [termAt,List.getElem?_eq_getElem hlt] using ht
    · intro h
      obtain ⟨e,he,ht⟩ := h i rfl
      exact ⟨(List.getElem?_eq_some_iff.mp he).1,by simp [termAt,he,ht]⟩

/-- A message of the node's own term or a later one is handled in its term. -/
theorem bumpTerm_facts (env : Env) (p : RaftProtocol V) (msg : RaftMessage V) {term : ℕ}
    (hmsg : incomingTerm msg = some term) (hle : p.currentTerm ≤ term)
    (hrole : ¬ (term = p.currentTerm ∧ p.role = .leader)) :
    let q := p.bumpTerm env msg
    q.currentTerm = term ∧ q.role ≠ .leader ∧ q.log = p.log ∧ q.commitIndex = p.commitIndex ∧
      q.lastApplied = p.lastApplied ∧ q.pendingDecisions = p.pendingDecisions := by
  rcases p.bumpTerm_cases env msg with ⟨heq,hmax⟩ | ⟨t,ht,hlt,heq⟩
  · have hterm : term = p.currentTerm := le_antisymm (hmax term hmsg) hle
    rw [heq]
    exact ⟨hterm.symm,fun hl => hrole ⟨hterm,hl⟩,rfl,rfl,rfl,rfl⟩
  · rw [heq]
    rw [hmsg] at ht
    exact ⟨(Option.some.inj ht).symm,nofun,rfl,rfl,rfl,rfl⟩

theorem handleAppendEntries_rejected (env : Env) (p : RaftProtocol V) {term : ℕ} (leader : NodeId)
    {prev : Option ℕ} {prevTerm : ℕ} (es : List (LogEntry V)) (lc : Option ℕ)
    (hterm : p.currentTerm = term) (hrole : p.role ≠ .leader)
    (hprev : ¬ Follows p.log prev prevTerm) :
    p.handleAppendEntries env term leader prev prevTerm es lc =
      (p.follow env leader,[⟨.peer leader,.appendEntriesResponse term false none
        (conflictHint p.log prev).1 (conflictHint p.log prev).2⟩]) := by
  have hok : prevOk p.log prev prevTerm = false := by
    rwa [← prevOk_iff,Bool.not_eq_true] at hprev
  have hstale : ¬ term < p.currentTerm := by omega
  have hown : ¬ (term = p.currentTerm ∧ p.role = .leader) := fun h => hrole h.2
  subst hterm
  rw [handleAppendEntries,if_neg hstale,if_neg hown]
  simp only [hok,if_true]
  rfl

def spliced (env : Env) (p : RaftProtocol V) (leader : NodeId) (prev : Option ℕ)
    (es : List (LogEntry V)) : RaftProtocol V :=
  ((p.follow env leader).insertEntries (startAt prev) es).truncateUnverified
    (verifiedIndex prev es.length)

theorem spliced_frame (env : Env) (p : RaftProtocol V) (leader : NodeId) (prev : Option ℕ)
    (es : List (LogEntry V)) : ∃ l t a, p.spliced env leader prev es =
      { p.follow env leader with
        log := l
        pendingTruncateFrom := t
        pendingPersistLogFrom := a } := by
  obtain ⟨l,t,a,heq⟩ := (p.follow env leader).insertEntries_frame (startAt prev) es
  obtain ⟨l',t',heq'⟩ := ((p.follow env leader).insertEntries (startAt prev)
    es).truncateUnverified_frame (verifiedIndex prev es.length)
  rw [spliced,heq',heq]
  exact ⟨l',t',a,rfl⟩

theorem spliced_log (env : Env) (p : RaftProtocol V) (leader : NodeId) {prev : Option ℕ}
    {prevTerm : ℕ} {es : List (LogEntry V)} (hprev : Follows p.log prev prevTerm)
    (ha : Agrees p.log (startAt prev) es) (h0 : startAt prev + es.length ≠ 0) :
    (p.spliced env leader prev es).log = p.log.take (startAt prev) ++ es := by
  have hs : startAt prev ≤ p.log.length := startAt_le_of_prevOk ((prevOk_iff ..).mpr hprev)
  have htake := (p.follow env leader).insertEntries_log hs ha
  rw [spliced,verifiedIndex_eq,if_neg h0,truncateUnverified_log,Nat.sub_add_cancel (by omega),htake]
  rfl

theorem handleAppendEntries_accepted (env : Env) (p : RaftProtocol V) {term : ℕ} (leader : NodeId)
    {prev : Option ℕ} {prevTerm : ℕ} (es : List (LogEntry V)) (lc : Option ℕ)
    (hterm : p.currentTerm = term) (hrole : p.role ≠ .leader)
    (hprev : Follows p.log prev prevTerm) :
    let r := p.handleAppendEntries env term leader prev prevTerm es lc
    r.1.log = (p.spliced env leader prev es).log ∧
      r.1.commitIndex = ((p.spliced env leader prev es).followCommit lc
        (verifiedIndex prev es.length)).commitIndex ∧
      ∃ forwards, r.2 = ⟨.peer leader,.appendEntriesResponse term true
        (verifiedIndex prev es.length) none none⟩ :: forwards := by
  have hok : prevOk p.log prev prevTerm = true := (prevOk_iff ..).mpr hprev
  have hstale : ¬ term < p.currentTerm := by omega
  have hown : ¬ (term = p.currentTerm ∧ p.role = .leader) := fun h => hrole h.2
  subst hterm
  obtain ⟨l,t,a,hsp⟩ := p.spliced_frame env leader prev es
  obtain ⟨ci,ds,la,b,hf⟩ := (p.spliced env leader prev es).followCommit_frame lc
    (verifiedIndex prev es.length)
  have hft : ((p.spliced env leader prev es).followCommit lc
      (verifiedIndex prev es.length)).currentTerm = p.currentTerm := by
    rw [hf,hsp]
    rfl
  have hrep : p.handleAppendEntries env p.currentTerm leader prev prevTerm es lc =
      let f := (p.spliced env leader prev es).followCommit lc (verifiedIndex prev es.length)
      ({ f with pendingProposals := [] },
        ⟨.peer leader,.appendEntriesResponse f.currentTerm true
          (verifiedIndex prev es.length) none none⟩ ::
        f.pendingProposals.map fun value => ⟨.peer leader,.forward value 0⟩) := by
    rw [handleAppendEntries,if_neg hstale,if_neg hown]
    simp only [hok,Bool.true_eq_false,if_false]
    rfl
  rw [hrep]
  refine ⟨by rw [hf],rfl,?_⟩
  simp only [hft]
  exact ⟨_,rfl⟩

/-- A follower that is handed an `AppendEntries` of its term or a later one
refuses it untouched unless it has the entry the message builds on; otherwise its
log is what came before followed by what the message brings, it reports the last
index of that log, and it commits as far as the leader and the message allow. -/
theorem append_entries_exact (env : Env) (p : RaftProtocol V) (sender leader : NodeId) (term : ℕ)
    (prev : Option ℕ) (prevTerm : ℕ) (es : List (LogEntry V)) (lc : Option ℕ)
    (hterm : p.currentTerm ≤ term) (hrole : ¬ (term = p.currentTerm ∧ p.role = .leader))
    (ha : Agrees p.log (startAt prev) es) :
    let r := p.handleMessage env sender (.appendEntries term leader prev prevTerm es lc)
    (¬ Follows p.log prev prevTerm →
      (∃ ct ci, r.2 = [⟨.peer leader,.appendEntriesResponse term false none ct ci⟩]) ∧
      r.1.log = p.log ∧ r.1.commitIndex = p.commitIndex ∧ r.1.lastApplied = p.lastApplied ∧
      r.1.pendingDecisions = p.pendingDecisions) ∧
    (Follows p.log prev prevTerm → (prev ≠ none ∨ es ≠ []) →
      r.1.log = p.log.take (startAt prev) ++ es ∧
      ∃ last forwards, lastIndexOf r.1.log = some last ∧
        r.2 = ⟨.peer leader,.appendEntriesResponse term true (some last) none none⟩ :: forwards ∧
        r.1.commitIndex = maxIndex p.commitIndex (lc.map fun c => min c last)) ∧
    (prev = none → es = [] → (∃ forwards,
        r.2 = ⟨.peer leader,.appendEntriesResponse term true none none none⟩ :: forwards) ∧
      r.1.log = p.log ∧ r.1.commitIndex = p.commitIndex) := by
  intro r
  obtain ⟨hqterm,hqrole,hqlog,hqci,hqla,hqds⟩ := p.bumpTerm_facts env
    (.appendEntries term leader prev prevTerm es lc) rfl hterm hrole
  have hr : r = (p.bumpTerm env (.appendEntries term leader prev prevTerm es
      lc)).handleAppendEntries env term leader prev prevTerm es lc := rfl
  generalize p.bumpTerm env (.appendEntries term leader prev prevTerm es lc) = q at *
  rw [← hqlog] at ha
  refine ⟨fun hprev => ?_,fun hprev hsome => ?_,?_⟩
  · rw [← hqlog] at hprev
    rw [hr,handleAppendEntries_rejected env q leader es lc hqterm hqrole hprev]
    exact ⟨⟨_,_,rfl⟩,hqlog,hqci,hqla,hqds⟩
  · rw [← hqlog] at hprev
    have h0 : startAt prev + es.length ≠ 0 := by
      rcases hsome with hp | he
      · cases prev with
        | none => exact absurd rfl hp
        | some i =>
          simp only [startAt]
          omega
      · have := List.length_pos_iff.mpr he
        omega
    have hlog := q.spliced_log env leader hprev ha h0
    obtain ⟨hrlog,hrci,forwards,hrout⟩ := handleAppendEntries_accepted env q leader es lc hqterm
      hqrole hprev
    obtain ⟨l,t,a,hsp⟩ := q.spliced_frame env leader prev es
    have hs : startAt prev ≤ q.log.length := startAt_le_of_prevOk ((prevOk_iff ..).mpr hprev)
    have hlen : (q.spliced env leader prev es).log.length = startAt prev + es.length := by
      rw [hlog,List.length_append,List.length_take_of_le hs]
    rw [← hr] at hrlog hrci hrout
    rw [verifiedIndex_eq,if_neg h0] at hrci hrout
    refine ⟨by rw [hrlog,hlog,hqlog],startAt prev + es.length - 1,forwards,?_,hrout,?_⟩
    · rw [hrlog,lastIndexOf_eq,hlen,if_neg h0]
    · rw [hrci,followCommit_commitIndex,hsp,← hqci]
      rfl
  · rintro rfl rfl
    have hprev : Follows q.log none prevTerm := by
      intro i hi
      cases hi
    obtain ⟨hrlog,hrci,forwards,hrout⟩ := handleAppendEntries_accepted env q leader [] lc hqterm
      hqrole hprev
    rw [← hr] at hrlog hrci hrout
    refine ⟨⟨forwards,hrout⟩,hrlog.trans hqlog,hrci.trans ?_⟩
    cases lc with
    | none => exact hqci
    | some c => exact hqci

def stale : RaftProtocol ℕ :=
  { RaftProtocol.new ⟨0,0⟩ ⟨"f",0⟩ 3 ⟨50,150,300⟩ with
    currentTerm := 2
    log := [⟨1,5⟩,⟨1,6⟩,⟨1,7⟩]
    commitIndex := some 0
    lastApplied := some 0 }

theorem append_entries_exact_stale :
    let r := stale.handleMessage ⟨9,0⟩ ⟨"l",0⟩ (.appendEntries 3 ⟨"l",0⟩ (some 0) 1 [⟨1,6⟩,⟨3,8⟩] (some 7))
    r.1.log = [⟨1,5⟩,⟨1,6⟩,⟨3,8⟩] ∧ r.1.commitIndex = some 2 := by
  have hagree : Agrees stale.log (startAt (some 0)) [⟨1,6⟩,⟨3,8⟩] := by
    intro k e x he hx ht
    match k with
    | 0 =>
      cases he
      cases hx
      rfl
    | 1 =>
      cases he
      cases hx
      cases ht
    | k + 2 => cases he
  have hfollows : Follows stale.log (some 0) 1 := by
    intro i hi
    cases hi
    exact ⟨⟨1,5⟩,rfl,rfl⟩
  obtain ⟨hlog,last,_,hlast,_,hci⟩ := (append_entries_exact ⟨9,0⟩ stale ⟨"l",0⟩ ⟨"l",0⟩ 3 (some 0) 1
    [⟨1,6⟩,⟨3,8⟩] (some 7) (by decide) (by decide) hagree).2.1 hfollows (Or.inl nofun)
  refine ⟨hlog,?_⟩
  rw [hlog] at hlast
  cases hlast
  exact hci

end RaftProtocol
end Raft
end Daccord
