import Daccord.Runs
import Mathlib.Data.List.Infix

/-! Log replication by elected leaders, over arbitrary nodes and log entries.
A state is what the nodes hold durably plus the history of who voted, ran, won
and stored what. `book t` is the log of the leader of term `t`. Nothing here
mentions messages: an implementation shows that its steps are steps of this
system and reads its guarantees off the invariants. -/
namespace Daccord
namespace ReplicatedLog

variable {ι E : Type}

/-- Every entry of `l` sits where the leader of its term put it, on top of the
same prefix. -/
def Grown (τ : E → ℕ) (book : ℕ → List E) (l : List E) : Prop :=
  ∀ n e, l[n]? = some e → l.take (n + 1) = (book (τ e)).take (n + 1)

def lastTerm (τ : E → ℕ) (l : List E) : ℕ := (l.getLast?.map τ).getD 0

def UpToDate (τ : E → ℕ) (l l' : List E) : Prop :=
  lastTerm τ l < lastTerm τ l' ∨ (lastTerm τ l = lastTerm τ l' ∧ l.length ≤ l'.length)

/-! Facts about lists of entries. -/

theorem Grown.nil (τ : E → ℕ) (book : ℕ → List E) : Grown τ book [] := by
  intro n e h
  simp at h

theorem Grown.take {τ : E → ℕ} {book : ℕ → List E} {l : List E} (h : Grown τ book l) (k : ℕ) :
    Grown τ book (l.take k) := by
  intro n e he
  rw [List.getElem?_take] at he
  split at he
  · rename_i hn
    rw [List.take_take,Nat.min_eq_left (by omega)]
    exact h n e he
  · simp at he

/-- Two grown lists that carry the same term at one index agree up to it. -/
theorem Grown.matching {τ : E → ℕ} {book : ℕ → List E} {l l' : List E} (h : Grown τ book l)
    (h' : Grown τ book l') {n : ℕ} {e e' : E} (he : l[n]? = some e) (he' : l'[n]? = some e')
    (ht : τ e = τ e') : l.take (n + 1) = l'.take (n + 1) := by
  rw [h n e he,h' n e' he',ht]

/-- A grown list is a prefix of the book of its last term. -/
theorem Grown.prefix_book {τ : E → ℕ} {book : ℕ → List E} {l : List E} (h : Grown τ book l)
    (hl : l ≠ []) : l <+: book (lastTerm τ l) := by
  have hp : 0 < l.length := List.length_pos_iff.mpr hl
  have he : l[l.length - 1]? = some (l.getLast hl) := by
    rw [List.getLast_eq_getElem]
    exact List.getElem?_eq_getElem (by omega)
  have hh := h _ _ he
  rw [Nat.sub_add_cancel hp,List.take_length] at hh
  have ht : lastTerm τ l = τ (l.getLast hl) := by simp [lastTerm,List.getLast?_eq_some_getLast hl]
  rw [ht]
  exact List.prefix_iff_eq_take.mpr hh

theorem Grown.mono {τ : E → ℕ} {book book' : ℕ → List E} {l : List E} (h : Grown τ book l)
    (hb : ∀ t, book t <+: book' t) : Grown τ book' l := by
  intro n e he
  have hh := h n e he
  have hn : n < l.length := (List.getElem?_eq_some_iff.mp he).1
  have hlen : n + 1 ≤ (book (τ e)).length := by
    have := congrArg List.length hh
    simp only [List.length_take] at this
    omega
  obtain ⟨r,hr⟩ := hb (τ e)
  rw [hh,← hr,List.take_append_of_le_length hlen]

theorem prefix_getElem? {l l' : List E} (h : l <+: l') {n : ℕ} {e : E} (he : l[n]? = some e) :
    l'[n]? = some e := by
  obtain ⟨r,rfl⟩ := h
  have hn : n < l.length := (List.getElem?_eq_some_iff.mp he).1
  rw [List.getElem?_append_left hn]
  exact he

/-- Entries of a term above everything in `p` cannot complete `p` as a prefix. -/
theorem prefix_of_prefix_append {τ : E → ℕ} {p l r : List E} {t : ℕ} (h : p <+: l ++ r)
    (hp : ∀ e ∈ p, τ e < t) (hr : ∀ e ∈ r, τ e = t) : p <+: l := by
  rcases Nat.lt_or_ge l.length p.length with hl | hl
  · exfalso
    have hx : p[l.length]? = some p[l.length] := List.getElem?_eq_getElem hl
    have hy := prefix_getElem? h hx
    rw [List.getElem?_append_right (le_refl _),Nat.sub_self] at hy
    have h1 := hp _ (List.getElem_mem hl)
    have h2 := hr _ (List.mem_of_getElem? hy)
    omega
  · exact List.prefix_of_prefix_length_le h (List.prefix_append l r) hl

theorem take_of_prefix {l l' : List E} (h : l <+: l') {n : ℕ} (hn : n ≤ l.length) :
    l'.take n = l.take n := by
  obtain ⟨r,rfl⟩ := h
  exact List.take_append_of_le_length hn

theorem prefix_update (book : ℕ → List E) {t : ℕ} {l : List E} (hl : book t <+: l) (u : ℕ) :
    book u <+: Function.update book t l u := by
  by_cases hu : u = t
  · subst hu
    simpa using hl
  · simp [hu]

/-- Durable node state and history. `poll t i` is the log node `i` ran with in
term `t`; `ack i t n` says that `i` has stored the first `n` entries of
`book t` while in term `t`. -/
structure State (ι E : Type) where
  term : ι → ℕ
  vote : ι → Option ι
  log : ι → List E
  lead : ι → Prop
  ballot : ℕ → ι → ι → Prop
  ran : ℕ → ι → Prop
  poll : ℕ → ι → List E
  won : ℕ → ι → Prop
  book : ℕ → List E
  ack : ι → ℕ → ℕ → Prop

def State.start : State ι E where
  term _ := 0
  vote _ := none
  log _ := []
  lead _ := False
  ballot _ _ _ := False
  ran _ _ := False
  poll _ _ := []
  won _ _ := False
  book _ := []
  ack _ _ _ := False

namespace State

variable [DecidableEq ι]

/-- Enter a later term, with any vote: no ballot of that term is out yet. -/
def observe (s : State ι E) (i : ι) (t : ℕ) (v : Option ι) : State ι E :=
  { s with
    term := Function.update s.term i t
    vote := Function.update s.vote i v
    lead := fun j => s.lead j ∧ j ≠ i }

def cast (s : State ι E) (i c : ι) : State ι E :=
  { s with
    vote := Function.update s.vote i (some c)
    ballot := fun t v d => s.ballot t v d ∨ (t = s.term i ∧ v = i ∧ d = c) }

def campaign (s : State ι E) (i : ι) : State ι E :=
  { s with
    term := Function.update s.term i (s.term i + 1)
    vote := Function.update s.vote i (some i)
    lead := fun j => s.lead j ∧ j ≠ i
    ballot := fun t v d => s.ballot t v d ∨ (t = s.term i + 1 ∧ v = i ∧ d = i)
    ran := fun t j => s.ran t j ∨ (t = s.term i + 1 ∧ j = i)
    poll := fun t j => if t = s.term i + 1 ∧ j = i then s.log i else s.poll t j }

def win (s : State ι E) (i : ι) : State ι E :=
  { s with
    lead := fun j => s.lead j ∨ j = i
    won := fun t j => s.won t j ∨ (t = s.term i ∧ j = i)
    book := Function.update s.book (s.term i) (s.log i)
    ack := fun j t n => s.ack j t n ∨ (j = i ∧ t = s.term i ∧ n = (s.log i).length) }

def append (s : State ι E) (i : ι) (es : List E) : State ι E :=
  { s with
    log := Function.update s.log i (s.log i ++ es)
    book := Function.update s.book (s.term i) (s.book (s.term i) ++ es)
    ack := fun j t n => s.ack j t n ∨ (j = i ∧ t = s.term i ∧ n = (s.log i ++ es).length) }

/-- Take over the first `k` entries of the leader's log. -/
def accept (s : State ι E) (i : ι) (k : ℕ) : State ι E :=
  { s with
    log := Function.update s.log i ((s.book (s.term i)).take k)
    ack := fun j t n => s.ack j t n ∨ (j = i ∧ t = s.term i ∧ n = k) }

/-- Drop a suffix that conflicts with the leader's log. -/
def shrink (s : State ι E) (i : ι) (n : ℕ) : State ι E :=
  { s with log := Function.update s.log i ((s.log i).take n) }

def retire (s : State ι E) (i : ι) : State ι E :=
  { s with lead := fun j => s.lead j ∧ j ≠ i }

def resume (s : State ι E) (i : ι) : State ι E :=
  { s with lead := fun j => s.lead j ∨ j = i }

end State

def Fresh (τ : E → ℕ) (s : State ι E) (i : ι) (k : ℕ) : Prop :=
  ∀ n e, (s.log i)[n]? = some e → τ e = s.term i → n < k

/-- The steps node `i` can take. Under `strict` no step drops an entry that the
leader of the current term has already stored at the node. -/
inductive Step [DecidableEq ι] [Fintype ι] (τ : E → ℕ) (strict : Prop) (i : ι) (s : State ι E) :
    State ι E → Prop
  | observe (t : ℕ) (v : Option ι) (ht : s.term i < t) : Step τ strict i s (s.observe i t v)
  | cast (c : ι) (hran : s.ran (s.term i) c) (hv : s.vote i = none ∨ s.vote i = some c)
      (hup : UpToDate τ (s.log i) (s.poll (s.term i) c)) : Step τ strict i s (s.cast i c)
  | campaign : Step τ strict i s (s.campaign i)
  | win (Q : Finset ι) (hran : s.ran (s.term i) i) (hlog : s.log i = s.poll (s.term i) i)
      (hnew : ¬ s.won (s.term i) i) (hQ : Majority Q) (hb : ∀ v ∈ Q, s.ballot (s.term i) v i) :
      Step τ strict i s (s.win i)
  | append (es : List E) (hlead : s.lead i) (hes : ∀ e ∈ es, τ e = s.term i) :
      Step τ strict i s (s.append i es)
  | accept (c : ι) (k : ℕ) (hw : s.won (s.term i) c) (hl : ¬ s.lead i)
      (hlo : (s.poll (s.term i) c).length ≤ k) (hhi : k ≤ (s.book (s.term i)).length)
      (hf : strict → Fresh τ s i k) : Step τ strict i s (s.accept i k)
  | shrink (c : ι) (n : ℕ) (a b : E) (hw : s.won (s.term i) c) (hl : ¬ s.lead i)
      (ha : (s.log i)[n]? = some a) (hb : (s.book (s.term i))[n]? = some b) (hne : τ a ≠ τ b) :
      Step τ strict i s (s.shrink i n)
  | retire : Step τ strict i s (s.retire i)
  | resume (hw : s.won (s.term i) i) (hlog : s.log i = s.book (s.term i)) :
      Step τ strict i s (s.resume i)

/-- What holds without any assumption on the order of messages. -/
structure Base [Fintype ι] (τ : E → ℕ) (s : State ι E) : Prop where
  ballot_le : ∀ {t v c}, s.ballot t v c → t ≤ s.term v
  ballot_vote : ∀ {v c}, s.ballot (s.term v) v c → s.vote v = some c
  ballot_unique : ∀ {t v c d}, s.ballot t v c → s.ballot t v d → c = d
  ballot_ran : ∀ {t v c}, s.ballot t v c → s.ran t c
  ran_le : ∀ {t i}, s.ran t i → t ≤ s.term i
  won_ran : ∀ {t c}, s.won t c → s.ran t c
  won_quorum : ∀ {t c}, s.won t c → ∃ Q : Finset ι, Majority Q ∧ ∀ v ∈ Q, s.ballot t v c
  lead_won : ∀ {i}, s.lead i → s.won (s.term i) i
  lead_log : ∀ {i}, s.lead i → s.log i = s.book (s.term i)
  log_grown : ∀ i, Grown τ s.book (s.log i)
  book_grown : ∀ t, Grown τ s.book (s.book t)
  poll_grown : ∀ t i, Grown τ s.book (s.poll t i)
  book_won : ∀ {t}, s.book t ≠ [] → ∃ c, s.won t c
  log_le : ∀ {i e}, e ∈ s.log i → τ e ≤ s.term i
  book_le : ∀ {t e}, e ∈ s.book t → τ e ≤ t
  poll_lt : ∀ {t i e}, e ∈ s.poll t i → τ e < t
  poll_book : ∀ {t c}, s.won t c → s.poll t c <+: s.book t
  book_own : ∀ {t c n e}, s.won t c → (s.book t)[n]? = some e → (s.poll t c).length ≤ n → τ e = t
  book_sorted : ∀ t, (s.book t).Pairwise fun a b => τ a ≤ τ b
  won_ack : ∀ {t c}, s.won t c → s.ack c t (s.book t).length

section
variable [Fintype ι] {τ : E → ℕ} {s : State ι E}

theorem Base.start : Base τ (State.start : State ι E) := by
  constructor <;> intros <;> simp_all [State.start,Grown.nil]

theorem Base.won_unique [DecidableEq ι] (h : Base τ s) {t : ℕ} {c d : ι} (hc : s.won t c)
    (hd : s.won t d) : c = d := by
  obtain ⟨Q,hQ,hQb⟩ := h.won_quorum hc
  obtain ⟨R,hR,hRb⟩ := h.won_quorum hd
  obtain ⟨v,hvQ,hvR⟩ := hQ.inter hR
  exact h.ballot_unique (hQb v hvQ) (hRb v hvR)

theorem Base.won_le (h : Base τ s) {t : ℕ} {c : ι} (hc : s.won t c) : t ≤ s.term c :=
  h.ran_le (h.won_ran hc)

theorem Base.log_sorted (h : Base τ s) (i : ι) : (s.log i).Pairwise fun a b => τ a ≤ τ b := by
  by_cases hl : s.log i = []
  · simp [hl]
  · exact (h.book_sorted _).sublist ((h.log_grown i).prefix_book hl).sublist

theorem Base.retire (h : Base τ s) (i : ι) : Base τ (s.retire i) :=
  { h with
    lead_won := fun hj => h.lead_won hj.1
    lead_log := fun hj => h.lead_log hj.1 }

theorem Base.resume (h : Base τ s) {i : ι} (hw : s.won (s.term i) i)
    (hlog : s.log i = s.book (s.term i)) : Base τ (s.resume i) := by
  refine { h with
    lead_won := ?_
    lead_log := ?_ }
  · rintro j (hj | rfl)
    · exact h.lead_won hj
    · exact hw
  · rintro j (hj | rfl)
    · exact h.lead_log hj
    · exact hlog

variable [DecidableEq ι]

theorem Base.observe (h : Base τ s) {i : ι} {t : ℕ} (v : Option ι) (ht : s.term i < t) :
    Base τ (s.observe i t v) := by
  have hup : ∀ j, s.term j ≤ Function.update s.term i t j := by
    intro j
    by_cases hj : j = i
    · subst hj; simpa using ht.le
    · simp [hj]
  refine { h with
    ballot_le := fun hb => (h.ballot_le hb).trans (hup _)
    ballot_vote := ?_
    ran_le := fun hr => (h.ran_le hr).trans (hup _)
    lead_won := ?_
    lead_log := ?_
    log_le := fun he => (h.log_le he).trans (hup _) }
  · intro w c hb
    by_cases hw : w = i
    · subst hw
      have hle := h.ballot_le hb
      simp only [State.observe,Function.update_self] at hle
      omega
    · simp only [State.observe,Function.update_of_ne hw] at hb ⊢
      exact h.ballot_vote hb
  · rintro j ⟨hj,hji⟩
    simpa [State.observe,hji] using h.lead_won hj
  · rintro j ⟨hj,hji⟩
    simpa [State.observe,hji] using h.lead_log hj

theorem Base.cast (h : Base τ s) {i c : ι} (hran : s.ran (s.term i) c)
    (hv : s.vote i = none ∨ s.vote i = some c) : Base τ (s.cast i c) := by
  -- an earlier ballot of this term pins the vote, so it names the same candidate
  have hold : ∀ {d}, s.ballot (s.term i) i d → d = c := by
    intro d hd
    rcases hv with hv | hv
    · simp [h.ballot_vote hd] at hv
    · simpa [h.ballot_vote hd] using hv
  refine { h with
    ballot_le := ?_
    ballot_vote := ?_
    ballot_unique := ?_
    ballot_ran := ?_
    won_quorum := ?_ }
  · rintro t v d (hb | ⟨rfl,rfl,rfl⟩)
    · exact h.ballot_le hb
    · exact le_refl _
  · rintro v d (hb | ⟨hte,rfl,rfl⟩)
    · by_cases hvi : v = i
      · subst hvi
        simp [State.cast,hold hb]
      · simpa [State.cast,hvi] using h.ballot_vote hb
    · simp [State.cast]
  · rintro t v d d' (hb | ⟨rfl,rfl,rfl⟩) (hb' | ⟨ht,hv',rfl⟩)
    · exact h.ballot_unique hb hb'
    · subst ht hv'
      exact hold hb
    · exact (hold hb').symm
    · rfl
  · rintro t v d (hb | ⟨rfl,rfl,rfl⟩)
    · exact h.ballot_ran hb
    · exact hran
  · intro t d hd
    obtain ⟨Q,hQ,hb⟩ := h.won_quorum hd
    exact ⟨Q,hQ,fun v hvQ => Or.inl (hb v hvQ)⟩

theorem Base.campaign (h : Base τ s) (i : ι) : Base τ (s.campaign i) := by
  have hup : ∀ j, s.term j ≤ Function.update s.term i (s.term i + 1) j := by
    intro j
    by_cases hj : j = i
    · subst hj; simp
    · simp [hj]
  -- nobody has run or voted in the new term under this name
  have hfresh : ¬ s.ran (s.term i + 1) i := fun hr => by
    have := h.ran_le hr
    omega
  have hpoll : ∀ {t c}, s.won t c → (s.campaign i).poll t c = s.poll t c := by
    intro t c hc
    have hne : ¬ (t = s.term i + 1 ∧ c = i) := by
      rintro ⟨rfl,rfl⟩
      exact hfresh (h.won_ran hc)
    simp [State.campaign,hne]
  refine { h with
    ballot_le := ?_
    ballot_vote := ?_
    ballot_unique := ?_
    ballot_ran := ?_
    ran_le := ?_
    won_ran := fun hc => Or.inl (h.won_ran hc)
    won_quorum := ?_
    lead_won := ?_
    lead_log := ?_
    poll_grown := ?_
    log_le := fun he => (h.log_le he).trans (hup _)
    poll_lt := ?_
    poll_book := fun hc => by rw [hpoll hc]; exact h.poll_book hc
    book_own := fun hc he hn => h.book_own hc he (by rwa [hpoll hc] at hn) }
  · rintro t v d (hb | ⟨rfl,rfl,rfl⟩)
    · exact (h.ballot_le hb).trans (hup v)
    · simp [State.campaign]
  · rintro v d (hb | ⟨hte,rfl,rfl⟩)
    · by_cases hvi : v = i
      · subst hvi
        have hle := h.ballot_le hb
        simp only [State.campaign,Function.update_self] at hle
        omega
      · simp only [State.campaign,Function.update_of_ne hvi] at hb ⊢
        exact h.ballot_vote hb
    · simp [State.campaign]
  · rintro t v d d' (hb | ⟨rfl,rfl,rfl⟩) (hb' | ⟨ht,hv',rfl⟩)
    · exact h.ballot_unique hb hb'
    · subst ht hv'
      have := h.ballot_le hb
      omega
    · have := h.ballot_le hb'
      omega
    · rfl
  · rintro t v d (hb | ⟨rfl,rfl,rfl⟩)
    · exact Or.inl (h.ballot_ran hb)
    · exact Or.inr ⟨rfl,rfl⟩
  · rintro t j (hr | ⟨rfl,rfl⟩)
    · exact (h.ran_le hr).trans (hup j)
    · simp [State.campaign]
  · intro t d hd
    obtain ⟨Q,hQ,hb⟩ := h.won_quorum hd
    exact ⟨Q,hQ,fun v hvQ => Or.inl (hb v hvQ)⟩
  · rintro j ⟨hj,hji⟩
    simpa [State.campaign,hji] using h.lead_won hj
  · rintro j ⟨hj,hji⟩
    simpa [State.campaign,hji] using h.lead_log hj
  · intro t j
    simp only [State.campaign]
    split_ifs
    · exact h.log_grown i
    · exact h.poll_grown t j
  · intro t j e he
    simp only [State.campaign] at he
    split_ifs at he with hc
    · have := h.log_le he
      omega
    · exact h.poll_lt he

omit [DecidableEq ι] in
theorem Base.win (h : Base τ s) {i : ι} {Q : Finset ι} (hran : s.ran (s.term i) i)
    (hlog : s.log i = s.poll (s.term i) i) (hnew : ∀ c, ¬ s.won (s.term i) c) (hQ : Majority Q)
    (hb : ∀ v ∈ Q, s.ballot (s.term i) v i) : Base τ (s.win i) := by
  have hempty : s.book (s.term i) = [] := by
    by_contra hne
    obtain ⟨c,hc⟩ := h.book_won hne
    exact hnew c hc
  have hext := prefix_update s.book (l := s.log i) (hempty ▸ List.nil_prefix)
  have hne : ∀ {t c}, s.won t c → t ≠ s.term i := by
    rintro t c hc rfl
    exact hnew c hc
  have hbook : ∀ {t}, t ≠ s.term i → (s.win i).book t = s.book t := by
    intro t ht
    simp [State.win,ht]
  have hself : (s.win i).book (s.term i) = s.log i := by simp [State.win]
  refine { h with
    won_ran := ?_
    won_quorum := ?_
    lead_won := ?_
    lead_log := ?_
    log_grown := fun j => (h.log_grown j).mono hext
    book_grown := ?_
    poll_grown := fun t j => (h.poll_grown t j).mono hext
    book_won := ?_
    book_le := ?_
    poll_book := ?_
    book_own := ?_
    book_sorted := ?_
    won_ack := ?_ }
  · rintro t c (hc | ⟨rfl,rfl⟩)
    · exact h.won_ran hc
    · exact hran
  · rintro t c (hc | ⟨rfl,rfl⟩)
    · exact h.won_quorum hc
    · exact ⟨Q,hQ,hb⟩
  · rintro j (hj | rfl)
    · exact Or.inl (h.lead_won hj)
    · exact Or.inr ⟨rfl,rfl⟩
  · rintro j (hj | rfl)
    · exact (h.lead_log hj).trans (hbook (hne (h.lead_won hj))).symm
    · exact hself.symm
  · intro t
    by_cases ht : t = s.term i
    · subst ht
      rw [hself]
      exact (h.log_grown i).mono hext
    · rw [hbook ht]
      exact (h.book_grown t).mono hext
  · intro t ht
    by_cases hti : t = s.term i
    · exact ⟨i,Or.inr ⟨hti,rfl⟩⟩
    · rw [hbook hti] at ht
      obtain ⟨c,hc⟩ := h.book_won ht
      exact ⟨c,Or.inl hc⟩
  · intro t e he
    by_cases ht : t = s.term i
    · subst ht
      rw [hself] at he
      exact h.log_le he
    · rw [hbook ht] at he
      exact h.book_le he
  · rintro t c (hc | ⟨rfl,rfl⟩)
    · rw [hbook (hne hc)]
      exact h.poll_book hc
    · rw [hself,hlog]
      exact List.prefix_rfl
  · rintro t c n e (hc | ⟨rfl,rfl⟩) he hn
    · rw [hbook (hne hc)] at he
      exact h.book_own hc he hn
    · rw [hself,hlog] at he
      have := (List.getElem?_eq_some_iff.mp he).1
      change (s.poll _ _).length ≤ n at hn
      omega
  · intro t
    by_cases ht : t = s.term i
    · subst ht
      rw [hself]
      exact h.log_sorted i
    · rw [hbook ht]
      exact h.book_sorted t
  · rintro t c (hc | ⟨rfl,rfl⟩)
    · rw [hbook (hne hc)]
      exact Or.inl (h.won_ack hc)
    · rw [hself]
      exact Or.inr ⟨rfl,rfl,rfl⟩

/-- Growing the book of its own term keeps a list grown. -/
theorem Grown.append {book : ℕ → List E} {l es : List E} {t : ℕ} (h : Grown τ book l)
    (hb : book t = l ++ es) (hes : ∀ e ∈ es, τ e = t) : Grown τ book (l ++ es) := by
  intro n e he
  rcases Nat.lt_or_ge n l.length with hn | hn
  · rw [List.getElem?_append_left hn] at he
    rw [List.take_append_of_le_length hn,h n e he]
  · rw [List.getElem?_append_right hn] at he
    rw [hes e (List.mem_of_getElem? he),hb]

theorem Base.append (h : Base τ s) {i : ι} {es : List E} (hlead : s.lead i)
    (hes : ∀ e ∈ es, τ e = s.term i) : Base τ (s.append i es) := by
  have hlog := h.lead_log hlead
  have hwon := h.lead_won hlead
  have hext := prefix_update s.book (List.prefix_append (s.book (s.term i)) es)
  have hbook : ∀ {t}, t ≠ s.term i → (s.append i es).book t = s.book t := by
    intro t ht
    simp [State.append,ht]
  have hself : (s.append i es).book (s.term i) = s.book (s.term i) ++ es := by
    simp [State.append]
  have hmem : ∀ {e}, e ∈ s.book (s.term i) ++ es → τ e ≤ s.term i := by
    intro e he
    rcases List.mem_append.mp he with he | he
    · exact h.book_le he
    · exact (hes e he).le
  have hown : (s.append i es).log i = s.book (s.term i) ++ es := by simp [State.append,hlog]
  have hlogs : ∀ {j}, j ≠ i → (s.append i es).log j = s.log j := by
    intro j hj
    simp [State.append,hj]
  have hgrown : Grown τ (s.append i es).book (s.book (s.term i) ++ es) :=
    ((h.book_grown _).mono hext).append hself hes
  refine { h with
    lead_log := ?_
    log_grown := ?_
    book_grown := ?_
    poll_grown := fun t j => (h.poll_grown t j).mono hext
    book_won := ?_
    log_le := ?_
    book_le := ?_
    poll_book := fun hc => (h.poll_book hc).trans (hext _)
    book_own := ?_
    book_sorted := ?_
    won_ack := ?_ }
  · intro j hj
    by_cases hji : j = i
    · subst hji
      exact hown.trans hself.symm
    · have hne : s.term j ≠ s.term i := by
        intro heq
        have hj' := h.lead_won hj
        rw [heq] at hj'
        exact hji (h.won_unique hj' hwon)
      rw [hlogs hji]
      exact (h.lead_log hj).trans (hbook hne).symm
  · intro j
    by_cases hji : j = i
    · subst hji
      rw [hown]
      exact hgrown
    · rw [hlogs hji]
      exact (h.log_grown j).mono hext
  · intro t
    by_cases ht : t = s.term i
    · subst ht
      rw [hself]
      exact hgrown
    · rw [hbook ht]
      exact (h.book_grown t).mono hext
  · intro t ht
    by_cases hti : t = s.term i
    · subst hti
      exact ⟨i,hwon⟩
    · rw [hbook hti] at ht
      exact h.book_won ht
  · intro j e he
    by_cases hji : j = i
    · subst hji
      rw [hown] at he
      exact hmem he
    · rw [hlogs hji] at he
      exact h.log_le he
  · intro t e he
    by_cases ht : t = s.term i
    · subst ht
      rw [hself] at he
      exact hmem he
    · rw [hbook ht] at he
      exact h.book_le he
  · intro t c n e hc he hn
    by_cases ht : t = s.term i
    · subst ht
      rw [hself] at he
      rcases Nat.lt_or_ge n (s.book (s.term i)).length with hlt | hge
      · rw [List.getElem?_append_left hlt] at he
        exact h.book_own hc he hn
      · rw [List.getElem?_append_right hge] at he
        exact hes e (List.mem_of_getElem? he)
    · rw [hbook ht] at he
      exact h.book_own hc he hn
  · intro t
    by_cases ht : t = s.term i
    · subst ht
      rw [hself,List.pairwise_append]
      refine ⟨h.book_sorted _,?_,?_⟩
      · exact List.pairwise_of_forall_mem_list fun a ha b hb => by rw [hes a ha,hes b hb]
      · intro a ha b hb
        rw [hes b hb]
        exact h.book_le ha
    · rw [hbook ht]
      exact h.book_sorted t
  · intro t c hc
    by_cases ht : t = s.term i
    · subst ht
      rw [hself,← hlog]
      exact Or.inr ⟨h.won_unique hc hwon,rfl,rfl⟩
    · rw [hbook ht]
      exact Or.inl (h.won_ack hc)

/-- Replacing a follower's log by part of its own or of its leader's log. -/
theorem Base.setLog (h : Base τ s) {i : ι} {l : List E} (hl : ¬ s.lead i)
    (hg : Grown τ s.book l) (hle : ∀ e ∈ l, τ e ≤ s.term i) :
    Base τ { s with log := Function.update s.log i l } := by
  refine { h with
    lead_log := ?_
    log_grown := ?_
    log_le := ?_ }
  · intro j hj
    have hji : j ≠ i := by
      rintro rfl
      exact hl hj
    simpa [hji] using h.lead_log hj
  · intro j
    by_cases hji : j = i
    · subst hji
      simpa using hg
    · simpa [hji] using h.log_grown j
  · intro j e he
    by_cases hji : j = i
    · subst hji
      exact hle e (by simpa using he)
    · exact h.log_le (by simpa [hji] using he)

theorem Base.accept (h : Base τ s) {i : ι} (k : ℕ) (hl : ¬ s.lead i) : Base τ (s.accept i k) := by
  have hset := h.setLog hl ((h.book_grown (s.term i)).take k)
    fun e he => h.book_le (List.mem_of_mem_take he)
  exact { hset with won_ack := fun hc => Or.inl (h.won_ack hc) }

theorem Base.shrink (h : Base τ s) {i : ι} (n : ℕ) (hl : ¬ s.lead i) : Base τ (s.shrink i n) :=
  h.setLog hl ((h.log_grown i).take n) fun _ he => h.log_le (List.mem_of_mem_take he)

/-- A candidate with a quorum is the first to win its term. -/
theorem Base.no_winner (h : Base τ s) {i : ι} {Q : Finset ι} (hnew : ¬ s.won (s.term i) i)
    (hQ : Majority Q) (hb : ∀ v ∈ Q, s.ballot (s.term i) v i) (c : ι) : ¬ s.won (s.term i) c := by
  intro hc
  obtain ⟨R,hR,hRb⟩ := h.won_quorum hc
  obtain ⟨v,hvQ,hvR⟩ := hQ.inter hR
  have hci := h.ballot_unique (hb v hvQ) (hRb v hvR)
  subst hci
  exact hnew hc

theorem Base.step {strict : Prop} {i : ι} {s' : State ι E} (h : Base τ s)
    (hs : Step τ strict i s s') : Base τ s' := by
  cases hs with
  | observe t v ht => exact h.observe v ht
  | cast c hran hv hup => exact h.cast hran hv
  | campaign => exact h.campaign i
  | win Q hran hlog hnew hQ hb => exact h.win hran hlog (h.no_winner hnew hQ hb) hQ hb
  | append es hlead hes => exact h.append hlead hes
  | accept c k hw hl hlo hhi hf => exact h.accept k hl
  | shrink c n a b hw hl ha hb hne => exact h.shrink n hl
  | retire => exact h.retire i
  | resume hw hlog => exact h.resume hw hlog

end

structure Extends (τ : E → ℕ) (s s' : State ι E) : Prop where
  term : ∀ i, s.term i ≤ s'.term i
  ballot : ∀ {t v c}, s.ballot t v c → s'.ballot t v c
  ran : ∀ {t i}, s.ran t i → s'.ran t i
  poll : ∀ {t i}, s.ran t i → s'.poll t i = s.poll t i
  won : ∀ {t c}, s.won t c → s'.won t c
  book : ∀ t, s.book t <+: s'.book t
  book_new : ∀ {t c n e}, s.won t c → (s'.book t)[n]? = some e → (s.book t).length ≤ n → τ e = t
  ack : ∀ {i t n}, s.ack i t n → s'.ack i t n

section
variable {τ : E → ℕ} {s s' s'' : State ι E}

theorem Extends.of_same (hterm : ∀ i, s.term i ≤ s'.term i) (hballot : s'.ballot = s.ballot)
    (hran : s'.ran = s.ran) (hpoll : s'.poll = s.poll) (hwon : s'.won = s.won)
    (hbook : s'.book = s.book) (hack : s'.ack = s.ack) : Extends τ s s' where
  term := hterm
  ballot := by simp [hballot]
  ran := by simp [hran]
  poll := by simp [hpoll]
  won := by simp [hwon]
  book := by simp [hbook]
  book_new := by
    intro t c n e _ he hn
    rw [hbook] at he
    have := (List.getElem?_eq_some_iff.mp he).1
    omega
  ack := by simp [hack]

theorem Extends.refl (τ : E → ℕ) (s : State ι E) : Extends τ s s :=
  .of_same (fun _ => le_refl _) rfl rfl rfl rfl rfl rfl

theorem Extends.trans (h : Extends τ s s') (h' : Extends τ s' s'') : Extends τ s s'' where
  term i := (h.term i).trans (h'.term i)
  ballot hb := h'.ballot (h.ballot hb)
  ran hr := h'.ran (h.ran hr)
  poll hr := (h'.poll (h.ran hr)).trans (h.poll hr)
  won hw := h'.won (h.won hw)
  book t := (h.book t).trans (h'.book t)
  book_new := by
    intro t c n e hw he hn
    rcases Nat.lt_or_ge n (s'.book t).length with hlt | hge
    · have he' := prefix_getElem? (h'.book t) (List.getElem?_eq_getElem hlt)
      rw [he'] at he
      obtain rfl := Option.some.inj he
      exact h.book_new hw (List.getElem?_eq_getElem hlt) hn
    · exact h'.book_new (h.won hw) he hge
  ack ha := h'.ack (h.ack ha)

/-- What a list of earlier entries fails to be, it does not become when the book grows. -/
theorem Extends.prefix_book (h : Extends τ s s') {p : List E} {w : ℕ} {c : ι} (hw : s.won w c)
    (hp : ∀ e ∈ p, τ e < w) (hpre : p <+: s'.book w) : p <+: s.book w := by
  obtain ⟨r,hr⟩ := h.book w
  rw [← hr] at hpre
  refine prefix_of_prefix_append hpre hp fun e he => ?_
  obtain ⟨n,hn⟩ := List.mem_iff_getElem?.mp he
  refine h.book_new hw (n := (s.book w).length + n) ?_ (Nat.le_add_right _ _)
  rw [← hr,List.getElem?_append_right (Nat.le_add_right _ _),Nat.add_sub_cancel_left]
  exact hn

theorem Extends.take_book (h : Extends τ s s') {t n : ℕ} (hn : n ≤ (s.book t).length) :
    (s'.book t).take n = (s.book t).take n :=
  take_of_prefix (h.book t) hn

variable [Fintype ι] [DecidableEq ι]

theorem Base.extends {strict : Prop} {i : ι} (h : Base τ s) (hs : Step τ strict i s s') :
    Extends τ s s' := by
  have hup : ∀ {t}, s.term i ≤ t → ∀ j, s.term j ≤ Function.update s.term i t j := by
    intro t ht j
    by_cases hj : j = i
    · subst hj; simpa using ht
    · simp [hj]
  cases hs with
  | observe t v ht => exact .of_same (hup ht.le) rfl rfl rfl rfl rfl rfl
  | cast c => exact { Extends.refl τ s with ballot := Or.inl }
  | campaign =>
    refine { Extends.refl τ s with
      term := hup (Nat.le_succ _)
      ballot := Or.inl
      ran := Or.inl
      poll := ?_ }
    intro t j hr
    have hne : ¬ (t = s.term i + 1 ∧ j = i) := by
      rintro ⟨rfl,rfl⟩
      have := h.ran_le hr
      omega
    simp [State.campaign,hne]
  | win Q hran hlog hnew hQ hb =>
    have hno := h.no_winner hnew hQ hb
    have hempty : s.book (s.term i) = [] := by
      by_contra hne
      obtain ⟨c,hc⟩ := h.book_won hne
      exact hno c hc
    refine { Extends.refl τ s with
      won := Or.inl
      book := prefix_update s.book (hempty ▸ List.nil_prefix)
      book_new := ?_
      ack := Or.inl }
    intro t c n e hw he hn
    have hne : t ≠ s.term i := by
      rintro rfl
      exact hno c hw
    simp only [State.win,Function.update_of_ne hne] at he
    have := (List.getElem?_eq_some_iff.mp he).1
    omega
  | append es hlead hes =>
    refine { Extends.refl τ s with
      book := prefix_update s.book (List.prefix_append _ _)
      book_new := ?_
      ack := Or.inl }
    intro t c n e hw he hn
    by_cases ht : t = s.term i
    · subst ht
      simp only [State.append,Function.update_self] at he
      rw [List.getElem?_append_right hn] at he
      exact hes e (List.mem_of_getElem? he)
    · simp only [State.append,Function.update_of_ne ht] at he
      have := (List.getElem?_eq_some_iff.mp he).1
      omega
  | accept c k => exact { Extends.refl τ s with ack := Or.inl }
  | shrink c n => exact .of_same (fun _ => le_refl _) rfl rfl rfl rfl rfl rfl
  | retire => exact .of_same (fun _ => le_refl _) rfl rfl rfl rfl rfl rfl
  | resume => exact .of_same (fun _ => le_refl _) rfl rfl rfl rfl rfl rfl

structure Apart (i : ι) (s s' : State ι E) : Prop where
  term : ∀ {j}, j ≠ i → s'.term j = s.term j
  vote : ∀ {j}, j ≠ i → s'.vote j = s.vote j
  log : ∀ {j}, j ≠ i → s'.log j = s.log j
  lead : ∀ {j}, j ≠ i → (s'.lead j ↔ s.lead j)
  won : ∀ {j t}, j ≠ i → (s'.won t j ↔ s.won t j)

omit [Fintype ι] [DecidableEq ι] in
theorem Apart.trans {i : ι} (h : Apart i s s') (h' : Apart i s' s'') : Apart i s s'' where
  term hj := (h'.term hj).trans (h.term hj)
  vote hj := (h'.vote hj).trans (h.vote hj)
  log hj := (h'.log hj).trans (h.log hj)
  lead hj := (h'.lead hj).trans (h.lead hj)
  won hj := (h'.won hj).trans (h.won hj)

theorem Step.apart {strict : Prop} {i : ι} (hs : Step τ strict i s s') : Apart i s s' := by
  cases hs <;> constructor <;> intros <;>
    simp_all [State.observe,State.cast,State.campaign,State.win,State.append,State.accept,
      State.shrink,State.retire,State.resume]

abbrev Steps (τ : E → ℕ) (strict : Prop) (i : ι) : State ι E → State ι E → Prop :=
  Relation.ReflTransGen (Step τ strict i)

theorem Steps.apart {strict : Prop} {i : ι} (hs : Steps τ strict i s s') : Apart i s s' := by
  induction hs with
  | refl => constructor <;> intros <;> simp
  | tail _ hstep ih => exact ih.trans hstep.apart

abbrev Moves (τ : E → ℕ) (strict : Prop) : State ι E → State ι E → Prop :=
  Relation.ReflTransGen fun s s' => ∃ i, Step τ strict i s s'

theorem Steps.moves {strict : Prop} {i : ι} (hs : Steps τ strict i s s') :
    Moves τ strict s s' := by
  induction hs with
  | refl => exact .refl
  | tail _ hstep ih => exact ih.tail ⟨i,hstep⟩

theorem Base.moves {strict : Prop} (h : Base τ s) (hs : Moves τ strict s s') :
    Base τ s' ∧ Extends τ s s' := by
  induction hs with
  | refl => exact ⟨h,.refl τ s⟩
  | tail _ hstep ih =>
    obtain ⟨i,hstep⟩ := hstep
    exact ⟨ih.1.step hstep,ih.2.trans (ih.1.extends hstep)⟩

theorem Base.steps {strict : Prop} {i : ι} (h : Base τ s) (hs : Steps τ strict i s s') :
    Base τ s' ∧ Extends τ s s' := h.moves hs.moves

end

end ReplicatedLog
end Daccord
