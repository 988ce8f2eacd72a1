import Daccord.ReplicatedLog

/-! Commitment in the replicated log. When no step drops an entry that the
leader of the current term stored at a node, an entry of a leader's own term
that a majority stored is in the log of every later leader. -/
namespace Daccord
namespace ReplicatedLog

variable {ι E : Type} {τ : E → ℕ} {s s' : State ι E}

/-- `p` is missing from the log of some leader after `t` and before `u`. -/
def Lost (s : State ι E) (p : List E) (t u : ℕ) : Prop :=
  ∃ w c, t < w ∧ w < u ∧ s.won w c ∧ ¬ p <+: s.book w

/-- What node `f` stored of the log of term `t` is still there, unless a later
leader lacks it. -/
def Kept (s : State ι E) (f : ι) (t n : ℕ) : Prop :=
  ∀ m ≤ n, (s.book t).take m <+: s.log f ∨ Lost s ((s.book t).take m) t (s.term f + 1)

/-- The own entries of term `t` below `n` are in `l`, unless a leader before
`u` lacks them. -/
def Covers (τ : E → ℕ) (s : State ι E) (t n u : ℕ) (l : List E) : Prop :=
  ∀ m e, m < n → (s.book t)[m]? = some e → τ e = t →
    (s.book t).take (m + 1) <+: l ∨ Lost s ((s.book t).take (m + 1)) t u

theorem take_prefix_take {l : List E} {m n : ℕ} (h : m ≤ n) : l.take m <+: l.take n := by
  rw [← Nat.min_eq_left h,← List.take_take]
  exact List.take_prefix m _

theorem Lost.mono (h : Extends τ s s') {p : List E} {t u u' : ℕ} (hp : ∀ e ∈ p, τ e ≤ t)
    (hu : u ≤ u') (hl : Lost s p t u) : Lost s' p t u' := by
  obtain ⟨w,c,htw,hwu,hw,hn⟩ := hl
  refine ⟨w,c,htw,hwu.trans_le hu,h.won hw,fun hpre => hn ?_⟩
  exact h.prefix_book hw (fun e he => (hp e he).trans_lt htw) hpre

theorem lastTerm_eq {l : List E} (hl : l ≠ []) :
    ∃ e, l[l.length - 1]? = some e ∧ τ e = lastTerm τ l := by
  refine ⟨l.getLast hl,?_,?_⟩
  · rw [← List.getLast?_eq_getElem?,List.getLast?_eq_some_getLast hl]
  · simp [lastTerm,List.getLast?_eq_some_getLast hl]

theorem le_lastTerm {l : List E} (hl : l.Pairwise fun a b => τ a ≤ τ b) {n : ℕ} {e : E}
    (he : l[n]? = some e) : τ e ≤ lastTerm τ l := by
  have hn := (List.getElem?_eq_some_iff.mp he).1
  obtain ⟨x,hx,hxt⟩ := lastTerm_eq (τ := τ) (List.length_pos_iff.mp (Nat.zero_lt_of_lt hn))
  rw [← hxt]
  rcases Nat.lt_or_ge n (l.length - 1) with hlt | hge
  · have hr := List.pairwise_iff_getElem.mp hl n (l.length - 1) hn (by omega) hlt
    rw [(List.getElem?_eq_some_iff.mp he).2,(List.getElem?_eq_some_iff.mp hx).2] at hr
    exact hr
  · have hne : n = l.length - 1 := by omega
    rw [hne,hx] at he
    rw [Option.some.inj he]

section
variable [Fintype ι]

theorem Base.take_le (h : Base τ s) {t m : ℕ} : ∀ e ∈ (s.book t).take m, τ e ≤ t :=
  fun _ he => h.book_le (List.mem_of_mem_take he)

theorem Covers.mono (h : Base τ s) (hx : Extends τ s s') {t n u : ℕ} {l : List E}
    (hn : n ≤ (s.book t).length) (hc : Covers τ s t n u l) : Covers τ s' t n u l := by
  intro m e hm he ht
  have heq := hx.take_book (t := t) (n := m + 1) (by omega)
  have he' : (s.book t)[m]? = some e := by
    have hlt : m < (s.book t).length := by omega
    have hh := prefix_getElem? (hx.book t) (List.getElem?_eq_getElem hlt)
    rw [List.getElem?_eq_getElem hlt,← hh,he]
  rw [heq]
  rcases hc m e hm he' ht with hp | hlost
  · exact Or.inl hp
  · exact Or.inr (hlost.mono hx h.take_le (le_refl u))

/-- A log at least as up to date as one that holds an own entry of `t` holds it too,
unless a leader in between lacks it. -/
theorem Base.dominates (h : Base τ s) {l l' : List E} {t m u : ℕ} {e : E}
    (hl : l.Pairwise fun a b => τ a ≤ τ b) (hl' : Grown τ s.book l') (hu : ∀ x ∈ l', τ x < u)
    (he : (s.book t)[m]? = some e) (het : τ e = t) (hp : (s.book t).take (m + 1) <+: l)
    (hup : UpToDate τ l l') :
    (s.book t).take (m + 1) <+: l' ∨ Lost s ((s.book t).take (m + 1)) t u := by
  have hm := (List.getElem?_eq_some_iff.mp he).1
  have hlen : ((s.book t).take (m + 1)).length = m + 1 := by simp; omega
  have hml : m + 1 ≤ l.length := hlen ▸ hp.length_le
  have hel : l[m]? = some e := prefix_getElem? hp (by simpa using he)
  have htl : t ≤ lastTerm τ l := het ▸ le_lastTerm hl hel
  have hne : l' ≠ [] := by
    rintro rfl
    rcases hup with hlt | ⟨_,hle⟩
    · simp [lastTerm] at hlt
    · simp at hle
      simp [hle] at hml
  have hpre := hl'.prefix_book hne
  obtain ⟨x,hx,hxt⟩ := lastTerm_eq (τ := τ) hne
  have htl' : t ≤ lastTerm τ l' := by
    rcases hup with hlt | ⟨heq,_⟩ <;> omega
  rcases Nat.eq_or_lt_of_le htl' with heq | hlt
  · -- both end in term `t`, whose book decides by length
    have hll : l.length ≤ l'.length := by
      rcases hup with hlt | ⟨_,hle⟩
      · omega
      · exact hle
    left
    rw [← heq] at hpre
    exact List.prefix_of_prefix_length_le (List.take_prefix _ _) hpre (by omega)
  · by_cases hb : (s.book t).take (m + 1) <+: s.book (lastTerm τ l')
    · left
      refine List.prefix_of_prefix_length_le hb hpre ?_
      by_contra hlong
      have hlong' : l'.length - 1 < ((s.book t).take (m + 1)).length := by omega
      have hx' := prefix_getElem? hpre hx
      have hy := prefix_getElem? hb (List.getElem?_eq_getElem hlong')
      rw [hx'] at hy
      have hle := h.take_le _ (List.getElem_mem hlong')
      rw [← Option.some.inj hy] at hle
      omega
    · right
      obtain ⟨c,hc⟩ := h.book_won (List.ne_nil_of_length_pos
        (Nat.lt_of_lt_of_le (List.length_pos_iff.mpr hne) hpre.length_le))
      exact ⟨_,c,hlt,hxt ▸ hu x (List.mem_of_getElem? hx),hc,hb⟩

/-- What holds of acknowledgements and ballots when no step drops entries of the
current leader. -/
structure Durable (τ : E → ℕ) (s : State ι E) : Prop where
  ack_le : ∀ {f t n}, s.ack f t n → t ≤ s.term f
  ack_won : ∀ {f t n}, s.ack f t n → ∃ c, s.won t c
  ack_book : ∀ {f t n}, s.ack f t n → n ≤ (s.book t).length
  ack_kept : ∀ {f t n}, s.ack f t n → Kept s f t n
  ballot_cover : ∀ {u v c t n}, s.ballot u v c → (∀ d, ¬ s.won u d) → s.ack v t n → t < u →
    Covers τ s t n u (s.poll u c)
  won_cover : ∀ {u c}, s.won u c → ∃ Q : Finset ι, Majority Q ∧ ∀ v ∈ Q, s.ballot u v c ∧
    ∀ t n, s.ack v t n → t < u → Covers τ s t n u (s.poll u c)

theorem Durable.start : Durable τ (State.start : State ι E) := by
  constructor <;> intros <;> simp_all [State.start]

/-- Taking over the leader's log keeps what was stored of it. -/
theorem Base.accept_keeps (h : Base τ s) {i c : ι} {k : ℕ} {p : List E}
    (hw : s.won (s.term i) c) (hlo : (s.poll (s.term i) c).length ≤ k) (hf : Fresh τ s i k)
    (hp : p <+: s.log i) (hb : p <+: s.book (s.term i)) : p <+: (s.book (s.term i)).take k := by
  rw [List.prefix_take_iff]
  refine ⟨hb,?_⟩
  by_contra hlong
  have hlt : p.length - 1 < p.length := by omega
  have hx := List.getElem?_eq_getElem hlt
  have ht := h.book_own hw (prefix_getElem? hb hx) (by omega)
  have := hf _ _ (prefix_getElem? hp hx) ht
  omega

theorem shrink_keeps {l l' p : List E} {n : ℕ} {a b : E} (ha : l[n]? = some a)
    (hb : l'[n]? = some b) (hne : τ a ≠ τ b) (hp : p <+: l) (hp' : p <+: l') :
    p <+: l.take n := by
  rw [List.prefix_take_iff]
  refine ⟨hp,?_⟩
  by_contra hlong
  have hlt : n < p.length := by omega
  have hx := List.getElem?_eq_getElem hlt
  have hxa := prefix_getElem? hp hx
  have hxb := prefix_getElem? hp' hx
  rw [ha] at hxa
  rw [hb] at hxb
  rw [Option.some.inj hxa,Option.some.inj hxb] at hne
  exact hne rfl

/-- A vote by the election rule covers what the voter acknowledged before. -/
theorem Durable.covers_cast (hd : Durable τ s) (h : Base τ s) {i c : ι} {t n : ℕ}
    (hup : UpToDate τ (s.log i) (s.poll (s.term i) c)) (hno : ∀ d, ¬ s.won (s.term i) d)
    (ha : s.ack i t n) : Covers τ s t n (s.term i) (s.poll (s.term i) c) := by
  intro m e hm he het
  rcases hd.ack_kept ha (m + 1) hm with hp | ⟨w,d,htw,hwu,hw,hn⟩
  · exact h.dominates (h.log_sorted i) (h.poll_grown _ c) (fun _ => h.poll_lt) he het hp hup
  · have hne : w ≠ s.term i := by
      rintro rfl
      exact hno d hw
    exact Or.inr ⟨w,d,htw,by omega,hw,hn⟩

theorem Durable.covers_campaign (hd : Durable τ s) {i : ι} {t n : ℕ} (ha : s.ack i t n) :
    Covers τ s t n (s.term i + 1) (s.log i) :=
  fun m _ hm _ _ => hd.ack_kept ha (m + 1) hm

variable [DecidableEq ι] {i : ι}

/-- A prefix of a node's log survives a step when the leader of its term has it. -/
theorem Base.keeps (h : Base τ s) (hs : Step τ True i s s') {j : ι} {p : List E}
    (hp : p <+: s.log j) (hlead : ∀ c, s.won (s.term j) c → p <+: s.book (s.term j)) :
    p <+: s'.log j := by
  cases hs with
  | observe | cast | campaign | win | retire | resume => exact hp
  | append es =>
    by_cases hji : j = i
    · subst hji
      simpa [State.append] using hp.trans (List.prefix_append _ es)
    · simpa [State.append,hji] using hp
  | accept c k hw hl hlo hhi hf =>
    by_cases hji : j = i
    · subst hji
      simpa [State.accept] using h.accept_keeps hw hlo (hf trivial) hp (hlead c hw)
    · simpa [State.accept,hji] using hp
  | shrink c n a b hw hl ha hb hne =>
    by_cases hji : j = i
    · subst hji
      simpa [State.shrink] using shrink_keeps ha hb hne hp (hlead c hw)
    · simpa [State.shrink,hji] using hp

theorem Base.ack_cases (h : Base τ s) (hs : Step τ True i s s') {f : ι} {t n : ℕ}
    (ha : s'.ack f t n) : s.ack f t n ∨ (t = s.term f ∧ t ≤ s'.term f ∧ (∃ c, s'.won t c) ∧
      n ≤ (s'.book t).length ∧ (s'.book t).take n <+: s'.log f) := by
  cases hs with
  | observe | cast | campaign | shrink | retire | resume => exact Or.inl ha
  | win =>
    rcases ha with ha | ⟨rfl,rfl,rfl⟩
    · exact Or.inl ha
    · right
      refine ⟨rfl,le_refl _,⟨f,Or.inr ⟨rfl,rfl⟩⟩,?_,?_⟩ <;> simp [State.win]
  | append es hlead =>
    rcases ha with ha | ⟨rfl,rfl,rfl⟩
    · exact Or.inl ha
    · right
      refine ⟨rfl,le_refl _,⟨f,h.lead_won hlead⟩,by simp [State.append,h.lead_log hlead],?_⟩
      simpa [State.append,h.lead_log hlead] using List.take_prefix _ _
  | accept c k hw hl hlo hhi =>
    rcases ha with ha | ⟨rfl,rfl,rfl⟩
    · exact Or.inl ha
    · right
      exact ⟨rfl,le_refl _,⟨c,hw⟩,hhi,by simp [State.accept]⟩

theorem Durable.kept_step (hd : Durable τ s) (h : Base τ s) (hs : Step τ True i s s') {f : ι}
    {t n : ℕ} (ha : s.ack f t n) : Kept s' f t n := by
  have hx := h.extends hs
  intro m hm
  rw [hx.take_book (hm.trans (hd.ack_book ha))]
  have hmono : Lost s ((s.book t).take m) t (s.term f + 1) →
      Lost s' ((s.book t).take m) t (s'.term f + 1) :=
    Lost.mono hx h.take_le (Nat.succ_le_succ (hx.term f))
  rcases hd.ack_kept ha m hm with hp | hl
  · by_cases hlead : ∀ c, s.won (s.term f) c → (s.book t).take m <+: s.book (s.term f)
    · exact Or.inl (h.keeps hs hp hlead)
    · push Not at hlead
      obtain ⟨c,hc,hn⟩ := hlead
      have hne : t ≠ s.term f := by
        rintro rfl
        exact hn (List.take_prefix m _)
      have hle := hd.ack_le ha
      exact Or.inr (hmono ⟨_,c,by omega,by omega,hc,hn⟩)
  · exact Or.inr (hmono hl)

/-- Once a node has voted in term `u` it acknowledges nothing below `u` any more. -/
theorem Base.ack_frozen (h : Base τ s) (hs : Step τ True i s s') {u t n : ℕ} {v c : ι}
    (hb : s.ballot u v c) (ha : s'.ack v t n) (htu : t < u) : s.ack v t n := by
  rcases h.ack_cases hs ha with ha | ⟨ht,_⟩
  · exact ha
  · have := h.ballot_le hb
    omega

theorem Durable.ballot_step (hd : Durable τ s) (h : Base τ s) (hs : Step τ True i s s')
    {u t n : ℕ} {v c : ι} (hb : s'.ballot u v c) (hno : ∀ d, ¬ s'.won u d) (ha : s'.ack v t n)
    (htu : t < u) : s.ack v t n ∧ Covers τ s t n u (s'.poll u c) := by
  have hold : s.ballot u v c → s.ack v t n ∧ Covers τ s t n u (s'.poll u c) := by
    intro hb
    have ha' := h.ack_frozen hs hb ha htu
    rw [(h.extends hs).poll (h.ballot_ran hb)]
    exact ⟨ha',hd.ballot_cover hb (fun d hw => hno d ((h.extends hs).won hw)) ha' htu⟩
  cases hs with
  | observe | win | append | accept | shrink | retire | resume => exact hold hb
  | cast d hran hv hup =>
    rcases hb with hb | ⟨rfl,rfl,rfl⟩
    · exact hold hb
    · exact ⟨ha,hd.covers_cast h hup hno ha⟩
  | campaign =>
    rcases hb with hb | ⟨rfl,rfl,rfl⟩
    · exact hold hb
    · exact ⟨ha,by simpa [State.campaign] using hd.covers_campaign ha⟩

theorem Durable.won_step (hd : Durable τ s) (h : Base τ s) (hs : Step τ True i s s') {u : ℕ}
    {c : ι} (hw : s'.won u c) : ∃ Q : Finset ι, Majority Q ∧ ∀ v ∈ Q, s.ballot u v c ∧
      ∀ t n, s.ack v t n → t < u → Covers τ s t n u (s.poll u c) := by
  cases hs with
  | observe | cast | campaign | append | accept | shrink | retire | resume =>
    exact hd.won_cover hw
  | win Q hran hlog hnew hQ hb =>
    rcases hw with hw | ⟨rfl,rfl⟩
    · exact hd.won_cover hw
    · exact ⟨Q,hQ,fun v hv => ⟨hb v hv,
        fun t n ha htu => hd.ballot_cover (hb v hv) (h.no_winner hnew hQ hb) ha htu⟩⟩

theorem Durable.step (hd : Durable τ s) (h : Base τ s) (hs : Step τ True i s s') :
    Durable τ s' := by
  have hx := h.extends hs
  refine ⟨?_,?_,?_,?_,?_,?_⟩
  · intro f t n ha
    rcases h.ack_cases hs ha with ha | ⟨_,hle,_⟩
    · exact (hd.ack_le ha).trans (hx.term f)
    · exact hle
  · intro f t n ha
    rcases h.ack_cases hs ha with ha | ⟨_,_,hw,_⟩
    · obtain ⟨c,hc⟩ := hd.ack_won ha
      exact ⟨c,hx.won hc⟩
    · exact hw
  · intro f t n ha
    rcases h.ack_cases hs ha with ha | ⟨_,_,_,hn,_⟩
    · exact (hd.ack_book ha).trans (hx.book t).length_le
    · exact hn
  · intro f t n ha
    rcases h.ack_cases hs ha with ha | ⟨_,_,_,_,hp⟩
    · exact hd.kept_step h hs ha
    · exact fun m hm => Or.inl ((take_prefix_take hm).trans hp)
  · intro u v c t n hb hno ha htu
    obtain ⟨ha',hcov⟩ := hd.ballot_step h hs hb hno ha htu
    exact hcov.mono h hx (hd.ack_book ha')
  · intro u c hw
    obtain ⟨Q,hQ,hcov⟩ := hd.won_step h hs hw
    refine ⟨Q,hQ,fun v hv => ⟨hx.ballot (hcov v hv).1,fun t n ha htu => ?_⟩⟩
    have hb := (hcov v hv).1
    have ha' := h.ack_frozen hs hb ha htu
    rw [hx.poll (h.ballot_ran hb)]
    exact ((hcov v hv).2 t n ha' htu).mono h hx (hd.ack_book ha')

/-- A majority stored the log of term `t` through its own entry at index `m`. -/
def Committed (τ : E → ℕ) (s : State ι E) (t m : ℕ) : Prop :=
  (∃ e, (s.book t)[m]? = some e ∧ τ e = t) ∧
    ∃ Q : Finset ι, Majority Q ∧ ∀ f ∈ Q, ∃ n, m < n ∧ s.ack f t n

omit [DecidableEq ι] in
theorem Committed.mono (hx : Extends τ s s') {t m : ℕ} (hc : Committed τ s t m) :
    Committed τ s' t m := by
  obtain ⟨⟨e,he,het⟩,Q,hQ,ha⟩ := hc
  refine ⟨⟨e,prefix_getElem? (hx.book t) he,het⟩,Q,hQ,fun f hf => ?_⟩
  obtain ⟨n,hn,hack⟩ := ha f hf
  exact ⟨n,hn,hx.ack hack⟩

omit [DecidableEq ι] in
theorem Committed.lt {t m : ℕ} (hc : Committed τ s t m) : m < (s.book t).length := by
  obtain ⟨⟨e,he,_⟩,_⟩ := hc
  exact (List.getElem?_eq_some_iff.mp he).1

/-- Every later leader ran with the committed log. -/
theorem Durable.completeness (hd : Durable τ s) (h : Base τ s) {t m u : ℕ} {c : ι}
    (hc : Committed τ s t m) (hw : s.won u c) (htu : t < u) :
    (s.book t).take (m + 1) <+: s.poll u c := by
  induction u using Nat.strong_induction_on generalizing c with
  | _ u ih =>
    obtain ⟨⟨e,he,het⟩,Q,hQ,ha⟩ := hc
    obtain ⟨R,hR,hcov⟩ := hd.won_cover hw
    obtain ⟨v,hvQ,hvR⟩ := hQ.inter hR
    obtain ⟨n,hn,hack⟩ := ha v hvQ
    rcases (hcov v hvR).2 t n hack htu m e hn he het with hp | ⟨w,d,htw,hwu,hwd,hno⟩
    · exact hp
    · exact absurd ((ih w hwu hwd htw).trans (h.poll_book hwd)) hno

theorem Durable.committed_prefix (hd : Durable τ s) (h : Base τ s) {t m u : ℕ} {c : ι}
    (hc : Committed τ s t m) (hw : s.won u c) (htu : t ≤ u) :
    (s.book t).take (m + 1) <+: s.book u := by
  rcases Nat.eq_or_lt_of_le htu with rfl | hlt
  · exact List.take_prefix _ _
  · exact (hd.completeness h hc hw hlt).trans (h.poll_book hw)

/-- The first `k` entries of `l`, a log of term at most `u`, are committed. -/
def Settled (τ : E → ℕ) (s : State ι E) (u : ℕ) (l : List E) (k : ℕ) : Prop :=
  k = 0 ∨ ∃ t m, t ≤ u ∧ Committed τ s t m ∧ k ≤ m + 1 ∧ (s.book t).take k <+: l

omit [DecidableEq ι] in
theorem Settled.weaken {u k k' : ℕ} {l : List E} (h : Settled τ s u l k) (hk : k' ≤ k) :
    Settled τ s u l k' := by
  rcases h with rfl | ⟨t,m,htu,hc,hkm,hp⟩
  · exact Or.inl (Nat.le_zero.mp hk)
  · exact Or.inr ⟨t,m,htu,hc,hk.trans hkm,(take_prefix_take hk).trans hp⟩

omit [DecidableEq ι] in
theorem Settled.length_le {u k : ℕ} {l : List E} (h : Settled τ s u l k) : k ≤ l.length := by
  rcases h with rfl | ⟨t,m,_,hc,hkm,hp⟩
  · exact Nat.zero_le _
  · have hlen := hp.length_le
    have hlt := hc.lt
    rw [List.length_take] at hlen
    omega

omit [DecidableEq ι] in
/-- Settled entries stay settled, also in a longer log of a later term. -/
theorem Settled.mono (hx : Extends τ s s') {u u' k : ℕ} {l l' : List E} (hu : u ≤ u')
    (hl : l.take k <+: l') (h : Settled τ s u l k) : Settled τ s' u' l' k := by
  rcases h with rfl | ⟨t,m,htu,hc,hkm,hp⟩
  · exact Or.inl rfl
  · have hlt := hc.lt
    refine Or.inr ⟨t,m,htu.trans hu,hc.mono hx,hkm,?_⟩
    rw [hx.take_book (by omega)]
    refine List.IsPrefix.trans ?_ hl
    rw [List.prefix_take_iff]
    exact ⟨hp,by simp⟩

theorem Durable.settled_step (hd : Durable τ s) (h : Base τ s) (hs : Step τ True i s s') {j : ι}
    {k : ℕ} (hset : Settled τ s (s.term j) (s.log j) k) :
    Settled τ s' (s'.term j) (s'.log j) k := by
  have hx := h.extends hs
  rcases hset with rfl | ⟨t,m,htu,hc,hkm,hp⟩
  · exact Or.inl rfl
  · have hlt := hc.lt
    refine Or.inr ⟨t,m,htu.trans (hx.term j),hc.mono hx,hkm,?_⟩
    rw [hx.take_book (by omega)]
    exact h.keeps hs hp fun c hw =>
      (take_prefix_take hkm).trans (hd.committed_prefix h hc hw htu)

omit [DecidableEq ι] in
/-- A list that starts with part of a committed book reads as the book does. -/
theorem Committed.read {t m k n : ℕ} {l : List E} (hc : Committed τ s t m) (hkm : k ≤ m + 1)
    (hp : (s.book t).take k <+: l) (hn : n < k) : l[n]? = (s.book t)[n]? := by
  have hlt := hc.lt
  have hx := List.getElem?_eq_getElem (show n < (s.book t).length by omega)
  rw [hx]
  exact prefix_getElem? hp (by rw [List.getElem?_take_of_lt hn]; exact hx)

theorem Durable.settled_agree (hd : Durable τ s) (h : Base τ s) {u u' k k' n : ℕ} {l l' : List E}
    (hset : Settled τ s u l k) (hset' : Settled τ s u' l' k') (hn : n < k) (hn' : n < k') :
    l[n]? = l'[n]? := by
  rcases hset with rfl | ⟨t,m,_,hc,hkm,hp⟩
  · omega
  rcases hset' with rfl | ⟨t',m',_,hc',hkm',hp'⟩
  · omega
  have hwin : ∀ {t m}, Committed τ s t m → ∃ c, s.won t c := fun hc =>
    h.book_won (List.ne_nil_of_length_pos (Nat.zero_lt_of_lt hc.lt))
  -- both lists show entry `n` of their committed book, and the older book is part of the newer
  rw [hc.read hkm hp hn,hc'.read hkm' hp' hn']
  rcases Nat.le_total t t' with htt | htt
  · obtain ⟨c,hw⟩ := hwin hc'
    exact (hc.read (le_refl _) (hd.committed_prefix h hc hw htt) (by omega)).symm
  · obtain ⟨c,hw⟩ := hwin hc
    exact hc'.read (le_refl _) (hd.committed_prefix h hc' hw htt) (by omega)

/-- Whoever won a later term began with every settled entry. -/
theorem Durable.settled_won (hd : Durable τ s) (h : Base τ s) {u u' k n : ℕ} {c : ι} {l l' : List E}
    (hset : Settled τ s u l k) (hn : n < k) (hw : s.won u' c) (hlt : u < u')
    (hl : s.poll u' c <+: l') : l'[n]? = l[n]? := by
  rcases hset with rfl | ⟨t,m,htu,hc,hkm,hp⟩
  · omega
  have hfull := (hd.completeness h hc hw (htu.trans_lt hlt)).trans hl
  rw [hc.read hkm hp hn,hc.read (le_refl _) hfull (by omega)]

/-- A majority still holds what is committed. -/
theorem Durable.committed_held (hd : Durable τ s) (h : Base τ s) {t m : ℕ}
    (hc : Committed τ s t m) :
    ∃ Q : Finset ι, Majority Q ∧ ∀ f ∈ Q, (s.book t).take (m + 1) <+: s.log f := by
  obtain ⟨Q,hQ,ha⟩ := hc.2
  refine ⟨Q,hQ,fun f hf => ?_⟩
  obtain ⟨n,hn,hack⟩ := ha f hf
  rcases hd.ack_kept hack (m + 1) hn with hp | ⟨w,c,htw,_,hw,hno⟩
  · exact hp
  · exact absurd (hd.committed_prefix h hc hw htw.le) hno

theorem Durable.settled_held (hd : Durable τ s) (h : Base τ s) {u k n : ℕ} {l : List E}
    (hset : Settled τ s u l k) (hn : n < k) :
    ∃ Q : Finset ι, Majority Q ∧ ∀ f ∈ Q, (s.log f)[n]? = l[n]? := by
  rcases hset with rfl | ⟨t,m,_,hc,hkm,hp⟩
  · omega
  obtain ⟨Q,hQ,hheld⟩ := hd.committed_held h hc
  refine ⟨Q,hQ,fun f hf => ?_⟩
  rw [hc.read (le_refl _) (hheld f hf) (by omega),hc.read hkm hp hn]

structure Sound (τ : E → ℕ) (strict : Prop) (s : State ι E) : Prop where
  base : Base τ s
  durable : strict → Durable τ s

theorem Step.of_strict {strict : Prop} (hst : strict) (hs : Step τ strict i s s') :
    Step τ True i s s' := by
  cases hs with
  | observe t v ht => exact .observe t v ht
  | cast c hran hv hup => exact .cast c hran hv hup
  | campaign => exact .campaign
  | win Q hran hlog hnew hQ hb => exact .win Q hran hlog hnew hQ hb
  | append es hlead hes => exact .append es hlead hes
  | accept c k hw hl hlo hhi hf => exact .accept c k hw hl hlo hhi fun _ => hf hst
  | shrink c n a b hw hl ha hb hne => exact .shrink c n a b hw hl ha hb hne
  | retire => exact .retire
  | resume hw hlog => exact .resume hw hlog

omit [DecidableEq ι] in
theorem Sound.start {strict : Prop} : Sound τ strict (State.start : State ι E) :=
  ⟨.start,fun _ => .start⟩

theorem Sound.moves {strict : Prop} (h : Sound τ strict s) (hs : Moves τ strict s s') :
    Sound τ strict s' := by
  induction hs with
  | refl => exact h
  | tail _ hstep ih =>
    obtain ⟨i,hstep⟩ := hstep
    exact ⟨ih.base.step hstep,fun hst => (ih.durable hst).step ih.base (hstep.of_strict hst)⟩

theorem Sound.steps {strict : Prop} (h : Sound τ strict s) (hs : Steps τ strict i s s') :
    Sound τ strict s' := h.moves hs.moves

theorem Sound.settled_moves {strict : Prop} (h : Sound τ strict s) (hst : strict)
    (hs : Moves τ strict s s') {j : ι} {k : ℕ} (hset : Settled τ s (s.term j) (s.log j) k) :
    Settled τ s' (s'.term j) (s'.log j) k := by
  induction hs with
  | refl => exact hset
  | tail hrest hstep ih =>
    obtain ⟨i,hstep⟩ := hstep
    have hmid := h.moves hrest
    exact (hmid.durable hst).settled_step hmid.base (hstep.of_strict hst) ih

theorem Sound.settled_steps {strict : Prop} (h : Sound τ strict s) (hst : strict)
    (hs : Steps τ strict i s s') {j : ι} {k : ℕ} (hset : Settled τ s (s.term j) (s.log j) k) :
    Settled τ s' (s'.term j) (s'.log j) k := h.settled_moves hst hs.moves hset

end

end ReplicatedLog
end Daccord
