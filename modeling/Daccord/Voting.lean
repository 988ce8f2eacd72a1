import Daccord.Runs

/-! One decision by majority voting in numbered ballots. Acceptors pledge not to
vote below a ballot and vote for offers; the owner of a ballot may offer a value
that is safe there. No two values are ever chosen. -/
namespace Daccord
namespace Voting

/-- What has happened so far. `opened` are the ballots whose owner has asked for
pledges. -/
structure State (ι B V : Type*) where
  opened : B → Prop
  pledge : ι → B → Prop
  offer : B → V → Prop
  vote : ι → B → V → Prop

variable {ι B V : Type*}

def State.start : State ι B V := ⟨fun _ => False,fun _ _ => False,fun _ _ => False,fun _ _ _ => False⟩

def State.launch (s : State ι B V) (b : B) : State ι B V :=
  { s with opened := fun c => s.opened c ∨ c = b }

def State.promise (s : State ι B V) (i : ι) (b : B) : State ι B V :=
  { s with pledge := fun j c => s.pledge j c ∨ j = i ∧ c = b }

def State.propose (s : State ι B V) (b : B) (v : V) : State ι B V :=
  { s with offer := fun c w => s.offer c w ∨ c = b ∧ w = v }

def State.accept (s : State ι B V) (i : ι) (b : B) (v : V) : State ι B V :=
  { s with vote := fun j c w => s.vote j c w ∨ j = i ∧ c = b ∧ w = v }

section
variable [Fintype ι] [LinearOrder B]

/-- No value other than `v` was or will be chosen in a ballot below `b`. -/
def SafeAt (s : State ι B V) (b : B) (v : V) : Prop :=
  ∀ c, c < b → ∃ Q : Finset ι, Majority Q ∧ ∀ i ∈ Q,
    (∀ w, s.vote i c w → w = v) ∧ ∃ d, c < d ∧ s.pledge i d

def Chosen (s : State ι B V) (b : B) (v : V) : Prop :=
  ∃ Q : Finset ι, Majority Q ∧ ∀ i ∈ Q, s.vote i b v

/-- What acceptor `i` can do; `own i` are the ballots it may run. -/
inductive Step (own : ι → B → Prop) (i : ι) (s : State ι B V) : State ι B V → Prop
  | launch (b : B) (hb : own i b) : Step own i s (s.launch b)
  | promise (b : B) : Step own i s (s.promise i b)
  | propose (b : B) (v : V) (hb : own i b) (hsafe : SafeAt s b v)
      (hone : ∀ w, s.offer b w → w = v) : Step own i s (s.propose b v)
  | accept (b : B) (v : V) (ho : s.offer b v) (hp : ∀ c, s.pledge i c → c ≤ b) :
      Step own i s (s.accept i b v)

def Steps (own : ι → B → Prop) (i : ι) : State ι B V → State ι B V → Prop :=
  Relation.ReflTransGen (Step own i)

structure Sound (s : State ι B V) : Prop where
  offered : ∀ {i b v}, s.vote i b v → s.offer b v
  safe : ∀ {b v}, s.offer b v → SafeAt s b v
  unique : ∀ {b v w}, s.offer b v → s.offer b w → v = w

/-- Nothing is forgotten, and acceptors keep their pledges. -/
structure Extends (s s' : State ι B V) : Prop where
  opened : ∀ {b}, s.opened b → s'.opened b
  pledge : ∀ {i b}, s.pledge i b → s'.pledge i b
  offer : ∀ {b v}, s.offer b v → s'.offer b v
  vote : ∀ {i b v}, s.vote i b v → s'.vote i b v
  kept : ∀ {i b v d}, s'.vote i b v → s.pledge i d → b < d → s.vote i b v

variable {own : ι → B → Prop} {i j : ι} {s s' s'' : State ι B V}

omit [Fintype ι] in
theorem Extends.refl (s : State ι B V) : Extends s s :=
  ⟨id,id,id,id,fun h _ _ => h⟩

omit [Fintype ι] in
theorem Extends.trans (h : Extends s s') (h' : Extends s' s'') : Extends s s'' :=
  ⟨fun x => h'.opened (h.opened x),fun x => h'.pledge (h.pledge x),fun x => h'.offer (h.offer x),
    fun x => h'.vote (h.vote x),fun hv hp hlt => h.kept (h'.kept hv (h.pledge hp) hlt) hp hlt⟩

omit [Fintype ι] in
theorem Extends.launch (s : State ι B V) (b : B) : Extends s (s.launch b) :=
  ⟨Or.inl,id,id,id,fun h _ _ => h⟩

omit [Fintype ι] in
theorem Extends.promise (s : State ι B V) (i : ι) (b : B) : Extends s (s.promise i b) :=
  ⟨id,Or.inl,id,id,fun h _ _ => h⟩

omit [Fintype ι] in
theorem Extends.propose (s : State ι B V) (b : B) (v : V) : Extends s (s.propose b v) :=
  ⟨id,id,Or.inl,id,fun h _ _ => h⟩

theorem Step.extends (h : Step own i s s') : Extends s s' := by
  cases h with
  | launch b => exact .launch s b
  | promise b => exact .promise s i b
  | propose b v => exact .propose s b v
  | accept b v ho hp =>
    refine ⟨id,id,id,Or.inl,fun hv hd hlt => ?_⟩
    rcases hv with hv | ⟨rfl,rfl,rfl⟩
    · exact hv
    · exact absurd (hp _ hd) (not_le.mpr hlt)

theorem Steps.extends (h : Steps own i s s') : Extends s s' := by
  induction h with
  | refl => exact .refl s
  | tail _ hs ih => exact ih.trans hs.extends

theorem SafeAt.mono (hx : Extends s s') {b : B} {v : V} (h : SafeAt s b v) : SafeAt s' b v := by
  intro c hc
  obtain ⟨Q,hQ,hq⟩ := h c hc
  refine ⟨Q,hQ,fun i hi => ?_⟩
  obtain ⟨hv,d,hd,hp⟩ := hq i hi
  exact ⟨fun w hw => hv w (hx.kept hw hp hd),d,hd,hx.pledge hp⟩

theorem Chosen.mono (hx : Extends s s') {b : B} {v : V} (h : Chosen s b v) :
    Chosen s' b v := by
  obtain ⟨Q,hQ,hq⟩ := h
  exact ⟨Q,hQ,fun i hi => hx.vote (hq i hi)⟩

theorem Sound.start : Sound (State.start : State ι B V) :=
  ⟨False.elim,False.elim,fun h => h.elim⟩

theorem Sound.step (h : Sound s) (hs : Step own i s s') : Sound s' := by
  have hx := hs.extends
  cases hs with
  | launch b => exact ⟨h.offered,fun ho => (h.safe ho).mono hx,h.unique⟩
  | promise b => exact ⟨h.offered,fun ho => (h.safe ho).mono hx,h.unique⟩
  | propose b v hb hsafe hone =>
    refine ⟨fun hv => Or.inl (h.offered hv),?_,?_⟩
    · rintro c w (ho | ⟨rfl,rfl⟩)
      · exact (h.safe ho).mono hx
      · exact hsafe.mono hx
    · rintro c w u (ho | ⟨rfl,rfl⟩) (ho' | ⟨hc,rfl⟩)
      · exact h.unique ho ho'
      · exact hone w (hc ▸ ho)
      · exact (hone u ho').symm
      · rfl
  | accept b v ho hp =>
    refine ⟨?_,fun ho => (h.safe ho).mono hx,h.unique⟩
    rintro j c w (hv | ⟨rfl,rfl,rfl⟩)
    · exact h.offered hv
    · exact ho

theorem Sound.steps (h : Sound s) (hs : Steps own i s s') : Sound s' := by
  induction hs with
  | refl => exact h
  | tail _ hstep ih => exact ih.step hstep

theorem SafeAt.chosen [DecidableEq ι] {b c : B} {v w : V} (h : SafeAt s b v) (hc : c < b)
    (hw : Chosen s c w) : w = v := by
  obtain ⟨R,hR,hr⟩ := hw
  obtain ⟨Q,hQ,hq⟩ := h c hc
  obtain ⟨i,hi,hi'⟩ := hQ.inter hR
  exact (hq i hi).1 w (hr i hi')

/-- Every acceptor that votes at `b` agrees with what is chosen below. -/
theorem Sound.chosen_offer [DecidableEq ι] (h : Sound s) {b c : B} {v w : V} (hc : Chosen s c w)
    (ho : s.offer b v) (hle : c ≤ b) : v = w := by
  obtain ⟨Q,hQ,hq⟩ := hc
  rcases hle.eq_or_lt with rfl | hlt
  · obtain ⟨i,hi,_⟩ := hQ.inter hQ
    exact h.unique ho (h.offered (hq i hi))
  · exact ((h.safe ho).chosen hlt ⟨Q,hQ,hq⟩).symm

theorem Sound.agreement [DecidableEq ι] (h : Sound s) {b c : B} {v w : V} (hb : Chosen s b v)
    (hc : Chosen s c w) : v = w := by
  have hoffer : ∀ {b v}, Chosen s b v → s.offer b v := by
    rintro b v ⟨Q,hQ,hq⟩
    obtain ⟨i,hi,_⟩ := hQ.inter hQ
    exact h.offered (hq i hi)
  rcases le_total c b with hle | hle
  · exact h.chosen_offer hc (hoffer hb) hle
  · exact (h.chosen_offer hb (hoffer hc) hle).symm

/-- `i` has pledged `b`, and the reports `R` reach up to its votes below `b`. -/
def Covered (s : State ι B V) (i : ι) (b : B) (R : B → V → Prop) : Prop :=
  s.pledge i b ∧ ∀ c w, s.vote i c w → c < b → ∃ m u, R m u ∧ c ≤ m

omit [Fintype ι] in
theorem Covered.mono (hx : Extends s s') {b : B} {R R' : B → V → Prop} (h : Covered s i b R)
    (hR : ∀ m u, R m u → ∃ m' u', R' m' u' ∧ m ≤ m') : Covered s' i b R' := by
  refine ⟨hx.pledge h.1,fun c w hv hlt => ?_⟩
  obtain ⟨m,u,hm,hle⟩ := h.2 c w (hx.kept hv h.1 hlt) hlt
  obtain ⟨m',u',hm',hle'⟩ := hR m u hm
  exact ⟨m',u',hm',hle.trans hle'⟩

/-- With the votes of a majority covered by true reports, the value of the
highest report is safe; any value is when there is none. -/
theorem Sound.safeAt_of_covered (h : Sound s) {b : B} {Q : Finset ι} (hQ : Majority Q)
    {R : B → V → Prop} (hcov : ∀ i ∈ Q, Covered s i b R) (hR : ∀ m u, R m u → ∃ j, s.vote j m u)
    {v : V} (hv : (∀ m u, ¬ R m u) ∨ ∃ m, R m v ∧ ∀ m' u, R m' u → m' ≤ m) : SafeAt s b v := by
  rcases hv with hnone | ⟨m,hm,hmax⟩
  · intro c hc
    refine ⟨Q,hQ,fun i hi => ⟨fun w hw => ?_,b,hc,(hcov i hi).1⟩⟩
    obtain ⟨m,u,hmu,_⟩ := (hcov i hi).2 c w hw hc
    exact absurd hmu (hnone m u)
  · obtain ⟨j,hj⟩ := hR m v hm
    intro c hc
    rcases lt_or_ge c m with hlt | hge
    · exact h.safe (h.offered hj) c hlt
    · refine ⟨Q,hQ,fun i hi => ⟨fun w hw => ?_,b,hc,(hcov i hi).1⟩⟩
      obtain ⟨m',u,hmu,hle⟩ := (hcov i hi).2 c w hw hc
      have heq : c = m := le_antisymm (hle.trans (hmax m' u hmu)) hge
      subst heq
      exact h.unique (h.offered hw) (h.offered hj)

def Untouched (s : State ι B V) (b : B) : Prop :=
  ∃ Q : Finset ι, Majority Q ∧ ∀ i ∈ Q, Covered s i b fun _ _ => False

theorem Untouched.mono (hx : Extends s s') {b : B} (h : Untouched s b) : Untouched s' b := by
  obtain ⟨Q,hQ,hq⟩ := h
  exact ⟨Q,hQ,fun i hi => (hq i hi).mono hx nofun⟩

theorem Untouched.safeAt (hs : Sound s) {b : B} (h : Untouched s b) (v : V) : SafeAt s b v := by
  obtain ⟨Q,hQ,hq⟩ := h
  exact hs.safeAt_of_covered hQ hq nofun (Or.inl fun _ _ => id)

theorem Untouched.not_chosen [DecidableEq ι] {b c : B} {v : V} (h : Untouched s b) (hc : c < b) :
    ¬ Chosen s c v := by
  rintro ⟨R,hR,hr⟩
  obtain ⟨Q,hQ,hq⟩ := h
  obtain ⟨i,hi,hi'⟩ := hQ.inter hR
  obtain ⟨_,_,hfalse,_⟩ := (hq i hi).2 c v (hr i hi') hc
  exact hfalse

structure Apart (own : ι → B → Prop) (i : ι) (s s' : State ι B V) : Prop where
  opened : ∀ {b}, ¬ own i b → s'.opened b → s.opened b
  pledge : ∀ {j b}, j ≠ i → s'.pledge j b → s.pledge j b
  offer : ∀ {b v}, ¬ own i b → s'.offer b v → s.offer b v
  vote : ∀ {j b v}, j ≠ i → s'.vote j b v → s.vote j b v

theorem Step.apart (h : Step own i s s') : Apart own i s s' := by
  cases h with
  | launch b hb =>
    refine ⟨fun hn ho => ?_,fun _ h => h,fun _ h => h,fun _ h => h⟩
    rcases ho with ho | rfl
    · exact ho
    · exact absurd hb hn
  | promise b =>
    refine ⟨fun _ h => h,fun hj hp => ?_,fun _ h => h,fun _ h => h⟩
    rcases hp with hp | ⟨rfl,_⟩
    · exact hp
    · exact absurd rfl hj
  | propose b v hb =>
    refine ⟨fun _ h => h,fun _ h => h,fun hn ho => ?_,fun _ h => h⟩
    rcases ho with ho | ⟨rfl,_⟩
    · exact ho
    · exact absurd hb hn
  | accept b v =>
    refine ⟨fun _ h => h,fun _ h => h,fun _ h => h,fun hj hv => ?_⟩
    rcases hv with hv | ⟨rfl,_⟩
    · exact hv
    · exact absurd rfl hj

theorem Steps.apart (h : Steps own i s s') : Apart own i s s' := by
  induction h with
  | refl => exact ⟨fun _ h => h,fun _ h => h,fun _ h => h,fun _ h => h⟩
  | tail _ hs ih =>
    have hs := hs.apart
    exact ⟨fun hn h => ih.opened hn (hs.opened hn h),fun hj h => ih.pledge hj (hs.pledge hj h),
      fun hn h => ih.offer hn (hs.offer hn h),fun hj h => ih.vote hj (hs.vote hj h)⟩

end
end Voting
end Daccord
