import Daccord.Messages
import Daccord.Runs

/-! The members of a cluster and the packets between them, for either protocol
(`send_outgoing` in `node.rs`). -/
namespace Daccord

variable {N : ℕ} {T : Type}

/-- Numerals name the nodes of a cluster of three. -/
instance neZeroThree : NeZero 3 := ⟨three_ne_zero⟩

/-- Who is in the cluster; identities are pairwise distinct. -/
structure Membership (N : ℕ) where
  ids : Fin N → NodeId
  distinct : Function.Injective ids

structure Packet (N : ℕ) (T : Type) where
  src : Fin N
  dst : Fin N
  msg : T
  deriving DecidableEq

def Packet.map {S : Type} (f : S → T) (pkt : Packet N S) : Packet N T := ⟨pkt.src,pkt.dst,f pkt.msg⟩

def Membership.addressed (M : Membership N) (j : Fin N) : SendTarget → Bool
  | .peer id => M.ids j = id
  | .broadcast => true

/-- `send_outgoing`: a peer is looked up by identity, a broadcast goes to every
peer; a node is not among its own peers. -/
def Membership.route (M : Membership N) (i : Fin N) (out : Outgoing T) : List (Packet N T) :=
  ((List.finRange N).filter fun j => decide (j ≠ i) && M.addressed j out.target).map
    fun j => ⟨i,j,out.message⟩

theorem Membership.mem_route {M : Membership N} {i : Fin N} {out : Outgoing T} {pkt : Packet N T}
    (h : pkt ∈ M.route i out) : pkt.src = i ∧ pkt.dst ≠ i ∧
      M.addressed pkt.dst out.target = true ∧ pkt.msg = out.message := by
  simp only [Membership.route,List.mem_map,List.mem_filter,Bool.and_eq_true,decide_eq_true_eq] at h
  obtain ⟨j,⟨_,hj,haddr⟩,rfl⟩ := h
  exact ⟨rfl,hj,haddr,rfl⟩

/-- Whether member `j` may be meant, whatever its present incarnation. -/
def Membership.named (M : Membership N) (j : Fin N) : SendTarget → Bool
  | .peer id => (M.ids j).name = id.name
  | .broadcast => true

/-- `send_outgoing` when incarnations change: a peer that is not found under its
present identity loses the packet, and links may lose any packet. -/
def Membership.routeByName (M : Membership N) (i : Fin N) (out : Outgoing T) :
    List (Packet N T) :=
  ((List.finRange N).filter fun j => decide (j ≠ i) && M.named j out.target).map
    fun j => ⟨i,j,out.message⟩

theorem Membership.mem_routeByName {M : Membership N} {i : Fin N} {out : Outgoing T}
    {pkt : Packet N T} (h : pkt ∈ M.routeByName i out) : pkt.src = i ∧ pkt.dst ≠ i ∧
      M.named pkt.dst out.target = true ∧ pkt.msg = out.message := by
  simp only [Membership.routeByName,List.mem_map,List.mem_filter,Bool.and_eq_true,
    decide_eq_true_eq] at h
  obtain ⟨j,⟨_,hj,haddr⟩,rfl⟩ := h
  exact ⟨rfl,hj,haddr,rfl⟩

/-- Which member an identity belongs to. A member may go by several. -/
structure Roster (N : ℕ) where
  owns : Fin N → NodeId → Prop
  unique : ∀ {v w id}, owns v id → owns w id → v = w

/-- The members go by their identities only. -/
def Membership.roster (M : Membership N) : Roster N where
  owns v id := M.ids v = id
  unique h h' := M.distinct (h.trans h'.symm)

/-- No member is in `S` under two identities. -/
def Roster.Distinct (R : Roster N) (S : Set NodeId) : Prop :=
  ∀ ⦃v id id'⦄, id ∈ S → id' ∈ S → R.owns v id → R.owns v id' → id = id'

theorem Membership.roster_distinct (M : Membership N) (S : Set NodeId) : M.roster.Distinct S :=
  fun _ _ _ _ _ h h' => Eq.trans (Eq.symm h) h'

theorem Roster.Distinct.mono {R : Roster N} {S T : Set NodeId} (h : R.Distinct T) (hS : S ⊆ T) :
    R.Distinct S := fun _ _ _ hid hid' => h (hS hid) (hS hid')

theorem Roster.Distinct.insert {R : Roster N} {S : Set NodeId} {v : Fin N} {id : NodeId}
    (h : R.Distinct S) (hv : R.owns v id) (hid : ∀ x ∈ S, R.owns v x → x = id) :
    R.Distinct (insert id S) := by
  rintro w x y (rfl | hx) (rfl | hy) hwx hwy
  · rfl
  · obtain rfl := R.unique hwx hv
    exact (hid y hy hwy).symm
  · obtain rfl := R.unique hwy hv
    exact hid x hx hwx
  · exact h hx hy hwx hwy

/-- The same choice, by identity and by member. -/
def Roster.Names (R : Roster N) : Option NodeId → Option (Fin N) → Prop
  | none, v => v = none
  | some id, v => ∃ w, v = some w ∧ R.owns w id

def Roster.addressed (R : Roster N) (j : Fin N) : SendTarget → Prop
  | .peer id => R.owns j id
  | .broadcast => True

theorem Membership.roster_addressed {M : Membership N} {j : Fin N} {target : SendTarget}
    (h : M.addressed j target = true) : M.roster.addressed j target := by
  cases target with
  | peer id =>
    have heq : M.ids j = id := of_decide_eq_true h
    exact heq
  | broadcast => trivial

/-- A quorum of identities of distinct members with `P` is a majority with `P`. -/
theorem Roster.quorum {R : Roster N} {P : Fin N → Prop} {Q : Finset NodeId}
    (hd : R.Distinct Q) (hQ : ∀ id ∈ Q, ∃ v, R.owns v id ∧ P v) :
    ∃ S : Finset (Fin N), S.card = Q.card ∧ ∀ v ∈ S, P v := by
  choose f hf hP using hQ
  refine ⟨Q.attach.image fun x => f x.1 x.2,?_,?_⟩
  · rw [Finset.card_image_of_injective,Finset.card_attach]
    rintro ⟨id,hid⟩ ⟨id',hid'⟩ (heq : f id hid = f id' hid')
    have h' := hf id' hid'
    rw [← heq] at h'
    exact Subtype.ext (hd hid hid' (hf id hid) h')
  · intro v hv
    obtain ⟨⟨id,hid⟩,_,rfl⟩ := Finset.mem_image.mp hv
    exact hP id hid

theorem Roster.majority {R : Roster N} {P : Fin N → Prop} {Q : Finset NodeId}
    (hd : R.Distinct Q) (hq : N / 2 + 1 ≤ Q.card) (hQ : ∀ id ∈ Q, ∃ v, R.owns v id ∧ P v) :
    ∃ S : Finset (Fin N), Majority S ∧ ∀ v ∈ S, P v := by
  obtain ⟨S,hcard,hS⟩ := Roster.quorum hd hQ
  refine ⟨S,?_,hS⟩
  unfold Majority
  rw [Fintype.card_fin,hcard]
  omega

/-- A quorum of identities that are all members with `P` is a majority with `P`. -/
theorem Membership.majority (M : Membership N) {P : Fin N → Prop} {Q : Finset NodeId}
    (hq : N / 2 + 1 ≤ Q.card) (hQ : ∀ id ∈ Q, ∃ v, M.ids v = id ∧ P v) :
    ∃ R : Finset (Fin N), Majority R ∧ ∀ v ∈ R, P v :=
  Roster.majority (R := M.roster) (M.roster_distinct _) hq hQ

end Daccord
