import Mathlib.Data.List.Perm.Basic
import Mathlib.Tactic

/-! Derived serialisers. `SerdeJson` is what a program gets from `serde` and `serde_json`,
and `SerdeJson.Lawful` is what it relies on: a record is an object with its fields in
order, read back by name and past names it does not know; a value of a union is an object
with its tag; a text that does not nest too deep is read back as it was written. -/
namespace Daccord

variable {α β γ : Type}

/-- How the values of a type stand in JSON. -/
structure Serde (J α : Type) where
  serialize : α → Option J
  deserialize : J → Option α

def Serde.Writes {J : Type} (S : Serde J α) (x : α) : Prop := ∃ v, S.serialize x = some v

/-- One constructor of a type. -/
def Serde.via {J : Type} (S : Serde J α) (make : α → β) (get : β → Option α) : Serde J β where
  serialize y := (get y).bind S.serialize
  deserialize v := (S.deserialize v).map make

/-- A field with the values it takes where an object lacks it and where a sequence
ends before it. -/
structure Field (J α : Type) where
  name : String
  serde : Serde J α
  missing : Option α
  short : Option α

/-- The fields of a record one after the other. -/
inductive Layout (J : Type) : Type → Type 1
  | one {α : Type} (f : Field J α) : Layout J α
  | and {α β : Type} (L : Layout J α) (M : Layout J β) : Layout J (α × β)

namespace Layout

variable {J : Type}

def names : {α : Type} → Layout J α → List String
  | _, .one f => [f.name]
  | _, .and L M => L.names ++ M.names

def write : {α : Type} → Layout J α → α → Option (List (String × J))
  | _, .one f, x => (f.serde.serialize x).map fun v => [(f.name,v)]
  | _, .and L M, x => do
    let xs ← L.write x.1
    let ys ← M.write x.2
    return xs ++ ys

def read : {α : Type} → Layout J α → List (String × J) → Option α
  | _, .one f, fields =>
    match fields.lookup f.name with
    | some v => f.serde.deserialize v
    | none => f.missing
  | _, .and L M, fields => do
    let x ← L.read fields
    let y ← M.read fields
    return (x,y)

/-- Every field of `x` is read from somewhere or a default. -/
def Made : {α : Type} → Layout J α → α → Prop
  | _, .one f, x => (∃ v, f.serde.deserialize v = some x) ∨ x ∈ f.missing ∨ x ∈ f.short
  | _, .and L M, x => L.Made x.1 ∧ M.Made x.2

@[simp] theorem one_names (f : Field J α) : (one f).names = [f.name] := rfl

@[simp] theorem and_names (L : Layout J α) (M : Layout J β) : (L.and M).names = L.names ++ M.names := rfl

def Writes (L : Layout J α) (x : α) : Prop := ∃ fields, L.write x = some fields

@[simp] theorem one_writes (f : Field J α) (x : α) : (one f).Writes x ↔ f.serde.Writes x := by
  simp [Writes,Serde.Writes,write]

@[simp] theorem and_writes (L : Layout J α) (M : Layout J β) (x : α × β) :
    (L.and M).Writes x ↔ L.Writes x.1 ∧ M.Writes x.2 := by
  simp only [Writes,write,Option.bind_eq_bind,Option.bind_eq_some_iff,Option.pure_def,Option.some.injEq]
  constructor
  · rintro ⟨_,xs,hxs,ys,hys,_⟩
    exact ⟨⟨xs,hxs⟩,ys,hys⟩
  · rintro ⟨⟨xs,hxs⟩,ys,hys⟩
    exact ⟨_,xs,hxs,ys,hys,rfl⟩

end Layout

/-- The levels that `serde_json` opens when it reads, as a number above them. -/
def recursionLimit : ℕ := 128

/-- What `serde` derives and `serde_json` writes and reads. -/
structure SerdeJson where
  Value : Type
  null : Value
  array : List Value → Value
  object : List (String × Value) → Value
  /-- how many arrays and objects stand in one another -/
  depth : Value → ℕ
  toVec : Value → List UInt8
  fromSlice : List UInt8 → Option Value
  /-- a number of `bits` bits; greater numbers are not values of the type -/
  unsigned : (bits : ℕ) → Serde Value ℕ
  bool : Serde Value Bool
  string : Serde Value String
  option : {α : Type} → Serde Value α → Serde Value (Option α)
  list : {α : Type} → Serde Value α → Serde Value (List α)
  pair : {α β : Type} → Serde Value α → Serde Value β → Serde Value (α × β)
  triple : {α β γ : Type} → Serde Value α → Serde Value β → Serde Value γ → Serde Value (α × β × γ)
  record : {α : Type} → Layout Value α → Serde Value α
  tagged : {β : Type} → List (String × Serde Value β) → Serde Value β

namespace SerdeJson

/-- What is written is read back and nests at most `depth` levels, and what is read
can be written. -/
structure Sound (J : SerdeJson) (S : Serde J.Value α) (depth : ℕ) : Prop where
  reads : ∀ {x v}, S.serialize x = some v → S.deserialize v = some x
  nests : ∀ {x v}, S.serialize x = some v → J.depth v ≤ depth
  writes : ∀ {x v}, S.deserialize v = some x → S.Writes x

/-- What a program relies on. The laws that end in `_exact` are about whatever else is
accepted. -/
structure Lawful (J : SerdeJson) : Prop where
  fromSlice_toVec : ∀ {v}, J.depth v < recursionLimit → J.fromSlice (J.toVec v) = some v
  depth_null : J.depth J.null = 0
  depth_array : ∀ {items n}, (∀ v ∈ items, J.depth v ≤ n) → J.depth (J.array items) ≤ n + 1
  depth_object : ∀ {fields n}, (∀ f ∈ fields, J.depth (Prod.snd f) ≤ n) →
    J.depth (J.object fields) ≤ n + 1
  array_ne_null : ∀ items, J.array items ≠ J.null
  object_injective : Function.Injective J.object
  unsigned_sound : ∀ bits, J.Sound (J.unsigned bits) 0
  unsigned_writes : ∀ bits n, (J.unsigned bits).Writes n ↔ n < 2 ^ bits
  unsigned_ne_null : ∀ bits n, (J.unsigned bits).serialize n ≠ some J.null
  bool_sound : J.Sound J.bool 0
  bool_writes : ∀ b, J.bool.Writes b
  string_sound : J.Sound J.string 0
  string_writes : ∀ s, J.string.Writes s
  option_none : ∀ {α} {S : Serde J.Value α}, (J.option S).serialize none = some J.null
  option_some : ∀ {α} {S : Serde J.Value α} x, (J.option S).serialize (some x) = S.serialize x
  option_null : ∀ {α} {S : Serde J.Value α}, (J.option S).deserialize J.null = some none
  option_value : ∀ {α} {S : Serde J.Value α} {v}, v ≠ J.null →
    (J.option S).deserialize v = (S.deserialize v).map some
  list_serialize : ∀ {α} {S : Serde J.Value α} xs,
    (J.list S).serialize xs = (xs.mapM S.serialize).map J.array
  list_array : ∀ {α} {S : Serde J.Value α} items,
    (J.list S).deserialize (J.array items) = items.mapM S.deserialize
  list_exact : ∀ {α} {S : Serde J.Value α} {v xs}, (J.list S).deserialize v = some xs →
    ∀ x ∈ xs, ∃ item, S.deserialize item = some x
  pair_serialize : ∀ {α β} {S : Serde J.Value α} {T : Serde J.Value β} x,
    (J.pair S T).serialize x = do return J.array [← S.serialize x.1,← T.serialize x.2]
  pair_array : ∀ {α β} {S : Serde J.Value α} {T : Serde J.Value β} a b,
    (J.pair S T).deserialize (J.array [a,b]) = do return (← S.deserialize a,← T.deserialize b)
  pair_exact : ∀ {α β} {S : Serde J.Value α} {T : Serde J.Value β} {v x},
    (J.pair S T).deserialize v = some x →
      (∃ a, S.deserialize a = some x.1) ∧ ∃ b, T.deserialize b = some x.2
  triple_serialize : ∀ {α β γ} {S : Serde J.Value α} {T : Serde J.Value β} {U : Serde J.Value γ} x,
    (J.triple S T U).serialize x =
      do return J.array [← S.serialize x.1,← T.serialize x.2.1,← U.serialize x.2.2]
  triple_array : ∀ {α β γ} {S : Serde J.Value α} {T : Serde J.Value β} {U : Serde J.Value γ} a b c,
    (J.triple S T U).deserialize (J.array [a,b,c]) =
      do return (← S.deserialize a,← T.deserialize b,← U.deserialize c)
  triple_exact : ∀ {α β γ} {S : Serde J.Value α} {T : Serde J.Value β} {U : Serde J.Value γ} {v x},
    (J.triple S T U).deserialize v = some x →
      (∃ a, S.deserialize a = some x.1) ∧ (∃ b, T.deserialize b = some x.2.1) ∧
        ∃ c, U.deserialize c = some x.2.2
  record_serialize : ∀ {α} {L : Layout J.Value α} x,
    (J.record L).serialize x = (L.write x).map J.object
  /-- a name that the record knows may not stand twice -/
  record_object : ∀ {α} {L : Layout J.Value α} {fields},
    (∀ name ∈ L.names, (fields.map Prod.fst).count name ≤ 1) →
      (J.record L).deserialize (J.object fields) = L.read fields
  record_exact : ∀ {α} {L : Layout J.Value α} {v x}, (J.record L).deserialize v = some x → L.Made x
  tagged_serialize : ∀ {β} {variants : List (String × Serde J.Value β)} y,
    (J.tagged variants).serialize y =
      variants.findSome? fun u => (u.2.serialize y).map fun v => J.object [(u.1,v)]
  tagged_object : ∀ {β} {variants : List (String × Serde J.Value β)} tag v,
    (J.tagged variants).deserialize (J.object [(tag,v)]) =
      (variants.lookup tag).bind fun S => S.deserialize v
  tagged_exact : ∀ {β} {variants : List (String × Serde J.Value β)} {v y},
    (J.tagged variants).deserialize v = some y → ∃ u ∈ variants, ∃ w, u.2.deserialize w = some y

variable {J : SerdeJson}

theorem Sound.mono {S : Serde J.Value α} {m n : ℕ} (h : J.Sound S m) (hle : m ≤ n) : J.Sound S n :=
  ⟨h.reads,fun hx => (h.nests hx).trans hle,h.writes⟩

theorem Sound.mapM_reads {S : Serde J.Value α} {depth : ℕ} (h : J.Sound S depth) {xs : List α} {items : List J.Value}
    (hxs : xs.mapM S.serialize = some items) :
    items.mapM S.deserialize = some xs ∧ ∀ v ∈ items, J.depth v ≤ depth := by
  induction xs generalizing items with
  | nil =>
    cases hxs
    exact ⟨rfl,List.forall_mem_nil _⟩
  | cons x xs ih =>
    simp only [List.mapM_cons,Option.bind_eq_bind,Option.bind_eq_some_iff,Option.pure_def,
      Option.some.injEq] at hxs
    obtain ⟨v,hv,vs,hvs,rfl⟩ := hxs
    obtain ⟨hread,hdepth⟩ := ih hvs
    refine ⟨?_,List.forall_mem_cons.mpr ⟨h.nests hv,hdepth⟩⟩
    simp [h.reads hv,hread]

/-- `others` are `fields` in any order, with fields of other names among them. -/
def Widens {J : Type} (fields others : List (String × J)) : Prop :=
  (others.filter fun f => f.1 ∈ fields.map Prod.fst).Perm fields

/-- A record is read in any order of its fields and past fields it does not know. -/
structure Record (J : SerdeJson) (S : Serde J.Value α) (depth : ℕ) : Prop extends J.Sound S depth where
  object : ∀ {x v}, S.serialize x = some v → ∃ fields, v = J.object fields
  tolerates : ∀ {x fields others}, S.serialize x = some (J.object fields) → Widens fields others →
    S.deserialize (J.object others) = some x

theorem Record.mono {S : Serde J.Value α} {m n : ℕ} (h : J.Record S m) (hle : m ≤ n) : J.Record S n :=
  ⟨h.toSound.mono hle,h.object,h.tolerates⟩

end SerdeJson

section
variable {J : SerdeJson} {S : Serde J.Value α} {depth : ℕ} {make : α → β} {get : β → Option α}

theorem Serde.via_sound (h : J.Sound S depth) (hmake : ∀ y x, get y = some x → make x = y)
    (hget : ∀ x, get (make x) = some x) : J.Sound (S.via make get) depth := by
  refine ⟨?_,?_,?_⟩
  · intro y v hy
    obtain ⟨x,hx,hv⟩ := Option.bind_eq_some_iff.mp hy
    simp [via,h.reads hv,hmake y x hx]
  · intro y v hy
    obtain ⟨x,_,hv⟩ := Option.bind_eq_some_iff.mp hy
    exact h.nests hv
  · intro y v hy
    obtain ⟨x,hx,rfl⟩ := Option.map_eq_some_iff.mp hy
    obtain ⟨w,hw⟩ := h.writes hx
    exact ⟨w,by simp [via,hget,hw]⟩

theorem Serde.via_record (h : J.Record S depth) (hmake : ∀ y x, get y = some x → make x = y)
    (hget : ∀ x, get (make x) = some x) : J.Record (S.via make get) depth := by
  refine ⟨via_sound h.toSound hmake hget,?_,?_⟩
  · intro y v hy
    obtain ⟨x,_,hv⟩ := Option.bind_eq_some_iff.mp hy
    exact h.object hv
  · intro y fields others hy hothers
    obtain ⟨x,hx,hv⟩ := Option.bind_eq_some_iff.mp hy
    simp [via,h.tolerates hv hothers,hmake y x hx]

end

/-- Each name stands once, so looking it up finds what stands beside it. -/
theorem lookup_of_mem {xs : List (String × α)} {name : String} {x : α} (hmem : (name,x) ∈ xs)
    (honce : (xs.map Prod.fst).count name ≤ 1) : xs.lookup name = some x := by
  induction xs with
  | nil => cases hmem
  | cons y ys ih =>
    obtain ⟨other,z⟩ := y
    rw [List.map_cons,List.count_cons] at honce
    rcases List.mem_cons.mp hmem with heq | hmem
    · cases heq
      simp
    · have hpos : 0 < (ys.map Prod.fst).count name :=
        List.count_pos_iff.mpr (List.mem_map_of_mem hmem)
      have hne : (other == name) = false := by
        by_contra heq
        rw [Bool.not_eq_false] at heq
        rw [if_pos heq] at honce
        omega
      have hne' : (name == other) = false := by
        rw [Bool.beq_comm]
        exact hne
      rw [List.lookup_cons,hne']
      refine ih hmem ?_
      omega

namespace SerdeJson

section
variable {J : Type} {fields others : List (String × J)}

theorem Widens.count (h : Widens fields others) (hnames : (fields.map Prod.fst).Nodup) {name : String}
    (hname : name ∈ fields.map Prod.fst) : (others.map Prod.fst).count name ≤ 1 := by
  have hkept : (others.map Prod.fst).count name =
      ((others.filter fun f => f.1 ∈ fields.map Prod.fst).map Prod.fst).count name := by
    simp only [List.count_eq_countP,List.countP_map,List.countP_filter]
    refine List.countP_congr fun f _ => ?_
    simp only [Function.comp_apply,Bool.and_eq_true,beq_iff_eq,decide_eq_true_eq]
    constructor
    · rintro rfl
      exact ⟨rfl,hname⟩
    · exact fun hf => hf.1
  rw [hkept,(h.map Prod.fst).count_eq]
  exact List.nodup_iff_count_le_one.mp hnames name

theorem Widens.lookup (h : Widens fields others) (hnames : (fields.map Prod.fst).Nodup)
    {f : String × J} (hf : f ∈ fields) : others.lookup f.1 = some f.2 := by
  have hmem := List.mem_filter.mp (h.symm.subset hf)
  exact lookup_of_mem hmem.1 (h.count hnames (List.mem_map_of_mem hf))

end

namespace Lawful

variable {J : SerdeJson} {S : Serde J.Value α} {T : Serde J.Value β} {U : Serde J.Value γ}
  {depth : ℕ} {variants : List (String × Serde J.Value β)}

/-! ### Options, sequences and tuples -/

theorem option_sound (hJ : J.Lawful) (h : J.Sound S depth)
    (hnull : ∀ x, S.serialize x ≠ some J.null) : J.Sound (J.option S) depth := by
  refine ⟨?_,?_,?_⟩
  · intro x v hx
    cases x with
    | none =>
      rw [hJ.option_none] at hx
      cases hx
      exact hJ.option_null
    | some x =>
      rw [hJ.option_some] at hx
      have hv : v ≠ J.null := by
        rintro rfl
        exact hnull x hx
      rw [hJ.option_value hv,h.reads hx]
      rfl
  · intro x v hx
    cases x with
    | none =>
      rw [hJ.option_none] at hx
      cases hx
      rw [hJ.depth_null]
      exact Nat.zero_le _
    | some x =>
      rw [hJ.option_some] at hx
      exact h.nests hx
  · intro x v hx
    by_cases hv : v = J.null
    · rw [hv,hJ.option_null] at hx
      cases hx
      exact ⟨_,hJ.option_none⟩
    · rw [hJ.option_value hv] at hx
      obtain ⟨y,hy,rfl⟩ := Option.map_eq_some_iff.mp hx
      obtain ⟨w,hw⟩ := h.writes hy
      exact ⟨w,(hJ.option_some y).trans hw⟩

theorem option_writes (hJ : J.Lawful) (x : Option α) :
    (J.option S).Writes x ↔ ∀ y ∈ x, S.Writes y := by
  cases x with
  | none => exact ⟨fun _ y hy => (by cases hy),fun _ => ⟨_,hJ.option_none⟩⟩
  | some x => simp [Serde.Writes,hJ.option_some]

theorem list_writes (hJ : J.Lawful) (xs : List α) : (J.list S).Writes xs ↔ ∀ x ∈ xs, S.Writes x := by
  have hitems : (∃ items, xs.mapM S.serialize = some items) ↔ ∀ x ∈ xs, S.Writes x := by
    induction xs with
    | nil => exact ⟨fun _ => List.forall_mem_nil _,fun _ => ⟨[],rfl⟩⟩
    | cons x xs ih =>
      rw [List.forall_mem_cons,← ih]
      simp only [List.mapM_cons,Option.bind_eq_bind,Option.bind_eq_some_iff,Option.pure_def,
        Option.some.injEq,Serde.Writes]
      constructor
      · rintro ⟨items,v,hv,vs,hvs,_⟩
        exact ⟨⟨v,hv⟩,vs,hvs⟩
      · rintro ⟨⟨v,hv⟩,vs,hvs⟩
        exact ⟨v :: vs,v,hv,vs,hvs,rfl⟩
  rw [← hitems]
  simp [Serde.Writes,hJ.list_serialize]

theorem list_sound (hJ : J.Lawful) (h : J.Sound S depth) : J.Sound (J.list S) (depth + 1) := by
  refine ⟨?_,?_,?_⟩
  · intro xs v hx
    rw [hJ.list_serialize] at hx
    obtain ⟨items,hxs,rfl⟩ := Option.map_eq_some_iff.mp hx
    rw [hJ.list_array]
    exact (h.mapM_reads hxs).1
  · intro xs v hx
    rw [hJ.list_serialize] at hx
    obtain ⟨items,hxs,rfl⟩ := Option.map_eq_some_iff.mp hx
    exact hJ.depth_array (h.mapM_reads hxs).2
  · intro xs v hx
    refine (hJ.list_writes xs).mpr fun x hmem => ?_
    obtain ⟨item,hitem⟩ := hJ.list_exact hx x hmem
    exact h.writes hitem

theorem pair_parts (hJ : J.Lawful) {x : α × β} {v : J.Value} (h : (J.pair S T).serialize x = some v) :
    ∃ a b, S.serialize x.1 = some a ∧ T.serialize x.2 = some b ∧ v = J.array [a,b] := by
  rw [hJ.pair_serialize] at h
  simp only [Option.bind_eq_bind,Option.bind_eq_some_iff,Option.pure_def,Option.some.injEq] at h
  obtain ⟨a,ha,b,hb,rfl⟩ := h
  exact ⟨a,b,ha,hb,rfl⟩

theorem pair_writes (hJ : J.Lawful) (x : α × β) :
    (J.pair S T).Writes x ↔ S.Writes x.1 ∧ T.Writes x.2 := by
  constructor
  · rintro ⟨v,hv⟩
    obtain ⟨a,b,ha,hb,_⟩ := hJ.pair_parts hv
    exact ⟨⟨a,ha⟩,b,hb⟩
  · rintro ⟨⟨a,ha⟩,b,hb⟩
    exact ⟨J.array [a,b],by simp [hJ.pair_serialize,ha,hb]⟩

theorem pair_ne_null (hJ : J.Lawful) (x : α × β) : (J.pair S T).serialize x ≠ some J.null := by
  intro hx
  obtain ⟨a,b,_,_,hv⟩ := hJ.pair_parts hx
  exact hJ.array_ne_null _ hv.symm

theorem pair_sound (hJ : J.Lawful) (hS : J.Sound S depth) (hT : J.Sound T depth) :
    J.Sound (J.pair S T) (depth + 1) := by
  refine ⟨?_,?_,?_⟩
  · intro x v hx
    obtain ⟨a,b,ha,hb,rfl⟩ := hJ.pair_parts hx
    simp [hJ.pair_array,hS.reads ha,hT.reads hb]
  · intro x v hx
    obtain ⟨a,b,ha,hb,rfl⟩ := hJ.pair_parts hx
    refine hJ.depth_array ?_
    simp [hS.nests ha,hT.nests hb]
  · intro x v hx
    obtain ⟨⟨a,ha⟩,b,hb⟩ := hJ.pair_exact hx
    exact (hJ.pair_writes x).mpr ⟨hS.writes ha,hT.writes hb⟩

theorem triple_parts (hJ : J.Lawful) {x : α × β × γ} {v : J.Value}
    (h : (J.triple S T U).serialize x = some v) :
    ∃ a b c, S.serialize x.1 = some a ∧ T.serialize x.2.1 = some b ∧ U.serialize x.2.2 = some c ∧
      v = J.array [a,b,c] := by
  rw [hJ.triple_serialize] at h
  simp only [Option.bind_eq_bind,Option.bind_eq_some_iff,Option.pure_def,Option.some.injEq] at h
  obtain ⟨a,ha,b,hb,c,hc,rfl⟩ := h
  exact ⟨a,b,c,ha,hb,hc,rfl⟩

theorem triple_writes (hJ : J.Lawful) (x : α × β × γ) :
    (J.triple S T U).Writes x ↔ S.Writes x.1 ∧ T.Writes x.2.1 ∧ U.Writes x.2.2 := by
  constructor
  · rintro ⟨v,hv⟩
    obtain ⟨a,b,c,ha,hb,hc,_⟩ := hJ.triple_parts hv
    exact ⟨⟨a,ha⟩,⟨b,hb⟩,c,hc⟩
  · rintro ⟨⟨a,ha⟩,⟨b,hb⟩,c,hc⟩
    exact ⟨J.array [a,b,c],by simp [hJ.triple_serialize,ha,hb,hc]⟩

theorem triple_sound (hJ : J.Lawful) (hS : J.Sound S depth) (hT : J.Sound T depth)
    (hU : J.Sound U depth) : J.Sound (J.triple S T U) (depth + 1) := by
  refine ⟨?_,?_,?_⟩
  · intro x v hx
    obtain ⟨a,b,c,ha,hb,hc,rfl⟩ := hJ.triple_parts hx
    simp [hJ.triple_array,hS.reads ha,hT.reads hb,hU.reads hc]
  · intro x v hx
    obtain ⟨a,b,c,ha,hb,hc,rfl⟩ := hJ.triple_parts hx
    refine hJ.depth_array ?_
    simp [hS.nests ha,hT.nests hb,hU.nests hc]
  · intro x v hx
    obtain ⟨⟨a,ha⟩,⟨b,hb⟩,c,hc⟩ := hJ.triple_exact hx
    exact (hJ.triple_writes x).mpr ⟨hS.writes ha,hT.writes hb,hU.writes hc⟩

/-! ### Tagged unions -/

theorem tagged_parts (hJ : J.Lawful) {y : β} {v : J.Value} (h : (J.tagged variants).serialize y = some v) :
    ∃ u ∈ variants, ∃ w, u.2.serialize y = some w ∧ v = J.object [(u.1,w)] := by
  rw [hJ.tagged_serialize] at h
  obtain ⟨u,hu,hv⟩ := List.exists_of_findSome?_eq_some h
  obtain ⟨w,hw,rfl⟩ := Option.map_eq_some_iff.mp hv
  exact ⟨u,hu,w,hw,rfl⟩

theorem tagged_reads (hJ : J.Lawful) (hnames : (variants.map Prod.fst).Nodup)
    {u : String × Serde J.Value β} (hu : u ∈ variants) (v : J.Value) :
    (J.tagged variants).deserialize (J.object [(u.1,v)]) = u.2.deserialize v := by
  have hlookup : variants.lookup u.1 = some u.2 :=
    lookup_of_mem hu (List.nodup_iff_count_le_one.mp hnames u.1)
  simp [hJ.tagged_object,hlookup]

theorem tagged_writes (hJ : J.Lawful) (y : β) :
    (J.tagged variants).Writes y ↔ ∃ u ∈ variants, u.2.Writes y := by
  constructor
  · rintro ⟨v,hv⟩
    obtain ⟨u,hu,w,hw,_⟩ := hJ.tagged_parts hv
    exact ⟨u,hu,w,hw⟩
  · rintro ⟨u,hu,w,hw⟩
    have hsome : ((J.tagged variants).serialize y).isSome := by
      rw [hJ.tagged_serialize,List.isSome_findSome?,List.any_eq_true]
      exact ⟨u,hu,by simp [hw]⟩
    exact Option.isSome_iff_exists.mp hsome

theorem tagged_nil_writes (hJ : J.Lawful) (y : β) : (J.tagged []).Writes y ↔ False := by
  simp [hJ.tagged_writes]

theorem tagged_cons_writes (hJ : J.Lawful) (u : String × Serde J.Value β) (y : β) :
    (J.tagged (u :: variants)).Writes y ↔ u.2.Writes y ∨ (J.tagged variants).Writes y := by
  simp [hJ.tagged_writes]

theorem tagged_sound (hJ : J.Lawful) (hnames : (variants.map Prod.fst).Nodup)
    (h : ∀ u ∈ variants, J.Sound u.2 depth) : J.Sound (J.tagged variants) (depth + 1) := by
  refine ⟨?_,?_,?_⟩
  · intro y v hy
    obtain ⟨u,hu,w,hw,rfl⟩ := hJ.tagged_parts hy
    rw [hJ.tagged_reads hnames hu]
    exact (h u hu).reads hw
  · intro y v hy
    obtain ⟨u,hu,w,hw,rfl⟩ := hJ.tagged_parts hy
    exact hJ.depth_object (List.forall_mem_singleton.mpr ((h u hu).nests hw))
  · intro y v hy
    obtain ⟨u,hu,w,hw⟩ := hJ.tagged_exact hy
    exact (hJ.tagged_writes y).mpr ⟨u,hu,(h u hu).writes hw⟩

/-- The record behind a tag is read as tolerantly as the record itself. -/
theorem tagged_tolerates (hJ : J.Lawful) (hnames : (variants.map Prod.fst).Nodup)
    (h : ∀ u ∈ variants, J.Record u.2 depth) {y : β} {v : J.Value}
    (hy : (J.tagged variants).serialize y = some v) :
    ∃ tag fields, v = J.object [(tag,J.object fields)] ∧ ∀ others, Widens fields others →
      (J.tagged variants).deserialize (J.object [(tag,J.object others)]) = some y := by
  obtain ⟨u,hu,w,hw,rfl⟩ := hJ.tagged_parts hy
  obtain ⟨fields,rfl⟩ := (h u hu).object hw
  refine ⟨u.1,fields,rfl,fun others hothers => ?_⟩
  rw [hJ.tagged_reads hnames hu]
  exact (h u hu).tolerates hw hothers

end Lawful

end SerdeJson

/-! ### Records -/

section
variable {J : SerdeJson}

def Field.required {J : Type} (name : String) (S : Serde J α) : Field J α := ⟨name,S,none,none⟩

def SerdeJson.optional (J : SerdeJson) (name : String) (S : Serde J.Value α) : Field J.Value (Option α) :=
  ⟨name,J.option S,some none,none⟩

/-- `#[serde(default)]`. -/
def Field.withDefault {J : Type} (name : String) (S : Serde J α) (x : α) : Field J α :=
  ⟨name,S,some x,some x⟩

@[simp] theorem Field.required_name {J : Type} (name : String) (S : Serde J α) :
    (required name S).name = name := rfl

@[simp] theorem SerdeJson.optional_name (name : String) (S : Serde J.Value α) :
    (J.optional name S).name = name := rfl

@[simp] theorem Field.withDefault_name {J : Type} (name : String) (S : Serde J α) (x : α) :
    (withDefault name S x).name = name := rfl

@[simp] theorem Field.required_serde {J : Type} (name : String) (S : Serde J α) :
    (required name S).serde = S := rfl

@[simp] theorem SerdeJson.optional_serde (name : String) (S : Serde J.Value α) :
    (J.optional name S).serde = J.option S := rfl

@[simp] theorem Field.withDefault_serde {J : Type} (name : String) (S : Serde J α) (x : α) :
    (withDefault name S x).serde = S := rfl

structure Layout.Sound (J : SerdeJson) (L : Layout J.Value α) (depth : ℕ) : Prop where
  names : ∀ {x fields}, L.write x = some fields → fields.map Prod.fst = L.names
  /-- only the values beside the names count -/
  reads : ∀ {x fields}, L.write x = some fields → ∀ {others : List (String × J.Value)},
    (∀ f ∈ fields, others.lookup f.1 = some f.2) → L.read others = some x
  nests : ∀ {x fields}, L.write x = some fields → ∀ f ∈ fields, J.depth f.2 ≤ depth
  writes : ∀ {x}, L.Made x → L.Writes x

namespace Layout

variable {depth : ℕ}

theorem one_sound {f : Field J.Value α} (h : J.Sound f.serde depth)
    (hmissing : ∀ x ∈ f.missing, f.serde.Writes x) (hshort : ∀ x ∈ f.short, f.serde.Writes x) :
    Sound J (one f) depth := by
  refine ⟨?_,?_,?_,?_⟩
  · intro x fields hx
    obtain ⟨v,_,rfl⟩ := Option.map_eq_some_iff.mp hx
    rfl
  · intro x fields hx others hothers
    obtain ⟨v,hv,rfl⟩ := Option.map_eq_some_iff.mp hx
    have hlookup := hothers (f.name,v) (List.mem_singleton.mpr rfl)
    simp only [read,hlookup]
    exact h.reads hv
  · intro x fields hx g hg
    obtain ⟨v,hv,rfl⟩ := Option.map_eq_some_iff.mp hx
    rw [List.mem_singleton.mp hg]
    exact h.nests hv
  · intro x hx
    rw [one_writes]
    rcases hx with ⟨v,hv⟩ | hx | hx
    · exact h.writes hv
    · exact hmissing x hx
    · exact hshort x hx

theorem and_sound {L : Layout J.Value α} {M : Layout J.Value β} (hL : Sound J L depth)
    (hM : Sound J M depth) : Sound J (L.and M) depth := by
  have hparts : ∀ {x : α × β} {fields}, (L.and M).write x = some fields →
      ∃ xs ys, L.write x.1 = some xs ∧ M.write x.2 = some ys ∧ fields = xs ++ ys := by
    intro x fields hx
    simp only [write,Option.bind_eq_bind,Option.bind_eq_some_iff,Option.pure_def,Option.some.injEq] at hx
    obtain ⟨xs,hxs,ys,hys,rfl⟩ := hx
    exact ⟨xs,ys,hxs,hys,rfl⟩
  refine ⟨?_,?_,?_,?_⟩
  · intro x fields hx
    obtain ⟨xs,ys,hxs,hys,rfl⟩ := hparts hx
    rw [List.map_append,hL.names hxs,hM.names hys]
    rfl
  · intro x fields hx others hothers
    obtain ⟨xs,ys,hxs,hys,rfl⟩ := hparts hx
    have hfirst := hL.reads hxs fun f hf => hothers f (List.mem_append_left _ hf)
    have hsecond := hM.reads hys fun f hf => hothers f (List.mem_append_right _ hf)
    simp [read,hfirst,hsecond]
  · intro x fields hx f hf
    obtain ⟨xs,ys,hxs,hys,rfl⟩ := hparts hx
    rcases List.mem_append.mp hf with hf | hf
    · exact hL.nests hxs f hf
    · exact hM.nests hys f hf
  · intro x hx
    exact (and_writes L M x).mpr ⟨hL.writes hx.1,hM.writes hx.2⟩

theorem required_sound {name : String} {S : Serde J.Value α} (h : J.Sound S depth) :
    Sound J (one (.required name S)) depth :=
  one_sound h (fun _ hx => by cases hx) (fun _ hx => by cases hx)

theorem optional_sound (hJ : J.Lawful) {name : String} {S : Serde J.Value α} (h : J.Sound S depth)
    (hnull : ∀ x, S.serialize x ≠ some J.null) : Sound J (one (J.optional name S)) depth := by
  refine one_sound (hJ.option_sound h hnull) (fun x hx => ?_) (fun _ hx => by cases hx)
  cases hx
  exact ⟨_,hJ.option_none⟩

theorem withDefault_sound {name : String} {S : Serde J.Value α} {x : α} (h : J.Sound S depth)
    (hx : S.Writes x) : Sound J (one (.withDefault name S x)) depth := by
  refine one_sound h (fun y hy => ?_) (fun y hy => ?_) <;>
  · cases hy
    exact hx

end Layout

namespace SerdeJson.Lawful

variable {depth : ℕ} {L : Layout J.Value α}

theorem record_writes (hJ : J.Lawful) (x : α) : (J.record L).Writes x ↔ L.Writes x := by
  simp [Layout.Writes,Serde.Writes,hJ.record_serialize]

/-- The fields may come in any order, with others among them that the record does not
know. -/
theorem reads_among (hJ : J.Lawful) (h : Layout.Sound J L depth) (hnames : L.names.Nodup) {x : α}
    {fields others : List (String × J.Value)} (hx : L.write x = some fields)
    (hothers : Widens fields others) : (J.record L).deserialize (J.object others) = some x := by
  rw [← h.names hx] at hnames
  have hcount : ∀ name ∈ L.names, (others.map Prod.fst).count name ≤ 1 := by
    intro name hname
    rw [← h.names hx] at hname
    exact hothers.count hnames hname
  rw [hJ.record_object hcount]
  exact h.reads hx fun f hf => hothers.lookup hnames hf

theorem record_record (hJ : J.Lawful) (h : Layout.Sound J L depth) (hnames : L.names.Nodup) :
    J.Record (J.record L) (depth + 1) := by
  have hparts : ∀ {x v}, (J.record L).serialize x = some v →
      ∃ fields, L.write x = some fields ∧ v = J.object fields := by
    intro x v hx
    rw [hJ.record_serialize] at hx
    obtain ⟨fields,hfields,rfl⟩ := Option.map_eq_some_iff.mp hx
    exact ⟨fields,hfields,rfl⟩
  -- a record in its own order is one of the orders
  have hself : ∀ fields : List (String × J.Value), Widens fields fields := by
    intro fields
    rw [Widens,List.filter_eq_self.mpr]
    intro f hf
    exact decide_eq_true (List.mem_map_of_mem hf)
  refine ⟨⟨?_,?_,?_⟩,?_,?_⟩
  · intro x v hx
    obtain ⟨fields,hfields,rfl⟩ := hparts hx
    exact hJ.reads_among h hnames hfields (hself fields)
  · intro x v hx
    obtain ⟨fields,hfields,rfl⟩ := hparts hx
    exact hJ.depth_object (h.nests hfields)
  · intro x v hx
    exact (hJ.record_writes x).mpr (h.writes (hJ.record_exact hx))
  · intro x v hx
    obtain ⟨fields,_,rfl⟩ := hparts hx
    exact ⟨fields,rfl⟩
  · intro x fields others hx hothers
    obtain ⟨written,hfields,heq⟩ := hparts hx
    rw [hJ.object_injective heq] at hothers
    exact hJ.reads_among h hnames hfields hothers

end SerdeJson.Lawful

end

@[simp] theorem Serde.via_writes {J : Type} (S : Serde J α) (make : α → β) (get : β → Option α) (y : β) :
    (S.via make get).Writes y ↔ (get y).elim False S.Writes := by
  simp only [Writes,via]
  cases get y with
  | none =>
    refine ⟨?_,False.elim⟩
    rintro ⟨v,hv⟩
    cases hv
  | some x => exact Iff.rfl

end Daccord
