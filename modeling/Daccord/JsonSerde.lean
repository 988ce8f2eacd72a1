import Daccord.Json
import Daccord.Serde

/-! The JSON texts of `Json` with derived serialisers over them: a library of the kind
that `SerdeJson.Lawful` asks for. -/
namespace Daccord

open Json

variable {α β γ : Type}

/-- The fields of a record from a sequence, the first of them at `pos`. -/
def Layout.readItems : {α : Type} → Layout Json α → ℕ → List Json → Option α
  | _, .one f, pos, items =>
    match items[pos]? with
    | some v => f.serde.deserialize v
    | none => f.short
  | _, .and L M, pos, items => do
    let x ← L.readItems pos items
    let y ← M.readItems (pos + L.names.length) items
    return (x,y)

namespace Json

def unsignedSerde (bits : ℕ) : Serde Json ℕ where
  serialize n := if n < 2 ^ bits then some (.number (.ofNat n)) else none
  deserialize
    | .number n => n.toNat?.filter fun k => k < 2 ^ bits
    | _ => none

def boolSerde : Serde Json Bool where
  serialize b := some (.bool b)
  deserialize
    | .bool b => some b
    | _ => none

def stringSerde : Serde Json String where
  serialize s := some (.string s)
  deserialize
    | .string s => some s
    | _ => none

def optionSerde (S : Serde Json α) : Serde Json (Option α) where
  serialize
    | none => some .null
    | some x => S.serialize x
  deserialize
    | .null => some none
    | v => (S.deserialize v).map some

def listSerde (S : Serde Json α) : Serde Json (List α) where
  serialize xs := (xs.mapM S.serialize).map .array
  deserialize
    | .array items => items.mapM S.deserialize
    | _ => none

def pairSerde (S : Serde Json α) (T : Serde Json β) : Serde Json (α × β) where
  serialize x := do return .array [← S.serialize x.1,← T.serialize x.2]
  deserialize
    | .array [a,b] => do return (← S.deserialize a,← T.deserialize b)
    | _ => none

def tripleSerde (S : Serde Json α) (T : Serde Json β) (U : Serde Json γ) : Serde Json (α × β × γ) where
  serialize x := do return .array [← S.serialize x.1,← T.serialize x.2.1,← U.serialize x.2.2]
  deserialize
    | .array [a,b,c] => do return (← S.deserialize a,← T.deserialize b,← U.deserialize c)
    | _ => none

/-- Names the record knows stand at most once; other names are passed over. -/
def recordSerde (L : Layout Json α) : Serde Json α where
  serialize x := (L.write x).map .object
  deserialize
    | .object fields =>
      if ∀ name ∈ L.names, (fields.map Prod.fst).count name ≤ 1 then L.read fields else none
    | .array items => if items.length ≤ L.names.length then L.readItems 0 items else none
    | _ => none

def taggedSerde (variants : List (String × Serde Json β)) : Serde Json β where
  serialize y := variants.findSome? fun u => (u.2.serialize y).map fun v => .object [(u.1,v)]
  deserialize
    | .object [(tag,v)] => (variants.lookup tag).bind fun S => S.deserialize v
    | _ => none

def toVec (v : Json) : List UInt8 := (String.ofList v.print).toUTF8.data.toList

def fromSlice (bytes : List UInt8) : Option Json :=
  (String.fromUTF8? ⟨bytes.toArray⟩).bind fun s => parse recursionLimit s.toList

end Json

def serdeJson : SerdeJson where
  Value := Json
  null := .null
  array := .array
  object := .object
  depth := Json.depth
  toVec := toVec
  fromSlice := fromSlice
  unsigned := unsignedSerde
  bool := boolSerde
  string := stringSerde
  option := optionSerde
  list := listSerde
  pair := pairSerde
  triple := tripleSerde
  record := recordSerde
  tagged := taggedSerde

theorem fromSlice_toVec {v : Json} (h : v.depth < recursionLimit) : fromSlice (toVec v) = some v := by
  have hbytes : (⟨(toVec v).toArray⟩ : ByteArray) = (String.ofList v.print).toUTF8 := by
    rw [toVec,Array.toArray_toList]
  have hvalid : String.fromUTF8? (String.ofList v.print).toUTF8 = some (String.ofList v.print) :=
    dif_pos (String.ofList v.print).isValidUTF8
  rw [fromSlice,hbytes,hvalid,Option.bind_some,String.toList_ofList]
  exact Json.parse_print h

theorem itemsDepth_le {items : List Json} {n : ℕ} (h : ∀ v ∈ items, v.depth ≤ n) :
    itemsDepth items ≤ n := by
  induction items with
  | nil => exact Nat.zero_le _
  | cons v items ih =>
    exact max_le (h v List.mem_cons_self) (ih fun w hw => h w (List.mem_cons_of_mem _ hw))

theorem fieldsDepth_le {fields : List (String × Json)} {n : ℕ} (h : ∀ f ∈ fields, f.2.depth ≤ n) :
    fieldsDepth fields ≤ n := by
  induction fields with
  | nil => exact Nat.zero_le _
  | cons f fields ih =>
    exact max_le (h f List.mem_cons_self) (ih fun g hg => h g (List.mem_cons_of_mem _ hg))

theorem unsignedSerde_sound (bits : ℕ) : serdeJson.Sound (unsignedSerde bits) 0 := by
  refine ⟨?_,?_,?_⟩
  · intro n v h
    simp only [unsignedSerde] at h ⊢
    split at h
    · rename_i hlt
      cases h
      simp [Number.toNat?,Number.ofNat,Option.filter,hlt]
    · cases h
  · intro n v h
    simp only [unsignedSerde] at h
    split at h
    · cases h
      exact le_refl _
    · cases h
  · intro n (v : Json) h
    simp only [unsignedSerde] at h
    split at h
    · obtain ⟨_,hlt⟩ := Option.filter_eq_some_iff.mp h
      exact ⟨_,if_pos (by simpa using hlt)⟩
    · cases h

theorem unsignedSerde_writes (bits n : ℕ) : (unsignedSerde bits).Writes n ↔ n < 2 ^ bits := by
  simp only [Serde.Writes,unsignedSerde]
  split
  · rename_i hlt
    exact ⟨fun _ => hlt,fun _ => ⟨_,rfl⟩⟩
  · rename_i hge
    refine ⟨?_,fun hlt => absurd hlt hge⟩
    rintro ⟨v,hv⟩
    cases hv

theorem unsignedSerde_ne_null (bits n : ℕ) : (unsignedSerde bits).serialize n ≠ some .null := by
  simp only [unsignedSerde]
  split <;> simp

theorem boolSerde_sound : serdeJson.Sound boolSerde 0 := by
  refine ⟨?_,?_,fun _ => ⟨_,rfl⟩⟩
  · intro b v h
    cases h
    rfl
  · intro b v h
    cases h
    exact le_refl _

theorem stringSerde_sound : serdeJson.Sound stringSerde 0 := by
  refine ⟨?_,?_,fun _ => ⟨_,rfl⟩⟩
  · intro s v h
    cases h
    rfl
  · intro s v h
    cases h
    exact le_refl _

theorem mapM_exact {S : Serde Json α} {items : List Json} {xs : List α}
    (h : items.mapM S.deserialize = some xs) : ∀ x ∈ xs, ∃ item, S.deserialize item = some x := by
  induction items generalizing xs with
  | nil =>
    cases h
    exact List.forall_mem_nil _
  | cons item items ih =>
    simp only [List.mapM_cons,Option.bind_eq_bind,Option.bind_eq_some_iff,Option.pure_def,
      Option.some.injEq] at h
    obtain ⟨x,hx,ys,hys,rfl⟩ := h
    exact List.forall_mem_cons.mpr ⟨⟨item,hx⟩,ih hys⟩

theorem Layout.read_made (L : Layout Json α) {fields : List (String × Json)} {x : α}
    (h : L.read fields = some x) : L.Made x := by
  induction L with
  | one f =>
    simp only [Layout.read] at h
    split at h
    · exact Or.inl ⟨_,h⟩
    · exact Or.inr (Or.inl h)
  | and L M ihL ihM =>
    simp only [Layout.read,Option.bind_eq_bind,Option.bind_eq_some_iff,Option.pure_def,
      Option.some.injEq] at h
    obtain ⟨y,hy,z,hz,rfl⟩ := h
    exact ⟨ihL hy,ihM hz⟩

theorem Layout.readItems_made (L : Layout Json α) {pos : ℕ} {items : List Json} {x : α}
    (h : L.readItems pos items = some x) : L.Made x := by
  induction L generalizing pos with
  | one f =>
    simp only [Layout.readItems] at h
    split at h
    · exact Or.inl ⟨_,h⟩
    · exact Or.inr (Or.inr h)
  | and L M ihL ihM =>
    simp only [Layout.readItems,Option.bind_eq_bind,Option.bind_eq_some_iff,Option.pure_def,
      Option.some.injEq] at h
    obtain ⟨y,hy,z,hz,rfl⟩ := h
    exact ⟨ihL hy,ihM hz⟩

theorem recordSerde_exact {L : Layout Json α} {v : Json} {x : α}
    (h : (recordSerde L).deserialize v = some x) : L.Made x := by
  simp only [recordSerde] at h
  split at h
  · split at h
    · exact L.read_made h
    · cases h
  · split at h
    · exact L.readItems_made h
    · cases h
  · cases h

theorem taggedSerde_exact {variants : List (String × Serde Json β)} {v : Json} {y : β}
    (h : (taggedSerde variants).deserialize v = some y) :
    ∃ u ∈ variants, ∃ w, u.2.deserialize w = some y := by
  simp only [taggedSerde] at h
  split at h
  · rename_i tag w
    obtain ⟨S,hS,hread⟩ := Option.bind_eq_some_iff.mp h
    obtain ⟨l₁,l₂,hsplit,_⟩ := List.lookup_eq_some_iff.mp hS
    refine ⟨(tag,S),?_,w,hread⟩
    rw [hsplit]
    simp
  · cases h

theorem pairSerde_exact {S : Serde Json α} {T : Serde Json β} {v : Json} {x : α × β}
    (h : (pairSerde S T).deserialize v = some x) :
    (∃ a, S.deserialize a = some x.1) ∧ ∃ b, T.deserialize b = some x.2 := by
  simp only [pairSerde] at h
  split at h
  · simp only [Option.bind_eq_bind,Option.bind_eq_some_iff,Option.pure_def,Option.some.injEq] at h
    obtain ⟨y,hy,z,hz,rfl⟩ := h
    exact ⟨⟨_,hy⟩,_,hz⟩
  · cases h

theorem tripleSerde_exact {S : Serde Json α} {T : Serde Json β} {U : Serde Json γ} {v : Json}
    {x : α × β × γ} (h : (tripleSerde S T U).deserialize v = some x) :
    (∃ a, S.deserialize a = some x.1) ∧ (∃ b, T.deserialize b = some x.2.1) ∧
      ∃ c, U.deserialize c = some x.2.2 := by
  simp only [tripleSerde] at h
  split at h
  · simp only [Option.bind_eq_bind,Option.bind_eq_some_iff,Option.pure_def,Option.some.injEq] at h
    obtain ⟨y,hy,z,hz,w,hw,rfl⟩ := h
    exact ⟨⟨_,hy⟩,⟨_,hz⟩,_,hw⟩
  · cases h

theorem serdeJson_lawful : serdeJson.Lawful where
  fromSlice_toVec := fromSlice_toVec
  depth_null := rfl
  depth_array h := Nat.succ_le_succ (itemsDepth_le h)
  depth_object h := Nat.succ_le_succ (fieldsDepth_le h)
  array_ne_null _ h := by cases h
  object_injective _ _ h := by
    cases h
    rfl
  unsigned_sound := unsignedSerde_sound
  unsigned_writes := unsignedSerde_writes
  unsigned_ne_null := unsignedSerde_ne_null
  bool_sound := boolSerde_sound
  bool_writes b := ⟨_,rfl⟩
  string_sound := stringSerde_sound
  string_writes s := ⟨_,rfl⟩
  option_none := rfl
  option_some _ := rfl
  option_null := rfl
  option_value {_ _ v} h := by
    cases v with
    | null => exact absurd rfl h
    | _ => rfl
  list_serialize _ := rfl
  list_array _ := rfl
  list_exact {_ _ v xs} h := by
    cases v with
    | array items => exact mapM_exact h
    | _ => cases h
  pair_serialize _ := rfl
  pair_array _ _ := rfl
  pair_exact := pairSerde_exact
  triple_serialize _ := rfl
  triple_array _ _ _ := rfl
  triple_exact := tripleSerde_exact
  record_serialize _ := rfl
  record_object h := if_pos h
  record_exact := recordSerde_exact
  tagged_serialize _ := rfl
  tagged_object _ _ := rfl
  tagged_exact := taggedSerde_exact

end Daccord
