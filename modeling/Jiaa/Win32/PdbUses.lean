/-
  Jiaa.Win32.PdbUses — the records that a record of a PDB is made of (memflow-win32
  `offsets/pdb_struct/data.rs`).

  A class uses the types of its fields, methods and bases; pointers, modifiers and arrays
  lead to the class, enumeration or union they are about. These are noted as needed when
  the class is added, and they have lower indices.

  - `Data.add_notes`: exactly the records that are noted when a record is added;
  - `uses_lower`: they are lower ones.
-/

import Jiaa.Lib.Worklist
import Jiaa.Win32.PdbData

namespace Jiaa.Win32.Pdb

open Lib.Worklist

/-! ## What a record uses -/

/-- The class, enumeration or union that a type names. -/
def named (f : TypeFinder) (i : Nat) : Option Nat :=
  match _h : f.find i with
  | .ok (.class _) => some i
  | .ok (.enumeration ..) => some i
  | .ok (.union _) => some i
  | .ok (.pointer t) => named f t
  | .ok (.modifier _ _ t) => named f t
  | .ok (.array t _) => named f t
  | _ => none
  termination_by i
  decreasing_by all_goals exact f.lower i _ (by assumption) _ (by simp [TypeData.refs])

def argumentTypes (f : TypeFinder) (i : Nat) : List Nat :=
  match f.find i with
  | .ok (.argumentList arguments) => arguments
  | _ => []

def methodTypes (f : TypeFinder) (i : Nat) : List Nat :=
  match f.find i with
  | .ok (.memberFunction returnType arguments) => returnType :: argumentTypes f arguments
  | _ => []

/-- The types that an item of a field list is made of. -/
def FieldData.types (f : TypeFinder) : FieldData → List Nat
  | .member _ t _ => [t]
  | .method _ _ t => methodTypes f t
  | .overloadedMethod _ list =>
    match f.find list with
    | .ok (.methodList methods) => methods.flatMap fun m => methodTypes f m.2
    | _ => []
  | .baseClass t _ => [t]
  | .virtualBaseClass t _ => [t]
  | .enumerate .. => []
  | .other => []

/-- The items of a field list and of those that continue it. -/
def items (f : TypeFinder) (i : Nat) : List FieldData :=
  match _h : f.find i with
  | .ok (.fieldList fields none) => fields
  | .ok (.fieldList fields (some continuation)) => fields ++ items f continuation
  | _ => []
  termination_by i
  decreasing_by exact f.lower i _ (by assumption) _ (by simp [TypeData.refs])

def ClassType.types (f : TypeFinder) (data : ClassType) : List Nat :=
  (data.fields.elim [] (items f)).flatMap (FieldData.types f)

def TypeData.types (f : TypeFinder) : TypeData → List Nat
  | .class data => if data.forwardReference then [] else data.types f
  | .enumeration _ underlyingType _ => [underlyingType]
  | _ => []

/-- The classes, enumerations and unions that a record is made of. -/
def uses (f : TypeFinder) (i : Nat) : List Nat :=
  match f.find i with
  | .ok d => (d.types f).filterMap (named f)
  | .error _ => []

/-! ## What is noted -/

/-- What is noted as needed on the way is what the types name. -/
def Notes {α : Type} (f : TypeFinder) (types : List Nat) (x : AddM α) : Prop :=
  ∀ s a s', x s = .ok (a, s') → ∀ j, j ∈ s' ↔ j ∈ s ∨ j ∈ types.filterMap (named f)

namespace Notes

variable {f : TypeFinder} {α β : Type} {types types' : List Nat}

theorem pure (a : α) : Notes f [] (pure a : AddM α) := by
  intro s a s' h j
  cases h
  simp

theorem throw (e : Stop) : Notes f types (throw e : AddM α) := nofun

theorem bind {x : AddM α} {g : α → AddM β} (hx : Notes f types x) (hg : ∀ a, Notes f types' (g a)) :
    Notes f (types ++ types') (x >>= g) := by
  intro s b s' h j
  obtain ⟨a, s1, hxs, hgs⟩ := bind_ok h
  rw [hg a s1 b s' hgs j, hx s a s1 hxs j, List.filterMap_append, List.mem_append, or_assoc]

theorem map {x : AddM α} {g : α → β} (hx : Notes f types x) : Notes f types (x >>= fun a => Pure.pure (g a)) := by
  simpa using hx.bind fun a => pure (g a)

theorem foldlM {γ : Type} {g : β → γ → AddM β} {typesOf : γ → List Nat} (hg : ∀ acc x, Notes f (typesOf x) (g acc x)) :
    ∀ (l : List γ) (acc : β), Notes f (l.flatMap typesOf) (l.foldlM g acc) := by
  intro l
  induction l with
  | nil => exact fun acc => pure acc
  | cons x l ih =>
    intro acc
    rw [List.foldlM_cons, List.flatMap_cons]
    exact (hg acc x).bind ih

end Notes

theorem need_notes {f : TypeFinder} {i : Nat} (h : named f i = some i) : Notes f [i] (need i) := by
  intro s a s' hs j
  cases hs
  simp [h, or_comm]

section Exact

variable (f : TypeFinder)

theorem typeName_notes (i : Nat) : Notes f [i] (typeName f i) := by
  induction i using Nat.strongRecOn with
  | ind i ih =>
    have inner : ∀ d t, f.find i = .ok d → t ∈ d.refs → named f i = named f t → Notes f [i] (typeName f t) := by
      intro d t hd ht hn s a s' h j
      simpa [hn] using ih t (f.lower i d hd t ht) s a s' h j
    rw [typeName]
    refine Notes.map ?_
    split
    · exact Notes.throw _
    · next h =>
      have hn : named f i = none := by rw [named]; split <;> simp_all
      intro s a s' hs j
      cases hs
      simp [hn]
    · next h => exact (need_notes (by rw [named]; split <;> simp_all)).map
    · next h => exact (need_notes (by rw [named]; split <;> simp_all)).map
    · next h => exact (need_notes (by rw [named]; split <;> simp_all)).map
    · next h => exact (inner _ _ h (by simp [TypeData.refs]) (by rw [named]; split <;> simp_all)).map
    · next h => exact (inner _ _ h (by simp [TypeData.refs]) (by rw [named]; split <;> simp_all)).map
    · next h => exact (inner _ _ h (by simp [TypeData.refs]) (by rw [named]; split <;> simp_all)).map
    · next h =>
      have hn : named f i = none := by rw [named]; split <;> grind
      intro s a s' hs j
      cases hs
      simp [hn]

theorem argumentList_notes (i : Nat) : Notes f (argumentTypes f i) (argumentList f i) := by
  unfold argumentList
  split
  · exact Notes.throw _
  · next arguments hd =>
    simpa [argumentTypes, hd] using Notes.foldlM (fun args t => (typeName_notes f t).map) arguments []
  · exact Notes.throw _

theorem Method.find_notes (name : RawString) (attributes : FieldAttributes) (i : Nat) :
    Notes f (methodTypes f i) (Method.find f name attributes i) := by
  unfold Method.find
  split
  · exact Notes.throw _
  · next returnType arguments hd =>
    simp only [methodTypes, hd]
    exact (typeName_notes f returnType).bind fun _ => (argumentList_notes f arguments).map
  · exact Notes.throw _

theorem Class.addMethod_notes (name : RawString) (self : Class) (attributes : FieldAttributes) (i : Nat) :
    Notes f (methodTypes f i) (self.addMethod f name attributes i) :=
  (Method.find_notes f name attributes i).map

theorem Class.addField_notes (self : Class) (field : FieldData) : Notes f (field.types f) (self.addField f field) := by
  cases field with
  | member name t offset => exact (typeName_notes f t).map
  | method name attributes t => exact addMethod_notes f name self attributes t
  | overloadedMethod name list =>
    unfold addField
    dsimp only
    split
    · exact Notes.throw _
    · next methods hd =>
      simp only [FieldData.types, hd]
      exact Notes.foldlM (fun self m => addMethod_notes f name self m.1 m.2) methods self
    · exact Notes.throw _
  | baseClass t offset => exact (typeName_notes f t).map
  | virtualBaseClass t offset => exact (typeName_notes f t).map
  | enumerate name value => exact Notes.pure _
  | other => exact Notes.pure _

theorem items_last {i : Nat} {fields : List FieldData} (hd : f.find i = .ok (.fieldList fields none)) :
    items f i = fields := by
  rw [items]
  split <;> simp_all

theorem items_continued {i continuation : Nat} {fields : List FieldData}
    (hd : f.find i = .ok (.fieldList fields (some continuation))) : items f i = fields ++ items f continuation := by
  rw [items]
  split <;> simp_all

theorem Class.addFields_notes (i : Nat) : ∀ self : Class,
    Notes f ((items f i).flatMap (FieldData.types f)) (self.addFields f i) := by
  induction i using Nat.strongRecOn with
  | ind i ih =>
    intro self
    rw [addFields]
    split
    · exact Notes.throw _
    · next fields hd =>
      rw [items_last f hd]
      exact Notes.foldlM (addField_notes f) fields self
    · next fields continuation hd =>
      have hlt : continuation < i := f.lower i _ hd _ (by simp [TypeData.refs])
      rw [items_continued f hd, List.flatMap_append]
      exact (Notes.foldlM (addField_notes f) fields self).bind fun self => ih continuation hlt self
    · exact Notes.throw _

theorem Enum.addFields_notes (i : Nat) : ∀ self : Enum, Notes f [] (self.addFields f i) := by
  induction i using Nat.strongRecOn with
  | ind i ih =>
    intro self
    rw [addFields]
    split
    · exact Notes.throw _
    · exact Notes.pure _
    · next fields continuation hd => exact ih continuation (f.lower i _ hd _ (by simp [TypeData.refs])) _
    · exact Notes.throw _

theorem Data.addClass_notes (data : ClassType) : Notes f (data.types f) (addClass f data) := by
  unfold addClass ClassType.types
  split
  · next hf => simpa [hf] using Notes.pure _
  · next fields hf => simpa [hf] using Class.addFields_notes f fields _

/-- Adding a record notes what it uses. -/
theorem Data.add_notes (self : Data) (i : Nat) {d : TypeData} (hd : f.find i = .ok d) :
    Notes f (d.types f) (self.add f i) := by
  unfold Data.add
  simp only [hd]
  cases d with
  | «class» data =>
    by_cases hforward : data.forwardReference
    · simpa [TypeData.types, hforward] using Notes.pure _
    · simpa [TypeData.types, hforward] using (Data.addClass_notes f data).map
  | enumeration name t fields =>
    exact (typeName_notes f t).bind fun _ => (Enum.addFields_notes f fields _).map
  | _ => exact Notes.pure _

theorem add_refills :
    Refills (fun i j => j ∈ uses f i) fun i (data : Data) (needed : Finset Nat) => data.add f i needed := by
  intro i data needed data' needed' h j
  cases hd : f.find i with
  | error e =>
    unfold Data.add at h
    simp only [hd] at h
    cases h
  | ok d =>
    simp only [uses, hd]
    exact data.add_notes f i hd needed data' needed' h j

/-! ## Only lower records are used -/

theorem named_le (i : Nat) : ∀ j ∈ named f i, j ≤ i := by
  induction i using Nat.strongRecOn with
  | ind i ih =>
    have inner : ∀ d t, f.find i = .ok d → t ∈ d.refs → ∀ j ∈ named f t, j ≤ i := fun d t hd ht j hj =>
      (ih t (f.lower i d hd t ht) j hj).trans (f.lower i d hd t ht).le
    rw [named]
    split
    · exact fun j hj => (Option.some.inj hj).ge
    · exact fun j hj => (Option.some.inj hj).ge
    · exact fun j hj => (Option.some.inj hj).ge
    · next h => exact inner _ _ h (by simp [TypeData.refs])
    · next h => exact inner _ _ h (by simp [TypeData.refs])
    · next h => exact inner _ _ h (by simp [TypeData.refs])
    · simp

theorem argumentTypes_lower (i : Nat) : ∀ t ∈ argumentTypes f i, t < i := by
  unfold argumentTypes
  split
  · next arguments hd => exact f.lower i _ hd
  · exact nofun

theorem methodTypes_lower (i : Nat) : ∀ t ∈ methodTypes f i, t < i := by
  unfold methodTypes
  split
  · next returnType arguments hd =>
    intro t ht
    rcases List.mem_cons.mp ht with rfl | ht
    · exact f.lower i _ hd _ (by simp [TypeData.refs])
    · exact (argumentTypes_lower f arguments t ht).trans (f.lower i _ hd _ (by simp [TypeData.refs]))
  · simp

theorem FieldData.types_lower {b : Nat} {field : FieldData} (h : ∀ j ∈ field.refs, j < b) :
    ∀ t ∈ field.types f, t < b := by
  cases field with
  | member name t offset => exact h
  | method name attributes i => exact fun t ht => (methodTypes_lower f i t ht).trans (h i (List.mem_cons_self ..))
  | overloadedMethod name list =>
    have hlist : list < b := h list (List.mem_cons_self ..)
    unfold types
    dsimp only
    split
    · next methods hd =>
      intro t ht
      obtain ⟨m, hm, ht⟩ := List.mem_flatMap.mp ht
      have hlt : m.2 < list := f.lower list _ hd _ (List.mem_map_of_mem hm)
      exact (methodTypes_lower f m.2 t ht).trans (hlt.trans hlist)
    · exact nofun
  | baseClass t offset => exact h
  | virtualBaseClass t offset => exact h
  | enumerate name value => exact nofun
  | other => exact nofun

theorem items_types_lower (i : Nat) : ∀ t ∈ (items f i).flatMap (FieldData.types f), t < i := by
  induction i using Nat.strongRecOn with
  | ind i ih =>
    have own : ∀ fields continuation, f.find i = .ok (.fieldList fields continuation) →
        ∀ t ∈ fields.flatMap (FieldData.types f), t < i := by
      intro fields continuation hd t ht
      obtain ⟨field, hfield, ht⟩ := List.mem_flatMap.mp ht
      refine FieldData.types_lower f (fun j hj => f.lower i _ hd j ?_) t ht
      exact List.mem_append_left _ (List.mem_flatMap.mpr ⟨field, hfield, hj⟩)
    rw [items]
    split
    · next fields hd => exact own fields none hd
    · next fields continuation hd =>
      have hlt : continuation < i := f.lower i _ hd _ (by simp [TypeData.refs])
      intro t ht
      rw [List.flatMap_append] at ht
      rcases List.mem_append.mp ht with ht | ht
      · exact own fields (some continuation) hd t ht
      · exact (ih continuation hlt t ht).trans hlt
    · simp

theorem TypeData.types_lower {i : Nat} {d : TypeData} (hd : f.find i = .ok d) : ∀ t ∈ d.types f, t < i := by
  unfold TypeData.types
  split
  · next data =>
    split
    · exact nofun
    · unfold ClassType.types
      cases hf : data.fields with
      | none => exact nofun
      | some fields =>
        have hlt : fields < i := f.lower i _ hd _ (by simp [TypeData.refs, hf])
        exact fun t ht => (items_types_lower f fields t ht).trans hlt
  · exact fun t ht => f.lower i _ hd t (by simp_all [TypeData.refs])
  · exact nofun

theorem uses_lower {i j : Nat} (h : j ∈ uses f i) : j < i := by
  unfold uses at h
  split at h
  · next d hd =>
    obtain ⟨t, ht, hj⟩ := List.mem_filterMap.mp h
    exact (named_le f t j hj).trans_lt (TypeData.types_lower f hd t ht)
  · cases h

end Exact

end Jiaa.Win32.Pdb
