/-
  Jiaa.Win32.PdbData — classes and enumerations out of the types of a PDB
  (memflow-win32 `offsets/pdb_struct/data.rs`).

  The types are records that refer to each other by index, always to lower ones. Adding a
  record names the types it refers to, and notes the classes, enumerations and unions among
  them as needed.

  - `addFields_members`: the fields of a class are the members of its field lists.
-/

import Jiaa.Lib.Text
import Mathlib.Data.Finset.Insert

namespace Jiaa.Win32.Pdb

/-! ## Types (the `pdb` crate) -/

/-- The bytes of a name. -/
abbrev RawString := List UInt8

/-- `to_string`. -/
def RawString.text (self : RawString) : String := Lib.Text.fromUtf8Lossy self

inductive PdbError where
  | unimplementedFeature (feature : String)
  | other (e : String)
  deriving DecidableEq, Repr

inductive PrimitiveKind where
  | void | char | uChar | i8 | u8 | i16 | u16 | i32 | u32 | i64 | u64 | f32 | f64 | bool8
  | other (debug : String)
  deriving DecidableEq, Repr

inductive ClassKind where
  | class : ClassKind
  | struct
  | interface
  deriving DecidableEq, Repr

structure FieldAttributes where
  isStatic : Bool
  isVirtual : Bool
  deriving DecidableEq, Repr

/-- An item of a field list. -/
inductive FieldData where
  | member (name : RawString) (fieldType : Nat) (offset : Nat)
  | method (name : RawString) (attributes : FieldAttributes) (methodType : Nat)
  | overloadedMethod (name : RawString) (methodList : Nat)
  | baseClass (baseClass offset : Nat)
  | virtualBaseClass (baseClass basePointerOffset : Nat)
  | enumerate (name : RawString) (value : Int)
  | other
  deriving DecidableEq, Repr

structure ClassType where
  kind : ClassKind
  name : RawString
  forwardReference : Bool
  derivedFrom : Option Nat
  fields : Option Nat
  deriving DecidableEq, Repr

inductive TypeData where
  | primitive (kind : PrimitiveKind) (indirection : Bool)
  | class (data : ClassType)
  | enumeration (name : RawString) (underlyingType fields : Nat)
  | union (name : RawString)
  | pointer (underlyingType : Nat)
  | modifier (constant volatile : Bool) (underlyingType : Nat)
  | array (elementType : Nat) (dimensions : List Nat)
  | fieldList (fields : List FieldData) (continuation : Option Nat)
  | memberFunction (returnType argumentList : Nat)
  | argumentList (arguments : List Nat)
  | methodList (methods : List (FieldAttributes × Nat))
  | other
  deriving DecidableEq, Repr

/-- The indices an item of a field list refers to. -/
def FieldData.refs : FieldData → List Nat
  | member _ t _ => [t]
  | method _ _ t => [t]
  | overloadedMethod _ t => [t]
  | baseClass t _ => [t]
  | virtualBaseClass t _ => [t]
  | enumerate .. => []
  | other => []

def TypeData.refs : TypeData → List Nat
  | .primitive .. => []
  | .class data => data.derivedFrom.toList ++ data.fields.toList
  | .enumeration _ underlyingType fields => [underlyingType, fields]
  | .union _ => []
  | .pointer t => [t]
  | .modifier _ _ t => [t]
  | .array t _ => [t]
  | .fieldList fields continuation => fields.flatMap FieldData.refs ++ continuation.toList
  | .memberFunction returnType arguments => [returnType, arguments]
  | .argumentList arguments => arguments
  | .methodList methods => methods.map (·.2)
  | .other => []

/-- What is found and parsed at an index, and how an index is printed. Records refer to lower
    ones. -/
structure TypeFinder where
  find : Nat → Except PdbError TypeData
  display : Nat → String
  lower : ∀ i d, find i = .ok d → ∀ j ∈ d.refs, j < i

/-! ## Adding -/

inductive Stop where
  | error (e : PdbError)
  | panicked (message : String)
  deriving DecidableEq, Repr

/-- The needed types are a `BTreeSet`. -/
abbrev AddM := StateT (Finset Nat) (Except Stop)

def need (i : Nat) : AddM Unit := modify (insert i)

def PrimitiveKind.name : PrimitiveKind → String
  | void => "void"
  | char => "char"
  | uChar => "unsigned char"
  | i8 => "int8_t"
  | u8 => "uint8_t"
  | i16 => "int16_t"
  | u16 => "uint16_t"
  | i32 => "int32_t"
  | u32 => "uint32_t"
  | i64 => "int64_t"
  | u64 => "uint64_t"
  | f32 => "float"
  | f64 => "double"
  | bool8 => "bool"
  | other debug => "unhandled_primitive.kind /* " ++ debug ++ " */"

def stdName (name : String) : String :=
  if name = "std::basic_string<char,std::char_traits<char>,std::allocator<char> >" then "std::string" else name

def modified (constant volatile : Bool) (name : String) : String :=
  if constant then "const " ++ name else if volatile then "volatile " ++ name else name

def dimensioned (dimensions : List Nat) (name : String) : String :=
  dimensions.foldl (fun name size => name ++ "[" ++ toString size ++ "]") name

def typeName (f : TypeFinder) (i : Nat) : AddM String :=
  (match _h : f.find i with
    | .error e => throw (.error e)
    | .ok (.primitive kind indirection) => pure (kind.name ++ if indirection then " *" else "")
    | .ok (.class data) => do
      need i
      pure data.name.text
    | .ok (.enumeration name _ _) => do
      need i
      pure name.text
    | .ok (.union name) => do
      need i
      pure name.text
    | .ok (.pointer t) => do
      let name ← typeName f t
      pure (name ++ "*")
    | .ok (.modifier constant volatile t) => do
      let name ← typeName f t
      pure (modified constant volatile name)
    | .ok (.array t dimensions) => do
      let name ← typeName f t
      pure (dimensioned dimensions name)
    | .ok _ => pure ("Type" ++ f.display i ++ " /* TODO: figure out how to name it */"))
    >>= fun name => pure (stdName name)
  termination_by i
  decreasing_by all_goals exact f.lower i _ (by assumption) _ (by simp [TypeData.refs])

structure BaseClass where
  typeName : String
  offset : Nat
  deriving DecidableEq, Repr

structure Field where
  typeName : String
  name : RawString
  offset : Nat
  deriving DecidableEq, Repr

structure Method where
  name : RawString
  returnTypeName : String
  arguments : List String
  isVirtual : Bool
  deriving DecidableEq, Repr

structure Class where
  kind : ClassKind
  name : RawString
  baseClasses : List BaseClass
  fields : List Field
  instanceMethods : List Method
  staticMethods : List Method
  deriving DecidableEq, Repr

def argumentList (f : TypeFinder) (i : Nat) : AddM (List String) :=
  match f.find i with
  | .error e => throw (.error e)
  | .ok (.argumentList arguments) => arguments.foldlM (fun args t => do
      let name ← typeName f t
      pure (args ++ [name])) []
  | .ok _ => throw (.error (.unimplementedFeature "argument list of non-argument-list type"))

def Method.find (f : TypeFinder) (name : RawString) (attributes : FieldAttributes) (i : Nat) : AddM Method :=
  match f.find i with
  | .error e => throw (.error e)
  | .ok (.memberFunction returnType arguments) => do
    let returnTypeName ← Pdb.typeName f returnType
    let arguments ← argumentList f arguments
    pure ⟨name, returnTypeName, arguments, attributes.isVirtual⟩
  | .ok _ => throw (.error (.unimplementedFeature "that"))

namespace Class

def pushMethod (self : Class) (attributes : FieldAttributes) (method : Method) : Class :=
  if attributes.isStatic then { self with staticMethods := self.staticMethods ++ [method] }
  else { self with instanceMethods := self.instanceMethods ++ [method] }

def addMethod (f : TypeFinder) (name : RawString) (self : Class) (attributes : FieldAttributes) (i : Nat) :
    AddM Class := do
  let method ← Method.find f name attributes i
  pure (self.pushMethod attributes method)

def addField (f : TypeFinder) (self : Class) : FieldData → AddM Class
  | .member name t offset => do
    let typeName ← Pdb.typeName f t
    pure { self with fields := self.fields ++ [⟨typeName, name, offset⟩] }
  | .method name attributes t => self.addMethod f name attributes t
  | .overloadedMethod name list =>
    match f.find list with
    | .error e => throw (.error e)
    | .ok (.methodList methods) => methods.foldlM (fun self m => addMethod f name self m.1 m.2) self
    | .ok _ => throw (.panicked "unexpected type in Class::add_field()")
  | .baseClass t offset => do
    let typeName ← Pdb.typeName f t
    pure { self with baseClasses := self.baseClasses ++ [⟨typeName, offset⟩] }
  | .virtualBaseClass t offset => do
    let typeName ← Pdb.typeName f t
    pure { self with baseClasses := self.baseClasses ++ [⟨typeName, offset⟩] }
  | .enumerate .. => pure self
  | .other => pure self

def addFields (f : TypeFinder) (self : Class) (i : Nat) : AddM Class :=
  match _h : f.find i with
  | .error e => throw (.error e)
  | .ok (.fieldList fields none) => fields.foldlM (addField f) self
  | .ok (.fieldList fields (some continuation)) => do
    let self ← fields.foldlM (addField f) self
    addFields f self continuation
  | .ok _ => throw (.panicked "unexpected type in Class::add_fields()")
  termination_by i
  decreasing_by exact f.lower i _ (by assumption) _ (by simp [TypeData.refs])

end Class

structure EnumValue where
  name : RawString
  value : Int
  deriving DecidableEq, Repr

structure Enum where
  name : RawString
  underlyingTypeName : String
  values : List EnumValue
  deriving DecidableEq, Repr

namespace Enum

def addField (self : Enum) : FieldData → Enum
  | .enumerate name value => { self with values := self.values ++ [⟨name, value⟩] }
  | _ => self

def addFields (f : TypeFinder) (self : Enum) (i : Nat) : AddM Enum :=
  match _h : f.find i with
  | .error e => throw (.error e)
  | .ok (.fieldList fields none) => pure (fields.foldl addField self)
  | .ok (.fieldList fields (some continuation)) => addFields f (fields.foldl addField self) continuation
  | .ok _ => throw (.panicked "unexpected type in Enum::add_fields()")
  termination_by i
  decreasing_by exact f.lower i _ (by assumption) _ (by simp [TypeData.refs])

end Enum

structure ForwardReference where
  kind : ClassKind
  name : RawString
  deriving DecidableEq, Repr

structure Data where
  forwardReferences : List ForwardReference
  classes : List Class
  enums : List Enum
  deriving DecidableEq, Repr

namespace Data

def new : Data := ⟨[], [], []⟩

/-- The fields of a class that has some. -/
def addClass (f : TypeFinder) (data : ClassType) : AddM Class :=
  let self : Class := ⟨data.kind, data.name, [], [], [], []⟩
  match data.fields with
  | none => pure self
  | some fields => self.addFields f fields

def add (self : Data) (f : TypeFinder) (i : Nat) : AddM Data :=
  match f.find i with
  | .error e => throw (.error e)
  | .ok (.class data) =>
    if data.forwardReference then
      pure { self with forwardReferences := self.forwardReferences ++ [⟨data.kind, data.name⟩] }
    else do
      let cls ← addClass f data
      pure { self with classes := cls :: self.classes }
  | .ok (.enumeration name underlyingType fields) => do
    let underlyingTypeName ← typeName f underlyingType
    let e ← Enum.addFields f ⟨name, underlyingTypeName, []⟩ fields
    pure { self with enums := e :: self.enums }
  | .ok _ => pure self

end Data

theorem bind_ok {α β : Type} {x : AddM α} {g : α → AddM β} {s s' : Finset Nat} {b : β}
    (h : (x >>= g) s = .ok (b, s')) : ∃ a s1, x s = .ok (a, s1) ∧ g a s1 = .ok (b, s') := by
  change (x s).bind (fun r => g r.1 r.2) = _ at h
  cases hr : x s with
  | error e => simp [hr, Except.bind] at h
  | ok r => exact ⟨r.1, r.2, rfl, by simpa [hr, Except.bind] using h⟩

/-! ## The fields of a class -/

/-- What `x` returns satisfies `P`. -/
def Returns {α : Type} (x : AddM α) (P : α → Prop) : Prop := ∀ s a s', x s = .ok (a, s') → P a

namespace Returns

variable {α β : Type} {P Q : α → Prop} {R : β → Prop}

theorem pure {a : α} (h : P a) : Returns (pure a) P := by
  intro s a' s' hx
  cases hx
  exact h

theorem throw (e : Stop) : Returns (throw e) P := nofun

theorem mono {x : AddM α} (h : Returns x P) (hpq : ∀ a, P a → Q a) : Returns x Q := fun s a s' hx =>
  hpq a (h s a s' hx)

theorem bind {x : AddM α} {g : α → AddM β} (hx : Returns x P) (hg : ∀ a, P a → Returns (g a) R) :
    Returns (x >>= g) R := by
  intro s b s' h
  obtain ⟨a, s1, hxs, hgs⟩ := bind_ok h
  exact hg a (hx s a s1 hxs) s1 b s' hgs

theorem bind_any {x : AddM α} {g : α → AddM β} (hg : ∀ a, Returns (g a) R) : Returns (x >>= g) R :=
  bind (P := fun _ => True) (fun _ _ _ _ => trivial) fun a _ => hg a

theorem foldlM {g : α → β → AddM α} {l : List β} (hg : ∀ acc, ∀ x ∈ l, P acc → Returns (g acc x) P) :
    ∀ {acc}, P acc → Returns (l.foldlM g acc) P := by
  induction l with
  | nil => exact fun h => pure h
  | cons x l ih =>
    intro acc h
    rw [List.foldlM_cons]
    exact bind (hg acc x (List.mem_cons_self ..) h) fun acc' h' =>
      ih (fun acc y hy => hg acc y (List.mem_cons_of_mem _ hy)) h'

end Returns

/-- The name and the offset of a data member. -/
def FieldData.asMember : FieldData → Option (RawString × Nat)
  | .member name _ offset => some (name, offset)
  | _ => none

def Field.asMember (self : Field) : RawString × Nat := (self.name, self.offset)

/-- The members of a field list and of those that continue it. -/
def members (f : TypeFinder) (i : Nat) : List (RawString × Nat) :=
  match _h : f.find i with
  | .ok (.fieldList fields none) => fields.filterMap FieldData.asMember
  | .ok (.fieldList fields (some continuation)) => fields.filterMap FieldData.asMember ++ members f continuation
  | _ => []
  termination_by i
  decreasing_by exact f.lower i _ (by assumption) _ (by simp [TypeData.refs])

section Fields

variable {f : TypeFinder}

theorem members_last {i : Nat} {fields : List FieldData} (hd : f.find i = .ok (.fieldList fields none)) :
    members f i = fields.filterMap FieldData.asMember := by
  rw [members]
  split <;> simp_all

theorem members_continued {i continuation : Nat} {fields : List FieldData}
    (hd : f.find i = .ok (.fieldList fields (some continuation))) :
    members f i = fields.filterMap FieldData.asMember ++ members f continuation := by
  rw [members]
  split <;> simp_all

@[simp] theorem Class.pushMethod_fields (self : Class) (attributes : FieldAttributes) (method : Method) :
    (self.pushMethod attributes method).fields = self.fields := by
  unfold pushMethod
  split <;> rfl

theorem Class.addMethod_fields (name : RawString) (self : Class) (attributes : FieldAttributes) (i : Nat) :
    Returns (self.addMethod f name attributes i) fun cls => cls.fields = self.fields :=
  Returns.bind_any fun method => Returns.pure (self.pushMethod_fields attributes method)

/-- Data members are appended, every other item leaves the fields alone. -/
theorem Class.addField_fields (self : Class) (field : FieldData) :
    Returns (self.addField f field) fun cls =>
      cls.fields.map Field.asMember = self.fields.map Field.asMember ++ field.asMember.toList := by
  cases field with
  | member name t offset => exact Returns.bind_any fun typeName => Returns.pure (by simp [FieldData.asMember, Field.asMember])
  | method name attributes t =>
    exact (self.addMethod_fields name attributes t).mono fun cls h => by simp [FieldData.asMember, h]
  | overloadedMethod name list =>
    unfold addField
    dsimp only
    split
    · exact Returns.throw _
    · next methods hd =>
      have hkept : Returns (methods.foldlM (fun self m => addMethod f name self m.1 m.2) self)
          fun cls => cls.fields = self.fields :=
        Returns.foldlM (fun acc m _ hacc => (acc.addMethod_fields name m.1 m.2).mono fun cls h => h.trans hacc) rfl
      exact hkept.mono fun cls h => by simp [FieldData.asMember, h]
    · exact Returns.throw _
  | baseClass t offset => exact Returns.bind_any fun typeName => Returns.pure (by simp [FieldData.asMember])
  | virtualBaseClass t offset => exact Returns.bind_any fun typeName => Returns.pure (by simp [FieldData.asMember])
  | enumerate name value => exact Returns.pure (by simp [FieldData.asMember])
  | other => exact Returns.pure (by simp [FieldData.asMember])

theorem Class.foldlM_addField_fields (fields : List FieldData) : ∀ self : Class,
    Returns (fields.foldlM (addField f) self) fun cls =>
      cls.fields.map Field.asMember = self.fields.map Field.asMember ++ fields.filterMap FieldData.asMember := by
  induction fields with
  | nil => exact fun self => Returns.pure (by simp)
  | cons field fields ih =>
    intro self
    rw [List.foldlM_cons]
    refine (self.addField_fields field).bind fun self1 h1 => (ih self1).mono fun cls h => ?_
    rw [h, h1, List.append_assoc]
    cases hm : field.asMember <;> simp [hm]

theorem Class.addFields_members (i : Nat) : ∀ self : Class,
    Returns (self.addFields f i) fun cls =>
      cls.fields.map Field.asMember = self.fields.map Field.asMember ++ members f i := by
  induction i using Nat.strongRecOn with
  | ind i ih =>
    intro self
    rw [addFields]
    split
    · exact Returns.throw _
    · next fields hd =>
      rw [members_last hd]
      exact foldlM_addField_fields fields self
    · next fields continuation hd =>
      have hlt : continuation < i := f.lower i _ hd _ (by simp [TypeData.refs])
      rw [members_continued hd]
      refine (foldlM_addField_fields fields self).bind fun self1 h1 => (ih continuation hlt self1).mono fun cls h => ?_
      rw [h, h1, List.append_assoc]
    · exact Returns.throw _

theorem Data.addClass_members (data : ClassType) :
    Returns (addClass f data) fun cls => cls.fields.map Field.asMember = data.fields.elim [] (members f) := by
  unfold addClass
  split
  · next hf => exact Returns.pure (by simp [hf])
  · next fields hf => exact (Class.addFields_members fields _).mono fun cls h => by simpa [hf] using h

/-- Adding puts at most one class in front. -/
theorem Data.add_classes (self : Data) (i : Nat) :
    Returns (self.add f i) fun d => ∃ front, d.classes = front ++ self.classes := by
  unfold Data.add
  split
  · exact Returns.throw _
  · split
    · exact Returns.pure ⟨[], rfl⟩
    · exact Returns.bind_any fun cls => Returns.pure ⟨[cls], rfl⟩
  · exact Returns.bind_any fun underlyingTypeName => Returns.bind_any fun e => Returns.pure ⟨[], rfl⟩
  · exact Returns.pure ⟨[], rfl⟩

theorem Data.add_class {self d : Data} {i : Nat} {data : ClassType} {s s' : Finset Nat}
    (hi : f.find i = .ok (.class data)) (hforward : data.forwardReference = false)
    (h : self.add f i s = .ok (d, s')) : ∃ cls, addClass f data s = .ok (cls, s') ∧ d.classes = cls :: self.classes := by
  unfold Data.add at h
  simp only [hi, hforward, Bool.false_eq_true, if_false] at h
  obtain ⟨cls, s1, hcls, hpure⟩ := bind_ok h
  cases hpure
  exact ⟨cls, hcls, rfl⟩

end Fields

end Jiaa.Win32.Pdb
