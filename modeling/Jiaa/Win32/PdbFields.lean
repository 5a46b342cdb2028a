/-
  Jiaa.Win32.PdbFields — whose fields `find_field` finds (memflow-win32 `offsets/pdb_struct.rs`).

  The map has one entry for a name, and the fields of every class that was added are put
  into it. A name that the requested class has stays its own (`with_requested`); for one
  that it does not have, the map holds a field of another class.

  - `drain_hasField`: the classes of the map are the ones that the requested one leads to;
  - `with_findsOwn_iff`: when a lookup speaks of the requested class only.
-/

import Jiaa.Win32.PdbStruct

namespace Jiaa.Win32.Pdb

open Lib.Worklist

/-! ## The classes of the map -/

/-- The data members of a record, if it is a class and not only a forward reference. -/
def classMembers (f : TypeFinder) (i : Nat) : List (RawString × Nat) :=
  match f.find i with
  | .ok (.class data) => if data.forwardReference then [] else data.fields.elim [] (members f)
  | _ => []

def HasMember (ms : List (RawString × Nat)) (name : String) : Prop := ∃ m ∈ ms, m.1.text = name

/-- Some of the classes has a field with the name. -/
def HasField (classes : List Class) (name : String) : Prop :=
  ∃ cls ∈ classes, HasMember (cls.fields.map Field.asMember) name

theorem hasMember_fields {cls : Class} {name : String} :
    HasMember (cls.fields.map Field.asMember) name ↔ ∃ fld ∈ cls.fields, fld.name.text = name := by
  simp [HasMember, Field.asMember]

theorem hasField_append {classes classes' : List Class} {name : String} :
    HasField (classes ++ classes') name ↔ HasField classes name ∨ HasField classes' name := by
  simp only [HasField, List.mem_append, or_and_right, exists_or]

theorem hasField_singleton {cls : Class} {name : String} :
    HasField [cls] name ↔ HasMember (cls.fields.map Field.asMember) name := by
  simp [HasField]

theorem insertFields_other {name : String} (map : String → Option PdbField) : ∀ {fields : List Field},
    (¬∃ fld ∈ fields, fld.name.text = name) → fields.foldl insertField map name = map name := by
  intro fields
  induction fields using List.reverseRecOn with
  | nil => exact fun _ => rfl
  | append_singleton fields last ih =>
    intro h
    have hlast : last.name.text ≠ name := fun he => h ⟨last, by simp, he⟩
    rw [List.foldl_append]
    simp only [List.foldl_cons, List.foldl_nil, insertField, Function.update_of_ne hlast.symm]
    exact ih fun hin => h (hin.imp fun _ => And.imp_left (List.mem_append_left _))

theorem fieldMap_isSome (classes : List Class) (name : String) :
    (fieldMap classes name).isSome ↔ HasField classes name := by
  induction classes using List.reverseRecOn with
  | nil => simp [fieldMap, HasField]
  | append_singleton classes last ih =>
    rw [hasField_append, hasField_singleton, hasMember_fields]
    by_cases hlast : ∃ fld ∈ last.fields, fld.name.text = name
    · obtain ⟨g, -, -, hmap⟩ := fieldMap_own classes hlast
      simp [hmap, hlast]
    · have hkept : fieldMap (classes ++ [last]) name = fieldMap classes name := by
        simp only [fieldMap, List.foldl_append, List.foldl_cons, List.foldl_nil]
        exact insertFields_other _ hlast
      simp [hkept, ih, hlast]

/-- Adding a record adds the fields of the class, if it is one. -/
theorem Data.add_hasField {f : TypeFinder} (self : Data) (i : Nat) : Returns (self.add f i) fun d => ∀ name,
    HasField d.classes name ↔ HasField self.classes name ∨ HasMember (classMembers f i) name := by
  unfold Data.add
  split
  · exact Returns.throw _
  · next data hd =>
    by_cases hforward : data.forwardReference
    · simpa [hforward] using Returns.pure (by simp [classMembers, hd, hforward, HasMember])
    · simp only [hforward]
      refine (Data.addClass_members data).bind fun cls hcls => Returns.pure fun name => ?_
      rw [← List.singleton_append, hasField_append, hasField_singleton, hcls, or_comm]
      simp [classMembers, hd, hforward]
  · next hd =>
    refine Returns.bind_any fun underlyingTypeName => Returns.bind_any fun e => Returns.pure fun name => ?_
    simp [classMembers, hd, HasMember]
  · next hclass _ _ =>
    refine Returns.pure fun name => ?_
    have hnone : classMembers f i = [] := by
      unfold classMembers
      split <;> grind
    simp [hnone, HasMember]

theorem drain_hasField {f : TypeFinder} {rounds : Nat} {needed : Finset Nat} {data data' : Data} {taken : List Nat}
    (h : drain (fun i data => data.add f i) rounds data needed = some (taken, .ok data')) (name : String) :
    HasField data'.classes name ↔ HasField data.classes name ∨ ∃ i ∈ taken, HasMember (classMembers f i) name := by
  refine drain_ok_induct (Q := fun data _ taken data' => HasField data'.classes name ↔
    HasField data.classes name ∨ ∃ i ∈ taken, HasMember (classMembers f i) name) (fun data => by simp) ?_ h
  intro i data needed data1 needed1 taken data' _ hr ih
  rw [ih, data.add_hasField i _ _ _ hr name, List.exists_mem_cons_iff, or_assoc]

/-! ## The whole function -/

def OwnMember (info : TypeInformation) (className : String) (m : RawString × Nat) : Prop :=
  ∃ k c data, Requests info className k c data ∧ m ∈ data.fields.elim [] (members (info.finder (k + 1)))

/-- A class that the requested one leads to has a member with the name. -/
def UsedHasMember (info : TypeInformation) (className name : String) : Prop :=
  ∃ k c data, Requests info className k c data ∧
    ∃ j, Relation.TransGen (fun i j => j ∈ uses (info.finder (k + 1)) i) c j ∧
      HasMember (classMembers (info.finder (k + 1)) j) name

/-- A lookup finds a name exactly where the class has a member with it, at its offset. -/
def FindsOwn (own : RawString × Nat → Prop) (s : PdbStruct) (name : String) : Prop :=
  ((s.findField name).isSome ↔ ∃ m, own m ∧ m.1.text = name) ∧
    ∀ fld, s.findField name = some fld → ∃ m, own m ∧ m.1.text = name ∧ m.2 = fld.offset

theorem isRequested_true {className : String} {typ : Except PdbError TypeData} (h : isRequested className typ = true) :
    ∃ data, typ = .ok (.class data) ∧ data.name = className.toUTF8.data.toList ∧ data.forwardReference = false := by
  unfold isRequested at h
  split at h
  · next data => exact ⟨data, rfl, by simpa using h⟩
  · cases h

theorem search_some {className : String} {u c : Nat} {iter : List (Except PdbError (Nat × Except PdbError TypeData))} :
    ∀ {updates : Nat}, search className iter updates = .ok (some (u, c)) →
      ∃ (k : Nat) (typ : Except PdbError TypeData), iter[k]? = some (.ok (c, typ)) ∧ isRequested className typ = true ∧
        ∀ j < k, ∃ i t, iter[j]? = some (.ok (i, t)) ∧ isRequested className t = false := by
  induction iter with
  | nil =>
    intro updates h
    cases h
  | cons r iter ih =>
    intro updates h
    rcases r with e | ⟨i, typ⟩
    · cases h
    · unfold search at h
      split at h
      · next htyp =>
        cases h
        exact ⟨0, typ, rfl, htyp, fun j hj => absurd hj j.not_lt_zero⟩
      · next htyp =>
        obtain ⟨k, t, hk, ht, hbefore⟩ := ih h
        refine ⟨k + 1, t, hk, ht, fun j hj => ?_⟩
        cases j with
        | zero => exact ⟨i, typ, rfl, by simpa using htyp⟩
        | succ j => exact hbefore j (by omega)

theorem Requests.search_eq {info : TypeInformation} {className : String} {k c : Nat} {data : ClassType}
    (h : Requests info className k c data) : search className info.iter 0 = .ok (some (k + 1, c)) := by
  have heq : search className info.iter 0 = .ok (some (0 + k + 1, c)) :=
    Pdb.search_eq h.record (by simp [isRequested, h.named, h.defined]) h.first
  rwa [Nat.zero_add] at heq

theorem Requests.unique {info : TypeInformation} {className : String} {k c k' c' : Nat} {data data' : ClassType}
    (h : Requests info className k c data) (h' : Requests info className k' c' data') :
    k' = k ∧ c' = c ∧ data' = data := by
  have heq := h'.search_eq.symm.trans h.search_eq
  simp only [Except.ok.injEq, Option.some.injEq, Prod.mk.injEq, Nat.add_right_cancel_iff] at heq
  obtain ⟨rfl, rfl⟩ := heq
  have hrec := h'.record.symm.trans h.record
  simp only [Option.some.injEq, Except.ok.injEq, Prod.mk.injEq, true_and, TypeData.class.injEq] at hrec
  exact ⟨rfl, rfl, hrec⟩

section Requested

variable {info : TypeInformation} {className : String} {k c : Nat} {data : ClassType}

theorem Requests.ownMember_iff (h : Requests info className k c data) (m : RawString × Nat) :
    OwnMember info className m ↔ m ∈ data.fields.elim [] (members (info.finder (k + 1))) := by
  refine ⟨fun ⟨k', c', data', h', hm⟩ => ?_, fun hm => ⟨k, c, data, h, hm⟩⟩
  obtain ⟨rfl, rfl, rfl⟩ := h.unique h'
  exact hm

theorem Requests.usedHasMember_iff (h : Requests info className k c data) (name : String) :
    UsedHasMember info className name ↔ ∃ j, Relation.TransGen (fun i j => j ∈ uses (info.finder (k + 1)) i) c j ∧
      HasMember (classMembers (info.finder (k + 1)) j) name := by
  refine ⟨fun ⟨k', c', data', h', hj⟩ => ?_, fun hj => ⟨k, c, data, h, hj⟩⟩
  obtain ⟨rfl, rfl, rfl⟩ := h.unique h'
  exact hj

/-- The classes of the map: the requested one and those it leads to. -/
theorem Requests.drain_hasField (h : Requests info className k c data) {finder : TypeFinder} {d data' : Data}
    {needed : Finset Nat} {rounds : Nat} {taken : List Nat}
    (hadd : addRequested info className = .ok (finder, d, needed))
    (hdrain : drain (fun i data => data.add finder i) rounds d needed = some (taken, .ok data')) (name : String) :
    HasField data'.classes name ↔
      HasMember (data.fields.elim [] (members (info.finder (k + 1)))) name ∨ UsedHasMember info className name := by
  obtain ⟨rfl, -, cls, hcls, hclasses⟩ := h.start hadd
  have hfind := info.indexed k c _ h.record
  have hneeded : ∀ j, j ∈ needed ↔ j ∈ uses (info.finder (k + 1)) c := by
    intro j
    have hnotes := Data.addClass_notes (info.finder (k + 1)) data ∅ cls needed hcls j
    simpa [uses, hfind, TypeData.types, h.defined] using hnotes
  rw [Pdb.drain_hasField hdrain, hclasses, hasField_singleton, Data.addClass_members data _ _ _ hcls,
    h.usedHasMember_iff]
  simp only [drain_taken (add_refills _) hdrain, hneeded, Relation.TransGen.head'_iff]

theorem Requests.findsOwn_iff (h : Requests info className k c data) {finder : TypeFinder} {d data' : Data}
    {needed : Finset Nat} {rounds : Nat} {taken : List Nat}
    (hadd : addRequested info className = .ok (finder, d, needed))
    (hdrain : drain (fun i data => data.add finder i) rounds d needed = some (taken, .ok data')) (name : String) :
    FindsOwn (OwnMember info className) ⟨fieldMap data'.classes⟩ name ↔
      (∃ m, OwnMember info className m ∧ m.1.text = name) ∨ ¬UsedHasMember info className name := by
  have hsome := (fieldMap_isSome data'.classes name).trans (h.drain_hasField hadd hdrain name)
  obtain ⟨rfl, -, cls, hcls, hclasses⟩ := h.start hadd
  have hmembers := Data.addClass_members data _ _ _ hcls
  simp only [FindsOwn, PdbStruct.findField, h.ownMember_iff]
  by_cases hown : ∃ m ∈ data.fields.elim [] (members (info.finder (k + 1))), m.1.text = name
  · refine iff_of_true ⟨iff_of_true (hsome.mpr (.inl hown)) hown, fun fld hfld => ?_⟩ (.inl hown)
    -- the name is one of the class, and its fields come last
    obtain ⟨m, hm, rfl⟩ := hown
    rw [← hmembers] at hm ⊢
    obtain ⟨f, hf, rfl⟩ := List.mem_map.mp hm
    obtain ⟨g, hg, hname, hmap⟩ := drain_holdsFieldsOf hclasses hdrain f hf
    cases hfld.symm.trans hmap
    exact ⟨g.asMember, List.mem_map_of_mem hg, hname, rfl⟩
  · simp only [hown, false_or, iff_false]
    have hnone : ¬UsedHasMember info className name ↔ fieldMap data'.classes name = none := by
      rw [← Option.not_isSome_iff_eq_none, hsome, HasMember, or_iff_right hown]
    rw [hnone, Option.not_isSome_iff_eq_none]
    refine ⟨fun hfind => hfind.1, fun hmap => ⟨hmap, fun fld hfld => ?_⟩⟩
    rw [hmap] at hfld
    cases hfld

end Requested

/-- Without the class nothing is added. -/
theorem addRequested_missing {info : TypeInformation} {className : String}
    (h : ∀ k c data, ¬Requests info className k c data) {finder : TypeFinder} {d : Data} {needed : Finset Nat}
    (hadd : addRequested info className = .ok (finder, d, needed)) : d = .new ∧ needed = ∅ := by
  unfold addRequested at hadd
  split at hadd
  · cases hadd
  · cases hadd
    exact ⟨rfl, rfl⟩
  · next updates i hsearch =>
    obtain ⟨k, typ, hk, htyp, hbefore⟩ := search_some hsearch
    obtain ⟨data, rfl, hname, hdefined⟩ := isRequested_true htyp
    exact absurd ⟨hk, hname, hdefined, hbefore⟩ (h k i data)

theorem findsOwn_missing {info : TypeInformation} {className : String}
    (h : ∀ k c data, ¬Requests info className k c data) (name : String) :
    FindsOwn (OwnMember info className) ⟨fieldMap []⟩ name ∧ ¬UsedHasMember info className name := by
  have hown : ∀ m, ¬OwnMember info className m := fun m ⟨k, c, data, hreq, _⟩ => h k c data hreq
  refine ⟨⟨?_, nofun⟩, fun ⟨k, c, data, hreq, _⟩ => h k c data hreq⟩
  simp [PdbStruct.findField, fieldMap, hown]

theorem with_findsOwn_of_ok {typeInformation : List UInt8 → Except Stop TypeInformation} {pdbSlice : List UInt8}
    {className : String} {info : TypeInformation} {rounds : Nat} {taken : List Nat} {s : PdbStruct}
    (hinfo : typeInformation pdbSlice = .ok info)
    (hwith : PdbStruct.with typeInformation pdbSlice className rounds = some (taken, .ok s)) (name : String) :
    FindsOwn (OwnMember info className) s name ↔
      (∃ m, OwnMember info className m ∧ m.1.text = name) ∨ ¬UsedHasMember info className name := by
  cases hadd : addRequested info className with
  | error e =>
    rw [with_error (by rw [hinfo]; exact hadd)] at hwith
    cases hwith
  | ok start =>
    obtain ⟨finder, d, needed⟩ := start
    rw [with_ok (by rw [hinfo]; exact hadd)] at hwith
    obtain ⟨⟨taken', res⟩, hdrain, he⟩ := Option.map_eq_some_iff.mp hwith
    cases res with
    | error e => cases he
    | ok data' =>
      cases he
      by_cases hreq : ∃ k c data, Requests info className k c data
      · obtain ⟨k, c, data, hreq⟩ := hreq
        exact hreq.findsOwn_iff hadd hdrain name
      · have hmissing : ∀ k c data, ¬Requests info className k c data := fun k c data h => hreq ⟨k, c, data, h⟩
        obtain ⟨rfl, rfl⟩ := addRequested_missing hmissing hadd
        rw [drain_empty hdrain]
        obtain ⟨hfinds, hused⟩ := findsOwn_missing hmissing name
        exact iff_of_true hfinds (.inr hused)

theorem with_findsOwn_iff (typeInformation : List UInt8 → Except Stop TypeInformation) (pdbSlice : List UInt8)
    (className : String) : ∃ n taken res,
      (∀ rounds, n ≤ rounds → PdbStruct.with typeInformation pdbSlice className rounds = some (taken, res)) ∧
      ∀ info s, typeInformation pdbSlice = .ok info → res = .ok s → ∀ name,
        (FindsOwn (OwnMember info className) s name ↔
          (∃ m, OwnMember info className m ∧ m.1.text = name) ∨ ¬UsedHasMember info className name) := by
  obtain ⟨n, taken, res, hrun, -, -⟩ := with_requested typeInformation pdbSlice className
  refine ⟨n, taken, res, hrun, fun info s hinfo hres name => ?_⟩
  subst hres
  exact with_findsOwn_of_ok hinfo (hrun n le_rfl) name

/-- The records of a table, each referring to lower ones. -/
def tableFinder (types : List TypeData) : TypeFinder where
  find i := match types[i]? with
    | some d => if ∀ j ∈ d.refs, j < i then .ok d else .error (.other "reference to a later type")
    | none => .error (.other "type not indexed")
  display := toString
  lower i d h j hj := by
    revert h
    split
    · split
      · next hlower =>
        intro h
        cases h
        exact hlower j hj
      · exact nofun
    · exact nofun

def tableInformation (types : List TypeData) : TypeInformation where
  iter := (List.range types.length).map fun i => .ok (i, (tableFinder types).find i)
  finder k := tableFinder (types.take k)
  indexed k i typ h := by
    obtain ⟨j, hj, he⟩ := Option.map_eq_some_iff.mp ((List.getElem?_map ..).symm.trans h)
    obtain ⟨hlt, rfl⟩ := List.getElem?_eq_some_iff.mp hj
    cases he
    simp [tableFinder, List.getElem?_take]

/-- `_LIST_ENTRY` with a member `Flink`, and `_EPROCESS` with a member of this class. -/
def processTypes : List TypeData :=
  [.primitive .void true,
   .fieldList [.member "Flink".toUTF8.data.toList 0 0] none,
   .class ⟨.struct, "_LIST_ENTRY".toUTF8.data.toList, false, none, some 1⟩,
   .fieldList [.member "ActiveProcessLinks".toUTF8.data.toList 2 0x2f0] none,
   .class ⟨.struct, "_EPROCESS".toUTF8.data.toList, false, none, some 3⟩]

/-- What is found in it once all records are indexed. -/
theorem find_processTypes (i : Nat) (d : TypeData) (h : processTypes[i]? = some d) (hlower : ∀ j ∈ d.refs, j < i) :
    ((tableInformation processTypes).finder 5).find i = .ok d := by
  change (match (processTypes.take 5)[i]? with | some d => _ | none => _) = _
  rw [List.take_of_length_le (by decide), h]
  exact if_pos hlower

theorem typeName_primitive {f : TypeFinder} {i : Nat} {kind : PrimitiveKind} {indirection : Bool}
    (h : f.find i = .ok (.primitive kind indirection)) :
    typeName f i = pure (stdName (kind.name ++ if indirection then " *" else "")) := by
  rw [typeName]
  split <;> simp_all

theorem typeName_class {f : TypeFinder} {i : Nat} {data : ClassType} (h : f.find i = .ok (.class data)) :
    typeName f i = (need i >>= fun _ => pure (stdName data.name.text)) := by
  rw [typeName]
  split <;> simp_all

/-- A class with one member, of a type whose name is known. -/
theorem add_oneMember {f : TypeFinder} {i fields t offset : Nat} {kind : ClassKind} {name member : RawString}
    {derivedFrom : Option Nat} {s s' : Finset Nat} {typeName : String}
    (hclass : f.find i = .ok (.class ⟨kind, name, false, derivedFrom, some fields⟩))
    (hfields : f.find fields = .ok (.fieldList [.member member t offset] none))
    (htype : Pdb.typeName f t s = .ok (typeName, s')) (self : Data) :
    self.add f i s =
      .ok ({ self with classes := ⟨kind, name, [], [⟨typeName, member, offset⟩], [], []⟩ :: self.classes }, s') := by
  have haddFields : ∀ cls : Class, cls.addFields f fields =
      [FieldData.member member t offset].foldlM (Class.addField f) cls := by
    intro cls
    rw [Class.addFields]
    split <;> simp_all
  unfold Data.add
  simp only [hclass, Data.addClass, haddFields, List.foldlM_cons, List.foldlM_nil, Class.addField, Bool.false_eq_true,
    if_false, bind_assoc, pure_bind]
  change (Pdb.typeName f t s).bind (fun r => _) = _
  rw [htype]
  rfl

/-- A class that uses one record, which uses none. -/
theorem with_oneUsed {info : TypeInformation} {className : String} {u c i : Nat} {d d' : Data}
    (hsearch : search className info.iter 0 = .ok (some (u, c)))
    (hadd : Data.new.add (info.finder u) c ∅ = .ok (d, {i})) (hused : d.add (info.finder u) i ∅ = .ok (d', ∅)) :
    PdbStruct.with (fun _ => .ok info) [] className 2 = some ([i], .ok ⟨fieldMap d'.classes⟩) := by
  have hstart : addRequested info className = .ok (info.finder u, d, {i}) := by
    simp [addRequested, hsearch, hadd, Except.map]
  rw [with_ok (by exact hstart)]
  simp [drain, hused, Except.map]

/-- Whoever asks `_EPROCESS` for `Flink` gets the offset in `_LIST_ENTRY`. -/
theorem flink_found_in_process : ∃ taken s,
    PdbStruct.with (fun _ => .ok (tableInformation processTypes)) [] "_EPROCESS" 2 = some (taken, .ok s) ∧
      (s.findField "Flink").map (·.offset) = some 0 ∧
      ¬FindsOwn (OwnMember (tableInformation processTypes) "_EPROCESS") s "Flink" := by
  have hsearch : search "_EPROCESS" (tableInformation processTypes).iter 0 = .ok (some (5, 4)) := by decide +kernel
  have hprimitive : typeName ((tableInformation processTypes).finder 5) 0 ∅ = .ok ("void *", ∅) := by
    rw [typeName_primitive (find_processTypes 0 _ rfl (by decide))]
    rfl
  have hclass : typeName ((tableInformation processTypes).finder 5) 2 ∅ =
      .ok (stdName (RawString.text "_LIST_ENTRY".toUTF8.data.toList), {2}) := by
    rw [typeName_class (find_processTypes 2 _ rfl (by decide))]
    rfl
  have hprocess := add_oneMember (find_processTypes 4 _ rfl (by decide)) (find_processTypes 3 _ rfl (by decide)) hclass
    .new
  have hlist := add_oneMember (find_processTypes 2 _ rfl (by decide)) (find_processTypes 1 _ rfl (by decide)) hprimitive
  have hrecord : ∀ j < 4, (tableInformation processTypes).iter[j]? =
      some (.ok (j, (tableFinder processTypes).find j)) := by
    decide +kernel
  have hother : ∀ j < 4, isRequested "_EPROCESS" ((tableFinder processTypes).find j) = false := by decide +kernel
  have hreq : Requests (tableInformation processTypes) "_EPROCESS" 4 4
      ⟨.struct, "_EPROCESS".toUTF8.data.toList, false, none, some 3⟩ :=
    ⟨by decide +kernel, rfl, rfl, fun j hj => ⟨j, _, hrecord j hj, hother j hj⟩⟩
  refine ⟨[2], _, with_oneUsed hsearch hprocess (hlist _), by decide +kernel, fun hfinds => ?_⟩
  obtain ⟨m, hm, hname⟩ := hfinds.1.mp (by decide +kernel)
  rw [hreq.ownMember_iff, Option.elim_some, members_last (find_processTypes 3 _ rfl (by decide))] at hm
  revert m
  decide +kernel
end Jiaa.Win32.Pdb
