/-
  Jiaa.Win32.PdbStruct — the fields of a class in a PDB (memflow-win32
  `offsets/pdb_struct.rs`).

  The records are searched for the class; then the types it needs are added, the largest
  index first, until none is needed. The map of all fields is filled class by class, from
  the first to the last.

  - `drain_add_classes`: the requested class stays behind the ones that are needed;
  - `with_requested`: the loop ends and adds no index twice, and a field of the requested
    class is not replaced by one of the same name in another class.
-/

import Jiaa.Win32.PdbUses

namespace Jiaa.Win32.Pdb

open Lib.Worklist

/-- The records in order, and what is found at an index after so many of them were indexed
    (the `pdb` crate). -/
structure TypeInformation where
  iter : List (Except PdbError (Nat × Except PdbError TypeData))
  finder : Nat → TypeFinder
  indexed : ∀ k i typ, iter[k]? = some (.ok (i, typ)) → (finder (k + 1)).find i = typ

structure PdbField where
  typeName : String
  offset : Nat
  deriving DecidableEq, Repr

structure PdbStruct where
  fieldMap : String → Option PdbField

def isRequested (className : String) : Except PdbError TypeData → Bool
  | .ok (.class data) => data.name == className.toUTF8.data.toList && !data.forwardReference
  | _ => false

/-- How many records are indexed when the class is found, and its index. -/
def search (className : String) :
    List (Except PdbError (Nat × Except PdbError TypeData)) → Nat → Except PdbError (Option (Nat × Nat))
  | [], _ => .ok none
  | .error e :: _, _ => .error e
  | .ok (i, typ) :: iter, updates =>
    if isRequested className typ then .ok (some (updates + 1, i)) else search className iter (updates + 1)

/-- The finder, the data and the needed types before the loop. -/
def addRequested (typeInformation : TypeInformation) (className : String) :
    Except Stop (TypeFinder × Data × Finset Nat) :=
  match search className typeInformation.iter 0 with
  | .error e => .error (.error e)
  | .ok none => .ok (typeInformation.finder typeInformation.iter.length, .new, ∅)
  | .ok (some (updates, i)) =>
    (Data.new.add (typeInformation.finder updates) i ∅).map fun (data, needed) =>
      (typeInformation.finder updates, data, needed)

def insertField (map : String → Option PdbField) (f : Field) : String → Option PdbField :=
  Function.update map f.name.text (some ⟨f.typeName, f.offset⟩)

def fieldMap (classes : List Class) : String → Option PdbField :=
  classes.foldl (fun map cls => cls.fields.foldl insertField map) fun _ => none

/-- The indices the loop adds, and the result; `none` if the rounds are used up.
    `typeInformation` opens the PDB and reads its types. -/
def PdbStruct.with (typeInformation : List UInt8 → Except Stop TypeInformation) (pdbSlice : List UInt8)
    (className : String) (rounds : Nat) : Option (List Nat × Except Stop PdbStruct) :=
  match typeInformation pdbSlice >>= fun info => addRequested info className with
  | .error e => some ([], .error e)
  | .ok (finder, data, needed) =>
    (drain (fun i data => data.add finder i) rounds data needed).map fun (taken, res) =>
      (taken, res.map fun data => ⟨Pdb.fieldMap data.classes⟩)

def PdbStruct.findField (self : PdbStruct) (name : String) : Option PdbField := self.fieldMap name

/-! ## The search -/

/-- The first record of the class is found. -/
theorem search_eq {className : String} {iter : List (Except PdbError (Nat × Except PdbError TypeData))} :
    ∀ {k c updates : Nat} {typ : Except PdbError TypeData}, iter[k]? = some (.ok (c, typ)) →
      isRequested className typ = true →
      (∀ j < k, ∃ i t, iter[j]? = some (.ok (i, t)) ∧ isRequested className t = false) →
      search className iter updates = .ok (some (updates + k + 1, c)) := by
  induction iter with
  | nil => exact fun h => nomatch h
  | cons r iter ih =>
    intro k c updates typ hk htyp hbefore
    cases k with
    | zero =>
      cases hk
      simp [search, htyp]
    | succ k =>
      obtain ⟨i, t, hr, ht⟩ := hbefore 0 (Nat.succ_pos k)
      cases hr
      rw [search, if_neg (by simp [ht]), ih hk htyp fun j hj => hbefore (j + 1) (Nat.succ_lt_succ hj)]
      simp only [Nat.add_assoc, Nat.add_comm 1]

/-! ## The loop -/

theorem add_addsLower (finder : TypeFinder) :
    AddsLower fun i (data : Data) (needed : Finset Nat) => data.add finder i needed :=
  (add_refills finder).addsLower fun _ _ => uses_lower finder

/-- The requested class stays the last one. -/
theorem drain_add_classes {finder : TypeFinder} {cls : Class} {rounds : Nat} {needed : Finset Nat} {data data' : Data}
    {taken : List Nat} (hdata : data.classes = [cls])
    (h : drain (fun i data => data.add finder i) rounds data needed = some (taken, .ok data')) :
    ∃ front, data'.classes = front ++ [cls] := by
  refine drain_induct (P := fun d : Data => ∃ front, d.classes = front ++ [cls]) ?_ rounds needed data data' taken
    ⟨[], by simp [hdata]⟩ h
  intro i d needed d' needed' hd hr
  obtain ⟨front, hfront⟩ := hd
  obtain ⟨added, hadded⟩ := d.add_classes i needed d' needed' hr
  exact ⟨added ++ front, by rw [hadded, hfront, List.append_assoc]⟩

/-! ## The map -/

/-- The last field with a name is the one in the map. -/
theorem insertFields_own (name : String) (map : String → Option PdbField) (fields : List Field) :
    (∃ f ∈ fields, f.name.text = name) →
    ∃ f ∈ fields, f.name.text = name ∧ fields.foldl insertField map name = some ⟨f.typeName, f.offset⟩ := by
  induction fields using List.reverseRecOn with
  | nil => exact fun ⟨f, hf, _⟩ => nomatch hf
  | append_singleton fields last ih =>
    intro ⟨f, hf, hname⟩
    rw [List.foldl_append]
    by_cases hl : last.name.text = name
    · exact ⟨last, by simp, hl, by simp [insertField, hl]⟩
    · have hin : f ∈ fields := by
        rcases List.mem_append.mp hf with hf | hf
        · exact hf
        · exact absurd (List.mem_singleton.mp hf ▸ hname) hl
      obtain ⟨g, hg, hgname, hmap⟩ := ih ⟨f, hin, hname⟩
      exact ⟨g, List.mem_append_left _ hg, hgname, by simp [insertField, Function.update_of_ne (Ne.symm hl), hmap]⟩

theorem fieldMap_own (front : List Class) {cls : Class} {name : String} (h : ∃ f ∈ cls.fields, f.name.text = name) :
    ∃ f ∈ cls.fields, f.name.text = name ∧ fieldMap (front ++ [cls]) name = some ⟨f.typeName, f.offset⟩ := by
  unfold fieldMap
  rw [List.foldl_append]
  exact insertFields_own name _ cls.fields h

/-! ## The whole function -/

/-- Record `k` is the first one of the class that is not a forward reference. -/
structure Requests (info : TypeInformation) (className : String) (k c : Nat) (data : ClassType) : Prop where
  record : info.iter[k]? = some (.ok (c, .ok (.class data)))
  named : data.name = className.toUTF8.data.toList
  defined : data.forwardReference = false
  first : ∀ j < k, ∃ i typ, info.iter[j]? = some (.ok (i, typ)) ∧ isRequested className typ = false

theorem Requests.addRequested_eq {info : TypeInformation} {className : String} {k c : Nat} {data : ClassType}
    (h : Requests info className k c data) :
    addRequested info className = (Data.new.add (info.finder (k + 1)) c ∅).map fun (data, needed) =>
      (info.finder (k + 1), data, needed) := by
  have hfound : search className info.iter 0 = .ok (some (k + 1, c)) := by
    have heq : search className info.iter 0 = .ok (some (0 + k + 1, c)) :=
      search_eq h.record (by simp [isRequested, h.named, h.defined]) h.first
    rwa [Nat.zero_add] at heq
  simp [addRequested, hfound]

/-- The map holds a field of the class itself under the name of each of its fields. -/
def HoldsFieldsOf (cls : Class) (s : PdbStruct) : Prop :=
  ∀ f ∈ cls.fields, ∃ g ∈ cls.fields, g.name.text = f.name.text ∧
    s.findField f.name.text = some ⟨g.typeName, g.offset⟩

theorem drain_holdsFieldsOf {finder : TypeFinder} {cls : Class} {rounds : Nat} {needed : Finset Nat} {data data' : Data}
    {taken : List Nat} (hdata : data.classes = [cls])
    (h : drain (fun i data => data.add finder i) rounds data needed = some (taken, .ok data')) :
    HoldsFieldsOf cls ⟨fieldMap data'.classes⟩ := by
  obtain ⟨front, hfront⟩ := drain_add_classes hdata h
  intro f hf
  obtain ⟨g, hg, hname, hmap⟩ := fieldMap_own front ⟨f, hf, rfl⟩
  rw [hfront]
  exact ⟨g, hg, hname, hmap⟩

section With

variable {typeInformation : List UInt8 → Except Stop TypeInformation} {pdbSlice : List UInt8} {className : String}

theorem with_error {e : Stop} (h : (typeInformation pdbSlice >>= fun info => addRequested info className) = .error e)
    (rounds : Nat) : PdbStruct.with typeInformation pdbSlice className rounds = some ([], .error e) := by
  simp [PdbStruct.with, h]

theorem with_ok {finder : TypeFinder} {data : Data} {needed : Finset Nat}
    (h : (typeInformation pdbSlice >>= fun info => addRequested info className) = .ok (finder, data, needed))
    (rounds : Nat) : PdbStruct.with typeInformation pdbSlice className rounds =
      (drain (fun i data => data.add finder i) rounds data needed).map fun (taken, res) =>
        (taken, res.map fun data => ⟨fieldMap data.classes⟩) := by
  simp [PdbStruct.with, h]

end With

/-- What is needed before the loop lies below the requested class, which is the only one. -/
theorem Requests.start {info : TypeInformation} {className : String} {k c : Nat} {data : ClassType}
    (h : Requests info className k c data) {finder : TypeFinder} {d : Data} {needed : Finset Nat}
    (hadd : addRequested info className = .ok (finder, d, needed)) :
    finder = info.finder (k + 1) ∧ (∀ i ∈ needed, i < c) ∧
      ∃ cls, Data.addClass finder data ∅ = .ok (cls, needed) ∧ d.classes = [cls] := by
  rw [h.addRequested_eq] at hadd
  cases hr : Data.new.add (info.finder (k + 1)) c ∅ with
  | error e => simp [hr, Except.map] at hadd
  | ok r =>
    rw [hr] at hadd
    cases hadd
    refine ⟨rfl, fun i hi => (add_addsLower _ c _ _ _ _ hr i hi).resolve_left (Finset.notMem_empty i), ?_⟩
    exact Data.add_class (info.indexed k c _ h.record) h.defined hr

theorem with_requested (typeInformation : List UInt8 → Except Stop TypeInformation) (pdbSlice : List UInt8)
    (className : String) : ∃ n taken res,
      (∀ rounds, n ≤ rounds → PdbStruct.with typeInformation pdbSlice className rounds = some (taken, res)) ∧
      taken.Nodup ∧
      ∀ info k c data, typeInformation pdbSlice = .ok info → Requests info className k c data →
        (∀ i ∈ taken, i < c) ∧
        ∀ s, res = .ok s → ∃ cls needed, Data.addClass (info.finder (k + 1)) data ∅ = .ok (cls, needed) ∧
          cls.fields.map Field.asMember = data.fields.elim [] (members (info.finder (k + 1))) ∧ HoldsFieldsOf cls s := by
  cases hstart : typeInformation pdbSlice >>= fun info => addRequested info className with
  | error e =>
    exact ⟨0, [], .error e, fun rounds _ => with_error hstart rounds, .nil,
      fun info k c data _ _ => ⟨nofun, nofun⟩⟩
  | ok start =>
    obtain ⟨finder, d, needed⟩ := start
    have hbound : ∀ i ∈ needed, i < needed.sup id + 1 := fun i hi => Nat.lt_succ_of_le (Finset.le_sup (f := id) hi)
    obtain ⟨taken, res, hrun, hpair, -⟩ := drain_ends (add_addsLower finder) _ needed d hbound
    refine ⟨needed.sup id + 2, taken, res.map fun data => ⟨fieldMap data.classes⟩,
      fun rounds h => by simp [with_ok hstart, hrun rounds h], hpair.imp fun h => h.ne', ?_⟩
    intro info k c data hinfo hreq
    rw [hinfo] at hstart
    obtain ⟨rfl, hlt, cls, hcls, hclasses⟩ := hreq.start hstart
    have hdrain := hrun (needed.sup id + 2) (by omega)
    refine ⟨drain_lt (add_addsLower _) hlt hdrain, fun s hs => ?_⟩
    cases res with
    | error e => cases hs
    | ok data' =>
      cases hs
      exact ⟨cls, needed, hcls, Data.addClass_members data _ _ _ hcls, drain_holdsFieldsOf hclasses hdrain⟩

end Jiaa.Win32.Pdb
