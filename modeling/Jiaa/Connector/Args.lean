/-
  Jiaa.Connector.Args — the argument string of a connector (memflow `connector/args.rs`).

  The string is split at the commas and each piece at the equal signs. A piece of two parts
  is a key and a value; the first piece, if it is anything else, is the default value.

  - `insertPiece_items`: each item inserts its key and value, wherever it stands;
  - `parse_argstr`: a string made of a default value and items is parsed to the arguments
    the builder makes of them.
-/

import Jiaa.Types.Address
import Mathlib.Data.List.Induction
import Mathlib.Logic.Function.Basic

namespace Jiaa

structure ConnectorArgs where
  map : String → Option String

/-- `str::split` at a character. -/
def splitChar (s : String) (c : Char) : List String := (s.split c).toList.map (·.copy)

namespace ConnectorArgs

def new : ConnectorArgs := ⟨fun _ => none⟩

def insert (self : ConnectorArgs) (key value : String) : ConnectorArgs :=
  ⟨Function.update self.map key (some value)⟩

def withDefault (value : String) : ConnectorArgs := new.insert "default" value

def get (self : ConnectorArgs) (key : String) : Option String := self.map key

def getDefault (self : ConnectorArgs) : Option String := self.get "default"

/-- The body of the loop over the pieces; `i` is the place of `kv`. -/
def insertPiece (map : String → Option String) : String × Nat → String → Option String
  | (kv, i) =>
    match splitChar kv '=' with
    | [key, value] => Function.update map key (some value)
    | _ => if i = 0 ∧ kv ≠ "" then Function.update map "default" (some kv) else map

def parse (args : String) : Except Error ConnectorArgs :=
  .ok ⟨(splitChar args ',').zipIdx.foldl insertPiece (fun _ => none)⟩

/-! ## Argument strings -/

/-- Without commas and equal signs. -/
def Plain (s : String) : Prop := ',' ∉ s.toList ∧ '=' ∉ s.toList

def item (kv : String × String) : String := kv.1 ++ "=" ++ kv.2

/-- A default value, if any, and `key=value` items, joined by commas. -/
def argstr (default? : Option String) (items : List (String × String)) : String :=
  ",".intercalate (default?.toList ++ items.map item)

/-- The builder calls for the same default value and items. -/
def build (default? : Option String) (items : List (String × String)) : ConnectorArgs :=
  items.foldl (fun args kv => args.insert kv.1 kv.2) ((default?.map withDefault).getD new)

theorem splitChar_intercalate {c : Char} {l : List String} (h : ∀ s ∈ l, c ∉ s.toList) :
    splitChar ((String.singleton c).intercalate l) c = if l = [] then [""] else l :=
  String.toList_split_intercalate h

theorem splitChar_of_notMem {c : Char} {s : String} (h : c ∉ s.toList) : splitChar s c = [s] := by
  have hs := splitChar_intercalate (c := c) (l := [s]) (by simpa using h)
  simpa using hs

theorem item_eq_intercalate (kv : String × String) : item kv = (String.singleton '=').intercalate [kv.1, kv.2] := by
  show kv.1 ++ "=" ++ kv.2 = _
  rw [String.intercalate_cons_cons, String.intercalate_singleton]
  rfl

theorem comma_notMem_item {kv : String × String} (hk : Plain kv.1) (hv : Plain kv.2) : ',' ∉ (item kv).toList := by
  have hc : ',' ∉ ("=" : String).toList := by decide
  simp only [item, String.toList_append, List.mem_append, not_or]
  exact ⟨⟨hk.1, hc⟩, hv.1⟩

/-- A piece that is an item inserts its key and value, wherever it stands. -/
theorem insertPiece_item (map : String → Option String) {kv : String × String} (hk : Plain kv.1) (hv : Plain kv.2)
    (i : Nat) : insertPiece map (item kv, i) = Function.update map kv.1 (some kv.2) := by
  have hs : splitChar (item kv) '=' = [kv.1, kv.2] := by
    rw [item_eq_intercalate, splitChar_intercalate, if_neg (by simp)]
    intro s hs
    obtain rfl | rfl : s = kv.1 ∨ s = kv.2 := by simpa using hs
    · exact hk.2
    · exact hv.2
  simp only [insertPiece, hs]

theorem insertPiece_items : ∀ (items : List (String × String)) (i : Nat) (args : ConnectorArgs),
    (∀ kv ∈ items, Plain kv.1 ∧ Plain kv.2) →
    ((items.map item).zipIdx i).foldl insertPiece args.map =
      (items.foldl (fun args kv => args.insert kv.1 kv.2) args).map
  | [], _, _, _ => rfl
  | kv :: items, i, args, h => by
    obtain ⟨hk, hv⟩ := h kv List.mem_cons_self
    rw [List.map_cons, List.zipIdx_cons, List.foldl_cons, insertPiece_item _ hk hv, List.foldl_cons]
    exact insertPiece_items items (i + 1) (args.insert kv.1 kv.2) fun kv' h' => h kv' (List.mem_cons_of_mem _ h')

theorem insertPiece_empty (map : String → Option String) (i : Nat) : insertPiece map ("", i) = map := by
  have hs : splitChar "" '=' = [""] := splitChar_of_notMem (by decide)
  simp only [insertPiece, hs]
  exact if_neg fun h => h.2 rfl

theorem insertPiece_default {d : String} (hd : d ≠ "") (hp : Plain d) :
    insertPiece new.map (d, 0) = (withDefault d).map := by
  simp only [insertPiece, splitChar_of_notMem hp.2]
  rw [if_pos ⟨trivial, hd⟩]
  rfl

theorem parse_eq_build {default? : Option String} {items : List (String × String)}
    (hd : ∀ d ∈ default?, d ≠ "" ∧ Plain d) (hi : ∀ kv ∈ items, Plain kv.1 ∧ Plain kv.2) :
    parse (argstr default? items) = .ok (build default? items) := by
  have hc : ∀ s ∈ default?.toList ++ items.map item, ',' ∉ s.toList := by
    intro s hs
    rcases List.mem_append.mp hs with h | h
    · exact (hd s (by simpa using h)).2.1
    · obtain ⟨kv, hkv, rfl⟩ := List.mem_map.mp h
      exact comma_notMem_item (hi kv hkv).1 (hi kv hkv).2
  have hsplit : splitChar (argstr default? items) ',' = _ := splitChar_intercalate hc
  have hfold : (splitChar (argstr default? items) ',').zipIdx.foldl insertPiece new.map =
      (build default? items).map := by
    rw [hsplit]
    cases default? with
    | some d =>
      rw [if_neg (by simp), Option.toList_some, List.singleton_append, List.zipIdx_cons, List.foldl_cons,
        insertPiece_default (hd d rfl).1 (hd d rfl).2]
      exact insertPiece_items items 1 (withDefault d) hi
    | none =>
      split
      · rename_i hnil
        -- the empty string is one empty piece
        have hitems : items = [] := by simpa using hnil
        subst hitems
        exact insertPiece_empty new.map 0
      · exact insertPiece_items items 0 new hi
  show Except.ok (ConnectorArgs.mk ((splitChar (argstr default? items) ',').zipIdx.foldl insertPiece new.map)) = _
  rw [hfold]

/-! ## What the arguments hold -/

/-- The last value of the key, or else the default value. -/
theorem build_get (default? : Option String) (items : List (String × String)) (key : String) :
    (build default? items).get key =
      (items.reverse.lookup key).or (if key = "default" then default? else none) := by
  induction items using List.reverseRecOn with
  | nil =>
    cases default? with
    | none => simp [build, get, new]
    | some d => simp [build, get, withDefault, insert, new, Function.update_apply]
  | append_singleton items kv ih =>
    have hget : (build default? (items ++ [kv])).get key =
        if key = kv.1 then some kv.2 else (build default? items).get key := by
      rw [build, List.foldl_append]
      exact Function.update_apply ..
    rw [hget, ih, List.reverse_concat, List.lookup_cons]
    by_cases hk : key = kv.1
    · rw [if_pos hk, beq_iff_eq.mpr hk]
      rfl
    · rw [if_neg hk, beq_eq_false_iff_ne.mpr hk]

theorem build_getDefault (default? : Option String) (items : List (String × String)) :
    (build default? items).getDefault = (items.reverse.lookup "default").or default? := by
  rw [getDefault, build_get, if_pos rfl]

/-- A string made of a default value and items is parsed to the builder's arguments: the last
    value of each key, the default value under its own key unless an item has that key, and
    nothing else. -/
theorem parse_argstr (default? : Option String) (items : List (String × String))
    (hd : ∀ d ∈ default?, d ≠ "" ∧ Plain d) (hi : ∀ kv ∈ items, Plain kv.1 ∧ Plain kv.2) :
    parse (argstr default? items) = .ok (build default? items) ∧
      ∀ key, (build default? items).get key =
        (items.reverse.lookup key).or (if key = "default" then default? else none) :=
  ⟨parse_eq_build hd hi, build_get default? items⟩

theorem parse_default_overridden :
    parse (argstr (some "vm") [("opt", "1"), ("default", ""), ("opt", "2")]) =
        .ok (build (some "vm") [("opt", "1"), ("default", ""), ("opt", "2")]) ∧
      ∀ key, (build (some "vm") [("opt", "1"), ("default", ""), ("opt", "2")]).get key =
        ([("opt", "2"), ("default", ""), ("opt", "1")].lookup key).or (if key = "default" then some "vm" else none) :=
  parse_argstr (some "vm") [("opt", "1"), ("default", ""), ("opt", "2")] (by simp [Plain]) (by simp [Plain])

end ConnectorArgs

end Jiaa
