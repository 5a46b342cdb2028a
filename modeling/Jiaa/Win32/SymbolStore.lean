/-
  Jiaa.Win32.SymbolStore — the symbols of a kernel, downloaded once and kept
  (memflow-win32 `offsets/symstore.rs`).

  A file of the cache is made by the first load of its path whose download comes in and whose
  file can be created. A file that is there is read and nothing else, so what that load left is
  what every later one returns, whole or cut short, whatever the server has by then.

  - `run_cached`: what a load leaves in the cache;
  - `cachedAt_eq`: what any number of loads leave there;
  - `load_iff`: the bytes that a load returns, after any others.
-/

import Jiaa.Lib.First
import Jiaa.Win32.Offsets

namespace Jiaa.Win32

/-! ## Paths, files and answers -/

/-- A path by its components, as `Path` compares them. -/
structure Path where
  absolute : Bool
  components : List String
  deriving DecidableEq, Repr

/-- `Path::join`: an absolute path replaces. -/
def Path.join (self : Path) (path : String) : Path :=
  let components := ((path.toList.splitOn '/').map String.ofList).filter fun c => c != "" && c != "."
  if path.toList.head? = some '/' then ⟨true, components⟩ else ⟨self.absolute, self.components ++ components⟩

abbrev Files := Path → Option (List UInt8)

/-- What comes of a request: no answer that is ok, or one with its length and its body.
    A body of `none` fails while it is read. -/
inductive Response where
  | refused
  | answered (contentLength : Option Nat) (body : Option (List UInt8))

/-- What the server and the file system answer during one load. -/
structure Io where
  get : String → Response
  openFails : Bool
  readFails : Bool
  dirExists : Bool
  createDirFails : Bool
  createFails : Bool
  /-- `write_all` fails after so many bytes. -/
  writeFailsAfter : Option Nat

/-! ## Loading -/

structure SymbolStore where
  baseUrl : String
  cachePath : Option Path

namespace SymbolStore

variable (self : SymbolStore) (io : Io) (guid : Win32GUID)

/-- `none` is a panic: no length, or another one than the body has. -/
def downloadFile (url : String) : Option (Except Error (List UInt8)) :=
  match io.get url with
  | .refused => some (.error (.symbolStore "unable to download pdb"))
  | .answered none _ => none
  | .answered (some _) none => some (.error (.symbolStore "unable to read from http request"))
  | .answered (some len) (some buffer) => if buffer.length = len then some (.ok buffer) else none

def download : Option (Except Error (List UInt8)) :=
  let pdbUrl := self.baseUrl ++ "/" ++ guid.fileName ++ "/" ++ guid.guid
  match downloadFile io (pdbUrl ++ "/" ++ guid.fileName) with
  | none => none
  | some (.ok buffer) => some (.ok buffer)
  | some (.error _) => downloadFile io (pdbUrl ++ "/" ++ "file.ptr")

def cacheFile : Option Path := self.cachePath.map fun cachePath => (cachePath.join guid.fileName).join guid.guid

/-- The file of the cache, written. -/
def writeFile (files : Files) (cacheFile : Path) (buffer : List UInt8) : Files × Except Error (List UInt8) :=
  if io.dirExists = false ∧ io.createDirFails = true then
    (files, .error (.symbolStore "unable to create folder in local pdb cache"))
  else if io.createFails = true then (files, .error (.symbolStore "unable to create file in local pdb cache"))
  else match io.writeFailsAfter with
    | some n => (Function.update files cacheFile (some (buffer.take n)),
        .error (.symbolStore "unable to write pdb to local cache"))
    | none => (Function.update files cacheFile (some buffer), .ok buffer)

/-- `none` is a panic. -/
def load (files : Files) : Files × Option (Except Error (List UInt8)) :=
  match self.cacheFile guid with
  | none => (files, self.download io guid)
  | some cacheFile =>
    match files cacheFile with
    | some buffer =>
      (files, some (if io.openFails = true then .error (.symbolStore "unable to open pdb in local cache")
        else if io.readFails = true then .error (.symbolStore "unable to read pdb from local cache") else .ok buffer))
    | none =>
      match self.download io guid with
      | none => (files, none)
      | some (.error e) => (files, some (.error e))
      | some (.ok buffer) => ((writeFile io files cacheFile buffer).1, some (writeFile io files cacheFile buffer).2)

/-! ## What a load leaves -/

/-- A load, of any store. A panic ends the process, and the next load is another's. -/
structure Load where
  store : SymbolStore
  io : Io
  guid : Win32GUID

namespace Load

variable (self : Load)

def run (files : Files) : Files × Option (Except Error (List UInt8)) := self.store.load self.io self.guid files

def path : Option Path := self.store.cacheFile self.guid

/-- What is downloaded by a load that gets to create its file. -/
def created : Option (List UInt8) :=
  match self.store.download self.io self.guid with
  | some (.ok buffer) =>
    if self.io.dirExists = false ∧ self.io.createDirFails = true ∨ self.io.createFails = true then none else some buffer
  | _ => none

/-- What such a load leaves in the file. -/
def left : Option (List UInt8) :=
  self.created.map fun buffer => match self.io.writeFailsAfter with
    | some n => buffer.take n
    | none => buffer

/-- What the load leaves at `p`, if nothing is there. -/
def leaves (p : Path) : Option (List UInt8) := if self.path = some p then self.left else none

end Load

variable {self io guid}

theorem update_free {files : Files} {p : Path} (hfree : files p = none) : Function.update files p none = files := by
  rw [← hfree]
  exact Function.update_eq_self p files

/-- One write, by what it is for the load. -/
theorem writeFile_eq (load : Load) {files : Files} {p : Path} {buffer : List UInt8} (hfree : files p = none)
    (hdown : load.store.download load.io load.guid = some (.ok buffer)) :
    (writeFile load.io files p buffer).1 = Function.update files p load.left ∧
      ∀ buf, (writeFile load.io files p buffer).2 = .ok buf ↔ load.created = some buf ∧ load.io.writeFailsAfter = none := by
  unfold writeFile Load.left Load.created
  rw [hdown]
  dsimp only
  by_cases hdir : load.io.dirExists = false ∧ load.io.createDirFails = true
  · rw [if_pos hdir, if_pos (.inl hdir)]
    exact ⟨(update_free hfree).symm, fun buf => by simp⟩
  · rw [if_neg hdir]
    by_cases hcreate : load.io.createFails = true
    · rw [if_pos hcreate, if_pos (.inr hcreate)]
      exact ⟨(update_free hfree).symm, fun buf => by simp⟩
    · rw [if_neg hcreate, if_neg (not_or.mpr ⟨hdir, hcreate⟩)]
      cases load.io.writeFailsAfter with
      | some n => exact ⟨rfl, fun buf => by simp⟩
      | none => exact ⟨rfl, fun buf => by simp⟩

namespace Load

variable {load : Load} {files : Files} {p : Path}

theorem leaves_self (hp : load.path = some p) : load.leaves p = load.left := if_pos hp

theorem leaves_other {q : Path} (hp : load.path = some p) (hq : q ≠ p) : load.leaves q = none :=
  if_neg fun h => hq (Option.some.inj (h.symm.trans hp))

/-- Without a download that comes in there is no file. -/
theorem created_none (h : ∀ buffer, load.store.download load.io load.guid ≠ some (.ok buffer)) : load.created = none := by
  unfold created
  split
  · next buffer hdown => exact absurd hdown (h buffer)
  · rfl

/-- A file that is there is read, and stays. -/
theorem run_there (hp : load.path = some p) {buffer : List UInt8} (hthere : files p = some buffer) :
    (load.run files).1 = files ∧ ∀ buf, (load.run files).2 = some (.ok buf) ↔
      buffer = buf ∧ load.io.openFails = false ∧ load.io.readFails = false := by
  unfold run SymbolStore.load
  unfold path at hp
  rw [hp]
  dsimp only
  rw [hthere]
  refine ⟨rfl, fun buf => ?_⟩
  dsimp only
  cases load.io.openFails <;> cases load.io.readFails <;> simp

/-- A file that is not there is downloaded and written. -/
theorem run_free (hp : load.path = some p) (hfree : files p = none) :
    (load.run files).1 = Function.update files p load.left ∧ ∀ buf, (load.run files).2 = some (.ok buf) ↔
      load.created = some buf ∧ load.io.writeFailsAfter = none := by
  have hnothing : (∀ buffer, load.store.download load.io load.guid ≠ some (.ok buffer)) →
      files = Function.update files p load.left ∧ load.created = none := by
    intro h
    rw [left, created_none h]
    exact ⟨(update_free hfree).symm, rfl⟩
  unfold run SymbolStore.load
  unfold path at hp
  rw [hp]
  dsimp only
  rw [hfree]
  dsimp only
  cases hdown : load.store.download load.io load.guid with
  | none =>
    obtain ⟨hfiles, hcreated⟩ := hnothing fun buffer h => by rw [hdown] at h; cases h
    exact ⟨hfiles, fun buf => by simp [hcreated]⟩
  | some res =>
    cases res with
    | error e =>
      obtain ⟨hfiles, hcreated⟩ := hnothing fun buffer h => by rw [hdown] at h; cases h
      exact ⟨hfiles, fun buf => by simp [hcreated]⟩
    | ok buffer =>
      obtain ⟨hfiles, hres⟩ := writeFile_eq load hfree hdown
      exact ⟨hfiles, fun buf => (Option.some_inj.trans (hres buf))⟩

/-- A load leaves its file where there was none. -/
theorem run_cached (load : Load) (files : Files) (p : Path) : (load.run files).1 p = (files p).or (load.leaves p) := by
  cases hpath : load.path with
  | none =>
    have hleaves : load.leaves p = none := if_neg (by rw [hpath]; simp)
    have hrun : (load.run files).1 = files := by
      unfold run SymbolStore.load
      unfold path at hpath
      rw [hpath]
    rw [hrun, hleaves, Option.or_none]
  | some q =>
    by_cases hpq : p = q
    · subst hpq
      rw [leaves_self hpath]
      cases hfile : files p with
      | some buffer => rw [(run_there hpath hfile).1, hfile, Option.some_or]
      | none => rw [(run_free hpath hfile).1, Function.update_self, Option.none_or]
    · rw [leaves_other hpath hpq, Option.or_none]
      cases hfile : files q with
      | some buffer => rw [(run_there hpath hfile).1]
      | none => rw [(run_free hpath hfile).1, Function.update_of_ne hpq]

end Load

/-! ## Loads after loads -/

section Run

open Lib.First (FirstAt)

variable (loads : Nat → Load) (files : Files)

/-- The files before load `i`. -/
def cachedAt : Nat → Files
  | 0 => files
  | i + 1 => ((loads i).run (cachedAt i)).1

/-- A path holds what it held, or else what the first load that got to create it left. -/
theorem cachedAt_eq (p : Path) (i : Nat) :
    cachedAt loads files i p = (files p).or ((List.range i).findSome? fun j => (loads j).leaves p) := by
  induction i with
  | zero => rw [cachedAt, List.range_zero, List.findSome?_nil, Option.or_none]
  | succ i ih =>
    rw [cachedAt, Load.run_cached, ih, Option.or_assoc, List.range_succ, List.findSome?_append, List.findSome?_singleton]

/-- In a cache that held nothing at its path, a load returns what the first load that got to
    create the file left there, or, if there is none, its own download when that is written as
    a whole. The file stays what that first load left. -/
theorem load_iff (p : Path) (hfiles : files p = none) (i : Nat) (hp : (loads i).path = some p) :
    (∀ buf, ((loads i).run (cachedAt loads files i)).2 = some (.ok buf) ↔
      (∃ j, FirstAt (fun j => (loads j).leaves p) i j buf) ∧
        (loads i).io.openFails = false ∧ (loads i).io.readFails = false ∨
      (∀ j < i, (loads j).leaves p = none) ∧ (loads i).created = some buf ∧ (loads i).io.writeFailsAfter = none) ∧
    ∀ j buf n, FirstAt (fun j => (loads j).leaves p) n j buf → cachedAt loads files n p = some buf := by
  have hcached : ∀ n, cachedAt loads files n p = (List.range n).findSome? fun j => (loads j).leaves p := by
    intro n
    rw [cachedAt_eq, hfiles, Option.none_or]
  have hfirst : ∀ n buf, cachedAt loads files n p = some buf ↔ ∃ j, FirstAt (fun j => (loads j).leaves p) n j buf := by
    intro n buf
    rw [hcached]
    exact Lib.First.findSome?_range_iff
  refine ⟨fun buf => ?_, fun j buf n h => (hfirst n buf).mpr ⟨j, h⟩⟩
  have hnone : cachedAt loads files i p = none ↔ ∀ j < i, (loads j).leaves p = none := by
    rw [hcached, List.findSome?_eq_none_iff]
    simp only [List.mem_range]
  rw [← hfirst, ← hnone]
  cases hfile : cachedAt loads files i p with
  | some buffer => simp [(Load.run_there hp hfile).2 buf]
  | none => simp [(Load.run_free hp hfile).2 buf]

end Run

/-! ## A file cut short -/

/-- The server has a file of four bytes, and then another; the first write stops after two. -/
def cutShort (i : Nat) : Load :=
  ⟨⟨"https://symbols", some ⟨true, ["cache"]⟩⟩,
    ⟨fun _ => .answered (some 4) (some (if i = 0 then [1, 2, 3, 4] else [5, 6, 7, 8])), false, false, true, false, false,
      if i = 0 then some 2 else none⟩, ⟨"ntkrnlmp.pdb", "ABC1"⟩⟩

def cutPath : Path := ⟨true, ["cache", "ntkrnlmp.pdb", "ABC1"]⟩

theorem load_iff_cutShort :
    ((cutShort 5).run (cachedAt cutShort (fun _ => none) 5)).2 = some (.ok [1, 2]) := by
  have hfirst : (cutShort 0).path = some cutPath := by decide +kernel
  have hpath : ∀ i, (cutShort i).path = some cutPath := fun _ => hfirst
  have hleft : (cutShort 0).leaves cutPath = some [1, 2] := (Load.leaves_self (hpath 0)).trans (by decide +kernel)
  exact ((load_iff cutShort (fun _ => none) cutPath rfl 5 (hpath 5)).1 [1, 2]).mpr
    (.inl ⟨⟨0, by decide, hleft, fun j hj => absurd hj (Nat.not_lt_zero j)⟩, rfl, rfl⟩)

end SymbolStore

end Jiaa.Win32
