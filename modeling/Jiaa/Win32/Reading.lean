/-
  Jiaa.Win32.Reading — functions that read virtual memory and may fail
  (memflow-win32 `error.rs`).

  `ReadM` threads the memory through such a function, `none` is a panic. `Gives` says what
  a function returns in every state that shows an address space.
-/

import Jiaa.Mem.GuestMemory
import Jiaa.Win32.Offsets

namespace Jiaa.Win32

open VirtualMemory

abbrev ReadM (W : Type) := ExceptT Error (StateT W Option)

section Reads

variable {W : Type}

/-- A read with `?`. -/
def orFail {α : Type} (read : W → Option (W × PartialResult α)) : ReadM W α := fun w =>
  (read w).map fun (w, res) => (res.mapError Error.ofPartial, w)

variable [VirtualMemory W]

def readAddrArch (arch : X86Architecture) (addr : Nat) (uninit : Nat → UInt8) : ReadM W Nat :=
  orFail fun w => virtReadAddrArch w arch addr uninit

def readPod (α : Type) [Pod α] (addr : Nat) (uninit : Nat → UInt8) : ReadM W α :=
  orFail fun w => virtRead α w addr fun i => uninit i

def readCstr (addr len : Nat) : ReadM W String := orFail fun w => virtReadCstr w addr len

/-- A read of a whole buffer, with `?`. -/
def readRawInto (addr : Nat) (out : List UInt8) : ReadM W (List UInt8) :=
  orFail fun w => (virtReadRawInto w addr out).map fun (w, buf, res) =>
    (w, match res with
      | .ok () => .ok buf
      | .error (.error e) => .error (.error e)
      | .error (.partialVirtualRead ()) => .error (.partialVirtualRead buf)
      | .error .partialVirtualWrite => .error .partialVirtualWrite)

/-- `virt_read_raw_into` with `.data_part()?`. -/
def readPart (addr len : Nat) : ReadM W (List UInt8) := fun w =>
  (virtReadRawInto w addr (List.replicate len 0)).map fun (w, buf, res) =>
    (match res.dataPart with
      | .ok () => .ok buf
      | .error e => .error (.core e), w)

/-- `virt_read_raw` with `.data_part()?`. -/
def readRawPart (addr len : Nat) : ReadM W (List UInt8) := fun w =>
  (virtReadRaw w addr len).map fun (w, res) => (res.dataPart.mapError .core, w)

end Reads

section Control

variable {W α ι : Type}

/-- What a call returns, an error included. -/
def attempt (x : ReadM W α) : ReadM W (Except Error α) := fun w => (x w).map fun (res, w) => (.ok res, w)

/-- `or_else` of a call, the error dropped. -/
def orElse (x y : ReadM W α) : ReadM W α := do
  match ← attempt x with
  | .ok a => pure a
  | .error _ => y

/-- The loops that end at the first item that gives something. -/
def firstM (f : ι → ReadM W (Option α)) : List ι → ReadM W (Option α)
  | [] => pure none
  | i :: rest => do
    match ← f i with
    | some a => pure (some a)
    | none => firstM f rest

/-- `filter_map` of calls with `.ok()`. -/
def collectOk (f : ι → ReadM W α) : List ι → ReadM W (List α)
  | [] => pure []
  | i :: rest => do
    let res ← attempt (f i)
    let values ← collectOk f rest
    pure (res.toOption.toList ++ values)

end Control

section Runs

variable {W α β : Type} {w w' : W}

theorem run_bind_ok {x : ReadM W α} {f : α → ReadM W β} {a : α} (h : x w = some (.ok a, w')) : (x >>= f) w = f a w' := by
  show (x w).bind _ = _
  rw [h]
  rfl

theorem run_bind_error {x : ReadM W α} {f : α → ReadM W β} {e : Error} (h : x w = some (.error e, w')) :
    (x >>= f) w = some (.error e, w') := by
  show (x w).bind _ = _
  rw [h]
  rfl

theorem run_attempt {x : ReadM W α} {r : Except Error α} (h : x w = some (r, w')) : attempt x w = some (.ok r, w') := by
  rw [attempt, h]
  rfl

theorem run_orElse_ok {x y : ReadM W α} {a : α} (h : x w = some (.ok a, w')) : orElse x y w = some (.ok a, w') :=
  run_bind_ok (run_attempt h)

theorem run_orElse_error {x y : ReadM W α} {e : Error} (h : x w = some (.error e, w')) : orElse x y w = y w' :=
  run_bind_ok (run_attempt h)

end Runs

/-! ## What is returned -/

/-- In every state of `P` the function returns `r`, in a state of `P`. -/
def Gives {W α : Type} (P : W → Prop) (x : ReadM W α) (r : Except Error α) : Prop :=
  ∀ w, P w → ∃ w', x w = some (r, w') ∧ P w'

namespace Gives

variable {W α β : Type} {P : W → Prop}

theorem pure (a : α) : Gives P (pure a : ReadM W α) (.ok a) := fun w hw => ⟨w, rfl, hw⟩

theorem throw (e : Error) : Gives P (throw e : ReadM W α) (.error e) := fun w hw => ⟨w, rfl, hw⟩

theorem bind {x : ReadM W α} {a : α} {f : α → ReadM W β} {r : Except Error β} (hx : Gives P x (.ok a))
    (hf : Gives P (f a) r) : Gives P (x >>= f) r := by
  intro w hw
  obtain ⟨w1, h1, hw1⟩ := hx w hw
  obtain ⟨w2, h2, hw2⟩ := hf w1 hw1
  exact ⟨w2, (run_bind_ok h1).trans h2, hw2⟩

theorem bind_error {x : ReadM W α} {e : Error} {f : α → ReadM W β} (hx : Gives P x (.error e)) :
    Gives P (x >>= f) (.error e) := by
  intro w hw
  obtain ⟨w1, h1, hw1⟩ := hx w hw
  exact ⟨w1, run_bind_error h1, hw1⟩

/-- A call whose result decides what follows. -/
theorem bind_result {x : ReadM W α} {r : Except Error α} {f : α → ReadM W β} {s : α → Except Error β} (hx : Gives P x r)
    (hf : ∀ a, r = .ok a → Gives P (f a) (s a)) : Gives P (x >>= f) (r.bind s) := by
  cases r with
  | error e => exact hx.bind_error
  | ok a => exact hx.bind (hf a rfl)

theorem attempt {x : ReadM W α} {r : Except Error α} (hx : Gives P x r) : Gives P (attempt x) (.ok r) := by
  intro w hw
  obtain ⟨w', h, hw'⟩ := hx w hw
  exact ⟨w', run_attempt h, hw'⟩

theorem orElse {x y : ReadM W α} {r s : Except Error α} (hx : Gives P x r) (hy : (∀ a, r ≠ .ok a) → Gives P y s) :
    Gives P (orElse x y) (r.orElseLazy fun _ => s) := by
  refine hx.attempt.bind ?_
  cases r with
  | ok a => exact .pure a
  | error e => exact hy (by simp)

/-- A loop over items each of which gives what `g` says is a search of the items. -/
theorem firstM {ι : Type} {f : ι → ReadM W (Option α)} {g : ι → Option α} : ∀ {l : List ι},
    (∀ i ∈ l, Gives P (f i) (.ok (g i))) → Gives P (firstM f l) (.ok (l.findSome? g)) := by
  intro l
  induction l with
  | nil => intro _; exact .pure _
  | cons i rest ih =>
    intro h
    refine (h i (List.mem_cons_self ..)).bind ?_
    rw [List.findSome?_cons]
    cases g i with
    | some a => exact .pure _
    | none => exact ih fun j hj => h j (List.mem_cons_of_mem _ hj)

/-- What does not fail is kept. -/
theorem collectOk {ι : Type} {f : ι → ReadM W α} {r : ι → Except Error α} : ∀ {l : List ι},
    (∀ i ∈ l, Gives P (f i) (r i)) → Gives P (collectOk f l) (.ok (l.filterMap fun i => (r i).toOption)) := by
  intro l
  induction l with
  | nil => intro _; exact .pure _
  | cons i rest ih =>
    intro h
    refine (h i (List.mem_cons_self ..)).attempt.bind ((ih fun j hj => h j (List.mem_cons_of_mem _ hj)).bind ?_)
    rw [List.filterMap_cons]
    cases r i with
    | error e => exact .pure _
    | ok a => exact .pure _

/-- No other value is returned. -/
theorem ok_iff {x : ReadM W α} {a b : α} {w : W} (h : Gives P x (.ok a)) (hw : P w) :
    (∃ w', x w = some (.ok b, w')) ↔ a = b := by
  obtain ⟨w', hx, -⟩ := h w hw
  simp [hx]

end Gives

section Shows

variable {W : Type} [VirtualMemory W] {g : GuestMemory} {P : W → Prop}

theorem gives_readAddrArch (h : Shows g P) {arch : X86Architecture} (harch : arch.bits = 64 ∨ arch.bits = 32) {addr : Nat}
    (ha : addr < 2 ^ 64) (uninit : Nat → UInt8) : Gives P (readAddrArch arch addr uninit) (.ok (g.addrAt arch addr)) := by
  intro w hw
  obtain ⟨w', hw', hread⟩ := h.virtReadAddrArch hw harch ha uninit
  exact ⟨w', by simp [readAddrArch, orFail, hread, Except.mapError], hw'⟩

theorem gives_readPod {α : Type} [Pod α] (h : Shows g P) (hpos : 0 < Pod.size α) {addr : Nat} (ha : addr < 2 ^ 64)
    (uninit : Nat → UInt8) : Gives P (readPod α addr uninit) (.ok (Pod.ofBytes (g.read addr (Pod.size α)))) := by
  intro w hw
  obtain ⟨w', hw', hread⟩ := h.virtRead hpos hw ha fun i => uninit i
  exact ⟨w', by simp [readPod, orFail, hread, Except.mapError], hw'⟩

theorem gives_readCstr (h : Shows g P) {addr len : Nat} (ha : addr < 2 ^ 64) (hl : 0 < len) :
    Gives P (readCstr addr len) (.ok (Lib.Text.fromUtf8Lossy ((g.read addr len).takeWhile (· != 0)))) := by
  intro w hw
  obtain ⟨w', hw', hread⟩ := h.virtReadCstr hw ha hl
  exact ⟨w', by simp [readCstr, orFail, hread, Except.mapError], hw'⟩

theorem gives_readRawInto (h : Shows g P) {addr : Nat} {out : List UInt8} (ha : addr < 2 ^ 64) (ho : out ≠ []) :
    Gives P (readRawInto addr out)
      (if g.Mapped addr out.length then .ok (g.read addr out.length) else .error (.core .partialData)) := by
  intro w hw
  obtain ⟨w', hw', hread⟩ := h.virtReadRawInto hw ha ho
  refine ⟨w', ?_, hw'⟩
  by_cases hm : g.Mapped addr out.length
  · simp [readRawInto, orFail, hread, hm, Except.mapError]
  · simp [readRawInto, orFail, hread, hm, Except.mapError, Error.ofPartial]

theorem gives_readPart (h : Shows g P) {addr len : Nat} (ha : addr < 2 ^ 64) (hl : 0 < len) :
    Gives P (readPart addr len) (.ok (g.read addr len)) := by
  intro w hw
  have hne : List.replicate len (0 : UInt8) ≠ [] := by simpa using hl.ne'
  obtain ⟨w', hw', hread⟩ := h.virtReadRawInto hw ha hne
  refine ⟨w', ?_, hw'⟩
  rw [readPart, hread, List.length_replicate]
  by_cases hm : g.Mapped addr len
  · simp [hm, PartialResult.dataPart]
  · simp [hm, PartialResult.dataPart]

theorem gives_readRawPart (h : Shows g P) {addr len : Nat} (ha : addr < 2 ^ 64) (hl : 0 < len) :
    Gives P (readRawPart addr len) (.ok (g.read addr len)) := by
  intro w hw
  obtain ⟨w', hw', hread⟩ := h.virtReadRaw hw ha hl
  exact ⟨w', by simp [readRawPart, hread, PartialResult.dataPart, Except.mapError], hw'⟩

theorem addrAt_lt (g : GuestMemory) {arch : X86Architecture} (harch : arch.bits = 64 ∨ arch.bits = 32) (addr : Nat) :
    g.addrAt arch addr < 2 ^ 64 := by
  have hlt := leU64_lt (g.read addr (arch.bits / 8))
  rw [GuestMemory.length_read] at hlt
  unfold GuestMemory.addrAt
  rcases harch with hb | hb
  · rw [hb] at hlt ⊢
    exact hlt
  · rw [hb] at hlt ⊢
    exact hlt.trans (by decide)

end Shows

end Jiaa.Win32
