/-
  Jiaa.Game.MainLoop — the loop that reads and changes the player (jiaa-src `main.c`).

  Each iteration reads the player, changes the copy for each key that is pressed, and writes
  it back if `writePlayer` is set. Nothing resets `writePlayer`.

  - `iteration_writePlayer`: an iteration that changes the player sets it, and keeps it;
  - `writtenAt_none`: an iteration writes exactly if it or an earlier one changes the player;
  - `untouched_iff`: when an iteration that changes nothing writes nothing.
-/

import Jiaa.Mem.GuestMemory

namespace Jiaa.Game.MainLoop

inductive Key where
  | space | leftCtrl | pageUp | pageDown | home | «end» | insert | delete
  deriving DecidableEq, Repr

/-- The keys that move the player have a time each. -/
inductive Nudge where
  | lastUp | lastDown | lastZForward | lastZBack | lastXForward | lastXBack
  deriving DecidableEq, Repr

/-- The fields that are changed. -/
inductive PlayerField where
  | localPosX | localPosY | localPosZ | velocityY | velocity2Y
  deriving DecidableEq, Repr

def PlayerField.offset : PlayerField → Nat
  | localPosX => 0
  | localPosY => 8
  | localPosZ => 0x10
  | velocityY => 0x78
  | velocity2Y => 0xf8

/-- The bytes of a `struct LocalPlayer`. -/
abbrev LocalPlayer := List UInt8

namespace LocalPlayer

def size : Nat := 0x280

def get (self : LocalPlayer) (field : PlayerField) : Float :=
  .ofBits (.ofNat (leU64 ((self.drop field.offset).take 8)))

def set (self : LocalPlayer) (field : PlayerField) (x : Float) : LocalPlayer :=
  self.take field.offset ++ (List.range 8).map (fun i => UInt8.ofNat (x.toBits.toNat >>> (8 * i))) ++
    self.drop (field.offset + 8)

def add (self : LocalPlayer) (field : PlayerField) (x : Float) : LocalPlayer := self.set field (self.get field + x)

def sub (self : LocalPlayer) (field : PlayerField) (x : Float) : LocalPlayer := self.set field (self.get field - x)

end LocalPlayer

namespace Nudge

def key : Nudge → Key
  | lastUp => .pageUp
  | lastDown => .pageDown
  | lastZForward => .home
  | lastZBack => .end
  | lastXForward => .insert
  | lastXBack => .delete

def change (localPlayer : LocalPlayer) : Nudge → LocalPlayer
  | lastUp => localPlayer.add .localPosY 50.0
  | lastDown => localPlayer.sub .localPosY 50.0
  | lastZForward => localPlayer.add .localPosZ 50.0
  | lastZBack => localPlayer.sub .localPosZ 50.0
  | lastXForward => localPlayer.add .localPosX 50.0
  | lastXBack => localPlayer.sub .localPosX 50.0

end Nudge

/-- What lives on from one iteration to the next. -/
structure LoopState where
  writePlayer : Bool
  shouldHover : Bool
  lastHover : Int
  last : Nudge → Int

def LoopState.init (now : Int) : LoopState := ⟨false, false, now, fun _ => now⟩

/-- What an iteration sees: the memory, the keys, and the clock where a time is tested and where
    it is stored. -/
structure Input where
  memory : GuestMemory
  pressedKeys : Key → Bool
  hoverTested : Int
  hoverStored : Int
  tested : Nudge → Int
  stored : Nudge → Int

/-- In the middle of an iteration. -/
structure Frame extends LoopState where
  localPlayer : LocalPlayer

namespace Frame

def onSpace (self : Frame) (input : Input) : Frame :=
  if input.pressedKeys .space then
    { self with
      localPlayer := (self.localPlayer.add .velocityY 1.25).add .velocity2Y 1.25
      writePlayer := true }
  else self

def onLeftCtrl (self : Frame) (input : Input) : Frame :=
  if input.pressedKeys .leftCtrl ∧ input.hoverTested - self.lastHover > 250 then
    { self with shouldHover := !self.shouldHover, lastHover := input.hoverStored }
  else self

def onNudge (self : Frame) (input : Input) (n : Nudge) : Frame :=
  if input.pressedKeys n.key ∧ input.tested n - self.last n > 100 then
    { self with
      localPlayer := n.change self.localPlayer
      last := Function.update self.last n (input.stored n)
      writePlayer := true }
  else self

def hover (self : Frame) : Frame :=
  if self.shouldHover then
    { self with
      localPlayer := (self.localPlayer.set .velocityY 0.0).set .velocity2Y 0.0
      writePlayer := true }
  else self

end Frame

/-- In the order of the source. -/
def nudges : List Nudge := [.lastUp, .lastDown, .lastZForward, .lastZBack, .lastXForward, .lastXBack]

/-- The state after an iteration, and the bytes it writes at `localPlayerAddr`. -/
def iteration (localPlayerAddr : Nat) (state : LoopState) (input : Input) : LoopState × Option LocalPlayer :=
  let frame : Frame := ⟨state, input.memory.read localPlayerAddr LocalPlayer.size⟩
  let frame := (frame.onSpace input).onLeftCtrl input
  let frame := (nudges.foldl (fun frame n => frame.onNudge input n) frame).hover
  (frame.toLoopState, if frame.writePlayer then some frame.localPlayer else none)

/-! ## Writing back -/

/-- A key changes the player. -/
def Acts (state : LoopState) (input : Input) : Prop :=
  input.pressedKeys .space ∨ ∃ n : Nudge, input.pressedKeys n.key ∧ input.tested n - state.last n > 100

/-- `shouldHover`, after it was toggled. -/
def hovers (state : LoopState) (input : Input) : Bool :=
  if input.pressedKeys .leftCtrl ∧ input.hoverTested - state.lastHover > 250 then !state.shouldHover
  else state.shouldHover

/-- Nothing changes the player. -/
def Quiet (state : LoopState) (input : Input) : Prop := ¬Acts state input ∧ hovers state input = false

section Frame

variable (frame : Frame) (input : Input)

theorem onSpace_writePlayer : (frame.onSpace input).writePlayer = (frame.writePlayer || input.pressedKeys .space) := by
  unfold Frame.onSpace
  split <;> simp_all

theorem onLeftCtrl_writePlayer : (frame.onLeftCtrl input).writePlayer = frame.writePlayer := by
  unfold Frame.onLeftCtrl
  split <;> rfl

theorem onSpace_last : (frame.onSpace input).last = frame.last := by
  unfold Frame.onSpace
  split <;> rfl

theorem onLeftCtrl_last : (frame.onLeftCtrl input).last = frame.last := by
  unfold Frame.onLeftCtrl
  split <;> rfl

theorem onLeftCtrl_shouldHover :
    ((frame.onSpace input).onLeftCtrl input).shouldHover = hovers frame.toLoopState input := by
  have hspace : (frame.onSpace input).shouldHover = frame.shouldHover ∧
      (frame.onSpace input).lastHover = frame.lastHover := by
    unfold Frame.onSpace
    split <;> exact ⟨rfl, rfl⟩
  unfold Frame.onLeftCtrl hovers
  rw [hspace.2]
  split
  · exact congrArg (!·) hspace.1
  · exact hspace.1

theorem onNudge_writePlayer (n : Nudge) : (frame.onNudge input n).writePlayer = true ↔
    frame.writePlayer = true ∨ input.pressedKeys n.key ∧ input.tested n - frame.last n > 100 := by
  unfold Frame.onNudge
  split
  · next h => simp [h]
  · next h => simp [h]

theorem onNudge_last {n n' : Nudge} (h : n' ≠ n) : (frame.onNudge input n).last n' = frame.last n' := by
  unfold Frame.onNudge
  split
  · exact Function.update_of_ne h ..
  · rfl

theorem onNudge_shouldHover (n : Nudge) : (frame.onNudge input n).shouldHover = frame.shouldHover := by
  unfold Frame.onNudge
  split <;> rfl

/-- Each key of a list without repetitions is tested against the time from before. -/
theorem foldl_onNudge (l : List Nudge) (hl : l.Nodup) : ∀ frame : Frame,
    ((l.foldl (fun frame n => frame.onNudge input n) frame).writePlayer = true ↔
      frame.writePlayer = true ∨ ∃ n ∈ l, input.pressedKeys n.key ∧ input.tested n - frame.last n > 100) ∧
    (l.foldl (fun frame n => frame.onNudge input n) frame).shouldHover = frame.shouldHover := by
  induction l with
  | nil => simp
  | cons n l ih =>
    intro frame
    obtain ⟨hn, hl⟩ := List.nodup_cons.mp hl
    obtain ⟨hw, hs⟩ := ih hl (frame.onNudge input n)
    refine ⟨?_, hs.trans (onNudge_shouldHover frame input n)⟩
    have hlast : ∀ n' ∈ l, (frame.onNudge input n).last n' = frame.last n' := fun n' hn' =>
      onNudge_last frame input fun h => hn (h ▸ hn')
    have hrest : (∃ n' ∈ l, input.pressedKeys n'.key ∧ input.tested n' - (frame.onNudge input n).last n' > 100) ↔
        ∃ n' ∈ l, input.pressedKeys n'.key ∧ input.tested n' - frame.last n' > 100 :=
      exists_congr fun n' => and_congr_right fun hn' => by rw [hlast n' hn']
    rw [List.foldl_cons, hw, onNudge_writePlayer, hrest, List.exists_mem_cons_iff, or_assoc]

theorem hover_writePlayer : frame.hover.writePlayer = (frame.writePlayer || frame.shouldHover) := by
  unfold Frame.hover
  split <;> simp_all

end Frame

/-- An iteration sets `writePlayer` if it is not quiet, and never resets it. -/
theorem iteration_writePlayer (localPlayerAddr : Nat) (state : LoopState) (input : Input) :
    (iteration localPlayerAddr state input).1.writePlayer = true ↔ state.writePlayer = true ∨ ¬Quiet state input := by
  obtain ⟨hw, hs⟩ := foldl_onNudge input nudges (by decide)
    (((Frame.mk state (input.memory.read localPlayerAddr LocalPlayer.size)).onSpace input).onLeftCtrl input)
  have hall : ∀ n, n ∈ nudges := by
    intro n
    cases n <;> decide
  simp only [iteration, hover_writePlayer, Bool.or_eq_true, hw, hs, onLeftCtrl_writePlayer, onSpace_writePlayer,
    onLeftCtrl_last, onSpace_last, onLeftCtrl_shouldHover, hall, true_and, Quiet, Acts, not_and_or, not_not,
    Bool.not_eq_false, or_assoc]

/-- An iteration writes exactly if `writePlayer` is set in the end. -/
theorem iteration_writes (localPlayerAddr : Nat) (state : LoopState) (input : Input) :
    (iteration localPlayerAddr state input).2 = none ↔
      ¬(iteration localPlayerAddr state input).1.writePlayer = true := by
  unfold iteration
  dsimp only
  split
  · next h => simp [h]
  · next h => simp [h]

/-! ## Runs -/

/-- The state before iteration `i`. -/
def stateAt (localPlayerAddr : Nat) (now : Int) (inputs : Nat → Input) : Nat → LoopState
  | 0 => .init now
  | i + 1 => (iteration localPlayerAddr (stateAt localPlayerAddr now inputs i) (inputs i)).1

section Run

variable (localPlayerAddr : Nat) (now : Int) (inputs : Nat → Input)

def QuietAt (i : Nat) : Prop := Quiet (stateAt localPlayerAddr now inputs i) (inputs i)

/-- What iteration `i` writes. -/
def writtenAt (i : Nat) : Option LocalPlayer :=
  (iteration localPlayerAddr (stateAt localPlayerAddr now inputs i) (inputs i)).2

theorem stateAt_writePlayer (i : Nat) : (stateAt localPlayerAddr now inputs i).writePlayer = true ↔
    ∃ j < i, ¬QuietAt localPlayerAddr now inputs j := by
  induction i with
  | zero => simp [stateAt, LoopState.init]
  | succ i ih =>
    rw [stateAt, iteration_writePlayer, ih, Nat.exists_lt_succ_right]
    rfl

/-- An iteration writes exactly if it or one before it was not quiet. -/
theorem writtenAt_none (i : Nat) : writtenAt localPlayerAddr now inputs i = none ↔
    ∀ j ≤ i, QuietAt localPlayerAddr now inputs j := by
  have hstate := stateAt_writePlayer localPlayerAddr now inputs (i + 1)
  rw [stateAt] at hstate
  rw [writtenAt, iteration_writes, hstate]
  simp only [not_exists, not_and, not_not, Nat.lt_succ_iff]

/-- An iteration that changes nothing leaves the player alone exactly if those before changed
    nothing either. -/
theorem untouched_iff (i : Nat) :
    (QuietAt localPlayerAddr now inputs i → writtenAt localPlayerAddr now inputs i = none) ↔
      (QuietAt localPlayerAddr now inputs i → ∀ j < i, QuietAt localPlayerAddr now inputs j) := by
  refine imp_congr_right fun hi => ?_
  rw [writtenAt_none]
  refine ⟨fun h j hj => h j hj.le, fun h j hj => ?_⟩
  rcases Nat.eq_or_lt_of_le hj with rfl | hlt
  · exact hi
  · exact h j hlt

end Run

/-- Space in the first iteration, nothing later. -/
def spaceFirst (i : Nat) : Input := ⟨⟨fun _ => none⟩, fun key => key = .space ∧ i = 0, 0, 0, fun _ => 0, fun _ => 0⟩

/-- The second iteration writes what it has read. -/
theorem stale_copy_written : QuietAt 0x1000 0 spaceFirst 1 ∧ writtenAt 0x1000 0 spaceFirst 1 ≠ none := by
  constructor
  · simp [QuietAt, Quiet, Acts, hovers, spaceFirst, stateAt, iteration, nudges, Frame.onSpace, Frame.onLeftCtrl,
      Frame.onNudge, Frame.hover, LoopState.init]
  · rw [ne_eq, writtenAt_none]
    intro h
    exact (h 0 (Nat.zero_le 1)).1 (.inl (by decide))

end Jiaa.Game.MainLoop
