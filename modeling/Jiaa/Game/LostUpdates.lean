/-
  Jiaa.Game.LostUpdates — the main loop beside the game (jiaa-src `main.c`).

  The game stores into its memory whenever it likes. An iteration reads each byte of the player
  at some moment and, if it writes the player back, stores it at a later one.

  - `iteration_alters`: an iteration changes the copy in the fields its keys move, only;
  - `play_bytes`: what the loop does to a byte it does not move is to undo what the game stored
    there between the read and the write of an iteration that writes; these are all from the
    first on in which a key acts;
  - `nudges_apart`: a key that is held moves the player once in 101 milliseconds at most.
-/

import Mathlib.Algebra.Group.Nat.Even
import Mathlib.Tactic.Linarith
import Jiaa.Game.MainLoop

namespace Jiaa.Game.MainLoop

/-! ## What an iteration changes -/

namespace PlayerField

def Covers (field : PlayerField) (off : Nat) : Prop := field.offset ≤ off ∧ off < field.offset + 8

theorem offset_le (field : PlayerField) : field.offset + 8 ≤ LocalPlayer.size := by
  cases field <;> decide

end PlayerField

namespace Nudge

def field : Nudge → PlayerField
  | lastUp | lastDown => .localPosY
  | lastZForward | lastZBack => .localPosZ
  | lastXForward | lastXBack => .localPosX

end Nudge

/-- The key of a nudge is held, and its time is over. -/
def Fires (state : LoopState) (input : Input) (n : Nudge) : Prop :=
  input.pressedKeys n.key ∧ input.tested n - state.last n > 100

/-- An iteration changes a field. -/
def Touches (state : LoopState) (input : Input) (field : PlayerField) : Prop :=
  ((field = .velocityY ∨ field = .velocity2Y) ∧ (input.pressedKeys .space ∨ hovers state input)) ∨
    ∃ n, Fires state input n ∧ n.field = field

/-- `q` is `p` but for the bytes of `fields`. -/
structure Alters (fields : PlayerField → Prop) (p q : LocalPlayer) : Prop where
  length : q.length = p.length
  other : ∀ off, (∀ f, fields f → ¬f.Covers off) → q[off]? = p[off]?

namespace Alters

variable {fields : PlayerField → Prop} {p q r : LocalPlayer}

theorem refl (fields : PlayerField → Prop) (p : LocalPlayer) : Alters fields p p := ⟨rfl, fun _ _ => rfl⟩

theorem trans (h : Alters fields p q) (h' : Alters fields q r) : Alters fields p r :=
  ⟨h'.length.trans h.length, fun off hoff => (h'.other off hoff).trans (h.other off hoff)⟩

theorem set {field : PlayerField} (hfield : fields field) (hlen : p.length = LocalPlayer.size) (x : Float) :
    Alters fields p (p.set field x) := by
  have hle := field.offset_le
  have htake : (p.take field.offset).length = field.offset := by
    rw [List.length_take]
    omega
  have hbytes : ((List.range 8).map fun i => UInt8.ofNat (x.toBits.toNat >>> (8 * i))).length = 8 := by simp
  refine ⟨?_, fun off hoff => ?_⟩
  · unfold LocalPlayer.set
    rw [List.length_append, List.length_append, htake, hbytes, List.length_drop]
    omega
  · have hout : ¬(field.offset ≤ off ∧ off < field.offset + 8) := hoff field hfield
    unfold LocalPlayer.set
    by_cases hlt : off < field.offset
    · rw [List.append_assoc, List.getElem?_append_left (by omega), List.getElem?_take_of_lt hlt]
    · rw [List.getElem?_append_right (by rw [List.length_append]; omega), List.length_append, htake, hbytes,
        List.getElem?_drop, show field.offset + 8 + (off - (field.offset + 8)) = off by omega]

/-- Both velocities. -/
theorem set_velocities (hv : fields .velocityY) (hv2 : fields .velocity2Y) (hlen : p.length = LocalPlayer.size)
    (x : Float) (y : LocalPlayer → Float) :
    Alters fields p ((p.set .velocityY x).set .velocity2Y (y (p.set .velocityY x))) := by
  have h := set hv hlen x
  exact h.trans (set hv2 (h.length.trans hlen) _)

theorem change {n : Nudge} (hn : fields n.field) (hlen : p.length = LocalPlayer.size) :
    Alters fields p (n.change p) := by
  cases n <;> exact set hn hlen _

end Alters

section Iteration

variable {fields : PlayerField → Prop} (frame : Frame) (input : Input)

theorem onSpace_alters (hlen : frame.localPlayer.length = LocalPlayer.size)
    (h : input.pressedKeys .space = true → fields .velocityY ∧ fields .velocity2Y) :
    Alters fields frame.localPlayer (frame.onSpace input).localPlayer := by
  unfold Frame.onSpace
  split
  · next hkey =>
    exact Alters.set_velocities (h hkey).1 (h hkey).2 hlen _ fun p => p.get .velocity2Y + 1.25
  · exact Alters.refl ..

theorem onLeftCtrl_localPlayer : (frame.onLeftCtrl input).localPlayer = frame.localPlayer := by
  unfold Frame.onLeftCtrl
  split <;> rfl

theorem onNudge_alters (n : Nudge) (hlen : frame.localPlayer.length = LocalPlayer.size)
    (h : Fires frame.toLoopState input n → fields n.field) :
    Alters fields frame.localPlayer (frame.onNudge input n).localPlayer := by
  unfold Frame.onNudge
  split
  · next hfires => exact Alters.change (h hfires) hlen
  · exact Alters.refl ..

/-- The keys of a list without repetitions move the fields of those that fire. -/
theorem foldl_onNudge_alters (l : List Nudge) (hl : l.Nodup) : ∀ frame : Frame,
    frame.localPlayer.length = LocalPlayer.size → (∀ n ∈ l, Fires frame.toLoopState input n → fields n.field) →
    Alters fields frame.localPlayer (l.foldl (fun frame n => frame.onNudge input n) frame).localPlayer := by
  induction l with
  | nil => intro frame _ _; exact Alters.refl ..
  | cons n l ih =>
    intro frame hlen hfields
    obtain ⟨hn, hl⟩ := List.nodup_cons.mp hl
    have hstep := onNudge_alters frame input n hlen (hfields n (List.mem_cons_self ..))
    refine hstep.trans (ih hl _ (hstep.length.trans hlen) fun next hnext hfires => ?_)
    -- the times of the keys that follow are those of before
    have hne : next ≠ n := fun he => hn (he ▸ hnext)
    have hlast := onNudge_last frame input hne
    unfold Fires at hfires
    rw [hlast] at hfires
    exact hfields next (List.mem_cons_of_mem _ hnext) hfires

theorem hover_alters (hlen : frame.localPlayer.length = LocalPlayer.size)
    (h : frame.shouldHover = true → fields .velocityY ∧ fields .velocity2Y) :
    Alters fields frame.localPlayer frame.hover.localPlayer := by
  unfold Frame.hover
  split
  · next hh => exact Alters.set_velocities (h hh).1 (h hh).2 hlen _ fun _ => 0.0
  · exact Alters.refl ..

/-- The steps of an iteration touch the fields they should. -/
theorem steps_alters (hlen : frame.localPlayer.length = LocalPlayer.size) :
    Alters (Touches frame.toLoopState input) frame.localPlayer
      (nudges.foldl (fun frame n => frame.onNudge input n) ((frame.onSpace input).onLeftCtrl input)).hover.localPlayer := by
  have hspace : Alters (Touches frame.toLoopState input) frame.localPlayer
      ((frame.onSpace input).onLeftCtrl input).localPlayer := by
    rw [onLeftCtrl_localPlayer]
    exact onSpace_alters frame input hlen fun hkey => ⟨.inl ⟨.inl rfl, .inl hkey⟩, .inl ⟨.inr rfl, .inl hkey⟩⟩
  have hlast : ((frame.onSpace input).onLeftCtrl input).last = frame.last :=
    (onLeftCtrl_last _ input).trans (onSpace_last frame input)
  have hnudges := hspace.trans (foldl_onNudge_alters input nudges (by decide) _ (hspace.length.trans hlen)
    fun n _ hfires => by
      unfold Fires at hfires
      rw [hlast] at hfires
      exact .inr ⟨n, hfires, rfl⟩)
  have hhovers : (nudges.foldl (fun frame n => frame.onNudge input n)
      ((frame.onSpace input).onLeftCtrl input)).shouldHover = hovers frame.toLoopState input :=
    (foldl_onNudge input nudges (by decide) _).2.trans (onLeftCtrl_shouldHover frame input)
  exact hnudges.trans (hover_alters _ (hnudges.length.trans hlen) fun hh =>
    ⟨.inl ⟨.inl rfl, .inr (hhovers ▸ hh)⟩, .inl ⟨.inr rfl, .inr (hhovers ▸ hh)⟩⟩)

/-- What an iteration writes back is what it read but for the fields it touches. -/
theorem iteration_alters {localPlayerAddr : Nat} {state : LoopState} {q : LocalPlayer}
    (h : (iteration localPlayerAddr state input).2 = some q) :
    Alters (Touches state input) (input.memory.read localPlayerAddr LocalPlayer.size) q := by
  have hlen := GuestMemory.length_read input.memory localPlayerAddr LocalPlayer.size
  obtain ⟨-, hq⟩ := Option.ite_none_right_eq_some.mp h
  rw [← Option.some.inj hq]
  generalize input.memory.read localPlayerAddr LocalPlayer.size = p at hlen
  exact steps_alters ⟨state, p⟩ input hlen

end Iteration

/-! ## The game beside the loop -/

/-- What goes on while an iteration runs: the keys and the clock it sees, what the game stores
    meanwhile, and how many of these stores come before the read and the write of a byte. -/
structure Round where
  pressedKeys : Key → Bool
  hoverTested : Int
  hoverStored : Int
  tested : Nudge → Int
  stored : Nudge → Int
  game : List (Nat × UInt8)
  readAt : Nat → Nat
  writeAt : Nat → Nat
  /-- The player is read as a whole before it is written. -/
  read_le_write : ∀ x y, readAt x ≤ writeAt y

namespace Round

variable (round : Round) (mem : GuestMemory)

/-- The memory as the iteration reads it. -/
def input : Input :=
  ⟨⟨fun x => (mem.store (round.game.take (round.readAt x))).bytes x⟩, round.pressedKeys, round.hoverTested,
    round.hoverStored, round.tested, round.stored⟩

/-- The memory when the iteration is over. -/
def leave (localPlayerAddr : Nat) : Option LocalPlayer → GuestMemory
  | none => mem.store round.game
  | some player => ⟨fun x => (((mem.store (round.game.take (round.writeAt x))).write localPlayerAddr player).store
      (round.game.drop (round.writeAt x))).bytes x⟩

end Round

section Play

variable (localPlayerAddr : Nat) (now : Int) (mem : GuestMemory) (rounds : Nat → Round)

/-- The loop's variables and the guest's memory before iteration `i`. -/
def play : Nat → LoopState × GuestMemory
  | 0 => (.init now, mem)
  | i + 1 =>
    let (state, memory) := play i
    let (state', written) := iteration localPlayerAddr state ((rounds i).input memory)
    (state', (rounds i).leave memory localPlayerAddr written)

/-- What iteration `i` sees. -/
def inputAt (i : Nat) : Input := (rounds i).input (play localPlayerAddr now mem rounds i).2

/-- The bytes of the player. -/
def InPlayer (x : Nat) : Prop := localPlayerAddr ≤ x ∧ x < localPlayerAddr + LocalPlayer.size

instance (x : Nat) : Decidable (InPlayer localPlayerAddr x) := inferInstanceAs (Decidable (_ ∧ _))

/-- Of what the game stores during iteration `i`, what counts at `x`: an iteration that writes
    the player undoes what was stored after it read the byte. -/
def kept (x i : Nat) : List (Nat × UInt8) :=
  if InPlayer localPlayerAddr x ∧ (play localPlayerAddr now mem rounds (i + 1)).1.writePlayer = true then
    (rounds i).game.take ((rounds i).readAt x) ++ (rounds i).game.drop ((rounds i).writeAt x)
  else (rounds i).game

/-- No iteration before `i` moves the byte. -/
def Unmoved (x i : Nat) : Prop :=
  ∀ j < i, ∀ f, Touches (play localPlayerAddr now mem rounds j).1 (inputAt localPlayerAddr now mem rounds j) f →
    ¬(InPlayer localPlayerAddr x ∧ f.Covers (x - localPlayerAddr))

theorem play_state (i : Nat) : (play localPlayerAddr now mem rounds i).1 =
    stateAt localPlayerAddr now (inputAt localPlayerAddr now mem rounds) i := by
  induction i with
  | zero => rfl
  | succ i ih =>
    rw [stateAt, ← ih]
    rfl

variable {localPlayerAddr now mem rounds}

/-- One iteration: at a byte it does not move, the game's stores that count are left. -/
theorem leave_bytes (hwrap : localPlayerAddr + LocalPlayer.size ≤ 2 ^ 64) (round : Round) (memory : GuestMemory)
    {state : LoopState} {x : Nat}
    (hx : ∀ f, Touches state (round.input memory) f → ¬(InPlayer localPlayerAddr x ∧ f.Covers (x - localPlayerAddr))) :
    (round.leave memory localPlayerAddr (iteration localPlayerAddr state (round.input memory)).2).bytes x =
      (memory.store (if InPlayer localPlayerAddr x ∧
          (iteration localPlayerAddr state (round.input memory)).1.writePlayer = true then
        round.game.take (round.readAt x) ++ round.game.drop (round.writeAt x) else round.game)).bytes x := by
  have hwrites := iteration_writes localPlayerAddr state (round.input memory)
  cases hq : (iteration localPlayerAddr state (round.input memory)).2 with
  | none => rw [if_neg fun h => hwrites.mp hq h.2]; rfl
  | some q =>
    have hset : (iteration localPlayerAddr state (round.input memory)).1.writePlayer = true :=
      not_not.mp fun h => by rw [hwrites.mpr h] at hq; cases hq
    have halters := iteration_alters (round.input memory) hq
    have hlen : q.length = LocalPlayer.size := halters.length.trans (GuestMemory.length_read ..)
    have hfits : localPlayerAddr + q.length ≤ 2 ^ 64 := by rw [hlen]; exact hwrap
    have hwritten := GuestMemory.write_bytes hfits (memory.store (round.game.take (round.writeAt x))) x
    rw [hset]
    by_cases hin : InPlayer localPlayerAddr x
    · rw [if_pos ⟨hin, rfl⟩, GuestMemory.store_append]
      refine GuestMemory.store_congr _ ?_
      -- the byte of the copy is the one in memory when it was read
      have hbyte : q[x - localPlayerAddr]? =
          some (((memory.store (round.game.take (round.readAt x))).bytes x).getD 0) := by
        have hoff : x - localPlayerAddr < LocalPlayer.size := Nat.sub_lt_left_of_lt_add hin.1 hin.2
        rw [halters.other _ fun f hf hcovers => hx f hf ⟨hin, hcovers⟩, GuestMemory.getElem?_read _ _ hoff,
          Nat.add_sub_cancel' hin.1, Nat.mod_eq_of_lt (Nat.lt_of_lt_of_le hin.2 hwrap)]
        rfl
      rw [hwritten, if_pos hin.1, hbyte]
      simp only [Option.getD_some, GuestMemory.store_bytes, Option.map_map]
      cases memory.bytes x <;> rfl
    · rw [if_neg fun h => hin h.1]
      conv_rhs => rw [← List.take_append_drop (round.writeAt x) round.game, GuestMemory.store_append]
      refine GuestMemory.store_congr _ ?_
      have hnone : (if localPlayerAddr ≤ x then q[x - localPlayerAddr]? else none) = none := by
        unfold InPlayer at hin
        split
        · next hle => exact List.getElem?_eq_none (by omega)
        · rfl
      rw [hwritten, hnone]
      exact Option.map_id' ..

/-- Whatever the game does at whatever moments: while no iteration moves a byte, its value is
    that of the game's own stores that count. All count at the bytes outside of the player
    and until a key acts; from then on, in the player, those between the read and the write of
    an iteration do not. -/
theorem play_bytes (hwrap : localPlayerAddr + LocalPlayer.size ≤ 2 ^ 64) {x i : Nat}
    (hx : Unmoved localPlayerAddr now mem rounds x i) :
    (play localPlayerAddr now mem rounds i).2.bytes x =
        (mem.store ((List.range i).flatMap (kept localPlayerAddr now mem rounds x))).bytes x ∧
      ∀ j < i, (play localPlayerAddr now mem rounds (j + 1)).1.writePlayer = true ↔
        ∃ k ≤ j, ¬QuietAt localPlayerAddr now (inputAt localPlayerAddr now mem rounds) k := by
  refine ⟨?_, fun j _ => ?_⟩
  · induction i with
    | zero => rfl
    | succ i ih =>
      have hstep := leave_bytes hwrap (rounds i) (play localPlayerAddr now mem rounds i).2 (hx i (Nat.lt_succ_self i))
      rw [List.range_succ, List.flatMap_append, List.flatMap_singleton, GuestMemory.store_append]
      refine Eq.trans ?_ (GuestMemory.store_congr _ (ih fun j hj => hx j (Nat.lt_succ_of_lt hj)))
      exact hstep
  · rw [play_state, stateAt_writePlayer]
    simp only [Nat.lt_succ_iff]

end Play

/-- Space in the first iteration, nothing later; the game stores a byte in the middle of each. -/
def busyRounds (i : Nat) : Round :=
  ⟨fun key => key = .space ∧ i = 0, 0, 0, fun _ => 0, fun _ => 0, [(0x1200, UInt8.ofNat (i + 1))], fun _ => 0,
    fun _ => 1, fun _ _ => Nat.zero_le 1⟩

/-- Neither of the two bytes is left. -/
theorem play_bytes_busyRounds :
    (play 0x1000 0 ⟨fun _ => some 0⟩ busyRounds 2).2.bytes 0x1200 = some 0 := by
  have hoff : ∀ f : PlayerField, ¬f.Covers (0x1200 - 0x1000) := by
    intro f
    cases f <;> simp [PlayerField.Covers, PlayerField.offset]
  have hunmoved : Unmoved 0x1000 0 ⟨fun _ => some 0⟩ busyRounds 0x1200 2 := fun j _ f _ h => hoff f h.2
  obtain ⟨hbytes, hwrites⟩ := play_bytes (by decide) hunmoved
  have hacts : ¬QuietAt 0x1000 0 (inputAt 0x1000 0 ⟨fun _ => some 0⟩ busyRounds) 0 := fun h => h.1 (.inl (by decide))
  have hkept : ∀ j < 2, kept 0x1000 0 ⟨fun _ => some 0⟩ busyRounds 0x1200 j = [] := fun j hj =>
    (if_pos ⟨by decide, (hwrites j hj).mpr ⟨0, Nat.zero_le j, hacts⟩⟩).trans rfl
  rw [hbytes, List.flatMap_eq_nil_iff.mpr fun j hj => hkept j (List.mem_range.mp hj)]
  rfl

/-! ## How often a key acts -/

section Pace

variable (frame : Frame) (state : LoopState) (input : Input)

instance (n : Nudge) : Decidable (Fires state input n) := inferInstanceAs (Decidable (_ ∧ _))

/-- Hover is switched. -/
def Toggles : Prop := input.pressedKeys .leftCtrl ∧ input.hoverTested - state.lastHover > 250

instance : Decidable (Toggles state input) := inferInstanceAs (Decidable (_ ∧ _))

theorem hovers_eq : hovers state input = xor state.shouldHover (decide (Toggles state input)) := by
  unfold hovers Toggles
  split
  · next h => simp [h]
  · next h => simp [h]

/-- The time of a key that fires is stored. -/
theorem foldl_onNudge_last (n : Nudge) (l : List Nudge) (hl : l.Nodup) : ∀ frame : Frame,
    (l.foldl (fun frame n => frame.onNudge input n) frame).last n =
      if n ∈ l ∧ Fires frame.toLoopState input n then input.stored n else frame.last n := by
  induction l with
  | nil => intro frame; simp
  | cons n' l ih =>
    intro frame
    obtain ⟨hn', hl⟩ := List.nodup_cons.mp hl
    rw [List.foldl_cons, ih hl]
    by_cases heq : n = n'
    · subst heq
      rw [if_neg fun h => hn' h.1]
      unfold Frame.onNudge
      split
      · next hf =>
        rw [if_pos ⟨List.mem_cons_self .., hf⟩]
        exact Function.update_self ..
      · next hf => rw [if_neg fun h => hf h.2]
    · have hlast := onNudge_last frame input heq
      have hfires : Fires (frame.onNudge input n').toLoopState input n ↔ Fires frame.toLoopState input n := by
        unfold Fires
        rw [hlast]
      rw [hlast]
      refine if_congr ?_ rfl rfl
      rw [hfires, List.mem_cons]
      simp only [heq, false_or]

theorem foldl_onNudge_lastHover (l : List Nudge) : ∀ frame : Frame,
    (l.foldl (fun frame n => frame.onNudge input n) frame).lastHover = frame.lastHover := by
  induction l with
  | nil => intro frame; rfl
  | cons n l ih =>
    intro frame
    rw [List.foldl_cons, ih]
    unfold Frame.onNudge
    split <;> rfl

theorem hover_state : frame.hover.last = frame.last ∧ frame.hover.lastHover = frame.lastHover ∧
    frame.hover.shouldHover = frame.shouldHover := by
  unfold Frame.hover
  split <;> exact ⟨rfl, rfl, rfl⟩

theorem onSpace_lastHover : (frame.onSpace input).lastHover = frame.lastHover := by
  unfold Frame.onSpace
  split <;> rfl

theorem onLeftCtrl_lastHover : (frame.onLeftCtrl input).lastHover =
    if Toggles frame.toLoopState input then input.hoverStored else frame.lastHover := by
  unfold Frame.onLeftCtrl
  split
  · next h => exact (if_pos h).symm
  · next h => exact (if_neg h).symm

/-- The times after an iteration, and whether it leaves hover on. -/
theorem iteration_times (localPlayerAddr : Nat) (n : Nudge) :
    (iteration localPlayerAddr state input).1.last n =
        (if Fires state input n then input.stored n else state.last n) ∧
      (iteration localPlayerAddr state input).1.lastHover =
        (if Toggles state input then input.hoverStored else state.lastHover) ∧
      (iteration localPlayerAddr state input).1.shouldHover = hovers state input := by
  have hn : n ∈ nudges := by cases n <;> decide
  -- hovering changes none of the three
  obtain ⟨hlast, hlastHover, hhover⟩ := hover_state (nudges.foldl (fun frame n => frame.onNudge input n)
    (((Frame.mk state (input.memory.read localPlayerAddr LocalPlayer.size)).onSpace input).onLeftCtrl input))
  refine ⟨(congrFun hlast n).trans ?_, hlastHover.trans ?_, hhover.trans ?_⟩
  · rw [foldl_onNudge_last input n nudges (by decide)]
    have hfires : Fires (((Frame.mk state (input.memory.read localPlayerAddr LocalPlayer.size)).onSpace
        input).onLeftCtrl input).toLoopState input n ↔ Fires state input n := by
      unfold Fires
      rw [onLeftCtrl_last, onSpace_last]
    rw [onLeftCtrl_last, onSpace_last]
    exact if_congr ((and_iff_right hn).trans hfires) rfl rfl
  · have htoggles : Toggles ((Frame.mk state (input.memory.read localPlayerAddr LocalPlayer.size)).onSpace
        input).toLoopState input ↔ Toggles state input := by
      unfold Toggles
      rw [onSpace_lastHover]
    rw [foldl_onNudge_lastHover, onLeftCtrl_lastHover, onSpace_lastHover]
    exact if_congr htoggles rfl rfl
  · exact (foldl_onNudge input nudges (by decide) _).2.trans (onLeftCtrl_shouldHover ..)

end Pace

/-- What fires only when more than `d` has passed since `last`, fires once in `d + 1` at most. -/
theorem countP_paced {d : Int} {clock : Nat → Int} (last : Nat → Int) (fires : Nat → Prop) [DecidablePred fires]
    (hstart : last 0 ≤ clock 0) (hclock : ∀ i, clock i ≤ clock (i + 1)) (hidle : ∀ i, ¬fires i → last (i + 1) = last i)
    (hfires : ∀ i, fires i → last i + d < last (i + 1) ∧ last (i + 1) ≤ clock (i + 1)) (i : Nat) :
    (d + 1) * (List.range i).countP (fun j => fires j) ≤ last i - last 0 ∧ last i ≤ clock i := by
  induction i with
  | zero => exact ⟨by simp, hstart⟩
  | succ i ih =>
    obtain ⟨hcount, hle⟩ := ih
    rw [List.range_succ, List.countP_append, List.countP_singleton]
    by_cases h : fires i
    · obtain ⟨hlt, hnow⟩ := hfires i h
      simp only [h, decide_true, if_true]
      push_cast
      exact ⟨by linarith, hnow⟩
    · rw [hidle i h]
      simp only [h, decide_false, Bool.false_eq_true, if_false, Nat.add_zero]
      exact ⟨hcount, hle.trans (hclock i)⟩

section Clock

variable (localPlayerAddr : Nat) (now : Int) (inputs : Nat → Input)

/-- The clock goes forward from iteration to iteration, and within one from a test to the
    store of the time. -/
structure Forward (clock : Nat → Int) : Prop where
  start : now ≤ clock 0
  mono : ∀ i, clock i ≤ clock (i + 1)
  nudge : ∀ i n, (inputs i).tested n ≤ (inputs i).stored n ∧ (inputs i).stored n ≤ clock (i + 1)
  hover : ∀ i, (inputs i).hoverTested ≤ (inputs i).hoverStored ∧ (inputs i).hoverStored ≤ clock (i + 1)

/-- A key that is held moves the player once in 101 milliseconds at most, hover is switched
    once in 251 at most, and hovering goes with each switch. -/
theorem keys_paced {clock : Nat → Int} (h : Forward now inputs clock) (n : Nudge) (i : Nat) :
    101 * ((List.range i).countP fun j => Fires (stateAt localPlayerAddr now inputs j) (inputs j) n : Int) ≤ clock i - now ∧
      251 * ((List.range i).countP fun j => Toggles (stateAt localPlayerAddr now inputs j) (inputs j) : Int) ≤
        clock i - now ∧
      ((stateAt localPlayerAddr now inputs i).shouldHover = true ↔
        Odd ((List.range i).countP fun j => Toggles (stateAt localPlayerAddr now inputs j) (inputs j))) := by
  have htimes := fun j => iteration_times (stateAt localPlayerAddr now inputs j) (inputs j) localPlayerAddr n
  refine ⟨?_, ?_, ?_⟩
  · obtain ⟨hcount, hle⟩ := countP_paced (d := 100) (fun j => (stateAt localPlayerAddr now inputs j).last n)
      (fun j => Fires (stateAt localPlayerAddr now inputs j) (inputs j) n) h.start h.mono
      (fun j hj => (htimes j).1.trans (if_neg hj))
      (fun j hj => by
        have hlast := (htimes j).1.trans (if_pos hj)
        obtain ⟨htest, hstore⟩ := h.nudge j n
        have hover : (inputs j).tested n - (stateAt localPlayerAddr now inputs j).last n > 100 := hj.2
        rw [stateAt, hlast]
        exact ⟨by linarith, hstore⟩) i
    have hzero : (stateAt localPlayerAddr now inputs 0).last n = now := rfl
    rw [hzero] at hcount
    linarith
  · obtain ⟨hcount, hle⟩ := countP_paced (d := 250) (fun j => (stateAt localPlayerAddr now inputs j).lastHover)
      (fun j => Toggles (stateAt localPlayerAddr now inputs j) (inputs j)) h.start h.mono
      (fun j hj => (htimes j).2.1.trans (if_neg hj))
      (fun j hj => by
        have hlast := (htimes j).2.1.trans (if_pos hj)
        obtain ⟨htest, hstore⟩ := h.hover j
        have hover : (inputs j).hoverTested - (stateAt localPlayerAddr now inputs j).lastHover > 250 := hj.2
        rw [stateAt, hlast]
        exact ⟨by linarith, hstore⟩) i
    have hzero : (stateAt localPlayerAddr now inputs 0).lastHover = now := rfl
    rw [hzero] at hcount
    linarith
  · induction i with
    | zero => simp [stateAt, LoopState.init]
    | succ i ih =>
      rw [stateAt, (htimes i).2.2, hovers_eq, List.range_succ, List.countP_append, List.countP_singleton]
      by_cases ht : Toggles (stateAt localPlayerAddr now inputs i) (inputs i)
      · simp only [ht, decide_true, Bool.xor_true, Bool.not_eq_true', if_true, Nat.odd_add_one, ← ih, Bool.not_eq_true]
      · simp only [ht, decide_false, Bool.xor_false, Bool.false_eq_true, if_false, Nat.add_zero, ih]

end Clock

/-- Both kinds of keys held, and an iteration every 30 milliseconds. -/
def heldKeys (i : Nat) : Input :=
  ⟨⟨fun _ => some 0⟩, fun key => key = .pageUp ∨ key = .leftCtrl, 30 * i, 30 * i + 1, fun _ => 30 * i, fun _ => 30 * i + 1⟩

/-- In 300 milliseconds two steps up, and hover is switched once. -/
theorem keys_paced_heldKeys :
    ((List.range 10).countP fun j => Fires (stateAt 0x1000 0 heldKeys j) (heldKeys j) .lastUp) ≤ 2 ∧
      ((List.range 10).countP fun j => Toggles (stateAt 0x1000 0 heldKeys j) (heldKeys j)) ≤ 1 := by
  have hforward : Forward 0 heldKeys fun i => 30 * i :=
    ⟨by simp, fun i => by push_cast; linarith, fun i _ => ⟨by simp [heldKeys], by simp only [heldKeys]; push_cast; linarith⟩,
      fun i => ⟨by simp [heldKeys], by simp only [heldKeys]; push_cast; linarith⟩⟩
  obtain ⟨hnudge, htoggle, -⟩ := keys_paced 0x1000 0 heldKeys hforward .lastUp 10
  constructor <;> omega

end Jiaa.Game.MainLoop
