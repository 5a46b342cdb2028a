/-
  Jiaa.Iter.RefusedCuts — `page_chunks_by` under any split function
  (memflow `iter/page_chunks.rs`, `iter/mod.rs`).

  A split function is a closure that may change what it holds: here it takes its state
  and gives the next one. `logged` keeps the splits it is asked about. A refused cut is
  kept as the offset `cur_off` from the cursor and the way from the cursor to the page
  boundary is added to it again, which from a boundary is the next one and from inside a
  page is not.

  The rounds of the loop are those of `Jiaa.Iter.PageChunks`. An offset wraps only past a
  second refusal from inside a page.

  - `pageChunksByMut_pure`: with a closure that keeps nothing these are the chunks there;
  - `cutsOnPages_iff`: every cut is on a page boundary exactly when the buffer starts on
    one, or is too short for a second cut, or its first cut is not refused.
-/

import Jiaa.Iter.PageChunks

namespace Jiaa

namespace PageChunkIterator

variable {T σ : Type*} [SplitAtIndex T]

/-- The loop of `next`, with the closure's state. -/
def nextLoopMut (checkSplitFn : σ → Nat → T → Option T → Bool × σ) (curAddress : Nat) (pageSize : Nat) :
    Nat → σ → Nat → T → ((T × Option T) × Nat) × σ
  | 0, st, curOff, buf =>
    ((splitInclusiveAt buf (endLen curAddress pageSize curOff), endLen curAddress pageSize curOff), st)
  | rounds + 1, st, curOff, buf =>
    let endLen := endLen curAddress pageSize curOff
    let (head, tail) := splitInclusiveAt buf endLen
    if tail.isSome then
      let (split, st) := checkSplitFn st curAddress head tail
      if !split then nextLoopMut checkSplitFn curAddress pageSize rounds st (Address.add endLen 1) buf
      else (((head, tail), endLen), st)
    else (((head, tail), endLen), st)

/-- The chunks from the cursor `curAddress` on. -/
def collectMut (checkSplitFn : σ → Nat → T → Option T → Bool × σ) (pageSize : Nat) :
    Nat → σ → Nat → Option T → List (Nat × T) × σ
  | 0, st, _, _ => ([], st)
  | _ + 1, st, _, none => ([], st)
  | rounds + 1, st, curAddress, some buf =>
    let (((head, tail), endLen), st) :=
      nextLoopMut checkSplitFn curAddress pageSize (SplitAtIndex.length buf) st 0 buf
    let (chunks, st) :=
      collectMut checkSplitFn pageSize rounds st (Address.add curAddress (Address.add endLen 1)) tail
    ((curAddress, head) :: chunks, st)

end PageChunkIterator

open PageChunkIterator

section Defs

variable {T σ : Type*} [SplitAtIndex T]

/-- The chunks, and what the closure holds after the last of them. -/
def pageChunksByMut (buf : T) (startAddress : Nat) (pageSize : Nat)
    (splitFn : σ → Nat → T → Option T → Bool × σ) (st : σ) : List (Nat × T) × σ :=
  collectMut splitFn pageSize (SplitAtIndex.length buf + 1) st startAddress (some buf)

/-- The closure that also keeps what it is asked: an address, the part that would be
    split off, and the part after it. -/
def logged (splitFn : σ → Nat → T → Option T → Bool × σ) :
    σ × List (Nat × T × Option T) → Nat → T → Option T → Bool × (σ × List (Nat × T × Option T)) :=
  fun st address head tail =>
    let (split, st') := splitFn st.1 address head tail
    (split, (st', st.2 ++ [(address, head, tail)]))

/-- The splits proposed to a split function. -/
def proposals (buf : T) (startAddress pageSize : Nat) (splitFn : σ → Nat → T → Option T → Bool × σ) (st : σ) :
    List (Nat × T × Option T) :=
  (pageChunksByMut buf startAddress pageSize (logged splitFn) (st, [])).2.2

end Defs

/-! ## A closure that keeps nothing, and one that keeps a log -/

section Closures

variable {T σ τ : Type*} [SplitAtIndex T]

/-- A relation of two closures' states that one call keeps, and that makes them answer
    alike, is kept by the loop. -/
theorem nextLoopMut_related (R : σ → τ → Prop) (f : σ → Nat → T → Option T → Bool × σ)
    (g : τ → Nat → T → Option T → Bool × τ)
    (hR : ∀ st st' a h t, R st st' → (f st a h t).1 = (g st' a h t).1 ∧ R (f st a h t).2 (g st' a h t).2)
    (a s : Nat) (b : T) : ∀ rounds st st' off, R st st' →
      (nextLoopMut f a s rounds st off b).1 = (nextLoopMut g a s rounds st' off b).1 ∧
        R (nextLoopMut f a s rounds st off b).2 (nextLoopMut g a s rounds st' off b).2 := by
  intro rounds
  induction rounds with
  | zero => intro st st' off h; exact ⟨rfl, h⟩
  | succ rounds ih =>
    intro st st' off h
    obtain ⟨heq, hst⟩ := hR st st' a (splitInclusiveAt b (endLen a s off)).1 (splitInclusiveAt b (endLen a s off)).2 h
    simp only [nextLoopMut, heq]
    by_cases ht : (splitInclusiveAt b (endLen a s off)).2.isSome = true
    · rw [if_pos ht, if_pos ht]
      by_cases hc : (!(g st' a (splitInclusiveAt b (endLen a s off)).1 (splitInclusiveAt b (endLen a s off)).2).1) = true
      · rw [if_pos hc, if_pos hc]
        exact ih _ _ _ hst
      · rw [if_neg hc, if_neg hc]
        exact ⟨rfl, hst⟩
    · rw [if_neg ht, if_neg ht]
      exact ⟨rfl, h⟩

theorem collectMut_related (R : σ → τ → Prop) (f : σ → Nat → T → Option T → Bool × σ)
    (g : τ → Nat → T → Option T → Bool × τ)
    (hR : ∀ st st' a h t, R st st' → (f st a h t).1 = (g st' a h t).1 ∧ R (f st a h t).2 (g st' a h t).2)
    (s : Nat) : ∀ rounds st st' a v, R st st' →
      (collectMut f s rounds st a v).1 = (collectMut g s rounds st' a v).1 ∧
        R (collectMut f s rounds st a v).2 (collectMut g s rounds st' a v).2 := by
  intro rounds
  induction rounds with
  | zero => intro st st' a v h; exact ⟨rfl, h⟩
  | succ rounds ih =>
    intro st st' a v h
    cases v with
    | none => exact ⟨rfl, h⟩
    | some b =>
      obtain ⟨heq, hst⟩ := nextLoopMut_related R f g hR a s b (SplitAtIndex.length b) st st' 0 h
      simp only [collectMut, heq]
      obtain ⟨h1, h2⟩ := ih _ _ (Address.add a (Address.add (nextLoopMut g a s (SplitAtIndex.length b) st' 0 b).1.2 1))
        (nextLoopMut g a s (SplitAtIndex.length b) st' 0 b).1.1.2 hst
      exact ⟨by rw [h1], h2⟩

/-- A closure that answers by what it is asked only. -/
theorem pageChunksByMut_pure (b : T) (a s : Nat) (splitFn : Nat → T → Option T → Bool) (st : σ) :
    (pageChunksByMut b a s (fun st a h t => (splitFn a h t, st)) st).1 = pageChunksBy b a s splitFn := by
  have hloop : ∀ (a : Nat) (b : T) (rounds : Nat) (st : σ) (off : Nat),
      (nextLoopMut (fun st a h t => (splitFn a h t, st)) a s rounds st off b).1 = nextLoop splitFn a s rounds off b := by
    intro a b rounds
    induction rounds with
    | zero => intro st off; rfl
    | succ rounds ih =>
      intro st off
      simp only [nextLoopMut, nextLoop, Bool.and_eq_true]
      by_cases ht : (splitInclusiveAt b (endLen a s off)).2.isSome = true
      · by_cases hc : (!splitFn a (splitInclusiveAt b (endLen a s off)).1 (splitInclusiveAt b (endLen a s off)).2) = true
        · rw [if_pos ht, if_pos hc, if_pos ⟨ht, hc⟩]
          exact ih st _
        · rw [if_pos ht, if_neg hc, if_neg fun h => hc h.2]
      · rw [if_neg ht, if_neg fun h => ht h.1]
  have hcollect : ∀ (n : Nat) (st : σ) (a : Nat) (v : Option T),
      (collectMut (fun st a h t => (splitFn a h t, st)) s n st a v).1 = collect n ⟨v, a, s, splitFn, 0⟩ := by
    intro n
    induction n with
    | zero => intro st a v; rfl
    | succ n ih =>
      intro st a v
      cases v with
      | none => exact (collect_none _ rfl).symm
      | some b => simp only [collectMut, collect, next, Option.map_some, hloop, ih]
  exact hcollect _ st a (some b)

/-- Keeping a log changes no chunk. -/
theorem pageChunksByMut_logged (b : T) (a s : Nat) (splitFn : σ → Nat → T → Option T → Bool × σ) (st : σ) :
    (pageChunksByMut b a s (logged splitFn) (st, [])).1 = (pageChunksByMut b a s splitFn st).1 :=
  (collectMut_related (fun l st => l.1 = st) (logged splitFn) splitFn
    (fun l st a h t e => by subst e; exact ⟨rfl, rfl⟩) s _ (st, []) st a (some b) rfl).1

/-- The log only grows. -/
theorem nextLoopMut_log (splitFn : σ → Nat → T → Option T → Bool × σ) (a s rounds off : Nat) (b : T)
    {p : Nat × T × Option T} {l : σ × List (Nat × T × Option T)} (h : p ∈ l.2) :
    p ∈ (nextLoopMut (logged splitFn) a s rounds l off b).2.2 :=
  ((nextLoopMut_related (fun l l' => l = l' ∧ p ∈ l.2) (logged splitFn) (logged splitFn)
    (fun l l' a h t e => by
      obtain ⟨rfl, e⟩ := e
      exact ⟨rfl, rfl, List.mem_append_left _ e⟩) a s b rounds l l off ⟨rfl, h⟩).2).2

theorem collectMut_log (splitFn : σ → Nat → T → Option T → Bool × σ) (s n a : Nat) (v : Option T)
    {p : Nat × T × Option T} {l : σ × List (Nat × T × Option T)} (h : p ∈ l.2) :
    p ∈ (collectMut (logged splitFn) s n l a v).2.2 :=
  ((collectMut_related (fun l l' => l = l' ∧ p ∈ l.2) (logged splitFn) (logged splitFn)
    (fun l l' a h t e => by
      obtain ⟨rfl, e⟩ := e
      exact ⟨rfl, rfl, List.mem_append_left _ e⟩) s n l l a v ⟨rfl, h⟩).2).2

end Closures

/-! ## Cuts from a page boundary on -/

section Lawful

/-- A refused offset is added to the way to the boundary. -/
theorem endLen_add (a s off : Nat) : endLen a s off = Address.add (endLen a s 0) off := by
  have h : ∀ x, Address.add x off = Address.add (Address.add x 0) off := by
    intro x
    unfold Address.add
    rw [Nat.add_zero, Nat.mod_add_mod]
  exact h _

/-- From a boundary, past whole pages: the end of the next one. -/
theorem endLen_aligned {a s off : Nat} (ha : a < 2 ^ 64) (hs : 0 < s) (hs' : s < 2 ^ 64) (hd : s ∣ 2 ^ 64) (hsa : s ∣ a)
    (hoff : s ∣ off) (hlt : off < 2 ^ 64) : endLen a s off = s - 1 + off := by
  have hle : off + s ≤ 2 ^ 64 := by
    obtain ⟨k, rfl⟩ := hoff
    obtain ⟨n, hn⟩ := hd
    rw [hn] at hlt ⊢
    have := Nat.lt_of_mul_lt_mul_left hlt
    calc s * k + s = s * (k + 1) := by rw [Nat.mul_add, Nat.mul_one]
      _ ≤ s * n := Nat.mul_le_mul_left _ this
  rw [endLen_add, endLen_zero ha hs hs' hd, Nat.mod_eq_zero_of_dvd hsa, Address.add_eq (by omega)]
  omega

variable {T σ β : Type*} [SplitAtIndex T]

/-- What the closure is asked, the property `I` of what it holds being kept where that is
    a split at a boundary. -/
def KeptOnPages (s : Nat) (I : σ → Prop) (splitFn : σ → Nat → T → Option T → Bool × σ) : Prop :=
  ∀ st a h t, I st → s ∣ a + SplitAtIndex.length h → I (splitFn st a h t).2

/-- From a boundary, every cut proposed is on one, however many are refused. -/
theorem nextLoopMut_aligned [LawfulSplitAtIndex T β] {s a : Nat} (ha : a < 2 ^ 64) (hs : 0 < s) (hs' : s < 2 ^ 64) (hd : s ∣ 2 ^ 64)
    (hsa : s ∣ a) {I : σ → Prop} {splitFn : σ → Nat → T → Option T → Bool × σ} (hI : KeptOnPages s I splitFn) (b : T)
    (hb : SplitAtIndex.length b ≤ 2 ^ 64) : ∀ rounds st off, I st → s ∣ off → off < 2 ^ 64 →
      ∃ e, (nextLoopMut splitFn a s rounds st off b).1 = (splitInclusiveAt b e, e) ∧ e < 2 ^ 64 ∧ s ∣ a + e + 1 ∧
        I (nextLoopMut splitFn a s rounds st off b).2 := by
  have hend : ∀ off, s ∣ off → s ∣ a + (s - 1 + off) + 1 := by
    intro off ho
    rw [show a + (s - 1 + off) + 1 = a + s + off by omega]
    exact Nat.dvd_add (Nat.dvd_add hsa (Nat.dvd_refl s)) ho
  intro rounds
  induction rounds with
  | zero =>
    intro st off hst ho hlt
    have he := endLen_aligned ha hs hs' hd hsa ho hlt
    exact ⟨endLen a s off, rfl, endLen_lt, by rw [he]; exact hend off ho, hst⟩
  | succ rounds ih =>
    intro st off hst ho hlt
    have he := endLen_aligned ha hs hs' hd hsa ho hlt
    have hcut := LawfulSplitAtIndex.cutInclusiveAt b (endLen a s off)
    have hdvd : s ∣ a + endLen a s off + 1 := by rw [he]; exact hend off ho
    simp only [nextLoopMut]
    by_cases ht : (splitInclusiveAt b (endLen a s off)).2.isSome = true
    · rw [if_pos ht]
      obtain ⟨r, hr⟩ := Option.isSome_iff_exists.mp ht
      obtain ⟨hin, -⟩ := length_cut_right hcut hr
      -- the split proposed is the first `end_len + 1` items
      have hlen : SplitAtIndex.length (splitInclusiveAt b (endLen a s off)).1 = endLen a s off + 1 := by
        rw [length_cut_left hcut, Nat.min_eq_left (by omega)]
      have hst' := hI st a (splitInclusiveAt b (endLen a s off)).1 (splitInclusiveAt b (endLen a s off)).2 hst
        (by rw [hlen, ← Nat.add_assoc]; exact hdvd)
      by_cases hc : (!(splitFn st a (splitInclusiveAt b (endLen a s off)).1 (splitInclusiveAt b (endLen a s off)).2).1) = true
      · rw [if_pos hc, Address.add_eq (by omega)]
        refine ih _ _ hst' ?_ (by omega)
        rw [he, show s - 1 + off + 1 = s + off by omega]
        exact Nat.dvd_add (Nat.dvd_refl s) ho
      · rw [if_neg hc]
        exact ⟨endLen a s off, rfl, endLen_lt, hdvd, hst'⟩
    · rw [if_neg ht]
      exact ⟨endLen a s off, rfl, endLen_lt, hdvd, hst⟩

/-- The chunks from the cut at `e`, the loop's answer, on. -/
theorem collectMut_cut [LawfulSplitAtIndex T β] {s a e : Nat} (ha : a < 2 ^ 64) {I : σ → Prop}
    {splitFn : σ → Nat → T → Option T → Bool × σ} (n : Nat) (st : σ) {b : T}
    (hloop : (nextLoopMut splitFn a s (SplitAtIndex.length b) st 0 b).1 = (splitInclusiveAt b e, e))
    (hst : I (nextLoopMut splitFn a s (SplitAtIndex.length b) st 0 b).2)
    (hend : (splitInclusiveAt b e).2 ≠ none → s ∣ a + e + 1)
    (ih : ∀ r st, (splitInclusiveAt b e).2 = some r → I st →
      CutsOnPages r ((a + e + 1) % 2 ^ 64) s (collectMut splitFn s n st ((a + e + 1) % 2 ^ 64) (some r)).1 ∧
        I (collectMut splitFn s n st ((a + e + 1) % 2 ^ 64) (some r)).2) :
    CutsOnPages b a s (collectMut splitFn s (n + 1) st a (some b)).1 ∧
      I (collectMut splitFn s (n + 1) st a (some b)).2 := by
  have hcut := LawfulSplitAtIndex.cutInclusiveAt b e
  have hcat := bytes_cut hcut
  have hnext : Address.add a (Address.add e 1) = (a + e + 1) % 2 ^ 64 := by
    unfold Address.add
    rw [Nat.add_mod_mod, ← Nat.add_assoc]
  simp only [collectMut, hloop, hnext]
  generalize splitInclusiveAt b e = cut at *
  obtain ⟨head, tail⟩ := cut
  cases tail with
  | none =>
    have hnone : ∀ n st a, collectMut splitFn s n st a none = ([], st) := by
      intro n st a
      cases n <;> rfl
    rw [hnone]
    exact ⟨CutsOnPages.single ha (by simpa using hcat), hst⟩
  | some r =>
    obtain ⟨hin, hr⟩ := length_cut_right hcut rfl
    have hl : SplitAtIndex.length head = e + 1 := by
      rw [length_cut_left hcut, Nat.min_eq_left (by omega)]
    obtain ⟨h1, h2⟩ := ih r _ rfl hst
    refine ⟨CutsOnPages.cons ha hcat ?_ (by omega) ?_, h2⟩
    · rw [hl]
      exact hend (by simp)
    · rw [hl]
      exact h1

theorem collectMut_aligned [LawfulSplitAtIndex T β] {s : Nat} (hs : 0 < s) (hs' : s < 2 ^ 64) (hd : s ∣ 2 ^ 64)
    {I : σ → Prop} {splitFn : σ → Nat → T → Option T → Bool × σ} (hI : KeptOnPages s I splitFn) :
    ∀ (n : Nat) (st : σ) (a : Nat) (b : T), a < 2 ^ 64 → s ∣ a → SplitAtIndex.length b ≤ 2 ^ 64 →
      SplitAtIndex.length b < n → I st →
      CutsOnPages b a s (collectMut splitFn s n st a (some b)).1 ∧ I (collectMut splitFn s n st a (some b)).2 := by
  intro n
  induction n with
  | zero => intro st a b _ _ _ hn; omega
  | succ n ih =>
    intro st a b ha hsa hb hn hst
    obtain ⟨e, he, -, hend, hst'⟩ :=
      nextLoopMut_aligned ha hs hs' hd hsa hI b hb (SplitAtIndex.length b) st 0 hst (Nat.dvd_zero s) (by omega)
    refine collectMut_cut ha n st he hst' (fun _ => hend) fun r st hr hst => ?_
    obtain ⟨hin, hl⟩ := length_cut_right (LawfulSplitAtIndex.cutInclusiveAt b e) hr
    exact ih st _ r (Nat.mod_lt _ (by omega)) ((Nat.dvd_mod_iff hd).mpr hend) (by omega) (by omega) hst

/-- Splits proposed at page boundaries. -/
def AskedOnPages (s : Nat) (asked : List (Nat × T × Option T)) : Prop :=
  ∀ p ∈ asked, s ∣ p.1 + SplitAtIndex.length p.2.1

/-! ## The first cut -/

/-- The first cut proposed, at the end of the page `a` is in. -/
def firstCut (b : T) (a s : Nat) : T × Option T := splitInclusiveAt b (s - 1 - a % s)

/-- The buffer starts on a page boundary, or is too short to be cut again after a refusal,
    or its first cut is not refused. -/
def StartsWell (b : T) (a s : Nat) (splitFn : σ → Nat → T → Option T → Bool × σ) (st : σ) : Prop :=
  s ∣ a ∨ SplitAtIndex.length b ≤ 2 * (s - a % s) ∨
    (splitFn st a (firstCut b a s).1 (firstCut b a s).2).1 = true

/-- After a refusal inside a page the way to its end is there twice. -/
theorem endLen_refused {a s : Nat} (ha : a < 2 ^ 64) (hs : 0 < s) (hs' : s ≤ 2 ^ 63) (hd : s ∣ 2 ^ 64) (hsa : ¬ s ∣ a) :
    endLen a s (Address.add (s - 1 - a % s) 1) = 2 * (s - a % s) - 1 := by
  have hr : a % s < s := Nat.mod_lt _ hs
  have h0 : a % s ≠ 0 := fun h => hsa (Nat.dvd_of_mod_eq_zero h)
  have h1 : Address.add (s - 1 - a % s) 1 = s - a % s := by
    rw [Address.add_eq (by omega)]
    omega
  rw [endLen_add, endLen_zero ha hs (by omega) hd, h1, Address.add_eq (by omega)]
  omega

omit [SplitAtIndex T] in
theorem nextLoopMut_none [SplitAtIndex T] {s a off : Nat} (splitFn : σ → Nat → T → Option T → Bool × σ) (rounds : Nat)
    (st : σ) {b : T} (h : (splitInclusiveAt b (endLen a s off)).2 = none) :
    nextLoopMut splitFn a s rounds st off b = ((splitInclusiveAt b (endLen a s off), endLen a s off), st) := by
  cases rounds with
  | zero => rfl
  | succ rounds =>
    simp only [nextLoopMut, h, Option.isSome_none, Bool.false_eq_true, if_false]
    rw [← h]

omit [SplitAtIndex T] in
/-- A cut inside the buffer is asked about. -/
theorem nextLoopMut_some [SplitAtIndex T] {s a off e : Nat} (splitFn : σ → Nat → T → Option T → Bool × σ) (rounds : Nat)
    (st : σ) {b : T} {cut : T × Option T} (he : endLen a s off = e) (hcut : splitInclusiveAt b e = cut)
    (h : cut.2.isSome = true) :
    nextLoopMut splitFn a s (rounds + 1) st off b =
      if (splitFn st a cut.1 cut.2).1 = true then ((cut, e), (splitFn st a cut.1 cut.2).2)
      else nextLoopMut splitFn a s rounds (splitFn st a cut.1 cut.2).2 (Address.add e 1) b := by
  simp only [nextLoopMut, he, hcut, h, if_true]
  by_cases hc : (splitFn st a cut.1 cut.2).1 = true
  · rw [if_pos hc, if_neg (by simp [hc])]
  · rw [if_neg hc, if_pos (by simp [hc])]

/-- Started well, the first loop ends on a boundary or takes the whole buffer. -/
theorem nextLoopMut_first [LawfulSplitAtIndex T β] {s a : Nat} (ha : a < 2 ^ 64) (hs : 0 < s) (hs' : s ≤ 2 ^ 63)
    (hd : s ∣ 2 ^ 64) {I : σ → Prop} {splitFn : σ → Nat → T → Option T → Bool × σ} (hI : KeptOnPages s I splitFn)
    (st : σ) (b : T) (hb : SplitAtIndex.length b ≤ 2 ^ 64) (hst : I st) (h : StartsWell b a s splitFn st) :
    ∃ e, (nextLoopMut splitFn a s (SplitAtIndex.length b) st 0 b).1 = (splitInclusiveAt b e, e) ∧
      ((splitInclusiveAt b e).2 ≠ none → s ∣ a + e + 1) ∧
      I (nextLoopMut splitFn a s (SplitAtIndex.length b) st 0 b).2 := by
  by_cases hsa : s ∣ a
  · obtain ⟨e, he, -, hend, hst'⟩ :=
      nextLoopMut_aligned ha hs (by omega) hd hsa hI b hb (SplitAtIndex.length b) st 0 hst (Nat.dvd_zero s) (by omega)
    exact ⟨e, he, fun _ => hend, hst'⟩
  have hr : a % s < s := Nat.mod_lt _ hs
  have he : endLen a s 0 = s - 1 - a % s := endLen_zero ha hs (by omega) hd
  have hend : s ∣ a + (s - 1 - a % s) + 1 := by
    rw [show a + (s - 1 - a % s) + 1 = a + (s - a % s) by omega]
    exact dvd_pageEnd hs
  have hcut := LawfulSplitAtIndex.cutInclusiveAt b (s - 1 - a % s)
  cases hn : (firstCut b a s).2 with
  | none =>
    refine ⟨s - 1 - a % s, ?_, fun _ => hend, ?_⟩
    all_goals rw [nextLoopMut_none splitFn _ st (by rw [he]; exact hn)]
    · rw [he]
    · exact hst
  | some r =>
    obtain ⟨hin, -⟩ := length_cut_right hcut hn
    have hlen : SplitAtIndex.length (firstCut b a s).1 = s - 1 - a % s + 1 := by
      rw [firstCut, length_cut_left hcut, Nat.min_eq_left (by omega)]
    have hst' := hI st a (firstCut b a s).1 (firstCut b a s).2 hst (by rw [hlen, ← Nat.add_assoc]; exact hend)
    obtain ⟨k, hk⟩ : ∃ k, SplitAtIndex.length b = k + 1 := ⟨SplitAtIndex.length b - 1, by omega⟩
    rw [hk, nextLoopMut_some splitFn k st he rfl (by rw [← firstCut, hn]; rfl), ← firstCut]
    by_cases hc : (splitFn st a (firstCut b a s).1 (firstCut b a s).2).1 = true
    · rw [if_pos hc]
      exact ⟨s - 1 - a % s, rfl, fun _ => hend, hst'⟩
    · -- refused: the buffer is too short for the next cut
      have hshort : SplitAtIndex.length b ≤ 2 * (s - a % s) := (h.resolve_left hsa).resolve_right hc
      have he2 := endLen_refused ha hs hs' hd hsa
      have hnone : (splitInclusiveAt b (2 * (s - a % s) - 1)).2 = none :=
        (cut_right_none (LawfulSplitAtIndex.cutInclusiveAt b _)).mpr (by omega)
      rw [if_neg hc, nextLoopMut_none splitFn k _ (by rw [he2]; exact hnone), he2]
      exact ⟨2 * (s - a % s) - 1, rfl, fun h => absurd hnone h, hst'⟩

/-- Not started well, a split inside a page is proposed. -/
theorem proposals_inside [LawfulSplitAtIndex T β] {s a : Nat} (ha : a < 2 ^ 64) (hs : 0 < s) (hs' : s ≤ 2 ^ 63)
    (hd : s ∣ 2 ^ 64) {splitFn : σ → Nat → T → Option T → Bool × σ} {st : σ} {b : T}
    (h : ¬ StartsWell b a s splitFn st) :
    ∃ p ∈ proposals b a s splitFn st, ¬ s ∣ p.1 + SplitAtIndex.length p.2.1 := by
  unfold StartsWell at h
  push Not at h
  obtain ⟨hsa, hlong, hc⟩ := h
  have hr : a % s < s := Nat.mod_lt _ hs
  have hcut1 := LawfulSplitAtIndex.cutInclusiveAt b (s - 1 - a % s)
  have hcut2 := LawfulSplitAtIndex.cutInclusiveAt b (2 * (s - a % s) - 1)
  have h1 : (firstCut b a s).2.isSome = true := by
    rw [Option.isSome_iff_ne_none, Ne, firstCut, cut_right_none hcut1]
    omega
  have h2 : (splitInclusiveAt b (2 * (s - a % s) - 1)).2.isSome = true := by
    rw [Option.isSome_iff_ne_none, Ne, cut_right_none hcut2]
    omega
  have hlen : SplitAtIndex.length (splitInclusiveAt b (2 * (s - a % s) - 1)).1 = 2 * (s - a % s) := by
    rw [length_cut_left hcut2, Nat.min_eq_left (by omega)]
    omega
  refine ⟨(a, splitInclusiveAt b (2 * (s - a % s) - 1)), ?_, ?_⟩
  · obtain ⟨k, hk⟩ : ∃ k, SplitAtIndex.length b = k + 2 := ⟨SplitAtIndex.length b - 2, by omega⟩
    show _ ∈ (collectMut (logged splitFn) s (SplitAtIndex.length b + 1) (st, []) a (some b)).2.2
    simp only [collectMut]
    refine collectMut_log splitFn s _ _ _ ?_
    rw [hk, nextLoopMut_some (logged splitFn) (k + 1) (st, []) (endLen_zero ha hs (by omega) hd) rfl h1, ← firstCut,
      if_neg (by simpa [logged] using hc),
      nextLoopMut_some (logged splitFn) k _ (endLen_refused ha hs hs' hd hsa) rfl h2]
    split
    · exact List.mem_append_right _ (List.mem_singleton.mpr rfl)
    · exact nextLoopMut_log splitFn a s k _ b (List.mem_append_right _ (List.mem_singleton.mpr rfl))
  · -- twice the way to the boundary is past it by the way itself
    intro hdvd
    rw [hlen, show a + 2 * (s - a % s) = a + (s - a % s) + (s - a % s) by omega] at hdvd
    have h3 := (Nat.dvd_add_right (dvd_pageEnd hs)).mp hdvd
    have h0 : a % s ≠ 0 := fun h => hsa (Nat.dvd_of_mod_eq_zero h)
    exact absurd (Nat.le_of_dvd (by omega) h3) (by omega)

/-- Under any split function, the chunks make up the buffer and every cut, taken or
    proposed, is on a page boundary, exactly when the buffer starts well. -/
theorem cutsOnPages_iff [LawfulSplitAtIndex T β] (b : T) (a k : Nat) (ha : a < 2 ^ 64) (hk : k < 64)
    (hb : 0 < SplitAtIndex.length b ∧ SplitAtIndex.length b < 2 ^ 64)
    (splitFn : σ → Nat → T → Option T → Bool × σ) (st : σ) :
    (CutsOnPages b a (2 ^ k) (pageChunksByMut b a (2 ^ k) splitFn st).1 ∧
      AskedOnPages (2 ^ k) (proposals b a (2 ^ k) splitFn st)) ↔
      StartsWell b a (2 ^ k) splitFn st := by
  have hs : 0 < 2 ^ k := Nat.two_pow_pos k
  have hs' : 2 ^ k ≤ 2 ^ 63 := Nat.pow_le_pow_right (by omega) (by omega)
  have hd : 2 ^ k ∣ 2 ^ 64 := Nat.pow_dvd_pow 2 (by omega)
  constructor
  · rintro ⟨-, hp⟩
    by_contra h
    obtain ⟨p, hmem, hnot⟩ := proposals_inside ha hs hs' hd h
    exact hnot (hp p hmem)
  · intro h
    have hI : KeptOnPages (2 ^ k) (fun l => AskedOnPages (2 ^ k) l.2) (logged splitFn) := by
      intro l a h t hl hdvd p hp
      rcases List.mem_append.mp hp with hp | hp
      · exact hl p hp
      · rw [List.mem_singleton.mp hp]
        exact hdvd
    obtain ⟨e, he, hend, hst⟩ := nextLoopMut_first ha hs hs' hd hI (st, []) b (by omega)
      (fun p hp => by cases hp) h
    rw [← pageChunksByMut_logged]
    refine collectMut_cut (I := fun l => AskedOnPages (2 ^ k) l.2) ha _ (st, []) he hst hend fun r l hr hl => ?_
    obtain ⟨hin, hlen⟩ := length_cut_right (LawfulSplitAtIndex.cutInclusiveAt b e) hr
    exact collectMut_aligned hs (by omega) hd hI _ l _ r (Nat.mod_lt _ (by omega))
      ((Nat.dvd_mod_iff hd).mpr (hend (by rw [hr]; simp))) (by omega) (by omega) hl

/-- Twelve bytes at 8, the first cut refused. -/
theorem cutsOnPages_aligned :
    CutsOnPages (12 : Nat) 8 (2 ^ 2) (pageChunksByMut (12 : Nat) 8 (2 ^ 2) (fun (n : Nat) _ _ _ => (n != 0, n + 1)) 0).1 ∧
      AskedOnPages (2 ^ 2) (proposals (12 : Nat) 8 (2 ^ 2) (fun (n : Nat) _ _ _ => (n != 0, n + 1)) 0) :=
  (cutsOnPages_iff 12 8 2 (by decide) (by decide) ⟨by decide, by decide⟩ _ 0).mpr (Or.inl (by decide))

/-- The first cut of eight bytes at 3 is refused, in pages of four: the next one is
    proposed and made at 5. -/
theorem cutsOnPages_refused :
    pageChunksByMut (8 : Nat) 3 4 (fun (n : Nat) _ _ _ => (n != 0, n + 1)) 0 = ([(3, 2), (5, 3), (8, 3)], 3) ∧
      (proposals (8 : Nat) 3 4 (fun (n : Nat) _ _ _ => (n != 0, n + 1)) 0).map (fun p => p.1 + p.2.1) = [4, 5, 8] ∧
      ¬ (CutsOnPages (8 : Nat) 3 4 (pageChunksByMut (8 : Nat) 3 4 (fun (n : Nat) _ _ _ => (n != 0, n + 1)) 0).1 ∧
        AskedOnPages 4 (proposals (8 : Nat) 3 4 (fun (n : Nat) _ _ _ => (n != 0, n + 1)) 0)) := by
  refine ⟨by decide +kernel, by decide +kernel, fun h => ?_⟩
  unfold AskedOnPages at h
  exact absurd h.2 (by decide +kernel)

end Lawful

end Jiaa
