/-
  Jiaa.Iter.PageChunks — cutting a buffer at page boundaries
  (memflow `iter/page_chunks.rs`, `iter/mod.rs`).

  `nextLoop` is the loop of `PageChunkIterator::next`: it proposes a cut at `endLen`, and
  a refusal of the split function moves the cut on. `unsplit` of a buffer that cutting
  does not change is the buffer; the translation chunk, which does change, is only ever
  cut by `pageChunks`, which refuses nothing. A refused cut lies inside the buffer and
  the next one lies past it, so the length of the buffer bounds both loops.

  For lawful buffers:
  - `pageChunksBy_flat`: the chunks' layouts concatenate to the buffer's, whatever the
    split function answers;
  - `pageChunksBy_inPage`: a chunk at whose address the split function refuses nothing
    ends inside its page;
  - `pageChunks_partition`: cut at every page, the chunks partition the buffer and their
    inner ends are page boundaries.
-/

import Jiaa.Iter.SplitAtIndex

namespace Jiaa

structure PageChunkIterator (T : Type*) where
  v : Option T
  curAddress : Nat
  pageSize : Nat
  checkSplitFn : Nat → T → Option T → Bool
  curOff : Nat

namespace PageChunkIterator

variable {T : Type*} [SplitAtIndex T]

def endLen (curAddress : Nat) (pageSize curOff : Nat) : Nat :=
  Address.add
    (Address.sub
      (Address.sub (Address.asPageAligned (Address.add curAddress pageSize) pageSize) curAddress) 1)
    curOff

def nextLoop (checkSplitFn : Nat → T → Option T → Bool) (curAddress : Nat) (pageSize : Nat) :
    Nat → Nat → T → (T × Option T) × Nat
  | 0, curOff, buf => (splitInclusiveAt buf (endLen curAddress pageSize curOff), endLen curAddress pageSize curOff)
  | rounds + 1, curOff, buf =>
    let endLen := endLen curAddress pageSize curOff
    let (head, tail) := splitInclusiveAt buf endLen
    if tail.isSome && !checkSplitFn curAddress head tail then
      nextLoop checkSplitFn curAddress pageSize rounds (Address.add endLen 1) buf
    else ((head, tail), endLen)

def next (it : PageChunkIterator T) : Option ((Nat × T) × PageChunkIterator T) :=
  it.v.map fun buf =>
    let ((head, tail), endLen) :=
      nextLoop it.checkSplitFn it.curAddress it.pageSize (SplitAtIndex.length buf) it.curOff buf
    ((it.curAddress, head),
      { it with v := tail, curAddress := Address.add it.curAddress (Address.add endLen 1), curOff := 0 })

def collect : Nat → PageChunkIterator T → List (Nat × T)
  | 0, _ => []
  | rounds + 1, it =>
    match it.next with
    | none => []
    | some (chunk, it) => chunk :: collect rounds it

end PageChunkIterator

open PageChunkIterator

section Defs

variable {T : Type*} [SplitAtIndex T]

def pageChunksBy (buf : T) (startAddress : Nat) (pageSize : Nat)
    (splitFn : Nat → T → Option T → Bool) : List (Nat × T) :=
  collect (SplitAtIndex.length buf + 1) ⟨some buf, startAddress, pageSize, splitFn, 0⟩

def pageChunks (buf : T) (startAddress : Nat) (pageSize : Nat) : List (Nat × T) :=
  pageChunksBy buf startAddress pageSize fun _ _ _ => true

end Defs

/-! ## The proposed cut -/

/-- From `a` to the end of its page. -/
theorem endLen_zero {a s : Nat} (ha : a < 2 ^ 64) (hs : 0 < s) (hs' : s < 2 ^ 64) (hd : s ∣ 2 ^ 64) :
    endLen a s 0 = s - 1 - a % s := by
  have hmod : (a + s) % 2 ^ 64 % s = a % s := by rw [Nat.mod_mod_of_dvd _ hd, Nat.add_mod_right]
  have hr : a % s < s := Nat.mod_lt _ hs
  have hle : (a + s) % 2 ^ 64 % s ≤ (a + s) % 2 ^ 64 := Nat.mod_le _ _
  simp only [endLen, Address.add, Address.sub, Address.asPageAligned, hmod] at hle ⊢
  omega

/-- Past `a`, the pages start where they start past the end of its page. -/
theorem endLen_lt {a s off : Nat} : endLen a s off < 2 ^ 64 := Address.add_lt _ _

/-! ## Lawful buffers -/

section Lawful

variable {T β : Type*} [SplitAtIndex T]

theorem nextLoop_cut (check : Nat → T → Option T → Bool) (a : Nat) (s : Nat) :
    ∀ rounds off (b : T), ∃ e, (nextLoop check a s rounds off b) = (splitInclusiveAt b e, e) ∧ e < 2 ^ 64 := by
  intro rounds
  induction rounds with
  | zero => intro off b; exact ⟨_, rfl, endLen_lt⟩
  | succ rounds ih =>
    intro off b
    simp only [nextLoop]
    split
    · exact ih _ b
    · exact ⟨_, rfl, endLen_lt⟩

/-- Where nothing is refused the first cut proposed is taken. -/
theorem nextLoop_of_check (check : Nat → T → Option T → Bool) (a : Nat) (s : Nat)
    (hc : ∀ h t, check a h t = true) (rounds off : Nat) (b : T) :
    nextLoop check a s rounds off b = (splitInclusiveAt b (endLen a s off), endLen a s off) := by
  cases rounds with
  | zero => rfl
  | succ rounds => simp [nextLoop, hc]

theorem next_of_check (check : Nat → T → Option T → Bool) (a s : Nat) (hc : ∀ h t, check a h t = true) (b : T) :
    next ⟨some b, a, s, check, 0⟩ =
      some ((a, (splitInclusiveAt b (endLen a s 0)).1),
        ⟨(splitInclusiveAt b (endLen a s 0)).2, Address.add a (Address.add (endLen a s 0) 1), s, check, 0⟩) := by
  simp only [next, Option.map_some, nextLoop_of_check check a s hc]

theorem collect_none (n : Nat) {it : PageChunkIterator T} (h : it.v = none) : collect n it = [] := by
  cases n with
  | zero => rfl
  | succ n => simp only [collect, next, h, Option.map_none]

theorem collect_cons (n : Nat) {it it' : PageChunkIterator T} {x : Nat × T} (h : it.next = some (x, it')) :
    collect (n + 1) it = x :: collect n it' := by
  simp only [collect, h]

variable [LawfulSplitAtIndex T β]

/-- One chunk: a cut of the buffer at some `n`, the rest starting at the end of the cut. -/
theorem next_spec {it : PageChunkIterator T} {b : T} (hv : it.v = some b) :
    ∃ n head tail, 0 < n ∧ IsCut bytes (bytes b) n (head, tail) ∧
      it.next = some ((it.curAddress, head),
        { it with v := tail, curAddress := (it.curAddress + n) % 2 ^ 64, curOff := 0 }) ∧
      ((∀ h t, it.checkSplitFn it.curAddress h t = true) → n = endLen it.curAddress it.pageSize it.curOff + 1) := by
  obtain ⟨e, he, hlt⟩ := nextLoop_cut it.checkSplitFn it.curAddress it.pageSize (SplitAtIndex.length b) it.curOff b
  refine ⟨e + 1, (splitInclusiveAt b e).1, (splitInclusiveAt b e).2, by omega,
    LawfulSplitAtIndex.cutInclusiveAt b e, ?_, ?_⟩
  · simp only [next, hv, Option.map_some, he, Address.add, Nat.add_mod_mod]
  · intro hc
    rw [nextLoop_of_check _ _ _ hc] at he
    have := congrArg Prod.snd he
    simp only at this
    omega

theorem collect_flat : ∀ (n : Nat) (it : PageChunkIterator T) (b : T), it.v = some b →
    SplitAtIndex.length b < n →
    (collect n it).flatMap (fun x => at64 x.1 (bytes x.2)) = at64 it.curAddress (bytes b) := by
  intro n
  induction n with
  | zero => intro it b _ h; omega
  | succ n ih =>
    intro it b hv hn
    obtain ⟨m, head, tail, hm, hcut, hnext, -⟩ := next_spec hv
    rw [collect_cons n hnext, List.flatMap_cons]
    rw [bytes_cut hcut, at64_append]
    congr 1
    cases tail with
    | none => rw [collect_none n rfl]; rfl
    | some r =>
      obtain ⟨hlt, hlen⟩ := length_cut_right hcut rfl
      have hl := length_cut_left hcut
      rw [ih _ r rfl (by omega), at64_mod, ← LawfulSplitAtIndex.length_eq, hl, Nat.min_eq_left (by omega)]
      rfl

theorem pageChunksBy_flat (b : T) (a : Nat) (s : Nat) (check : Nat → T → Option T → Bool) :
    (pageChunksBy b a s check).flatMap (fun x => at64 x.1 (bytes x.2)) = at64 a (bytes b) :=
  collect_flat _ ⟨some b, a, s, check, 0⟩ b rfl (by omega)

omit [LawfulSplitAtIndex T β] in
theorem collect_inPage [LawfulSplitAtIndex T β] {s : Nat} (hs : 0 < s) (hs' : s < 2 ^ 64) (hd : s ∣ 2 ^ 64) :
    ∀ (n : Nat) (it : PageChunkIterator T), it.pageSize = s → it.curOff = 0 → it.curAddress < 2 ^ 64 →
    ∀ x ∈ collect n it, x.1 < 2 ^ 64 ∧ ((∀ h t, it.checkSplitFn x.1 h t = true) →
      x.1 % s + SplitAtIndex.length x.2 ≤ s) := by
  intro n
  induction n with
  | zero => intro it _ _ _ x hx; cases hx
  | succ n ih =>
    intro it hps hoff hlt x hx
    cases hv : it.v with
    | none => simp [collect, next, hv] at hx
    | some b =>
      obtain ⟨m, head, tail, hm, hcut, hnext, hend⟩ := next_spec hv
      rw [collect_cons n hnext, List.mem_cons] at hx
      rcases hx with rfl | hx
      · refine ⟨hlt, fun hc => ?_⟩
        have hm' := hend hc
        rw [hps, hoff, endLen_zero hlt hs hs' hd] at hm'
        have hl : SplitAtIndex.length head ≤ m := (length_cut_left hcut).trans_le (Nat.min_le_left _ _)
        have hr : it.curAddress % s < s := Nat.mod_lt _ hs
        show it.curAddress % s + SplitAtIndex.length head ≤ s
        omega
      · exact ih ⟨tail, (it.curAddress + m) % 2 ^ 64, it.pageSize, it.checkSplitFn, 0⟩ hps rfl
          (Nat.mod_lt _ (by omega)) x hx

omit [LawfulSplitAtIndex T β] in
theorem pageChunksBy_inPage [LawfulSplitAtIndex T β] {s : Nat} (hs : 0 < s) (hs' : s < 2 ^ 64) (hd : s ∣ 2 ^ 64) {a : Nat}
    (ha : a < 2 ^ 64) (b : T) (check : Nat → T → Option T → Bool) :
    ∀ x ∈ pageChunksBy b a s check, x.1 < 2 ^ 64 ∧
      ((∀ h t, check x.1 h t = true) → x.1 % s + SplitAtIndex.length x.2 ≤ s) :=
  collect_inPage hs hs' hd _ ⟨some b, a, s, check, 0⟩ rfl rfl ha

/-! ## A partition at page boundaries -/

/-- Chunks at consecutive addresses, from `a` on. -/
def Consecutive : Nat → List (Nat × T) → Prop
  | _, [] => True
  | a, c :: cs => c.1 = a % 2 ^ 64 ∧ Consecutive (a + SplitAtIndex.length c.2) cs

omit [LawfulSplitAtIndex T β] in
theorem consecutive_mod (a : Nat) (cs : List (Nat × T)) : Consecutive (a % 2 ^ 64) cs ↔ Consecutive a cs := by
  induction cs generalizing a with
  | nil => exact Iff.rfl
  | cons c cs ih =>
    simp only [Consecutive, Nat.mod_mod]
    rw [← ih (a % 2 ^ 64 + _), Nat.mod_add_mod, ih]

/-- The chunks of a buffer at `a`, cut only at page boundaries. -/
structure CutsOnPages (b : T) (a s : Nat) (cs : List (Nat × T)) : Prop where
  concat : cs.flatMap (fun c => bytes c.2) = bytes b
  consecutive : Consecutive a cs
  ends : ∀ c ∈ cs.dropLast, s ∣ c.1 + SplitAtIndex.length c.2

/-- The chunks of a buffer at `a` that are its pages. -/
structure PagePartition (b : T) (a s : Nat) (cs : List (Nat × T)) : Prop extends CutsOnPages b a s cs where
  nonempty : ∀ c ∈ cs, 0 < SplitAtIndex.length c.2
  inPage : ∀ c ∈ cs, c.1 % s + SplitAtIndex.length c.2 ≤ s
  starts : ∀ c ∈ cs.tail, s ∣ c.1

theorem CutsOnPages.ne_nil {b : T} {a s : Nat} {cs : List (Nat × T)} (h : CutsOnPages b a s cs)
    (hb : 0 < SplitAtIndex.length b) : cs ≠ [] := by
  rintro rfl
  have := h.concat
  rw [LawfulSplitAtIndex.length_eq, ← this] at hb
  simp at hb

theorem CutsOnPages.single {b head : T} {a s : Nat} (ha : a < 2 ^ 64) (hcat : bytes b = bytes head) :
    CutsOnPages b a s [(a, head)] :=
  ⟨by simp [hcat], ⟨(Nat.mod_eq_of_lt ha).symm, trivial⟩, by simp⟩

/-- A cut at a page boundary, and the cuts of what is past it. -/
theorem CutsOnPages.cons {b head tail : T} {a s : Nat} {cs : List (Nat × T)} (ha : a < 2 ^ 64)
    (hcat : bytes b = bytes head ++ bytes tail) (hend : s ∣ a + SplitAtIndex.length head)
    (htail : 0 < SplitAtIndex.length tail) (h : CutsOnPages tail ((a + SplitAtIndex.length head) % 2 ^ 64) s cs) :
    CutsOnPages b a s ((a, head) :: cs) := by
  refine ⟨by rw [List.flatMap_cons, h.concat, hcat], ⟨(Nat.mod_eq_of_lt ha).symm, ?_⟩, ?_⟩
  · rw [← consecutive_mod]
    exact h.consecutive
  · rw [List.dropLast_cons_of_ne_nil (h.ne_nil htail)]
    intro c hc
    rcases List.mem_cons.mp hc with rfl | hc
    · exact hend
    · exact h.ends c hc

/-- From a page boundary on, every chunk starts on one. -/
theorem PagePartition.starts_all {b : T} {a s : Nat} {cs : List (Nat × T)} (h : PagePartition b a s cs)
    (ha : s ∣ a % 2 ^ 64) : ∀ c ∈ cs, s ∣ c.1 := by
  intro c hc
  cases cs with
  | nil => cases hc
  | cons d cs =>
    rcases List.mem_cons.mp hc with rfl | hc
    · rw [h.consecutive.1]
      exact ha
    · exact h.starts c hc

/-- What the end of the page `a` is in is a multiple of. -/
theorem dvd_pageEnd {a s : Nat} (hs : 0 < s) : s ∣ a + (s - a % s) := by
  refine ⟨a / s + 1, ?_⟩
  have h1 := Nat.div_add_mod a s
  have h2 : a % s < s := Nat.mod_lt _ hs
  rw [Nat.mul_add, Nat.mul_one]
  omega

/-- The first page, and the partition of what is past it. -/
theorem PagePartition.cons {b head tail : T} {a s : Nat} {cs : List (Nat × T)} (ha : a < 2 ^ 64) (hs : 0 < s)
    (hd : s ∣ 2 ^ 64) (hcat : bytes b = bytes head ++ bytes tail) (hlen : SplitAtIndex.length head = s - a % s)
    (htail : 0 < SplitAtIndex.length tail) (h : PagePartition tail ((a + SplitAtIndex.length head) % 2 ^ 64) s cs) :
    PagePartition b a s ((a, head) :: cs) := by
  have hr : a % s < s := Nat.mod_lt _ hs
  have hend : s ∣ a + SplitAtIndex.length head := hlen ▸ dvd_pageEnd hs
  refine ⟨CutsOnPages.cons ha hcat hend htail h.toCutsOnPages, ?_, ?_, ?_⟩
  · intro c hc
    rcases List.mem_cons.mp hc with rfl | hc
    · show 0 < SplitAtIndex.length head
      omega
    · exact h.nonempty c hc
  · intro c hc
    rcases List.mem_cons.mp hc with rfl | hc
    · show a % s + SplitAtIndex.length head ≤ s
      omega
    · exact h.inPage c hc
  · refine h.starts_all ?_
    rw [Nat.mod_mod]
    exact (Nat.dvd_mod_iff hd).mpr hend

/-- A buffer that ends in the page it starts in is one chunk. -/
theorem PagePartition.single {b head : T} {a s : Nat} (ha : a < 2 ^ 64) (hb : 0 < SplitAtIndex.length b)
    (hcat : bytes b = bytes head) (hlen : a % s + SplitAtIndex.length b ≤ s) : PagePartition b a s [(a, head)] := by
  have hl : SplitAtIndex.length head = SplitAtIndex.length b := by
    rw [LawfulSplitAtIndex.length_eq, LawfulSplitAtIndex.length_eq, hcat]
  refine ⟨CutsOnPages.single ha hcat, ?_, ?_, by simp⟩
  · intro c hc
    rw [List.mem_singleton.mp hc, hl]
    exact hb
  · intro c hc
    rw [List.mem_singleton.mp hc, hl]
    exact hlen

theorem collect_partition {s : Nat} (hs : 0 < s) (hs' : s < 2 ^ 64) (hd : s ∣ 2 ^ 64)
    (check : Nat → T → Option T → Bool) (hc : ∀ a h t, check a h t = true) :
    ∀ (n : Nat) (b : T) (a : Nat), a < 2 ^ 64 → 0 < SplitAtIndex.length b → SplitAtIndex.length b < n →
      PagePartition b a s (collect n ⟨some b, a, s, check, 0⟩) := by
  intro n
  induction n with
  | zero => intro b a _ _ hn; omega
  | succ n ih =>
    intro b a ha hb hn
    have hv : (⟨some b, a, s, check, 0⟩ : PageChunkIterator T).v = some b := rfl
    obtain ⟨m, head, tail, hm, hcut, hnext, hend⟩ := next_spec hv
    have hm' : m = s - a % s := by
      have h1 := hend (hc a)
      have h2 : a % s < s := Nat.mod_lt _ hs
      rw [endLen_zero ha hs hs' hd] at h1
      omega
    have hcat := bytes_cut hcut
    rw [collect_cons n hnext]
    cases tail with
    | none =>
      rw [collect_none n rfl]
      have hlen : SplitAtIndex.length b ≤ m := (cut_right_none hcut).mp rfl
      have hr : a % s < s := Nat.mod_lt _ hs
      exact PagePartition.single ha hb (by simpa using hcat) (by omega)
    | some r =>
      obtain ⟨hlt, hlen⟩ := length_cut_right hcut rfl
      have hl : SplitAtIndex.length head = m := by
        rw [length_cut_left hcut, Nat.min_eq_left (by omega)]
      refine PagePartition.cons ha hs hd hcat (by omega) (by omega) ?_
      rw [hl]
      exact ih r _ (Nat.mod_lt _ (by omega)) (by omega) (by omega)

/-- Whatever its address, a buffer is partitioned at the page boundaries. -/
theorem pageChunks_partition (b : T) (a k : Nat) (ha : a < 2 ^ 64) (hk : k < 64) (hb : 0 < SplitAtIndex.length b) :
    PagePartition b a (2 ^ k) (pageChunks b a (2 ^ k)) :=
  collect_partition (Nat.two_pow_pos k) (Nat.pow_lt_pow_right (by omega) hk) (Nat.pow_dvd_pow 2 (by omega)) _
    (fun _ _ _ => rfl) _ b a ha hb (by omega)

/-- Two bytes across the top of the address space. -/
theorem pageChunks_partition_top :
    PagePartition [(7 : UInt8), 9] (2 ^ 64 - 1) (2 ^ 12) (pageChunks [(7 : UInt8), 9] (2 ^ 64 - 1) (2 ^ 12)) :=
  pageChunks_partition [(7 : UInt8), 9] (2 ^ 64 - 1) 12 (by decide) (by decide) (by decide)

end Lawful

end Jiaa
