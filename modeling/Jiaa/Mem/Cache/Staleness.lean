/-
  Jiaa.Mem.Cache.Staleness — how old the bytes are that a read through the cache returns
  (memflow `mem/cache/page_cache.rs`, `mem/cache/count_validator.rs`).

  The memory is anyone's between two calls. A slot that is counted as validated at call `t`
  holds bytes the memory held during call `t` or later: it is filled by a read of the whole
  page, and a write puts into it what it writes. Which types the accesses have does not
  matter.

  - `Recent.read`, `Recent.write`: what a call keeps of this;
  - `bounded_staleness`: the bytes returned were held during one of the last calls.
-/

import Jiaa.Mem.Cache.Transparency
import Mathlib.Data.List.Induction

namespace Jiaa

open Lib.LastWrite PageCache

namespace CachedMemoryAccess

variable {n : Nat} [NeZero n] {M : Type*} [PhysicalMemory M] [LawfulMemory M]

/-! ## Histories -/

/-- The bytes the memory holds during a call: the writes of a list are stored one by one. -/
def HeldDuring (s : CachedMemoryAccess n M CountCacheValidator) : MemoryOp → Nat → UInt8 → Prop
  | .read _ => fun a b => b = content s.mem a
  | .write data => fun a b => ∃ m ≤ data.length, b = applyWrites (content s.mem) (data.take m) a

/-- Calls, each with the state it was made in. -/
abbrev History (n : Nat) (M : Type*) := List (CachedMemoryAccess n M CountCacheValidator × MemoryOp)

def Past (hist : History n M) (t a : Nat) (b : UInt8) : Prop :=
  ∃ x, hist[t]? = some x ∧ HeldDuring x.1 x.2 a b

/-- A run of calls where the memory may be another one before each. -/
inductive Interfered (s0 : CachedMemoryAccess n M CountCacheValidator) :
    History n M → CachedMemoryAccess n M CountCacheValidator → Prop
  | start : Interfered s0 [] s0
  | step {hist : History n M} {s : CachedMemoryAccess n M CountCacheValidator} (mem : M) {op : MemoryOp} :
      Interfered s0 hist s → (∀ d ∈ op.data, d.1.address < 2 ^ 64) →
      Interfered s0 (hist ++ [({ s with mem := mem }, op)]) (apply { s with mem := mem } op)

omit [NeZero n] in
theorem held_content (s : CachedMemoryAccess n M CountCacheValidator) (op : MemoryOp) (a : Nat) :
    HeldDuring s op a (content s.mem a) := by
  cases op with
  | read l => rfl
  | write l => exact ⟨0, Nat.zero_le _, rfl⟩

omit [NeZero n] in
theorem Past.append {hist : History n M} {t a : Nat} {b : UInt8} (h : Past hist t a b)
    (x : CachedMemoryAccess n M CountCacheValidator × MemoryOp) : Past (hist ++ [x]) t a b := by
  obtain ⟨y, hy, hb⟩ := h
  have hlt := (List.getElem?_eq_some_iff.mp hy).1
  exact ⟨y, by rw [List.getElem?_append_left hlt]; exact hy, hb⟩

omit [NeZero n] in
theorem past_last {hist : History n M} {x : CachedMemoryAccess n M CountCacheValidator × MemoryOp} {a : Nat} {b : UInt8}
    (h : HeldDuring x.1 x.2 a b) : Past (hist ++ [x]) hist.length a b :=
  ⟨x, List.getElem?_concat_length, h⟩

/-- What the writes of a cached type write last was held while the list was stored. -/
theorem held_of_lastAt (p : PhysicalAddress × List UInt8 → Bool) {c : Nat → UInt8} {a : Nat} {v : UInt8}
    (data : List (PhysicalAddress × List UInt8)) : lastAt a (written (data.filter p)) = some v →
    ∃ m ≤ data.length, v = applyWrites c (data.take m) a := by
  induction data using List.reverseRecOn with
  | nil => intro h; cases h
  | append_singleton init d ih =>
    intro h
    have hprefix : lastAt a (written (init.filter p)) = some v →
        ∃ m ≤ (init ++ [d]).length, v = applyWrites c ((init ++ [d]).take m) a := by
      intro h
      obtain ⟨m, hm, hv⟩ := ih h
      exact ⟨m, by rw [List.length_append]; omega, by rw [List.take_append_of_le_length hm]; exact hv⟩
    have happ : ∀ l, written (init ++ l) = written init ++ written l := fun l => List.flatMap_append
    rw [List.filter_append] at h
    by_cases hp : p d = true
    · rw [List.filter_cons_of_pos hp, List.filter_nil] at h
      have hsplit : written (init.filter p ++ [d]) = written (init.filter p) ++ written [d] := List.flatMap_append
      rw [hsplit, lastAt_append] at h
      cases hd : lastAt a (written [d]) with
      | none => rw [hd, Option.none_or] at h; exact hprefix h
      | some w =>
        rw [hd, Option.some_or, Option.some.injEq] at h
        refine ⟨(init ++ [d]).length, Nat.le_refl _, ?_⟩
        rw [List.take_length, applyWrites_eq, happ, store, lastAt_append, hd, Option.some_or, Option.getD_some, h]
    · rw [List.filter_cons_of_neg hp, List.filter_nil, List.append_nil] at h
      exact hprefix h

/-! ## The window -/

/-- Bytes held during one of the last `V` of `k + 1` calls. -/
def InWindow (V k : Nat) (past : Nat → Nat → UInt8 → Prop) (a : Nat) (b : UInt8) : Prop :=
  ∃ t, k < t + V ∧ past t a b

/-- The counts of the slots at call `k`, the first one `0`. -/
structure Counting (V k : Nat) (q : CountCacheValidator) : Prop where
  last : q.lastCount = k
  count : q.validCount = V
  slots : ∀ i, q.count i ≤ k ∨ q.count i = 2 ^ 64 - V

theorem Counting.not_new {V k : Nat} {q : CountCacheValidator} (h : Counting V k q) (hk : k + V < 2 ^ 64) {i : Nat}
    (hv : isSlotValid q i = true) : q.count i ≤ k ∧ k < q.count i + V := by
  rcases h.slots i with hi | hi
  · refine ⟨hi, ?_⟩
    have h1 := (CountCacheValidator.valid_iff (by rw [h.last]; exact hi) (by rw [h.last]; omega)).mp hv
    rwa [h.last, h.count] at h1
  · have h1 := CountCacheValidator.new_not_valid (by rw [h.count]; exact hi) (by rw [h.last, h.count]; exact hk)
    rw [hv] at h1
    cases h1

theorem Counting.validate {V k : Nat} {q : CountCacheValidator} (h : Counting V k q) (i : Nat) :
    Counting V k (validateSlot q i) := by
  refine ⟨h.last, h.count, fun j => ?_⟩
  show Function.update q.count i q.lastCount j ≤ k ∨ Function.update q.count i q.lastCount j = 2 ^ 64 - V
  by_cases hj : j = i
  · rw [hj, Function.update_self, h.last]
    exact Or.inl (Nat.le_refl _)
  · rw [Function.update_of_ne hj]
    exact h.slots j

theorem Counting.update {V k : Nat} {q : CountCacheValidator} (h : Counting V k q) (hk : k + 1 < 2 ^ 64) :
    Counting V (k + 1) (updateValidity q) :=
  ⟨by show (q.lastCount + 1) % 2 ^ 64 = k + 1; rw [h.last, Nat.mod_eq_of_lt hk], h.count,
    fun i => (h.slots i).imp_left fun hi => Nat.le_succ_of_le hi⟩

/-- The bytes that call `k` may return, the memory holding `c`. -/
def window (n : Nat) {V k : Nat} (hV : 0 < V) (hk : k + 1 + V < 2 ^ 64) {past : Nat → Nat → UInt8 → Prop} {c : Nat → UInt8}
    (hc : ∀ a, past k a (c a)) : Freshness n CountCacheValidator c where
  Good := InWindow V k past
  Now q := Counting V (k + 1) q
  Slot q i a b := ∃ t, q.count i ≤ t + 1 ∧ past t a b
  read a _ := ⟨k, by omega, hc a⟩
  now q i h := h.validate i
  valid q i h := CountCacheValidator.validate_self (by rw [h.count]; exact hV) i
  other q i j h := CountCacheValidator.validate_other q fun e => h (Fin.ext e)
  deliver q i a b hq hv := by
    intro ⟨t, ht, hp⟩
    have hlt := (hq.not_new hk hv).2
    exact ⟨t, by omega, hp⟩
  refill q i a hq _ := by
    refine ⟨k, ?_, hc a⟩
    show Function.update q.count i q.lastCount i ≤ k + 1
    rw [Function.update_self, hq.last]
  keep q i j a b _ h := by
    intro ⟨t, ht, hp⟩
    refine ⟨t, ?_, hp⟩
    show Function.update q.count i q.lastCount j ≤ t + 1
    rw [Function.update_of_ne fun e => h (Fin.ext e)]
    exact ht

/-! ## What a call keeps -/

/-- Between two calls. -/
structure Recent (V : Nat) (hist : History n M) (s : CachedMemoryAccess n M CountCacheValidator) : Prop
    extends s.cache.Unmarked where
  whole : Whole s.cache
  counting : Counting V hist.length s.cache.validator
  held : ∀ i buf, s.cache.Cached i buf → ∀ j b, buf[j]? = some b →
    ∃ t, s.cache.validator.count i ≤ t + 1 ∧ Past hist t (s.cache.address i + j) b

section Calls

variable {V : Nat} {hist : History n M} {s : CachedMemoryAccess n M CountCacheValidator} {x : MemoryOp}

/-- The state a call starts with. -/
theorem Recent.sound (h : Recent V hist s) (hV : 0 < V) (hk : hist.length + 1 + V < 2 ^ 64) {c : Nat → UInt8}
    (hc : ∀ a, Past (hist ++ [(s, x)]) hist.length a (c a)) : (window n hV hk hc).Sound (updated s.cache) where
  length := h.length
  unmarked := h.unmarked
  now := h.counting.update (by omega)
  held i buf hb j b hj := by
    have hnew := (h.counting.update (by omega)).not_new (V := V) (by omega) hb.2.1
    have hle : s.cache.validator.count i ≤ hist.length := by
      rcases h.counting.slots i with hi | hi
      · exact hi
      · have h1 : s.cache.validator.count i ≤ hist.length + 1 := hnew.1
        omega
    have hvalid : isSlotValid s.cache.validator i = true := by
      refine (CountCacheValidator.valid_iff (by rw [h.counting.last]; exact hle) (by rw [h.counting.last]; omega)).mpr ?_
      have h1 : hist.length + 1 < s.cache.validator.count i + V := hnew.2
      rw [h.counting.last, h.counting.count]
      omega
    obtain ⟨t, ht, hp⟩ := h.held i buf ⟨hb.1, hvalid, hb.2.2⟩ j b hj
    exact ⟨t, ht, hp.append _⟩

theorem Recent.replace (h : Recent V hist s) (mem : M) : Recent V hist { s with mem := mem } := { h with }

variable {data : List (PhysicalAddress × List UInt8)}

theorem Recent.read [AnswersReads M] (h : Recent V hist s) (hV : 0 < V) (hk : hist.length + 1 + V < 2 ^ 64)
    (hdata : ∀ d ∈ data, d.1.address < 2 ^ 64) :
    Recent V (hist ++ [(s, .read data)]) (s.apply (.read data)) ∧
      Freshness.Filled (InWindow V hist.length (Past (hist ++ [(s, .read data)]))) data (PhysicalMemory.physReadRawList s data).2.1 := by
  have hsound := h.sound (x := .read data) hV hk fun a => past_last (held_content s (.read data) a)
  obtain ⟨hkept, hok⟩ := Freshness.physRead_spec _ rfl hsound hdata
  obtain ⟨hgone, hfill⟩ := hok (AnswersReads.read s data)
  refine ⟨⟨hkept.sound.toUnmarked, fun i hi => h.whole i (hgone i hi), ?_, fun i buf hc j b hj => ?_⟩,
    hfill fun d _ k _ => avoids_of_whole h.whole d k⟩
  · rw [List.length_append]
    exact hkept.sound.now
  · exact hkept.sound.held i buf hc j b hj

theorem Recent.write (h : Recent V hist s) (hV : 0 < V) (hk : hist.length + 1 + V < 2 ^ 64)
    (hdata : ∀ d ∈ data, d.1.address < 2 ^ 64) :
    Recent V (hist ++ [(s, .write data)]) (s.apply (.write data)) := by
  have hsound := h.sound (x := .write data) hV hk fun a => past_last (held_content s (.write data) a)
  have hover := writeBack_overlaid data hsound.toUnmarked hdata
  have hun := hover.unmarked hsound.toUnmarked
  refine ⟨hun, fun i hi => ?_, ?_, fun i buf hc j b hj => ?_⟩
  · obtain ⟨buf, hb⟩ := Option.ne_none_iff_exists'.mp (h.whole i)
    obtain ⟨buf', hb', -⟩ := hover.length i buf hb
    have hi' : (writeBack (updated s.cache) data).pageRefs i = none := hi
    rw [hb'] at hi'
    cases hi'
  · rw [List.length_append]
    show Counting V (hist.length + 1) (writeBack (updated s.cache) data).validator
    rw [hover.validator]
    exact hsound.now
  · obtain ⟨hown, hval⟩ := hover.cached_iff i
    have hc' : (writeBack (updated s.cache) data).Cached i buf := hc
    have haddr : (s.apply (.write data)).cache.address i = s.cache.address i := congrFun hover.address i
    have hcount : (s.apply (.write data)).cache.validator.count i = s.cache.validator.count i := by
      show (writeBack (updated s.cache) data).validator.count i = _
      rw [hover.validator]
      rfl
    rw [haddr, hcount]
    cases hb0 : s.cache.pageRefs i with
    | none => exact absurd hb0 (h.whole i)
    | some buf0 =>
      have hc0 : (updated s.cache).Cached i buf0 := ⟨hb0, hval ▸ hc'.2.1, hown.mp hc'.2.2⟩
      have hbuf := hover.cached i buf0 hc0
      rw [hc'.1, Option.some.injEq] at hbuf
      rw [hbuf, List.getElem?_mapIdx] at hj
      obtain ⟨b0, hb0, rfl⟩ := Option.map_eq_some_iff.mp hj
      have hheld := hsound.held i buf0 hc0 j b0 hb0
      cases hl : lastAt (s.cache.address i + j) (written ((updated s.cache).cachedWrites data)) with
      | none =>
        have hl' : lastAt ((updated s.cache).address i + j) (written ((updated s.cache).cachedWrites data)) = none := hl
        rw [hl', Option.getD_none]
        exact hheld
      | some v =>
        have hl' : lastAt ((updated s.cache).address i + j) (written ((updated s.cache).cachedWrites data)) = some v := hl
        rw [hl', Option.getD_some]
        refine ⟨hist.length, ?_, past_last (held_of_lastAt _ data hl)⟩
        exact ((hsound.now : Counting V (hist.length + 1) _).not_new (by omega) hc0.2.1).1

theorem recent_new (mem : M) {pageSize : Nat} (hd : pageSize ∣ 2 ^ 64) (hlt : pageSize < 2 ^ 64) (mask : PageType)
    (hV : 0 < V) (hV' : V < 2 ^ 63) :
    Recent V [] (⟨mem, withPageSize n pageSize hd hlt mask (CountCacheValidator.new V)⟩ :
      CachedMemoryAccess n M CountCacheValidator) := by
  have hcount : CountCacheValidator.wrappingSub 0 V = 2 ^ 64 - V := by
    unfold CountCacheValidator.wrappingSub
    omega
  have hcounting : Counting V 0 (withPageSize n pageSize hd hlt mask (CountCacheValidator.new V)).validator :=
    ⟨rfl, rfl, fun i => Or.inr (by simpa [withPageSize, CacheValidator.allocateSlots, CountCacheValidator.new] using hcount)⟩
  refine ⟨⟨fun i buf hb => ?_, fun i buf _ => rfl⟩, whole_new mem hd hlt mask _, hcounting, fun i buf hc => ?_⟩
  · cases hb
    exact List.length_replicate
  · have hnew := hcounting.not_new (by omega) hc.2.1
    have hslot : (withPageSize n pageSize hd hlt mask (CountCacheValidator.new V)).validator.count i = 2 ^ 64 - V := by
      simpa [withPageSize, CacheValidator.allocateSlots, CountCacheValidator.new] using hcount
    rw [hslot] at hnew
    omega

end Calls

/-- Every byte a read returns was held during one of the last `V` calls, its own one of
    them. -/
theorem bounded_staleness [NeverFails M] (mem : M) {pageSize : Nat} (hd : pageSize ∣ 2 ^ 64) (hlt : pageSize < 2 ^ 64)
    (mask : PageType) {V : Nat} (hV : 1 ≤ V) (hV' : V < 2 ^ 63) {hist : History n M}
    {s : CachedMemoryAccess n M CountCacheValidator}
    (hrun : Interfered ⟨mem, withPageSize n pageSize hd hlt mask (CountCacheValidator.new V)⟩ hist s)
    (hlen : hist.length + 1 < 2 ^ 63) (mem' : M) {data : List (PhysicalAddress × List UInt8)}
    (hdata : ∀ d ∈ data, d.1.address < 2 ^ 64) :
    (PhysicalMemory.physReadRawList ({ s with mem := mem' } : CachedMemoryAccess n M CountCacheValidator) data).2.2 = .ok () ∧
      Freshness.Filled (InWindow V hist.length (Past (hist ++ [({ s with mem := mem' }, .read data)]))) data
        (PhysicalMemory.physReadRawList ({ s with mem := mem' } : CachedMemoryAccess n M CountCacheValidator) data).2.1 := by
  have hrec : Recent V hist s := by
    clear hdata
    induction hrun with
    | start => exact recent_new mem hd hlt mask hV hV'
    | @step hist s mem'' op hprev hop ih =>
      rw [List.length_append, List.length_singleton] at hlen
      have h := (ih (by omega)).replace mem''
      cases op with
      | read l => exact (h.read hV (by omega) hop).1
      | write l => exact h.write hV (by omega) hop
  exact ⟨AnswersReads.read _ _, ((hrec.replace mem').read hV (by omega) hdata).2⟩

/-- A page read from a memory of zeros, and again when the memory holds sevens. -/
theorem bounded_staleness_replaced :
    let s0 : CachedMemoryAccess 2 FlatMemory CountCacheValidator := ⟨⟨fun _ => 0⟩, smallCache (CountCacheValidator.new 2)⟩
    let s : CachedMemoryAccess 2 FlatMemory CountCacheValidator :=
      { s0.apply (.read [(tableAt 0x20, [1])]) with mem := ⟨fun _ => 7⟩ }
    Freshness.Filled (InWindow 2 1 (Past [(s0, .read [(tableAt 0x20, [1])]), (s, .read [(tableAt 0x20, [1])])]))
      [(tableAt 0x20, [1])] (PhysicalMemory.physReadRawList s [(tableAt 0x20, [1])]).2.1 :=
  (bounded_staleness (⟨fun _ => 0⟩ : FlatMemory) ⟨2 ^ 60, rfl⟩ (by decide) (PageType.pageTable ||| PageType.readOnly)
    (by decide) (by decide) (.step ⟨fun _ => 0⟩ .start (by decide)) (by decide) ⟨fun _ => 7⟩ (by decide)).2

end CachedMemoryAccess

end Jiaa
